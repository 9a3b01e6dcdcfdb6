import CppBase.Sanity.ConfigConsumer

/-! Edits of a watched file and polls by `loadFileConfIfUpdate`. A poll sees the
current version if its change time is beyond the settling delay after that of
the version seen last; an edit inside the delay is never seen, however late the
poll, until the file is edited again. -/

namespace CppBase.CenterConfig

inductive FileEvent
  | edit (time : ℤ) (text : String)
  | poll (time : ℤ)

/-- The file and the number of its edits; and the ctime of the version picked up last, with the edits
it had. -/
structure Timeline where
  ctime : ℤ
  text : String
  edits : ℕ
  seen : Option (ℤ × ℕ)
  watched : BusiConfigManager × Consumer

namespace Timeline

variable (json : JsonCpp) (hash : String → String) (filePath : String) (parser : ContentParser)

def start (ctime : ℤ) (text : String) : Timeline := ⟨ctime, text, 0, none, watch filePath parser⟩

/-- The time that the watcher of the file has kept. -/
def lastUpdateTime (x : Timeline) : ℤ :=
  ((x.watched.1.watcherGroup.lookup filePath).map FileWatcher.lastUpdateTime).getD 0

/-- The ctime of the version picked up last, or 0. -/
def lastSeen (x : Timeline) : ℤ := (x.seen.map Prod.fst).getD 0

/-- The current version is beyond the settling delay after the one picked up last. -/
def Notices (x : Timeline) : Prop := x.lastSeen + waitSecond < x.ctime

instance decidableNotices (x : Timeline) : Decidable x.Notices :=
  inferInstanceAs (Decidable (_ < _))

def next (x : Timeline) : FileEvent → Timeline
  | .edit time text => { x with ctime := time, text := text, edits := x.edits + 1 }
  | .poll _ =>
    { x with
      seen := if x.Notices then some (x.ctime, x.edits) else x.seen
      watched := observe json hash filePath x.watched ⟨some x.ctime, some x.text⟩ }

/-- The consumer has the content of every id of the current version. -/
def Current (x : Timeline) : Prop :=
  ∀ id content, (parser.parse json x.text).lookup id = some content → x.watched.2 id = some content

/-- The current version is beyond the settling delay after the one picked up last, or is that one. -/
def Visible (x : Timeline) : Prop := x.Notices ∨ x.seen.map Prod.snd = some x.edits

def versions (text : String) (es : List FileEvent) : List String :=
  text :: es.filterMap fun | .edit _ text => some text | .poll _ => none

def occurringIn (text : String) (es : List FileEvent) : Set String :=
  { c | ∃ v ∈ versions text es, c ∈ contents json parser v }

variable {json hash filePath parser} {known : Set String} {x : Timeline}

structure Inv (json : JsonCpp) (hash : String → String) (filePath : String) (parser : ContentParser)
    (known : Set String) (x : Timeline) : Prop where
  synced : Synced hash filePath parser known x.watched
  watcher : ∃ w, x.watched.1.watcherGroup.lookup filePath = some w ∧ w.lastUpdateTime = x.lastSeen
  text : contents json parser x.text ⊆ known
  bound : ∀ n, x.seen.map Prod.snd = some n → n ≤ x.edits
  seen : x.seen.map Prod.snd = some x.edits → x.Current json parser

theorem inv_start {ctime : ℤ} {text : String} (h : contents json parser text ⊆ known) :
    Inv json hash filePath parser known (start filePath parser ctime text) := by
  refine ⟨synced_watch hash filePath parser known, ⟨⟨filePath, 0⟩, ?_, rfl⟩, h, nofun, nofun⟩
  exact AList.lookup_insert _

theorem Inv.edit (h : Inv json hash filePath parser known x) (time : ℤ) {text : String}
    (htext : contents json parser text ⊆ known) :
    Inv json hash filePath parser known (x.next json hash filePath (.edit time text)) := by
  refine ⟨h.synced, h.watcher, htext, fun n hn => (h.bound n hn).trans (Nat.le_succ _), ?_⟩
  intro hseen
  exact absurd (h.bound _ hseen) (Nat.not_succ_le_self _)

/-- The watcher keeps the ctime of the version picked up last. -/
theorem Inv.lastUpdateTime_eq (h : Inv json hash filePath parser known x) :
    x.lastUpdateTime filePath = x.lastSeen := by
  obtain ⟨w, hw, hlast⟩ := h.watcher
  simp [lastUpdateTime, hw, hlast]

theorem Inv.check_iff (h : Inv json hash filePath parser known x) : ∃ w,
    x.watched.1.watcherGroup.lookup filePath = some w ∧ w.lastUpdateTime = x.lastSeen ∧
      ((w.checkFileUpdate (some x.ctime)).1 = true ↔ x.Notices) := by
  obtain ⟨w, hw, hlast⟩ := h.watcher
  refine ⟨w, hw, hlast, ?_⟩
  rw [Notices, ← hlast, FileWatcher.checkFileUpdate]
  by_cases hlt : w.lastUpdateTime + waitSecond < x.ctime <;> simp [hlt]

/-- A poll that does not notice the file returns nothing. -/
theorem Inv.poll_unnoticed (h : Inv json hash filePath parser known x) (hno : ¬ x.Notices) (time : ℤ) :
    (x.next json hash filePath (.poll time)).watched.2 = x.watched.2 := by
  obtain ⟨w, hw, -, hcheck⟩ := h.check_iff
  have hread := (BusiConfigManager.loadBizConf_unnoticed json ⟨some x.ctime, some x.text⟩ hw
    (by rwa [← hcheck, Bool.not_eq_true] at hno)).1
  funext id
  show (observe json hash filePath x.watched _).2 id = _
  rw [observe_snd, Synced.returned_none (by rw [hread]; rfl), Option.none_or]

theorem Inv.current_of_unnoticed (h : Inv json hash filePath parser known x) (hno : ¬ x.Notices)
    (time : ℤ) :
    (x.next json hash filePath (.poll time)).Current json parser ↔ x.Current json parser := by
  rw [Current, h.poll_unnoticed hno time]
  rfl

/-- One that does leaves the consumer with the current version. -/
theorem Inv.poll_noticed (h : Inv json hash filePath parser known x) (hinj : Set.InjOn hash known)
    (hpath : filePath ≠ "") (hnotice : x.Notices) (time : ℤ) :
    (x.next json hash filePath (.poll time)).Current json parser := by
  obtain ⟨w, hw, -, hcheck⟩ := h.check_iff
  have hread := (BusiConfigManager.loadBizConf_noticed json ⟨some x.ctime, some x.text⟩ hw (hcheck.mpr hnotice)
    h.synced.parser hpath rfl).1
  intro id content hparse
  have hne : x.text ≠ "" := by
    intro hempty
    change (parser.parse json x.text).lookup id = some content at hparse
    rw [hempty, parse_nothing] at hparse
    cases hparse
  refine h.synced.agrees hinj (fun text htext => ?_) (by rw [hread, if_neg hne]; exact hparse)
  obtain rfl := Option.some.inj htext
  exact h.text

theorem Inv.poll (h : Inv json hash filePath parser known x) (hinj : Set.InjOn hash known) (hpath : filePath ≠ "")
    (time : ℤ) : Inv json hash filePath parser known (x.next json hash filePath (.poll time)) := by
  obtain ⟨w, hw, hlast, hcheck⟩ := h.check_iff
  have hframe := (BusiConfigManager.load_frame json hash x.watched.1 filePath ⟨some x.ctime, some x.text⟩).2
  have hsynced : Synced hash filePath parser known
      (observe json hash filePath x.watched ⟨some x.ctime, some x.text⟩) := by
    refine h.synced.observe fun text htext => ?_
    obtain rfl := Option.some.inj htext
    exact h.text
  by_cases hnotice : x.Notices
  · have hload := (BusiConfigManager.loadBizConf_noticed json ⟨some x.ctime, some x.text⟩ hw (hcheck.mpr hnotice)
      h.synced.parser hpath rfl).2
    have hseen : (x.next json hash filePath (.poll time)).seen = some (x.ctime, x.edits) := if_pos hnotice
    refine ⟨hsynced, ⟨(w.checkFileUpdate (some x.ctime)).2, ?_, ?_⟩, h.text, ?_, ?_⟩
    · show (BusiConfigManager.loadFileConfIfUpdate json hash _ filePath _).2.watcherGroup.lookup filePath = _
      rw [hframe, hload]
      exact AList.lookup_insert _
    · rw [lastSeen, hseen, w.checkFileUpdate_new (hlast ▸ hnotice)]
      rfl
    · intro n hn
      rw [hseen] at hn
      exact (Option.some.inj hn).ge
    · exact fun _ => h.poll_noticed hinj hpath hnotice time
  · have hload := (BusiConfigManager.loadBizConf_unnoticed json ⟨some x.ctime, some x.text⟩ hw
      (by rwa [← hcheck, Bool.not_eq_true] at hnotice)).2
    have hseen : (x.next json hash filePath (.poll time)).seen = x.seen := if_neg hnotice
    refine ⟨hsynced, ⟨w, ?_, ?_⟩, h.text, fun n hn => h.bound n (hseen ▸ hn), ?_⟩
    · show (BusiConfigManager.loadFileConfIfUpdate json hash _ filePath _).2.watcherGroup.lookup filePath = _
      rw [hframe, hload, hw]
    · rw [lastSeen, hseen]
      exact hlast
    · intro heq
      exact (h.current_of_unnoticed hnotice time).mpr (h.seen (hseen ▸ heq))

theorem Inv.run (h : Inv json hash filePath parser known x) (hinj : Set.InjOn hash known) (hpath : filePath ≠ "")
    {es : List FileEvent} (hes : ∀ time text, .edit time text ∈ es → contents json parser text ⊆ known) :
    Inv json hash filePath parser known (es.foldl (next json hash filePath) x) := by
  induction es generalizing x with
  | nil => exact h
  | cons e es ih =>
    refine ih ?_ fun time text hmem => hes time text (List.mem_cons_of_mem _ hmem)
    cases e with
    | edit time text => exact h.edit time (hes time text List.mem_cons_self)
    | poll time => exact h.poll hinj hpath time

/-- A poll brings the consumer up to date if the current version is beyond the
settling delay after the version picked up last, or is that version. Otherwise it
does so only if the consumer was up to date before it. The time that the watcher
has kept is that of the version picked up last. -/
theorem poll_current_of_visible (json : JsonCpp) {hash : String → String} {filePath : String}
    (hpath : filePath ≠ "")
    (parser : ContentParser) (ctime : ℤ) {text : String} {es : List FileEvent}
    (hinj : Set.InjOn hash (occurringIn json parser text es)) :
    ∀ pre time post, es = pre ++ .poll time :: post →
      let x := pre.foldl (next json hash filePath) (start filePath parser ctime text)
      x.lastUpdateTime filePath = x.lastSeen ∧
        (x.Visible → (x.next json hash filePath (.poll time)).Current json parser) ∧
        ((x.next json hash filePath (.poll time)).Current json parser ↔
          x.Notices ∨ x.Current json parser) := by
  rintro pre time post rfl x
  have hinv : Inv json hash filePath parser (occurringIn json parser text (pre ++ .poll time :: post)) x := by
    refine (inv_start ?_).run hinj hpath ?_
    · exact fun c hc => ⟨text, List.mem_cons_self, hc⟩
    · intro t v hmem c hc
      have hv : v ∈ versions text (pre ++ .poll time :: post) :=
        List.mem_cons_of_mem _ (List.mem_filterMap.mpr ⟨_, List.mem_append_left _ hmem, rfl⟩)
      exact ⟨v, hv, hc⟩
  have hiff : (x.next json hash filePath (.poll time)).Current json parser ↔
      x.Notices ∨ x.Current json parser := by
    by_cases hnotice : x.Notices
    · exact iff_of_true (hinv.poll_noticed hinj hpath hnotice time) (.inl hnotice)
    · rw [hinv.current_of_unnoticed hnotice time, or_iff_right hnotice]
  exact ⟨hinv.lastUpdateTime_eq, fun hvisible => hiff.mpr (hvisible.imp_right hinv.seen), hiff⟩

/-- Versions of the times 1000 and 1020. -/
theorem poll_current_spaced :
    let x := [.poll 1001, .edit 1020 "b"].foldl (next oneBusiness id "l5.config")
      (start "l5.config" (.json "businessId") 1000 "a")
    x.Visible ∧
      (x.next oneBusiness id "l5.config" (.poll 1031)).Current oneBusiness (.json "businessId") := by
  intro x
  have hvisible : x.Visible := .inl (by decide +kernel)
  have hpath : "l5.config" ≠ "" := by decide
  exact ⟨hvisible, (poll_current_of_visible oneBusiness hpath (.json "businessId") 1000 Function.injective_id.injOn
    [.poll 1001, .edit 1020 "b"] 1031 [] rfl).2.1 hvisible⟩

/-- An edit five seconds after the version that a poll has seen is not seen 95 seconds later. -/
theorem edit_in_delay_lost :
    let x := [.poll 1001, .edit 1005 "b", .poll 1100].foldl (next oneBusiness id "l5.config")
      (start "l5.config" (.json "businessId") 1000 "a")
    x.watched.2 "l5" = some "a" ∧ ¬ x.Current oneBusiness (.json "businessId") := by
  intro x
  have hold : x.watched.2 "l5" = some "a" := by decide +kernel
  have hnew : ((ContentParser.json "businessId").parse oneBusiness x.text).lookup "l5" = some "b" := by
    decide +kernel
  refine ⟨hold, fun hcurrent => ?_⟩
  have hb := hcurrent "l5" "b" hnew
  rw [hold] at hb
  exact absurd hb (by decide)

end Timeline

end CppBase.CenterConfig
