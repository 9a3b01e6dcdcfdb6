import CppBase.Sanity.ConfigConsumer
import CppBase.Sanity.ConfigSlots

/-! `removeFile` leaves the hashes of the file behind. When the file is added
again, what its next version has in common with the old one is not returned. -/

namespace CppBase.CenterConfig

open CppBase.Lib BusiConfigManager

variable {json : JsonCpp} {hash : String → String} {s t : BusiConfigManager} {filePath : String} {calls : List Call}

/-- A manager that knows what `s` knows about other paths, and has never watched this one. -/
def BusiConfigManager.forget (s : BusiConfigManager) (filePath : String) : BusiConfigManager :=
  ⟨s.fileBizMd5.erase filePath, s.fileParser.erase filePath, s.watcherGroup.erase filePath⟩

theorem slot_forget (s : BusiConfigManager) (filePath p : String) :
    (s.forget filePath).slot p = if p = filePath then ⟨none, none, fun _ => none⟩ else s.slot p := by
  by_cases hp : p = filePath
  · subst hp
    rw [if_pos rfl]
    refine Slot.ext (AList.lookup_erase _ _) (AList.lookup_erase _ _) ?_
    funext id
    simp [slot, storedMd5, forget]
  · rw [if_neg hp]
    refine Slot.ext (AList.lookup_erase_ne hp) (AList.lookup_erase_ne hp) ?_
    funext id
    simp [slot, storedMd5, forget, AList.lookup_erase_ne hp]

/-- No version of a file can have, for this business, a content with this hash. -/
def Unmatched (json : JsonCpp) (hash : String → String) (id : String) (md5 : Option String) : Prop :=
  ∀ (parser : ContentParser) (text c : String), (parser.parse json text).lookup id = some c → md5 ≠ some (hash c)

/-- The same slot, but for hashes that match nothing. No file is read under the empty path. -/
structure Alike (json : JsonCpp) (hash : String → String) (filePath : String) (x y : Slot) : Prop where
  watcher : x.watcher = y.watcher
  parser : x.parser = y.parser
  stored : filePath = "" ∨
    ∀ id, x.stored id = y.stored id ∨ x.stored id = none ∧ Unmatched json hash id (y.stored id)

section Alike

variable {x y : Slot} {file : FileRead}

theorem alike_refl (filePath : String) (x : Slot) : Alike json hash filePath x x :=
  ⟨rfl, rfl, .inr fun _ => .inl rfl⟩

theorem Alike.read_eq (h : Alike json hash filePath x y) (file : FileRead) :
    x.read json filePath file = y.read json filePath file := by
  have hx : x = { y with stored := x.stored } := Slot.ext h.watcher h.parser rfl
  rw [hx]
  rfl

theorem parse_of_read {id c : String} (h : (x.read json filePath file).lookup id = some c) :
    ∃ parser text, (ContentParser.parse json parser text).lookup id = some c := by
  unfold Slot.read Slot.parsed at h
  cases hp : x.parser with
  | none =>
    simp only [hp, ite_self] at h
    cases h
  | some parser =>
    rw [hp] at h
    split at h
    · split at h
      · cases h
      · exact ⟨parser, _, h⟩
    · cases h

/-- Both slots return the same of what they read, and store the same for it. -/
theorem Alike.load (h : Alike json hash filePath x y) (file : FileRead) :
    (x.call json hash (.load filePath file)).1 = (y.call json hash (.load filePath file)).1 ∧
      Alike json hash filePath (x.call json hash (.load filePath file)).2
        (y.call json hash (.load filePath file)).2 := by
  have hread := h.read_eq file
  have hlook : x.look filePath file = y.look filePath file := by
    simp only [Slot.look, h.watcher]
  rcases h.stored with hpath | hstored
  · have hempty : y.read json filePath file = ∅ := if_neg fun hne => hne.1 hpath
    refine ⟨?_, hlook, h.parser, .inl hpath⟩
    simp [Slot.call, hread, hempty, delta]
  · refine ⟨?_, hlook, h.parser, .inr fun id => ?_⟩
    · simp only [Slot.call, hread]
      congr 1
      funext id
      cases hc : (y.read json filePath file).lookup id with
      | none => simp [delta]
      | some c =>
        rcases hstored id with heq | ⟨hnone, hun⟩
        · rw [heq]
        · obtain ⟨parser, text, hparse⟩ := parse_of_read hc
          have hne := hun parser text c hparse
          simp [delta, hnone, hne]
    · simp only [Slot.call, hread]
      cases (y.read json filePath file).lookup id with
      | none => exact hstored id
      | some c => exact .inl rfl

theorem Alike.call {c : Call} (h : Alike json hash c.path x y) :
    (x.call json hash c).1 = (y.call json hash c).1 ∧
      Alike json hash c.path (x.call json hash c).2 (y.call json hash c).2 := by
  cases c with
  | load filePath file => exact h.load file
  | addFile filePath parser => exact ⟨rfl, by simp only [Slot.call, h.watcher], rfl, h.stored⟩
  | removeFile filePath => exact ⟨rfl, rfl, rfl, h.stored⟩
  | updateConfig filePath flag curTime => exact ⟨by simp only [Slot.call, h.watcher], h⟩

end Alike

/-- Calls on paths whose slots are alike do not tell the managers apart. -/
theorem answers_eq_of_alike {P : String → Prop} (h : ∀ p, P p → Alike json hash p (s.slot p) (t.slot p))
    {calls : List Call} (hcalls : ∀ c ∈ calls, P c.path) :
    answers (BusiConfigManager.call json hash) t calls = answers (BusiConfigManager.call json hash) s calls := by
  apply answers_eq_of_mem (R := fun s t => ∀ p, P p → Alike json hash p (s.slot p) (t.slot p)) _ h
  intro s t c hc hst
  have halike := (hst c.path (hcalls c hc)).call
  refine ⟨?_, fun p hp => ?_⟩
  · rw [answer_call, answer_call]
    exact halike.1.symm
  · rw [slot_call, slot_call]
    split
    · rename_i hpath
      subst hpath
      exact halike.2
    · exact hst p hp

/-- A hash that a version of the file can have keeps that version from being returned. -/
theorem answers_ne_of_matched (hpath : filePath ≠ "") {stored : String → Option String} {parser : ContentParser}
    {text id c : String} (ht : t.slot filePath = ⟨none, none, stored⟩)
    (hs : s.slot filePath = ⟨none, none, fun _ => none⟩) (hparse : (parser.parse json text).lookup id = some c)
    (hmatch : stored id = some (hash c)) :
    ∃ calls, answers (BusiConfigManager.call json hash) t calls ≠
      answers (BusiConfigManager.call json hash) s calls := by
  let file : FileRead := ⟨some 11, some text⟩
  refine ⟨[.addFile filePath parser, .load filePath file], fun heq => ?_⟩
  have hread : ∀ st, Slot.read json filePath ⟨some ⟨filePath, 0⟩, some parser, st⟩ file =
      parser.parse json text :=
    fun st => Slot.read_new json hpath rfl rfl (show (0 : ℤ) + waitSecond < 11 by decide) (some text)
  have hslot : ∀ (u : BusiConfigManager) st, u.slot filePath = ⟨none, none, st⟩ →
      ((u.call json hash (.addFile filePath parser)).2.slot filePath) = ⟨some ⟨filePath, 0⟩, some parser, st⟩ := by
    intro u st hu
    rw [slot_call, Call.path, if_pos rfl, hu]
    rfl
  -- the second answers, at the id in question
  have hloads := (List.cons.inj (List.cons.inj heq).2).1
  rw [answer_call, answer_call, Call.path, hslot t _ ht, hslot s _ hs] at hloads
  have hid := congrFun (Answer.conf.inj hloads) id
  simp [hread, hparse, delta, hmatch] at hid

theorem slot_removed (hcalls : ∀ c ∈ calls, c.path = filePath) (p : String) :
    ((s.run json hash calls).removeFile filePath).slot p =
      if p = filePath then ⟨none, none, (s.run json hash calls).storedMd5 filePath⟩ else s.slot p := by
  have hremove := slot_call json hash (s.run json hash calls) (.removeFile filePath) p
  refine hremove.trans ?_
  rw [Call.path]
  split
  · rename_i hp
    rw [hp]
    rfl
  · rename_i hp
    exact slot_run_of_idle fun c hc hpath => absurd (hpath.symm.trans (hcalls c hc)) hp

theorem unmatched_none (json : JsonCpp) (hash : String → String) (id : String) : Unmatched json hash id none := by
  intro parser text c _ hmatch
  cases hmatch

/-- As long as no load returns anything, no hash is stored. -/
theorem storedMd5_of_returns_nothing (json : JsonCpp) (hash : String → String)
    (hs : s.storedMd5 filePath = fun _ => none) (hcalls : ∀ c ∈ calls, c.path = filePath)
    (hnothing : ∀ result, .conf result ∈ answers (BusiConfigManager.call json hash) s calls →
      result = fun _ => none) : (s.run json hash calls).storedMd5 filePath = fun _ => none := by
  induction calls generalizing s with
  | nil => exact hs
  | cons c calls ih =>
    refine ih ?_ (fun d hd => hcalls d (List.mem_cons_of_mem c hd))
      fun result hmem => hnothing result (List.mem_cons_of_mem _ hmem)
    have hstored : (s.slot filePath).stored = fun _ => none := hs
    have hslot := slot_call json hash s c filePath
    rw [hcalls c List.mem_cons_self, if_pos rfl] at hslot
    show ((s.call json hash c).2.slot filePath).stored = fun _ => none
    rw [hslot]
    cases c with
    | addFile filePath parser => exact hstored
    | removeFile filePath => exact hstored
    | updateConfig filePath flag curTime => exact hstored
    | load filePath' file =>
      obtain rfl : filePath' = filePath := hcalls _ List.mem_cons_self
      -- what is read is returned, since nothing is stored
      have hanswer := answer_call json hash s (.load filePath' file)
      have hread := hnothing _ (List.mem_cons.mpr (.inl hanswer.symm))
      funext id
      have hid := congrFun hread id
      simp only [Slot.call, Call.path, hstored] at hid ⊢
      cases hc : ((s.slot filePath').read json filePath' file).lookup id with
      | none => rfl
      | some c => simp [hc, delta] at hid

/-- After calls on one path and its removal, the manager cannot be told from one
that never watched the path exactly if it has kept no hash of a content that a
version of the file can have. Calls on other paths never notice. -/
theorem removed_file_forgotten_iff (json : JsonCpp) (hash : String → String) (s : BusiConfigManager)
    (filePath : String) (calls : List Call) (hcalls : ∀ c ∈ calls, c.path = filePath) :
    let t := (s.run json hash calls).removeFile filePath
    ((∀ later, answers (BusiConfigManager.call json hash) t later =
        answers (BusiConfigManager.call json hash) (s.forget filePath) later) ↔
      filePath = "" ∨ ∀ id, Unmatched json hash id ((s.run json hash calls).storedMd5 filePath id)) ∧
    ∀ later : List Call, (∀ c ∈ later, c.path ≠ filePath) →
      answers (BusiConfigManager.call json hash) t later = answers (BusiConfigManager.call json hash) s later := by
  intro t
  have hslot : ∀ p, t.slot p =
      if p = filePath then ⟨none, none, (s.run json hash calls).storedMd5 filePath⟩ else s.slot p :=
    slot_removed hcalls
  refine ⟨⟨fun hsame => ?_, fun hstored later => ?_⟩, fun later hlater => ?_⟩
  · by_contra hnot
    obtain ⟨hpath, hmatched⟩ := not_or.mp hnot
    simp only [Unmatched, not_forall, not_not] at hmatched
    obtain ⟨id, parser, text, c, hparse, hmatch⟩ := hmatched
    obtain ⟨later, hne⟩ := answers_ne_of_matched hpath ((hslot filePath).trans (if_pos rfl))
      ((slot_forget s filePath filePath).trans (if_pos rfl)) hparse hmatch
    exact hne (hsame later)
  · refine answers_eq_of_alike (P := fun _ => True) (fun p _ => ?_) fun _ _ => trivial
    rw [hslot, slot_forget]
    split
    · rename_i hp
      exact ⟨rfl, rfl, hstored.imp (hp.trans ·) fun hun id => .inr ⟨rfl, hun id⟩⟩
    · exact alike_refl p _
  · refine answers_eq_of_alike (P := fun p => p ≠ filePath) (fun p hp => ?_) hlater
    rw [hslot, if_neg hp]
    exact alike_refl p _

/-- Nothing was ever loaded: the file is forgotten. -/
theorem removed_file_forgotten_unread :
    let removed := (BusiConfigManager.init.run oneBusiness id
      [.addFile "l5.config" (.json "businessId"), .load "l5.config" ⟨some 100, none⟩]).removeFile "l5.config"
    let later := [Call.addFile "l5.config" (.json "businessId"), .load "l5.config" ⟨some 200, some "a"⟩]
    answers (BusiConfigManager.call oneBusiness id) removed later =
      answers (BusiConfigManager.call oneBusiness id) (BusiConfigManager.init.forget "l5.config") later := by
  have hcalls : ∀ c ∈ [Call.addFile "l5.config" (.json "businessId"), .load "l5.config" ⟨some 100, none⟩],
      c.path = "l5.config" := by simp [Call.path]
  apply (removed_file_forgotten_iff oneBusiness id BusiConfigManager.init "l5.config" _ hcalls).1.mpr
  right
  intro id'
  rw [storedMd5_of_returns_nothing oneBusiness id rfl hcalls]
  · exact unmatched_none _ _ _
  · intro result hmem
    obtain hmem | hmem := List.mem_cons.mp hmem
    · cases hmem
    · exact Answer.conf.inj (List.mem_singleton.mp hmem)

/-- Removed and added again, the file gives its consumer nothing; a manager that
never watched it returns the configuration. -/
theorem removed_file_remembered :
    let removed := (BusiConfigManager.init.run oneBusiness id
      [.addFile "l5.config" (.json "businessId"), .load "l5.config" ⟨some 100, some "a"⟩]).removeFile "l5.config"
    let again (s : BusiConfigManager) := ((s.addFile "l5.config" (.json "businessId")).loadFileConfIfUpdate
      oneBusiness id "l5.config" ⟨some 200, some "a"⟩).1.lookup "l5"
    again removed = none ∧ again (BusiConfigManager.init.forget "l5.config") = some "a" := by
  decide +kernel

end CppBase.CenterConfig
