import CppBase.Sanity.ConfigConsumer
import CppBase.Sanity.ConfigSlots

/-! A watcher marks a version as seen before the file is opened, read and parsed.
If one of these fails the version is lost: a later call finds nothing new. -/

namespace CppBase.CenterConfig

open BusiConfigManager

variable {json : JsonCpp} {hash : String → String} {s : BusiConfigManager} {filePath : String} {w : FileWatcher}
  {parser : ContentParser} {changeTime : ℤ} {x : Slot}

/-- What may happen to the path while the file has this ctime: calls that do not add or remove it. -/
def Polls (filePath : String) (changeTime : ℤ) (c : Call) : Prop :=
  c.path = filePath → (∃ flag curTime, c = .updateConfig filePath flag curTime) ∨
    ∃ content, c = .load filePath ⟨some changeTime, content⟩

section Slots

def Slot.Seen (x : Slot) (changeTime : ℤ) : Prop := ∃ w, x.watcher = some w ∧ w.lastUpdateTime = changeTime

theorem Slot.Seen.unnoticed (h : x.Seen changeTime) (filePath : String) (content : Option String) :
    x.noticed ⟨some changeTime, content⟩ = false ∧ x.look filePath ⟨some changeTime, content⟩ = x.watcher := by
  obtain ⟨w, hw, rfl⟩ := h
  have hcheck : w.checkFileUpdate (some w.lastUpdateTime) = (false, w) := by
    refine if_neg ?_
    unfold waitSecond
    omega
  simp [Slot.noticed, Slot.look, hw, hcheck]

theorem Slot.Seen.load (h : x.Seen changeTime) (content : Option String) :
    x.call json hash (.load filePath ⟨some changeTime, content⟩) = (.conf fun _ => none, x) := by
  obtain ⟨hnot, hlook⟩ := h.unnoticed filePath content
  have hread : x.read json filePath ⟨some changeTime, content⟩ = ∅ := if_neg (by simp [hnot])
  simp [Slot.call, hread, hlook, delta]

theorem Slot.Seen.idle (h : x.Seen changeTime) {c : Call} (hc : Polls filePath changeTime c)
    (hpath : c.path = filePath) : (x.call json hash c).2 = x := by
  rcases hc hpath with ⟨flag, curTime, rfl⟩ | ⟨content, rfl⟩
  · rfl
  · rw [h.load]

/-- A new version is read, and counts as seen whether that has given anything or not. -/
theorem Slot.load_new (json : JsonCpp) (hash : String → String) (hpath : filePath ≠ "")
    (hw : x.watcher = some w) (hp : x.parser = some parser)
    (hnew : w.lastUpdateTime + waitSecond < changeTime) (content : Option String) :
    x.read json filePath ⟨some changeTime, content⟩ = parser.parse json (content.getD "") ∧
      (x.call json hash (.load filePath ⟨some changeTime, content⟩)).2.Seen changeTime := by
  refine ⟨Slot.read_new json hpath hw hp hnew content, { w with lastUpdateTime := changeTime }, ?_, rfl⟩
  simp [Slot.call, Slot.look, hpath, hw, w.checkFileUpdate_new hnew]

end Slots

/-- The first poll of a new version is the one that sees it. -/
theorem slot_polls (json : JsonCpp) (hash : String → String) (hpath : filePath ≠ "")
    (hw : (s.slot filePath).watcher = some w)
    (hp : (s.slot filePath).parser = some parser) (hnew : w.lastUpdateTime + waitSecond < changeTime)
    {between : List Call} (hbetween : ∀ c ∈ between, Polls filePath changeTime c) :
    (∃ file, Call.load filePath file ∈ between) ∧ ((s.run json hash between).slot filePath).Seen changeTime ∨
      (¬ ∃ file, Call.load filePath file ∈ between) ∧ (s.run json hash between).slot filePath = s.slot filePath := by
  by_cases hload : ∃ file, Call.load filePath file ∈ between
  · left
    refine ⟨hload, ?_⟩
    induction between generalizing s with
    | nil => simp at hload
    | cons c between ih =>
      have hrest : ∀ c ∈ between, Polls filePath changeTime c := fun d hd => hbetween d (List.mem_cons_of_mem c hd)
      have hslot := slot_call json hash s c filePath
      rw [run_cons]
      by_cases hc : c.path = filePath
      · rw [if_pos hc.symm] at hslot
        rcases hbetween c List.mem_cons_self hc with ⟨flag, curTime, rfl⟩ | ⟨content, rfl⟩
        · have hsame : (s.call json hash (.updateConfig filePath flag curTime)).2.slot filePath =
              s.slot filePath := hslot
          exact ih (hsame ▸ hw) (hsame ▸ hp) hrest (by simpa using hload)
        · -- from here on every poll leaves the slot alone
          have hseen := (Slot.load_new json hash hpath hw hp hnew content).2
          rw [← hslot] at hseen
          rw [slot_run_of_idle fun d hd hd' => hseen.idle (hrest d hd) hd']
          exact hseen
      · rw [if_neg (Ne.symm hc)] at hslot
        refine ih (hslot ▸ hw) (hslot ▸ hp) hrest ?_
        obtain ⟨file, hmem⟩ := hload
        rcases List.mem_cons.mp hmem with rfl | hmem
        · exact absurd rfl hc
        · exact ⟨file, hmem⟩
  · right
    refine ⟨hload, slot_run_of_idle fun c hc hcpath => ?_⟩
    rcases hbetween c hc hcpath with ⟨flag, curTime, rfl⟩ | ⟨content, rfl⟩
    · rfl
    · exact absurd ⟨_, hc⟩ hload

theorem delta_eq_none {stored content : Option String} :
    delta hash stored content = none ↔ ∀ c, content = some c → stored = some (hash c) := by
  unfold delta
  cases content with
  | none => simp
  | some c => simp

def returned (json : JsonCpp) (hash : String → String) (filePath : String) (file : FileRead) (s : BusiConfigManager)
    (id : String) : Option String :=
  (s.loadFileConfIfUpdate json hash filePath file).1.lookup id

theorem conf_returned (json : JsonCpp) (hash : String → String) (s : BusiConfigManager) (filePath : String)
    (file : FileRead) : Answer.conf (returned json hash filePath file s) =
    ((s.slot filePath).call json hash (.load filePath file)).1 :=
  answer_call json hash s (.load filePath file)

/-- A new version is found whose content gives nothing, and a later call finds the
file readable with the same ctime. That call returns what it would have returned
without the failed one exactly if another poll came in between, or the content
has nothing that is not stored already. -/
theorem failed_load_iff (json : JsonCpp) (hash : String → String) (s : BusiConfigManager) (filePath : String)
    (w : FileWatcher) (parser : ContentParser) (changeTime : ℤ) (failed : Option String) (text : String)
    (between : List Call) (hpath : filePath ≠ "") (hw : s.watcherGroup.lookup filePath = some w)
    (hp : s.fileParser.lookup filePath = some parser) (hnew : w.lastUpdateTime + waitSecond < changeTime)
    (hfailed : parser.parse json (failed.getD "") = ∅) (hbetween : ∀ c ∈ between, Polls filePath changeTime c) :
    let afterFailed := (s.loadFileConfIfUpdate json hash filePath ⟨some changeTime, failed⟩).2
    let later := returned json hash filePath ⟨some changeTime, some text⟩
    returned json hash filePath ⟨some changeTime, failed⟩ s = (fun _ => none) ∧
      (later (afterFailed.run json hash between) = later (s.run json hash between) ↔
        (∃ file, Call.load filePath file ∈ between) ∨
          ∀ id c, (parser.parse json text).lookup id = some c → s.storedMd5 filePath id = some (hash c)) := by
  intro afterFailed later
  obtain ⟨hread, hseen⟩ := Slot.load_new (x := s.slot filePath) json hash hpath hw hp hnew failed
  have hafter : afterFailed.slot filePath =
      ((s.slot filePath).call json hash (.load filePath ⟨some changeTime, failed⟩)).2 :=
    (slot_load json hash s filePath _ filePath).trans (if_pos rfl)
  -- a slot that has seen the version returns nothing for it
  have hnone : ∀ u : BusiConfigManager, (u.slot filePath).Seen changeTime → later u = fun _ => none := by
    intro u hu
    have hload := conf_returned json hash u filePath ⟨some changeTime, some text⟩
    rw [hu.load] at hload
    exact Answer.conf.inj hload
  have hlost : later (afterFailed.run json hash between) = fun _ => none := by
    rw [← hafter] at hseen
    apply hnone
    rw [slot_run_of_idle fun c hc hcpath => hseen.idle (hbetween c hc) hcpath]
    exact hseen
  refine ⟨?_, ?_⟩
  · have hload := conf_returned json hash s filePath ⟨some changeTime, failed⟩
    simp only [Slot.call, hread, hfailed, AList.lookup_empty, delta, Option.map_none, ite_self] at hload
    exact Answer.conf.inj hload
  · rw [hlost]
    rcases slot_polls json hash hpath hw hp hnew hbetween with ⟨hpoll, hseen'⟩ | ⟨hpoll, hslot⟩
    · simp [hnone _ hseen', hpoll]
    · have hload := conf_returned json hash (s.run json hash between) filePath
        ⟨some changeTime, some text⟩
      have hnow := (Slot.load_new (x := s.slot filePath) json hash hpath hw hp hnew (some text)).1
      rw [hslot] at hload
      simp only [Slot.call, hnow] at hload
      have hreturn : later (s.run json hash between) = _ := Answer.conf.inj hload
      rw [or_iff_right hpoll, hreturn, funext_iff]
      exact forall_congr' fun id => eq_comm.trans delta_eq_none

/-- Touched, but not edited: the version that could not be opened had nothing new. -/
theorem failed_load_touched :
    let s := BusiConfigManager.init.run oneBusiness id
      [.addFile "l5.config" (.json "businessId"), .load "l5.config" ⟨some 100, some "a"⟩]
    let later := returned oneBusiness id "l5.config" ⟨some 200, some "a"⟩
    later (s.loadFileConfIfUpdate oneBusiness id "l5.config" ⟨some 200, none⟩).2 = later s := by
  intro s later
  have h := failed_load_iff oneBusiness id s "l5.config" ⟨"l5.config", 100⟩ (.json "businessId") 200 none "a" []
    (by decide) (by decide +kernel) rfl (by decide) (parse_nothing _ _) nofun
  refine h.2.mpr (.inr fun id c hc => ?_)
  have hmem : (⟨id, c⟩ : Sigma fun _ : String => String) ∈ [⟨"l5", "a"⟩] := AList.mem_lookup_iff.mp hc
  obtain ⟨rfl, rfl⟩ : id = "l5" ∧ c = "a" := by simpa using hmem
  decide +kernel

/-- The file cannot be opened when it is noticed; when it can be, its first version is not returned. -/
theorem failed_load_loses_version :
    let s := BusiConfigManager.init.addFile "l5.config" (.json "businessId")
    let failed := (s.loadFileConfIfUpdate oneBusiness id "l5.config" ⟨some 100, none⟩).2
    let later := returned oneBusiness id "l5.config" ⟨some 100, some "a"⟩
    later failed "l5" = none ∧ later s "l5" = some "a" := by
  decide +kernel

end CppBase.CenterConfig
