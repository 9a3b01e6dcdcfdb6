import CppBase.Lib.Machine
import CppBase.Sanity.ConfigSync

/-! The manager file by file. A call reads and changes what the three maps hold
under its own path, so the manager is a family of independent slots, one for
each path. -/

namespace CppBase.CenterConfig

open CppBase.Lib

section Calls

inductive Call
  | addFile (filePath : String) (parser : ContentParser)
  | removeFile (filePath : String)
  | updateConfig (filePath : String) (flag : UpdateFlag) (curTime : ℤ)
  | load (filePath : String) (file : FileRead)

def Call.path : Call → String
  | .addFile filePath _ => filePath
  | .removeFile filePath => filePath
  | .updateConfig filePath _ _ => filePath
  | .load filePath _ => filePath

/-- A return value with the arguments of `utime` if it is called, or the map that is returned. -/
inductive Answer
  | code (ret : ℤ) (times : Option Utimbuf)
  | conf (result : String → Option String)

def BusiConfigManager.call (json : JsonCpp) (hash : String → String) (s : BusiConfigManager) :
    Call → Answer × BusiConfigManager
  | .addFile filePath parser => (.code 0 none, s.addFile filePath parser)
  | .removeFile filePath => (.code 0 none, s.removeFile filePath)
  | .updateConfig filePath .success curTime =>
    (.code (s.updateConfigSuccess filePath curTime).1 (s.updateConfigSuccess filePath curTime).2, s)
  | .updateConfig filePath .failed curTime =>
    (.code (s.updateConfigFailed filePath curTime).1 (s.updateConfigFailed filePath curTime).2, s)
  | .load filePath file =>
    (.conf fun id => (s.loadFileConfIfUpdate json hash filePath file).1.lookup id,
      (s.loadFileConfIfUpdate json hash filePath file).2)

def BusiConfigManager.run (json : JsonCpp) (hash : String → String) (s : BusiConfigManager) (calls : List Call) :
    BusiConfigManager :=
  calls.foldl (fun s c => (s.call json hash c).2) s

end Calls

section Slots

@[ext] structure Slot where
  watcher : Option FileWatcher
  parser : Option ContentParser
  stored : String → Option String

def BusiConfigManager.slot (s : BusiConfigManager) (filePath : String) : Slot :=
  ⟨s.watcherGroup.lookup filePath, s.fileParser.lookup filePath, s.storedMd5 filePath⟩

def Slot.parsed (json : JsonCpp) (x : Slot) (file : FileRead) : ConfMap :=
  if FileWatcher.getFileContent file.content = "" then ∅
  else
    match x.parser with
    | some parser => parser.parse json (FileWatcher.getFileContent file.content)
    | none => ∅

def Slot.noticed (x : Slot) (file : FileRead) : Bool := x.watcher.any fun w => (w.checkFileUpdate file.ctime).1

def Slot.read (json : JsonCpp) (filePath : String) (x : Slot) (file : FileRead) : ConfMap :=
  if filePath ≠ "" ∧ x.noticed file = true then x.parsed json file else ∅

def Slot.look (filePath : String) (x : Slot) (file : FileRead) : Option FileWatcher :=
  if filePath = "" then x.watcher else x.watcher.map fun w => (w.checkFileUpdate file.ctime).2

def Slot.call (json : JsonCpp) (hash : String → String) (x : Slot) : Call → Answer × Slot
  | .addFile filePath parser =>
    (.code 0 none, { x with watcher := x.watcher.or (some ⟨filePath, 0⟩), parser := some parser })
  | .removeFile _ => (.code 0 none, { x with watcher := none, parser := none })
  | .updateConfig _ flag curTime =>
    (.code (if x.watcher.isSome then 0 else -1) (x.watcher.map fun w => w.changeFileMtime flag curTime), x)
  | .load filePath file =>
    (.conf fun id => BusiConfigManager.delta hash (x.stored id) ((x.read json filePath file).lookup id),
      ⟨x.look filePath file, x.parser,
        fun id => (((x.read json filePath file).lookup id).map hash).or (x.stored id)⟩)

end Slots

section NewVersion

variable {filePath : String} {x : Slot} {w : FileWatcher} {parser : ContentParser} {changeTime : ℤ}

theorem Slot.read_new (json : JsonCpp) (hpath : filePath ≠ "") (hw : x.watcher = some w)
    (hp : x.parser = some parser) (hnew : w.lastUpdateTime + waitSecond < changeTime) (content : Option String) :
    x.read json filePath ⟨some changeTime, content⟩ = parser.parse json (content.getD "") := by
  by_cases htext : content.getD "" = ""
  · simp [Slot.read, Slot.parsed, FileWatcher.getFileContent, htext, parse_nothing]
  · simp [Slot.read, Slot.noticed, Slot.parsed, FileWatcher.getFileContent, hpath, hw, hp, htext,
      w.checkFileUpdate_new hnew]

end NewVersion

namespace BusiConfigManager

variable {json : JsonCpp} {hash : String → String} {s : BusiConfigManager} {filePath p : String}

section Maps

theorem lookup_addFileWatcher (g : FileWatcherGroup) (filePath p : String) :
    (g.addFileWatcher filePath).lookup p =
      if p = filePath then (g.lookup p).or (some ⟨filePath, 0⟩) else g.lookup p := by
  unfold FileWatcherGroup.addFileWatcher
  by_cases hp : p = filePath
  · subst hp
    by_cases hmem : p ∈ g
    · obtain ⟨w, hw⟩ := Option.isSome_iff_exists.mp (AList.lookup_isSome.mpr hmem)
      rw [if_pos hmem, if_pos rfl, hw, Option.some_or]
    · rw [if_neg hmem, if_pos rfl, AList.lookup_insert, AList.lookup_eq_none.mpr hmem, Option.none_or]
  · rw [if_neg hp]
    split
    · rfl
    · exact AList.lookup_insert_ne hp

theorem lookup_erased {α : Type} (m : StringMap α) (k p : String) :
    (if k ∈ m then m.erase k else m).lookup p = if p = k then none else m.lookup p := by
  by_cases hp : p = k
  · subst hp
    rw [if_pos rfl]
    split
    · exact AList.lookup_erase _ _
    · rename_i hmem
      exact AList.lookup_eq_none.mpr hmem
  · rw [if_neg hp]
    split
    · exact AList.lookup_erase_ne hp
    · rfl

end Maps

section Loading

theorem lookup_loadFileUpdate (g : FileWatcherGroup) (filePath : String) (file : FileRead) (p : String) :
    (g.loadFileUpdate filePath file).2.lookup p =
      if p = filePath then (g.lookup p).map fun w => (w.checkFileUpdate file.ctime).2 else g.lookup p := by
  have hstill : ∀ w : FileWatcher, (w.checkFileUpdate file.ctime).1 = false →
      (w.checkFileUpdate file.ctime).2 = w := by
    intro w
    unfold FileWatcher.checkFileUpdate
    cases file.ctime with
    | none => exact fun _ => rfl
    | some changeTime =>
      dsimp only
      split
      · nofun
      · exact fun _ => rfl
  by_cases hp : p = filePath
  · subst hp
    simp only [FileWatcherGroup.loadFileUpdate, if_true]
    cases hw : g.lookup p with
    | none => simp [hw]
    | some w =>
      cases hcheck : (w.checkFileUpdate file.ctime).1 with
      | true => simp [hcheck]
      | false => simp [hcheck, hw, hstill w hcheck]
  · rw [if_neg hp]
    unfold FileWatcherGroup.loadFileUpdate
    cases g.lookup filePath with
    | none => rfl
    | some w =>
      dsimp only
      split
      · exact AList.lookup_insert_ne hp
      · rfl

theorem loadBizConf_watchers (json : JsonCpp) (s : BusiConfigManager) (filePath : String) (file : FileRead)
    (p : String) : (s.loadBizConf json filePath file).2.watcherGroup.lookup p =
      if p = filePath then (s.slot p).look filePath file else s.watcherGroup.lookup p := by
  unfold Slot.look
  by_cases hpath : filePath = ""
  · simp [loadBizConf, hpath, slot]
  · have hgroup : (s.loadBizConf json filePath file).2.watcherGroup =
        (s.watcherGroup.loadFileUpdate filePath file).2 := by
      rw [loadBizConf, if_neg hpath]
      dsimp only
      split
      · rfl
      · cases s.fileParser.lookup filePath <;> rfl
    rw [hgroup, lookup_loadFileUpdate, if_neg hpath]
    rfl

theorem loadBizConf_read (json : JsonCpp) (s : BusiConfigManager) (filePath : String) (file : FileRead) :
    (s.loadBizConf json filePath file).1 = (s.slot filePath).read json filePath file := by
  unfold loadBizConf Slot.read Slot.noticed Slot.parsed slot
  by_cases hpath : filePath = ""
  · simp [hpath]
  · cases hw : s.watcherGroup.lookup filePath with
    | none => simp [hpath, FileWatcherGroup.loadFileUpdate, hw]
    | some w =>
      cases hcheck : (w.checkFileUpdate file.ctime).1 with
      | false => simp [hpath, FileWatcherGroup.loadFileUpdate, hw, hcheck]
      | true =>
        by_cases htext : FileWatcher.getFileContent file.content = ""
        · simp [hpath, FileWatcherGroup.loadFileUpdate, hw, hcheck, htext]
        · cases s.fileParser.lookup filePath <;> simp [hpath, FileWatcherGroup.loadFileUpdate, hw, hcheck, htext]

theorem storedMd5_load_of_ne (json : JsonCpp) (hash : String → String) (s : BusiConfigManager) (file : FileRead)
    (hp : p ≠ filePath) : (s.loadFileConfIfUpdate json hash filePath file).2.storedMd5 p = s.storedMd5 p := by
  have hframe := (loadBizConf_frame json s filePath file).1
  funext id
  unfold loadFileConfIfUpdate storedMd5
  dsimp only
  split
  · rw [hframe]
  · unfold compare
    cases (s.loadBizConf json filePath file).2.fileBizMd5.lookup filePath with
    | none => rw [← hframe, AList.lookup_insert_ne hp]
    | some stored => rw [← hframe, AList.lookup_insert_ne hp]

theorem slot_load (json : JsonCpp) (hash : String → String) (s : BusiConfigManager) (filePath : String)
    (file : FileRead) (p : String) :
    (s.loadFileConfIfUpdate json hash filePath file).2.slot p =
      if p = filePath then ((s.slot p).call json hash (.load filePath file)).2 else s.slot p := by
  obtain ⟨hparser, hwatchers⟩ := load_frame json hash s filePath file
  have hw := loadBizConf_watchers json s filePath file p
  by_cases hp : p = filePath
  · subst hp
    rw [if_pos rfl] at hw ⊢
    apply Slot.ext
    · exact (congrArg (·.lookup p) hwatchers).trans hw
    · exact congrArg (·.lookup p) hparser
    · funext id
      refine (load_spec json hash s p file id).2.trans ?_
      rw [loadBizConf_read]
      rfl
  · rw [if_neg hp] at hw ⊢
    apply Slot.ext
    · exact (congrArg (·.lookup p) hwatchers).trans hw
    · exact congrArg (·.lookup p) hparser
    · exact storedMd5_load_of_ne json hash s file hp

end Loading

section Simulation

/-- A call acts on the slot of its path, and on no other. -/
theorem slot_call (json : JsonCpp) (hash : String → String) (s : BusiConfigManager) (c : Call) (p : String) :
    (s.call json hash c).2.slot p = if p = c.path then ((s.slot p).call json hash c).2 else s.slot p := by
  cases c with
  | load filePath file => exact slot_load json hash s filePath file p
  | updateConfig filePath flag curTime =>
    cases flag <;> exact (ite_self _).symm
  | addFile filePath parser =>
    show (s.addFile filePath parser).slot p = _
    have hw := lookup_addFileWatcher s.watcherGroup filePath p
    by_cases hp : p = filePath
    · subst hp
      rw [if_pos rfl] at hw
      rw [Call.path, if_pos rfl]
      exact Slot.ext hw (AList.lookup_insert _) rfl
    · rw [if_neg hp] at hw
      rw [Call.path, if_neg hp]
      exact Slot.ext hw (AList.lookup_insert_ne hp) rfl
  | removeFile filePath =>
    show (s.removeFile filePath).slot p = _
    have hw := lookup_erased s.watcherGroup filePath p
    have hparser := lookup_erased s.fileParser filePath p
    by_cases hp : p = filePath
    · rw [if_pos hp] at hw hparser
      rw [Call.path, if_pos hp]
      exact Slot.ext hw hparser rfl
    · rw [if_neg hp] at hw hparser
      rw [Call.path, if_neg hp]
      exact Slot.ext hw hparser rfl

theorem answer_call (json : JsonCpp) (hash : String → String) (s : BusiConfigManager) (c : Call) :
    (s.call json hash c).1 = ((s.slot c.path).call json hash c).1 := by
  have hmtime : ∀ filePath flag curTime, s.watcherGroup.changeFileWatcherMtime filePath flag curTime =
      (if (s.watcherGroup.lookup filePath).isSome then 0 else -1,
        (s.watcherGroup.lookup filePath).map fun w => w.changeFileMtime flag curTime) := by
    intro filePath flag curTime
    unfold FileWatcherGroup.changeFileWatcherMtime
    cases s.watcherGroup.lookup filePath <;> rfl
  cases c with
  | addFile filePath parser => rfl
  | removeFile filePath => rfl
  | updateConfig filePath flag curTime =>
    cases flag
    · simp only [call, updateConfigSuccess, hmtime]
      rfl
    · simp only [call, updateConfigFailed, hmtime]
      rfl
  | load filePath file =>
    simp only [call, Slot.call]
    congr 1
    funext id
    rw [(load_spec json hash s filePath file id).1, loadBizConf_read]
    rfl

theorem run_cons (c : Call) (calls : List Call) :
    s.run json hash (c :: calls) = (s.call json hash c).2.run json hash calls := rfl

/-- Calls that would leave the slot of their path as it is leave it so. -/
theorem slot_run_of_idle {calls : List Call}
    (h : ∀ c ∈ calls, c.path = p → ((s.slot p).call json hash c).2 = s.slot p) :
    (s.run json hash calls).slot p = s.slot p := by
  induction calls generalizing s with
  | nil => rfl
  | cons c calls ih =>
    have hc : (s.call json hash c).2.slot p = s.slot p := by
      rw [slot_call]
      split
      · rename_i hp
        exact h c List.mem_cons_self hp.symm
      · rfl
    rw [run_cons, ih, hc]
    intro d hd hp
    rw [hc]
    exact h d (List.mem_cons_of_mem _ hd) hp

end Simulation

end BusiConfigManager

end CppBase.CenterConfig
