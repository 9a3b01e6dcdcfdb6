import CppBase.Lib.Fold
import CppBase.Spec.CenterConfig

/-! What `loadFileConfIfUpdate` stores and returns, id by id: the stored hashes
are those of the contents a consumer has been given. -/

namespace CppBase.CenterConfig

open CppBase.Lib

theorem parse_nothing (json : JsonCpp) (parser : ContentParser) : parser.parse json "" = ∅ := by
  cases parser <;> simp [ContentParser.parse, JsonParser.parse]

theorem FileWatcher.checkFileUpdate_new (w : FileWatcher) {changeTime : ℤ}
    (hnew : w.lastUpdateTime + waitSecond < changeTime) :
    w.checkFileUpdate (some changeTime) = (true, { w with lastUpdateTime := changeTime }) :=
  if_pos hnew

section Maps

variable {α : Type} {m : StringMap α} {k : String} {v : α}

theorem lookup_insertNew_self (m : StringMap α) (k : String) (v : α) :
    (insertNew m k v).lookup k = (m.lookup k).or (some v) := by
  unfold insertNew
  by_cases h : k ∈ m
  · obtain ⟨w, hw⟩ := Option.isSome_iff_exists.mp (AList.lookup_isSome.mpr h)
    rw [if_pos h, hw, Option.some_or]
  · rw [if_neg h, AList.lookup_insert, AList.lookup_eq_none.mpr h, Option.none_or]

theorem lookup_insertNew_of_ne {k' : String} (h : k' ≠ k) : (insertNew m k v).lookup k' = m.lookup k' := by
  unfold insertNew
  split
  · rfl
  · exact AList.lookup_insert_ne h

/-- A loop over a map whose rounds touch the key of their entry only, id by id. -/
theorem foldl_entries {σ β : Type} {step : σ → (Sigma fun _ : String => α) → σ} {r : σ → String → β}
    {F : (Sigma fun _ : String => α) → β → β} (hself : ∀ s e, r (step s e) e.1 = F e (r s e.1))
    (hframe : ∀ s e k, k ≠ e.1 → r (step s e) k = r s k) (m : StringMap α) (s : σ) (k : String) :
    r (m.entries.foldl step s) k =
      match m.lookup k with
      | some v => F ⟨k, v⟩ (r s k)
      | none => r s k := by
  have hnodup : (m.entries.map Sigma.fst).Nodup := m.keys_nodup
  obtain ⟨hin, hout⟩ := foldl_keyed hself hframe hnodup s
  cases hk : m.lookup k with
  | some v => exact hin ⟨k, v⟩ (AList.mem_lookup_iff.mp hk)
  | none => exact hout k (AList.lookup_eq_none.mp hk)

end Maps

section Compare

namespace BusiConfigManager

variable {hash : String → String} {bizConf stored : ConfMap} {id : String}

theorem lookup_bizMd5val (hash : String → String) (bizConf : ConfMap) (id : String) :
    (bizMd5val hash bizConf).lookup id = (bizConf.lookup id).map hash := by
  unfold bizMd5val
  rw [foldl_entries (r := fun m k => m.lookup k) (F := fun e b => b.or (some (hash e.2)))
    (fun m e => lookup_insertNew_self m e.1 _) (fun m e k hk => lookup_insertNew_of_ne hk)]
  cases bizConf.lookup id <;> simp

/-- The effect of a round on its own id: what is returned for it, and the hash stored. -/
def compareAt (content : Option String) (md5 : String) (x : Option String × Option String) :
    Option String × Option String :=
  if x.2 = some md5 then x else (some (content.getD ""), some md5)

theorem lookup_compareOne_self (bizConf : ConfMap) (x : ConfMap × ConfMap) (e : Sigma fun _ : String => String) :
    ((compareOne bizConf x e).1.lookup e.1, (compareOne bizConf x e).2.lookup e.1) =
      compareAt (bizConf.lookup e.1) e.2 (x.1.lookup e.1, x.2.lookup e.1) := by
  unfold compareOne compareAt
  cases hx : x.2.lookup e.1 with
  | none => simp [lookup_insertNew_self, hx]
  | some old =>
    by_cases hold : old = e.2
    · simp [hold, hx]
    · simp [hold, lookup_insertNew_self]

theorem lookup_compareOne_of_ne (bizConf : ConfMap) (x : ConfMap × ConfMap) (e : Sigma fun _ : String => String)
    {k : String} (hk : k ≠ e.1) :
    ((compareOne bizConf x e).1.lookup k, (compareOne bizConf x e).2.lookup k) = (x.1.lookup k, x.2.lookup k) := by
  unfold compareOne
  cases x.2.lookup e.1 with
  | none => rw [AList.lookup_insert_ne hk, lookup_insertNew_of_ne hk]
  | some old =>
    dsimp only
    split
    · rw [AList.lookup_insert_ne hk, lookup_insertNew_of_ne hk, AList.lookup_erase_ne hk]
    · rfl

/-- What is returned for an id whose stored hash is `stored`: its content, unless that has this hash. -/
def delta (hash : String → String) (stored content : Option String) : Option String :=
  if stored = content.map hash then none else content

theorem lookup_compareAll (hash : String → String) (bizConf stored : ConfMap) (id : String) :
    let x := (bizMd5val hash bizConf).entries.foldl (compareOne bizConf) (∅, stored)
    x.1.lookup id = delta hash (stored.lookup id) (bizConf.lookup id) ∧
      x.2.lookup id = ((bizConf.lookup id).map hash).or (stored.lookup id) := by
  have h := foldl_entries (r := fun x k => (x.1.lookup k, x.2.lookup k))
    (F := fun e => compareAt (bizConf.lookup e.1) e.2) (lookup_compareOne_self bizConf)
    (fun x e k hk => lookup_compareOne_of_ne bizConf x e hk) (bizMd5val hash bizConf) (∅, stored) id
  rw [lookup_bizMd5val] at h
  intro x
  cases hc : bizConf.lookup id with
  | none =>
    rw [hc] at h
    obtain ⟨h1, h2⟩ := Prod.mk.inj h
    exact ⟨by rw [h1]; simp [delta], h2⟩
  | some c =>
    rw [hc] at h
    simp only [Option.map_some, compareAt, hc, Option.getD_some] at h
    unfold delta
    by_cases hsame : stored.lookup id = some (hash c)
    · rw [if_pos hsame] at h
      obtain ⟨h1, h2⟩ := Prod.mk.inj h
      exact ⟨by rw [h1, Option.map_some, if_pos hsame]; rfl, h2.trans hsame⟩
    · rw [if_neg hsame] at h
      obtain ⟨h1, h2⟩ := Prod.mk.inj h
      exact ⟨by rw [h1, Option.map_some, if_neg hsame], h2⟩

/-- A round that returns nothing for its id changes nothing. -/
theorem compareOne_cases (bizConf : ConfMap) (x : ConfMap × ConfMap) (e : Sigma fun _ : String => String) :
    compareOne bizConf x e = x ∨ e.1 ∈ (compareOne bizConf x e).1 := by
  unfold compareOne
  cases x.2.lookup e.1 with
  | none => exact Or.inr ((AList.mem_insert _).mpr (Or.inl rfl))
  | some old =>
    dsimp only
    split
    · exact Or.inr ((AList.mem_insert _).mpr (Or.inl rfl))
    · exact Or.inl rfl

theorem compareAll_of_empty (bizConf : ConfMap) (l : List (Sigma fun _ : String => String)) (x : ConfMap × ConfMap)
    (h : (l.foldl (compareOne bizConf) x).1 = ∅) : l.foldl (compareOne bizConf) x = x := by
  induction l generalizing x with
  | nil => rfl
  | cons e l ih =>
    rw [List.foldl_cons] at h ⊢
    have hrest := ih _ h
    rcases compareOne_cases bizConf x e with hsame | hmem
    · rw [hrest, hsame]
    · rw [hrest] at h
      rw [h] at hmem
      exact absurd hmem (AList.notMem_empty _)

end BusiConfigManager

end Compare

section Load

namespace BusiConfigManager

variable {s : BusiConfigManager} {filePath : String}

def storedMd5 (s : BusiConfigManager) (filePath id : String) : Option String :=
  (s.fileBizMd5.lookup filePath).bind fun stored => stored.lookup id

theorem compare_spec (hash : String → String) (s : BusiConfigManager) (filePath : String) (bizConf : ConfMap)
    (id : String) :
    (s.compare hash filePath bizConf).1.lookup id = delta hash (s.storedMd5 filePath id) (bizConf.lookup id) ∧
      (s.compare hash filePath bizConf).2.storedMd5 filePath id =
        ((bizConf.lookup id).map hash).or (s.storedMd5 filePath id) := by
  unfold compare storedMd5
  cases hs : s.fileBizMd5.lookup filePath with
  | none =>
    simp only [AList.lookup_insert, Option.bind_some, Option.bind_none, lookup_bizMd5val, Option.or_none, and_true]
    cases bizConf.lookup id <;> simp [delta]
  | some stored =>
    simp only [AList.lookup_insert, Option.bind_some]
    exact lookup_compareAll hash bizConf stored id

theorem compare_of_empty {hash : String → String} {bizConf : ConfMap} (hne : bizConf.entries ≠ [])
    (h : (s.compare hash filePath bizConf).1 = ∅) (f : String) :
    (s.compare hash filePath bizConf).2.fileBizMd5.lookup f = s.fileBizMd5.lookup f := by
  unfold compare at h ⊢
  cases hs : s.fileBizMd5.lookup filePath with
  | none =>
    rw [hs] at h
    exact absurd (congrArg AList.entries h) hne
  | some stored =>
    rw [hs] at h
    simp only [compareAll_of_empty bizConf _ _ h]
    by_cases hf : f = filePath
    · rw [hf, AList.lookup_insert, hs]
    · rw [AList.lookup_insert_ne hf]

variable {json : JsonCpp} {file : FileRead}

theorem loadBizConf_frame (json : JsonCpp) (s : BusiConfigManager) (filePath : String) (file : FileRead) :
    (s.loadBizConf json filePath file).2.fileBizMd5 = s.fileBizMd5 ∧
      (s.loadBizConf json filePath file).2.fileParser = s.fileParser := by
  unfold loadBizConf
  split
  · exact ⟨rfl, rfl⟩
  · dsimp only
    split
    · exact ⟨rfl, rfl⟩
    · cases s.fileParser.lookup filePath <;> exact ⟨rfl, rfl⟩

/-- A call returns the contents whose hash is not the stored one, and stores the hashes of all it has read. -/
theorem load_spec (json : JsonCpp) (hash : String → String) (s : BusiConfigManager) (filePath : String)
    (file : FileRead) (id : String) :
    (s.loadFileConfIfUpdate json hash filePath file).1.lookup id =
        delta hash (s.storedMd5 filePath id) ((s.loadBizConf json filePath file).1.lookup id) ∧
      (s.loadFileConfIfUpdate json hash filePath file).2.storedMd5 filePath id =
        (((s.loadBizConf json filePath file).1.lookup id).map hash).or (s.storedMd5 filePath id) := by
  have hframe := (loadBizConf_frame json s filePath file).1
  have hstored : (s.loadBizConf json filePath file).2.storedMd5 filePath id = s.storedMd5 filePath id := by
    rw [storedMd5, hframe, storedMd5]
  unfold loadFileConfIfUpdate
  dsimp only
  split
  · rename_i hnil
    have hempty : (s.loadBizConf json filePath file).1 = ∅ := AList.ext hnil
    rw [hempty, AList.lookup_empty]
    exact ⟨by simp [delta], hstored⟩
  · rw [← hstored]
    exact compare_spec hash _ filePath _ id

theorem load_of_empty {hash : String → String} (h : (s.loadFileConfIfUpdate json hash filePath file).1 = ∅)
    (f : String) :
    (s.loadFileConfIfUpdate json hash filePath file).2.fileBizMd5.lookup f = s.fileBizMd5.lookup f := by
  have hframe := (loadBizConf_frame json s filePath file).1
  unfold loadFileConfIfUpdate at h ⊢
  dsimp only at h ⊢
  split at h
  · rename_i hnil
    rw [if_pos hnil, hframe]
  · rename_i hne
    rw [if_neg hne, compare_of_empty hne h, hframe]

theorem load_frame (json : JsonCpp) (hash : String → String) (s : BusiConfigManager) (filePath : String)
    (file : FileRead) :
    (s.loadFileConfIfUpdate json hash filePath file).2.fileParser = s.fileParser ∧
      (s.loadFileConfIfUpdate json hash filePath file).2.watcherGroup =
        (s.loadBizConf json filePath file).2.watcherGroup := by
  have hframe := (loadBizConf_frame json s filePath file).2
  unfold loadFileConfIfUpdate
  dsimp only
  split
  · exact ⟨hframe, rfl⟩
  · unfold compare
    cases (s.loadBizConf json filePath file).2.fileBizMd5.lookup filePath <;> exact ⟨hframe, rfl⟩

/-- A watcher that sees no change leaves the call with nothing. -/
theorem loadBizConf_unnoticed (json : JsonCpp) (file : FileRead) {w : FileWatcher}
    (hw : s.watcherGroup.lookup filePath = some w)
    (h : (w.checkFileUpdate file.ctime).1 = false) :
    (s.loadBizConf json filePath file).1 = ∅ ∧ (s.loadBizConf json filePath file).2 = s := by
  have hload : s.watcherGroup.loadFileUpdate filePath file = ("", s.watcherGroup) := by
    simp [FileWatcherGroup.loadFileUpdate, hw, h]
  unfold loadBizConf
  split
  · exact ⟨rfl, rfl⟩
  · rw [hload]
    exact ⟨rfl, rfl⟩

/-- One that does hands the file to its parser. -/
theorem loadBizConf_noticed (json : JsonCpp) (file : FileRead) {w : FileWatcher}
    (hw : s.watcherGroup.lookup filePath = some w)
    (h : (w.checkFileUpdate file.ctime).1 = true) {parser : ContentParser}
    (hp : s.fileParser.lookup filePath = some parser) (hpath : filePath ≠ "") {text : String}
    (htext : file.content = some text) :
    (s.loadBizConf json filePath file).1 = (if text = "" then ∅ else parser.parse json text) ∧
      (s.loadBizConf json filePath file).2 =
        { s with watcherGroup := s.watcherGroup.insert filePath (w.checkFileUpdate file.ctime).2 } := by
  have hload : s.watcherGroup.loadFileUpdate filePath file =
      (text, s.watcherGroup.insert filePath (w.checkFileUpdate file.ctime).2) := by
    simp [FileWatcherGroup.loadFileUpdate, hw, h, FileWatcher.getFileContent, htext]
  rw [loadBizConf, if_neg hpath, hload]
  dsimp only
  split
  · exact ⟨rfl, rfl⟩
  · rw [hp]
    exact ⟨rfl, rfl⟩

theorem loadBizConf_parsed {parser : ContentParser} (hp : s.fileParser.lookup filePath = some parser)
    {id content : String} (h : (s.loadBizConf json filePath file).1.lookup id = some content) :
    ∃ text, file.content = some text ∧ (parser.parse json text).lookup id = some content := by
  unfold loadBizConf FileWatcherGroup.loadFileUpdate FileWatcher.getFileContent at h
  rw [hp] at h
  split at h
  · cases h
  · cases hw : s.watcherGroup.lookup filePath with
    | none =>
      rw [hw] at h
      cases h
    | some w =>
      rw [hw] at h
      cases hcheck : (w.checkFileUpdate file.ctime).1 with
      | false => simp [hcheck] at h
      | true =>
        simp only [hcheck, if_true] at h
        cases hc : file.content with
        | none => simp [hc] at h
        | some text =>
          simp only [hc, Option.getD_some] at h
          split at h
          · cases h
          · exact ⟨text, rfl, h⟩

end BusiConfigManager

end Load

end CppBase.CenterConfig
