import CppBase.Sanity.ConfigConsumer

/-! The maps that `loadFileConfIfUpdate` returns over any sequence of calls are
enough to reconstruct the configuration, and no more than that. -/

namespace CppBase.CenterConfig

/-- What one call does for a consumer that has followed the calls before it. -/
structure DeltaOk (json : JsonCpp) (hash : String → String) (filePath : String) (x : BusiConfigManager × Consumer)
    (file : FileRead) : Prop where
  agrees : ∀ id content, (x.1.loadBizConf json filePath file).1.lookup id = some content →
    (observe json hash filePath x file).2 id = some content
  differs : ∀ id content, (x.1.loadFileConfIfUpdate json hash filePath file).1.lookup id = some content →
    x.2 id ≠ some content
  unchanged : (x.1.loadFileConfIfUpdate json hash filePath file).1 = ∅ → ∀ f,
    (x.1.loadFileConfIfUpdate json hash filePath file).2.fileBizMd5.lookup f = x.1.fileBizMd5.lookup f

def occurring (json : JsonCpp) (parser : ContentParser) (files : List FileRead) : Set String :=
  { c | ∃ file ∈ files, ∃ text, file.content = some text ∧ c ∈ contents json parser text }

variable {json : JsonCpp} {hash : String → String} {filePath : String} {parser : ContentParser} {known : Set String}

theorem synced_calls (files : List FileRead)
    (hfiles : ∀ file ∈ files, ∀ text, file.content = some text → contents json parser text ⊆ known)
    {x : BusiConfigManager × Consumer} (h : Synced hash filePath parser known x) :
    Synced hash filePath parser known (files.foldl (observe json hash filePath) x) := by
  induction files generalizing x with
  | nil => exact h
  | cons file files ih =>
    exact ih (fun f hf => hfiles f (List.mem_cons_of_mem _ hf)) (h.observe (hfiles file List.mem_cons_self))

theorem deltas_reconstruct (json : JsonCpp) (hash : String → String) (filePath : String) (parser : ContentParser)
    (files : List FileRead) (hinj : Set.InjOn hash (occurring json parser files)) :
    ∀ pre file post, files = pre ++ file :: post →
      DeltaOk json hash filePath (pre.foldl (observe json hash filePath) (watch filePath parser)) file := by
  rintro pre file post rfl
  have hfiles : ∀ f ∈ pre ++ file :: post, ∀ text, f.content = some text →
      contents json parser text ⊆ occurring json parser (pre ++ file :: post) :=
    fun f hf text htext c hc => ⟨f, hf, text, htext, hc⟩
  have hsync := synced_calls pre (fun f hf => hfiles f (List.mem_append_left _ hf))
    (synced_watch hash filePath parser _)
  refine ⟨?_, ?_, fun hempty => BusiConfigManager.load_of_empty hempty⟩
  · intro id content hread
    exact hsync.agrees hinj (hfiles file (by simp)) hread
  · intro id content hret hsame
    cases hread : (BusiConfigManager.loadBizConf json _ filePath file).1.lookup id with
    | none =>
      rw [Synced.returned_none hread] at hret
      cases hret
    | some content' =>
      rw [hsync.returned hread] at hret
      split at hret
      · cases hret
      · rename_i hdiff
        obtain rfl := Option.some.inj hret
        exact hdiff (by rw [hsame]; rfl)

theorem deltas_reconstruct_second :
    DeltaOk oneBusiness id "l5.config" ([⟨some 100, some "a"⟩].foldl (observe oneBusiness id "l5.config")
      (watch "l5.config" (.json "businessId"))) ⟨some 200, some "b"⟩ ∧
    ([⟨some 100, some "a"⟩, ⟨some 200, some "b"⟩].foldl (observe oneBusiness id "l5.config")
      (watch "l5.config" (.json "businessId"))).2 "l5" = some "b" :=
  ⟨deltas_reconstruct oneBusiness id "l5.config" (.json "businessId") [⟨some 100, some "a"⟩, ⟨some 200, some "b"⟩]
    Function.injective_id.injOn [⟨some 100, some "a"⟩] ⟨some 200, some "b"⟩ [] rfl, by decide +kernel⟩

end CppBase.CenterConfig
