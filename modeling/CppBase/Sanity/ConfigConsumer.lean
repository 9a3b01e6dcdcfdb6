import Mathlib.Data.Set.Function
import CppBase.Sanity.ConfigSync

/-! A consumer that overlays the maps it is given, beside the manager that gives
them: the stored hashes are always those of the consumer's contents. -/

namespace CppBase.CenterConfig

abbrev Consumer := String → Option String

def overlay (c : Consumer) (result : ConfMap) : Consumer := fun id => (result.lookup id).or (c id)

def observe (json : JsonCpp) (hash : String → String) (filePath : String) (x : BusiConfigManager × Consumer)
    (file : FileRead) : BusiConfigManager × Consumer :=
  ((x.1.loadFileConfIfUpdate json hash filePath file).2,
    overlay x.2 (x.1.loadFileConfIfUpdate json hash filePath file).1)

theorem observe_snd (json : JsonCpp) (hash : String → String) (filePath : String)
    (x : BusiConfigManager × Consumer)
    (file : FileRead) (id : String) : (observe json hash filePath x file).2 id =
      ((x.1.loadFileConfIfUpdate json hash filePath file).1.lookup id).or (x.2 id) := rfl

def watch (filePath : String) (parser : ContentParser) : BusiConfigManager × Consumer :=
  (BusiConfigManager.init.addFile filePath parser, fun _ => none)

def contents (json : JsonCpp) (parser : ContentParser) (text : String) : Set String :=
  { c | ∃ id, (parser.parse json text).lookup id = some c }

/-- `known` are contents of versions of the file. -/
structure Synced (hash : String → String) (filePath : String) (parser : ContentParser) (known : Set String)
    (x : BusiConfigManager × Consumer) : Prop where
  stored : ∀ id, x.1.storedMd5 filePath id = (x.2 id).map hash
  known : ∀ id c, x.2 id = some c → c ∈ known
  parser : x.1.fileParser.lookup filePath = some parser

variable {json : JsonCpp} {hash : String → String} {filePath : String} {parser : ContentParser} {known : Set String}
  {x : BusiConfigManager × Consumer} {file : FileRead} {id content : String}

theorem synced_watch (hash : String → String) (filePath : String) (parser : ContentParser) (known : Set String) :
    Synced hash filePath parser known (watch filePath parser) :=
  ⟨fun _ => rfl, nofun, by simp [watch, BusiConfigManager.addFile]⟩

theorem Synced.returned (h : Synced hash filePath parser known x)
    (hread : (x.1.loadBizConf json filePath file).1.lookup id = some content) :
    (x.1.loadFileConfIfUpdate json hash filePath file).1.lookup id =
      if (x.2 id).map hash = some (hash content) then none else some content := by
  rw [(x.1.load_spec json hash filePath file id).1, hread, h.stored, BusiConfigManager.delta, Option.map_some]

theorem Synced.returned_none (hread : (x.1.loadBizConf json filePath file).1.lookup id = none) :
    (x.1.loadFileConfIfUpdate json hash filePath file).1.lookup id = none := by
  rw [(x.1.load_spec json hash filePath file id).1, hread]
  simp [BusiConfigManager.delta]

theorem Synced.observe (h : Synced hash filePath parser known x)
    (hfile : ∀ text, file.content = some text → contents json parser text ⊆ known) :
    Synced hash filePath parser known (observe json hash filePath x file) := by
  refine ⟨?_, ?_, ?_⟩
  · intro id
    rw [observe_snd, CenterConfig.observe, (x.1.load_spec json hash filePath file id).2, h.stored]
    cases hread : (x.1.loadBizConf json filePath file).1.lookup id with
    | none =>
      rw [Synced.returned_none hread]
      rfl
    | some content =>
      rw [h.returned hread]
      split
      · rename_i hsame
        simpa using hsame.symm
      · rfl
  · intro id c hc
    rw [observe_snd] at hc
    cases hread : (x.1.loadBizConf json filePath file).1.lookup id with
    | none =>
      rw [Synced.returned_none hread] at hc
      exact h.known id c hc
    | some content =>
      rw [h.returned hread] at hc
      split at hc
      · exact h.known id c hc
      · obtain rfl : content = c := by simpa using hc
        obtain ⟨text, htext, hparse⟩ := BusiConfigManager.loadBizConf_parsed h.parser hread
        exact hfile text htext ⟨id, hparse⟩
  · rw [CenterConfig.observe, (BusiConfigManager.load_frame json hash x.1 filePath file).1]
    exact h.parser

/-- Where no two known contents have one hash, the consumer has what the call has read. -/
theorem Synced.agrees (h : Synced hash filePath parser known x) (hinj : Set.InjOn hash known)
    (hfile : ∀ text, file.content = some text → contents json parser text ⊆ known)
    (hread : (x.1.loadBizConf json filePath file).1.lookup id = some content) :
    (CenterConfig.observe json hash filePath x file).2 id = some content := by
  rw [observe_snd, h.returned hread]
  split
  · rename_i hsame
    obtain ⟨c, hc, heq⟩ := Option.map_eq_some_iff.mp hsame
    obtain ⟨text, htext, hparse⟩ := BusiConfigManager.loadBizConf_parsed h.parser hread
    rw [Option.none_or, hc, hinj (h.known id c hc) (hfile text htext ⟨id, hparse⟩) heq]
  · rfl

/-- A file with one business, whose configuration is the text of the file. -/
def oneBusiness : JsonCpp where
  parse text := some (.array [.object [("businessId", .string "l5"), ("conf", .string text)]])
  toStyledString
    | .object [_, (_, .string conf)] => conf
    | _ => ""

end CppBase.CenterConfig
