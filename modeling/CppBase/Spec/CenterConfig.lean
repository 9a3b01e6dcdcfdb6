import Mathlib.Data.List.AList

/-! The configuration center of `center_config/src/center_config.cpp`: file
watchers, parsers and the deltas of `loadFileConfIfUpdate`. What a call finds in
the file system is its argument; jsoncpp and MD5 are parameters. A `std::map` is
its list of entries; nothing depends on their order. -/

namespace CppBase.CenterConfig

abbrev StringMap (α : Type) := AList fun _ : String => α

/-- `map::insert` leaves a key that is there alone. -/
def insertNew {α : Type} (m : StringMap α) (k : String) (v : α) : StringMap α :=
  if k ∈ m then m else m.insert k v

abbrev ConfMap := StringMap String

def waitSecond : ℤ := 10

structure FileRead where
  ctime : Option ℤ
  content : Option String
  deriving DecidableEq

section Watchers

structure FileWatcher where
  filePath : String
  lastUpdateTime : ℤ
  deriving DecidableEq

def FileWatcher.checkFileUpdate (w : FileWatcher) : Option ℤ → Bool × FileWatcher
  | none => (false, w)
  | some changeTime =>
    if changeTime > w.lastUpdateTime + waitSecond then (true, { w with lastUpdateTime := changeTime }) else (false, w)

def FileWatcher.getFileContent (content : Option String) : String := content.getD ""

inductive UpdateFlag
  | success
  | failed
  deriving DecidableEq

def failedDiff : ℤ := 100

structure Utimbuf where
  modtime : ℤ
  actime : ℤ
  deriving DecidableEq

def FileWatcher.changeFileMtime (w : FileWatcher) (flag : UpdateFlag) (curTime : ℤ) : Utimbuf :=
  match flag with
  | .success => ⟨curTime, w.lastUpdateTime⟩
  | .failed => ⟨w.lastUpdateTime - failedDiff, w.lastUpdateTime⟩

abbrev FileWatcherGroup := StringMap FileWatcher

def FileWatcherGroup.addFileWatcher (g : FileWatcherGroup) (filePath : String) : FileWatcherGroup :=
  if filePath ∈ g then g else g.insert filePath ⟨filePath, 0⟩

def FileWatcherGroup.removeFileWatcher (g : FileWatcherGroup) (filePath : String) : FileWatcherGroup :=
  if filePath ∈ g then g.erase filePath else g

/-- The return value, which does not depend on `utime`, and its arguments if it is called. -/
def FileWatcherGroup.changeFileWatcherMtime (g : FileWatcherGroup) (filePath : String) (flag : UpdateFlag)
    (curTime : ℤ) : ℤ × Option Utimbuf :=
  match g.lookup filePath with
  | none => (-1, none)
  | some w => (0, some (w.changeFileMtime flag curTime))

def FileWatcherGroup.loadFileUpdate (g : FileWatcherGroup) (filePath : String) (file : FileRead) :
    String × FileWatcherGroup :=
  match g.lookup filePath with
  | some w =>
    if (w.checkFileUpdate file.ctime).1 then
      (FileWatcher.getFileContent file.content, g.insert filePath (w.checkFileUpdate file.ctime).2)
    else ("", g)
  | none => ("", g)

end Watchers

section Parsers

inductive Json
  | string (s : String)
  | array (values : List Json)
  | object (members : List (String × Json))
  | other

structure JsonCpp where
  parse : String → Option Json
  toStyledString : Json → String

def Json.busiId (idName : String) : Json → Option String
  | .object members =>
    match members.find? fun m => m.1 = idName with
    | some (_, .string biz) => some biz
    | _ => none
  | _ => none

def JsonParser.parse (json : JsonCpp) (idName content : String) : ConfMap :=
  if content = "" then ∅
  else
    match json.parse content with
    | some (.array values) =>
      values.foldl (fun result v =>
        match v.busiId idName with
        | some biz => insertNew result biz (json.toStyledString v)
        | none => result) ∅
    | _ => ∅

/-- The base class parses to nothing; `YamlParser` has no body. -/
inductive ContentParser
  | base
  | json (idName : String)

def ContentParser.parse (json : JsonCpp) : ContentParser → String → ConfMap
  | .base, _ => ∅
  | .json idName, content => JsonParser.parse json idName content

end Parsers

structure BusiConfigManager where
  fileBizMd5 : StringMap ConfMap
  fileParser : StringMap ContentParser
  watcherGroup : FileWatcherGroup

namespace BusiConfigManager

def init : BusiConfigManager := ⟨∅, ∅, ∅⟩

def addFile (s : BusiConfigManager) (filePath : String) (parser : ContentParser) : BusiConfigManager :=
  { s with
    watcherGroup := s.watcherGroup.addFileWatcher filePath
    fileParser := s.fileParser.insert filePath parser }

def removeFile (s : BusiConfigManager) (filePath : String) : BusiConfigManager :=
  { s with
    watcherGroup := s.watcherGroup.removeFileWatcher filePath
    fileParser := if filePath ∈ s.fileParser then s.fileParser.erase filePath else s.fileParser }

def updateConfigSuccess (s : BusiConfigManager) (filePath : String) (curTime : ℤ) : ℤ × Option Utimbuf :=
  s.watcherGroup.changeFileWatcherMtime filePath .success curTime

def updateConfigFailed (s : BusiConfigManager) (filePath : String) (curTime : ℤ) : ℤ × Option Utimbuf :=
  s.watcherGroup.changeFileWatcherMtime filePath .failed curTime

/-- The first part of `loadFileConfIfUpdate`, up to `biz_conf`; empty where it returns early. -/
def loadBizConf (json : JsonCpp) (s : BusiConfigManager) (filePath : String) (file : FileRead) :
    ConfMap × BusiConfigManager :=
  if filePath = "" then (∅, s)
  else
    let content := (s.watcherGroup.loadFileUpdate filePath file).1
    let t := { s with watcherGroup := (s.watcherGroup.loadFileUpdate filePath file).2 }
    if content = "" then (∅, t)
    else
      match s.fileParser.lookup filePath with
      | some parser => (parser.parse json content, t)
      | none => (∅, t)

def bizMd5val (hash : String → String) (bizConf : ConfMap) : ConfMap :=
  bizConf.entries.foldl (fun m e => insertNew m e.1 (hash e.2)) ∅

def compareOne (bizConf : ConfMap) (x : ConfMap × ConfMap) (e : Sigma fun _ : String => String) :
    ConfMap × ConfMap :=
  match x.2.lookup e.1 with
  | none => (x.1.insert e.1 ((bizConf.lookup e.1).getD ""), insertNew x.2 e.1 e.2)
  | some old =>
    if old ≠ e.2 then (x.1.insert e.1 ((bizConf.lookup e.1).getD ""), insertNew (x.2.erase e.1) e.1 e.2) else x

/-- The second part of `loadFileConfIfUpdate`. -/
def compare (hash : String → String) (s : BusiConfigManager) (filePath : String) (bizConf : ConfMap) :
    ConfMap × BusiConfigManager :=
  match s.fileBizMd5.lookup filePath with
  | none => (bizConf, { s with fileBizMd5 := s.fileBizMd5.insert filePath (bizMd5val hash bizConf) })
  | some stored =>
    let x := (bizMd5val hash bizConf).entries.foldl (compareOne bizConf) (∅, stored)
    (x.1, { s with fileBizMd5 := s.fileBizMd5.insert filePath x.2 })

def loadFileConfIfUpdate (json : JsonCpp) (hash : String → String) (s : BusiConfigManager) (filePath : String)
    (file : FileRead) : ConfMap × BusiConfigManager :=
  let x := s.loadBizConf json filePath file
  if x.1.entries = [] then (∅, x.2) else x.2.compare hash filePath x.1

end BusiConfigManager

end CppBase.CenterConfig
