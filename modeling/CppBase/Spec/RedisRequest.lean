import Mathlib.Data.String.Basic
import CppBase.Lib.Keyed

/-! Requests to Redis and the script table of `redistool/RedisRequest.cpp`. -/

namespace CppBase.RedisTool

open CppBase.Lib

inductive ReplyType
  | string
  | array
  | integer
  | nil
  | status
  | error
  deriving DecidableEq

structure RedisReply where
  type : ReplyType
  str : String
  deriving DecidableEq

/-- The class of a request object decides its `ExecuteImpl` and `OnReplyImpl`.
`evalScript` is a caller's class that looks up a script's hash in `ExecuteImpl`,
`other` any further one. -/
inductive RequestClass
  | base
  | loadScript (filePath : String)
  | evalScript (filePath : String)
  | other
  deriving DecidableEq

structure RedisRequest where
  address : ℕ
  type : String
  cls : RequestClass
  deriving DecidableEq

def redisUriPing : String := "redisPing"

def redisUriAuth : String := "redisAuth"

/-- `m_strError` as `RedisRequest::OnReply` sets it; hiredis passes a context. -/
def strError (errstr : Option String) : Option RedisReply → String
  | none => "NULL REPLY"
  | some reply =>
    if reply.type = .error then "reply error:" ++ reply.str
    else
      match errstr with
      | some e => "redisAsyncContext errstr:" ++ e
      | none => ""

structure RedisScriptItem where
  file : String
  script : String
  sha1 : String
  timestamp : UInt64
  deriving DecidableEq

/-- `m_scripts`, a map from the file path; `load` and `send` are the manager's. -/
abbrev LoadScriptMgr := Keyed RedisScriptItem.file

namespace LoadScriptMgr

/-- `none` where a script cannot be read or is empty; `readFile` is the file system. -/
def init (readFile : String → Option String) (paths : List String) : Option LoadScriptMgr :=
  let items : LoadScriptMgr := paths.foldl (fun m path => m.insert ⟨path, "", "", 0⟩) default
  if items.toList.all fun it => ((readFile it.file).getD "") ≠ "" then
    some (items.map (fun it => { it with script := (readFile it.file).getD "" }) fun _ => rfl)
  else none

def find (m : LoadScriptMgr) (filePath : String) : Option RedisScriptItem :=
  m.toList.find? fun it => it.file = filePath

def getScript (m : LoadScriptMgr) (filePath : String) : String :=
  match m.find filePath with
  | some it => it.script
  | none => ""

def getSha1 (m : LoadScriptMgr) (filePath : String) : String :=
  match m.find filePath with
  | some it => it.sha1
  | none => ""

def setSha1 (m : LoadScriptMgr) (filePath sha : String) : LoadScriptMgr :=
  m.map (fun it => if it.file = filePath then { it with sha1 := sha } else it) fun it => by split <;> rfl

def clearSha1 (m : LoadScriptMgr) : LoadScriptMgr :=
  m.map (fun it => { it with sha1 := "", timestamp := 0 }) fun _ => rfl

/-- `it->second.timestamp = nowMs` in `load`. -/
def stamp (m : LoadScriptMgr) (filePath : String) (nowMs : UInt64) : LoadScriptMgr :=
  m.map (fun it => if it.file = filePath then { it with timestamp := nowMs } else it) fun it => by split <;> rfl

end LoadScriptMgr

/-- The test of `load`; the difference of times is unsigned. -/
def RedisScriptItem.due (it : RedisScriptItem) (nowMs : UInt64) : Bool :=
  it.sha1 = "" && nowMs - it.timestamp > 200

end CppBase.RedisTool
