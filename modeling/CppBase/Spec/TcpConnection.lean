import CppBase.Spec.NetBuffer
import Mathlib.Logic.Function.Basic

/-! `muduo/net/TcpConnection`, with what `Channel` and `TcpServer` add to its life, in a loop that
runs the functors handed to it in order. A thread is `none` for that of the loop; the others
read `state_`, write it and queue a functor in steps of their own. What comes in is not kept
here. -/

namespace CppBase.Muduo

open CppBase.Lib

namespace TcpConnection

inductive StateE
  | kDisconnected
  | kConnecting
  | kConnected
  | kDisconnecting
  deriving DecidableEq

/-- What `write` returns; `broken` stands for `EPIPE` and `ECONNRESET`. -/
inductive Wrote
  | bytes (n : ℕ)
  | wouldBlock
  | broken
  | failed
  deriving DecidableEq

inductive Received
  | bytes
  | eof
  | failed
  deriving DecidableEq

inductive Functor (ι : Type)
  | sendInLoop (v : ι) (m : List UInt8)
  | shutdownInLoop
  | forceCloseInLoop
  | startReadInLoop
  | stopReadInLoop
  | connectDestroyed
  | writeComplete
  | highWaterMark (len : ℕ)

/-- Where another thread is in a call: about to queue a functor; or, having found the connection
open, to set `kDisconnecting`. -/
inductive Call
  | idle
  | send (m : List UInt8)
  | startRead
  | stopRead
  | shutdown
  | shutdownSet
  | forceClose
  | forceCloseSet
  | forceCloseWithDelay
  deriving DecidableEq

inductive Fault
  | assertion
  | buffer (f : Buffer.Fault)

/-- A message that came to `sendInLoop`: who sent it, and whether it was let go. -/
structure Processed (ι : Type) where
  sender : Option ι
  message : List UInt8
  dropped : Bool

end TcpConnection

open TcpConnection

structure TcpConnection (ι : Type) where
  state : StateE := .kConnecting
  reading : Bool := true
  isReading : Bool := false
  isWriting : Bool := false
  outputBuffer : Buffer := Buffer.create Buffer.kInitialSize
  highWaterMark : ℕ := 64 * 1024 * 1024
  hasWriteComplete : Bool := false
  hasHighWaterMark : Bool := false
  /-- The functors of the loop that are for this connection. -/
  pending : List (Functor ι) := []
  calls : ι → Call := fun _ => .idle
  /-- `connections_` of the server has it, and `closeCallback_` has asked for its removal. -/
  listed : Bool := true
  asked : Bool := false
  /-- The bytes the socket took, and whether it was shut for writing. -/
  wire : List UInt8 := []
  shut : Bool := false
  sent : List (Option ι × List UInt8) := []
  processed : List (Processed ι) := []

namespace TcpConnection

variable {ι : Type}

section Output

def queueInLoop (s : TcpConnection ι) (f : Functor ι) : TcpConnection ι := { s with pending := s.pending ++ [f] }

def lift {α : Type} : Except Buffer.Fault α → Except Fault α
  | .ok a => .ok a
  | .error f => .error (.buffer f)

/-- What a direct write returned, where one was tried and did not fail; and `faultError`. -/
def directWrite (s : TcpConnection ι) (w : Wrote) : Option ℕ × Bool :=
  if !s.isWriting && s.outputBuffer.readableBytes = 0 then
    match w with
    | .bytes n => (some n, false)
    | .wouldBlock | .failed => (none, false)
    | .broken => (none, true)
  else (none, false)

/-- The bytes that could not be written go behind those in the buffer. -/
def buffer (s : TcpConnection ι) (rest : List UInt8) : Except Fault (TcpConnection ι) := do
  let oldLen := s.outputBuffer.readableBytes
  let s := if oldLen + rest.length ≥ s.highWaterMark ∧ oldLen < s.highWaterMark ∧ s.hasHighWaterMark then
      s.queueInLoop (.highWaterMark (oldLen + rest.length)) else s
  let out ← lift (s.outputBuffer.append rest)
  .ok { s with outputBuffer := out, isWriting := true }

def sendInLoop (s : TcpConnection ι) (u : Option ι) (m : List UInt8) (w : Wrote) : Except Fault (TcpConnection ι) :=
  if s.state = .kDisconnected then .ok { s with processed := s.processed ++ [⟨u, m, true⟩] }
  else
    let (wrote, faultError) := s.directWrite w
    let nwrote := wrote.getD 0
    let s := { s with wire := s.wire ++ m.take nwrote, processed := s.processed ++ [⟨u, m, faultError⟩] }
    let s := if wrote = some m.length ∧ s.hasWriteComplete then s.queueInLoop .writeComplete else s
    if nwrote ≤ m.length then
      if !faultError && nwrote < m.length then s.buffer (m.drop nwrote) else .ok s
    else .error .assertion

def shutdownInLoop (s : TcpConnection ι) : TcpConnection ι := if s.isWriting then s else { s with shut := true }

def handleWrite (s : TcpConnection ι) (w : Wrote) : Except Fault (TcpConnection ι) :=
  match s.isWriting, w with
  | true, .bytes (n + 1) => do
    let out ← lift (s.outputBuffer.retrieve (n + 1))
    let s := { s with wire := s.wire ++ s.outputBuffer.contents.take (n + 1), outputBuffer := out }
    if out.readableBytes = 0 then
      let s := { s with isWriting := false }
      let s := if s.hasWriteComplete then s.queueInLoop .writeComplete else s
      .ok (if s.state = .kDisconnecting then s.shutdownInLoop else s)
    else .ok s
  | _, _ => .ok s

end Output

section Life

def isOpen (s : TcpConnection ι) : Bool := s.state = .kConnected || s.state = .kDisconnecting

def handleClose (s : TcpConnection ι) : Except Fault (TcpConnection ι) :=
  if s.isOpen then .ok { s with state := .kDisconnected, isReading := false, isWriting := false, asked := true }
  else .error .assertion

def handleRead (s : TcpConnection ι) : Received → Except Fault (TcpConnection ι)
  | .eof => s.handleClose
  | .bytes | .failed => .ok s

def forceCloseInLoop (s : TcpConnection ι) : Except Fault (TcpConnection ι) :=
  if s.isOpen then s.handleClose else .ok s

def startReadInLoop (s : TcpConnection ι) : TcpConnection ι :=
  if !s.reading || !s.isReading then { s with isReading := true, reading := true } else s

def stopReadInLoop (s : TcpConnection ι) : TcpConnection ι :=
  if s.reading || s.isReading then { s with isReading := false, reading := false } else s

def connectEstablished (s : TcpConnection ι) : Except Fault (TcpConnection ι) :=
  if s.state = .kConnecting then .ok { s with state := .kConnected, isReading := true } else .error .assertion

/-- With the assertion of `Channel::remove`. -/
def connectDestroyed (s : TcpConnection ι) : Except Fault (TcpConnection ι) :=
  let s := if s.state = .kConnected then
      { s with state := .kDisconnected, isReading := false, isWriting := false } else s
  if !s.isReading && !s.isWriting then .ok s else .error .assertion

end Life

section Calls

variable [DecidableEq ι]

def setCall (s : TcpConnection ι) (v : ι) (c : Call) : TcpConnection ι :=
  { s with calls := Function.update s.calls v c }

def send (s : TcpConnection ι) (u : Option ι) (m : List UInt8) (w : Wrote) : Except Fault (TcpConnection ι) :=
  if s.state = .kConnected then
    let s := { s with sent := s.sent ++ [(u, m)] }
    match u with
    | none => s.sendInLoop none m w
    | some v => .ok (s.setCall v (.send m))
  else .ok s

def shutdown (s : TcpConnection ι) (u : Option ι) : TcpConnection ι :=
  if s.state = .kConnected then
    match u with
    | none => { s with state := .kDisconnecting }.shutdownInLoop
    | some v => s.setCall v .shutdown
  else s

def forceClose (s : TcpConnection ι) (u : Option ι) : TcpConnection ι :=
  if s.isOpen then
    match u with
    | none => { s with state := .kDisconnecting }.queueInLoop .forceCloseInLoop
    | some v => s.setCall v .forceClose
  else s

/-- What the timer does later is a call of `forceClose`. -/
def forceCloseWithDelay (s : TcpConnection ι) (u : Option ι) : TcpConnection ι :=
  if s.isOpen then
    match u with
    | none => { s with state := .kDisconnecting }
    | some v => s.setCall v .forceCloseWithDelay
  else s

def startRead (s : TcpConnection ι) : Option ι → TcpConnection ι
  | none => s.startReadInLoop
  | some v => s.setCall v .startRead

def stopRead (s : TcpConnection ι) : Option ι → TcpConnection ι
  | none => s.stopReadInLoop
  | some v => s.setCall v .stopRead

def proceed (s : TcpConnection ι) (v : ι) : TcpConnection ι :=
  match s.calls v with
  | .idle => s
  | .send m => (s.setCall v .idle).queueInLoop (.sendInLoop v m)
  | .startRead => (s.setCall v .idle).queueInLoop .startReadInLoop
  | .stopRead => (s.setCall v .idle).queueInLoop .stopReadInLoop
  | .shutdown => { s.setCall v .shutdownSet with state := .kDisconnecting }
  | .shutdownSet => (s.setCall v .idle).queueInLoop .shutdownInLoop
  | .forceClose => { s.setCall v .forceCloseSet with state := .kDisconnecting }
  | .forceCloseSet => (s.setCall v .idle).queueInLoop .forceCloseInLoop
  | .forceCloseWithDelay => { s.setCall v .idle with state := .kDisconnecting }

def runFunctor (s : TcpConnection ι) (w : Wrote) : Except Fault (TcpConnection ι) :=
  match s.pending with
  | [] => .ok s
  | f :: rest =>
    let s := { s with pending := rest }
    match f with
    | .sendInLoop v m => s.sendInLoop (some v) m w
    | .shutdownInLoop => .ok s.shutdownInLoop
    | .forceCloseInLoop => s.forceCloseInLoop
    | .startReadInLoop => .ok s.startReadInLoop
    | .stopReadInLoop => .ok s.stopReadInLoop
    | .connectDestroyed => s.connectDestroyed
    | .writeComplete | .highWaterMark _ => .ok s

def removeConnectionInLoop (s : TcpConnection ι) : Except Fault (TcpConnection ι) :=
  if s.listed then .ok ({ s with listed := false, asked := false }.queueInLoop .connectDestroyed)
  else .error .assertion

/-- `~TcpServer`, in the thread of the loop. -/
def serverGone (s : TcpConnection ι) : Except Fault (TcpConnection ι) :=
  if s.listed then { s with listed := false }.connectDestroyed else .ok s

end Calls

inductive Event (ι : Type)
  | connectEstablished
  | send (u : Option ι) (m : List UInt8) (w : Wrote)
  | shutdown (u : Option ι)
  | forceClose (u : Option ι)
  | forceCloseWithDelay (u : Option ι)
  | startRead (u : Option ι)
  | stopRead (u : Option ι)
  | proceed (v : ι)
  | handleRead (r : Received)
  | handleWrite (w : Wrote)
  | handleClose
  | runFunctor (w : Wrote)
  | removeConnectionInLoop
  | serverGone

def step [DecidableEq ι] (s : TcpConnection ι) : Event ι → Except Fault (TcpConnection ι)
  | .connectEstablished => s.connectEstablished
  | .send u m w => s.send u m w
  | .shutdown u => .ok (s.shutdown u)
  | .forceClose u => .ok (s.forceClose u)
  | .forceCloseWithDelay u => .ok (s.forceCloseWithDelay u)
  | .startRead u => .ok (s.startRead u)
  | .stopRead u => .ok (s.stopRead u)
  | .proceed v => .ok (s.proceed v)
  | .handleRead r => s.handleRead r
  | .handleWrite w => s.handleWrite w
  | .handleClose => s.handleClose
  | .runFunctor w => s.runFunctor w
  | .removeConnectionInLoop => s.removeConnectionInLoop
  | .serverGone => s.serverGone

end TcpConnection

end CppBase.Muduo
