import CppBase.Lib.Loop
import CppBase.Spec.NetBuffer

/-! `muduo/net/protobuf/ProtobufCodecLite`. How protobuf writes a message and reads it again is a
parameter, and so are the checksum of zlib and the callback for raw frames. A message has
less than `2 ^ 31` bytes. -/

namespace CppBase.Muduo.ProtobufCodecLite

open CppBase.Lib

def kHeaderLen : ℕ := 4

def kChecksumLen : ℕ := 4

def kMaxMessageLen : ℕ := 64 * 1024 * 1024

inductive ErrorCode
  | kInvalidLength
  | kCheckSumError
  | kUnknownMessageType
  | kParseError
  deriving DecidableEq

structure Codec (M : Type) where
  tag : List UInt8
  /-- `SerializeWithCachedSizesToArray` -/
  serialize : M → List UInt8
  /-- `ParseFromArray` -/
  parseFromBuffer : List UInt8 → Option M
  /-- `::adler32(1, buf, len)` -/
  adler32 : List UInt8 → ℕ
  rawCb : Option (List UInt8 → Bool)

inductive Event (M : Type)
  | message (m : M)
  | error (code : ErrorCode)
  deriving DecidableEq

variable {M : Type} (c : Codec M)

def Codec.kMinMessageLen : ℕ := c.tag.length + kChecksumLen

section Checksums

def asInt32 (bytes : List UInt8) : BitVec 32 := BitVec.ofNat 32 (ofBeBytes bytes)

def checksum (bytes : List UInt8) : BitVec 32 := BitVec.ofNat 32 (c.adler32 bytes)

def validateChecksum (bytes : List UInt8) : Bool :=
  checksum c (bytes.take (bytes.length - kChecksumLen)) = asInt32 (bytes.drop (bytes.length - kChecksumLen))

end Checksums

section Sending

def serializeToBuffer (m : M) (buf : Buffer) : Except Buffer.Fault Buffer := do
  let buf ← buf.ensureWritableBytes ((c.serialize m).length + kChecksumLen)
  buf.writeDirect (c.serialize m)

def fillEmptyBuffer (buf : Buffer) (m : M) : Except Buffer.Fault Buffer :=
  if buf.readableBytes = 0 then do
    let buf ← buf.append c.tag
    let buf ← serializeToBuffer c m buf
    let buf ← buf.appendInt 4 (checksum c buf.contents)
    if buf.readableBytes = c.tag.length + (c.serialize m).length + kChecksumLen then
      buf.prependInt 4 (BitVec.ofNat 32 buf.readableBytes)
    else .error .assertion
  else .error .assertion

def frame (m : M) : Except Buffer.Fault (List UInt8) := do
  let buf ← fillEmptyBuffer c (Buffer.create Buffer.kInitialSize) m
  .ok buf.contents

end Sending

section Receiving

def parse (bytes : List UInt8) : Except ErrorCode M :=
  if validateChecksum c bytes then
    if bytes.take c.tag.length = c.tag then
      match c.parseFromBuffer (slice bytes c.tag.length (bytes.length - kChecksumLen - c.tag.length)) with
      | some m => .ok m
      | none => .error .kParseError
    else .error .kUnknownMessageType
  else .error .kCheckSumError

/-- `!rawCb_(conn, frame, receiveTime)`, where there is one. -/
def refused (bytes : List UInt8) : Bool :=
  match c.rawCb with
  | some cb => !cb bytes
  | none => false

/-- A round of the loop in `onMessage`, with the callbacks so far. -/
def onMessageRound (s : Buffer × List (Event M)) :
    (Buffer × List (Event M)) ⊕ Except Buffer.Fault (Buffer × List (Event M)) :=
  let (buf, log) := s
  if buf.readableBytes ≥ c.kMinMessageLen + kHeaderLen then
    match buf.peekInt 4 with
    | .error f => .inr (.error f)
    | .ok x =>
      if x.toInt > kMaxMessageLen ∨ x.toInt < c.kMinMessageLen then .inr (.ok (buf, log ++ [.error .kInvalidLength]))
      else if buf.readableBytes ≥ kHeaderLen + x.toNat then
        if refused c (buf.contents.take (kHeaderLen + x.toNat)) then
          match buf.retrieve (kHeaderLen + x.toNat) with
          | .ok buf => .inl (buf, log)
          | .error f => .inr (.error f)
        else
          match parse c (slice buf.contents kHeaderLen x.toNat) with
          | .ok m =>
            match buf.retrieve (kHeaderLen + x.toNat) with
            | .ok buf => .inl (buf, log ++ [.message m])
            | .error f => .inr (.error f)
          | .error code => .inr (.ok (buf, log ++ [.error code]))
      else .inr (.ok (buf, log))
  else .inr (.ok (buf, log))

/-- Every round but the last takes a byte, so that this many rounds are enough. -/
def onMessage (s : Buffer × List (Event M)) : Option (Except Buffer.Fault (Buffer × List (Event M))) :=
  loop (onMessageRound c) (s.1.readableBytes + 1) s

/-- `TcpConnection::handleRead` where bytes have come. -/
def handleRead (s : Buffer × List (Event M)) (data : List UInt8) : Except Buffer.Fault (Buffer × List (Event M)) := do
  let buf ← s.1.readFd (some data)
  match onMessage c (buf, s.2) with
  | some r => r
  | none => .error .assertion

end Receiving

end CppBase.Muduo.ProtobufCodecLite
