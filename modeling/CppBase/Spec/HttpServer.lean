import CppBase.Lib.Loop
import CppBase.Spec.NetBuffer
import Mathlib.Data.List.DropRight

/-! `muduo/net/http`: `HttpRequest`, `HttpContext`, `HttpResponse` and what `HttpServer` does on
one connection. -/

namespace CppBase.Muduo.Http

open CppBase.Lib

def text (s : String) : List UInt8 := s.toList.map fun c => UInt8.ofNat c.toNat

section Requests

inductive Method
  | kInvalid
  | kGet
  | kPost
  | kHead
  | kPut
  | kDelete
  deriving DecidableEq

inductive Version
  | kUnknown
  | kHttp10
  | kHttp11
  deriving DecidableEq

structure HttpRequest where
  method : Method := .kInvalid
  version : Version := .kUnknown
  path : List UInt8 := []
  query : List UInt8 := []
  receiveTime : ℤ := 0
  headers : List UInt8 → Option (List UInt8) := fun _ => none

def methodOf (m : List UInt8) : Method :=
  if m = text "GET" then .kGet
  else if m = text "POST" then .kPost
  else if m = text "HEAD" then .kHead
  else if m = text "PUT" then .kPut
  else if m = text "DELETE" then .kDelete
  else .kInvalid

def HttpRequest.setMethod (r : HttpRequest) (m : List UInt8) : Except Buffer.Fault (Bool × HttpRequest) :=
  if r.method = .kInvalid then .ok (methodOf m ≠ .kInvalid, { r with method := methodOf m }) else .error .assertion

def isspace (b : UInt8) : Bool := b = 32 || (9 ≤ b && b ≤ 13)

def HttpRequest.addHeader (r : HttpRequest) (field rest : List UInt8) : HttpRequest :=
  { r with headers := Function.update r.headers field (some ((rest.dropWhile isspace).rdropWhile isspace)) }

def HttpRequest.getHeader (r : HttpRequest) (field : List UInt8) : List UInt8 := (r.headers field).getD []

end Requests

section Parsing

inductive HttpRequestParseState
  | kExpectRequestLine
  | kExpectHeaders
  | kExpectBody
  | kGotAll
  deriving DecidableEq

structure HttpContext where
  state : HttpRequestParseState := .kExpectRequestLine
  request : HttpRequest := {}

/-- What comes before `c`, and what comes after, as `std::find` splits a range. -/
def cutAt (c : UInt8) (l : List UInt8) : Option (List UInt8 × List UInt8) :=
  if c ∈ l then some (l.takeWhile (· ≠ c), (l.dropWhile (· ≠ c)).tail) else none

def HttpRequest.setTarget (r : HttpRequest) (target : List UInt8) : HttpRequest :=
  match cutAt 63 target with
  | some (path, query) => { r with path := path, query := 63 :: query }
  | none => { r with path := target }

def HttpRequest.setProtocol (r : HttpRequest) (protocol : List UInt8) : Bool × HttpRequest :=
  if protocol.length = 8 ∧ protocol.take 7 = text "HTTP/1." then
    if protocol.drop 7 = text "1" then (true, { r with version := .kHttp11 })
    else if protocol.drop 7 = text "0" then (true, { r with version := .kHttp10 })
    else (false, r)
  else (false, r)

def processRequestLine (r : HttpRequest) (line : List UInt8) : Except Buffer.Fault (Bool × HttpRequest) :=
  match cutAt 32 line with
  | none => .ok (false, r)
  | some (m, rest) => do
    let (known, r) ← r.setMethod m
    if known then
      match cutAt 32 rest with
      | none => .ok (false, r)
      | some (target, protocol) => .ok ((r.setTarget target).setProtocol protocol)
    else .ok (false, r)

def findCRLF : List UInt8 → Option ℕ
  | [] => none
  | b :: l => if b = 13 ∧ l.head? = some 10 then some 0 else (findCRLF l).map (· + 1)

def parseRound (now : ℤ) (s : HttpContext × Buffer) :
    (HttpContext × Buffer) ⊕ Except Buffer.Fault (Bool × HttpContext × Buffer) :=
  let (ctx, buf) := s
  match ctx.state with
  | .kExpectRequestLine =>
    match findCRLF buf.contents with
    | some crlf =>
      match processRequestLine ctx.request (buf.contents.take crlf) with
      | .error f => .inr (.error f)
      | .ok (false, r) => .inr (.ok (false, { ctx with request := r }, buf))
      | .ok (true, r) =>
        match buf.retrieve (crlf + 2) with
        | .error f => .inr (.error f)
        | .ok buf => .inl ({ state := .kExpectHeaders, request := { r with receiveTime := now } }, buf)
    | none => .inr (.ok (true, ctx, buf))
  | .kExpectHeaders =>
    match findCRLF buf.contents with
    | some crlf =>
      match buf.retrieve (crlf + 2) with
      | .error f => .inr (.error f)
      | .ok buf' =>
        match cutAt 58 (buf.contents.take crlf) with
        | some (field, rest) => .inl ({ ctx with request := ctx.request.addHeader field rest }, buf')
        | none => .inr (.ok (true, { ctx with state := .kGotAll }, buf'))
    | none => .inr (.ok (true, ctx, buf))
  -- the loop goes round without doing anything
  | .kExpectBody | .kGotAll => .inl s

/-- `none` if the loop does not end. -/
def parseRequest (now : ℤ) (ctx : HttpContext) (buf : Buffer) :
    Option (Except Buffer.Fault (Bool × HttpContext × Buffer)) :=
  loop (parseRound now) (buf.readableBytes + 1) (ctx, buf)

end Parsing

section Responses

structure HttpResponse where
  headers : List (List UInt8 × List UInt8) := []
  statusCode : ℕ := 0
  statusMessage : List UInt8 := []
  closeConnection : Bool
  body : List UInt8 := []

def decimal (n : ℕ) : List UInt8 := text (toString n)

def appendToBuffer (r : HttpResponse) : List UInt8 :=
  text "HTTP/1.1 " ++ decimal r.statusCode ++ text " " ++ r.statusMessage ++ text "\r\n" ++
    (if r.closeConnection then text "Connection: close\r\n"
    else text "Content-Length: " ++ decimal r.body.length ++ text "\r\n" ++ text "Connection: Keep-Alive\r\n") ++
    (r.headers.flatMap fun h => h.1 ++ text ": " ++ h.2 ++ text "\r\n") ++ text "\r\n" ++ r.body

end Responses

section Connections

/-- A connection, with the requests given to the callback and the bytes given to the socket. -/
structure Conn where
  context : HttpContext := {}
  inputBuffer : Buffer := Buffer.create Buffer.kInitialSize
  connected : Bool := true
  handled : List HttpRequest := []
  output : List UInt8 := []

def Conn.send (c : Conn) (bytes : List UInt8) : Conn :=
  if c.connected then { c with output := c.output ++ bytes } else c

def Conn.shutdown (c : Conn) : Conn := { c with connected := false }

variable (httpCallback : HttpRequest → HttpResponse → HttpResponse)

def respond (req : HttpRequest) : HttpResponse :=
  let connection := req.getHeader (text "Connection")
  let close := connection = text "close" ∨ req.version = .kHttp10 ∧ connection ≠ text "Keep-Alive"
  httpCallback req { closeConnection := close }

def onRequest (c : Conn) (req : HttpRequest) : Conn :=
  let response := respond httpCallback req
  let c := { c with handled := c.handled ++ [req] }.send (appendToBuffer response)
  if response.closeConnection then c.shutdown else c

inductive Fault
  | buffer (f : Buffer.Fault)
  | endless

def badRequest : List UInt8 := text "HTTP/1.1 400 Bad Request\r\n\r\n"

def onMessage (c : Conn) (receiveTime : ℤ) : Except Fault Conn :=
  match parseRequest receiveTime c.context c.inputBuffer with
  | none => .error .endless
  | some (.error f) => .error (.buffer f)
  | some (.ok (ok, ctx, buf)) =>
    let c := { c with context := ctx, inputBuffer := buf }
    let c := if ok then c else (c.send badRequest).shutdown
    .ok (if c.context.state = .kGotAll then { onRequest httpCallback c c.context.request with context := {} } else c)

/-- `TcpConnection::handleRead` when bytes have come at a time. -/
def handleRead (c : Conn) (come : ℤ × List UInt8) : Except Fault Conn :=
  match c.inputBuffer.readFd (some come.2) with
  | .error f => .error (.buffer f)
  | .ok buf => onMessage httpCallback { c with inputBuffer := buf } come.1

end Connections

end CppBase.Muduo.Http
