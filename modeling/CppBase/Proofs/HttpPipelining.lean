import CppBase.Sanity.HttpParsing

/-! Requests on one connection of an `HttpServer`, cut into pieces in any way. One call of
`onMessage` handles at most one of them. -/

namespace CppBase.Muduo.Http

open CppBase.Lib

section Messages

/-- A request as a client writes it. -/
structure Message where
  method : List UInt8
  path : List UInt8
  query : List UInt8
  version : Version
  headers : List (List UInt8 × List UInt8)

namespace Message

def protocol : Version → List UInt8
  | .kHttp10 => Http.text "HTTP/1.0"
  | _ => Http.text "HTTP/1.1"

def requestLine (m : Message) : List UInt8 := m.method ++ 32 :: (m.path ++ m.query ++ 32 :: protocol m.version)

def headerLines (headers : List (List UInt8 × List UInt8)) : List UInt8 :=
  headers.flatMap fun h => h.1 ++ 58 :: h.2 ++ [13, 10]

def text (m : Message) : List UInt8 := m.requestLine ++ 13 :: 10 :: (headerLines m.headers ++ [13, 10])

def request (m : Message) : HttpRequest :=
  m.headers.foldl (fun r h => r.addHeader h.1 h.2)
    { method := methodOf m.method, version := m.version, path := m.path, query := m.query }

structure WellFormed (m : Message) : Prop where
  known : methodOf m.method ≠ .kInvalid
  path : 32 ∉ m.path ∧ 63 ∉ m.path ∧ 13 ∉ m.path
  query : (m.query = [] ∨ m.query.head? = some 63) ∧ 32 ∉ m.query ∧ 13 ∉ m.query
  version : m.version ≠ .kUnknown
  headers : ∀ h ∈ m.headers, 58 ∉ h.1 ∧ 13 ∉ h.1 ∧ 13 ∉ h.2

end Message

open Message

variable {m : Message} {more : List UInt8}

end Messages

section Replies

variable {l : List HttpResponse} {r : HttpResponse}

/-- The responses that are sent: none follows one that closes the connection. -/
def untilClose : List HttpResponse → List HttpResponse
  | [] => []
  | r :: rs => if r.closeConnection then [r] else r :: untilClose rs

variable (httpCallback : HttpRequest → HttpResponse → HttpResponse)

/-- What has been sent are the responses to the requests handled, up to one that closes. -/
structure Replied (c : Conn) : Prop where
  connected : c.connected = !(c.handled.map (respond httpCallback)).any (·.closeConnection)
  output : c.output = (untilClose (c.handled.map (respond httpCallback))).flatMap appendToBuffer

variable {httpCallback} {c : Conn}

end Replies

section Pieces

variable {httpCallback : HttpRequest → HttpResponse → HttpResponse} {ms : List Message} {a : ℕ}
  {come piece : List UInt8} {c : Conn}

/-- How many requests are answered: one more with a piece that leaves the next one complete. With
it, how many bytes have come. -/
def answered (ms : List Message) (s : ℕ × ℕ) (piece : List UInt8) : ℕ × ℕ :=
  (if s.1 < ms.length ∧ ((ms.take (s.1 + 1)).flatMap Message.text).length ≤ s.2 + piece.length then s.1 + 1 else s.1,
    s.2 + piece.length)

end Pieces

end CppBase.Muduo.Http
