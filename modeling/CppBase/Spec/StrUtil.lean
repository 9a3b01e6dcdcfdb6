import CppBase.Lib.Loop

/-! `split`, `splitLine` and `trim` of `utility/strutil.cpp`, and `trim` of
mediaproc_lib's `core/strutil.cpp`. A string is the list of its characters; `npos` is
`none`. -/

namespace CppBase.Utility.StrUtil

open CppBase.Lib

section Searching

/-- The first index from `pos` on and below `stop` with the property. -/
def firstFrom (q : ℕ → Bool) (pos stop : ℕ) : Option ℕ := (List.range' pos (stop - pos)).find? q

def find (s delim : List UInt8) (pos : ℕ) : Option ℕ :=
  firstFrom (fun i => delim.isPrefixOf (s.drop i)) pos (s.length + 1)

def findFirstOf (s chars : List UInt8) (pos : ℕ) : Option ℕ :=
  firstFrom (fun i => chars.contains (s.getD i 0)) pos s.length

def findFirstNotOf (s chars : List UInt8) (pos : ℕ) : Option ℕ :=
  firstFrom (fun i => !chars.contains (s.getD i 0)) pos s.length

def substr (s : List UInt8) (pos n : ℕ) : List UInt8 := (s.drop pos).take n

end Searching

section Splitting

def splitRound (s delim : List UInt8) (v : ℕ × List (List UInt8)) :
    (ℕ × List (List UInt8)) ⊕ List (List UInt8) :=
  if v.1 < s.length then
    match find s delim v.1 with
    | some index => .inl (index + delim.length, v.2 ++ [substr s v.1 (index - v.1)])
    | none => .inr (v.2 ++ [s.drop v.1])
  else .inr v.2

/-- What `split` leaves in `ret`, if the loop is left within `rounds` rounds. `ret` is
cleared first. -/
def split (s delim : List UInt8) (_ret : List (List UInt8)) (rounds : ℕ) : Option (List (List UInt8)) :=
  loop (splitRound s delim) rounds (0, [])

def newlines : List UInt8 := [13, 10]

/-- One round of the loop in `splitLine`, where `pos` may be `npos`. -/
def splitLineRound (s : List UInt8) (v : Option ℕ × List (List UInt8)) :
    (Option ℕ × List (List UInt8)) ⊕ List (List UInt8) :=
  match v.1 with
  | none => .inr v.2
  | some pos =>
    if pos < s.length then
      match findFirstOf s newlines pos with
      | some index => .inl (findFirstNotOf s newlines index, v.2 ++ [substr s pos (index - pos)])
      | none => .inr (v.2 ++ [s.drop pos])
    else .inr v.2

def splitLine (s : List UInt8) (_ret : List (List UInt8)) (rounds : ℕ) : Option (List (List UInt8)) :=
  loop (splitLineRound s) rounds (some 0, [])

end Splitting

section Trimming

-- `isspace` depends on the locale
variable (isspace : UInt8 → Bool)

/-- The loop of both functions from the left: `s` goes up while it stands on whitespace. -/
def skipUp (str : List UInt8) : ℕ → ℕ → ℕ
  | 0, s => s
  | fuel + 1, s =>
    if s < str.length then if !isspace (str.getD s 0) then s else skipUp str fuel (s + 1) else s

/-- The loop from the right: `e` goes down to `s` while it stands on whitespace. -/
def skipDown (charAt : ℕ → UInt8) (s : ℕ) : ℕ → ℕ
  | 0 => 0
  | e + 1 => if e + 1 > s then if !isspace (charAt (e + 1)) then e + 1 else skipDown charAt s e else e + 1

def trim (str : List UInt8) : List UInt8 :=
  if str.isEmpty then []
  else
    let s := skipUp isspace str str.length 0
    let e := skipDown isspace (fun e => str.getD (e - 1) 0) s str.length
    if s < e then substr str s (e - s) else []

end Trimming

end CppBase.Utility.StrUtil

namespace CppBase.Mediaproc.StrUtil

open CppBase.Utility.StrUtil

/-- `trim` of mediaproc_lib, with an inclusive end. -/
def trim (isspace : UInt8 → Bool) (str : List UInt8) : List UInt8 :=
  if str.isEmpty then []
  else
    let s := skipUp isspace str str.length 0
    let e := skipDown isspace (fun e => str.getD e 0) s (str.length - 1)
    if s < e then substr str s (e - s + 1) else []

end CppBase.Mediaproc.StrUtil
