import CppBase.Sanity.UnpackEffects
import CppBase.Spec.Codec

/-! Messages as bytes, apart from the code that reads them: what the bytes for a type hold, and which
messages the checks let pass. Reading returns exactly for these, and what it leaves in a variable depends
on what the variable held. -/

namespace CppBase.Packet

open CppBase.Lib

variable {α β μ ν : Type}

section Formats

/-- How a message is written, and which messages pass when so many bytes stand behind them. -/
structure Format (μ : Type) where
  bytes : μ → List UInt8
  passes : μ → ℕ → Prop

namespace Format

def number (width : ℕ) (toNat : μ → ℕ) : Format μ := ⟨fun x => leBytes width (toNat x), fun _ _ => True⟩

def text : Format (List UInt8) := ⟨fun x => leBytes 2 x.length ++ x, fun x _ => x.length < 2 ^ 16⟩

def seq (f : Format μ) (g : Format ν) : Format (μ × ν) where
  bytes x := f.bytes x.1 ++ g.bytes x.2
  passes x left := f.passes x.1 ((g.bytes x.2).length + left) ∧ g.passes x.2 left

def EachPasses (f : Format μ) : List μ → ℕ → Prop
  | [], _ => True
  | x :: xs, left => f.passes x ((xs.flatMap f.bytes).length + left) ∧ f.EachPasses xs left

/-- So many elements. `check` sees their number and the bytes that are left from there on. -/
def elements (f : Format μ) (check : ℕ → ℕ → Prop) (n : ℕ) : Format (List μ) where
  bytes xs := xs.flatMap f.bytes
  passes xs left := xs.length = n ∧ (xs ≠ [] → check n ((xs.flatMap f.bytes).length + left)) ∧ f.EachPasses xs left

def counted (f : Format μ) (check : ℕ → ℕ → Prop) : Format (List μ) where
  bytes xs := leBytes 4 xs.length ++ xs.flatMap f.bytes
  passes xs left := xs.length < 2 ^ 32 ∧ (f.elements check xs.length).passes xs left

end Format

/-- What the bytes for a type hold. -/
def Ty.Msg : Ty → Type
  | .bool | .uint8 => UInt8
  | .uint16 => UInt16
  | .uint32 => UInt32
  | .uint64 => UInt64
  | .string => List UInt8
  | .pair a b => a.Msg × b.Msg
  | .vector t | .set t => List t.Msg
  | .map k v => List (k.Msg × v.Msg)

/-- `marshal_count_check` for the elements of a vector, whose second argument is a `uint32_t`. -/
def Ty.CountPasses (sizeof : Ty → ℕ) : Ty → ℕ → ℕ → Prop
  | .bool | .uint8 => fun count left => count * 1 ≤ left % 2 ^ 32
  | .uint16 => fun count left => count * 2 ≤ left % 2 ^ 32
  | .uint32 => fun count left => count * 4 ≤ left % 2 ^ 32
  | .uint64 => fun count left => count * 8 ≤ left % 2 ^ 32
  | t => fun count _ => (count * sizeof t) % 2 ^ 64 ≤ 128 * 1024 * 1024

def Ty.format (sizeof : Ty → ℕ) : (t : Ty) → Format t.Msg
  | .bool | .uint8 => .number 1 UInt8.toNat
  | .uint16 => .number 2 UInt16.toNat
  | .uint32 => .number 4 UInt32.toNat
  | .uint64 => .number 8 UInt64.toNat
  | .string => .text
  | .pair a b => (a.format sizeof).seq (b.format sizeof)
  | .vector t => (t.format sizeof).counted (t.CountPasses sizeof)
  | .set t => (t.format sizeof).counted fun _ _ => True
  | .map k v => ((k.format sizeof).seq (v.format sizeof)).counted fun _ _ => True

/-- The value that a message stands for. Of two elements of a set or a map with the same key the first counts. -/
def Ty.value : (t : Ty) → t.Msg → t.Val
  | .bool => fun x : UInt8 => if x = 0 then false else true
  | .uint8 => fun x : UInt8 => x
  | .uint16 => fun x : UInt16 => x
  | .uint32 => fun x : UInt32 => x
  | .uint64 => fun x : UInt64 => x
  | .string => fun x : List UInt8 => x
  | .pair a b => fun x : a.Msg × b.Msg => toLex (a.value x.1, b.value x.2)
  | .vector t => fun xs : List t.Msg => xs.map t.value
  | .set t => fun xs : List t.Msg => (xs.map t.value).foldl (fun s a => s.insert a) (default : Keyed (id : t.Val → t.Val))
  | .map k v => fun xs : List (k.Msg × v.Msg) => (xs.map fun x => toLex (k.value x.1, v.value x.2)).foldl
    (fun s a => s.insert a) (default : Keyed fun p : k.Val ×ₗ v.Val => (ofLex p).1)

/-- The bytes begin with the message. -/
def Ty.Holds (sizeof : Ty → ℕ) (t : Ty) (bytes : List UInt8) (x : t.Msg) : Prop :=
  ∃ rest, bytes = (t.format sizeof).bytes x ++ rest ∧ (t.format sizeof).passes x rest.length

end Formats

section Unambiguous

/-- No bytes begin with two messages. -/
def Format.Unambiguous (f : Format μ) : Prop :=
  ∀ x y r r', f.bytes x ++ r = f.bytes y ++ r' → f.passes x r.length → f.passes y r'.length → x = y ∧ r = r'

namespace Format

variable {f : Format μ} {g : Format ν} {width n : ℕ} {toNat : μ → ℕ}

theorem leBytes_append_inj {a b : ℕ} {r r' : List UInt8} (ha : a < 256 ^ width) (hb : b < 256 ^ width)
    (h : leBytes width a ++ r = leBytes width b ++ r') : a = b ∧ r = r' := by
  obtain ⟨hnum, hrest⟩ := List.append_inj h (by rw [length_leBytes, length_leBytes])
  have hof := congrArg ofLeBytes hnum
  rw [ofLeBytes_leBytes_of_lt ha, ofLeBytes_leBytes_of_lt hb] at hof
  exact ⟨hof, hrest⟩

theorem unambiguous_number (hlt : ∀ x, toNat x < 256 ^ width) (hinj : Function.Injective toNat) :
    (number width toNat).Unambiguous := by
  intro x y r r' h _ _
  obtain ⟨hnum, hrest⟩ := leBytes_append_inj (hlt x) (hlt y) h
  exact ⟨hinj hnum, hrest⟩

theorem unambiguous_text : text.Unambiguous := by
  intro x y r r' h hx hy
  simp only [text, List.append_assoc] at h hx hy
  obtain ⟨hlen, h⟩ := leBytes_append_inj (by simpa using hx) (by simpa using hy) h
  exact List.append_inj h hlen

theorem Unambiguous.seq (hf : f.Unambiguous) (hg : g.Unambiguous) : (f.seq g).Unambiguous := by
  rintro ⟨x, x'⟩ ⟨y, y'⟩ r r' h ⟨hx, hx'⟩ ⟨hy, hy'⟩
  simp only [Format.seq, List.append_assoc] at h hx hx' hy hy'
  rw [← List.length_append] at hx hy
  obtain ⟨rfl, hrest⟩ := hf x y _ _ h hx hy
  obtain ⟨rfl, hend⟩ := hg x' y' _ _ hrest hx' hy'
  exact ⟨rfl, hend⟩

theorem Unambiguous.each (hf : f.Unambiguous) {xs ys : List μ} {r r' : List UInt8} (hlen : xs.length = ys.length)
    (h : xs.flatMap f.bytes ++ r = ys.flatMap f.bytes ++ r') (hx : f.EachPasses xs r.length)
    (hy : f.EachPasses ys r'.length) : xs = ys ∧ r = r' := by
  induction xs generalizing ys with
  | nil =>
    obtain rfl : ys = [] := List.length_eq_zero_iff.mp hlen.symm
    exact ⟨rfl, by simpa using h⟩
  | cons x xs ih =>
    cases ys with
    | nil => simp at hlen
    | cons y ys =>
      simp only [List.flatMap_cons, List.append_assoc] at h
      obtain ⟨hx, hxs⟩ := hx
      obtain ⟨hy, hys⟩ := hy
      rw [← List.length_append] at hx hy
      obtain ⟨rfl, hrest⟩ := hf x y _ _ h hx hy
      obtain ⟨rfl, hend⟩ := ih (by simpa using hlen) hrest hxs hys
      exact ⟨rfl, hend⟩

theorem Unambiguous.counted {check : ℕ → ℕ → Prop} (hf : f.Unambiguous) : (f.counted check).Unambiguous := by
  rintro xs ys r r' h ⟨hx, -, -, hxs⟩ ⟨hy, -, -, hys⟩
  simp only [Format.counted, List.append_assoc] at h
  obtain ⟨hlen, h⟩ := leBytes_append_inj (by simpa using hx) (by simpa using hy) h
  exact hf.each hlen h hxs hys

end Format

theorem Ty.format_unambiguous (sizeof : Ty → ℕ) (t : Ty) : (t.format sizeof).Unambiguous := by
  induction t with
  | bool => exact Format.unambiguous_number (fun x => x.toNat_lt) fun x y => UInt8.toNat_inj.mp
  | uint8 => exact Format.unambiguous_number (fun x => x.toNat_lt) fun x y => UInt8.toNat_inj.mp
  | uint16 => exact Format.unambiguous_number (fun x => x.toNat_lt) fun x y => UInt16.toNat_inj.mp
  | uint32 => exact Format.unambiguous_number (fun x => x.toNat_lt) fun x y => UInt32.toNat_inj.mp
  | uint64 => exact Format.unambiguous_number (fun x => x.toNat_lt) fun x y => UInt64.toNat_inj.mp
  | string => exact Format.unambiguous_text
  | pair a b iha ihb => exact iha.seq ihb
  | vector t ih => exact ih.counted
  | set t ih => exact ih.counted
  | map k v ihk ihv => exact (ihk.seq ihv).counted

theorem Ty.holds_unique {sizeof : Ty → ℕ} {t : Ty} {bytes : List UInt8} {x y : t.Msg} (hx : t.Holds sizeof bytes x)
    (hy : t.Holds sizeof bytes y) : x = y := by
  obtain ⟨r, rfl, hx⟩ := hx
  obtain ⟨r', h, hy⟩ := hy
  exact (t.format_unambiguous sizeof x y r r' h hx hy).1

end Unambiguous

section Reading

/-- The code returns for the messages of a format and for nothing else, with `val` of the message. -/
structure Accepts (m : UnpackM α) (f : Format μ) (val : μ → α) : Prop where
  reads : ∀ s mem rest x, Unpack.At s mem (f.bytes x ++ rest) → f.passes x rest.length →
    ∃ t, exec m s = (.ok (val x), t) ∧ t.At mem rest
  only : ∀ s t mem left a, Unpack.At s mem left → exec m s = (.ok a, t) →
    ∃ x rest, left = f.bytes x ++ rest ∧ f.passes x rest.length ∧ a = val x ∧ t.At mem rest

variable {m : UnpackM α} {n : UnpackM β} {f : Format μ} {g : Format ν} {val : μ → α} {val' : ν → β}

theorem Accepts.map (h : Accepts m f val) (k : α → β) : Accepts (k <$> m) f fun x => k (val x) := by
  constructor
  · intro s mem rest x hat hpass
    obtain ⟨t, ht, hat'⟩ := h.reads s mem rest x hat hpass
    exact ⟨t, by rw [exec_map, ht], hat'⟩
  · intro s t mem left a hat ha
    rw [← bind_pure_comp] at ha
    obtain ⟨b, u, hb, hu⟩ := ok_of_bind ha
    obtain ⟨rfl, rfl⟩ : k b = a ∧ u = t := by simpa using hu
    obtain ⟨x, rest, heq, hpass, rfl, hat'⟩ := h.only s u mem left b hat hb
    exact ⟨x, rest, heq, hpass, rfl, hat'⟩

theorem Accepts.seq {γ : Type} (hm : Accepts m f val) (hn : Accepts n g val') (k : α → β → γ) :
    Accepts (m >>= fun a => n >>= fun b => pure (k a b)) (f.seq g) fun x => k (val x.1) (val' x.2) := by
  constructor
  · rintro s mem rest ⟨x, y⟩ hat ⟨hx, hy⟩
    simp only [Format.seq, List.append_assoc] at hat hx hy
    obtain ⟨t, ht, hat'⟩ := hm.reads s mem _ x hat (by rwa [List.length_append])
    obtain ⟨u, hu, hat''⟩ := hn.reads t mem rest y hat' hy
    exact ⟨u, by rw [exec_bind_ok ht, exec_bind_ok hu, exec_pure], hat''⟩
  · intro s t mem left c hat hc
    obtain ⟨a, u, ha, hc⟩ := ok_of_bind hc
    obtain ⟨b, u', hb, hc⟩ := ok_of_bind hc
    obtain ⟨rfl, rfl⟩ : k a b = c ∧ u' = t := by simpa using hc
    obtain ⟨x, rest, rfl, hx, rfl, hat'⟩ := hm.only s u mem left a hat ha
    obtain ⟨y, rest', rfl, hy, rfl, hat''⟩ := hn.only u u' mem rest b hat' hb
    refine ⟨(x, y), rest', ?_, ⟨?_, hy⟩, rfl, hat''⟩
    · simp only [Format.seq, List.append_assoc]
    · rwa [List.length_append] at hx

theorem Unpack.At.exec_popUint {s : Unpack} {mem bs rest : List UInt8} (hat : s.At mem (bs ++ rest)) (what : String) :
    exec (popUint bs.length what) s = (.ok (ofLeBytes bs), s.skip bs.length) := by
  have hsize := hat.size
  rw [List.length_append] at hsize
  simp only [popUint, exec_bind, exec_gets, if_neg (show ¬ s.m_size < bs.length by omega), exec_load hat, advance,
    exec_modifies, exec_pure]

theorem accepts_popUint {width : ℕ} {toNat : μ → ℕ} {ofNat : ℕ → μ} (what : String) (hlt : ∀ x, toNat x < 256 ^ width)
    (hof : ∀ x, ofNat (toNat x) = x) (hto : ∀ k < 256 ^ width, toNat (ofNat k) = k) :
    Accepts (ofNat <$> popUint width what) (.number width toNat) id := by
  constructor
  · intro s mem rest x hat _
    have hexec := hat.exec_popUint what
    simp only [Format.number, length_leBytes, ofLeBytes_leBytes_of_lt (hlt x)] at hexec
    refine ⟨_, ?_, hat.skip⟩
    simp only [exec_map, hexec, hof, id, Format.number, length_leBytes]
  · intro s t mem left a hat ha
    rw [← bind_pure_comp] at ha
    obtain ⟨k, u, hk, hu⟩ := ok_of_bind ha
    obtain ⟨rfl, rfl⟩ : ofNat k = a ∧ u = t := by simpa using hu
    have henough : width ≤ left.length := by
      by_contra hshort
      rw [← hat.size] at hshort
      simp [popUint, exec_bind, not_le.mp hshort] at hk
    -- the bytes that are read, and those behind them
    obtain ⟨bs, rest, rfl, rfl⟩ : ∃ bs rest, left = bs ++ rest ∧ bs.length = width :=
      ⟨left.take width, left.drop width, (List.take_append_drop ..).symm, List.length_take_of_le henough⟩
    rw [hat.exec_popUint] at hk
    obtain ⟨rfl, rfl⟩ : ofLeBytes bs = k ∧ s.skip bs.length = u := by simpa using hk
    refine ⟨ofNat (ofLeBytes bs), rest, ?_, trivial, rfl, hat.skip⟩
    simp only [Format.number, hto _ (ofLeBytes_lt bs), leBytes_ofLeBytes]

theorem accepts_popUint8 : Accepts popUint8 (.number 1 UInt8.toNat) id :=
  accepts_popUint _ (fun x => x.toNat_lt) (fun _ => UInt8.ofNat_toNat) fun k hk => by
    exact Nat.mod_eq_of_lt hk

theorem accepts_popUint16 : Accepts popUint16 (.number 2 UInt16.toNat) id :=
  accepts_popUint _ (fun x => x.toNat_lt) (fun _ => UInt16.ofNat_toNat) fun k hk => by
    exact Nat.mod_eq_of_lt hk

theorem accepts_popUint32 : Accepts popUint32 (.number 4 UInt32.toNat) id :=
  accepts_popUint _ (fun x => x.toNat_lt) (fun _ => UInt32.ofNat_toNat) fun k hk => by
    exact Nat.mod_eq_of_lt hk

theorem accepts_popUint64 : Accepts popUint64 (.number 8 UInt64.toNat) id :=
  accepts_popUint _ (fun x => x.toNat_lt) (fun _ => UInt64.ofNat_toNat) fun k hk => by
    exact Nat.mod_eq_of_lt hk

theorem accepts_popVarstr : Accepts popVarstr .text id := by
  constructor
  · intro s mem rest x hat hpass
    exact reads_popVarstr _ (Nat.le_of_lt_succ hpass) s mem rest hat (Nat.lt_succ_self _)
  · intro s t mem left a hat ha
    have hparts := ha
    rw [popVarstr, popVarstrPtr] at hparts
    obtain ⟨vs, u, hvs, -⟩ := ok_of_bind hparts
    obtain ⟨size, u₁, hsize, hvs⟩ := ok_of_bind hvs
    obtain ⟨data, u₂, hdata, -⟩ := ok_of_bind hvs
    obtain ⟨size, rest, rfl, -, rfl, hat₁⟩ := accepts_popUint16.only s u₁ mem left size hat hsize
    have henough : size.toNat ≤ rest.length := by
      by_contra hshort
      rw [← hat₁.size] at hshort
      simp [popFetchPtr, exec_bind, not_le.mp hshort] at hdata
    obtain ⟨bs, rest', rfl, hlen⟩ : ∃ bs rest', rest = bs ++ rest' ∧ bs.length = size.toNat :=
      ⟨rest.take size.toNat, rest.drop size.toNat, (List.take_append_drop ..).symm, List.length_take_of_le henough⟩
    have hsmall : bs.length < 2 ^ 16 := hlen ▸ size.toNat_lt
    have hbytes : (Format.number 2 UInt16.toNat).bytes size ++ (bs ++ rest') = Format.text.bytes bs ++ rest' := by
      simp only [Format.number, Format.text, hlen, List.append_assoc]
    rw [hbytes] at hat ⊢
    obtain ⟨t', ht', hat'⟩ := reads_popVarstr _ (Nat.le_of_lt_succ hsmall) s mem rest' hat (Nat.lt_succ_self _)
    obtain ⟨rfl, rfl⟩ : bs = a ∧ t' = t := by simpa [ht'] using ha
    exact ⟨bs, rest', rfl, hsmall, rfl, hat'⟩

end Reading

section Templates

/-- A codec reads the messages of a format; `store x v` is what a variable that held `v` then holds. -/
structure Codec.Speaks (c : Codec α) (f : Format μ) (check : ℕ → ℕ → Prop) (store : μ → α → α) : Prop where
  get : ∀ v, Accepts (c.get v) f fun x => store x v
  pass : ∀ count size, check count.toNat size → c.countCheck count (UInt32.ofNat size) = pure ()
  stop : ∀ count size, ¬ check count.toNat size → ∃ e, c.countCheck count (UInt32.ofNat size) = fails e

variable {c : Codec α} {d : Codec β} {f : Format μ} {g : Format ν} {check check' : ℕ → ℕ → Prop} {store : μ → α → α}
  {store' : ν → β → β}

theorem speaks_scalar {name : String} {width : ℕ} (hc : c.countCheck = countCheckScalar name width)
    (hget : ∀ v, Accepts (c.get v) f fun x => store x v) :
    c.Speaks f (fun count size => count * width ≤ size % 2 ^ 32) store where
  get := hget
  pass count size h := by
    rw [hc, countCheckScalar, UInt32.toNat_ofNat', if_neg (Nat.not_lt.mpr h)]
  stop count size h := by
    rw [hc, countCheckScalar, UInt32.toNat_ofNat', if_pos (Nat.lt_of_not_le h)]
    exact ⟨_, rfl⟩

theorem speaks_unknown {sizeof : ℕ} (hc : c.countCheck = countCheckUnknown sizeof)
    (hget : ∀ v, Accepts (c.get v) f fun x => store x v) :
    c.Speaks f (fun count _ => (count * sizeof) % 2 ^ 64 ≤ 128 * 1024 * 1024) store where
  get := hget
  pass count size h := by
    rw [hc, countCheckUnknown, if_neg (Nat.not_lt.mpr h)]
  stop count size h := by
    rw [hc, countCheckUnknown, if_pos (Nat.lt_of_not_le h)]
    exact ⟨_, rfl⟩

namespace Codec.Speaks

theorem getEach (h : c.Speaks f check store) (vs : List α) :
    Accepts (c.getEach vs) (f.elements (fun _ _ => True) vs.length) fun xs => List.zipWith store xs vs := by
  induction vs with
  | nil =>
    constructor
    · rintro s mem rest xs hat ⟨hlen, -, -⟩
      obtain rfl := List.length_eq_zero_iff.mp hlen
      exact ⟨s, rfl, hat⟩
    · intro s t mem left a hat ha
      obtain ⟨rfl, rfl⟩ : [] = a ∧ s = t := by simpa [Codec.getEach] using ha
      exact ⟨[], left, rfl, ⟨rfl, fun _ => trivial, trivial⟩, rfl, hat⟩
  | cons v vs ih =>
    have hseq := (h.get v).seq ih List.cons
    constructor
    · rintro s mem rest xs hat ⟨hlen, -, hpass⟩
      cases xs with
      | nil => simp at hlen
      | cons x xs =>
        simp only [Format.elements, List.flatMap_cons] at hat
        exact hseq.reads s mem rest (x, xs) hat ⟨hpass.1, by simpa using hlen, fun _ => trivial, hpass.2⟩
    · intro s t mem left a hat ha
      obtain ⟨⟨x, xs⟩, rest, heq, ⟨hx, hlen, -, hxs⟩, rfl, hat'⟩ := hseq.only s t mem left a hat ha
      exact ⟨x :: xs, rest, heq, ⟨by simpa using hlen, fun _ => trivial, hx, hxs⟩, rfl, hat'⟩

theorem getInsert {κ : Type} [LinearOrder κ] {key : α → κ} [Inhabited α] (h : c.Speaks f check store) (n : ℕ)
    (s : Keyed key) :
    Accepts (c.getInsert n s) (f.elements (fun _ _ => True) n) fun xs =>
      (xs.map (store · default)).foldl (fun s a => s.insert a) s := by
  induction n generalizing s with
  | zero =>
    constructor
    · rintro u mem rest xs hat ⟨hlen, -, -⟩
      obtain rfl := List.length_eq_zero_iff.mp hlen
      exact ⟨u, rfl, hat⟩
    · intro u t mem left a hat ha
      obtain ⟨rfl, rfl⟩ : s = a ∧ u = t := by simpa [Codec.getInsert] using ha
      exact ⟨[], left, rfl, ⟨rfl, fun _ => trivial, trivial⟩, rfl, hat⟩
  | succ n ih =>
    constructor
    · rintro u mem rest xs hat ⟨hlen, -, hpass⟩
      cases xs with
      | nil => simp at hlen
      | cons x xs =>
        simp only [Format.elements, List.flatMap_cons, List.append_assoc] at hat
        obtain ⟨t, ht, hat'⟩ := (h.get default).reads u mem _ x hat (by rw [List.length_append]; exact hpass.1)
        obtain ⟨t', ht', hat''⟩ := (ih (s.insert (store x default))).reads t mem rest xs hat'
          ⟨by simpa using hlen, fun _ => trivial, hpass.2⟩
        exact ⟨t', by rw [Codec.getInsert, exec_bind_ok ht, ht']; rfl, hat''⟩
    · intro u t mem left a hat ha
      obtain ⟨tmp, u', htmp, ha⟩ := ok_of_bind ha
      obtain ⟨x, rest, rfl, hx, rfl, hat'⟩ := (h.get default).only u u' mem left tmp hat htmp
      obtain ⟨xs, rest', rfl, ⟨hlen, -, hxs⟩, rfl, hat''⟩ :=
        (ih (s.insert (store x default))).only u' t mem rest a hat' ha
      refine ⟨x :: xs, rest', ?_, ⟨by simpa using hlen, fun _ => trivial, ?_, hxs⟩, rfl, hat''⟩
      · simp only [Format.elements, List.flatMap_cons, List.append_assoc]
      · rwa [List.length_append] at hx

end Codec.Speaks

/-- The count, and code for that many elements. -/
theorem accepts_counted {val : List μ → α} {body : UInt32 → UnpackM α}
    (h : ∀ count, Accepts (body count) (f.elements check count.toNat) val) :
    Accepts (popUint32 >>= body) (f.counted check) val := by
  constructor
  · rintro s mem rest xs hat ⟨hlen, hpass⟩
    have hcount : (UInt32.ofNat xs.length).toNat = xs.length := toNat_uint32 hlen
    simp only [Format.counted, List.append_assoc] at hat
    rw [← hcount] at hat hpass
    obtain ⟨t, ht, hat'⟩ := accepts_popUint32.reads s mem _ (UInt32.ofNat xs.length) hat trivial
    obtain ⟨u, hu, hat''⟩ := (h _).reads t mem rest xs hat' hpass
    exact ⟨u, by rw [exec_bind_ok ht]; exact hu, hat''⟩
  · intro s t mem left a hat ha
    obtain ⟨count, u, hcount, ha⟩ := ok_of_bind ha
    obtain ⟨count, rest, rfl, -, rfl, hat'⟩ := accepts_popUint32.only s u mem left count hat hcount
    obtain ⟨xs, rest', rfl, hpass, rfl, hat''⟩ := (h _).only u t mem rest a hat' ha
    have hlen : xs.length = count.toNat := hpass.1
    refine ⟨xs, rest', ?_, ⟨hlen ▸ count.toNat_lt, hlen ▸ hpass⟩, rfl, hat''⟩
    simp only [Format.counted, Format.number, Format.elements, hlen, List.append_assoc]

namespace Codec.Speaks

theorem pair (sizeof : ℕ) (hc : c.Speaks f check store) (hd : d.Speaks g check' store') :
    (Codec.pair sizeof c d).Speaks (f.seq g) (fun count _ => (count * sizeof) % 2 ^ 64 ≤ 128 * 1024 * 1024)
      fun x v => toLex (store x.1 (ofLex v).1, store' x.2 (ofLex v).2) :=
  speaks_unknown rfl fun _ => (hc.get _).seq (hd.get _) fun a b => toLex (a, b)

/-- What a vector holds afterwards: its elements are read in place. -/
def storeVector [Inhabited α] (store : μ → α → α) (xs : List μ) (v : List α) : List α :=
  if xs.length = 0 then v else List.zipWith store xs (resize xs.length default v)

theorem storeVector_nil [Inhabited α] (store : μ → α → α) (xs : List μ) :
    storeVector store xs [] = xs.map (store · default) := by
  rw [storeVector]
  split_ifs with hlen
  · rw [List.length_eq_zero_iff.mp hlen]
    rfl
  · refine List.ext_getElem (by simp [resize_nil]) fun i hi hi' => ?_
    simp [resize_nil]

theorem vector (sizeof : ℕ) [Inhabited α] (h : c.Speaks f check store) :
    (Codec.vector sizeof c).Speaks (f.counted check) (fun count _ => (count * sizeof) % 2 ^ 64 ≤ 128 * 1024 * 1024)
      (storeVector store) := by
  refine speaks_unknown rfl fun v => accepts_counted fun count => ?_
  have hcount : ∀ xs : List μ, xs.length = count.toNat → (count = 0 ↔ xs.length = 0) := fun xs hlen => by
    rw [hlen, ← UInt32.toNat_inj]
    rfl
  have heach := h.getEach (resize count.toNat default v)
  constructor
  · rintro s mem rest xs hat ⟨hlen, hcheck, hpass⟩
    by_cases hzero : count = 0
    · have hnil := List.length_eq_zero_iff.mp ((hcount xs hlen).mp hzero)
      subst hnil
      rw [if_pos hzero]
      exact ⟨s, rfl, hat⟩
    · have hne : xs.length ≠ 0 := fun heq => hzero ((hcount xs hlen).mpr heq)
      have hok : c.countCheck count (UInt32.ofNat s.m_size) = pure () := by
        apply h.pass
        rw [hat.size, List.length_append]
        exact hcheck fun hnil => hne (by rw [hnil]; rfl)
      obtain ⟨t, ht, hat'⟩ := heach.reads s mem rest xs hat
        ⟨hlen.trans (length_resize ..).symm, fun _ => trivial, hpass⟩
      refine ⟨t, ?_, hat'⟩
      rw [if_neg hzero, exec_bind_ok (exec_gets ..), hok, storeVector, if_neg hne, hlen]
      exact ht
  · intro s t mem left a hat ha
    by_cases hzero : count = 0
    · rw [if_pos hzero] at ha
      obtain ⟨rfl, rfl⟩ : v = a ∧ s = t := by simpa using ha
      exact ⟨[], left, rfl, ⟨by rw [hzero]; rfl, fun hne => absurd rfl hne, trivial⟩, rfl, hat⟩
    · rw [if_neg hzero, exec_bind_ok (exec_gets ..)] at ha
      obtain ⟨_, u, hok, ha⟩ := ok_of_bind ha
      have hcheck : check count.toNat s.m_size := by
        by_contra hnot
        obtain ⟨e, he⟩ := h.stop count s.m_size hnot
        simp [he] at hok
      rw [h.pass count s.m_size hcheck] at hok
      obtain rfl : s = u := by simpa using hok
      obtain ⟨xs, rest, rfl, ⟨hlen, -, hpass⟩, rfl, hat'⟩ := heach.only s t mem left a hat ha
      have hlen' : xs.length = count.toNat := hlen.trans (length_resize ..)
      have hne : xs.length ≠ 0 := fun heq => hzero ((hcount xs hlen').mpr heq)
      refine ⟨xs, rest, rfl, ⟨hlen', fun _ => ?_, hpass⟩, ?_, hat'⟩
      · rw [hat.size, List.length_append] at hcheck
        exact hcheck
      · rw [storeVector, if_neg hne, hlen']

theorem keyed {κ : Type} [LinearOrder κ] (sizeof : ℕ) (key : α → κ) [Inhabited α] (h : c.Speaks f check store) :
    (Codec.keyed sizeof key c).Speaks (f.counted fun _ _ => True)
      (fun count _ => (count * sizeof) % 2 ^ 64 ≤ 128 * 1024 * 1024)
      fun xs s => (xs.map (store · default)).foldl (fun s a => s.insert a) s :=
  speaks_unknown rfl fun s => accepts_counted fun count => h.getInsert count.toNat s

end Codec.Speaks

end Templates

section Types

/-- What a variable that held `v` holds when the message has been read. -/
def Ty.store : (t : Ty) → t.Msg → t.Val → t.Val
  | .bool => fun (x : UInt8) _ => if x = 0 then false else true
  | .uint8 => fun (x : UInt8) _ => x
  | .uint16 => fun (x : UInt16) _ => x
  | .uint32 => fun (x : UInt32) _ => x
  | .uint64 => fun (x : UInt64) _ => x
  | .string => fun (x : List UInt8) _ => x
  | .pair a b => fun (x : a.Msg × b.Msg) (v : a.Val ×ₗ b.Val) => toLex (a.store x.1 (ofLex v).1, b.store x.2 (ofLex v).2)
  | .vector t => Codec.Speaks.storeVector t.store
  | .set t => fun (xs : List t.Msg) (s : Keyed (id : t.Val → t.Val)) =>
    (xs.map (t.store · default)).foldl (fun s a => s.insert a) s
  | .map k v => fun (xs : List (k.Msg × v.Msg)) (s : Keyed fun p : k.Val ×ₗ v.Val => (ofLex p).1) =>
    (xs.map fun x => toLex (k.store x.1 default, v.store x.2 default)).foldl (fun s a => s.insert a) s

theorem Ty.store_default (t : Ty) (x : t.Msg) : t.store x default = t.value x := by
  induction t with
  | bool => rfl
  | uint8 => rfl
  | uint16 => rfl
  | uint32 => rfl
  | uint64 => rfl
  | string => rfl
  | pair a b iha ihb => exact congrArg₂ (fun p q => toLex (p, q)) (iha x.1) (ihb x.2)
  | vector t ih => exact (Codec.Speaks.storeVector_nil ..).trans (List.map_congr_left fun y _ => ih y)
  | set t ih => exact congrArg (fun l : List t.Val => l.foldl _ _) (List.map_congr_left fun y _ => ih y)
  | map k v ihk ihv =>
    refine congrArg (fun l : List (k.Val ×ₗ v.Val) => l.foldl _ _) (List.map_congr_left fun y _ => ?_)
    rw [ihk, ihv]

theorem Ty.codec_speaks (sizeof : Ty → ℕ) (t : Ty) :
    (t.codec sizeof).Speaks (t.format sizeof) (t.CountPasses sizeof) t.store := by
  induction t with
  | bool => exact speaks_scalar rfl fun _ => accepts_popUint8.map _
  | uint8 => exact speaks_scalar rfl fun _ => accepts_popUint8
  | uint16 => exact speaks_scalar rfl fun _ => accepts_popUint16
  | uint32 => exact speaks_scalar rfl fun _ => accepts_popUint32
  | uint64 => exact speaks_scalar rfl fun _ => accepts_popUint64
  | string => exact speaks_unknown rfl fun _ => accepts_popVarstr
  | pair a b iha ihb => exact iha.pair (sizeof (.pair a b)) ihb
  | vector t ih => exact ih.vector (sizeof (.vector t))
  | set t ih => exact ih.keyed (sizeof (.set t)) id
  | map k v ihk ihv => exact (ihk.pair (sizeof (.pair k v)) ihv).keyed (sizeof (.map k v)) fun p => (ofLex p).1

end Types

end CppBase.Packet
