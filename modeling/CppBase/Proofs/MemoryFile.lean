import CppBase.Lib.File
import CppBase.Spec.AVIOMemory

/-! The callbacks implement a random-access file in memory: the same answers to
every sequence of calls, and no conversion between integer types that changes a
value as long as the contents stay below 2^31 bytes. -/

namespace CppBase.Mediaproc

open CppBase.Lib

section Calls

inductive Access where
  | read (size : ℤ)
  | seek (offset whence : ℤ)
  deriving DecidableEq

inductive Call where
  | access (a : Access)
  | write (buf : List UInt8)
  | reset (input : List UInt8)
  deriving DecidableEq

def AVIOReadMemory.access (self : AVIOReadMemory) : Access → Except Fault (Answer × AVIOReadMemory)
  | .read size => self.readString size
  | .seek offset whence => .ok (self.seekString offset whence)

def AVIOMemory.call (self : AVIOMemory) : Call → Except Fault (Answer × AVIOMemory)
  | .access (.read size) => self.readString size
  | .access (.seek offset whence) => .ok (self.seekString offset whence)
  | .write buf => self.writeString buf
  | .reset input => .ok (.nothing, .reset input)

def origin (f : File UInt8) (whence : ℤ) : Option ℤ :=
  if whence = seekSet then some 0
  else if whence = seekCur then some f.pos
  else if whence = seekEnd then some f.bytes.length
  else none

def seekTo (f : File UInt8) (target : Option ℤ) : Answer × File UInt8 :=
  (target.bind fun p => (f.seek p).map fun g => (Answer.offset p, g)).getD (.offset (-1), f)

def fileAccess (f : File UInt8) : Access → Answer × File UInt8
  | .read size =>
    if f.remaining = 0 then (.count averrorEof [], f)
    else (.count (min size.toNat f.remaining : ℕ) (f.read size.toNat).1, (f.read size.toNat).2)
  | .seek offset whence =>
    if whence = avseekSize then (.offset f.bytes.length, f) else seekTo f ((origin f whence).map (· + offset))

def fileCall (f : File UInt8) : Call → Answer × File UInt8
  | .access a => fileAccess f a
  | .write buf => (.count buf.length [], f.write buf)
  | .reset input => (.nothing, .openAt input)

def IsInt64 (x : ℤ) : Prop := -2 ^ 63 ≤ x ∧ x < 2 ^ 63

instance (x : ℤ) : Decidable (IsInt64 x) := inferInstanceAs (Decidable (_ ∧ _))

/-- A size is an `int` that is not negative, and no position overflows. -/
def Access.Ok (pos size : ℤ) : Access → Prop
  | .read n => 0 ≤ n ∧ n < 2 ^ 31
  | .seek offset whence =>
    IsInt64 offset ∧ (whence = seekCur → IsInt64 (pos + offset)) ∧ (whence = seekEnd → IsInt64 (size + offset))

instance (pos size : ℤ) : DecidablePred (Access.Ok pos size)
  | .read _ => inferInstanceAs (Decidable (_ ∧ _))
  | .seek _ _ => inferInstanceAs (Decidable (_ ∧ _))

/-- The contents stay below 2^31 bytes. -/
def Call.Ok (s : AVIOMemory) : Call → Prop
  | .access a => a.Ok s.pos s.buffer.length
  | .write buf => s.pos + buf.length < 2 ^ 31
  | .reset input => input.length < 2 ^ 31

instance (s : AVIOMemory) : DecidablePred (Call.Ok s)
  | .access a => inferInstanceAs (Decidable (a.Ok _ _))
  | .write _ => inferInstanceAs (Decidable (_ < _))
  | .reset _ => inferInstanceAs (Decidable (_ < _))

end Calls

section Conversions

variable {x : ℤ}

theorem toInt32_eq (h : -2 ^ 31 ≤ x ∧ x < 2 ^ 31) : toInt32 x = x :=
  Int.bmod_eq_of_le_mul_two (by omega) (by omega)

theorem toInt64_eq (h : IsInt64 x) : toInt64 x = x := by
  obtain ⟨h1, h2⟩ := h
  exact Int.bmod_eq_of_le_mul_two (by omega) (by omega)

theorem toSizeT_eq (h : 0 ≤ x ∧ x < 2 ^ 64) : toSizeT x = x.toNat := by
  rw [toSizeT, Int.emod_eq_of_lt h.1 (by omega)]

end Conversions

section Files

variable {f : File UInt8}

theorem bytes_fileAccess (f : File UInt8) (a : Access) : (fileAccess f a).2.bytes = f.bytes := by
  have hseek : ∀ target, (seekTo f target).2.bytes = f.bytes := by
    rintro (_ | p)
    · rfl
    · simp only [seekTo, Option.bind_some, File.seek]
      split_ifs <;> rfl
  cases a with
  | read size =>
    simp only [fileAccess]
    split_ifs <;> rfl
  | seek offset whence =>
    simp only [fileAccess]
    split_ifs
    · rfl
    · exact hseek _

theorem memcpy_eq {src : List UInt8} (hsrc : f.bytes <+: src) {n : ℕ} (hn : n ≤ f.remaining) :
    memcpy src f.pos n = .ok (slice f.bytes f.pos n) := by
  obtain ⟨rest, rfl⟩ := hsrc
  have hpos := f.pos_le
  have hend : f.pos + n ≤ f.bytes.length := by
    unfold File.remaining at hn
    omega
  have hin : 0 ≤ (f.pos : ℤ) ∧ 0 ≤ (n : ℤ) ∧ (f.pos : ℤ) + n ≤ (f.bytes ++ rest).length := by
    rw [List.length_append]
    omega
  rw [memcpy, if_pos hin, Int.toNat_natCast, Int.toNat_natCast, slice_append hend]

/-- The memory may go on behind the file. -/
theorem readAt_eq {src : List UInt8} (hsrc : f.bytes <+: src) (hsmall : f.bytes.length < 2 ^ 31) {size : ℤ}
    (hsize : 0 ≤ size) :
    readAt src f.pos f.remaining size =
      .ok ((fileAccess f (.read size)).1, (fileAccess f (.read size)).2.pos) := by
  simp only [readAt, fileAccess]
  by_cases hrem : f.remaining = 0
  · rw [if_pos (by omega), if_pos hrem]
  · have hmin : min (f.remaining : ℤ) size = (min size.toNat f.remaining : ℕ) := by omega
    have hle : min size.toNat f.remaining ≤ f.remaining := Nat.min_le_right _ _
    have hend : f.pos + min size.toNat f.remaining ≤ f.bytes.length := (f.read size.toNat).2.pos_le
    rw [if_neg (by omega), if_neg hrem, hmin, memcpy_eq hsrc hle, ok_bind, toInt32_eq (by omega)]
    rfl

theorem newPos_eq {offset whence : ℤ} (h : (Access.seek offset whence).Ok f.pos f.bytes.length) :
    newPos f.pos f.bytes.length offset whence = (origin f whence).map (· + offset) := by
  obtain ⟨-, hcur, hend⟩ := h
  unfold newPos origin
  split_ifs with h0 h1 h2
  · simp
  · simp [toInt64_eq (hcur h1)]
  · simp [toInt64_eq (hend h2)]
  · rfl

theorem seekAt_eq {offset whence : ℤ} (hok : (Access.seek offset whence).Ok f.pos f.bytes.length) {store : ℤ → ℤ}
    (hstore : ∀ new, 0 ≤ new → new ≤ (f.bytes.length : ℤ) → store new = new) :
    seekAt f.pos f.bytes.length offset whence store =
      ((fileAccess f (.seek offset whence)).1, ((fileAccess f (.seek offset whence)).2.pos : ℤ)) := by
  simp only [seekAt, fileAccess]
  by_cases hsize : whence = avseekSize
  · rw [if_pos hsize, if_pos hsize]
  rw [if_neg hsize, if_neg hsize, newPos_eq hok]
  cases (origin f whence).map (· + offset) with
  | none => rfl
  | some new =>
    by_cases hout : new > f.bytes.length ∨ new < 0
    · have hseek : f.seek new = none := dif_neg (by omega)
      simp [hout, seekTo, hseek]
    · have hin : 0 ≤ new ∧ new ≤ f.bytes.length := by omega
      have hseek : f.seek new = some { f with pos := new.toNat, pos_le := by omega } := dif_pos hin
      have hnat : (new.toNat : ℤ) = new := Int.toNat_of_nonneg hin.1
      simp only [if_neg hout, seekTo, Option.bind_some, hseek, Option.map_some, Option.getD_some,
        hstore new hin.1 hin.2, hnat]

end Files

section Reading

/-- The memory at `input` starts with the file. -/
structure AVIOReadMemory.Is (s : AVIOReadMemory) (f : File UInt8) : Prop where
  buffer : f.bytes <+: s.buffer
  total : s.total = f.bytes.length
  pos : s.pos = f.pos
  small : f.bytes.length < 2 ^ 31

variable {s : AVIOReadMemory} {f : File UInt8}

theorem AVIOReadMemory.Is.bounds (h : s.Is f) : 0 ≤ s.pos ∧ s.pos ≤ s.total := by
  have := f.pos_le
  rw [h.pos, h.total]
  omega

theorem AVIOReadMemory.Is.moved (h : s.Is f) (a : Access) :
    AVIOReadMemory.Is { s with pos := (fileAccess f a).2.pos } (fileAccess f a).2 := by
  have hbytes := bytes_fileAccess f a
  exact ⟨hbytes ▸ h.buffer, hbytes ▸ h.total, rfl, hbytes ▸ h.small⟩

theorem AVIOReadMemory.Is.access (h : s.Is f) {a : Access} (hok : a.Ok s.pos s.total) :
    ∃ t, s.access a = .ok ((fileAccess f a).1, t) ∧ t.Is (fileAccess f a).2 := by
  have hpos := f.pos_le
  have hsmall := h.small
  refine ⟨_, ?_, h.moved a⟩
  cases a with
  | read size =>
    have hleft : toInt32 (s.total - s.pos) = f.remaining := by
      rw [h.total, h.pos, toInt32_eq (by omega), File.remaining]
      omega
    rw [AVIOReadMemory.access, AVIOReadMemory.readString, hleft, h.pos, readAt_eq h.buffer hsmall hok.1, ok_bind]
  | seek offset whence =>
    have hstore : ∀ new, 0 ≤ new → new ≤ (f.bytes.length : ℤ) → min (toInt32 new) f.bytes.length = new := by
      intro new h0 h1
      rw [toInt32_eq (by omega)]
      omega
    rw [h.pos, h.total] at hok
    rw [AVIOReadMemory.access, AVIOReadMemory.seekString, h.pos, h.total, seekAt_eq hok hstore]

end Reading

section Writing

structure AVIOMemory.Is (s : AVIOMemory) (f : File UInt8) : Prop where
  buffer : s.buffer = f.bytes
  pos : s.pos = f.pos
  small : f.bytes.length < 2 ^ 31

variable {s : AVIOMemory} {f : File UInt8}

theorem AVIOMemory.Is.bounds (h : s.Is f) : 0 ≤ s.pos ∧ s.pos ≤ s.buffer.length := by
  have := f.pos_le
  rw [h.pos, h.buffer]
  omega

theorem AVIOMemory.Is.left (h : s.Is f) : s.left = f.remaining := by
  have hpos := f.pos_le
  have hsmall := h.small
  rw [AVIOMemory.left, h.buffer, h.pos, toSizeT_eq (by omega), toInt32_eq (by omega), File.remaining]
  omega

theorem AVIOMemory.Is.access (h : s.Is f) {a : Access} (hok : a.Ok s.pos s.buffer.length) :
    ∃ t, s.call (.access a) = .ok ((fileAccess f a).1, t) ∧ t.Is (fileAccess f a).2 := by
  have hsmall := h.small
  have hbytes := bytes_fileAccess f a
  refine ⟨⟨s.buffer, (fileAccess f a).2.pos⟩, ?_, h.buffer.trans hbytes.symm, rfl, hbytes ▸ hsmall⟩
  cases a with
  | read size =>
    have hread := readAt_eq (List.prefix_rfl (l := f.bytes)) hsmall hok.1
    rw [AVIOMemory.call, AVIOMemory.readString, h.left, h.pos, h.buffer, hread, ok_bind]
  | seek offset whence =>
    have hstore : ∀ new, 0 ≤ new → new ≤ (f.bytes.length : ℤ) → toInt32 (min new f.bytes.length) = new := by
      intro new h0 h1
      rw [toInt32_eq (by omega)]
      omega
    rw [h.pos, h.buffer] at hok
    rw [AVIOMemory.call, AVIOMemory.seekString, h.pos, h.buffer, toInt64_eq ⟨by omega, by omega⟩,
      seekAt_eq hok hstore]

/-- The two branches of `writeString` do the same to the file. -/
theorem AVIOMemory.Is.written (h : s.Is f) (buf : List UInt8) :
    (if s.left ≤ buf.length then
      (if s.left ≠ 0 then erase f.bytes f.pos else .ok f.bytes) >>= fun kept => .ok (kept ++ buf)
    else replace f.bytes f.pos buf.length buf) = .ok (f.write buf).bytes := by
  have hpos := f.pos_le
  rw [h.left]
  by_cases hover : (f.remaining : ℤ) ≤ buf.length
  · have hrest : f.bytes.drop (f.pos + buf.length) = [] := by
      apply List.drop_of_length_le
      unfold File.remaining at hover
      omega
    have hkept : (if (f.remaining : ℤ) ≠ 0 then erase f.bytes f.pos else .ok f.bytes) =
        .ok (f.bytes.take f.pos) := by
      by_cases hrem : (f.remaining : ℤ) = 0
      · rw [if_neg (not_not.mpr hrem), List.take_of_length_le]
        unfold File.remaining at hrem
        omega
      · rw [if_pos hrem, erase, if_pos hpos]
    simp only [if_pos hover, hkept, ok_bind, File.write, patch, hrest, List.append_nil]
  · rw [if_neg hover, replace, if_pos hpos]
    rfl

theorem AVIOMemory.Is.write (h : s.Is f) {buf : List UInt8} (hok : s.pos + buf.length < 2 ^ 31) :
    ∃ t, s.writeString buf = .ok (.count buf.length [], t) ∧ t.Is (f.write buf) := by
  have hpos := f.pos_le
  have hsmall := h.small
  rw [h.pos] at hok
  have hsize : ∀ n : ℕ, n < 2 ^ 31 → toSizeT (n : ℤ) = n := by
    intro n hn
    rw [toSizeT_eq (by omega), Int.toNat_natCast]
  have hnew : (f.write buf).bytes.length < 2 ^ 31 := by
    rw [File.write, length_patch_max hpos]
    omega
  refine ⟨⟨(f.write buf).bytes, (f.write buf).pos⟩, ?_, rfl, rfl, hnew⟩
  simp only [AVIOMemory.writeString, h.buffer, h.pos, hsize f.pos (by omega), hsize buf.length (by omega),
    h.written buf, ok_bind, toInt32_eq (show -2 ^ 31 ≤ (f.pos : ℤ) + buf.length ∧ _ by omega)]
  rfl

theorem AVIOMemory.Is.call (h : s.Is f) {c : Call} (hok : c.Ok s) :
    ∃ t, s.call c = .ok ((fileCall f c).1, t) ∧ t.Is (fileCall f c).2 := by
  cases c with
  | access a => exact h.access hok
  | write buf => exact h.write hok
  | reset input => exact ⟨_, rfl, rfl, rfl, hok⟩

end Writing

/-- Every sequence of calls is answered as by a file that starts empty, and every
sequence of reads and seeks as by a file with the input as its bytes. -/
theorem memory_files_refine :
    (∀ calls, Along (logged AVIOMemory.call) (fun s c => c.Ok s.1) (.create, []) calls →
      ∃ t, runAll (logged AVIOMemory.call) (.create, []) calls = .ok (t, answers fileCall (.openAt []) calls) ∧
        t.Is (calls.foldl (fun f c => (fileCall f c).2) (.openAt [])) ∧ 0 ≤ t.pos ∧ t.pos ≤ t.buffer.length) ∧
    ∀ input size accesses, 0 ≤ size → size ≤ (input.length : ℤ) → size < 2 ^ 31 →
      Along (logged AVIOReadMemory.access) (fun s a => a.Ok s.1.pos s.1.total) (.create input size, []) accesses →
      ∃ t, runAll (logged AVIOReadMemory.access) (.create input size, []) accesses =
          .ok (t, answers fileAccess (.openAt (input.take size.toNat)) accesses) ∧
        t.Is (accesses.foldl (fun f a => (fileAccess f a).2) (.openAt (input.take size.toNat))) ∧
        0 ≤ t.pos ∧ t.pos ≤ t.total := by
  constructor
  · intro calls hok
    have hstart : AVIOMemory.create.Is (.openAt []) := ⟨rfl, rfl, by decide⟩
    obtain ⟨t, hrun, ht⟩ := hok.answers_logged (fun s f c h hc => h.call hc) hstart
    exact ⟨t, hrun, ht, ht.bounds⟩
  · intro input size accesses h0 hle hlt hok
    have hlen : ((input.take size.toNat).length : ℤ) = size := by
      rw [List.length_take]
      omega
    have hstart : (AVIOReadMemory.create input size).Is (.openAt (input.take size.toNat)) :=
      ⟨List.take_prefix _ _, hlen.symm, rfl, by show (input.take size.toNat).length < 2 ^ 31; omega⟩
    obtain ⟨t, hrun, ht⟩ :=
      hok.answers_logged (C := fun s (a : Access) => a.Ok s.pos s.total) (fun s f a h ha => h.access ha) hstart
    exact ⟨t, hrun, ht, ht.bounds⟩

/-- A write across the end of the data, and a read behind a seek. -/
theorem memory_files_refine_across_end :
    ∃ t, runAll (logged AVIOMemory.call) (.create, [])
        [.reset [1, 2, 3, 4], .access (.seek (-1) seekEnd), .write [9, 9], .access (.seek 2 seekSet),
          .access (.read 7)] =
      .ok (t, [.nothing, .offset 3, .count 2 [], .offset 2, .count 3 [3, 9, 9]]) := by
  have hok : Along (logged AVIOMemory.call) (fun s c => c.Ok s.1) (.create, [])
      [.reset [1, 2, 3, 4], .access (.seek (-1) seekEnd), .write [9, 9], .access (.seek 2 seekSet),
        .access (.read 7)] := by
    refine (along_cons (t := (⟨[1, 2, 3, 4], 0⟩, [.nothing])) (by decide +kernel)).mpr ⟨by decide, ?_⟩
    refine (along_cons (t := (⟨[1, 2, 3, 4], 3⟩, [.nothing, .offset 3])) (by decide +kernel)).mpr ⟨by decide, ?_⟩
    refine (along_cons (t := (⟨[1, 2, 3, 9, 9], 5⟩, _)) (by rfl)).mpr ⟨by decide, ?_⟩
    refine (along_cons (t := (⟨[1, 2, 3, 9, 9], 2⟩, _)) (by rfl)).mpr ⟨by decide, ?_⟩
    refine (along_cons (t := (⟨[1, 2, 3, 9, 9], 5⟩, _)) (by rfl)).mpr ⟨by decide, along_nil⟩
  obtain ⟨t, hrun, -⟩ := memory_files_refine.1 _ hok
  exact ⟨t, hrun⟩

end CppBase.Mediaproc
