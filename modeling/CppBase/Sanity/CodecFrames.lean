import CppBase.Lib.Framing
import CppBase.Proofs.BufferDeque
import CppBase.Spec.ProtobufCodec

/-! What a frame looks like on the wire, and what the receiving loop makes of the bytes at
hand, read off the bytes alone. -/

namespace CppBase.Muduo.ProtobufCodecLite

open CppBase.Lib

variable {M : Type} (c : Codec M)

section Checksums

variable {d k pre post : List UInt8} {a b : UInt8}

theorem validateChecksum_append (hk : k.length = kChecksumLen) :
    validateChecksum c (d ++ k) = decide (checksum c d = asInt32 k) := by
  have hlen : (d ++ k).length - kChecksumLen = d.length := by
    rw [List.length_append, hk, Nat.add_sub_cancel]
  rw [validateChecksum, hlen, List.take_left, List.drop_left]

/-- Four bytes are the checksum only if they are its bytes. -/
theorem eq_asInt32_iff {x : BitVec 32} (hk : k.length = kChecksumLen) : x = asInt32 k ↔ k = beBytes 4 x.toNat := by
  constructor
  · rintro rfl
    have hbytes := beBytes_ofBeBytes k
    rw [hk] at hbytes
    rw [asInt32, BitVec.toNat_ofNat]
    exact hbytes.symm.trans (beBytes_mod 4 _).symm
  · rintro rfl
    rw [asInt32, ofBeBytes_beBytes_of_lt x.isLt, BitVec.ofNat_toNat, BitVec.setWidth_eq]

end Checksums

section Frames

def body (m : M) : List UInt8 :=
  c.tag ++ c.serialize m ++ beBytes 4 (checksum c (c.tag ++ c.serialize m)).toNat

def wire (m : M) : List UInt8 := beBytes 4 (body c m).length ++ body c m

theorem length_body (m : M) : (body c m).length = c.tag.length + (c.serialize m).length + kChecksumLen := by
  simp [body, kChecksumLen, Nat.add_assoc]

theorem frame_eq (m : M) : frame c m = .ok (wire c m) := by
  have hmod : ∀ n, beBytes 4 (n % 2 ^ 32) = beBytes 4 n := beBytes_mod 4
  obtain ⟨t₁, h₁, hc₁, hr₁⟩ := (Buffer.create Buffer.kInitialSize).append_ok c.tag
  obtain ⟨t₂, h₂, hc₂, hroom, hr₂⟩ := t₁.ensureWritableBytes_ok ((c.serialize m).length + kChecksumLen)
  obtain ⟨t₃, h₃, hc₃, hr₃⟩ := Buffer.writeDirect_ok (d := c.serialize m) (Nat.le_of_add_right_le hroom)
  obtain ⟨t₄, h₄, hc₄, hr₄⟩ := t₃.append_ok (beBytes 4 (checksum c t₃.contents).toNat)
  -- every buffer on the way starts at `kCheapPrepend`
  have hfirst : t₁.readerIndex = Buffer.kCheapPrepend := hr₁.elim id id
  have hthird : t₃.readerIndex = Buffer.kCheapPrepend := hr₃.trans (hr₂.elim (fun h => h.trans hfirst) id)
  have hprepend : 4 ≤ t₄.prependableBytes := by
    rw [Buffer.prependableBytes, hr₄.elim (fun h => h.trans hthird) id]
    decide
  have htext : t₃.contents = c.tag ++ c.serialize m := by
    rw [hc₃, hc₂, hc₁, Buffer.contents_create, List.nil_append]
  have hbody : t₄.contents = body c m := by
    rw [hc₄, htext, body]
  have hlen : t₄.readableBytes = (body c m).length := by rw [← t₄.length_contents, hbody]
  obtain ⟨t₅, h₅, hc₅, -⟩ :=
    Buffer.prepend_ok (s := t₄) (d := beBytes 4 (BitVec.ofNat 32 t₄.readableBytes).toNat) (by simpa using hprepend)
  have hempty : (Buffer.create Buffer.kInitialSize).readableBytes = 0 := rfl
  rw [frame, fillEmptyBuffer, if_pos hempty, h₁, ok_bind, serializeToBuffer, h₂, ok_bind, h₃, ok_bind]
  rw [Buffer.appendInt, h₄, ok_bind, if_pos (hlen.trans (length_body c m)), Buffer.prependInt, h₅, ok_bind, hc₅, hbody,
    hlen, BitVec.toNat_ofNat, hmod, wire]

end Frames

section Looking

def look (_ : Unit) (l : List UInt8) : Verdict Unit (Option M) (Option ErrorCode) :=
  if l.length < c.kMinMessageLen + kHeaderLen then .leaves none
  else
    if (asInt32 (l.take 4)).toInt > kMaxMessageLen ∨ (asInt32 (l.take 4)).toInt < c.kMinMessageLen then
      .leaves (some .kInvalidLength)
    else if l.length < kHeaderLen + (asInt32 (l.take 4)).toNat then .leaves none
    else if refused c (l.take (kHeaderLen + (asInt32 (l.take 4)).toNat)) then
      .takes (kHeaderLen + (asInt32 (l.take 4)).toNat) () none
    else
      match parse c (slice l kHeaderLen (asInt32 (l.take 4)).toNat) with
      | .ok m => .takes (kHeaderLen + (asInt32 (l.take 4)).toNat) () (some m)
      | .error code => .leaves (some code)

variable {c} {l more : List UInt8} {n : ℕ} {out : Option M} {m : M} {r : Option ErrorCode}

/-- A round that takes: there was a length, it was in its range, and all of the frame had come. -/
theorem look_takes (h : look c () l = .takes n () out) :
    c.kMinMessageLen + kHeaderLen ≤ l.length ∧
      ¬ ((asInt32 (l.take 4)).toInt > kMaxMessageLen ∨ (asInt32 (l.take 4)).toInt < c.kMinMessageLen) ∧
      n = kHeaderLen + (asInt32 (l.take 4)).toNat ∧ n ≤ l.length ∧
      (refused c (l.take n) = true ∧ out = none ∨
        ∃ m, refused c (l.take n) = false ∧ parse c (slice l kHeaderLen (n - kHeaderLen)) = .ok m ∧ out = some m) := by
  unfold look at h
  split at h
  · cases h
  rename_i hmin
  split at h
  · cases h
  rename_i hrange
  split at h
  · cases h
  rename_i hlen
  split at h
  · rename_i href
    cases h
    exact ⟨Nat.le_of_not_lt hmin, hrange, rfl, Nat.le_of_not_lt hlen, .inl ⟨href, rfl⟩⟩
  · rename_i href
    split at h
    · rename_i m hparse
      cases h
      refine ⟨Nat.le_of_not_lt hmin, hrange, rfl, Nat.le_of_not_lt hlen, .inr ⟨m, ?_, ?_, rfl⟩⟩
      · simpa using href
      · rwa [Nat.add_sub_cancel_left]
    · cases h

theorem look_stable : Stable (look c) := by
  rintro ⟨⟩ l n ⟨⟩ out h
  obtain ⟨hmin, hrange, hn, hlen, hout⟩ := look_takes h
  refine ⟨hlen, fun more => ?_⟩
  have hhead : (l ++ more).take 4 = l.take 4 := List.take_append_of_le_length (by
    unfold kHeaderLen at hmin
    omega)
  have htake : (l ++ more).take n = l.take n := List.take_append_of_le_length hlen
  have hslice : slice (l ++ more) kHeaderLen (n - kHeaderLen) = slice l kHeaderLen (n - kHeaderLen) :=
    slice_append (by omega) more
  have hmin' : ¬ (l ++ more).length < c.kMinMessageLen + kHeaderLen := by
    rw [List.length_append]
    omega
  have hlen' : ¬ (l ++ more).length < n := by
    rw [List.length_append]
    omega
  unfold look
  rw [hhead, if_neg hmin', if_neg hrange, ← hn, if_neg hlen', htake]
  rw [show (asInt32 (l.take 4)).toNat = n - kHeaderLen by omega, hslice]
  obtain ⟨href, rfl⟩ | ⟨m, href, hparse, rfl⟩ := hout
  · rw [if_pos href]
  · rw [href, hparse]
    rfl

/-- The callback for a frame, which may be refused. -/
def delivered (out : Option M) : List (Event M) := (out.map Event.message).toList

def calls (outs : List (Option M)) (r : Option ErrorCode) : List (Event M) :=
  outs.flatMap delivered ++ (r.map Event.error).toList

/-- The loop in `onMessage` looks, takes and calls back. -/
theorem round_takes {buf : Buffer} (log : List (Event M)) (h : look c () buf.contents = .takes n () out) :
    ∃ t, onMessageRound c (buf, log) = .inl (t, log ++ delivered out) ∧
      t.contents = buf.contents.drop n := by
  obtain ⟨hmin, hrange, hn, hlen, hout⟩ := look_takes h
  rw [buf.length_contents] at hmin hlen
  obtain ⟨t, ht, hcontents, -⟩ := Buffer.retrieve_ok hlen
  refine ⟨t, ?_, hcontents⟩
  have hpeek : buf.peekInt 4 = .ok (asInt32 (buf.contents.take 4)) := if_pos (by
    unfold kHeaderLen at hmin
    omega)
  unfold onMessageRound
  dsimp only
  rw [if_pos hmin, hpeek]
  dsimp only
  rw [if_neg hrange, ← hn, if_pos hlen]
  rw [show (asInt32 (buf.contents.take 4)).toNat = n - kHeaderLen by omega]
  obtain ⟨href, rfl⟩ | ⟨m, href, hparse, rfl⟩ := hout
  · rw [if_pos href, ht]
    simp [delivered]
  · rw [href, hparse, ht]
    simp [delivered]

theorem round_leaves {buf : Buffer} {log : List (Event M)} (h : look c () buf.contents = .leaves r) :
    onMessageRound c (buf, log) = .inr (.ok (buf, log ++ (r.map Event.error).toList)) := by
  unfold look at h
  rw [buf.length_contents] at h
  unfold onMessageRound
  dsimp only
  by_cases hmin : buf.readableBytes < c.kMinMessageLen + kHeaderLen
  · rw [if_pos hmin] at h
    cases h
    rw [if_neg (Nat.not_le_of_lt hmin)]
    simp
  rw [if_neg hmin] at h
  have hpeek : buf.peekInt 4 = .ok (asInt32 (buf.contents.take 4)) := if_pos (by
    unfold kHeaderLen at hmin
    omega)
  rw [if_pos (Nat.le_of_not_lt hmin), hpeek]
  dsimp only
  split at h
  · rename_i hrange
    cases h
    rw [if_pos hrange]
    rfl
  rename_i hrange
  rw [if_neg hrange]
  split at h
  · rename_i hlen
    cases h
    rw [if_neg (Nat.not_le_of_lt hlen)]
    simp
  rename_i hlen
  rw [if_pos (Nat.le_of_not_lt hlen)]
  split at h
  · cases h
  rename_i href
  rw [if_neg href]
  split at h
  · cases h
  · rename_i code hparse
    cases h
    rw [hparse]
    rfl

theorem onMessage_drains (buf : Buffer) (log : List (Event M)) :
    ∃ t outs r, onMessage c (buf, log) = some (.ok (t, log ++ calls outs r)) ∧
      Drains (look c) () buf.contents () t.contents outs r := by
  have htakes : ∀ (x : Buffer × List (Event M)) n t out, look c () x.1.contents = .takes n t out →
      0 < n ∧ n ≤ x.1.contents.length ∧ ∃ y, onMessageRound c x = .inl y ∧
        ((), y.1.contents) = (t, x.1.contents.drop n) ∧ y.2 = x.2 ++ delivered out := by
    rintro ⟨buf, log⟩ n ⟨⟩ out h
    obtain ⟨-, -, hn, hlen, -⟩ := look_takes h
    obtain ⟨t, ht, hcontents⟩ := round_takes log h
    exact ⟨by unfold kHeaderLen at hn; omega, hlen, _, ht, by rw [hcontents], rfl⟩
  obtain ⟨⟨t, log'⟩, outs, r, hloop, hdrains, hlog⟩ :=
    loop_drains (fun x => ((), x.1.contents)) (fun x => x.2) delivered
      (fun x r => .ok (x.1, x.2 ++ (r.map Event.error).toList)) htakes (fun _ _ h => round_leaves h)
      (buf.readableBytes + 1) (buf, log) (by simp [Buffer.length_contents])
  refine ⟨t, outs, r, ?_, hdrains⟩
  dsimp only at hloop hlog
  rw [onMessage, hloop, hlog, calls, List.append_assoc]

theorem handleRead_drains (buf : Buffer) (log : List (Event M)) (data : List UInt8) :
    ∃ t outs r, handleRead c (buf, log) data = .ok (t, log ++ calls outs r) ∧
      Drains (look c) () (buf.contents ++ data) () t.contents outs r := by
  obtain ⟨u, hu, hcontents, -⟩ := buf.readFd_ok (some data)
  obtain ⟨t, outs, r, hcall, hdrains⟩ := onMessage_drains (c := c) u log
  refine ⟨t, outs, r, ?_, ?_⟩
  · rw [handleRead, hu, ok_bind, hcall]
  · rwa [hcontents] at hdrains

end Looking

section Logs

def Event.asMessage : Event M → Option M
  | .message m => some m
  | .error _ => none

def Event.asError : Event M → Option ErrorCode
  | .message _ => none
  | .error code => some code

theorem filterMap_asMessage_calls (outs : List (Option M)) (r : Option ErrorCode) :
    (calls outs r).filterMap Event.asMessage = outs.filterMap id := by
  induction outs with
  | nil => cases r <;> rfl
  | cons out outs ih =>
    rw [calls, List.flatMap_cons, List.append_assoc, List.filterMap_append, ← calls, ih]
    cases out <;> rfl

theorem filterMap_asError_calls (outs : List (Option M)) (r : Option ErrorCode) :
    (calls outs r).filterMap Event.asError = r.toList := by
  induction outs with
  | nil => cases r <;> rfl
  | cons out outs ih =>
    rw [calls, List.flatMap_cons, List.append_assoc, List.filterMap_append, ← calls, ih]
    cases out <;> rfl

/-- Reading the stream piece by piece, the code goes through and is fed. -/
theorem runAll_fed {c : Codec M} (pieces : List (List UInt8)) (buf : Buffer) (log : List (Event M)) :
    ∃ t new outs rs, runAll (handleRead c) (buf, log) pieces = .ok (t, log ++ new) ∧
      new.filterMap Event.asMessage = outs.filterMap id ∧ new.filterMap Event.asError = rs.filterMap id ∧
      Fed (look c) () buf.contents pieces () t.contents outs rs := by
  induction pieces generalizing buf log with
  | nil => exact ⟨buf, [], [], [], by simp, rfl, rfl, .nil _ _⟩
  | cons piece pieces ih =>
    obtain ⟨t, outs, r, hread, hdrains⟩ := handleRead_drains (c := c) buf log piece
    obtain ⟨u, new, outs', rs, hrun, hmsg, herr, hfed⟩ := ih t (log ++ calls outs r)
    refine ⟨u, calls outs r ++ new, outs ++ outs', r :: rs, ?_, ?_, ?_, .cons hdrains hfed⟩
    · rw [runAll_cons hread, hrun, List.append_assoc]
    · rw [List.filterMap_append, filterMap_asMessage_calls, hmsg, List.filterMap_append]
    · rw [List.filterMap_append, filterMap_asError_calls, herr]
      cases r <;> rfl

end Logs

end CppBase.Muduo.ProtobufCodecLite
