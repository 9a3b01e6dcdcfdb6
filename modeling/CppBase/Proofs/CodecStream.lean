import CppBase.Sanity.CodecFrames

/-! `ProtobufCodecLite` over a stream: what one side sends, the other side delivers, however
the bytes are cut into pieces on the way; and a frame with a wrong byte stops it. -/

namespace CppBase.Muduo.ProtobufCodecLite

open CppBase.Lib

variable {M : Type} {c : Codec M} {m : M} {block part more : List UInt8}

/-- A message that protobuf reads back, short enough to be accepted, and not refused as a raw
frame. -/
structure Sendable (c : Codec M) (m : M) : Prop where
  parses : c.parseFromBuffer (c.serialize m) = some m
  short : c.tag.length + (c.serialize m).length + kChecksumLen ≤ kMaxMessageLen
  passes : refused c (wire c m) = false

section Headers

theorem asInt32_header (h : block.length ≤ kMaxMessageLen) :
    (asInt32 (beBytes 4 block.length)).toNat = block.length ∧
      (asInt32 (beBytes 4 block.length)).toInt = block.length := by
  unfold kMaxMessageLen at h
  have hnat : (asInt32 (beBytes 4 block.length)).toNat = block.length := by
    rw [asInt32, ofBeBytes_beBytes_of_lt (by omega), BitVec.toNat_ofNat, Nat.mod_eq_of_lt (by omega)]
  refine ⟨hnat, ?_⟩
  rw [BitVec.toInt_eq_toNat_of_lt (by omega), hnat]

/-- A whole frame is taken or refused for what is in it. -/
theorem look_framed (hmin : c.kMinMessageLen ≤ block.length) (hmax : block.length ≤ kMaxMessageLen)
    (href : refused c (beBytes 4 block.length ++ block) = false) (more : List UInt8) :
    look c () (beBytes 4 block.length ++ block ++ more) =
      match parse c block with
      | .ok m => .takes (beBytes 4 block.length ++ block).length () (some m)
      | .error code => .leaves (some code) := by
  obtain ⟨hnat, hint⟩ := asInt32_header hmax
  have hhead : (beBytes 4 block.length ++ block ++ more).take 4 = beBytes 4 block.length := by
    rw [List.append_assoc]
    exact List.take_left' (length_beBytes _ _)
  have hlen : (beBytes 4 block.length ++ block).length = kHeaderLen + block.length := by
    rw [List.length_append, length_beBytes, kHeaderLen]
  have hall : kHeaderLen + block.length ≤ (beBytes 4 block.length ++ block ++ more).length := by
    rw [List.length_append, hlen]
    exact Nat.le_add_right _ _
  have hslice : slice (beBytes 4 block.length ++ block ++ more) kHeaderLen block.length = block := by
    have hheader : (beBytes 4 block.length).length = kHeaderLen := length_beBytes _ _
    rw [slice, List.append_assoc, List.drop_left' hheader, List.take_left]
  have hrange : ¬ ((block.length : ℤ) > kMaxMessageLen ∨ (block.length : ℤ) < c.kMinMessageLen) := by omega
  unfold look
  rw [hhead, hnat, hint, if_neg (by omega), if_neg hrange, if_neg (by omega), ← hlen, List.take_left, href, hslice]
  rfl

/-- A part of a frame is left where it is. -/
theorem look_part (hmin : c.kMinMessageLen ≤ block.length) (hmax : block.length ≤ kMaxMessageLen)
    (hpart : part <+: beBytes 4 block.length ++ block) (hlt : part.length < (beBytes 4 block.length ++ block).length) :
    look c () part = .leaves none := by
  rw [List.length_append, length_beBytes] at hlt
  unfold look
  by_cases hshort : part.length < c.kMinMessageLen + kHeaderLen
  · rw [if_pos hshort]
  obtain ⟨hnat, hint⟩ := asInt32_header hmax
  have hhead : part.take 4 = beBytes 4 block.length := by
    obtain ⟨tail, htail⟩ := hpart
    have htake := congrArg (List.take 4) htail
    rwa [List.take_append_of_le_length (by unfold kHeaderLen at hshort; omega),
      List.take_left' (length_beBytes _ _)] at htake
  have hrange : ¬ ((block.length : ℤ) > kMaxMessageLen ∨ (block.length : ℤ) < c.kMinMessageLen) := by omega
  rw [if_neg hshort, hhead, hnat, hint, if_neg hrange]
  exact if_pos hlt

theorem look_nil : look c () [] = .leaves none := by
  unfold look
  rw [if_pos]
  exact Nat.lt_of_lt_of_le (by decide : 0 < kHeaderLen) (Nat.le_add_left _ _)

end Headers

section Messages

theorem parse_body (h : Sendable c m) : parse c (body c m) = .ok m := by
  have hvalid : validateChecksum c (body c m) = true := by
    have hlen : (beBytes 4 (checksum c (c.tag ++ c.serialize m)).toNat).length = kChecksumLen := length_beBytes _ _
    rw [body, validateChecksum_append c hlen, decide_eq_true_iff, eq_asInt32_iff hlen]
  have htag : (body c m).take c.tag.length = c.tag := by
    rw [body, List.append_assoc, List.take_left]
  have hpayload : slice (body c m) c.tag.length ((body c m).length - kChecksumLen - c.tag.length) = c.serialize m := by
    rw [length_body, Nat.add_sub_cancel, Nat.add_sub_cancel_left, slice, body, List.append_assoc, List.drop_left,
      List.take_left]
  rw [parse, if_pos hvalid, if_pos htag, hpayload, h.parses]

theorem min_le_body (m : M) : c.kMinMessageLen ≤ (body c m).length := by
  rw [length_body, Codec.kMinMessageLen]
  omega

theorem body_le (h : Sendable c m) : (body c m).length ≤ kMaxMessageLen := by
  rw [length_body]
  exact h.short

theorem look_wire (h : Sendable c m) (more : List UInt8) :
    look c () (wire c m ++ more) = .takes (wire c m).length () (some m) := by
  have hlook := look_framed (min_le_body m) (body_le h) h.passes more
  rw [parse_body h] at hlook
  exact hlook

/-- What first bytes of the frames and of a tail, whose parts are all left, come to. -/
theorem drains_come {ms : List M} {come tail : List UInt8} {reason : List UInt8 → Option ErrorCode}
    (hms : ∀ m ∈ ms, Sendable c m) (htail : ∀ part, part <+: tail → look c () part = .leaves (reason part))
    (hcome : come <+: ms.flatMap (wire c) ++ tail) :
    (∃ k m rest, come = (ms.take k).flatMap (wire c) ++ rest ∧ ms[k]? = some m ∧
        rest.length < (wire c m).length ∧ Drains (look c) () come () rest ((ms.take k).map some) none) ∨
      ∃ rest, come = ms.flatMap (wire c) ++ rest ∧ rest <+: tail ∧
        Drains (look c) () come () rest (ms.map some) (reason rest) := by
  obtain ⟨k, m, part, rfl, hm, hpart, hlt⟩ | ⟨part, rfl, hpart⟩ := prefix_frames hcome
  · have hlook : look c () part = .leaves none :=
      look_part (min_le_body m) (body_le (hms m (List.mem_of_getElem? hm))) hpart hlt
    have hdrains : Drains (look c) () ((ms.take k).flatMap (wire c) ++ part) () part ((ms.take k).map some ++ []) none :=
      drains_frames (fun m hm => look_wire (hms m (List.mem_of_mem_take hm))) (.leaves hlook)
    rw [List.append_nil] at hdrains
    exact .inl ⟨k, m, part, rfl, hm, hlt, hdrains⟩
  · have hdrains := drains_frames (fun m hm => look_wire (hms m hm)) (.leaves (htail part hpart))
    rw [List.append_nil] at hdrains
    exact .inr ⟨part, rfl, hpart, hdrains⟩

end Messages

/-- The messages are put on the wire; and of any first bytes of the frames of some messages,
arriving in whatever pieces, the receiver delivers exactly the messages that have come
whole, in order and without an error, and keeps the rest. -/
theorem codec_delivers (c : Codec M) (ms : List M) (pieces : List (List UInt8)) (hms : ∀ m ∈ ms, Sendable c m)
    (hcome : pieces.flatten <+: ms.flatMap (wire c)) :
    (∀ m ∈ ms, frame c m = .ok (wire c m)) ∧
      ∃ k t log, runAll (handleRead c) (Buffer.create Buffer.kInitialSize, []) pieces = .ok (t, log) ∧
        log.filterMap Event.asMessage = ms.take k ∧ log.filterMap Event.asError = [] ∧
        pieces.flatten = (ms.take k).flatMap (wire c) ++ t.contents ∧
        ∀ m, ms[k]? = some m → t.contents.length < (wire c m).length := by
  refine ⟨fun m _ => frame_eq c m, ?_⟩
  obtain ⟨t, log, outs, rs, hrun, hmsg, herr, hfed⟩ :=
    runAll_fed (c := c) pieces (Buffer.create Buffer.kInitialSize) []
  rw [Buffer.contents_create] at hfed
  rw [List.nil_append] at hrun
  have hfirst : ∀ come, come <+: ms.flatMap (wire c) → ∃ k rest, come = (ms.take k).flatMap (wire c) ++ rest ∧
      (∀ m, ms[k]? = some m → rest.length < (wire c m).length) ∧
      Drains (look c) () come () rest ((ms.take k).map some) none := by
    intro come h
    rw [← List.append_nil (ms.flatMap (wire c))] at h
    have hnil : ∀ part, part <+: [] → look c () part = .leaves none := fun part hpart => by
      rw [List.prefix_nil.mp hpart, look_nil]
    obtain ⟨k, m, rest, heq, hm, hlt, hdrains⟩ | ⟨rest, heq, hrest, hdrains⟩ := drains_come hms hnil h
    · refine ⟨k, rest, heq, fun m' hm' => ?_, hdrains⟩
      obtain rfl : m' = m := Option.some.inj (hm'.symm.trans hm)
      exact hlt
    · refine ⟨ms.length, rest, ?_, fun m hm => ?_, ?_⟩
      · rwa [List.take_length]
      · simp at hm
      · rwa [List.take_length]
  obtain ⟨k, rest, hsplit, hnext, hdrains⟩ := hfirst _ hcome
  have hall := hfed.drains look_stable look_nil
  rw [List.nil_append] at hall
  obtain ⟨-, hrest, rfl, -⟩ := hall.unique hdrains
  refine ⟨k, t, log, hrun, ?_, ?_, by rw [hrest, hsplit], by rwa [hrest]⟩
  · rw [hmsg]
    simp
  · rw [herr, List.filterMap_eq_nil_iff]
    intro r hr
    obtain ⟨come, t', rest', outs', hcome', hdrains'⟩ := hfed.reasons look_stable look_nil hr
    obtain ⟨k', rest'', -, -, hgood⟩ := hfirst come (hcome'.trans hcome)
    exact (hdrains'.unique hgood).2.2.2

/-- Messages of one byte under the tag `RPC0`; the checksum is the sum of the bytes. -/
def byteCodec : Codec UInt8 where
  tag := [82, 80, 67, 48]
  serialize := fun b => [b]
  parseFromBuffer := List.head?
  adler32 := fun l => (l.map UInt8.toNat).sum
  rawCb := none

theorem sendable_byteCodec (b : UInt8) : Sendable byteCodec b :=
  ⟨rfl, by simp [byteCodec, kChecksumLen, kMaxMessageLen], rfl⟩

/-- The first frame in two pieces, the second of which ends inside the next length. -/
theorem codec_delivers_two :
    (∀ m ∈ [5, 7], frame byteCodec m = .ok (wire byteCodec m)) ∧
      ∃ k t log, runAll (handleRead byteCodec) (Buffer.create Buffer.kInitialSize, [])
          [[0, 0, 0, 9, 82, 80], [67, 48, 5, 0, 0, 1, 26, 0, 0]] = .ok (t, log) ∧
        log.filterMap Event.asMessage = [5, 7].take k ∧ log.filterMap Event.asError = [] ∧
        [[0, 0, 0, 9, 82, 80], [67, 48, 5, 0, 0, 1, 26, 0, 0]].flatten =
          ([5, 7].take k).flatMap (wire byteCodec) ++ t.contents ∧
        ∀ m, [5, 7][k]? = some m → t.contents.length < (wire byteCodec m).length :=
  codec_delivers byteCodec [5, 7] [[0, 0, 0, 9, 82, 80], [67, 48, 5, 0, 0, 1, 26, 0, 0]]
    (fun m _ => sendable_byteCodec m) (by decide)

end CppBase.Muduo.ProtobufCodecLite
