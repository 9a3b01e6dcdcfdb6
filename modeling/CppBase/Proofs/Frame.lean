import CppBase.Sanity.PackEffects
import CppBase.Sanity.UnpackEffects

/-! `Pack::marshall` frames a message: the header is written last, over room left
at the start of a buffer that may have been used before and may have moved. -/

namespace CppBase.Packet

open CppBase.Lib

theorem length_getRawHeader (h : Header) : h.getRawHeader.length = headerSize := by
  simp [Header.getRawHeader, headerSize]

theorem ofNat_ofLeBytes_uint32 (x : UInt32) : UInt32.ofNat (ofLeBytes (leBytes 4 x.toNat)) = x := by
  rw [ofLeBytes_leBytes_of_lt (n := 4) x.toNat_lt, UInt32.ofNat_toNat]

theorem ofNat_ofLeBytes_uint16 (x : UInt16) : UInt16.ofNat (ofLeBytes (leBytes 2 x.toNat)) = x := by
  rw [ofLeBytes_leBytes_of_lt (n := 2) x.toNat_lt, UInt16.ofNat_toNat]

theorem parseRawHeader_getRawHeader (h : Header) : Header.parseRawHeader h.getRawHeader = h := by
  have hlength : h.getRawHeader.take 4 = leBytes 4 h.length.toNat := by
    rw [Header.getRawHeader, List.append_assoc]
    exact List.take_left' (length_leBytes _ _)
  have huri : (h.getRawHeader.drop 4).take 4 = leBytes 4 h.uri.toNat := by
    rw [Header.getRawHeader, List.append_assoc, List.drop_left' (length_leBytes _ _)]
    exact List.take_left' (length_leBytes _ _)
  have hcode : (h.getRawHeader.drop 8).take 2 = leBytes 2 h.resCode.toNat := by
    rw [Header.getRawHeader, List.drop_left' (by simp)]
    exact List.take_of_length_le (by simp)
  rw [Header.parseRawHeader, hlength, huri, hcode, ofNat_ofLeBytes_uint32, ofNat_ofLeBytes_uint32,
    ofNat_ofLeBytes_uint16]

theorem exec_header {s : Unpack} {mem rest : List UInt8} (h : Header) (hat : s.At mem (h.getRawHeader ++ rest)) :
    exec header s = (.ok (some h), s) := by
  have hsize := hat.size
  rw [List.length_append, length_getRawHeader] at hsize
  have hload := exec_load hat
  rw [length_getRawHeader] at hload
  simp only [header, exec_bind, exec_gets, if_neg (show ¬ s.m_size < headerSize by omega), hload,
    exec_pure, parseRawHeader_getRawHeader]

theorem exec_popHeader {s : Unpack} {mem rest : List UInt8} (h : Header) (hat : s.At mem (h.getRawHeader ++ rest)) :
    ∃ t, exec popHeader s = (.ok (), t) ∧ t.At mem rest := by
  have hsize := hat.size
  rw [List.length_append, length_getRawHeader] at hsize
  refine ⟨s.skip h.getRawHeader.length, ?_, hat.skip⟩
  simp only [popHeader, exec_bind, exec_gets, if_pos (show headerSize ≤ s.m_size by omega), advance,
    exec_modifies, length_getRawHeader]

def frameHeader (uri : UInt32) (size : ℕ) : Header := { uri := uri, length := UInt32.ofNat size }

theorem exec_marshall {p : Pack} (uri : UInt32) {m : PackM Unit} {b : List UInt8}
    (hm : ∀ q, exec (seek headerSize) p = (.ok (), q) → AppendsTo q m b) :
    ∃ q, exec (marshall uri m) p = (.ok (), q) ∧ q.size = headerSize + b.length ∧
      q.contents = ((frameHeader uri (headerSize + b.length)).getRawHeader ++ b).map some := by
  obtain ⟨p₁, hseek, -, hsize₁⟩ := exec_seek p p.room
  obtain ⟨p₂, hmarshal, hcontents⟩ := hm p₁ hseek
  have hlen₁ : p₁.contents.length = headerSize := p₁.m_buffer.length_contents.trans hsize₁
  have hsize₂ : p₂.size = headerSize + b.length := by
    have hlen := p₂.m_buffer.length_contents
    change p₂.contents.length = p₂.size at hlen
    rw [← hlen, hcontents, List.length_append, hlen₁, List.length_map]
  obtain ⟨q, hreplace, hsize, hq⟩ :=
    exec_replace_zero p₂ (frameHeader uri (headerSize + b.length)).getRawHeader
      (by rw [length_getRawHeader, hsize₂]; omega)
  refine ⟨q, ?_, hsize.trans hsize₂, ?_⟩
  · rw [marshall, exec_bind_ok hseek, exec_bind_ok hmarshal, exec_bind_ok (exec_gets Pack.size p₂), hsize₂]
    exact hreplace
  · rw [hq, length_getRawHeader, hcontents, List.drop_left' hlen₁, List.map_append]

theorem bodyContents_eq {q : Pack} (h : headerSize ≤ q.size) :
    q.bodySize = q.size - headerSize ∧ q.bodyContents = q.contents.drop headerSize := by
  have hsize : q.bodySize = q.size - headerSize := if_pos h
  refine ⟨hsize, ?_⟩
  rw [Pack.bodyContents, hsize, Pack.contents, PackBuffer.contents, List.drop_take]
  rfl

/-- Frame round trip: whatever the `Pack` was used for before, after `marshall` of a
message that appends `b` its body is `b`, and an `Unpack` over it shows the header
of that frame and then `b`. -/
theorem marshall_unpack (p : Pack) (uri : UInt32) (m : PackM Unit) (b : List UInt8)
    (hb : b.length < 2 ^ 32 - headerSize)
    (hm : ∀ q, exec (seek headerSize) p = (.ok (), q) → AppendsTo q m b) :
    ∃ q, exec (marshall uri m) p = (.ok (), q) ∧ q.size = headerSize + b.length ∧ q.bodySize = b.length ∧
      q.bodyContents = b.map some ∧
      ∃ data : List UInt8, q.contents = data.map some ∧
        ∃ h u, exec header (Unpack.ofBytes data) = (.ok (some h), u) ∧
          h.length.toNat = headerSize + b.length ∧ h.uri = uri ∧ h.resCode = 200 ∧
          ∃ t, exec popHeader u = (.ok (), t) ∧ t.mem = data ∧ t.mem.drop t.m_data = b ∧ t.m_size = b.length := by
  obtain ⟨q, hq, hsize, hcontents⟩ := exec_marshall uri hm
  obtain ⟨hbody, hbodyContents⟩ := bodyContents_eq (q := q) (by omega)
  refine ⟨q, hq, hsize, by omega, ?_, _, hcontents, ?_⟩
  · rw [hbodyContents, hcontents, List.map_append, List.drop_left' (by simp [length_getRawHeader])]
  · have hat := Unpack.at_ofBytes ((frameHeader uri (headerSize + b.length)).getRawHeader ++ b)
    obtain ⟨t, hpop, hrest⟩ := exec_popHeader _ hat
    refine ⟨_, _, exec_header _ hat, ?_, rfl, rfl, t, hpop, hrest.input, ?_, hrest.size⟩
    · exact toNat_uint32 (by omega)
    · rw [hrest.input, hrest.rest]

theorem marshall_unpack_bytes :
    ∃ q, exec (marshall 7 (push [1, 2, 3])) Pack.empty = (.ok (), q) ∧ q.size = 13 ∧
      q.bodyContents = [some 1, some 2, some 3] := by
  obtain ⟨q, hq, hsize, -, hbody, -⟩ :=
    marshall_unpack Pack.empty 7 (push [1, 2, 3]) [1, 2, 3] (by decide) fun q _ => appends_push _ q
  exact ⟨q, hq, hsize, hbody⟩

end CppBase.Packet
