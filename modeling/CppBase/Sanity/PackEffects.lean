import CppBase.Spec.Pack

/-! What writing to a `Pack` does to its contents. -/

namespace CppBase.Packet

open CppBase.Lib

namespace PackBuffer

theorem length_contents (b : PackBuffer) : b.contents.length = b.len := by
  simp [contents, b.len_le]

theorem take_grow (b : PackBuffer) (size : ℕ) : (b.grow size).buf.take b.len = b.contents := by
  have hreserve : ∀ n, (b.reserve n).buf.take b.len = b.contents := by
    intro n
    unfold reserve
    split_ifs
    · rfl
    · exact List.take_append_of_le_length b.len_le
  unfold grow
  split_ifs
  · exact hreserve _
  · rfl

theorem contents_append (b : PackBuffer) (data : List UInt8) :
    (b.append data).contents = b.contents ++ data.map some := by
  have hlen : (b.contents ++ data.map some).length = b.len + data.length := by
    simp [b.length_contents]
  have hbuf : (b.append data).buf =
      b.contents ++ data.map some ++ (b.grow data.length).buf.drop (b.len + data.length) := by
    rw [← b.take_grow data.length]
    rfl
  unfold contents at hlen hbuf ⊢
  rw [hbuf]
  exact List.take_left' hlen

/-- `seek` within the contents cuts them off; further on it exposes what the memory holds. -/
theorem seek_eq (b : PackBuffer) {pos : ℕ} (h : pos ≤ b.cap) :
    ∃ b', b.seek pos = .ok b' ∧ b'.buf = b.buf ∧ b'.len = pos :=
  ⟨_, dif_neg (not_lt.mpr h), rfl, rfl⟩

theorem replace_zero_eq (b : PackBuffer) {rep : List UInt8} (h : rep.length ≤ b.len) :
    ∃ b', b.replace 0 rep = .ok b' ∧ b'.len = b.len ∧
      b'.contents = rep.map some ++ b.contents.drop rep.length := by
  have hnot : ¬ 0 + rep.length > b.len := by omega
  have hle := b.len_le
  refine ⟨_, dif_neg hnot, rfl, ?_⟩
  simp only [contents, store, List.take_zero, List.nil_append, Nat.zero_add]
  rw [List.take_append, List.length_map, List.drop_take, List.take_of_length_le (by simp [h])]

end PackBuffer

theorem exec_seek (p : Pack) {pos : ℕ} (h : pos ≤ p.m_buffer.cap) :
    ∃ q, exec (seek pos) p = (.ok (), q) ∧ q.m_buffer.buf = p.m_buffer.buf ∧ q.size = pos := by
  obtain ⟨b, hb, hbuf, hlen⟩ := p.m_buffer.seek_eq h
  refine ⟨⟨b, p.room.trans (PackBuffer.cap_seek hb).ge⟩, exec_attempt_ok ?_, hbuf, hlen⟩
  split
  · next b' hb' => cases hb.symm.trans hb'; rfl
  · next e he => cases hb.symm.trans he

theorem exec_replace_zero (p : Pack) (rep : List UInt8) (h : rep.length ≤ p.size) :
    ∃ q, exec (replace 0 rep) p = (.ok (), q) ∧ q.size = p.size ∧
      q.contents = rep.map some ++ p.contents.drop rep.length := by
  obtain ⟨b, hb, hlen, hcontents⟩ := p.m_buffer.replace_zero_eq h
  refine ⟨⟨b, p.room.trans (PackBuffer.cap_replace hb).ge⟩, exec_attempt_ok ?_, hlen, hcontents⟩
  split
  · next b' hb' => cases hb.symm.trans hb'; rfl
  · next e he => cases hb.symm.trans he

/-- On this `Pack` the code appends the bytes and does not throw. -/
def AppendsTo (p : Pack) (m : PackM Unit) (bytes : List UInt8) : Prop :=
  ∃ q, exec m p = (.ok (), q) ∧ q.contents = p.contents ++ bytes.map some

def Appends (m : PackM Unit) (bytes : List UInt8) : Prop := ∀ p, AppendsTo p m bytes

theorem appends_push (s : List UInt8) : Appends (push s) s :=
  fun p => ⟨_, rfl, p.m_buffer.contents_append s⟩

theorem appends_pure : Appends (pure ()) [] := fun p => ⟨p, rfl, by simp⟩

theorem Appends.seq {m n : PackM Unit} {bs cs : List UInt8} (hm : Appends m bs) (hn : Appends n cs) :
    Appends (do m; n) (bs ++ cs) := by
  intro p
  obtain ⟨q, hq, hqc⟩ := hm p
  obtain ⟨r, hr, hrc⟩ := hn q
  refine ⟨r, by rw [exec_bind_ok hq, hr], ?_⟩
  rw [hrc, hqc, List.map_append, List.append_assoc]

theorem appends_pushVarstr {s : List UInt8} (h : s.length ≤ 65535) :
    Appends (pushVarstr s) (leBytes 2 s.length ++ s) := by
  unfold pushVarstr
  rw [if_neg (by omega)]
  refine Appends.seq ?_ (appends_push s)
  rw [pushUint16, toNat_uint16 (by omega)]
  exact appends_push _

end CppBase.Packet
