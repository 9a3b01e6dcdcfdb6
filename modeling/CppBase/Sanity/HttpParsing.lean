import CppBase.Lib.Framing
import CppBase.Proofs.BufferDeque
import CppBase.Spec.HttpServer

/-! What `parseRequest` makes of the bytes at hand, read off the bytes and the context alone.
The time at which a request line was complete depends on the pieces and is left aside. -/

namespace CppBase.Muduo.Http

open CppBase.Lib

section Lines

variable {l more : List UInt8} {k : ℕ}

theorem findCRLF_append (h : findCRLF l = some k) (more : List UInt8) :
    k + 2 ≤ l.length ∧ findCRLF (l ++ more) = some k := by
  induction l generalizing k with
  | nil => cases h
  | cons b l ih =>
    rw [findCRLF] at h
    split at h
    · rename_i hb
      obtain rfl : 0 = k := by simpa using h
      cases l with
      | nil => simp at hb
      | cons b' l => exact ⟨by simp, if_pos hb⟩
    · rename_i hb
      obtain ⟨j, hj, rfl⟩ := Option.map_eq_some_iff.mp h
      obtain ⟨hlen, hfind⟩ := ih hj
      refine ⟨by rw [List.length_cons]; omega, ?_⟩
      rw [List.cons_append, findCRLF, hfind, if_neg]
      · rfl
      · cases l with
        | nil => cases hj
        | cons b' l => exact hb

/-- A line without a CR ends at the first CRLF. -/
theorem findCRLF_line (h : 13 ∉ l) (more : List UInt8) : findCRLF (l ++ 13 :: 10 :: more) = some l.length := by
  induction l with
  | nil => rfl
  | cons b l ih =>
    rw [List.mem_cons, not_or] at h
    rw [List.cons_append, findCRLF, ih h.2, if_neg fun hb => h.1 hb.1.symm]
    rfl

end Lines

section Time

def HttpRequest.timeless (r : HttpRequest) : HttpRequest := { r with receiveTime := 0 }

def HttpContext.timeless (c : HttpContext) : HttpContext := { c with request := c.request.timeless }

end Time

section Looking

inductive Reason
  | more
  | gotAll
  | bad (r : HttpRequest)
  | abort
  | endless

def look (ctx : HttpContext) (l : List UInt8) : Verdict HttpContext Unit Reason :=
  match ctx.state with
  | .kExpectRequestLine =>
    match findCRLF l with
    | none => .leaves .more
    | some k =>
      match processRequestLine ctx.request (l.take k) with
      | .error _ => .leaves .abort
      | .ok (false, r) => .leaves (.bad r)
      | .ok (true, r) => .takes (k + 2) { state := .kExpectHeaders, request := r } ()
  | .kExpectHeaders =>
    match findCRLF l with
    | none => .leaves .more
    | some k =>
      match cutAt 58 (l.take k) with
      | some (field, rest) => .takes (k + 2) { ctx with request := ctx.request.addHeader field rest } ()
      | none => .takes (k + 2) { ctx with state := .kGotAll } ()
  | .kGotAll => .leaves .gotAll
  | .kExpectBody => .leaves .endless

variable {ctx : HttpContext} {l : List UInt8} {n : ℕ} {t : HttpContext}

/-- Only for want of a line may it matter what follows. -/
theorem look_append (h : look ctx l ≠ .leaves .more) (more : List UInt8) : look ctx (l ++ more) = look ctx l := by
  cases hfind : findCRLF l with
  | none =>
    unfold look at h ⊢
    rw [hfind] at h
    cases hs : ctx.state <;> simp [hs] at h ⊢
  | some k =>
    obtain ⟨hlen, hfind'⟩ := findCRLF_append hfind more
    have htake : (l ++ more).take k = l.take k := List.take_append_of_le_length (by omega)
    unfold look
    rw [hfind, hfind']
    dsimp only
    rw [htake]

theorem look_takes_length (h : look ctx l = .takes n t ()) : 0 < n ∧ n ≤ l.length := by
  unfold look at h
  cases hfind : findCRLF l with
  | none =>
    rw [hfind] at h
    cases hs : ctx.state <;> simp [hs] at h
  | some k =>
    obtain ⟨hlen, -⟩ := findCRLF_append hfind []
    rw [hfind] at h
    have hn : n = k + 2 := by
      dsimp only at h
      split at h
      · split at h <;> cases h
        rfl
      · split at h <;> cases h <;> rfl
      · cases h
      · cases h
    omega

theorem look_stable : Stable look := by
  rintro ctx l n t ⟨⟩ h
  refine ⟨(look_takes_length h).2, fun more => ?_⟩
  rw [look_append (by rw [h]; nofun), h]

end Looking

section Calls

/-- What the call returns, for the reason it was left for. -/
def Outcome (u : HttpContext) (rest : List UInt8) : Reason → Option (Except Buffer.Fault (Bool × HttpContext × Buffer)) → Prop
  | .more, res | .gotAll, res =>
    ∃ ctx buf, res = some (.ok (true, ctx, buf)) ∧ ctx.timeless = u ∧ buf.contents = rest
  | .bad r, res =>
    ∃ ctx buf, res = some (.ok (false, ctx, buf)) ∧ ctx.state = u.state ∧ ctx.request.timeless = r ∧ buf.contents = rest
  | .abort, res => res = some (.error .assertion)
  | .endless, _ => False

end Calls

end CppBase.Muduo.Http
