import CppBase.Lib.Loop
import Mathlib.Data.List.Basic

/-! Decoders of a stream that arrives in pieces. A decoder looks at what is at hand and takes
some of it or leaves it all; what it leaves is kept and stands before the next piece. -/

namespace CppBase.Lib

/-- Take `n` elements, put out `out` and go on in state `s`; or leave, for a reason. -/
inductive Verdict (σ ω ρ : Type)
  | takes (n : ℕ) (s : σ) (out : ω)
  | leaves (r : ρ)

variable {σ β ω ρ : Type}

/-- Look and take until there is nothing to take: the state and the rest at the end, what was
put out, and the reason for leaving. -/
inductive Drains (look : σ → List β → Verdict σ ω ρ) : σ → List β → σ → List β → List ω → ρ → Prop
  | leaves {s : σ} {buf : List β} {r : ρ} : look s buf = .leaves r → Drains look s buf s buf [] r
  | takes {s t u : σ} {buf rest : List β} {n : ℕ} {out : ω} {outs : List ω} {r : ρ} :
      look s buf = .takes n t out → Drains look t (buf.drop n) u rest outs r →
      Drains look s buf u rest (out :: outs) r

/-- Drain after each piece. -/
inductive Fed (look : σ → List β → Verdict σ ω ρ) :
    σ → List β → List (List β) → σ → List β → List ω → List ρ → Prop
  | nil (s : σ) (kept : List β) : Fed look s kept [] s kept [] []
  | cons {s t u : σ} {kept rest rest' piece : List β} {pieces : List (List β)} {outs outs' : List ω} {r : ρ}
      {rs : List ρ} :
      Drains look s (kept ++ piece) t rest outs r → Fed look t rest pieces u rest' outs' rs →
      Fed look s kept (piece :: pieces) u rest' (outs ++ outs') (r :: rs)

/-- What is taken is there, and would be taken whatever followed it. -/
def Stable (look : σ → List β → Verdict σ ω ρ) : Prop :=
  ∀ s buf n t out, look s buf = .takes n t out →
    n ≤ buf.length ∧ ∀ more, look s (buf ++ more) = .takes n t out

variable {look : σ → List β → Verdict σ ω ρ} {s t u : σ} {buf rest rest' more kept : List β}
  {outs outs' : List ω} {r r' : ρ} {rs : List ρ} {pieces : List (List β)}

section Draining

theorem Drains.end_leaves (h : Drains look s buf t rest outs r) : look t rest = .leaves r := by
  induction h with
  | leaves hlook => exact hlook
  | takes _ _ ih => exact ih

theorem Drains.unique (h : Drains look s buf t rest outs r) (h' : Drains look s buf u rest' outs' r') :
    t = u ∧ rest = rest' ∧ outs = outs' ∧ r = r' := by
  induction h generalizing outs' with
  | leaves hlook =>
    cases h' with
    | leaves hlook' => exact ⟨rfl, rfl, rfl, by injection hlook.symm.trans hlook'⟩
    | takes hlook' _ => cases hlook.symm.trans hlook'
  | takes hlook _ ih =>
    cases h' with
    | leaves hlook' => cases hlook.symm.trans hlook'
    | takes hlook' hrest =>
      cases hlook.symm.trans hlook'
      obtain ⟨rfl, rfl, rfl, rfl⟩ := ih hrest
      exact ⟨rfl, rfl, rfl, rfl⟩

/-- Draining, and draining again when more has come, is draining all at once. -/
theorem Drains.append (hstable : Stable look) (h : Drains look s buf t rest outs r)
    (h' : Drains look t (rest ++ more) u rest' outs' r') :
    Drains look s (buf ++ more) u rest' (outs ++ outs') r' := by
  induction h with
  | leaves _ => exact h'
  | takes hlook _ ih =>
    obtain ⟨hlen, hmore⟩ := hstable _ _ _ _ _ hlook
    refine .takes (hmore more) ?_
    rw [List.drop_append_of_le_length hlen]
    exact ih h'

/-- Where every reason but one is there to stay, a part of what is drained to the end can only be
left for that one. -/
theorem Drains.part {wait : ρ} (hstable : Stable look)
    (hstay : ∀ s buf r, look s buf = .leaves r → r ≠ wait → ∀ more, look s (buf ++ more) = .leaves r)
    (h : Drains look s (buf ++ more) t [] outs r) (hmore : more ≠ []) (h' : Drains look s buf u rest outs' r') :
    r' = wait := by
  by_contra hne
  have hend := hstay _ _ _ h'.end_leaves hne more
  obtain ⟨-, hnil, -⟩ := h.unique (h'.append hstable (.leaves hend))
  exact hmore (List.append_eq_nil_iff.mp hnil.symm).2

/-- A loop that looks, takes and notes what was put out drains: what it looks at gets shorter
in every round but the last. -/
theorem loop_drains {τ κ ν : Type} {round : τ → τ ⊕ ν} (view : τ → σ × List β) (log : τ → List κ)
    (emit : ω → List κ) (leave : τ → ρ → ν)
    (htakes : ∀ x n t out, look (view x).1 (view x).2 = .takes n t out →
      0 < n ∧ n ≤ (view x).2.length ∧
        ∃ y, round x = .inl y ∧ view y = (t, (view x).2.drop n) ∧ log y = log x ++ emit out)
    (hleaves : ∀ x r, look (view x).1 (view x).2 = .leaves r → round x = .inr (leave x r))
    (fuel : ℕ) (x : τ) (hfuel : (view x).2.length < fuel) :
    ∃ y outs r, loop round fuel x = some (leave y r) ∧
      Drains look (view x).1 (view x).2 (view y).1 (view y).2 outs r ∧ log y = log x ++ outs.flatMap emit := by
  induction fuel generalizing x with
  | zero => exact absurd hfuel (Nat.not_lt_zero _)
  | succ fuel ih =>
    cases hlook : look (view x).1 (view x).2 with
    | takes n t out =>
      obtain ⟨hpos, hlen, y, hround, hview, hlog⟩ := htakes x n t out hlook
      have hshort : (view y).2.length < fuel := by
        rw [hview, List.length_drop]
        omega
      obtain ⟨z, outs, r, hloop, hdrains, hlog'⟩ := ih y hshort
      refine ⟨z, out :: outs, r, (loop_goes hround).trans hloop, ?_, ?_⟩
      · rw [hview] at hdrains
        exact .takes hlook hdrains
      · rw [hlog', hlog, List.flatMap_cons, List.append_assoc]
    | leaves r => exact ⟨x, [], r, loop_leaves (hleaves x r hlook), .leaves hlook, by simp⟩

end Draining

section Pieces

/-- It does not matter how the stream is cut. -/
theorem Fed.drains (hstable : Stable look) (h : Fed look s kept pieces t rest outs rs) (hkept : look s kept = .leaves r) :
    Drains look s (kept ++ pieces.flatten) t rest outs (rs.getLastD r) := by
  induction h generalizing r with
  | nil s kept => simpa using Drains.leaves hkept
  | cons hfirst _ ih =>
    rw [List.flatten_cons, ← List.append_assoc, List.getLastD_cons]
    exact hfirst.append hstable (ih hfirst.end_leaves)

/-- Every reason for leaving is that of what had come by then. -/
theorem Fed.reasons (hstable : Stable look) (h : Fed look s kept pieces t rest outs rs) (hkept : look s kept = .leaves r)
    (hr : r' ∈ rs) :
    ∃ come t' rest' outs', come <+: pieces.flatten ∧ Drains look s (kept ++ come) t' rest' outs' r' := by
  induction h generalizing r with
  | nil => cases hr
  | @cons s t u kept rest rest' piece pieces outs outs' r₁ rs hfirst _ ih =>
    rw [List.flatten_cons]
    obtain rfl | hr := List.mem_cons.mp hr
    · exact ⟨piece, t, rest, outs, List.prefix_append _ _, hfirst⟩
    · obtain ⟨come, t', rest', outs', hcome, hdrains⟩ := ih hfirst.end_leaves hr
      refine ⟨piece ++ come, t', rest', outs ++ outs', List.prefix_append_right_inj piece |>.mpr hcome, ?_⟩
      rw [← List.append_assoc]
      exact hfirst.append hstable hdrains

end Pieces

section Frames

variable {μ : Type} {enc : μ → List β} {out : μ → ω} {ms : List μ}

/-- Frames that are taken whole come out in order. -/
theorem drains_frames (henc : ∀ m ∈ ms, ∀ more, look s (enc m ++ more) = .takes (enc m).length s (out m))
    (h : Drains look s rest t rest' outs r) :
    Drains look s (ms.flatMap enc ++ rest) t rest' (ms.map out ++ outs) r := by
  induction ms with
  | nil => exact h
  | cons m ms ih =>
    rw [List.flatMap_cons, List.append_assoc]
    refine .takes (henc m List.mem_cons_self _) ?_
    rw [List.drop_left]
    exact ih fun m' hm' => henc m' (List.mem_cons_of_mem m hm')

/-- What comes first of some frames: whole ones, and a part of the next or of what follows. -/
theorem prefix_frames (h : buf <+: ms.flatMap enc ++ rest) :
    (∃ k m part, buf = (ms.take k).flatMap enc ++ part ∧ ms[k]? = some m ∧ part <+: enc m ∧
        part.length < (enc m).length) ∨
      ∃ part, buf = ms.flatMap enc ++ part ∧ part <+: rest := by
  induction ms generalizing buf with
  | nil => exact .inr ⟨buf, rfl, h⟩
  | cons m ms ih =>
    rw [List.flatMap_cons, List.append_assoc] at h
    by_cases hlen : buf.length < (enc m).length
    · have hpart : buf <+: enc m := List.prefix_of_prefix_length_le h (List.prefix_append _ _) hlen.le
      exact .inl ⟨0, m, buf, rfl, rfl, hpart, hlen⟩
    · have hwhole : enc m <+: buf := List.prefix_of_prefix_length_le (List.prefix_append _ _) h (by omega)
      obtain ⟨buf, rfl⟩ := hwhole
      obtain ⟨k, m', part, rfl, hm', hpart, hlt⟩ | ⟨part, rfl, hpart⟩ := ih ((List.prefix_append_right_inj _).mp h)
      · exact .inl ⟨k + 1, m', part, by simp, by simpa using hm', hpart, hlt⟩
      · exact .inr ⟨part, by simp, hpart⟩

end Frames

end CppBase.Lib
