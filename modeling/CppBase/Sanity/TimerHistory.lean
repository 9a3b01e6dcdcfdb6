import CppBase.Spec.AsyncTimer

/-! What a timer is for, on the history of registrations, deletions and firings:
the registration of a name that is current, and when it may fire. -/

namespace CppBase.Utility

structure Live where
  registration : Registration
  firings : List ℤ

def track (name : String) (live : Option Live) : TimerRecord → Option Live
  | .registered r => if r.name = name then some ⟨r, []⟩ else live
  | .deleted n => if n = name then none else live
  | .fired n _ now =>
    if n = name then live.map fun l => { l with firings := l.firings ++ [now] } else live

def current (name : String) (h : List TimerRecord) : Option Live := h.foldl (track name) none

/-- Its wait is over since it was registered and, if it is periodic, since each firing; a one-shot has not fired. -/
structure Live.MayFire (l : Live) (now : ℤ) : Prop where
  registered : l.registration.time + l.registration.wait ≤ now
  periodic : l.registration.event.isTimer = true → ∀ x ∈ l.firings, x + l.registration.wait ≤ now
  oneShot : l.registration.event.isTimer = false → l.firings = []

/-- Each firing is of the registration of its name that is current, and allowed by it. -/
def Legal (h : List TimerRecord) : Prop :=
  ∀ pre name ev now post, h = pre ++ .fired name ev now :: post →
    ∃ l, current name pre = some l ∧ l.registration.event = ev ∧ l.MayFire now

variable {h : List TimerRecord}

theorem current_snoc (name : String) (h : List TimerRecord) (r : TimerRecord) :
    current name (h ++ [r]) = track name (current name h) r := by
  simp [current]

theorem legal_nil : Legal [] := by
  intro pre name ev now post heq
  simp at heq

theorem Legal.snoc (hl : Legal h) {r : TimerRecord}
    (hr : ∀ name ev now, r = .fired name ev now →
      ∃ l, current name h = some l ∧ l.registration.event = ev ∧ l.MayFire now) : Legal (h ++ [r]) := by
  intro pre name ev now post heq
  rcases List.eq_nil_or_concat post with rfl | ⟨post, last, rfl⟩
  · obtain ⟨rfl, hlast⟩ := List.append_inj' heq rfl
    exact hr name ev now (List.singleton_inj.mp hlast)
  · rw [List.concat_eq_append, ← List.cons_append, ← List.append_assoc] at heq
    exact hl pre name ev now post (List.append_inj' heq rfl).1

end CppBase.Utility
