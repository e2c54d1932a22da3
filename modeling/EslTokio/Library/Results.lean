import Mathlib.Tactic.Common

/-!
# Results of fallible steps

A chain of steps that may fail returns a value exactly when every step of it does.

* `bind_ok_iff` — the value of a step and of what follows it.
* `checked_iff`, `then_ok_iff` — behind a check that returns nothing.
* `foldlM_keeps` — a property that every step of a loop keeps.
-/

namespace EslTokio
namespace Library

variable {ε α β σ : Type}

theorem bind_ok_iff {x : Except ε α} {f : α → Except ε β} {b : β} :
    (x >>= f) = .ok b ↔ ∃ a, x = .ok a ∧ f a = .ok b := by
  cases x with
  | error e =>
      constructor
      · intro h
        cases h
      · rintro ⟨a, h, -⟩
        cases h
  | ok a =>
      constructor
      · intro h
        exact ⟨a, rfl, h⟩
      · rintro ⟨b, h, hb⟩
        cases h
        exact hb

/-- A value is returned behind its check. -/
theorem checked_iff {check : Except ε Unit} {a b : α} :
    (check >>= fun _ => Except.ok a) = .ok b ↔ check = .ok () ∧ a = b := by
  rw [bind_ok_iff]
  constructor
  · rintro ⟨⟨⟩, hcheck, h⟩
    exact ⟨hcheck, Except.ok.inj h⟩
  · rintro ⟨hcheck, rfl⟩
    exact ⟨(), hcheck, rfl⟩

theorem then_ok_iff {check later : Except ε Unit} :
    (check >>= fun _ => later) = .ok () ↔ check = .ok () ∧ later = .ok () := by
  rw [bind_ok_iff]
  constructor
  · rintro ⟨⟨⟩, hcheck, h⟩
    exact ⟨hcheck, h⟩
  · rintro ⟨hcheck, h⟩
    exact ⟨(), hcheck, h⟩

/-- A loop whose steps each keep a property keeps it. -/
theorem foldlM_keeps {step : σ → α → Except ε σ} {P : σ → Prop} {Q : α → Prop}
    (hstep : ∀ {s a s'}, P s → Q a → step s a = .ok s' → P s') {as : List α}
    (has : ∀ a ∈ as, Q a) {s s' : σ} (hs : P s) (h : as.foldlM step s = .ok s') : P s' := by
  induction as generalizing s with
  | nil =>
      obtain rfl := Except.ok.inj h
      exact hs
  | cons a as ih =>
      rw [List.foldlM_cons] at h
      obtain ⟨middle, hmiddle, h⟩ := bind_ok_iff.mp h
      obtain ⟨ha, has⟩ := List.forall_mem_cons.mp has
      exact ih has (hstep hs ha hmiddle) h

end Library
end EslTokio
