import Mathlib

/-!
# Microx.Lib.Countdown

Loops that count down, and end early when a condition fails.
-/

namespace Countdown

variable {α : Type} (body : α → α) (again : α → Bool)

/-- How often the body runs: `n` times, or until the condition fails for the first time. -/
def rounds : Nat → α → Nat
  | 0, _ => 0
  | n + 1, x => if again (body x) then rounds n (body x) + 1 else 1

/-- Of `n` rounds `k` are done: all of them, or those up to the first after which the condition
fails. -/
structure IsRounds (n : Nat) (x : α) (k : Nat) : Prop where
  le : k ≤ n
  goesOn : ∀ j, 0 < j → j < k → again (body^[j] x) = true
  stops : k < n → 0 < k ∧ again (body^[k] x) = false

variable {body again} {n k : Nat} {x : α}

theorem rounds_succ_of_again (h : again (body x) = true) :
    rounds body again (n + 1) x = rounds body again n (body x) + 1 := by
  rw [rounds, if_pos h]

theorem rounds_succ_of_not_again (h : again (body x) = false) :
    rounds body again (n + 1) x = 1 := by
  rw [rounds, if_neg (by simp [h])]

variable (body again) in
theorem rounds_pos (n : Nat) (x : α) : 0 < rounds body again (n + 1) x := by
  unfold rounds
  split
  · exact Nat.succ_pos _
  · exact Nat.one_pos

/-- The last round. -/
theorem rounds_one (x : α) : rounds body again 1 x = 1 := by
  unfold rounds
  split <;> rfl

variable (body again) in
theorem isRounds_rounds : ∀ (n : Nat) (x : α),
    IsRounds body again n x (rounds body again n x)
  | 0, x => ⟨Nat.le_refl 0, fun j _ hj => absurd hj (Nat.not_lt_zero j),
      fun h => absurd h (Nat.lt_irrefl 0)⟩
  | n + 1, x => by
      have ih := isRounds_rounds n (body x)
      cases h : again (body x) with
      | false =>
          rw [rounds_succ_of_not_again h]
          exact ⟨by omega, fun j hj hlt => by omega, fun _ => ⟨Nat.one_pos, h⟩⟩
      | true =>
          rw [rounds_succ_of_again h]
          refine ⟨Nat.succ_le_succ ih.le, fun j hj hlt => ?_, fun hlt => ?_⟩
          · cases j with
            | zero => contradiction
            | succ j =>
                cases j with
                | zero => exact h
                | succ j => exact ih.goesOn (j + 1) (Nat.succ_pos j) (Nat.lt_of_succ_lt_succ hlt)
          · exact ⟨Nat.succ_pos _, (ih.stops (Nat.lt_of_succ_lt_succ hlt)).2⟩

/-- A condition that always holds ends no loop early. -/
theorem IsRounds.eq_of_forall (h : IsRounds body again n x k) (hall : ∀ y, again y = true) :
    k = n := by
  refine Nat.le_antisymm h.le (Nat.not_lt.mp fun hlt => ?_)
  have hfalse := (h.stops hlt).2
  rw [hall] at hfalse
  contradiction

end Countdown
