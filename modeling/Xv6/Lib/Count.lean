import Mathlib.Algebra.BigOperators.Fin
import Mathlib.Algebra.Order.BigOperators.Group.Finset
import Mathlib.Tactic.Abel

/-!
# Counting over a finite type of parties

A reference count is right when it equals a number of parties, and one event
moves one party. The two facts below are the whole of the arithmetic: changing a
function at one point changes a sum over the type by the difference at that
point, and a sum of indicators is positive exactly when somebody is counted.
-/

namespace Xv6

open Function Finset

variable {P : Type*} [Fintype P] {α : Type*}

/-- **The counting step**: only the updated point's term changes. -/
theorem sum_update [DecidableEq P] (f : P → α) (g : P → α → Int) (p : P) (a : α) :
    ∑ x, g x (update f p a x) = (∑ x, g x (f x)) - g p (f p) + g p a := by
  have hrest : ∑ x ∈ Finset.univ.erase p, g x (update f p a x)
      = ∑ x ∈ Finset.univ.erase p, g x (f x) := by
    refine sum_congr rfl fun x hx => ?_
    rw [update_of_ne (ne_of_mem_erase hx)]
  rw [← add_sum_erase univ _ (mem_univ p), hrest,
    ← add_sum_erase univ (fun x => g x (f x)) (mem_univ p)]
  simp only [update_self]
  abel

/-- How many parties satisfy `q`. -/
def count (q : P → Prop) [DecidablePred q] : Int := ∑ x, if q x then 1 else 0

theorem count_nonneg (q : P → Prop) [DecidablePred q] : 0 ≤ count q :=
  sum_nonneg fun x _ => by split <;> decide

theorem count_congr {q r : P → Prop} [DecidablePred q] [DecidablePred r] (h : ∀ x, q x ↔ r x) :
    count q = count r :=
  sum_congr rfl fun x _ => by simp [h x]

theorem count_pos_iff {q : P → Prop} [DecidablePred q] : 0 < count q ↔ ∃ x, q x := by
  constructor
  · intro h
    by_contra hno
    have hz : count q = 0 :=
      sum_eq_zero fun x _ => by rw [if_neg fun hx => hno ⟨x, hx⟩]
    omega
  · rintro ⟨x, hx⟩
    have h1 : (if q x then (1 : Int) else 0) ≤ count q :=
      single_le_sum (f := fun x => if q x then (1 : Int) else 0)
        (fun y _ => by split <;> decide) (mem_univ x)
    rw [if_pos hx] at h1
    omega

theorem count_eq_zero_iff {q : P → Prop} [DecidablePred q] : count q = 0 ↔ ∀ x, ¬ q x := by
  have hpos := count_pos_iff (q := q)
  have hnn := count_nonneg q
  constructor
  · intro h x hx
    have := hpos.mpr ⟨x, hx⟩
    omega
  · intro h
    by_contra hne
    obtain ⟨x, hx⟩ := hpos.mp (by omega)
    exact h x hx

/-- The counting step for a property of a function's values. -/
theorem count_update [DecidableEq P] (f : P → α) (q : α → Prop) [DecidablePred q] (p : P) (a : α) :
    count (fun x => q (update f p a x))
      = count (fun x => q (f x)) - (if q (f p) then 1 else 0) + (if q a then 1 else 0) :=
  sum_update f (fun _ y => if q y then 1 else 0) p a

end Xv6
