import Mathlib.Data.List.FinRange
import Mathlib.Data.List.Perm.Basic

/-!
# What a table of owners has

A table of `n` slots, each with a list of things: `gather f` is all of them. A
slot is changed by taking its things out of the rest (`gather_perm`) and putting
others in (`gather_perm_of_eq`).
-/

namespace Xv6

open List

variable {α : Type} {n : Nat}

theorem exists_getElem? {l : List α} {k : Nat} (h : k < l.length) : ∃ x, l[k]? = some x :=
  ⟨_, getElem?_eq_getElem h⟩

def gather (f : Fin n → List α) : List α := (List.finRange n).flatMap f

/-- What the slots other than `i` have. -/
def others (f : Fin n → List α) (i : Fin n) : List α := ((List.finRange n).erase i).flatMap f

@[simp] theorem gather_nil : gather (fun _ : Fin n => ([] : List α)) = [] :=
  flatMap_eq_nil_iff.mpr fun _ _ => rfl

variable {f g : Fin n → List α} {i : Fin n}

theorem mem_gather {a : α} (h : a ∈ f i) : a ∈ gather f :=
  mem_flatMap.mpr ⟨i, mem_finRange i, h⟩

theorem mem_others {j : Fin n} {a : α} (hj : j ≠ i) (h : a ∈ f j) : a ∈ others f i :=
  mem_flatMap.mpr ⟨j, (mem_erase_of_ne hj).mpr (mem_finRange j), h⟩

theorem gather_congr (h : ∀ i, f i = g i) : gather f = gather g :=
  flatMap_congr fun i _ => h i

theorem others_congr (h : ∀ j, j ≠ i → f j = g j) : others f i = others g i := by
  refine flatMap_congr fun j hj => h j ?_
  exact ((nodup_finRange n).mem_erase_iff.mp hj).1

theorem gather_perm (f : Fin n → List α) (i : Fin n) : (gather f).Perm (f i ++ others f i) :=
  (perm_cons_erase (mem_finRange i)).flatMap_right f

/-- Slots other than `i` are as before: only the things of `i` are exchanged. -/
theorem gather_perm_of_eq (h : ∀ j, j ≠ i → g j = f j) : (gather g).Perm (g i ++ others f i) := by
  rw [← others_congr h]
  exact gather_perm g i

end Xv6
