import Mathlib.Data.List.Basic
import Mathlib.Data.Nat.ModEq

/-!
# Rings with free-running counters

A ring of `cap` cells whose reader and writer each keep a counter of `w` bits
that is never reduced: the writer stores at `wr % cap` and adds one, the reader
loads from `rd % cap` and adds one, and both counters wrap. Since `cap` divides
`2 ^ w` the cells do not jump when a counter wraps, and what is in the ring is
what lies between the counters (`contents`), of which there are `used`.
-/

namespace Xv6.Ring

open Function List Nat BitVec

variable {w cap : Nat} {α : Type}

/-- `wr - rd`, on `w` bits -/
def used (rd wr : BitVec w) : Nat := (wr - rd).toNat

/-- What was stored and not yet loaded, first to last. -/
def contents (cap : Nat) (cell : Nat → α) (rd wr : BitVec w) : List α :=
  (List.range (used rd wr)).map fun k => cell ((rd.toNat + k) % cap)

@[simp] theorem used_self (rd : BitVec w) : used rd rd = 0 := by simp [used]

@[simp] theorem contents_length (cell : Nat → α) (rd wr : BitVec w) :
    (contents cap cell rd wr).length = used rd wr := by
  simp [contents]

theorem add_used (rd wr : BitVec w) : (rd.toNat + used rd wr) % 2 ^ w = wr.toNat := by
  have h : rd + (wr - rd) = wr := by rw [BitVec.add_comm, BitVec.sub_add_cancel]
  calc (rd.toNat + used rd wr) % 2 ^ w = (rd + (wr - rd)).toNat := (toNat_add _ _).symm
    _ = wr.toNat := by rw [h]

variable {n : Nat} {rd wr : BitVec w}

/-- The number of entries is the distance from the one counter to the other. -/
theorem used_unique (hn : n < 2 ^ w) (h : (rd.toNat + n) % 2 ^ w = wr.toNat) : used rd wr = n := by
  have hwr : wr = BitVec.ofNat w n + rd := by
    apply eq_of_toNat_eq
    rw [toNat_add, toNat_ofNat, ← h, mod_add_mod, Nat.add_comm]
  rw [used, hwr, BitVec.add_sub_cancel, toNat_ofNat, mod_eq_of_lt hn]

theorem used_eq_zero : used rd wr = 0 ↔ rd = wr := by
  constructor
  · intro h
    have hadd := add_used rd wr
    rw [h, Nat.add_zero, mod_eq_of_lt rd.isLt] at hadd
    exact eq_of_toNat_eq hadd
  · rintro rfl
    exact used_self rd

/-- The writer's cell, seen from the reader. -/
theorem wr_cell (hcap : cap ∣ 2 ^ w) (rd wr : BitVec w) :
    wr.toNat % cap = (rd.toNat + used rd wr) % cap := by
  rw [← add_used rd wr, mod_mod_of_dvd _ hcap]

theorem toNat_succ (i : BitVec w) : (i + 1).toNat = (i.toNat + 1) % 2 ^ w := by
  rw [toNat_add]
  simp

theorem used_push (h : used rd wr + 1 < 2 ^ w) : used rd (wr + 1) = used rd wr + 1 := by
  refine used_unique h ?_
  rw [toNat_succ, ← add_used rd wr, mod_add_mod, Nat.add_assoc]

theorem used_pop (h : 0 < used rd wr) : used (rd + 1) wr = used rd wr - 1 := by
  have hlt : used rd wr < 2 ^ w := (wr - rd).isLt
  refine used_unique (by omega) ?_
  rw [toNat_succ, mod_add_mod, ← add_used rd wr]
  congr 1
  omega

theorem used_inj {wr' : BitVec w} (h : used rd wr = used rd wr') : wr = wr' := by
  apply eq_of_toNat_eq
  rw [← add_used rd wr, ← add_used rd wr', h]

theorem used_of_add {wr' : BitVec w} (h : used rd wr + n = used rd wr') : used wr wr' = n := by
  have hlt : used rd wr' < 2 ^ w := (wr' - rd).isLt
  refine used_unique (by omega) ?_
  rw [← add_used rd wr, mod_add_mod, Nat.add_assoc, h, add_used]

theorem used_unpush (h : 0 < used rd wr) : used rd (wr - 1) + 1 = used rd wr := by
  have hone : wr - 1 + 1 = wr := BitVec.sub_add_cancel _ _
  have hlt : used rd (wr - 1) < 2 ^ w := (wr - 1 - rd).isLt
  by_cases hmax : used rd (wr - 1) + 1 < 2 ^ w
  · rw [← used_push hmax, hone]
  · -- a step back from there would have been a step on to an empty ring
    have hzero : used rd wr = 0 := by
      refine used_unique (Nat.two_pow_pos w) ?_
      rw [← hone, toNat_succ, ← add_used rd (wr - 1), mod_add_mod, Nat.add_assoc,
        show used rd (wr - 1) + 1 = 2 ^ w by omega, add_mod_right, Nat.add_zero]
    omega

theorem cell_ne {a k : Nat} (hk : k < n) (hn : n < cap) : (a + k) % cap ≠ (a + n) % cap := by
  intro h
  have hmod : k % cap = n % cap := Nat.ModEq.add_left_cancel' a h
  rw [mod_eq_of_lt (by omega), mod_eq_of_lt hn] at hmod
  omega

/-- A store to the writer's cell overwrites nothing, if there is room. -/
theorem contents_store (hcap : cap ∣ 2 ^ w) (cell : Nat → α) (x : α) (h : used rd wr < cap) :
    contents cap (update cell (wr.toNat % cap) x) rd wr = contents cap cell rd wr := by
  unfold contents
  rw [wr_cell hcap rd wr]
  refine map_congr_left fun k hk => ?_
  rw [update_of_ne (cell_ne (mem_range.mp hk) h)]

section

variable (hcap : cap ∣ 2 ^ w) (hw : cap < 2 ^ w) (cell : Nat → α)

include hcap hw cell

/-- Adding one to the writer's counter makes its cell the last entry. -/
theorem contents_bump (h : used rd wr < cap) :
    contents cap cell rd (wr + 1) = contents cap cell rd wr ++ [cell (wr.toNat % cap)] := by
  unfold contents
  rw [used_push (by omega), range_succ, map_append, wr_cell hcap rd wr]
  rfl

theorem contents_push (x : α) (h : used rd wr < cap) :
    contents cap (update cell (wr.toNat % cap) x) rd (wr + 1) =
      contents cap cell rd wr ++ [x] := by
  rw [contents_bump hcap hw _ h, contents_store hcap _ _ h, update_self]

/-- The last entry, in the cell before the writer's. -/
theorem contents_unpush (h : 0 < used rd wr) (hle : used rd wr ≤ cap) :
    contents cap cell rd wr = contents cap cell rd (wr - 1) ++ [cell ((wr - 1).toNat % cap)] := by
  have hback := used_unpush h
  have hbump : contents cap cell rd (wr - 1 + 1) =
      contents cap cell rd (wr - 1) ++ [cell ((wr - 1).toNat % cap)] :=
    contents_bump hcap hw cell (by omega)
  rwa [BitVec.sub_add_cancel] at hbump

end

theorem contents_pop (hcap : cap ∣ 2 ^ w) (cell : Nat → α) (h : 0 < used rd wr) :
    contents cap cell rd wr = cell (rd.toNat % cap) :: contents cap cell (rd + 1) wr := by
  obtain ⟨n, hn⟩ : ∃ n, used rd wr = n + 1 := ⟨used rd wr - 1, by omega⟩
  unfold contents
  rw [used_pop h, hn, range_succ_eq_map]
  simp only [map_cons, map_map, Nat.add_zero, Nat.add_sub_cancel]
  congr 1
  refine map_congr_left fun k _ => ?_
  -- the reader's counter may wrap, its cell does not jump
  have hcell : ((rd + 1).toNat + k) % cap = (rd.toNat + (k + 1)) % cap := by
    rw [toNat_succ, add_mod, mod_mod_of_dvd _ hcap, ← add_mod]
    congr 1
    omega
  simp only [Function.comp, hcell]

end Xv6.Ring
