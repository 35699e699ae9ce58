import Mathlib.Data.Nat.Bitwise
import Xv6.Param

/-!
# Page-table entries and virtual addresses

The macros of `kernel/riscv.h`, on 64-bit numbers. An entry is a page number
above ten flag bits; `pte_split` says so arithmetically, and the lemmas after it
read each macro off that form.
-/

namespace Xv6

open Nat

/-! ## The macros -/

/-- valid -/
abbrev PTE_V : Nat := 1
abbrev PTE_R : Nat := 2
abbrev PTE_W : Nat := 4
abbrev PTE_X : Nat := 8
/-- user can access -/
abbrev PTE_U : Nat := 16

/-- shift a physical address to the right place for a PTE -/
def PA2PTE (pa : Nat) : Nat := pa >>> 12 <<< 10

abbrev PTE2PA (pte : Nat) : Nat := (pte >>> 10 <<< 12) % 2 ^ 64

def PTE_FLAGS (pte : Nat) : Nat := pte &&& 0x3FF

/-- The level's 9-bit page table index of a virtual address. -/
def PX (level va : Nat) : Nat := (va >>> (12 + 9 * level)) &&& 0x1FF

def PGROUNDDOWN (a : Nat) : Nat := a / PGSIZE * PGSIZE

/-- `pte &= ~PTE_U` -/
def clearUser (pte : Nat) : Nat := pte &&& (2 ^ 64 - 1 - PTE_U)

/-- The entry that `mappages` and `walk` store: `PA2PTE(pa) | perm | PTE_V`. -/
def mkPte (pa perm : Nat) : Nat := PA2PTE pa ||| perm ||| PTE_V

theorem sub_PGROUNDDOWN (va : Nat) : va - PGROUNDDOWN va = va % PGSIZE := by
  unfold PGROUNDDOWN
  simp only [PGSIZE]
  omega

theorem PX_lt (level va : Nat) : PX level va < 512 :=
  lt_of_le_of_lt and_le_right (by decide)

theorem PX_eq (level va : Nat) : PX level va = va / 2 ^ (12 + 9 * level) % 512 := by
  unfold PX
  rw [shiftRight_eq_div_pow]
  exact and_two_pow_sub_one_eq_mod _ 9

/-! ## An entry is a page number and flags -/

theorem and_split {f g : Nat} (x y : Nat) (hf : f < 2 ^ 10) (hg : g < 2 ^ 10) :
    (2 ^ 10 * x + f) &&& (2 ^ 10 * y + g) = 2 ^ 10 * (x &&& y) + (f &&& g) := by
  have hfg : f &&& g < 2 ^ 10 := lt_of_le_of_lt and_le_left hf
  refine eq_of_testBit_eq fun i => ?_
  rw [testBit_and, testBit_two_pow_mul_add _ hf, testBit_two_pow_mul_add _ hg,
    testBit_two_pow_mul_add _ hfg]
  split <;> rw [testBit_and]

theorem or_split {f g : Nat} (x : Nat) (hf : f < 2 ^ 10) (hg : g < 2 ^ 10) :
    (2 ^ 10 * x + f) ||| g = 2 ^ 10 * x + (f ||| g) := by
  have hfg : f ||| g < 2 ^ 10 := or_lt_two_pow hf hg
  refine eq_of_testBit_eq fun i => ?_
  rw [testBit_or, testBit_two_pow_mul_add _ hf, testBit_two_pow_mul_add _ hfg]
  split
  · rw [testBit_or]
  · rename_i hi
    have : g < 2 ^ i := lt_of_lt_of_le hg (Nat.pow_le_pow_right (by decide) (by omega))
    rw [testBit_lt_two_pow this, Bool.or_false]

/-- A page-aligned physical address that fits an entry. -/
structure PageAddr (pa : Nat) : Prop where
  aligned : pa % PGSIZE = 0
  lt : pa < 2 ^ 56

section Entry

variable {pa perm : Nat}

theorem pte_split (hperm : perm < 2 ^ 10) :
    mkPte pa perm = 2 ^ 10 * (pa / PGSIZE) + (perm ||| PTE_V) := by
  have hpa : PA2PTE pa = 2 ^ 10 * (pa / PGSIZE) + 0 := by
    unfold PA2PTE
    rw [shiftRight_eq_div_pow, shiftLeft_eq, Nat.mul_comm, Nat.add_zero]
  unfold mkPte
  rw [hpa, or_split _ (by decide) hperm, zero_or, or_split _ hperm (by decide)]

theorem flags_lt (hperm : perm < 2 ^ 10) : perm ||| PTE_V < 2 ^ 10 :=
  or_lt_two_pow hperm (by decide)

theorem mkPte_lt (h : PageAddr pa) (hperm : perm < 2 ^ 10) : mkPte pa perm < 2 ^ 64 := by
  rw [pte_split hperm]
  have := flags_lt hperm
  have := h.lt
  simp only [PGSIZE] at *
  omega

theorem PTE2PA_mkPte (h : PageAddr pa) (hperm : perm < 2 ^ 10) : PTE2PA (mkPte pa perm) = pa := by
  rw [pte_split hperm, PTE2PA, shiftRight_eq_div_pow, shiftLeft_eq,
    mul_add_div (by decide), div_eq_of_lt (flags_lt hperm)]
  have h1 := h.aligned
  have h2 := h.lt
  simp only [PGSIZE] at *
  omega

theorem PTE_FLAGS_mkPte (hperm : perm < 2 ^ 10) : PTE_FLAGS (mkPte pa perm) = perm ||| PTE_V := by
  have h : (0x3FF : Nat) = 2 ^ 10 * 0 + (2 ^ 10 - 1) := by decide
  rw [pte_split hperm, PTE_FLAGS, h, and_split _ _ (flags_lt hperm) (by decide), and_zero,
    and_two_pow_sub_one_eq_mod, mod_eq_of_lt (flags_lt hperm), Nat.mul_zero, Nat.zero_add]

theorem mkPte_and {g : Nat} (hperm : perm < 2 ^ 10) (hg : g < 2 ^ 10) :
    mkPte pa perm &&& g = (perm ||| PTE_V) &&& g := by
  have h : g = 2 ^ 10 * 0 + g := by omega
  conv_lhs => rw [pte_split hperm, h, and_split _ _ (flags_lt hperm) hg]
  simp

theorem mkPte_valid (hperm : perm < 2 ^ 10) : mkPte pa perm &&& PTE_V = PTE_V := by
  rw [mkPte_and hperm (by decide)]
  refine eq_of_testBit_eq fun i => ?_
  rw [testBit_and, testBit_or]
  cases perm.testBit i <;> cases (PTE_V).testBit i <;> rfl

theorem clearUser_mkPte (h : PageAddr pa) (hperm : perm < 2 ^ 10) :
    clearUser (mkPte pa perm) = mkPte pa (perm &&& (2 ^ 10 - 1 - PTE_U)) := by
  have hmask : 2 ^ 64 - 1 - PTE_U = 2 ^ 10 * (2 ^ 54 - 1) + (2 ^ 10 - 1 - PTE_U) := by decide
  have hpage : pa / PGSIZE &&& (2 ^ 54 - 1) = pa / PGSIZE := by
    rw [and_two_pow_sub_one_eq_mod, mod_eq_of_lt]
    have := h.lt
    simp only [PGSIZE] at *
    omega
  have hperm' : perm &&& (2 ^ 10 - 1 - PTE_U) < 2 ^ 10 := lt_of_le_of_lt and_le_left hperm
  rw [clearUser, pte_split hperm, pte_split hperm', hmask, and_split _ _ (flags_lt hperm)
    (by decide),
    hpage, and_or_distrib_right]
  rfl

end Entry

end Xv6
