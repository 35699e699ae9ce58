import Mathlib.Algebra.Group.Nat.Defs
import Mathlib.Logic.Function.Basic

/-!
# `memmove`, twice

The kernel's `memmove` and the one that programs are linked with choose the
direction of the copy by different comparisons. The bytes of the destination
that a loop has stored are read again only if the source comes after them in the
loop's direction: `copyUp` is right if the destination is not above the source,
`copyDown` if it is not below, and either if the two are apart.

Pointers are 64 bits wide and `src + n` wraps; a range inside the address space
may end where it does.
-/

namespace Xv6

open Function

abbrev Ptr := BitVec 64

abbrev Memory := Ptr → UInt8

/-- `while(n-- > 0) *d++ = *s++;` -/
def copyUp (m : Memory) (d s : Ptr) : Nat → Memory
  | 0 => m
  | n + 1 => copyUp (update m d (m s)) (d + 1) (s + 1) n

/-- `while(n-- > 0) *--d = *--s;` -/
def copyDown (m : Memory) (d s : Ptr) : Nat → Memory
  | 0 => m
  | n + 1 => copyDown (update m (d - 1) (m (s - 1))) (d - 1) (s - 1) n

/-- `kernel/string.c`; `n` is a `uint`. -/
def StringC.memmove (m : Memory) (dst src : Ptr) (n : BitVec 32) : Memory × Ptr :=
  if n = 0 then (m, dst)
  else if src < dst ∧ src + n.setWidth 64 > dst then
    (copyDown m (dst + n.setWidth 64) (src + n.setWidth 64) n.toNat, dst)
  else (copyUp m dst src n.toNat, dst)

/-- `user/ulib.c`; `n` is an `int`. -/
def Ulib.memmove (m : Memory) (vdst vsrc : Ptr) (n : BitVec 32) : Memory × Ptr :=
  if vsrc > vdst then (copyUp m vdst vsrc n.toInt.toNat, vdst)
  else (copyDown m (vdst + n.signExtend 64) (vsrc + n.signExtend 64) n.toInt.toNat, vdst)

/-- `m'` has the `n` bytes that `m` has at `src` at `dst`, and is `m`
    elsewhere. -/
structure MovedTo (m : Memory) (dst src : Ptr) (n : Nat) (m' : Memory) : Prop where
  copied : ∀ i < n, m' (dst + BitVec.ofNat 64 i) = m (src + BitVec.ofNat 64 i)
  others : ∀ a, (∀ i < n, a ≠ dst + BitVec.ofNat 64 i) → m' a = m a

section Loops

variable {dst src : Ptr} {n : Nat}

/-- The next byte, as the loops reach it. -/
theorem add_one_add (p : Ptr) (i : Nat) :
    p + 1 + BitVec.ofNat 64 i = p + BitVec.ofNat 64 (i + 1) := by
  bv_omega

theorem add_succ_sub_one (p : Ptr) (n : Nat) :
    p + BitVec.ofNat 64 (n + 1) - 1 = p + BitVec.ofNat 64 n := by
  bv_omega

theorem copyUp_moved (m : Memory) (hsrc : src.toNat + n ≤ 2 ^ 64) (hdst : dst.toNat + n ≤ 2 ^ 64)
    (h : dst.toNat ≤ src.toNat ∨ src.toNat + n ≤ dst.toNat) :
    MovedTo m dst src n (copyUp m dst src n) := by
  induction n generalizing m dst src with
  | zero => exact ⟨nofun, fun _ _ => rfl⟩
  | succ n ih =>
    obtain ⟨hcopied, hothers⟩ := @ih (dst + 1) (src + 1) (update m dst (m src))
      (by bv_omega) (by bv_omega) (by bv_omega)
    simp only [add_one_add] at hcopied hothers
    refine ⟨fun i hi => ?_, fun a ha => ?_⟩
    · cases i with
      | zero =>
        rw [BitVec.add_zero, BitVec.add_zero, copyUp, hothers dst fun i hi => by bv_omega,
          update_self]
      | succ i =>
        -- the store was not to a byte that is still to be read
        rw [copyUp, hcopied i (by omega), update_of_ne (by bv_omega)]
    · have hne : a ≠ dst := by simpa using ha 0 (by omega)
      rw [copyUp, hothers a fun i hi => ha (i + 1) (by omega), update_of_ne hne]

theorem copyDown_moved (m : Memory) (hsrc : src.toNat + n ≤ 2 ^ 64) (hdst : dst.toNat + n ≤ 2 ^ 64)
    (h : src.toNat ≤ dst.toNat ∨ dst.toNat + n ≤ src.toNat) :
    MovedTo m dst src n (copyDown m (dst + BitVec.ofNat 64 n) (src + BitVec.ofNat 64 n) n) := by
  induction n generalizing m with
  | zero => exact ⟨nofun, fun _ _ => rfl⟩
  | succ n ih =>
    rw [copyDown, add_succ_sub_one, add_succ_sub_one]
    obtain ⟨hcopied, hothers⟩ := ih (update m _ (m (src + BitVec.ofNat 64 n)))
      (by omega) (by omega) (by omega)
    refine ⟨fun i hi => ?_, fun a ha => ?_⟩
    · by_cases hin : i = n
      · rw [hin, hothers _ fun j hj => by bv_omega, update_self]
      · rw [hcopied i (by omega), update_of_ne (by bv_omega)]
    · rw [hothers a fun i hi => ha i (by omega), update_of_ne (ha n (by omega))]

end Loops

/-- **`memmove` is safe for overlapping ranges**, in the kernel and in user
    programs. -/
theorem memmove_overlap_safe (m : Memory) (dst src : Ptr) (n : BitVec 32)
    (hsrc : src.toNat + n.toNat ≤ 2 ^ 64) (hdst : dst.toNat + n.toNat ≤ 2 ^ 64) :
    (∃ m', StringC.memmove m dst src n = (m', dst) ∧ MovedTo m dst src n.toNat m') ∧
    (n.toNat < 2 ^ 31 →
      ∃ m', Ulib.memmove m dst src n = (m', dst) ∧ MovedTo m dst src n.toNat m') := by
  have hwidth : n.setWidth 64 = BitVec.ofNat 64 n.toNat :=
    BitVec.eq_of_toNat_eq (by simp)
  constructor
  · unfold StringC.memmove
    split
    · rename_i h0
      exact ⟨m, rfl, by rw [h0]; exact ⟨nofun, fun _ _ => rfl⟩⟩
    · rw [hwidth]
      split
      · exact ⟨_, rfl, copyDown_moved m hsrc hdst (by bv_omega)⟩
      · exact ⟨_, rfl, copyUp_moved m hsrc hdst (by bv_omega)⟩
  · intro hn
    have hint : n.toInt.toNat = n.toNat := by
      rw [BitVec.toInt_eq_toNat_of_lt (by omega), Int.toNat_natCast]
    have hext : n.signExtend 64 = BitVec.ofNat 64 n.toNat := by
      rw [BitVec.signExtend_eq_setWidth_of_msb_false, hwidth]
      exact BitVec.msb_eq_false_iff_two_mul_lt.mpr (by omega)
    unfold Ulib.memmove
    rw [hint, hext]
    split
    · exact ⟨_, rfl, copyUp_moved m hsrc hdst (by bv_omega)⟩
    · exact ⟨_, rfl, copyDown_moved m hsrc hdst (by bv_omega)⟩

/-- Three bytes, one address up. -/
theorem memmove_overlap_safe_shift : ∃ m',
    StringC.memmove (fun a => UInt8.ofNat a.toNat) 1 0 3 = (m', 1) ∧ m' 3 = 2 := by
  obtain ⟨⟨m', hrun, hmoved⟩, _⟩ := memmove_overlap_safe (fun a => UInt8.ofNat a.toNat) 1 0 3
    (by decide) (by decide)
  exact ⟨m', hrun, hmoved.copied 2 (by decide)⟩

end Xv6
