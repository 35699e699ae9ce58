import Mathlib.Data.Nat.ModEq
import Mathlib.Tactic.Ring

/-!
# Byte buffers

A buffer of the kernel — a disk block, a page of memory — is a function from
offsets to bytes. Fixed-width fields are little-endian numbers in it: `getLE m o
k` reads the `k` bytes at `o`, `setLE m o k v` stores the low `k` bytes of `v`
there. What the code relies on is the two laws of a field: reading it back, and
not disturbing a field that does not overlap it.

Fields are natural numbers below `256 ^ k`; a signed reading is `toInt`.
-/

namespace Xv6

/-- A buffer, by offset. -/
abbrev Bytes := Nat → UInt8

namespace Bytes

/-- All zeroes. -/
def zero : Bytes := fun _ => 0

/-- The `k`-byte little-endian number at offset `o`. -/
def getLE (m : Bytes) (o : Nat) : Nat → Nat
  | 0 => 0
  | k + 1 => (m o).toNat + 256 * getLE m (o + 1) k

/-- Store the low `k` bytes of `v` at offset `o`. -/
def setLE (m : Bytes) (o k v : Nat) : Bytes := fun a =>
  if o ≤ a ∧ a < o + k then UInt8.ofNat (v / 256 ^ (a - o)) else m a

/-- `memset(m + o, c, n)` -/
def fill (m : Bytes) (o n : Nat) (c : UInt8) : Bytes := fun a =>
  if o ≤ a ∧ a < o + n then c else m a

/-- `memmove(m + o, src + so, n)` between two buffers -/
def blit (m : Bytes) (o : Nat) (src : Bytes) (so n : Nat) : Bytes := fun a =>
  if o ≤ a ∧ a < o + n then src (so + (a - o)) else m a

/-! ## Reading -/

theorem getLE_succ (m : Bytes) (o k : Nat) :
    getLE m o (k + 1) = (m o).toNat + 256 * getLE m (o + 1) k := rfl

theorem getLE_lt (m : Bytes) (o k : Nat) : getLE m o k < 256 ^ k := by
  induction k generalizing o with
  | zero => exact Nat.one_pos
  | succ k ih =>
    have h1 := ih (o + 1)
    have h2 := (m o).toNat_lt
    rw [getLE_succ, pow_succ]
    omega

theorem getLE_congr {m m' : Bytes} {o k : Nat} (h : ∀ a, o ≤ a → a < o + k → m a = m' a) :
    getLE m o k = getLE m' o k := by
  induction k generalizing o with
  | zero => rfl
  | succ k ih =>
    rw [getLE_succ, getLE_succ, h o (by omega) (by omega),
      ih fun a h1 h2 => h a (by omega) (by omega)]

theorem getLE_zero (o k : Nat) : getLE zero o k = 0 := by
  induction k generalizing o with
  | zero => rfl
  | succ k ih => rw [getLE_succ, ih]; rfl

/-! ## The two laws of a field -/

theorem getLE_setLE_from (m : Bytes) (o k v j i : Nat) (h : j + i = k) :
    getLE (setLE m o k v) (o + j) i = v / 256 ^ j % 256 ^ i := by
  induction i generalizing j with
  | zero => exact (Nat.mod_one _).symm
  | succ i ih =>
    have hbyte : (setLE m o k v (o + j)).toNat = v / 256 ^ j % 256 := by
      have hin : o ≤ o + j ∧ o + j < o + k := by omega
      simp [setLE, hin]
    have hdiv : v / 256 ^ (j + 1) = v / 256 ^ j / 256 := by
      rw [pow_succ, Nat.div_div_eq_div_mul]
    rw [getLE_succ, hbyte, Nat.add_assoc, ih (j + 1) (by omega), hdiv, pow_succ,
      Nat.mul_comm (256 ^ i), Nat.mod_mul]

/-- **Reading a field back.** -/
theorem getLE_setLE_same (m : Bytes) (o k v : Nat) : getLE (setLE m o k v) o k = v % 256 ^ k := by
  simpa using getLE_setLE_from m o k v 0 k (by omega)

theorem setLE_outside {m : Bytes} {o k v a : Nat} (h : a < o ∨ o + k ≤ a) :
    setLE m o k v a = m a := by
  have : ¬ (o ≤ a ∧ a < o + k) := by omega
  simp [setLE, this]

/-- **Fields that do not overlap do not disturb each other.** -/
theorem getLE_setLE_disjoint {m : Bytes} {o k v o' k' : Nat} (h : o + k ≤ o' ∨ o' + k' ≤ o) :
    getLE (setLE m o k v) o' k' = getLE m o' k' :=
  getLE_congr fun _ _ _ => setLE_outside (by omega)

theorem setLE_setLE_same (m : Bytes) (o k v w : Nat) :
    setLE (setLE m o k v) o k w = setLE m o k w := by
  funext a
  by_cases h : o ≤ a ∧ a < o + k
  · simp [setLE, h]
  · simp [setLE, h]

theorem getLE_fill_zero {m : Bytes} {o n o' k : Nat} (h1 : o ≤ o') (h2 : o' + k ≤ o + n) :
    getLE (fill m o n 0) o' k = 0 := by
  rw [getLE_congr fun a h3 h4 => (?_ : _ = zero a), getLE_zero]
  have : o ≤ a ∧ a < o + n := by omega
  simp [fill, this, zero]

/-! ## Copying -/

theorem blit_none (m : Bytes) (o : Nat) (src : Bytes) (so : Nat) : blit m o src so 0 = m := by
  funext a
  rw [blit, if_neg (by omega)]

/-- **Two pieces copied one after the other are one piece.** -/
theorem blit_blit (m : Bytes) (o : Nat) (src : Bytes) (so n j : Nat) :
    blit (blit m o src so n) (o + n) src (so + n) j = blit m o src so (n + j) := by
  funext a
  unfold blit
  by_cases h1 : o + n ≤ a ∧ a < o + n + j
  · have hidx : so + n + (a - (o + n)) = so + (a - o) := by omega
    rw [if_pos h1, if_pos (by omega), hidx]
  · rw [if_neg h1]
    by_cases h2 : o ≤ a ∧ a < o + n
    · rw [if_pos h2, if_pos (by omega)]
    · rw [if_neg h2, if_neg (by omega)]

/-! ## Signed reading -/

/-- The two's-complement value of a `w`-bit field. -/
def toInt (w : Nat) (v : Nat) : Int := if v < 2 ^ (w - 1) then v else (v : Int) - 2 ^ w

theorem toInt_of_lt {w v : Nat} (h : v < 2 ^ (w - 1)) : toInt w v = v := if_pos h

end Bytes

end Xv6
