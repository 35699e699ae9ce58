import Xv6.Lib.Bytes

/-!
# Words and bits in a buffer

Arrays of 32-bit words, single bits, and byte strings in a buffer, with the laws
of `Lib.Bytes`: what was stored is read back, and what lies elsewhere stays.
-/

namespace Xv6

open Nat
namespace Bytes

/-! ## Arrays of words -/

/-- Store 32-bit words one after the other from offset `o` on. -/
def setWords (m : Bytes) (o : Nat) : List Nat → Bytes
  | [] => m
  | w :: ws => setWords (m.setLE o 4 w) (o + 4) ws

variable {a k n o : Nat} {m : Bytes} {ws : List Nat}

theorem setWords_outside (h : a < o ∨ o + 4 * ws.length ≤ a) : setWords m o ws a = m a := by
  induction ws generalizing m o with
  | nil => rfl
  | cons w ws ih =>
    rw [List.length_cons] at h
    rw [setWords, ih (by omega), setLE_outside (by omega)]

theorem getLE_setWords_disjoint {o' : Nat}
    (h : o + 4 * ws.length ≤ o' ∨ o' + k ≤ o) : (setWords m o ws).getLE o' k = m.getLE o' k :=
  getLE_congr fun _ _ _ => setWords_outside (by omega)

/-- **Reading a word back.** -/
theorem getLE_setWords {j : Nat} (hj : j < ws.length) :
    (setWords m o ws).getLE (o + 4 * j) 4 = ws[j] % 2 ^ 32 := by
  induction ws generalizing m o j with
  | nil => cases hj
  | cons w ws ih =>
    rw [setWords]
    cases j with
    | zero =>
      rw [getLE_setWords_disjoint (by omega)]
      exact getLE_setLE_same m o 4 w
    | succ j =>
      have hlt : j < ws.length := lt_of_succ_lt_succ hj
      have hoff : o + 4 * (j + 1) = o + 4 + 4 * j := by omega
      rw [hoff, ih hlt]
      rfl

/-! ## Bits -/

/-- Bit `i % 8` of byte `i / 8`. -/
def testBit (m : Bytes) (i : Nat) : Bool := (m (i / 8)).toNat.testBit (i % 8)

/-- `m[i/8] |= 1 << (i%8)` -/
def setBit (m : Bytes) (i : Nat) : Bytes := fun a =>
  if a = i / 8 then m a ||| UInt8.ofNat (1 <<< (i % 8)) else m a

/-- `m[i/8] &= ~(1 << (i%8))` -/
def clearBit (m : Bytes) (i : Nat) : Bytes := fun a =>
  if a = i / 8 then m a &&& ~~~ UInt8.ofNat (1 <<< (i % 8)) else m a

theorem toNat_mask (hk : k < 8) : (UInt8.ofNat (1 <<< k)).toNat = 2 ^ k := by
  have h : 2 ^ k ≤ 2 ^ 7 := Nat.pow_le_pow_right (by decide) (by omega)
  rw [UInt8.toNat_ofNat', shiftLeft_eq, Nat.one_mul, mod_eq_of_lt]
  omega

theorem testBit_setBit (m : Bytes) (i j : Nat) :
    (m.setBit i).testBit j = (m.testBit j || decide (j = i)) := by
  unfold testBit setBit
  by_cases hb : j / 8 = i / 8
  · rw [if_pos hb, UInt8.toNat_or, testBit_or, toNat_mask (mod_lt _ (by decide)),
      testBit_two_pow]
    congr 1
    exact decide_eq_decide.mpr (by omega)
  · rw [if_neg hb]
    have hne : j ≠ i := fun e => hb (by rw [e])
    simp [hne]

theorem testBit_not_mask {j : Nat} (hk : k < 8) (hj : j < 8) :
    (~~~ UInt8.ofNat (1 <<< k)).toNat.testBit j = decide (j ≠ k) := by
  have hall : ∀ k < 8, ∀ j < 8,
      (~~~ UInt8.ofNat (1 <<< k)).toNat.testBit j = decide (j ≠ k) := by decide
  exact hall k hk j hj

theorem testBit_clearBit (m : Bytes) (i j : Nat) :
    (m.clearBit i).testBit j = (m.testBit j && decide (j ≠ i)) := by
  unfold testBit clearBit
  by_cases hb : j / 8 = i / 8
  · rw [if_pos hb, UInt8.toNat_and, testBit_and,
      testBit_not_mask (mod_lt _ (by decide)) (mod_lt _ (by decide))]
    congr 1
    exact decide_eq_decide.mpr (by omega)
  · rw [if_neg hb]
    have hne : j ≠ i := fun e => hb (by rw [e])
    simp [hne]

theorem ext_testBit {m' : Bytes} (h : ∀ j, m.testBit j = m'.testBit j) : m = m' := by
  funext a
  apply UInt8.toNat_inj.mp
  apply eq_of_testBit_eq
  intro i
  by_cases hi : i < 8
  · have hj := h (8 * a + i)
    unfold testBit at hj
    rwa [show (8 * a + i) / 8 = a by omega, show (8 * a + i) % 8 = i by omega] at hj
  · have hbig : 2 ^ 8 ≤ 2 ^ i := Nat.pow_le_pow_right (by decide) (by omega)
    rw [testBit_lt_two_pow ((m a).toNat_lt.trans_le hbig),
      testBit_lt_two_pow ((m' a).toNat_lt.trans_le hbig)]

theorem clearBit_setBit {i : Nat} (h : m.testBit i = false) : (m.setBit i).clearBit i = m := by
  apply ext_testBit
  intro j
  rw [testBit_clearBit, testBit_setBit]
  by_cases hj : j = i
  · simp [hj, h]
  · simp [hj]

/-! ## Strings -/

/-- A byte string, followed by zeroes. -/
def ofList (l : List UInt8) : Bytes := fun a => l.getD a 0

/-- The `n` bytes from offset `o` on. -/
def slice (m : Bytes) (o n : Nat) : List UInt8 := (List.range n).map fun j => m (o + j)

@[simp] theorem length_slice (m : Bytes) (o n : Nat) : (m.slice o n).length = n := by
  simp [slice]

/-! ## Copies -/

theorem blit_outside {src : Bytes} {so : Nat} (h : a < o ∨ o + n ≤ a) :
    m.blit o src so n a = m a := if_neg (by omega)

theorem blit_inside {src : Bytes} {so : Nat} (h1 : o ≤ a) (h2 : a < o + n) :
    m.blit o src so n a = src (so + (a - o)) := if_pos ⟨h1, h2⟩

theorem fill_outside {c : UInt8} (h : a < o ∨ o + n ≤ a) : m.fill o n c a = m a := if_neg (by omega)

theorem fill_inside {c : UInt8} (h1 : o ≤ a) (h2 : a < o + n) :
    m.fill o n c a = c := if_pos ⟨h1, h2⟩

end Bytes
end Xv6
