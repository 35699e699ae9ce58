import Mathlib.Data.Nat.Digits.Defs

/-!
# Numbers in `printf`

`kernel/printf.c` and `user/printf.c` have each a `printint` and a `printptr`,
alike but for their `digits`. `printint` fills `buf[16]` from the last digit on
and prints it backwards; a store beyond the buffer gives no text here, so
wherever there is a text the buffer was long enough.
-/

namespace Xv6

open Nat
namespace Printf

/-- The loop of `printint`, with so much room left in `buf`. -/
def fill (digits : List Char) (base : Nat) : (room x : Nat) → List Char → Option (List Char)
  | 0, _, _ => none
  | room + 1, x, buf =>
    let buf := buf ++ [digits.getD (x % base) '\x00']
    if x / base ≠ 0 then fill digits base room (x / base) buf else some buf

def printint (digits : List Char) (xx : BitVec 32) (base : Nat) (sign : Bool) :
    Option (List Char) := do
  let neg := sign && xx.msb
  -- the least `int` is its own negation, which is right as a `uint`
  let x := if neg then -xx else xx
  let buf ← fill digits base 16 x.toNat []
  if neg then
    if buf.length < 16 then some (buf ++ ['-']).reverse else none
  else some buf.reverse

/-- The loop of `printptr`: the upper four bits, and `x <<= 4`. -/
def shiftOut (digits : List Char) : Nat → BitVec 64 → List Char
  | 0, _ => []
  | n + 1, x => digits.getD (x >>> 60).toNat '\x00' :: shiftOut digits n (x <<< 4)

def printptr (digits : List Char) (x : BitVec 64) : List Char := '0' :: 'x' :: shiftOut digits 16 x

section Formats

-- the strings in memory
variable (str : BitVec 64 → List Char)

def prints (s : BitVec 64) : List Char := if s = 0 then "(null)".toList else str s

def Kernel.digits : List Char := "0123456789abcdef".toList

/-- A conversion in `printf`: what it prints, and the arguments that are
    left. -/
def Kernel.conversion :
    Char → (ap : List (BitVec 64)) → Option (List Char × List (BitVec 64))
  | 'd', a :: ap => (printint digits (a.setWidth 32) 10 true).map (·, ap)
  | 'x', a :: ap => (printint digits (a.setWidth 32) 16 true).map (·, ap)
  | 'p', a :: ap => some (printptr digits a, ap)
  | 's', a :: ap => some (prints str a, ap)
  | 'd', [] | 'x', [] | 'p', [] | 's', [] => none
  | '%', ap => some (['%'], ap)
  | c, ap => some (['%', c], ap)

def Kernel.printf : (fmt : List Char) → (ap : List (BitVec 64)) → Option (List Char)
  | [], _ | ['%'], _ => some []
  | '%' :: c :: fmt, ap => do
    let (out, ap) ← conversion str c ap
    return out ++ (← printf fmt ap)
  | c :: fmt, ap => return c :: (← printf fmt ap)

def User.digits : List Char := "0123456789ABCDEF".toList

def User.conversion : Char → (ap : List (BitVec 64)) → Option (List Char × List (BitVec 64))
  | 'd', a :: ap => (printint digits (a.setWidth 32) 10 true).map (·, ap)
  -- a `uint64` for a parameter that is an `int`
  | 'l', a :: ap => (printint digits (a.setWidth 32) 10 false).map (·, ap)
  | 'x', a :: ap => (printint digits (a.setWidth 32) 16 false).map (·, ap)
  | 'p', a :: ap => some (printptr digits a, ap)
  | 's', a :: ap => some (prints str a, ap)
  | 'c', a :: ap => some ([.ofNat (a.toNat % 2 ^ 8)], ap)
  | 'd', [] | 'l', [] | 'x', [] | 'p', [] | 's', [] | 'c', [] => none
  | '%', ap => some (['%'], ap)
  | c, ap => some (['%', c], ap)

/-- `vprintf`; `state` is whether the last character was a `%`. -/
def User.vprintf (state : Bool) : (fmt : List Char) → (ap : List (BitVec 64)) → Option (List Char)
  | [], _ => some []
  | c :: fmt, ap =>
    if state then do
      let (out, ap) ← conversion str c ap
      return out ++ (← vprintf false fmt ap)
    else if c = '%' then vprintf true fmt ap
    else return c :: (← vprintf false fmt ap)

variable (a : BitVec 64)

/-- What `printf` prints of `a` for one conversion. -/
def Kernel.text (c : Char) : Option (List Char) := printf str ['%', c] [a]

def User.text (c : Char) : Option (List Char) := vprintf str false ['%', c] [a]

variable {str a} {c : Char} {out : List Char}

theorem Kernel.text_eq (h : conversion str c [a] = some (out, [])) : text str a c = some out := by
  simp [text, printf, h]

theorem User.text_eq (h : conversion str c [a] = some (out, [])) : text str a c = some out := by
  simp [text, vprintf, h]

end Formats

/-! ## `printint` -/

section Int

variable {digits : List Char} {base : Nat} {f : Char → Char}
  (hdigits : ∀ d < base, digits.getD d '\x00' = f d.digitChar) (hbase : 10 ≤ base)

include hdigits hbase

theorem fill_eq {room x : Nat} (buf : List Char) (hx : x < base ^ room) (hroom : 0 < room) :
    fill digits base room x buf = some (buf ++ ((Nat.toDigits base x).map f).reverse) := by
  induction room generalizing x buf with
  | zero => cases hroom
  | succ room ih =>
    rw [fill, toDigits_eq_if (by omega), hdigits _ (mod_lt _ (by omega))]
    by_cases hlt : x < base
    · simp [div_eq_of_lt hlt, mod_eq_of_lt hlt, hlt]
    · have hdiv : x / base < base ^ room := Nat.div_lt_of_lt_mul (by rwa [pow_succ'] at hx)
      have hpos : 0 < x / base := Nat.div_pos (by omega) (by omega)
      have hroom : 0 < room := by
        by_contra h0
        obtain rfl : room = 0 := by omega
        rw [pow_zero] at hdiv
        omega
      simp [hlt, hpos.ne', ih _ hdiv hroom]

/-- **`printint`** prints the sign, if it has to, and the numeral. -/
theorem printint_eq (xx : BitVec 32) (sign : Bool) : printint digits xx base sign =
    some (if sign && xx.msb then '-' :: (Nat.toDigits base (-xx).toNat).map f
      else (Nat.toDigits base xx.toNat).map f) := by
  have hlt : ∀ x : BitVec 32, x.toNat < base ^ 10 := fun x =>
    x.isLt.trans_le ((by decide : 2 ^ 32 ≤ 10 ^ 10).trans (Nat.pow_le_pow_left hbase 10))
  have hfill : ∀ x : BitVec 32, fill digits base 16 x.toNat [] =
      some (((toDigits base x.toNat).map f).reverse) := fun x =>
    fill_eq hdigits hbase [] ((hlt x).trans (Nat.pow_lt_pow_right (by omega) (by decide)))
      (by decide)
  have hlen := toDigits_length base (-xx).toNat 10 (by decide) (hlt _)
  have hroom : (toDigits base (-xx).toNat).length < 16 := by omega
  unfold printint
  cases sign && xx.msb with
  | false => simp [hfill]
  | true => simp [hfill, hroom, -BitVec.toNat_neg]

end Int

/-! ## `printptr` -/

/-- All sixteen digits of a 64-bit number. -/
def hex16 (n : Nat) : List Char :=
  (List.range' 0 16).map fun k => (n / 16 ^ (15 - k) % 16).digitChar

section Ptr

variable {digits : List Char} {f : Char → Char}
  (hdigits : ∀ d < 16, digits.getD d '\x00' = f d.digitChar) (x : BitVec 64)

include hdigits

theorem shiftOut_eq {n k : Nat} (h : k + n = 16) : shiftOut digits n (x <<< (4 * k)) =
    ((List.range' k n).map fun k => (x.toNat / 16 ^ (15 - k) % 16).digitChar).map f := by
  induction n generalizing k with
  | zero => rfl
  | succ n ih =>
    have hsplit : 2 ^ 60 = 2 ^ (4 * k) * 16 ^ (15 - k) := by
      rw [show 16 = 2 ^ 4 from rfl, ← pow_mul, ← pow_add]
      congr 1
      omega
    have htop : (x <<< (4 * k) >>> 60).toNat = x.toNat / 16 ^ (15 - k) % 16 := by
      rw [BitVec.toNat_ushiftRight, BitVec.toNat_shiftLeft, shiftLeft_eq,
        shiftRight_eq_div_pow, show 2 ^ 64 = 2 ^ 60 * 16 from rfl, hsplit, Nat.mul_comm x.toNat,
        Nat.mul_assoc, mul_mod_mul_left, Nat.mul_div_mul_left _ _ (by positivity),
        mod_mul_right_div_self]
    rw [shiftOut, htop, hdigits _ (mod_lt _ (by decide)), ← BitVec.shiftLeft_add,
      show 4 * k + 4 = 4 * (k + 1) from rfl, ih (by omega)]
    rfl

/-- **`printptr`** prints `0x` and the digits. -/
theorem printptr_eq : printptr digits x = '0' :: 'x' :: (hex16 x.toNat).map f := by
  have h := shiftOut_eq hdigits x (show 0 + 16 = 16 from rfl)
  rw [Nat.mul_zero, BitVec.shiftLeft_zero] at h
  rw [printptr, h]
  rfl

end Ptr

/-! ## The numbers that are printed -/

/-- The decimal numeral of an integer. -/
def decimal (z : Int) : List Char :=
  if z < 0 then '-' :: Nat.toDigits 10 z.natAbs else Nat.toDigits 10 z.natAbs

theorem decimal_toInt (x : BitVec 32) : decimal x.toInt =
    if x.msb then '-' :: Nat.toDigits 10 (-x).toNat else Nat.toDigits 10 x.toNat := by
  have hmsb := x.toInt_eq_msb_cond
  have hlt := x.isLt
  unfold decimal
  cases hx : x.msb with
  | false =>
    rw [hx, if_neg Bool.false_ne_true] at hmsb
    rw [hmsb, if_neg (by omega), if_neg Bool.false_ne_true, Int.natAbs_natCast]
  | true =>
    have hge := BitVec.msb_eq_true_iff_two_mul_ge.mp hx
    rw [hx, if_pos rfl] at hmsb
    rw [if_pos (by omega), if_pos rfl, BitVec.toNat_neg]
    congr 2
    omega

theorem minus_not_mem_toDigits (n : Nat) : '-' ∉ Nat.toDigits 16 n := by
  induction n using Nat.strong_induction_on with
  | _ n ih =>
    have hne : ∀ d < 16, '-' ≠ digitChar d := by decide
    rw [toDigits_eq_if (by decide)]
    split
    · rename_i hlt
      simp [hne n hlt]
    · simp [ih (n / 16) (by omega), hne _ (mod_lt n (show 0 < 16 by decide))]

/-- **What is printed.** `%d` prints the decimal numeral, `%p` the sixteen
    digits and the user's `%x` the digits of the value as a `uint`, and no
    number overruns the buffer. The kernel's `%x` prints the same digits exactly
    if the argument is not negative as an `int`, and `%l` the decimal numeral
    exactly if the number has 32 bits. -/
theorem numbers_printed_iff (str : BitVec 64 → List Char) (a : BitVec 64) :
    (Kernel.text str a 'd' = some (decimal (a.setWidth 32).toInt) ∧
      User.text str a 'd' = some (decimal (a.setWidth 32).toInt) ∧
      User.text str a 'x' = some ((Nat.toDigits 16 (a.setWidth 32).toNat).map Char.toUpper) ∧
      Kernel.text str a 'p' = some ('0' :: 'x' :: hex16 a.toNat) ∧
      User.text str a 'p' = some ('0' :: 'x' :: (hex16 a.toNat).map Char.toUpper) ∧
      (Kernel.text str a 'x').isSome ∧ (User.text str a 'l').isSome) ∧
    (Kernel.text str a 'x' = some (Nat.toDigits 16 (a.setWidth 32).toNat) ↔
      (a.setWidth 32).toNat < 2 ^ 31) ∧
    (User.text str a 'l' = some (Nat.toDigits 10 a.toNat) ↔ a.toNat < 2 ^ 32) := by
  have hkernel : ∀ d < 16, Kernel.digits.getD d '\x00' = id d.digitChar := by decide
  have huser : ∀ d < 16, User.digits.getD d '\x00' = d.digitChar.toUpper := by decide
  have huser10 : ∀ d < 10, User.digits.getD d '\x00' = id d.digitChar := by decide
  have hkx : Kernel.text str a 'x' = some (if (a.setWidth 32).msb then
      '-' :: Nat.toDigits 16 (-a.setWidth 32).toNat
        else Nat.toDigits 16 (a.setWidth 32).toNat) := by
    refine Kernel.text_eq ?_
    rw [Kernel.conversion, printint_eq hkernel (by decide), List.map_id, List.map_id]
    rfl
  have hul : User.text str a 'l' = some (Nat.toDigits 10 (a.setWidth 32).toNat) := by
    refine User.text_eq ?_
    rw [User.conversion, printint_eq huser10 le_rfl, List.map_id, List.map_id]
    rfl
  refine ⟨⟨Kernel.text_eq ?_, User.text_eq ?_, User.text_eq ?_, Kernel.text_eq ?_, User.text_eq ?_,
    by rw [hkx]; rfl, by rw [hul]; rfl⟩, ?_, ?_⟩
  · rw [Kernel.conversion, printint_eq (fun d hd => hkernel d (by omega)) le_rfl, decimal_toInt,
      List.map_id, List.map_id]
    rfl
  · rw [User.conversion, printint_eq huser10 le_rfl, decimal_toInt, List.map_id, List.map_id]
    rfl
  · rw [User.conversion, printint_eq huser (by decide)]
    rfl
  · rw [Kernel.conversion, printptr_eq hkernel, List.map_id]
  · rw [User.conversion, printptr_eq huser]
  · rw [hkx]
    split
    · rename_i hmsb
      have := BitVec.msb_eq_true_iff_two_mul_ge.mp hmsb
      refine iff_of_false (fun h => minus_not_mem_toDigits (a.setWidth 32).toNat ?_) (by omega)
      rw [← Option.some.inj h]
      exact List.mem_cons_self
    · rename_i hmsb
      have := BitVec.msb_eq_false_iff_two_mul_lt.mp (Bool.not_eq_true _ ▸ hmsb)
      exact iff_of_true rfl (by omega)
  · rw [hul]
    refine ⟨fun h => ?_, fun h => by rw [BitVec.toNat_setWidth, Nat.mod_eq_of_lt h]⟩
    have hval := congrArg (Nat.ofDigitChars 10 · 0) (Option.some.inj h)
    simp only [Nat.ofDigitChars_ten_toDigits] at hval
    exact hval ▸ (a.setWidth 32).isLt

/-- **`%x` of -1 and `%l` of 2 ^ 32**: a minus sign, and nothing but the lower
    half. -/
theorem printed_otherwise : Kernel.text (fun _ => []) 0xffffffff 'x' = some ['-', '1'] ∧
    User.text (fun _ => []) 0x100000000 'l' = some ['0'] := by
  decide

end Printf
end Xv6
