import Mathlib.Data.Finset.Card

/-!
# Who owns an allocated cell

Cells are numbered, those below `lo` are reserved, and `bit` says which of the
cells below `hi` are allocated. `R` gives the cell that each of many sites
refers to, 0 for none. `Owns` says that the two agree: an allocated cell is
reserved or referred to from exactly one site, and nothing else is allocated.
`pend` is a cell that has been allocated and is not referred to yet.

Allocation, recording and release of a cell are functions on `bit` and `R`, and
each keeps `Owns`.
-/

namespace Xv6

open Function Finset

variable {ι : Type}

structure Owns (lo hi : Nat) (bit : Nat → Bool) (R : ι → Nat) (pend : Option Nat) : Prop where
  range : ∀ x, R x ≠ 0 → lo ≤ R x ∧ R x < hi
  inj : ∀ x y, R x ≠ 0 → R x = R y → x = y
  bits : ∀ b < hi, bit b = true ↔ b < lo ∨ (∃ x, R x ≠ 0 ∧ R x = b) ∨ pend = some b
  fresh : ∀ b, pend = some b → lo ≤ b ∧ b < hi ∧ ∀ x, R x ≠ b

namespace Owns

variable {lo hi : Nat} {bit bit' : Nat → Bool} {R R' : ι → Nat} {pend : Option Nat}

theorem congr (h : Owns lo hi bit R pend) (hbit : ∀ b < hi, bit' b = bit b)
    (hR : ∀ x, R' x = R x) : Owns lo hi bit' R' pend := by
  have he : R' = R := funext hR
  subst he
  exact ⟨h.range, h.inj, fun b hb => by rw [hbit b hb]; exact h.bits b hb, h.fresh⟩

variable {b : Nat} {x : ι}

theorem bit_of_ref (h : Owns lo hi bit R pend) (hx : R x ≠ 0) : bit (R x) = true :=
  (h.bits _ (h.range x hx).2).mpr (.inr (.inl ⟨x, hx, rfl⟩))

/-- A cell that is not allocated is neither reserved nor referred to. -/
theorem of_clear (h : Owns lo hi bit R pend) (hb : b < hi) (hbit : bit b = false) :
    lo ≤ b ∧ ∀ x, R x ≠ 0 → R x ≠ b := by
  have hno : ¬ (b < lo ∨ (∃ x, R x ≠ 0 ∧ R x = b) ∨ pend = some b) := by
    rw [← h.bits b hb, hbit]
    exact nofun
  rw [not_or, not_or, not_exists] at hno
  exact ⟨not_lt.mp hno.1, fun x hx he => hno.2.1 x ⟨hx, he⟩⟩

/-- **Allocation** of a cell that was free. -/
theorem take (hlo : 0 < lo) (h : Owns lo hi bit R none) (hb : b < hi)
    (hbit : bit b = false) : Owns lo hi (update bit b true) R (some b) := by
  obtain ⟨hge, hno⟩ := h.of_clear hb hbit
  refine ⟨h.range, h.inj, fun c hc => ?_, fun c hc => ?_⟩
  · by_cases hcb : c = b
    · subst hcb
      rw [update_self]
      exact iff_of_true rfl (.inr (.inr rfl))
    · rw [update_of_ne hcb, h.bits c hc]
      have hne : (some b = some c) ↔ False := by
        simp only [Option.some.injEq, iff_false]
        exact fun e => hcb e.symm
      have hnone : ((none : Option Nat) = some c) ↔ False := by simp
      rw [hne, hnone]
  · obtain rfl : b = c := Option.some.inj hc
    refine ⟨hge, hb, fun x hx => ?_⟩
    by_cases h0 : R x = 0
    · omega
    · exact hno x h0 hx

/-- **Recording**: a site that referred to nothing takes the new cell. -/
theorem record [DecidableEq ι] (hlo : 0 < lo) (h : Owns lo hi bit R (some b))
    (hx : R x = 0) : Owns lo hi bit (update R x b) none := by
  obtain ⟨hge, hlt, hno⟩ := h.fresh b rfl
  refine ⟨fun y hy => ?_, fun y z hy he => ?_, fun c hc => ?_, nofun⟩
  · by_cases hyx : y = x
    · subst hyx
      rw [update_self]
      exact ⟨hge, hlt⟩
    · rw [update_of_ne hyx] at hy ⊢
      exact h.range y hy
  · by_cases hyx : y = x
    · subst hyx
      rw [update_self] at he
      by_contra hzy
      rw [update_of_ne (Ne.symm hzy)] at he
      exact hno z he.symm
    · rw [update_of_ne hyx] at hy he
      by_cases hzx : z = x
      · subst hzx
        rw [update_self] at he
        exact absurd he (hno y)
      · rw [update_of_ne hzx] at he
        exact h.inj y z hy he
  · rw [h.bits c hc]
    constructor
    · rintro (hc | ⟨y, hy, he⟩ | hp)
      · exact .inl hc
      · refine .inr (.inl ⟨y, ?_⟩)
        have hyx : y ≠ x := fun e => hy (e ▸ hx)
        rw [update_of_ne hyx]
        exact ⟨hy, he⟩
      · obtain rfl : b = c := Option.some.inj hp
        refine .inr (.inl ⟨x, ?_⟩)
        rw [update_self]
        exact ⟨by omega, rfl⟩
    · rintro (hc | ⟨y, hy, he⟩ | hp)
      · exact .inl hc
      · by_cases hyx : y = x
        · subst hyx
          rw [update_self] at he
          exact .inr (.inr (by rw [he]))
        · rw [update_of_ne hyx] at hy he
          exact .inr (.inl ⟨y, hy, he⟩)
      · cases hp

/-- **Release**: the cell of a site is freed and the site refers to nothing. -/
theorem release [DecidableEq ι] (h : Owns lo hi bit R none) (hx : R x ≠ 0) :
    Owns lo hi (update bit (R x) false) (update R x 0) none := by
  have hkeep : ∀ {y}, update R x 0 y ≠ 0 →
      y ≠ x ∧ R y ≠ 0 ∧ update R x 0 y = R y := by
    intro y hy
    by_cases hyx : y = x
    · rw [hyx, update_self] at hy
      exact absurd rfl hy
    · rw [update_of_ne hyx] at hy ⊢
      exact ⟨hyx, hy, rfl⟩
  refine ⟨fun y hy => ?_, fun y z hy he => ?_, fun c hc => ?_, nofun⟩
  · obtain ⟨_, hy', he⟩ := hkeep hy
    rw [he]
    exact h.range y hy'
  · obtain ⟨_, hy', he'⟩ := hkeep hy
    have hz : update R x 0 z ≠ 0 := he ▸ hy
    rw [he', (hkeep hz).2.2] at he
    exact h.inj y z hy' he
  · by_cases hcx : c = R x
    · subst hcx
      rw [update_self]
      refine iff_of_false (by decide) ?_
      rintro (hc' | ⟨y, hy, he⟩ | hp)
      · have := (h.range x hx).1
        omega
      · obtain ⟨hyx, hy', he'⟩ := hkeep hy
        rw [he'] at he
        exact hyx (h.inj y x hy' he)
      · cases hp
    · rw [update_of_ne hcx, h.bits c hc]
      constructor
      · rintro (hc' | ⟨y, hy, he⟩ | hp)
        · exact .inl hc'
        · have hyx : y ≠ x := fun e => hcx (by rw [← he, e])
          refine .inr (.inl ⟨y, ?_⟩)
          rw [update_of_ne hyx]
          exact ⟨hy, he⟩
        · cases hp
      · rintro (hc' | ⟨y, hy, he⟩ | hp)
        · exact .inl hc'
        · obtain ⟨_, hy', he'⟩ := hkeep hy
          rw [he'] at he
          exact .inr (.inl ⟨y, hy', he⟩)
        · cases hp

end Owns

/-! ## The cells that are free -/

/-- The cells that are not allocated, in order. -/
def freeList (hi : Nat) (bit : Nat → Bool) : List Nat :=
  (List.range hi).filter fun b => bit b = false

/-- Their number. -/
def freeCells (hi : Nat) (bit : Nat → Bool) : Nat := (freeList hi bit).length

variable {bit : Nat → Bool} {hi : Nat}

theorem freeList_congr {bit' : Nat → Bool} (h : ∀ b < hi, bit' b = bit b) :
    freeList hi bit' = freeList hi bit := by
  refine List.filter_congr fun b hb => ?_
  rw [h b (List.mem_range.mp hb)]

theorem freeCells_congr {bit' : Nat → Bool} (h : ∀ b < hi, bit' b = bit b) :
    freeCells hi bit' = freeCells hi bit :=
  congrArg List.length (freeList_congr h)

/-- The first cell of the list is allocated. -/
theorem freeList_take {b : Nat} (hb : b < hi) (hbit : bit b = false)
    (hfirst : ∀ c < b, bit c = true) :
    freeList hi bit = b :: freeList hi (update bit b true) := by
  have hsplit : List.range hi = List.range b ++ b :: List.range' (b + 1) (hi - (b + 1)) := by
    rw [List.range_eq_range', List.range_eq_range', ← List.range'_succ, ← Nat.sub_sub,
      Nat.sub_add_cancel (Nat.sub_pos_of_lt hb)]
    have h := List.range'_append_1 (s := 0) (m := b) (n := hi - b)
    rw [Nat.zero_add, Nat.add_sub_cancel' hb.le] at h
    exact h.symm
  have hbefore : ∀ f : Nat → Bool, (∀ c < b, f c = true) →
      (List.range b).filter (fun c => f c = false) = [] := by
    intro f hf
    refine List.filter_eq_nil_iff.mpr fun c hc => ?_
    simp [hf c (List.mem_range.mp hc)]
  have hafter : (List.range' (b + 1) (hi - (b + 1))).filter (fun c => update bit b true c = false) =
      (List.range' (b + 1) (hi - (b + 1))).filter fun c => bit c = false := by
    refine List.filter_congr fun c hc => ?_
    have hgt := (List.mem_range'_1.mp hc).1
    rw [update_of_ne (by omega)]
  unfold freeList
  rw [hsplit, List.filter_append, List.filter_append, hbefore bit hfirst,
    hbefore (update bit b true) fun c hc => by rw [update_of_ne hc.ne, hfirst c hc],
    List.filter_cons_of_pos (by simp [hbit]), List.filter_cons_of_neg (by simp), hafter,
    List.nil_append, List.nil_append]

theorem freeCells_eq_zero : freeCells hi bit = 0 ↔ ∀ b < hi, bit b = true := by
  unfold freeCells freeList
  rw [List.length_eq_zero_iff, List.filter_eq_nil_iff]
  simp

end Xv6
