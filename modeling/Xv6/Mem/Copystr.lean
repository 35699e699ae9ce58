import Xv6.Mem.Copy

/-!
# Copying a string from user memory

`copyinstr` takes a string page by page, with two counters to keep in step.
`copystr` is what it is for: one byte after another, until a NUL, until an
address that the program may not use, or until `max` bytes have gone. The two
are equal, also in what they leave in `dst` when they fail.
-/

namespace Xv6

open Function
open PageTree

variable {E : Env}

/-! ## A string, a byte at a time -/

/-- Copy to `dst`, from `i` on, the bytes that `get` returns. -/
def copystr (get : Nat → Option UInt8) : Nat → Nat → Bytes → Int × Bytes
  | 0, _, dst => (-1, dst)
  | max + 1, i, dst =>
    match get i with
    | none => (-1, dst)
    | some c =>
      if c = 0 then (0, update dst i 0)
      else copystr get max (i + 1) (update dst i c)

/-- The byte at `va`, if the program may read it. -/
def fetch (t : PageTree 2) (m : Nat → Bytes) (va : Nat) : Option UInt8 :=
  if Access t va then some (peek t m va) else none

/-- At `va` a string of `k` bytes and a NUL. -/
structure StringAt (t : PageTree 2) (m : Nat → Bytes) (va k : Nat) : Prop where
  access : ∀ i ≤ k, Access t (va + i)
  nul : peek t m (va + k) = 0
  before : ∀ i < k, peek t m (va + i) ≠ 0

section Copystr

variable {get : Nat → Option UInt8}

theorem copystr_result : ∀ (max i : Nat) (dst : Bytes),
    (copystr get max i dst).1 = 0 ∨ (copystr get max i dst).1 = -1
  | 0, _, _ => .inr rfl
  | max + 1, i, dst => by
    rw [copystr]
    split
    · exact .inr rfl
    · split
      · exact .inl rfl
      · exact copystr_result max (i + 1) _

/-- It writes at most `max` bytes. -/
theorem copystr_frame {a : Nat} : ∀ {max i : Nat} {dst : Bytes}, a < i ∨ i + max ≤ a →
    (copystr get max i dst).2 a = dst a
  | 0, _, _, _ => rfl
  | max + 1, i, dst, h => by
    rw [copystr]
    split
    · rfl
    · split
      · exact update_of_ne (by omega) _ _
      · rw [copystr_frame (by omega)]
        exact update_of_ne (by omega) _ _

/-- What is behind a byte that it cannot get does not matter. -/
theorem copystr_congr {get' : Nat → Option UInt8} {j : Nat} (hj : get j = none)
    (hj' : get' j = none) (hlow : ∀ i < j, get i = get' i) : ∀ {max i : Nat} {dst : Bytes}, i ≤ j →
    copystr get max i dst = copystr get' max i dst
  | 0, _, _, _ => rfl
  | max + 1, i, dst, hi => by
    rw [copystr, copystr]
    by_cases hij : i = j
    · rw [hij, hj, hj']
    · rw [hlow i (by omega)]
      split
      · rfl
      · split
        · rfl
        · exact copystr_congr hj hj' hlow (by omega)

/-- A string that fits. -/
theorem copystr_found {c : Bytes} : ∀ {k max i : Nat} {dst : Bytes}, k < max →
    (∀ n ≤ k, get (i + n) = some (c (i + n))) → c (i + k) = 0 → (∀ n < k, c (i + n) ≠ 0) →
    copystr get max i dst = (0, dst.blit i c i (k + 1)) := by
  intro k
  induction k with
  | zero =>
    intro max i dst hmax hget hnul _
    obtain ⟨max, rfl⟩ := Nat.exists_eq_add_of_lt hmax
    rw [Nat.zero_add, copystr, ← Nat.add_zero i, hget 0 le_rfl]
    dsimp only
    rw [if_pos hnul]
    congr 1
    funext a
    unfold Bytes.blit
    by_cases ha : a = i
    · subst ha
      rw [Nat.add_zero, update_self, if_pos (by omega), Nat.sub_self, ← hnul]
    · rw [update_of_ne (by omega), if_neg (by omega)]
  | succ k ih =>
    intro max i dst hmax hget hnul hbefore
    obtain ⟨max, rfl⟩ : ∃ n, max = n + 1 := ⟨max - 1, by omega⟩
    have h0 : get i = some (c i) := hget 0 (by omega)
    have hne : c i ≠ 0 := hbefore 0 (by omega)
    rw [copystr, h0]
    dsimp only
    have hshift : ∀ n, i + 1 + n = i + (n + 1) := fun n => by omega
    rw [if_neg hne, ih (by omega) (fun n hn => hshift n ▸ hget (n + 1) (by omega))
      (hshift k ▸ hnul) fun n hn => hshift n ▸ hbefore (n + 1) (by omega)]
    congr 1
    funext a
    unfold Bytes.blit
    by_cases ha : i + 1 ≤ a ∧ a < i + 1 + (k + 1)
    · have hidx : i + 1 + (a - (i + 1)) = i + (a - i) := by omega
      rw [if_pos ha, if_pos (by omega), hidx]
    · rw [if_neg ha]
      by_cases hai : a = i
      · subst hai
        rw [update_self, if_pos (by omega), Nat.sub_self]
        rfl
      · rw [update_of_ne hai, if_neg (by omega)]

/-- It succeeds only with a string. -/
theorem copystr_zero : ∀ {max i : Nat} {dst : Bytes}, (copystr get max i dst).1 = 0 →
    ∃ k < max, get (i + k) = some 0 ∧ ∀ n < k, ∃ c, get (i + n) = some c ∧ c ≠ 0
  | 0, _, _, h => by cases h
  | max + 1, i, dst, h => by
    rw [copystr] at h
    split at h
    · cases h
    · rename_i c hc
      split at h
      · rename_i h0
        exact ⟨0, by omega, by rw [Nat.add_zero, hc, h0], fun n hn => by omega⟩
      · rename_i h0
        obtain ⟨k, hk, hnul, hbefore⟩ := copystr_zero h
        refine ⟨k + 1, by omega, by rw [← hnul]; congr 1; omega, fun n hn => ?_⟩
        cases n with
        | zero => exact ⟨c, hc, h0⟩
        | succ n =>
          obtain ⟨c', hc', hne⟩ := hbefore n (by omega)
          exact ⟨c', by rw [← hc']; congr 1; omega, hne⟩

end Copystr

/-! ## The scan of a page -/

/-- One turn of `copyinstr` is `n` bytes of `copystr`. -/
theorem scanPage_eq (get : Nat → Option UInt8) {page : Bytes} :
    ∀ {n max p off : Nat} {dst : Bytes}, n ≤ max → (∀ k < n, get (off + k) = some (page (p + k))) →
    copystr get max off dst =
      if (scanPage page n p dst off).1 then (0, (scanPage page n p dst off).2)
      else copystr get (max - n) (off + n) (scanPage page n p dst off).2
  | 0, _, _, _, _, _, _ => rfl
  | n + 1, max, p, off, dst, hle, hget => by
    obtain ⟨max, rfl⟩ : ∃ k, max = k + 1 := ⟨max - 1, by omega⟩
    have h0 : get off = some (page p) := hget 0 (by omega)
    rw [copystr, scanPage, h0]
    dsimp only
    by_cases hz : page p = 0
    · rw [if_pos hz, if_pos hz]
      rfl
    · have hrest : ∀ k < n, get (off + 1 + k) = some (page (p + 1 + k)) := by
        intro k hk
        have hnext := hget (k + 1) (by omega)
        rwa [Nat.add_comm k, ← Nat.add_assoc, ← Nat.add_assoc] at hnext
      rw [if_neg hz, if_neg hz, scanPage_eq get (Nat.le_of_succ_le_succ hle) hrest,
        Nat.add_sub_add_right, Nat.add_assoc off, Nat.add_comm 1]

/-- **`copyinstr` is `copystr`.** -/
theorem copyinstrLoop_eq {t : PageTree 2} {s : Phys} (hwf : t.Wf s.kmem.mem) (hram : t.InRam)
    (base : Nat) : ∀ {fuel max : Nat} (off : Nat) {dst : Bytes}, max < fuel →
    copyinstrLoop E t.pa fuel dst off (base + off) max s =
      .ok (copystr (fun k => fetch t s.kmem.mem (base + k)) max off dst, s) := by
  intro fuel
  induction fuel with
  | zero =>
    intro max off dst h
    exact absurd h (Nat.not_lt_zero _)
  | succ fuel ih =>
    intro max off dst hfuel
    rw [copyinstrLoop]
    by_cases hpos : max > 0
    · rw [if_pos hpos]
      dsimp only
      rcases walkaddr_turn (E := E) hwf hram (base + off) with
        ⟨ha, hwalk, hne, hnext⟩ | ⟨ha, hwalk⟩
      · rw [Sys.bind_of_ok hwalk, if_neg hne, hnext, sub_PGROUNDDOWN, Sys.reads_bind_run]
        have hn := turn_of_pos (base + off) hpos
        generalize min (PGSIZE - (base + off) % PGSIZE) max = n at hn
        have hpos' := hn.pos
        have hle := hn.le
        have hget : ∀ k < n, fetch t s.kmem.mem (base + (off + k)) =
            some (s.kmem.mem (t.page (base + off)) ((base + off) % PGSIZE + k)) := by
          intro k hk
          rw [← Nat.add_assoc, fetch, if_pos (ha.congr (hn.page k hk).symm), peek,
            page_congr (hn.page k hk), hn.off k hk]
        rw [scanPage_eq (fun k => fetch t s.kmem.mem (base + k)) hle hget]
        cases hscan : (scanPage (s.kmem.mem (t.page (base + off))) n ((base + off) % PGSIZE) dst
            off).1 with
        | true => rfl
        | false =>
          simp only [Bool.false_eq_true, if_false]
          by_cases hlast : n < max
          · rw [← hn.next hlast, Nat.add_assoc]
            exact ih (off + n) (by omega)
          · obtain rfl : n = max := by omega
            obtain ⟨fuel, rfl⟩ : ∃ k, fuel = k + 1 := ⟨fuel - 1, by omega⟩
            rw [Nat.sub_self]
            rfl
      · obtain ⟨max, rfl⟩ : ∃ k, max = k + 1 := ⟨max - 1, by omega⟩
        rw [Sys.bind_of_ok hwalk, if_pos rfl, copystr, fetch, if_neg ha]
        rfl
    · obtain rfl : max = 0 := by omega
      rfl

/-! ## What that means for memory -/

section Fetch

variable {t : PageTree 2} {m : Nat → Bytes} {va k : Nat}

theorem StringAt.fetch (h : StringAt t m va k) {i : Nat} (hi : i ≤ k) :
    fetch t m (va + i) = some (peek t m (va + i)) := if_pos (h.access i hi)

theorem stringAt_of_fetch (hnul : fetch t m (va + k) = some 0)
    (hbefore : ∀ n < k, ∃ c, fetch t m (va + n) = some c ∧ c ≠ 0) : StringAt t m va k := by
  have hsome : ∀ {a c}, fetch t m a = some c → Access t a ∧ peek t m a = c := by
    intro a c h
    unfold Xv6.fetch at h
    split at h
    · rename_i ha
      injection h with h
      exact ⟨ha, h⟩
    · cases h
  refine ⟨fun i hi => ?_, (hsome hnul).2, fun i hi => ?_⟩
  · rcases Nat.lt_or_eq_of_le hi with hlt | rfl
    · obtain ⟨c, hc, _⟩ := hbefore i hlt
      exact (hsome hc).1
    · exact (hsome hnul).1
  · obtain ⟨c, hc, hne⟩ := hbefore i hi
    rw [(hsome hc).2]
    exact hne

/-- **`copyinstr` equals its specification a byte at a time.** It returns 0
    exactly if there is a string of fewer than `max` bytes at `srcva`, in pages
    below `MAXVA` that the program may use; then `dst` holds it with its NUL and
    is otherwise as before. If not, it returns -1. In every case at most `max`
    bytes of `dst` are written, and bytes behind an address that the program may
    not use make no difference. -/
theorem copyinstr_eq_copystr {s : Phys} (hwf : t.Wf s.kmem.mem) (hram : t.InRam) (dst : Bytes)
    (srcva max : Nat) :
    ∃ r dst', copyinstr E t.pa dst srcva max s = .ok ((r, dst'), s) ∧
      (r, dst') = copystr (fun i => fetch t s.kmem.mem (srcva + i)) max 0 dst ∧
      (r = 0 ∨ r = -1) ∧
      (r = 0 ↔ ∃ k < max, StringAt t s.kmem.mem srcva k) ∧
      (∀ k < max, StringAt t s.kmem.mem srcva k →
        (∀ i ≤ k, dst' i = peek t s.kmem.mem (srcva + i)) ∧ ∀ i > k, dst' i = dst i) ∧
      (∀ i ≥ max, dst' i = dst i) ∧
      ∀ j m₂, ¬ Access t (srcva + j) → t.Wf m₂ →
        (∀ i < j, peek t m₂ (srcva + i) = peek t s.kmem.mem (srcva + i)) →
        copyinstr E t.pa dst srcva max (s.setMem m₂) = .ok ((r, dst'), s.setMem m₂) := by
  have hrun : ∀ s1 : Phys, t.Wf s1.kmem.mem → copyinstr E t.pa dst srcva max s1 =
      .ok (copystr (fun i => fetch t s1.kmem.mem (srcva + i)) max 0 dst, s1) := fun s1 h1 =>
    copyinstrLoop_eq h1 hram srcva 0 (Nat.lt_succ_self max)
  have hfound : ∀ k < max, StringAt t s.kmem.mem srcva k →
      copystr (fun i => fetch t s.kmem.mem (srcva + i)) max 0 dst =
        (0, dst.blit 0 (fun i => peek t s.kmem.mem (srcva + i)) 0 (k + 1)) := fun k hk hstr =>
    copystr_found hk (fun n hn => by rw [Nat.zero_add]; exact hstr.fetch hn)
      (by rw [Nat.zero_add]; exact hstr.nul)
      fun n hn => by rw [Nat.zero_add]; exact hstr.before n hn
  refine ⟨_, _, hrun s hwf, rfl, copystr_result _ _ _, ⟨fun h0 => ?_, fun ⟨k, hk, hstr⟩ => ?_⟩,
    fun k hk hstr => ⟨fun i hi => ?_, fun i hi => ?_⟩, fun i hi => copystr_frame (by omega),
    fun j m₂ hj hwf2 hsame => ?_⟩
  · obtain ⟨k, hk, hnul, hbefore⟩ := copystr_zero h0
    simp only [Nat.zero_add] at hnul hbefore
    exact ⟨k, hk, stringAt_of_fetch hnul hbefore⟩
  · rw [hfound k hk hstr]
  · rw [hfound k hk hstr]
    simp only [Bytes.blit]
    rw [if_pos (by omega), Nat.zero_add, Nat.sub_zero]
  · rw [hfound k hk hstr]
    simp only [Bytes.blit]
    rw [if_neg (by omega)]
  · have hno : ∀ m, Xv6.fetch t m (srcva + j) = none := fun m => if_neg hj
    have hlow : ∀ i < j, Xv6.fetch t m₂ (srcva + i) = Xv6.fetch t s.kmem.mem (srcva + i) := by
      intro i hi
      unfold Xv6.fetch
      rw [hsame i hi]
    rw [hrun (s.setMem m₂) hwf2]
    exact congrArg (fun x => Except.ok (x, s.setMem m₂))
      (copystr_congr (j := j) (hno m₂) (hno s.kmem.mem) hlow (Nat.zero_le j))

/-- A string that fills the rest of a page, with its NUL in the next: with room
    for the NUL and without. -/
theorem copyinstr_eq_copystr_page_end : ∃ (s : Phys) (t : PageTree 2) (dst : Bytes),
    copyinstr (smallEnv 9) t.pa Bytes.zero 96 4001 s = .ok ((0, dst), s) ∧ dst 3999 = 1 ∧
      ∃ dst', copyinstr (smallEnv 9) t.pa Bytes.zero 96 4000 s = .ok ((-1, dst'), s) := by
  obtain ⟨s₀, t, hwf0, hram, hout, _, ht⟩ := exists_textAndData
  have hpage : ∀ i ≤ 4000, Access t (96 + i) ∧
      t.page (96 + i) = KERNBASE + (96 + i) / PGSIZE * PGSIZE := fun i hi =>
    have hlt : 96 + i < 2 * PGSIZE := by
      simp only [PGSIZE]
      omega
    ⟨(access_textAndData ht).mpr hlt, page_textAndData ht hlt⟩
  -- ones in the first page, zeroes in the second
  let m : Nat → Bytes := fun p =>
    if p = KERNBASE then fun _ => 1 else if p = KERNBASE + PGSIZE then Bytes.zero else s₀.kmem.mem p
  have hwf : t.Wf (s₀.setMem m).kmem.mem := hwf0.congr fun p hp => by
    have hout' : ∀ i ≤ 4000, p ≠ KERNBASE + (96 + i) / PGSIZE * PGSIZE := fun i hi e =>
      hout _ (hpage i hi).1 ((hpage i hi).2 ▸ e ▸ hp)
    have h0 : p ≠ KERNBASE := hout' 0 (by decide)
    have h1 : p ≠ KERNBASE + PGSIZE := hout' 4000 (by decide)
    exact (if_neg h0).trans (if_neg h1)
  have hone : ∀ i < 4000, peek t m (96 + i) = 1 := by
    intro i hi
    have hq : (96 + i) / PGSIZE = 0 := by
      simp only [PGSIZE]
      omega
    rw [peek, (hpage i (by omega)).2, hq]
    rfl
  have hstr : StringAt t m 96 4000 :=
    ⟨fun i hi => (hpage i hi).1, by rw [peek, (hpage 4000 (by decide)).2]; rfl, fun i hi => by
      rw [hone i hi]
      decide⟩
  obtain ⟨r, dst, hrun, _, _, hiff, hval, _⟩ :=
    copyinstr_eq_copystr (E := smallEnv 9) hwf hram Bytes.zero 96 4001
  obtain ⟨r', dst', hrun', _, hres, hiff', _⟩ :=
    copyinstr_eq_copystr (E := smallEnv 9) hwf hram Bytes.zero 96 4000
  obtain rfl : r = 0 := hiff.mpr ⟨4000, by decide, hstr⟩
  obtain rfl : r' = -1 := hres.resolve_left fun h0 => by
    obtain ⟨k, hk, hs⟩ := hiff'.mp h0
    have hnul := hs.nul
    rw [show (s₀.setMem m).kmem.mem = m from rfl, hone k hk] at hnul
    cases hnul
  refine ⟨_, t, dst, hrun, ?_, dst', hrun'⟩
  exact ((hval 4000 (by decide) hstr).1 3999 (by decide)).trans (hone 3999 (by decide))

end Fetch

end Xv6
