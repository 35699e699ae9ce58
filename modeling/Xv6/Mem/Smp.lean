import Mathlib.Data.Int.ModEq
import Xv6.Lib.Count
import Xv6.Mem.Shape

/-!
# The free-page counter on several CPUs

`kalloc` asserts `FREE_PAGES > 0`, takes a page off the list under the lock, and
lowers `FREE_PAGES` after the lock is released, whether it found a page or not.
Between the three, other CPUs run. What is lost is only this: a CPU that passed
the assertion may find the list empty. `law` is what can be said of every
interleaving: `FREE_PAGES` is the length of the list, plus the pages that were
taken off and not yet counted, minus the empty-handed visits, modulo `2^64`.

`kfree` is given pages that the callers have; its decrement of the reference
count, its test and its push are steps of their own too.
-/

namespace Xv6

open Function List

/-- Where a CPU is in the allocator. -/
inductive AllocPc where
  | idle
  /-- in `kalloc`, past the assertion -/
  | asserted
  /-- in `kalloc`, past the lock, with what was on the list -/
  | popped (r : Option Nat)
  /-- in `kfree`, past the checks and the filling with junk -/
  | filled (pa : Nat)
  /-- in `kfree`, past `ref_count[PGNUM(pa)]--` -/
  | dropped (pa : Nat)
  /-- in `kfree`, having found the count zero -/
  | unreferenced (pa : Nat)
  deriving DecidableEq

/-- The page that a CPU has in its hands. -/
def AllocPc.pages : AllocPc → List Nat
  | popped r => r.toList
  | filled pa | dropped pa | unreferenced pa => [pa]
  | _ => []

def AllocPc.isPopped : AllocPc → Bool
  | popped _ => true
  | _ => false

/-- The allocator with `n` CPUs in it, the pages that its callers have, and how
    often a `kalloc` found the list empty. -/
structure AllocSmp (n : Nat) where
  kmem : Kmem
  pc : Fin n → AllocPc
  live : List Nat
  empties : Nat

inductive AllocEvent (n : Nat) where
  /-- a call of `kalloc`, up to the assertion -/
  | kalloc (i : Fin n)
  /-- a call of `kfree(pa)`, up to the filling with junk -/
  | kfree (i : Fin n) (pa : Nat)
  /-- the next step of a call -/
  | go (i : Fin n)

namespace AllocSmp

variable {n : Nat}

def goto (s : AllocSmp n) (i : Fin n) (pc : AllocPc) : AllocSmp n :=
  { s with pc := update s.pc i pc }

section Code

variable (E : Env)

/-- The locked section of `kalloc`. -/
def pop (s : AllocSmp n) (i : Fin n) : AllocSmp n :=
  match s.kmem.freelist with
  | [] => { s with empties := s.empties + 1 }.goto i (.popped none)
  | r :: rest =>
    { s with
      kmem := { s.kmem.setRef (E.PGNUM r) (s.kmem.refCount (E.PGNUM r) + 1) with
        freelist := rest } }.goto i (.popped (some r))

/-- `memset(r, 5, PGSIZE)`, `FREE_PAGES--` and the return. -/
def decrement (s : AllocSmp n) (i : Fin n) (r : Option Nat) : AllocSmp n :=
  let k := match r with
    | none => s.kmem
    | some r => s.kmem.memset r 5
  { s with
    kmem := { k with freePages := k.freePages - 1 }
    live := r.toList ++ s.live }.goto i .idle

def step (s : AllocSmp n) : AllocEvent n → Outcome (AllocSmp n)
  | .kalloc i =>
    if s.pc i = .idle then
      if s.kmem.freePages > 0 then .next (s.goto i .asserted) else .panic "assert failed"
    else .disabled
  | .kfree i pa =>
    if s.pc i = .idle ∧ pa ∈ s.live then
      if s.kmem.maxPages ≠ 0 ∧ ¬ s.kmem.freePages < s.kmem.maxPages then .panic "assert failed"
      else if pa % PGSIZE ≠ 0 ∨ pa < E.kend ∨ pa ≥ PHYSTOP then .panic "kfree"
      else .next ({ s with kmem := s.kmem.memset pa 1, live := s.live.erase pa }.goto i
        (.filled pa))
    else .disabled
  | .go i =>
    match s.pc i with
    | .idle => .disabled
    | .asserted => .next (s.pop E i)
    | .popped r => .next (s.decrement i r)
    | .filled pa =>
      .next ({ s with
        kmem := s.kmem.setRef (E.PGNUM pa) (s.kmem.refCount (E.PGNUM pa) - 1) }.goto i
          (.dropped pa))
    | .dropped pa =>
      .next (s.goto i (if s.kmem.refCount (E.PGNUM pa) = 0 then .unreferenced pa else .idle))
    | .unreferenced pa =>
      .next ({ s with
        kmem := { s.kmem with
          freelist := pa :: s.kmem.freelist
          freePages := s.kmem.freePages + 1 } }.goto i .idle)

end Code

/-! ## The invariant -/

/-- Every page that is free, in a caller's hands or in a CPU's. -/
def total (s : AllocSmp n) : List Nat :=
  s.kmem.freelist ++ (s.live ++ gather fun i => (s.pc i).pages)

/-- How many CPUs have taken a page off the list that is still counted. -/
def uncounted (s : AllocSmp n) : Int := count fun i => (s.pc i).isPopped = true

structure Inv (E : Env) (s : AllocSmp n) : Prop where
  once : ∀ p, s.total.count p ≤ 1
  page : ∀ p ∈ s.total, E.Page p
  empty : ∀ i, s.pc i = .popped none → 0 < s.empties
  /-- what `FREE_PAGES` is in every interleaving -/
  law : (s.kmem.freePages.toNat : Int)
    ≡ s.kmem.freelist.length + s.uncounted - s.empties [ZMOD 2 ^ 64]

variable {E : Env} {s s' : AllocSmp n} {i : Fin n} {b : AllocPc}

theorem count_total (s : AllocSmp n) (i : Fin n) (p : Nat) :
    s.total.count p = s.kmem.freelist.count p + (s.live.count p + ((s.pc i).pages.count p
      + (others (fun j => (s.pc j).pages) i).count p)) := by
  unfold total
  rw [count_append, count_append, (gather_perm _ i).count_eq, count_append]

/-- One CPU's step: nothing is duplicated, and the counter's law is kept. -/
theorem Inv.move (h : Inv E s) (hpc : s'.pc = update s.pc i b)
    (hcount : ∀ p, s'.kmem.freelist.count p + (s'.live.count p + b.pages.count p)
      ≤ s.kmem.freelist.count p + (s.live.count p + (s.pc i).pages.count p))
    (hempties : s.empties ≤ s'.empties) (hempty : b = .popped none → 0 < s'.empties)
    (hlaw : (s'.kmem.freePages.toNat : Int) - s.kmem.freePages.toNat
      ≡ (s'.kmem.freelist.length + (if b.isPopped then 1 else 0) - s'.empties)
        - (s.kmem.freelist.length + (if (s.pc i).isPopped then 1 else 0) - s.empties)
        [ZMOD 2 ^ 64]) : Inv E s' := by
  have htotal : ∀ p, s'.total.count p ≤ s.total.count p := by
    intro p
    have hothers : others (fun j => (s'.pc j).pages) i = others (fun j => (s.pc j).pages) i :=
      others_congr fun j hj => by rw [hpc, update_of_ne hj]
    have := hcount p
    rw [count_total s i, count_total s' i, hothers, hpc, update_self]
    omega
  refine ⟨fun p => (htotal p).trans (h.once p), fun p hp => h.page p ?_, fun j hj => ?_, ?_⟩
  · exact List.count_pos_iff.mp ((List.count_pos_iff.mpr hp).trans_le (htotal p))
  · by_cases hji : j = i
    · rw [hpc, hji, update_self] at hj
      exact hempty hj
    · rw [hpc, update_of_ne hji] at hj
      exact (h.empty j hj).trans_le hempties
  · have huncounted : s'.uncounted = s.uncounted - (if (s.pc i).isPopped then 1 else 0)
        + (if b.isPopped then 1 else 0) := by
      unfold uncounted
      rw [hpc]
      exact count_update s.pc (fun pc => pc.isPopped = true) i b
    have hsum := h.law.add hlaw
    rw [huncounted]
    have hl : (s.kmem.freePages.toNat : Int) + (s'.kmem.freePages.toNat - s.kmem.freePages.toNat)
        = s'.kmem.freePages.toNat := by ring
    rw [hl] at hsum
    convert hsum using 1
    ring

attribute [local simp] AllocPc.isPopped

theorem inv_pop (h : Inv E s) (hpc : s.pc i = .asserted) : Inv E (s.pop E i) := by
  unfold pop
  cases hfree : s.kmem.freelist with
  | nil =>
    refine h.move (i := i) rfl ?_ (Nat.le_succ _) (fun _ => Nat.succ_pos _) ?_
    · intro p
      rw [hpc]
      exact Nat.le_refl _
    · rw [hpc]
      simp [goto]
  | cons r rest =>
    refine h.move (i := i) rfl ?_ (Nat.le_refl _) (by simp) ?_
    · intro p
      rw [hpc, hfree]
      simp only [goto, AllocPc.pages, Option.toList_some, count_cons, count_nil]
      omega
    · rw [hpc, hfree]
      simp [goto, Kmem.setRef]

theorem inv_decrement (h : Inv E s) {r : Option Nat} (hpc : s.pc i = .popped r) :
    Inv E (s.decrement i r) := by
  have hk : (s.decrement i r).kmem.freelist = s.kmem.freelist ∧
      (s.decrement i r).kmem.freePages = s.kmem.freePages - 1 := by
    cases r <;> exact ⟨rfl, rfl⟩
  refine h.move (i := i) (b := .idle) rfl ?_ (Nat.le_refl _) nofun ?_
  · intro p
    rw [hk.1, hpc]
    simp only [decrement, goto, AllocPc.pages, count_append, count_nil]
    omega
  · rw [hk.1, hk.2, hpc, UInt64.toNat_sub, Int.modEq_iff_dvd]
    have hone : (1 : UInt64).toNat = 1 := rfl
    have := s.kmem.freePages.toNat_lt
    simp only [decrement, goto, AllocPc.isPopped, if_true, Bool.false_eq_true, if_false, hone]
    omega

/-- **Every step** of every CPU. -/
theorem step_inv {e : AllocEvent n} (h : Inv E s) (hstep : s.step E e = .next s') : Inv E s' := by
  cases e with
  | kalloc i =>
    obtain ⟨hpc, hstep⟩ := Outcome.guard_eq_next hstep
    split at hstep
    · cases hstep
      refine h.move (i := i) rfl ?_ (Nat.le_refl _) (by simp) ?_
      · intro p
        rw [hpc]
        exact Nat.le_refl _
      · rw [hpc]
        simp [goto]
    · cases hstep
  | kfree i pa =>
    obtain ⟨⟨hpc, hlive⟩, hstep⟩ := Outcome.guard_eq_next hstep
    split at hstep
    · cases hstep
    split at hstep
    · cases hstep
    cases hstep
    refine h.move (i := i) rfl ?_ (Nat.le_refl _) (by simp) ?_
    · intro p
      have herase := (perm_cons_erase hlive).count_eq p
      rw [count_cons] at herase
      rw [hpc, herase]
      simp only [goto, Kmem.memset, AllocPc.pages, count_cons, count_nil]
      omega
    · rw [hpc]
      simp [goto, Kmem.memset]
  | go i =>
    simp only [step] at hstep
    cases hpc : s.pc i with
    | idle => simp [hpc] at hstep
    | asserted =>
      simp only [hpc] at hstep
      cases hstep
      exact inv_pop h hpc
    | popped r =>
      simp only [hpc] at hstep
      cases hstep
      exact inv_decrement h hpc
    | filled pa =>
      simp only [hpc] at hstep
      cases hstep
      refine h.move (i := i) rfl ?_ (Nat.le_refl _) (by simp) ?_
      · intro p
        rw [hpc]
        exact Nat.le_refl _
      · rw [hpc]
        simp [goto, Kmem.setRef]
    | dropped pa =>
      simp only [hpc] at hstep
      cases hstep
      refine h.move (i := i) rfl ?_ (Nat.le_refl _) (by split <;> simp) ?_
      · intro p
        rw [hpc]
        split <;> simp [goto, AllocPc.pages]
      · rw [hpc]
        split <;> simp [goto]
    | unreferenced pa =>
      simp only [hpc] at hstep
      cases hstep
      refine h.move (i := i) rfl ?_ (Nat.le_refl _) (by simp) ?_
      · intro p
        rw [hpc]
        simp only [goto, AllocPc.pages, count_cons, count_nil]
        omega
      · rw [hpc, Int.modEq_iff_dvd]
        have hone : (1 : UInt64).toNat = 1 := rfl
        have := s.kmem.freePages.toNat_lt
        simp only [goto, AllocPc.isPopped, Bool.false_eq_true, if_false, UInt64.toNat_add, hone,
          length_cons]
        omega

/-! ## The counter -/

/-- A start: no call is in progress, and the ledger is in order. -/
structure Start (E : Env) (s : AllocSmp n) : Prop where
  idle : ∀ i, s.pc i = .idle
  acct : Acct E s.kmem s.live
  empties : s.empties = 0

theorem Start.inv (h : Start E s) : Inv E s := by
  have hnone : gather (fun i => (s.pc i).pages) = [] := by
    rw [gather_congr fun i => (by rw [h.idle i]; rfl : (s.pc i).pages = []), gather_nil]
  have htotal : s.total = s.kmem.freelist ++ s.live := by
    unfold total
    rw [hnone, append_nil]
  refine ⟨fun p => ?_, fun p hp => ?_, fun i hi => ?_, ?_⟩
  · rw [htotal]
    exact nodup_iff_count_le_one.mp h.acct.nodup p
  · rw [htotal] at hp
    exact (h.acct.pages p).mp hp
  · rw [h.idle i] at hi
    cases hi
  · have hzero : s.uncounted = 0 := count_eq_zero_iff.mpr fun i => by
      rw [h.idle i]
      exact Bool.false_ne_true
    rw [hzero, h.acct.freePages, h.empties]
    simp

/-- There are fewer pages than the counter can count. -/
theorem Inv.small (hE : E.Ok) (h : Inv E s) (hfound : s.empties = 0) :
    (s.kmem.freelist.length : Int) + s.uncounted ≤ 32768 := by
  have hlen := length_le_of_pages hE (nodup_iff_count_le_one.mpr h.once) h.page
  have hle : s.uncounted ≤ (gather fun i => (s.pc i).pages).length := by
    unfold uncounted count gather
    rw [length_flatMap, ← Fin.sum_univ_def]
    push_cast
    refine Finset.sum_le_sum fun i _ => ?_
    split
    · rename_i hp
      cases hpc : s.pc i with
      | popped r =>
        cases r with
        | none =>
          have := h.empty i hpc
          omega
        | some r => simp [AllocPc.pages]
      | _ => simp [hpc] at hp
    · exact Int.natCast_nonneg _
  unfold total at hlen
  simp only [length_append] at hlen
  omega

/-- **`FREE_PAGES` is exact as long as every `kalloc` finds a page.** In every
    interleaving of calls in which none found the list empty, a CPU that is
    about to lower the counter finds it positive, and between calls it is the
    length of the free list; with `m` empty-handed calls it is off by `m` modulo
    `2^64`. -/
theorem free_pages_exact {E : Env} (hE : E.Ok) {n : Nat} {s₀ s : AllocSmp n} (h₀ : Start E s₀)
    {events : List (AllocEvent n)} (hrun : exec (step E) s₀ events = .next s) :
    (s.empties = 0 → ∀ i r, s.pc i = .popped r → 0 < s.kmem.freePages.toNat) ∧
    ((∀ i, s.pc i = .idle) →
      (s.empties = 0 → s.kmem.freePages.toNat = s.kmem.freelist.length) ∧
      (s.kmem.freePages.toNat = s.kmem.freelist.length ↔ s.empties % 2 ^ 64 = 0)) := by
  have h : Inv E s := exec_history (fun _ s => Inv E s) h₀.inv
    (fun _ _ _ _ hi hstep => step_inv hi hstep) hrun
  have hlaw := h.law
  have hlt := s.kmem.freePages.toNat_lt
  have hnonneg : 0 ≤ s.uncounted := count_nonneg _
  rw [Int.modEq_iff_dvd] at hlaw
  refine ⟨fun hfound i r hi => ?_, fun hidle => ?_⟩
  · have hpos : 0 < s.uncounted := count_pos_iff.mpr ⟨i, by rw [hi]; rfl⟩
    have hsmall := h.small hE hfound
    omega
  · have hzero : s.uncounted = 0 := count_eq_zero_iff.mpr fun i => by
      rw [hidle i]
      exact Bool.false_ne_true
    have hlen : s.kmem.freelist.length ≤ 32768 := by
      have hle := length_le_of_pages hE (nodup_iff_count_le_one.mpr h.once) h.page
      unfold total at hle
      rw [length_append] at hle
      omega
    rw [hzero] at hlaw
    constructor
    · intro hfound
      omega
    · omega

/-- Two CPUs and `pages - 1` free pages. -/
def twoCpus (pages : Nat) : AllocSmp 2 :=
  ⟨(smallPhys pages).kmem, fun _ => .idle, [PHYSTOP - PGSIZE], 0⟩

theorem twoCpus_start {pages : Nat} (h0 : 0 < pages) (h : pages < 32768) :
    Start (smallEnv pages) (twoCpus pages) :=
  ⟨fun _ => rfl, smallPhys_acct h0 h, rfl⟩

/-- Both CPUs allocate at once, and there are two pages. -/
theorem free_pages_exact_two :
    ∃ s, exec (step (smallEnv 3)) (twoCpus 3)
        [.kalloc 0, .kalloc 1, .go 0, .go 1, .go 1, .go 0] = .next s ∧
      s.kmem.freePages.toNat = s.kmem.freelist.length := by
  obtain ⟨s, hrun, hs⟩ := Outcome.exists_of_check
    (x := exec (step (smallEnv 3)) (twoCpus 3)
      [.kalloc 0, .kalloc 1, .go 0, .go 1, .go 1, .go 0])
    (t := fun s => decide (s.empties = 0 ∧ ∀ i, s.pc i = .idle)) (by decide +kernel)
  obtain ⟨hfound, hidle⟩ := of_decide_eq_true hs
  have hexact := free_pages_exact (smallEnv_ok (by decide))
    (twoCpus_start (by decide) (by decide)) hrun
  exact ⟨s, hrun, (hexact.2 hidle).1 hfound⟩

/-- **Both CPUs allocate at once, and there is one page**: both pass the
    assertion, one finds the list empty, and the counter wraps. -/
theorem free_pages_wraps :
    ∃ s, exec (step (smallEnv 2)) (twoCpus 2)
        [.kalloc 0, .kalloc 1, .go 0, .go 1, .go 0, .go 1] = .next s ∧
      (∀ i, s.pc i = .idle) ∧ s.kmem.freelist = [] ∧ s.kmem.freePages.toNat = 2 ^ 64 - 1 := by
  obtain ⟨s, hrun, hs⟩ := Outcome.exists_of_check
    (x := exec (step (smallEnv 2)) (twoCpus 2)
      [.kalloc 0, .kalloc 1, .go 0, .go 1, .go 0, .go 1])
    (t := fun s => decide ((∀ i, s.pc i = .idle) ∧ s.kmem.freelist = [] ∧
      s.kmem.freePages.toNat = 2 ^ 64 - 1)) (by decide +kernel)
  exact ⟨s, hrun, of_decide_eq_true hs⟩

end AllocSmp

end Xv6
