import Xv6.Mem.Kalloc

/-!
# What `kinit` leaves

Boot hands every page of RAM to `kfree`. The counts start at zero, so `kfree`
counts each page down to `2^32 - 1`, finds that this is not zero, and does not
free it; `FREE_PAGES` stays zero, `MAX_PAGES` becomes zero, and the loop that
would have reset the counts does not run. The free list comes out empty whatever
the size of RAM, so the allocator is set up correctly only where there is
nothing to set up (`kinit_initialised_iff`).
-/

namespace Xv6

open Sys

/-- What the sources need of the `PGNUM` they do not define: it numbers the
    pages of RAM below the length of `ref_count`, no two alike. -/
structure PgnumOk (PGNUM : Nat → Nat) : Prop where
  lt : ∀ p, p % PGSIZE = 0 → KERNBASE ≤ p → p < PHYSTOP → PGNUM p < 32768
  inj : ∀ p q, p % PGSIZE = 0 → KERNBASE ≤ p → p < PHYSTOP →
    q % PGSIZE = 0 → KERNBASE ≤ q → q < PHYSTOP → PGNUM p = PGNUM q → p = q

/-- A page boot should have made allocatable. -/
def BootPage (kend p : Nat) : Prop :=
  p % PGSIZE = 0 ∧ PGROUNDUP kend ≤ p ∧ p + PGSIZE ≤ PHYSTOP

/-- The allocator as it should be after boot: every page once on the free list
    and nothing else, no page counted, and both page counters at the number of
    pages. -/
structure Initialised (kend : Nat) (k : Kmem) : Prop where
  nodup : k.freelist.Nodup
  pages : ∀ p, p ∈ k.freelist ↔ BootPage kend p
  refCount : ∀ i, i < 32768 → k.refCount i = 0
  freePages : k.freePages.toNat = (PHYSTOP - PGROUNDUP kend) / PGSIZE
  maxPages : k.maxPages = k.freePages

theorem PGROUNDUP_mod (sz : Nat) : PGROUNDUP sz % PGSIZE = 0 := Nat.mul_mod_left _ _

theorem le_PGROUNDUP {sz : Nat} (h : sz + PGSIZE ≤ 2 ^ 64) : sz ≤ PGROUNDUP sz := by
  unfold PGROUNDUP
  simp only [PGSIZE] at h ⊢
  omega

variable {PGNUM : Nat → Nat} {k : Kmem} {kend : Nat}

/-- `kfree` of a page nobody counted, while `MAX_PAGES` is still zero: the count
    wraps and the page is not freed. -/
theorem kfree_uncounted {pa : Nat} (hmax : k.maxPages = 0) (halign : pa % PGSIZE = 0)
    (hlo : kend ≤ pa) (hhi : pa < PHYSTOP) (href : k.refCount (PGNUM pa) = 0) :
    kfree PGNUM kend pa k = .ok ((), (k.memset pa 1).setRef (PGNUM pa) (0 - 1)) := by
  have hpre : ¬ (pa % PGSIZE ≠ 0 ∨ pa < kend ∨ pa ≥ PHYSTOP) := by omega
  have hwrap : ¬ ((0 : UInt32) - 1 = 0) := by decide
  have hsame : (k.memset pa 1).refCount (PGNUM pa) = 0 := href
  simp only [kfree, reads_bind_run, id_eq, hmax, ne_eq, not_true, false_and, if_false]
  rw [if_neg hpre]
  simp only [modify_bind_run, reads_bind_run, id_eq, hsame, Kmem.setRef_self]
  rw [if_neg hwrap]
  rfl

/-- The state of the boot loop at page `p`: nothing freed so far, and no page
    from `p` on counted. -/
structure Idle (PGNUM : Nat → Nat) (p : Nat) (k : Kmem) : Prop where
  freelist : k.freelist = []
  freePages : k.freePages = 0
  maxPages : k.maxPages = 0
  refCount : ∀ q, q % PGSIZE = 0 → p ≤ q → q < PHYSTOP → k.refCount (PGNUM q) = 0

theorem freerangeLoop_idle (hpg : PgnumOk PGNUM) :
    ∀ (turns p : Nat) (k : Kmem), p % PGSIZE = 0 → kend ≤ p → KERNBASE ≤ p → Idle PGNUM p k →
      ∃ k', freerangeLoop PGNUM kend PHYSTOP turns p k = .ok ((), k') ∧
        k'.freelist = [] ∧ k'.freePages = 0 := by
  intro turns
  induction turns with
  | zero => intro p k _ _ _ hk; exact ⟨k, rfl, hk.freelist, hk.freePages⟩
  | succ turns ih =>
    intro p k halign hlo hbase hk
    by_cases hin : p + PGSIZE ≤ PHYSTOP
    · have hhi : p < PHYSTOP := by simp only [PGSIZE] at hin; omega
      have hfree := kfree_uncounted (k := k) hk.maxPages halign hlo hhi
        (hk.refCount p halign le_rfl hhi)
      have hk' : Idle PGNUM (p + PGSIZE) ((k.memset p 1).setRef (PGNUM p) (0 - 1)) := by
        refine ⟨hk.freelist, hk.freePages, hk.maxPages, fun q hq hpq hqhi => ?_⟩
        -- the page just counted down is below `q`, so it has another number
        have hne : PGNUM q ≠ PGNUM p := fun h => by
          have := hpg.inj q p hq (by omega) hqhi halign hbase hhi h
          simp only [PGSIZE] at hpq
          omega
        rw [Kmem.setRef_ne _ _ hne]
        exact hk.refCount q hq (by omega) hqhi
      obtain ⟨k', hrun, hlist⟩ := ih (p + PGSIZE) _ (by simp only [PGSIZE] at *; omega)
        (by omega) (by omega) hk'
      refine ⟨k', ?_, hlist⟩
      rw [freerangeLoop, if_pos hin, bind_of_ok hfree]
      exact hrun
    · exact ⟨k, by rw [freerangeLoop, if_neg hin]; rfl, hk.freelist, hk.freePages⟩

/-- **`kinit` frees nothing.** It returns, with an empty free list and no page
    counted free. -/
theorem kinit_freelist (hpg : PgnumOk PGNUM)
    (hbase : KERNBASE ≤ kend) (hend : kend ≤ PHYSTOP) (mem : Nat → Bytes) :
    ∃ k, freerange PGNUM kend kend PHYSTOP (Kmem.boot mem) = .ok ((), k) ∧
      k.freelist = [] ∧ k.freePages = 0 := by
  have hup : kend ≤ PGROUNDUP kend :=
    le_PGROUNDUP (by simp only [PHYSTOP, KERNBASE, PGSIZE] at *; omega)
  exact freerangeLoop_idle hpg (PHYSTOP / PGSIZE + 1) (PGROUNDUP kend) (Kmem.boot mem)
    (PGROUNDUP_mod kend) hup (by omega) ⟨rfl, rfl, rfl, fun _ _ _ _ => rfl⟩

/-- What `kinit` does once `freerange` has returned. -/
theorem kinit_of_freerange {k0 : Kmem} (h : freerange PGNUM kend kend PHYSTOP k0 = .ok ((), k)) :
    kinit PGNUM kend k0 = .ok ((), { k with
      maxPages := k.freePages
      refCount := fun i => if i < k.freePages.toNat then 0 else k.refCount i }) := by
  rw [kinit, bind_of_ok h]
  rfl

/-- With no room for a page the loop does not turn at all. -/
theorem freerange_empty (h : PGROUNDUP kend = PHYSTOP) (k : Kmem) :
    freerange PGNUM kend kend PHYSTOP k = .ok ((), k) := by
  rw [freerange, h, freerangeLoop, if_neg (by simp)]
  rfl

/-- Where there is a page, the allocator is not initialised: the page is not on
    the list. -/
theorem kinit_not_initialised (hpg : PgnumOk PGNUM)
    (hbase : KERNBASE ≤ kend) (hend : kend ≤ PHYSTOP) (hpage : PGROUNDUP kend + PGSIZE ≤ PHYSTOP)
    (mem : Nat → Bytes) (h : kinit PGNUM kend (Kmem.boot mem) = .ok ((), k)) :
    ¬ Initialised kend k := by
  intro hinit
  obtain ⟨k', hrun, hlist, -⟩ := kinit_freelist hpg hbase hend mem
  rw [kinit_of_freerange hrun] at h
  injection h with h
  injection h with _ h
  have hmem := (hinit.pages (PGROUNDUP kend)).mpr ⟨PGROUNDUP_mod kend, le_rfl, hpage⟩
  rw [← h] at hmem
  simp only [hlist] at hmem
  cases hmem

/-- **Boot initialises the allocator exactly where there is nothing to
    initialise**: for a kernel that ends at `kend` in RAM, `kinit` leaves every
    page from `PGROUNDUP(end)` to `PHYSTOP` on the free list, all counts zero
    and both counters right, if and only if there is no such page. -/
theorem kinit_initialised_iff {PGNUM : Nat → Nat} (hpg : PgnumOk PGNUM) {kend : Nat}
    (hbase : KERNBASE ≤ kend) (hend : kend ≤ PHYSTOP) (hfit : PGROUNDUP kend ≤ PHYSTOP)
    (mem : Nat → Bytes) :
    (∃ k, kinit PGNUM kend (Kmem.boot mem) = .ok ((), k) ∧ Initialised kend k) ↔
      PGROUNDUP kend = PHYSTOP := by
  constructor
  · rintro ⟨k, hrun, hinit⟩
    by_contra hne
    have hpage : PGROUNDUP kend + PGSIZE ≤ PHYSTOP := by
      have := PGROUNDUP_mod kend
      simp only [PHYSTOP, KERNBASE, PGSIZE] at *
      omega
    exact kinit_not_initialised hpg hbase hend hpage mem hrun hinit
  · intro heq
    refine ⟨_, kinit_of_freerange (freerange_empty heq _), ?_⟩
    refine ⟨List.nodup_nil, fun p => ?_, fun i _ => ?_, ?_, rfl⟩
    · refine ⟨fun hp => (nomatch hp), fun ⟨_, hlo, hhi⟩ => ?_⟩
      rw [heq] at hlo
      simp only [PGSIZE] at hhi
      omega
    · simp [Kmem.boot]
    · rw [heq]
      simp [Kmem.boot]

/-- The numbering of pages the array's length suggests. -/
def pgnum (pa : Nat) : Nat := (pa - KERNBASE) / PGSIZE

theorem pgnumOk : PgnumOk pgnum where
  lt := fun p _ h1 h2 => by
    simp only [pgnum, PHYSTOP, KERNBASE, PGSIZE] at *
    omega
  inj := fun p q hp h1 h2 hq h3 h4 h => by
    simp only [pgnum, PHYSTOP, KERNBASE, PGSIZE] at *
    omega

/-- A kernel that fills RAM to the last byte of the last page. -/
theorem kinit_initialised_iff_full :
    ∃ k, kinit pgnum (PHYSTOP - 1) (Kmem.boot fun _ => Bytes.zero) = .ok ((), k) ∧
      Initialised (PHYSTOP - 1) k :=
  (kinit_initialised_iff pgnumOk (by decide) (by decide) (by decide) _).mpr (by decide)

/-- **The kernel in `kernel.sym`** ends well below `PHYSTOP`, and `kinit` does
    not set the allocator up. -/
theorem kinit_leaves_no_page : ¬ ∃ k,
    kinit pgnum 0x80021ef0 (Kmem.boot fun _ => Bytes.zero) = .ok ((), k) ∧
      Initialised 0x80021ef0 k :=
  fun ⟨_, hrun, hinit⟩ =>
    kinit_not_initialised pgnumOk (by decide) (by decide) (by decide) _ hrun hinit

end Xv6
