import Xv6.Mem.Boot

/-!
# Pages with several references

A page may have been counted more than once. `kfree` takes one reference back
and puts the page on the free list with the last: the counting is right. The
filling with junk is not: it comes before the count is looked at, so the first
`kfree` of a shared page overwrites what the remaining references still use.
-/

namespace Xv6

open Function List Sys

/-- The address of a page of RAM. -/
def RamPage (p : Nat) : Prop := p % PGSIZE = 0 ∧ KERNBASE ≤ p ∧ p < PHYSTOP

/-- A call of the allocator. -/
inductive AllocOp where
  | kalloc
  | kfree (pa : Nat)
  deriving DecidableEq

section Code

variable (PGNUM : Nat → Nat) (kend : Nat)

/-- A sequence of calls, with what its calls of `kalloc` returned. -/
def allocOps : List AllocOp → Sys Kmem (List Nat)
  | [] => pure []
  | .kalloc :: ops => do
    let r ← kalloc PGNUM
    let rs ← allocOps ops
    pure (r :: rs)
  | .kfree pa :: ops => do
    kfree PGNUM kend pa
    allocOps ops

end Code

variable {PGNUM : Nat → Nat} {kend : Nat}

/-- `pa` has `k` references and is not on the free list. -/
structure Referenced (PGNUM : Nat → Nat) (pa k : Nat) (s : Kmem) : Prop where
  refCount : (s.refCount (PGNUM pa)).toNat = k
  notFree : pa ∉ s.freelist
  ram : ∀ q ∈ s.freelist, RamPage q

theorem PgnumOk.ne (h : PgnumOk PGNUM) {p q : Nat} (hp : RamPage p) (hq : RamPage q)
    (hne : p ≠ q) : PGNUM p ≠ PGNUM q := fun e =>
  hne (h.inj p q hp.1 hp.2.1 hp.2.2 hq.1 hq.2.1 hq.2.2 e)

/-! ## One call -/

/-- A finished `kfree`: its argument is a page of RAM, and the page goes on the
    free list exactly if this was the last reference. -/
theorem kfree_eq_ok {pa : Nat} {s s' : Kmem} {r : Unit} (hend : KERNBASE ≤ kend)
    (h : kfree PGNUM kend pa s = .ok (r, s')) :
    RamPage pa ∧
    s'.refCount = update s.refCount (PGNUM pa) (s.refCount (PGNUM pa) - 1) ∧
    s'.mem = update s.mem pa ((s.mem pa).fill 0 PGSIZE 1) ∧
    (s.refCount (PGNUM pa) - 1 = 0 ∧ s'.freelist = pa :: s.freelist ∧
        s'.freePages = s.freePages + 1 ∨
      s.refCount (PGNUM pa) - 1 ≠ 0 ∧ s'.freelist = s.freelist ∧
        s'.freePages = s.freePages) := by
  simp only [kfree, reads_bind_run, id_eq] at h
  split at h
  · cases h
  split at h
  · cases h
  rename_i hpre
  simp only [modify_bind_run, reads_bind_run, id_eq, Kmem.setRef_self] at h
  have hram : RamPage pa := by
    unfold RamPage
    omega
  split at h
  · rename_i hzero
    cases h
    exact ⟨hram, rfl, rfl, .inl ⟨hzero, rfl, rfl⟩⟩
  · rename_i hzero
    cases h
    exact ⟨hram, rfl, rfl, .inr ⟨hzero, rfl, rfl⟩⟩

/-- A finished `kalloc`: it took the first page of the free list, if there is
    one. -/
theorem kalloc_eq_ok {s s' : Kmem} {r : Nat} (h : kalloc PGNUM s = .ok (r, s')) :
    (r = 0 ∧ s.freelist = [] ∧ s'.freelist = [] ∧ s'.refCount = s.refCount ∧ s'.mem = s.mem) ∨
    (s.freelist = r :: s'.freelist ∧
      s'.refCount = update s.refCount (PGNUM r) (s.refCount (PGNUM r) + 1) ∧
      s'.mem = update s.mem r ((s.mem r).fill 0 PGSIZE 5)) := by
  simp only [kalloc, reads_bind_run, id_eq] at h
  split at h
  · cases h
  cases hfree : s.freelist with
  | nil =>
    simp only [hfree] at h
    cases h
    exact .inl ⟨rfl, rfl, hfree, rfl, rfl⟩
  | cons q rest =>
    simp only [hfree] at h
    cases h
    exact .inr ⟨rfl, rfl, rfl⟩

namespace Referenced

variable {pa k : Nat} {s s' : Kmem}

theorem kalloc (hn : PgnumOk PGNUM) (hpa : RamPage pa) {r : Nat} (h : Referenced PGNUM pa k s)
    (hrun : Xv6.kalloc PGNUM s = .ok (r, s')) :
    Referenced PGNUM pa k s' ∧ s'.mem pa = s.mem pa ∧ r ≠ pa := by
  rcases kalloc_eq_ok hrun with ⟨rfl, _, hfree, href, hmem⟩ | ⟨hfree, href, hmem⟩
  · refine ⟨⟨by rw [href]; exact h.refCount, by rw [hfree]; exact not_mem_nil, ?_⟩,
      by rw [hmem], ?_⟩
    · rw [hfree]
      intro q hq
      cases hq
    · intro h0
      have := hpa.2.1
      rw [← h0] at this
      exact absurd this (by decide)
  · have hr : r ∈ s.freelist := by
      rw [hfree]
      exact mem_cons_self
    have hne : r ≠ pa := fun e => h.notFree (e ▸ hr)
    have hsub : ∀ q ∈ s'.freelist, q ∈ s.freelist := fun q hq => by
      rw [hfree]
      exact mem_cons_of_mem _ hq
    refine ⟨⟨?_, fun hq => h.notFree (hsub pa hq), fun q hq => h.ram q (hsub q hq)⟩, ?_, hne⟩
    · rw [href, update_of_ne (hn.ne hpa (h.ram r hr) hne.symm)]
      exact h.refCount
    · rw [hmem, update_of_ne hne.symm]

theorem kfree_other (hn : PgnumOk PGNUM) (hend : KERNBASE ≤ kend) (hpa : RamPage pa) {q : Nat}
    (hq : q ≠ pa) {x : Unit} (h : Referenced PGNUM pa k s)
    (hrun : kfree PGNUM kend q s = .ok (x, s')) :
    Referenced PGNUM pa k s' ∧ s'.mem pa = s.mem pa := by
  obtain ⟨hram, href, hmem, hcase⟩ := kfree_eq_ok hend hrun
  have hcount : (s'.refCount (PGNUM pa)).toNat = k := by
    rw [href, update_of_ne (hn.ne hpa hram hq.symm)]
    exact h.refCount
  refine ⟨?_, by rw [hmem, update_of_ne hq.symm]⟩
  rcases hcase with ⟨_, hfree, _⟩ | ⟨_, hfree, _⟩
  · refine ⟨hcount, ?_, ?_⟩
    · rw [hfree]
      exact not_mem_cons_of_ne_of_not_mem hq.symm h.notFree
    · rw [hfree]
      intro p hp
      rcases mem_cons.mp hp with rfl | hp
      · exact hram
      · exact h.ram p hp
  · exact ⟨hcount, hfree ▸ h.notFree, hfree ▸ h.ram⟩

/-- **`kfree` of the page itself** takes one reference back; the last one frees
    it. -/
theorem kfree_self (hend : KERNBASE ≤ kend) {x : Unit} (h : Referenced PGNUM pa (k + 1) s)
    (hrun : kfree PGNUM kend pa s = .ok (x, s')) :
    (s'.refCount (PGNUM pa)).toNat = k ∧ s'.mem pa = (s.mem pa).fill 0 PGSIZE 1 ∧
    (k = 0 ∧ s'.freelist = pa :: s.freelist ∧ s'.freePages = s.freePages + 1 ∨
      k ≠ 0 ∧ s'.freelist = s.freelist ∧ s'.freePages = s.freePages) := by
  obtain ⟨_, href, hmem, hcase⟩ := kfree_eq_ok hend hrun
  have hone : (1 : UInt32).toNat = 1 := rfl
  have hdown : (s.refCount (PGNUM pa) - 1).toNat = k := by
    rw [UInt32.toNat_sub_of_le _ _ (by rw [UInt32.le_iff_toNat_le, h.refCount]; omega), h.refCount]
    omega
  have hzero : s.refCount (PGNUM pa) - 1 = 0 ↔ k = 0 := by
    rw [← UInt32.toNat_inj, hdown]
    exact Iff.rfl
  refine ⟨by rw [href, update_self, hdown], by rw [hmem, update_self], ?_⟩
  rwa [hzero, ne_eq, hzero] at hcase

end Referenced

/-! ## Sequences of calls -/

/-- What the counting promises after `j` of `k` references were taken back: the
    rest is counted, the page was not handed out, and it is the `k`-th call that
    frees it. -/
structure Outstanding (PGNUM : Nat → Nat) (kend pa k j : Nat) (rs : List Nat) (s : Kmem) :
    Prop where
  referenced : Referenced PGNUM pa (k - j) s
  notReturned : pa ∉ rs
  last : ∀ s', kfree PGNUM kend pa s = .ok ((), s') →
    if j + 1 = k then s'.freelist = pa :: s.freelist ∧ s'.freePages = s.freePages + 1
    else s'.freelist = s.freelist ∧ s'.freePages = s.freePages

/-- The state after a sequence that has not taken back the last reference. -/
theorem allocOps_referenced (hn : PgnumOk PGNUM) (hend : KERNBASE ≤ kend) {pa : Nat}
    (hpa : RamPage pa) : ∀ {ops : List AllocOp} {k : Nat} {s s' : Kmem} {rs : List Nat},
    Referenced PGNUM pa k s → ops.count (.kfree pa) < k →
    allocOps PGNUM kend ops s = .ok (rs, s') →
    Referenced PGNUM pa (k - ops.count (.kfree pa)) s' ∧ pa ∉ rs ∧
      s'.mem pa = if ops.count (.kfree pa) = 0 then s.mem pa else (s.mem pa).fill 0 PGSIZE 1 := by
  intro ops
  induction ops with
  | nil =>
    intro k s s' rs h _ hrun
    cases hrun
    exact ⟨h, not_mem_nil, rfl⟩
  | cons op ops ih =>
    intro k s s' rs h hj hrun
    cases op with
    | kalloc =>
      obtain ⟨r, s1, h1, hrun⟩ := bind_eq_ok.mp hrun
      obtain ⟨rs', s2, h2, hrun⟩ := bind_eq_ok.mp hrun
      cases hrun
      obtain ⟨href, hmem, hne⟩ := h.kalloc hn hpa h1
      have hcount : (AllocOp.kalloc :: ops).count (.kfree pa) = ops.count (.kfree pa) :=
        count_cons_of_ne (by nofun)
      rw [hcount] at hj ⊢
      obtain ⟨href', hrs, hmem'⟩ := ih href hj h2
      exact ⟨href', not_mem_cons_of_ne_of_not_mem hne.symm hrs, by rw [hmem', hmem]⟩
    | kfree q =>
      obtain ⟨_, s1, h1, h2⟩ := bind_eq_ok.mp hrun
      by_cases hq : q = pa
      · subst hq
        rw [count_cons_self] at hj ⊢
        obtain ⟨k, rfl⟩ : ∃ k', k = k' + 1 := ⟨k - 1, by omega⟩
        obtain ⟨hcount, hmem, hcase⟩ := h.kfree_self hend h1
        -- a reference is left, so the page was not put on the list
        have hfree : s1.freelist = s.freelist := by
          rcases hcase with ⟨h0, _⟩ | ⟨_, hfree, _⟩
          · omega
          · exact hfree
        have href : Referenced PGNUM q k s1 := ⟨hcount, hfree ▸ h.notFree, hfree ▸ h.ram⟩
        obtain ⟨href', hrs, hmem'⟩ := ih href (by omega) h2
        refine ⟨by rwa [Nat.add_sub_add_right], hrs, ?_⟩
        rw [hmem', hmem, if_neg (Nat.succ_ne_zero _)]
        split
        · rfl
        · funext a
          simp only [Bytes.fill]
          split <;> rfl
      · have hcount : (AllocOp.kfree q :: ops).count (.kfree pa) = ops.count (.kfree pa) :=
          count_cons_of_ne (by simpa using hq)
        obtain ⟨href, hmem⟩ := h.kfree_other hn hend hpa hq h1
        rw [hcount] at hj ⊢
        obtain ⟨href', hrs, hmem'⟩ := ih href hj h2
        exact ⟨href', hrs, by rw [hmem', hmem]⟩

/-- **Taking references back one by one.** Whatever the other calls of the
    sequence, the count, the free list and `FREE_PAGES` are right after `j < k`
    calls of `kfree` on the page; what it holds is unchanged exactly if there
    was no such call, or if it was full of junk already. -/
theorem kfree_respects_references_iff (hn : PgnumOk PGNUM) (hend : KERNBASE ≤ kend) {pa k : Nat}
    (hpa : RamPage pa) {s s' : Kmem} (hs : Referenced PGNUM pa k s) {ops : List AllocOp}
    {rs : List Nat} (hj : ops.count (.kfree pa) < k)
    (hrun : allocOps PGNUM kend ops s = .ok (rs, s')) :
    (s'.mem pa = s.mem pa ∧ Outstanding PGNUM kend pa k (ops.count (.kfree pa)) rs s' ↔
      ops.count (.kfree pa) = 0 ∨ (s.mem pa).fill 0 PGSIZE 1 = s.mem pa) ∧
    Outstanding PGNUM kend pa k (ops.count (.kfree pa)) rs s' := by
  obtain ⟨href, hrs, hmem⟩ := allocOps_referenced hn hend hpa hs hj hrun
  have hout : Outstanding PGNUM kend pa k (ops.count (.kfree pa)) rs s' := by
    refine ⟨href, hrs, fun s'' hfree => ?_⟩
    obtain ⟨m, hm⟩ : ∃ m, k - ops.count (.kfree pa) = m + 1 :=
      ⟨k - ops.count (.kfree pa) - 1, by omega⟩
    rw [hm] at href
    obtain ⟨_, _, ⟨h0, hlist⟩ | ⟨h0, hlist⟩⟩ := href.kfree_self hend hfree
    · rw [if_pos (by omega)]
      exact hlist
    · rw [if_neg (by omega)]
      exact hlist
  refine ⟨⟨fun h => ?_, fun h => ⟨?_, hout⟩⟩, hout⟩
  · rw [hmem] at h
    by_cases h0 : ops.count (.kfree pa) = 0
    · exact .inl h0
    · rw [if_neg h0] at h
      exact .inr h.1
  · rw [hmem]
    rcases h with h0 | hjunk
    · rw [if_pos h0]
    · rw [hjunk, ite_self]

/-- The first page behind the kernel, with `k` references and all zeroes, and
    one free page. -/
def sharedPage (k : UInt32) : Kmem where
  freelist := [0x80023000]
  refCount := fun i => if i = pgnum 0x80022000 then k else 0
  freePages := 1
  maxPages := 2
  mem := fun _ => Bytes.zero

theorem sharedPage_referenced (k : UInt32) :
    Referenced pgnum 0x80022000 k.toNat (sharedPage k) := by
  refine ⟨rfl, fun h => absurd (mem_singleton.mp h) (by decide), fun q hq => ?_⟩
  rw [mem_singleton.mp hq]
  exact ⟨by decide, by decide, by decide⟩

/-- A page with one reference, while another is taken and given back. -/
theorem kfree_respects_references_iff_one :
    ∃ rs s', allocOps pgnum 0x80021ef0 [.kalloc, .kfree 0x80023000] (sharedPage 1)
        = .ok (rs, s') ∧
      s'.mem 0x80022000 = (sharedPage 1).mem 0x80022000 ∧
      Outstanding pgnum 0x80021ef0 0x80022000 1 0 rs s' := by
  obtain ⟨rs, s', hrun, _⟩ := exists_of_check
    (x := allocOps pgnum 0x80021ef0 [.kalloc, .kfree 0x80023000]) (s := sharedPage 1)
    (t := fun _ _ => true) (by decide +kernel)
  have hiff := kfree_respects_references_iff pgnumOk (by decide)
    ⟨by decide, by decide, by decide⟩ (sharedPage_referenced 1) (by decide) hrun
  exact ⟨rs, s', hrun, hiff.1.mpr (.inl (by decide))⟩

/-- **A page with two references, one of them taken back**: it is still counted
    and not free, and has been overwritten. -/
theorem kfree_overwrites_shared_page :
    ∃ s', kfree pgnum 0x80021ef0 0x80022000 (sharedPage 2) = .ok ((), s') ∧
      (s'.refCount (pgnum 0x80022000)).toNat = 1 ∧ 0x80022000 ∉ s'.freelist ∧
      (sharedPage 2).mem 0x80022000 0 = 0 ∧ s'.mem 0x80022000 0 = 1 := by
  obtain ⟨_, s', hrun, hbytes⟩ := exists_of_check
    (x := kfree pgnum 0x80021ef0 0x80022000) (s := sharedPage 2)
    (t := fun _ s' => decide ((s'.refCount (pgnum 0x80022000)).toNat = 1 ∧
      0x80022000 ∉ s'.freelist ∧ (sharedPage 2).mem 0x80022000 0 = 0 ∧
      s'.mem 0x80022000 0 = 1)) (by decide +kernel)
  exact ⟨s', hrun, of_decide_eq_true hbytes⟩

end Xv6
