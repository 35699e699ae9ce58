import Mathlib.Data.List.Perm.Basic
import Xv6.Mem.Boot

/-!
# Pages and their owners

The rest of the kernel sees physical memory through `kalloc` and `kfree`.
`kalloc` is taken at what its comment promises, a page nobody has or 0, and may
fail at any call; which page it returns and when it fails is a parameter, so
that statements are about every way it could. The code of `kalloc` begins with
an assertion that its comment does not mention: an environment may have it too,
and is then no longer `Ok`. `kfree` is the code of `kernel/kalloc.c`.

`Acct L` is the ledger: every page is on the free list with count 0 or in `L`
with count 1, and in one place only. A function that allocates and frees is
specified by what it does to its own part of `L`; whatever else is in the ledger
stays.
-/

namespace Xv6

open List Sys

/-- What is left open about the machine: the numbering of pages, the end of the
    kernel, the page of the trampoline, what the `n`-th call of `kalloc` returns
    in a given state, and the bytes that the one page of a kernel stack has for
    the array of `ps`, with the frames above it and those of the functions it
    calls set aside. -/
structure Env where
  PGNUM : Nat → Nat
  kend : Nat
  trampoline : Nat
  kalloc : Nat → Kmem → Option Nat
  stackRoom : Nat
  /-- `kalloc` has `assert(FREE_PAGES > 0)` -/
  asserts : Bool := false

/-- A page that the allocator hands out. -/
def Env.Page (E : Env) (p : Nat) : Prop := BootPage E.kend p

structure Env.Ok (E : Env) : Prop where
  pgnum : PgnumOk E.PGNUM
  base : KERNBASE ≤ E.kend
  stop : E.kend ≤ PHYSTOP
  /-- a page that nobody has -/
  kalloc : ∀ n k r, E.kalloc n k = some r → r ∈ k.freelist
  contract : E.asserts = false
  /-- the trampoline is a page of the kernel's text -/
  text : E.trampoline % PGSIZE = 0 ∧ E.trampoline < E.kend

/-- Memory as the kernel uses it: the allocator, how often `kalloc` was called
    and how often it returned 0, and the pages that `kfree` was called on, in
    order. -/
structure Phys where
  kmem : Kmem
  calls : Nat
  freed : List Nat
  failed : Nat := 0

def Phys.setKmem (k : Kmem) (s : Phys) : Phys := { s with kmem := k }

section Code

variable (E : Env)

/-- Page `r` leaves the free list, counted once and filled with junk. -/
def Kmem.take (k : Kmem) (r : Nat) : Kmem :=
  let k' := { k with freelist := k.freelist.erase r, freePages := k.freePages - 1 }
  (k'.setRef (E.PGNUM r) (k.refCount (E.PGNUM r) + 1)).memset r 5

/-- `kalloc()`, at its contract. -/
def kallocPage : Sys Phys (Option Nat) := fun s =>
  if E.asserts = true ∧ ¬ s.kmem.freePages > 0 then .error (.panic "assert failed")
  else match E.kalloc s.calls s.kmem with
    | none => .ok (none, { s with calls := s.calls + 1, failed := s.failed + 1 })
    | some r => .ok (some r, { s with calls := s.calls + 1, kmem := s.kmem.take E r })

/-- `kfree(pa)` -/
def kfreePage (pa : Nat) : Sys Phys Unit := do
  Sys.zoom Phys.kmem Phys.setKmem (kfree E.PGNUM E.kend pa)
  Sys.modify fun s => { s with freed := s.freed ++ [pa] }

end Code

/-! ## The ledger -/

structure Acct (E : Env) (k : Kmem) (L : List Nat) : Prop where
  nodup : (k.freelist ++ L).Nodup
  pages : ∀ p, p ∈ k.freelist ++ L ↔ E.Page p
  free : ∀ p ∈ k.freelist, k.refCount (E.PGNUM p) = 0
  owned : ∀ p ∈ L, k.refCount (E.PGNUM p) = 1
  freePages : k.freePages.toNat = k.freelist.length
  maxPages : k.maxPages.toNat = k.freelist.length + L.length

namespace Acct

variable {E : Env} {k : Kmem} {L L' : List Nat}

/-- What is not in the ledger is free: two states with ledgers of one length
    have as many free pages. -/
theorem length_eq {k1 k2 : Kmem} {L1 L2 : List Nat} (h1 : Acct E k1 L1) (h2 : Acct E k2 L2) :
    k1.freelist.length + L1.length = k2.freelist.length + L2.length := by
  have hperm : (k1.freelist ++ L1).Perm (k2.freelist ++ L2) :=
    (perm_ext_iff_of_nodup h1.nodup h2.nodup).mpr fun p => by rw [h1.pages, h2.pages]
  simpa using hperm.length_eq

theorem perm (h : Acct E k L) (hp : L.Perm L') : Acct E k L' where
  nodup := (hp.append_left k.freelist).nodup_iff.mp h.nodup
  pages := fun p => by rw [← h.pages p]; simp [hp.mem_iff]
  free := h.free
  owned := fun p hmem => h.owned p (hp.mem_iff.mpr hmem)
  freePages := h.freePages
  maxPages := by rw [h.maxPages, hp.length_eq]

theorem nodup_owned (h : Acct E k L) : L.Nodup := (nodup_append.mp h.nodup).2.1

theorem page_of_mem (h : Acct E k L) {p : Nat} (hp : p ∈ L) : E.Page p :=
  (h.pages p).mp (mem_append_right _ hp)

theorem freelist_perm {k' : Kmem} (h : Acct E k L) (h' : Acct E k' L) :
    k'.freelist.Perm k.freelist := by
  have hfree : ∀ {k : Kmem}, Acct E k L → ∀ p, p ∈ k.freelist ↔ E.Page p ∧ p ∉ L := by
    intro k h p
    have hp := h.pages p
    rw [mem_append] at hp
    have hdis := (nodup_append.mp h.nodup).2.2
    constructor
    · exact fun hf => ⟨hp.mp (.inl hf), fun hL => hdis p hf p hL rfl⟩
    · exact fun ⟨hpage, hL⟩ => (hp.mpr hpage).resolve_right hL
  refine (perm_ext_iff_of_nodup (nodup_append.mp h'.nodup).1
    (nodup_append.mp h.nodup).1).mpr fun p => ?_
  rw [hfree h', hfree h]

theorem not_mem_free (h : Acct E k L) {p : Nat} (hp : p ∈ L) : p ∉ k.freelist := fun hf =>
  (nodup_append.mp h.nodup).2.2 p hf p hp rfl

theorem congr {k' : Kmem} (h : Acct E k L) (h1 : k'.freelist = k.freelist)
    (h2 : k'.refCount = k.refCount) (h3 : k'.freePages = k.freePages)
    (h4 : k'.maxPages = k.maxPages) : Acct E k' L where
  nodup := by rw [h1]; exact h.nodup
  pages := by rw [h1]; exact h.pages
  free := by rw [h1, h2]; exact h.free
  owned := by rw [h2]; exact h.owned
  freePages := by rw [h1, h3]; exact h.freePages
  maxPages := by rw [h1, h4]; exact h.maxPages

end Acct

/-! ## Facts about pages -/

namespace Env

variable {E : Env} {p q : Nat}

theorem Page.aligned (h : E.Page p) : p % PGSIZE = 0 := h.1

theorem Page.kend_le (hE : E.Ok) (h : E.Page p) : E.kend ≤ p := by
  have h1 := h.2.1
  have h2 : E.kend ≤ PGROUNDUP E.kend := le_PGROUNDUP (by
    have := hE.stop
    simp only [PHYSTOP, KERNBASE, PGSIZE] at *
    omega)
  omega

theorem Page.lt (h : E.Page p) : p < PHYSTOP := by
  have := h.2.2
  simp only [PGSIZE] at this
  omega

theorem Page.addr (hE : E.Ok) (h : E.Page p) : p % PGSIZE = 0 ∧ KERNBASE ≤ p ∧ p < PHYSTOP :=
  ⟨h.aligned, le_trans hE.base (h.kend_le hE), h.lt⟩

theorem Page.num_inj (hE : E.Ok) (hp : E.Page p) (hq : E.Page q) (h : E.PGNUM p = E.PGNUM q) :
    p = q := by
  obtain ⟨h1, h2, h3⟩ := hp.addr hE
  obtain ⟨h4, h5, h6⟩ := hq.addr hE
  exact hE.pgnum.inj p q h1 h2 h3 h4 h5 h6 h

end Env

/-! ## The two calls -/

section Specs

variable {E : Env} {s : Phys} {L : List Nat}

theorem kallocPage_none (hE : E.Ok) (h : E.kalloc s.calls s.kmem = none) :
    kallocPage E s = .ok (none, { s with calls := s.calls + 1, failed := s.failed + 1 }) := by
  unfold kallocPage
  rw [if_neg (by simp [hE.contract]), h]

theorem Acct.take (hE : E.Ok) {k : Kmem} (hacct : Acct E k L) {r : Nat} (hmem : r ∈ k.freelist) :
    Acct E (k.take E r) (r :: L) := by
  have hpage : E.Page r := (hacct.pages r).mp (mem_append_left _ hmem)
  have hnotin : r ∉ L := fun hr => hacct.not_mem_free hr hmem
  have hlen : (k.freelist.erase r).length + 1 = k.freelist.length := by
    rw [length_erase_of_mem hmem]
    have := length_pos_of_mem hmem
    omega
  have hperm : (k.freelist ++ L).Perm (k.freelist.erase r ++ r :: L) :=
    ((perm_cons_erase hmem).append_right L).trans perm_middle.symm
  have hnum : ∀ p, E.Page p → p ≠ r → E.PGNUM p ≠ E.PGNUM r := fun p hp hne e =>
    hne (hp.num_inj hE hpage e)
  refine ⟨hperm.nodup_iff.mp hacct.nodup, fun p => ?_, fun p hp => ?_, fun p hp => ?_, ?_, ?_⟩
  · rw [← hacct.pages p]
    exact hperm.mem_iff.symm
  · have hpf : p ∈ k.freelist := mem_of_mem_erase hp
    have hne : p ≠ r := by
      rintro rfl
      exact ((nodup_append.mp hacct.nodup).1.mem_erase_iff.mp hp).1 rfl
    have hpp : E.Page p := (hacct.pages p).mp (mem_append_left _ hpf)
    exact (Kmem.setRef_ne _ _ (hnum p hpp hne)).trans (hacct.free p hpf)
  · rcases mem_cons.mp hp with rfl | hp
    · refine (Kmem.setRef_self _ _ _).trans ?_
      rw [hacct.free p hmem]
      rfl
    · have hne : p ≠ r := fun e => hnotin (e ▸ hp)
      exact (Kmem.setRef_ne _ _ (hnum p (hacct.page_of_mem hp) hne)).trans (hacct.owned p hp)
  · change (k.freePages - 1).toNat = _
    have hfp := hacct.freePages
    rw [UInt64.toNat_sub_of_le _ _ (by
      rw [UInt64.le_iff_toNat_le, hfp]
      have : (1 : UInt64).toNat = 1 := rfl
      omega), hfp]
    have : (1 : UInt64).toNat = 1 := rfl
    change _ = (k.freelist.erase r).length
    omega
  · change k.maxPages.toNat = (k.freelist.erase r).length + (r :: L).length
    rw [hacct.maxPages, length_cons]
    omega

theorem Kmem.take_mem_of_ne (k : Kmem) {p r : Nat} (h : p ≠ r) : (k.take E r).mem p = k.mem p :=
  Function.update_of_ne h _ _

theorem kallocPage_eq_some (hE : E.Ok) {r : Nat} (h : E.kalloc s.calls s.kmem = some r) :
    kallocPage E s = .ok (some r, { s with calls := s.calls + 1, kmem := s.kmem.take E r }) := by
  unfold kallocPage
  rw [if_neg (by simp [hE.contract]), h]

theorem kallocPage_some (hE : E.Ok) (hacct : Acct E s.kmem L) {r : Nat}
    (h : E.kalloc s.calls s.kmem = some r) :
    ∃ s', kallocPage E s = .ok (some r, s') ∧ Acct E s'.kmem (r :: L) ∧ r ∉ L ∧ E.Page r ∧
      (∀ p, p ≠ r → s'.kmem.mem p = s.kmem.mem p) ∧ s'.freed = s.freed ∧
      s'.kmem.freelist.length + 1 = s.kmem.freelist.length := by
  have hmem := hE.kalloc _ _ _ h
  refine ⟨_, kallocPage_eq_some hE h, hacct.take hE hmem, fun hr => hacct.not_mem_free hr hmem,
    (hacct.pages r).mp (mem_append_left _ hmem), fun p hp => Kmem.take_mem_of_ne _ hp, rfl, ?_⟩
  change (s.kmem.freelist.erase r).length + 1 = s.kmem.freelist.length
  rw [length_erase_of_mem hmem]
  have := length_pos_of_mem hmem
  omega

/-- **A page that is given back** goes to the free list. -/
theorem kfreePage_spec (hE : E.Ok) {r : Nat} (hacct : Acct E s.kmem (r :: L)) :
    ∃ s', kfreePage E r s = .ok ((), s') ∧ Acct E s'.kmem L ∧
      (∀ p, p ≠ r → s'.kmem.mem p = s.kmem.mem p) ∧ s'.freed = s.freed ++ [r] ∧
      s'.kmem.freelist.length = s.kmem.freelist.length + 1 := by
  have hr : r ∈ r :: L := by simp
  have hpage := hacct.page_of_mem hr
  have hone := hacct.owned r hr
  have hnum : ∀ p, E.Page p → p ≠ r → E.PGNUM p ≠ E.PGNUM r := fun p hp hne e =>
    hne (hp.num_inj hE hpage e)
  have hassert : ¬ (s.kmem.maxPages ≠ 0 ∧ ¬ s.kmem.freePages < s.kmem.maxPages) := by
    rintro ⟨_, hlt⟩
    apply hlt
    rw [UInt64.lt_iff_toNat_lt, hacct.freePages, hacct.maxPages, length_cons]
    omega
  have hok : ¬ (r % PGSIZE ≠ 0 ∨ r < E.kend ∨ r ≥ PHYSTOP) := by
    have h1 := hpage.aligned
    have h2 := hpage.kend_le hE
    have h3 := hpage.lt
    omega
  have hzero : (1 : UInt32) - 1 = 0 := by decide
  have hsame : (s.kmem.memset r 1).refCount (E.PGNUM r) = 1 := hone
  have hrun : kfree E.PGNUM E.kend r s.kmem = .ok ((), { (s.kmem.memset r 1).setRef (E.PGNUM r) 0
      with freelist := r :: s.kmem.freelist, freePages := s.kmem.freePages + 1 }) := by
    simp only [kfree, reads_bind_run, id_eq]
    rw [if_neg hassert, if_neg hok]
    simp only [modify_bind_run, reads_bind_run, id_eq, hsame, hzero, Kmem.setRef_self,
      if_true]
    rfl
  have hfresh : r ∉ L := (nodup_cons.mp hacct.nodup_owned).1
  have hperm : (s.kmem.freelist ++ r :: L).Perm ((r :: s.kmem.freelist) ++ L) :=
    perm_middle
  refine ⟨{ (Phys.setKmem _ s) with freed := s.freed ++ [r] }, by
      unfold kfreePage
      rw [bind_of_ok (zoom_of_ok hrun)]
      rfl, ⟨?_, ?_, ?_, ?_, ?_, ?_⟩, ?_, rfl, rfl⟩
  · exact hperm.nodup_iff.mp hacct.nodup
  · intro p
    rw [← hacct.pages p]
    exact hperm.mem_iff.symm
  · intro p hp
    rcases mem_cons.mp hp with rfl | hp
    · exact Kmem.setRef_self _ _ _
    · have hne : p ≠ r := fun e => hacct.not_mem_free hr (e ▸ hp)
      have hpp : E.Page p := (hacct.pages p).mp (mem_append_left _ hp)
      exact (Kmem.setRef_ne _ _ (hnum p hpp hne)).trans (hacct.free p hp)
  · intro p hp
    have hne : p ≠ r := fun e => hfresh (e ▸ hp)
    exact (Kmem.setRef_ne _ _ (hnum p (hacct.page_of_mem (by simp [hp])) hne)).trans
      (hacct.owned p (by simp [hp]))
  · change (s.kmem.freePages + 1).toNat = s.kmem.freelist.length + 1
    have hlt : s.kmem.freePages.toNat < s.kmem.maxPages.toNat := by
      rw [hacct.freePages, hacct.maxPages, length_cons]
      omega
    have := s.kmem.maxPages.toNat_lt
    rw [UInt64.toNat_add, hacct.freePages]
    have : (1 : UInt64).toNat = 1 := rfl
    have h64 : s.kmem.freelist.length + 1 < 2 ^ 64 := by
      rw [hacct.freePages] at hlt
      omega
    omega
  · change s.kmem.maxPages.toNat = (s.kmem.freelist.length + 1) + L.length
    rw [hacct.maxPages, length_cons]
    omega
  · intro p hp
    exact Function.update_of_ne hp _ _

end Specs

end Xv6
