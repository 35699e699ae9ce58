import Xv6.Proc.Partition

/-!
# `va2pa`

`user.h` declares `va2pa(addr, pid)`; the stub leaves the arguments where the
compiler puts them, in `a0` and `a1`, and the kernel takes `pid` from `a0` and
the address from `a1`. It returns the page that `walkaddr` finds, without the
offset. What a program gets is then right only by coincidence: `va2pa_iff` says
which. The argument is that no two addresses of user memory, of one process or
of two, have the same physical page.
-/

namespace Xv6

open List
open Cpus (ProcState)
open PageTree

/-! ## The code -/

/-- `sys_va2pa`, called by `p` with `a0` and `a1` in its trapframe. -/
def sysVa2pa (E : Env) (p : Fin NPROC) (a0 a1 : BitVec 64) : Sys Kernel Nat := do
  let pid : BitVec 32 := a0.setWidth 32
  let found ← Sys.reads fun k =>
    if pid ≠ 0 then (List.finRange NPROC).find? fun q => (k.proc q).pid = pid else some p
  match found with
  | none => pure 0
  | some q => do
    let pagetable ← Sys.reads fun k => (k.proc q).pagetable
    onPhys (walkaddr E pagetable a1.toNat)

/-- `va2pa(addr, pid)` as a program calls it. -/
def va2pa (E : Env) (p : Fin NPROC) (addr : BitVec 64) (pid : BitVec 32) : Sys Kernel Nat :=
  sysVa2pa E p addr (pid.signExtend 64)

/-! ## What it is for -/

/-- The process that a pid names for the caller `p`; 0 is the caller. -/
def named (k : Kernel) (p : Fin NPROC) (pid : BitVec 32) : Option (Fin NPROC) :=
  if pid = 0 then some p
  else (List.finRange NPROC).find? fun q => (k.proc q).state ≠ .UNUSED ∧ (k.proc q).pid = pid

/-- The leaf entry of `va` in the process's page table. -/
def leafPte (k : Kernel) (q : Fin NPROC) (va : Nat) : Nat :=
  entryAt k.phys.kmem.mem va 0 2 (k.proc q).pagetable

/-- The process may use `va`. -/
def Mapped (k : Kernel) (q : Fin NPROC) (va : Nat) : Prop :=
  va < MAXVA ∧ leafPte k q va &&& PTE_V ≠ 0 ∧ leafPte k q va &&& PTE_U ≠ 0

instance (k : Kernel) (q : Fin NPROC) (va : Nat) : Decidable (Mapped k q va) :=
  inferInstanceAs (Decidable (_ ∧ _ ∧ _))

/-- The physical address of `va` in the process that `pid` names, or 0. -/
def translation (k : Kernel) (p : Fin NPROC) (va : Nat) (pid : BitVec 32) : Nat :=
  match named k p pid with
  | none => 0
  | some q => if Mapped k q va then PTE2PA (leafPte k q va) + va % PGSIZE else 0

/-- There is something to translate. -/
def Translates (k : Kernel) (p : Fin NPROC) (va : Nat) (pid : BitVec 32) : Prop :=
  ∃ q, named k p pid = some q ∧ Mapped k q va

section Proofs

variable {E : Env} {F : List Nat} {held : List (Fin NFILE)} {k : Kernel}
  {g : Spaces NPROC} {pipes : List Nat} {p q : Fin NPROC}

/-! ## User pages of a machine -/

variable {pid : BitVec 32} {va : Nat}

theorem mapped_iff (h : Wf E F held k g pipes) (hq : (k.proc q).state ≠ .UNUSED) :
    Mapped k q va ↔ Access (g q).1 va := by
  obtain ⟨hpa, _, _, hsp⟩ := h.space ((h.proc q).used hq)
  unfold Mapped leafPte Access
  rw [hpa, hsp.entryAt_eq]

theorem mapped_page (hE : E.Ok) (h : Wf E F held k g pipes) (hq : (k.proc q).state ≠ .UNUSED)
    (hm : Mapped k q va) :
    ∃ x, (g q).2[va / PGSIZE]? = some x ∧ PTE2PA (leafPte k q va) = x.1 ∧
      x.1 % PGSIZE = 0 ∧ x.1 ≠ 0 := by
  obtain ⟨hpa, _, _, hsp⟩ := h.space ((h.proc q).used hq)
  obtain ⟨x, hx, _⟩ := (hsp.access_iff hE).mp ((mapped_iff h hq).mp hm)
  have hpage : E.Page x.1 := hsp.acct.page_of_mem (mem_append_right _ (mem_append_left _
    (mem_map_of_mem (mem_of_getElem? hx))))
  obtain ⟨haligned, hbase, _⟩ := hpage.addr hE
  refine ⟨x, hx, ?_, haligned, ?_⟩
  · unfold leafPte
    rw [hpa, hsp.entryAt_eq]
    exact hsp.user_page hE hx
  · simp only [KERNBASE] at hbase
    omega

/-- **A physical page is at one place**: of one process, at one page number. -/
theorem page_inj (h : Wf E F held k g pipes) {q' : Fin NPROC} (hq : (k.proc q).state ≠ .UNUSED)
    {i j : Nat} {x y : Nat × Nat} (hx : (g q).2[i]? = some x) (hy : (g q').2[j]? = some y)
    (hxy : x.1 = y.1) : q = q' ∧ i = j := by
  obtain ⟨_, _, _, hsp⟩ := h.space ((h.proc q).used hq)
  have hne : q = q' := by
    by_contra hne
    have hrest : y.1 ∈ k.rest g (pipes ++ F) q := Slots.mem_restOf (Ne.symm hne)
      (mem_append_right _ (mem_append_left _
        (mem_map_of_mem (mem_of_getElem? hy))))
    have hdis := (nodup_append.mp (nodup_append.mp hsp.acct.nodup_owned).2.1).2.2
    exact hdis x.1 (mem_map_of_mem (mem_of_getElem? hx)) y.1
      (mem_cons_of_mem _ hrest) hxy
  subst hne
  exact ⟨rfl, hsp.index_inj hx hy hxy⟩

/-! ## What the call returns -/

theorem find_congr (hfree : ∀ q, (k.proc q).state = .UNUSED → (k.proc q).pid = 0) (hpid : pid ≠ 0) :
    ((List.finRange NPROC).find? fun q => (k.proc q).pid = pid) = named k p pid := by
  unfold named
  rw [if_neg hpid]
  congr 1
  funext q
  refine decide_eq_decide.mpr ⟨fun hq => ⟨fun hun => ?_, hq⟩, And.right⟩
  exact hpid ((hq.symm.trans (hfree q hun)))

theorem named_used (hp : (k.proc p).state = .RUNNING) (h : named k p pid = some q) :
    (k.proc q).state ≠ .UNUSED := by
  unfold named at h
  split_ifs at h
  · cases h
    rw [hp]
    decide
  · have hq := find?_some h
    exact (of_decide_eq_true hq).1

/-- The page of `va` in the process that `pid` names, or 0. -/
def pageOf (k : Kernel) (p : Fin NPROC) (va : Nat) (pid : BitVec 32) : Nat :=
  match named k p pid with
  | none => 0
  | some q => if Mapped k q va then PTE2PA (leafPte k q va) else 0

/-- **What the call returns**: the page of the address that `pid` is, in the
    process whose pid the address is. -/
theorem va2pa_run (h : Wf E F held k g pipes) (hp : (k.proc p).state = .RUNNING)
    (hfree : ∀ q, (k.proc q).state = .UNUSED → (k.proc q).pid = 0) (addr : BitVec 64)
    (pid : BitVec 32) :
    va2pa E p addr pid k =
      .ok (pageOf k p (pid.signExtend 64).toNat (addr.setWidth 32), k) := by
  have hfound : (if addr.setWidth 32 ≠ 0 then
      (List.finRange NPROC).find? fun q => (k.proc q).pid = addr.setWidth 32 else some p) =
      named k p (addr.setWidth 32) := by
    by_cases hzero : addr.setWidth 32 = 0
    · rw [if_neg (not_not.mpr hzero), named, if_pos hzero]
    · rw [if_pos hzero, find_congr hfree hzero]
  unfold va2pa sysVa2pa pageOf
  rw [Sys.reads_bind_run, hfound]
  cases hn : named k p (addr.setWidth 32) with
  | none => rfl
  | some q =>
    have hq := named_used hp hn
    obtain ⟨hpa, _, _, hsp⟩ := h.space ((h.proc q).used hq)
    have hwalk := walkaddr_eq (E := E) hsp.wf (pid.signExtend 64).toNat
    rw [← hpa] at hwalk
    dsimp only
    rw [Sys.reads_bind_run, onPhys, Sys.zoom_of_ok hwalk]
    have hpage : (g q).1.page (pid.signExtend 64).toNat =
        PTE2PA (leafPte k q (pid.signExtend 64).toNat) := by
      rw [leafPte, hpa, hsp.entryAt_eq]
      rfl
    rw [hpage, if_congr (mapped_iff h hq).symm rfl rfl]
    rfl

theorem pageOf_eq_zero (h : ¬ Translates k p va pid) : pageOf k p va pid = 0 := by
  unfold pageOf
  cases hn : named k p pid with
  | none => rfl
  | some q => exact if_neg fun hm => h ⟨q, hn, hm⟩

theorem pageOf_eq (hn : named k p pid = some q) (hm : Mapped k q va) :
    pageOf k p va pid = PTE2PA (leafPte k q va) := by
  unfold pageOf
  rw [hn]
  exact if_pos hm

theorem translation_eq_zero (h : ¬ Translates k p va pid) : translation k p va pid = 0 := by
  unfold translation
  cases hn : named k p pid with
  | none => rfl
  | some q => exact if_neg fun hm => h ⟨q, hn, hm⟩

theorem translation_eq (hn : named k p pid = some q)
    (hm : Mapped k q va) : translation k p va pid = PTE2PA (leafPte k q va) + va % PGSIZE := by
  unfold translation
  rw [hn]
  exact if_pos hm

/-- An address that starts a page, and another in that page. -/
theorem mapped_of_page (h : Wf E F held k g pipes) (hq : (k.proc q).state ≠ .UNUSED) {a b : Nat}
    (hab : a / PGSIZE = b / PGSIZE) (ha : Mapped k q a) :
    Mapped k q b ∧ PTE2PA (leafPte k q b) = PTE2PA (leafPte k q a) := by
  obtain ⟨hpa, _, _, hsp⟩ := h.space ((h.proc q).used hq)
  refine ⟨(mapped_iff h hq).mpr (((mapped_iff h hq).mp ha).congr hab), ?_⟩
  rw [leafPte, leafPte, hpa, hsp.entryAt_eq, hsp.entryAt_eq]
  exact (page_congr hab).symm

/-- A page is the address meant by `va` in one case only. -/
theorem pageOf_eq_translation_iff (hE : E.Ok) (h : Wf E F held k g pipes)
    (hp : (k.proc p).state = .RUNNING) {va' : Nat} {pid' : BitVec 32} :
    pageOf k p va' pid' = translation k p va pid ↔
      (¬ Translates k p va pid ∧ ¬ Translates k p va' pid') ∨
      (va % PGSIZE = 0 ∧ va / PGSIZE = va' / PGSIZE ∧
        ∃ q, named k p pid = some q ∧ named k p pid' = some q ∧ Mapped k q va) := by
  by_cases hmeant : Translates k p va pid
  · obtain ⟨q, hn, hm⟩ := hmeant
    have hq := named_used hp hn
    obtain ⟨x, hx, hpage, haligned, hx0⟩ := mapped_page hE h hq hm
    rw [translation_eq hn hm, hpage]
    constructor
    · intro heq
      have htaken : Translates k p va' pid' := by
        by_contra hno
        rw [pageOf_eq_zero hno] at heq
        omega
      obtain ⟨q', hn', hm'⟩ := htaken
      obtain ⟨y, hy, hpage', haligned', _⟩ := mapped_page hE h (named_used hp hn') hm'
      rw [pageOf_eq hn' hm', hpage'] at heq
      have hmod : va % PGSIZE < PGSIZE := Nat.mod_lt _ (by decide)
      have hoff : va % PGSIZE = 0 := by
        simp only [PGSIZE] at *
        omega
      obtain ⟨rfl, hidx⟩ := page_inj h hq hx hy (by omega)
      exact .inr ⟨hoff, hidx, q, hn, hn', hm⟩
    · rintro (⟨hno, _⟩ | ⟨hoff, hidx, q', hn1, hn', _⟩)
      · exact absurd ⟨q, hn, hm⟩ hno
      · rw [hn] at hn1
        cases hn1
        obtain ⟨hm', hsame⟩ := mapped_of_page h hq hidx hm
        rw [pageOf_eq hn' hm', hsame, hpage, hoff, Nat.add_zero]
  · rw [translation_eq_zero hmeant]
    constructor
    · intro hzero
      refine .inl ⟨hmeant, ?_⟩
      rintro ⟨q', hn', hm'⟩
      obtain ⟨y, _, hpage', _, hy0⟩ := mapped_page hE h (named_used hp hn') hm'
      rw [pageOf_eq hn' hm', hpage'] at hzero
      exact hy0 hzero
    · rintro (⟨_, hno⟩ | ⟨_, _, q, hn, _, hm⟩)
      · exact pageOf_eq_zero hno
      · exact absurd ⟨q, hn, hm⟩ hmeant

/-- **When `va2pa` translates**: there is nothing to translate, neither as it
    was meant nor as the kernel takes it; or the address starts a page and,
    taken as a pid, names the same process, where the pid, taken as an address,
    is in that page. -/
theorem va2pa_iff (hE : E.Ok) (h : Wf E F held k g pipes) (hp : (k.proc p).state = .RUNNING)
    (hfree : ∀ q, (k.proc q).state = .UNUSED → (k.proc q).pid = 0) (addr : BitVec 64)
    (pid : BitVec 32) :
    va2pa E p addr pid k = .ok (translation k p addr.toNat pid, k) ↔
      (¬ Translates k p addr.toNat pid ∧
        ¬ Translates k p (pid.signExtend 64).toNat (addr.setWidth 32)) ∨
      (addr.toNat % PGSIZE = 0 ∧ addr.toNat / PGSIZE = (pid.signExtend 64).toNat / PGSIZE ∧
        ∃ q, named k p pid = some q ∧ named k p (addr.setWidth 32) = some q ∧
          Mapped k q addr.toNat) := by
  rw [va2pa_run h hp hfree, ← pageOf_eq_translation_iff hE h hp]
  constructor
  · intro heq
    injection heq with heq
    injection heq
  · intro heq
    rw [heq]

end Proofs

/-! ## A process of one page -/

/-- The first process, with pid 1 and one page of memory. -/
theorem exists_onePage :
    ∃ m g pipes, exec (Machine.step (smallEnv 20)) (firstMachine 20) [.growproc 0 4096] = .next m ∧
      Wf (smallEnv 20) [PHYSTOP - PGSIZE] m.held m.kernel g pipes ∧
      (m.kernel.proc 0).state = .RUNNING ∧
      (∀ q, (m.kernel.proc q).state = .UNUSED → (m.kernel.proc q).pid = 0) ∧
      Mapped m.kernel 0 0 ∧ pageOf m.kernel 0 0 16 = 0 ∧ translation m.kernel 0 16 0 ≠ 0 := by
  obtain ⟨hE, hm⟩ := firstMachine_twenty
  obtain ⟨m, hrun, htest⟩ := Outcome.exists_of_check
    (x := exec (Machine.step (smallEnv 20)) (firstMachine 20) [.growproc 0 4096])
    (t := fun m => decide ((m.kernel.proc 0).state = .RUNNING ∧
      (∀ q, (m.kernel.proc q).state = .UNUSED → (m.kernel.proc q).pid = 0) ∧
      Mapped m.kernel 0 0 ∧ pageOf m.kernel 0 0 16 = 0 ∧ translation m.kernel 0 16 0 ≠ 0))
    (by decide +kernel)
  have hkept := Machine.exec_kept hE [.growproc 0 4096] hm
  rw [hrun] at hkept
  cases hkept with
  | next hwell =>
    obtain ⟨g, pipes, hwf⟩ := hwell
    exact ⟨m, g, pipes, hrun, hwf, of_decide_eq_true htest⟩

theorem va2pa_iff_zero :
    ∃ m, exec (Machine.step (smallEnv 20)) (firstMachine 20) [.growproc 0 4096] = .next m ∧
      va2pa (smallEnv 20) 0 0 0 m.kernel = .ok (translation m.kernel 0 0 0, m.kernel) := by
  obtain ⟨m, g, pipes, hrun, hwf, hp, hfree, hmapped, _⟩ := exists_onePage
  refine ⟨m, hrun, ?_⟩
  have hiff := va2pa_iff (smallEnv_ok (by decide)) hwf hp hfree 0 0
  exact hiff.mpr (.inr ⟨by decide, by decide, 0, rfl, rfl, hmapped⟩)

/-- **`va2pa(16, 0)`** in a process with a page at 0: the kernel looks for the
    pid 16, finds none and returns 0. -/
theorem va2pa_swaps_arguments :
    ∃ m, exec (Machine.step (smallEnv 20)) (firstMachine 20) [.growproc 0 4096] = .next m ∧
      va2pa (smallEnv 20) 0 16 0 m.kernel = .ok (0, m.kernel) ∧
      translation m.kernel 0 16 0 ≠ 0 := by
  obtain ⟨m, g, pipes, hrun, hwf, hp, hfree, _, hpage, hmeant⟩ := exists_onePage
  refine ⟨m, hrun, ?_, hmeant⟩
  rw [va2pa_run hwf hp hfree]
  exact congrArg (fun r => Except.ok (r, m.kernel)) hpage

end Xv6
