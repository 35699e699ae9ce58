import Xv6.Mem.Grow
import Xv6.Proc.Clean

/-!
# Calls that run out of pages

`growproc`, `fork`, `exec` and `pipealloc` when there are fewer free pages than
they need. With the `kalloc` that its comment describes they return -1 and the
caller is as it was; the pages they took go back, except for the tables that
`growproc` added. The code of `kalloc` asserts that there is a page, so each of
them stops the machine instead, and in exactly these cases.
-/

namespace Xv6

open Function List
open Sys PageTree

variable {E : Env}

/-! ## Building a program's memory -/

section Exec

variable (h : E.FirstFree)

include h

theorem loadsegLoop_same (readi : Readi) (pagetable va offset sz : Nat) : ∀ fuel i : Nat,
    E.Same outOfPages fun E => loadsegLoop E (.memory readi) pagetable va offset sz fuel i := by
  intro fuel
  induction fuel with
  | zero =>
    intro i
    exact .hang
  | succ fuel ih =>
    intro i
    refine .ite ((walkaddr_same h ..).bind_same fun pa => ?_) (.pure _)
    refine .ite (.panic _) (.bind_same (.pure _) fun r => ?_)
    refine .bind_same (movePage_tracks ..) fun _ => ?_
    exact .ite (.pure _) (ih _)

theorem loadSegments_tracks (readi : Readi) (pagetable : Nat) : ∀ left off sz : Nat,
    E.Tracks outOfPages (fun r => r.1 = false)
      fun E => loadSegments E (.memory readi) pagetable left off sz := by
  intro left
  induction left with
  | zero =>
    intro off sz
    exact .pure _
  | succ left ih =>
    intro off sz
    refine .bind_same (.pure _) fun r => .ite (.pure _) (.ite (ih _ _) (.ite (.pure _)
      (.ite (.pure _) (.ite (.pure _) ?_))))
    refine (uvmalloc_tracks h ..).bind_ite (fun _ hz => hz) (fun _ => .pure _)
      (fun _ => .pure rfl) fun sz1 => ?_
    refine .bind_same (loadsegLoop_same h ..) fun r => ?_
    exact .ite (.pure _) (ih _ _)

theorem execStack_tracks (pagetable sz : Nat) :
    E.Tracks outOfPages (fun r => r.1 = false) fun E => execStack E pagetable sz := by
  refine (uvmalloc_tracks h ..).bind_ite (fun _ hz => hz) (fun _ => .pure _)
    (fun _ => .pure rfl) fun sz1 => ?_
  exact .bind_same (uvmclear_same h ..) fun _ => .pure _

theorem copyoutFrom_same (pagetable dstva src len : Nat) :
    E.Same outOfPages fun E => copyoutFrom E pagetable dstva src len :=
  .bind_same (.reads _) fun _ => copyout_same h ..

theorem pushArgs_same (pagetable stackbase : Nat) :
    ∀ (argv : Args) (sp argc : Nat) (ustack : Bytes),
    E.Same outOfPages fun E => pushArgs E pagetable stackbase argv sp argc ustack := by
  intro argv
  induction argv with
  | nil =>
    intro sp argc ustack
    exact .pure _
  | cons arg argv ih =>
    intro sp argc ustack
    have hpush : E.Same outOfPages fun E => pushArg E pagetable stackbase arg sp argc :=
      .ite (.pure _) (.ite (.pure _)
        (.bind_same (copyoutFrom_same h ..) fun _ => .ite (.pure _) (.pure _)))
    exact hpush.bind_same (.option (.pure _) fun _ => ih _ _ _)

theorem pushStack_same (pagetable sz : Nat) (argv : Args) (ustack : Bytes) :
    E.Same outOfPages fun E => pushStack E pagetable sz argv ustack := by
  refine .bind_same (pushArgs_same h ..)
    (.option (.pure _) fun ⟨sp, argc, ustack'⟩ => ?_)
  refine .ite (.pure _) (.bind_same (copyout_same h ..) fun r => ?_)
  exact .ite (.pure _) (.pure _)

theorem execImage_tracks (trapframe : Nat) (readi : Readi) (argv : Args)
    (ustack : Bytes) :
    E.Tracks outOfPages (· = none) fun E => execImage E trapframe readi argv ustack := by
  have hbad : ∀ pagetable sz, E.Tracks outOfPages (· = none)
      fun E => execBad E (.memory readi) pagetable sz (pure ()) := fun _ _ =>
    .bind_same (.ite (procFreepagetable_same h ..) (.pure _)) fun _ =>
      .bind_same (.pure _) fun _ => .pure _
  have hnone : ∀ pagetable sz, Always (· = none)
      (execBad E (.memory readi) pagetable sz (pure ())) := fun _ _ =>
    .bind fun _ => .bind fun _ => .pure rfl
  refine .bind_same (.pure _) fun elf => .ite (hbad 0 0) (.ite (hbad 0 0) ?_)
  refine (procPagetable_tracks h trapframe).bind_option (hbad 0 0) (hnone 0 0)
    fun pagetable => ?_
  refine (loadSegments_tracks h ..).bind (fun ⟨ok, sz⟩ => .ite (hbad _ _) ?_) ?_
  · refine .bind_same (.pure _) fun _ => (execStack_tracks h ..).bind (fun ⟨ok, sz⟩ =>
      .ite (hbad _ _) ?_) ?_
    · exact .bind_same (pushStack_same h ..) (.option (hbad _ _) fun _ => .pure _)
    · rintro ⟨ok, sz⟩ (rfl : ok = false)
      exact hnone _ _
  · rintro ⟨ok, sz⟩ (rfl : ok = false)
    exact hnone _ _

theorem fetchArgs_tracks (fetchaddr : Nat → Option Nat) (fetchstr : Nat → Option (Bytes × Nat)) :
    ∀ (left i : Nat) (argv : Args),
    E.Tracks outOfPages (fun r => r.1 = false)
      fun E => fetchArgs E fetchaddr fetchstr left i argv := by
  intro left
  induction left with
  | zero =>
    intro i argv
    exact .pure _
  | succ left ih =>
    intro i argv
    simp only [fetchArgs]
    cases fetchaddr i with
    | none => exact .pure _
    | some uarg =>
      refine .ite (.pure _)
        ((kallocPage_tracks h).bind_option (.pure _) (.pure rfl) fun pg => ?_)
      cases fetchstr uarg with
      | none => exact .pure _
      | some x => exact .bind_same (movePage_tracks ..) fun _ => ih _ _

omit h in
theorem freeArgs_same : ∀ argv : Args, E.Same outOfPages fun E => freeArgs E argv := by
  intro argv
  induction argv with
  | nil => exact .pure _
  | cons arg argv ih => exact (kfreePage_same _).bind_same fun _ => ih

end Exec

/-! ## The kernel's calls -/

/-- `outOfPages`, of the whole kernel. -/
def kernelOutOfPages : Guard Kernel :=
  ⟨fun k => k.phys.Counted, fun k => k.phys.failed, .panic "assert failed"⟩

theorem onPhys_tracks {α : Type} {bad : α → Prop} {x1 x0 : Sys Phys α}
    (hx : Tracks outOfPages bad x1 x0) : Tracks kernelOutOfPages bad (onPhys x1) (onPhys x0) := by
  apply Tracks.zoom (G := kernelOutOfPages) (H := outOfPages) _ _ rfl _ hx
  · intro k
    exact Iff.rfl
  · intro k
    rfl
  · intro s k
    rfl

section Kernel

variable {bad : Unit → Prop}

theorem updateProc_tracks (p : Fin NPROC) (f : Proc → Proc) :
    Tracks kernelOutOfPages bad (updateProc p f) (updateProc p f) :=
  .modify fun _ hk => ⟨hk, rfl⟩

theorem updateFile_tracks (f : Fin NFILE) (g : File → File) :
    Tracks kernelOutOfPages bad (updateFile f g) (updateFile f g) :=
  .modify fun _ hk => ⟨hk, rfl⟩

theorem storePage_tracks (pa off n v : Nat) :
    Tracks outOfPages bad (storePage pa off n v) (storePage pa off n v) := setMem_tracks _

theorem filealloc_same : Same kernelOutOfPages filealloc filealloc := by
  refine .bind_same (.reads _) (.option (.pure _) fun f => ?_)
  exact .bind_same (updateFile_tracks ..) fun _ => .pure _

theorem fileclose_same (f : Fin NFILE) : E.Same kernelOutOfPages fun E => fileclose E f := by
  have hpipe : ∀ pi w, E.Same kernelOutOfPages fun E => pipeclose E pi w := by
    intro pi w
    refine .bind_same (onPhys_tracks (storePage_tracks ..)) fun _ => ?_
    refine .bind_same (.reads _) fun m => ?_
    exact .ite (onPhys_tracks (kfreePage_same _)) (.pure _)
  refine .bind_same (.reads _) fun ff => .ite (.panic _)
    (.ite (updateFile_tracks ..) ?_)
  exact .bind_same (updateFile_tracks ..) fun _ => .ite (hpipe _ _) (.pure _)

theorem freeproc_same (h : E.FirstFree) (p : Fin NPROC) :
    E.Same kernelOutOfPages fun E => freeproc E p := by
  refine .bind_same (.reads _) fun x => ?_
  refine .ite ((onPhys_tracks (kfreePage_same _)).bind_same fun _ => ?_) ?_
  all_goals
    refine .bind_same (updateProc_tracks ..) fun _ => .ite ?_ (updateProc_tracks ..)
    exact (onPhys_tracks (procFreepagetable_same h ..)).bind_same fun _ => updateProc_tracks ..

theorem allocproc_tracks (h : E.FirstFree) : E.Tracks kernelOutOfPages (· = none) allocproc := by
  refine .bind_same (.reads _) (.option (.pure _) fun p => ?_)
  have hpid : Same kernelOutOfPages allocpid allocpid :=
    .bind_same (.reads _) fun _ =>
      .bind_same (.modify fun _ hk => ⟨hk, rfl⟩) fun _ => .pure _
  -- both failures after the slot is taken
  have hundo : ∀ f, E.Tracks kernelOutOfPages (· = none)
      (fun E => do updateProc p f; freeproc E p; pure (none : Option (Fin NPROC))) := fun _ =>
    .bind_same (updateProc_tracks ..) fun _ =>
      (freeproc_same h p).bind_same fun _ => .pure _
  have hnone : ∀ f, Always (· = none)
      (do updateProc p f; freeproc E p; pure (none : Option (Fin NPROC))) := fun _ =>
    .bind fun _ => .bind fun _ => .pure rfl
  refine hpid.bind_same fun pid => .bind_same (updateProc_tracks ..) fun _ => ?_
  refine (onPhys_tracks (kallocPage_tracks h)).bind_option (hundo _) (hnone _) fun tf => ?_
  refine .bind_same (updateProc_tracks ..) fun _ => ?_
  refine (onPhys_tracks (procPagetable_tracks h tf)).bind_option (hundo _) (hnone _) fun pt => ?_
  exact .bind_same (updateProc_tracks ..) fun _ => .pure _

theorem forkFiles_same (p np : Fin NPROC) : ∀ fds : List (Fin NOFILE),
    Same kernelOutOfPages (forkFiles p np fds) (forkFiles p np fds) := by
  intro fds
  induction fds with
  | nil => exact .pure _
  | cons fd fds ih =>
    refine .bind_same (.reads _) (.option ih fun f => ?_)
    have hdup : Same kernelOutOfPages (filedup f) (filedup f) :=
      .bind_same (.reads _) fun _ => .ite (.panic _)
        (updateFile_tracks ..)
    exact hdup.bind_same fun _ => .bind_same (updateProc_tracks ..) fun _ => ih

/-- What `fork` does once the memory is copied. -/
theorem fork_rest_same (p np : Fin NPROC) (x nx : Proc) : let rest : Sys Kernel Int := do
        updateProc np fun nx => { nx with sz := x.sz }
        onPhys (copyTrapframe x.trapframe nx.trapframe)
        forkFiles p np (List.finRange NOFILE)
        updateProc np fun nx => { nx with parent := some p }
        updateProc np fun nx => { nx with state := .RUNNABLE }
        pure nx.pid.toInt
    Same kernelOutOfPages rest rest := by
  intro rest
  have hregs : Same outOfPages (copyTrapframe x.trapframe nx.trapframe)
      (copyTrapframe x.trapframe nx.trapframe) :=
    .bind_same (.reads _) fun _ =>
      .bind_same (movePage_tracks ..) fun _ => storePage_tracks ..
  exact .bind_same (updateProc_tracks ..) fun _ =>
    (onPhys_tracks hregs).bind_same fun _ => (forkFiles_same p np _).bind_same fun _ =>
    .bind_same (updateProc_tracks ..) fun _ =>
    .bind_same (updateProc_tracks ..) fun _ => .pure _

section

variable (h : E.FirstFree) (p : Fin NPROC)

include h p

theorem fork_tracks : E.Tracks kernelOutOfPages (· = -1) fun E => fork E p := by
  refine (allocproc_tracks h).bind_option (.pure _) (.pure rfl) fun np => ?_
  refine .bind_same (.reads _) fun x => .bind_same (.reads _) fun nx => ?_
  exact (onPhys_tracks (uvmcopy_tracks h ..)).bind_ite (by rintro _ rfl; decide)
    (fun _ => (freeproc_same h np).bind_same fun _ => .pure _)
    (fun _ => .bind fun _ => .pure rfl)
    fun _ => .of_same (fork_rest_same p np x nx)

theorem growprocOf_tracks (n : Int) :
    E.Tracks kernelOutOfPages (· = -1) fun E => growprocOf E p n := by
  refine .bind_same (.reads _) fun x => ?_
  refine (onPhys_tracks (growproc_tracks h ..)).bind (fun ⟨r, sz⟩ => ?_) ?_
  · exact .bind_same (updateProc_tracks ..) fun _ => .pure _
  · rintro ⟨r, sz⟩ (rfl : r = -1)
    exact .bind fun _ => .pure rfl

theorem execProg_tracks (prog : Option Readi) (argv : Args) (ustack : Bytes) :
    E.Tracks kernelOutOfPages (· = -1) fun E => execProg E p prog argv ustack := by
  cases prog with
  | none => exact .pure _
  | some readi =>
    refine .bind_same (.reads _) fun x => ?_
    refine (onPhys_tracks (execImage_tracks h ..)).bind_option (.pure _) (.pure rfl)
      fun im => .bind_same (.reads _) fun x => ?_
    have hregs : Same outOfPages (setRegs x.trapframe im.entry im.sp)
        (setRegs x.trapframe im.entry im.sp) :=
      .bind_same (storePage_tracks ..) fun _ =>
        .bind_same (storePage_tracks ..) fun _ => storePage_tracks ..
    exact .bind_same (updateProc_tracks ..) fun _ =>
      (onPhys_tracks hregs).bind_same fun _ =>
      (onPhys_tracks (procFreepagetable_same h ..)).bind_same fun _ => .pure _

theorem sysExec_tracks (fetchaddr : Nat → Option Nat)
    (fetchstr : Nat → Option (Bytes × Nat)) (prog : Option Readi) (ustack : Bytes) :
    E.Tracks kernelOutOfPages (· = -1) fun E => sysExec E p fetchaddr fetchstr prog ustack := by
  refine (onPhys_tracks (fetchArgs_tracks h ..)).bind (fun ⟨ok, argv⟩ => .ite ?_ ?_) ?_
  · exact (onPhys_tracks (freeArgs_same argv)).bind_same fun _ => .pure _
  · refine (execProg_tracks h ..).bind (fun r => ?_) fun r hr => ?_
    · exact (onPhys_tracks (freeArgs_same argv)).bind_same fun _ => .pure _
    · exact .bind fun _ => .pure hr
  · rintro ⟨ok, argv⟩ (rfl : ok = false)
    exact .bind fun _ => .pure rfl

end

theorem pipealloc_tracks (h : E.FirstFree) : E.Tracks kernelOutOfPages (· = none) pipealloc := by
  refine filealloc_same.bind_same (.option (.pure _) fun f0 => ?_)
  refine filealloc_same.bind_same (.option ?_ fun f1 => ?_)
  · exact (fileclose_same f0).bind_same fun _ => .pure _
  refine (onPhys_tracks (kallocPage_tracks h)).bind_option ?_
    (.bind fun _ => .bind fun _ => .pure rfl) fun pi => ?_
  · exact (fileclose_same f0).bind_same fun _ => (fileclose_same f1).bind_same fun _ =>
      .pure _
  have hinit : Same outOfPages (pipeinit pi) (pipeinit pi) :=
    .bind_same (storePage_tracks ..) fun _ =>
      .bind_same (storePage_tracks ..) fun _ =>
      .bind_same (storePage_tracks ..) fun _ =>
      .bind_same (storePage_tracks ..) fun _ => storePage_tracks ..
  exact (onPhys_tracks hinit).bind_same fun _ =>
    .bind_same (updateFile_tracks ..) fun _ =>
    .bind_same (updateFile_tracks ..) fun _ => .pure _

end Kernel

/-! ## The caller is as it was -/

/-- Between `k` and `k'` the process `p` keeps its size, its mappings and what
    they hold; no page has become free, and one that is no longer free is a
    table of `p`'s. -/
structure Kernel.AsBefore (p : Fin NPROC) (k k' : Kernel) : Prop where
  proc : k'.proc p = k.proc p
  mapping : ∀ va < VASPACE, entryAt k'.phys.kmem.mem va 0 2 (k.proc p).pagetable
    = entryAt k.phys.kmem.mem va 0 2 (k.proc p).pagetable
  contents : ∀ va < PGROUNDUP (k.proc p).sz,
    k'.phys.kmem.mem (PTE2PA (entryAt k.phys.kmem.mem va 0 2 (k.proc p).pagetable))
      = k.phys.kmem.mem (PTE2PA (entryAt k.phys.kmem.mem va 0 2 (k.proc p).pagetable))
  free : ∀ q ∈ k'.phys.kmem.freelist, q ∈ k.phys.kmem.freelist
  kept : ∀ q ∈ k.phys.kmem.freelist, q ∈ k'.phys.kmem.freelist ∨
    q ∈ tablePages k'.phys.kmem.mem 2 (k.proc p).pagetable

variable {F : List Nat} {held held' : List (Fin NFILE)} {k k' : Kernel}
  {g g' : Spaces NPROC} {pipes : List Nat} {p : Fin NPROC}

/-- The page that user memory has at an address. -/
theorem user_page_at (hE : E.Ok) {s : Phys} {tf : Nat} {t : PageTree 2} {u : Pages}
    {G : List Nat} (h : Space E s tf t u G) {sz va : Nat} (hsz : u.length = npages sz)
    (hva : va < PGROUNDUP sz) :
    va < VASPACE ∧ PTE2PA (entryAt s.kmem.mem va 0 2 t.pa) ∈ u.map Prod.fst := by
  rw [h.roundup hE hsz] at hva
  obtain ⟨x, hx⟩ := exists_getElem? (div_lt_length hva)
  refine ⟨vaspace_of_maxva (maxva_of_trapframe (h.user_lt hE hx)), ?_⟩
  rw [h.entry_page hE hx]
  exact mem_map_of_mem (mem_of_getElem? hx)

/-- **The process's memory is as it was** if its list of user pages is and they
    hold what they held, and the rest of the ledger is the same. -/
theorem Wf.asBefore (hE : E.Ok) (h : Wf E F held k g pipes) (h' : Wf E F held' k' g' pipes)
    (hpt : (k.proc p).pagetable ≠ 0) (hproc : k'.proc p = k.proc p) (hu : (g' p).2 = (g p).2)
    (htab : (g p).1.pages ⊆ (g' p).1.pages) (hkept : Kept (g p).2 k.phys k'.phys)
    (hrest : k'.rest g' (pipes ++ F) p = k.rest g (pipes ++ F) p) : k.AsBefore p k' := by
  obtain ⟨hpa, hsz, _, hsp⟩ := h.space hpt
  obtain ⟨hpa', _, _, hsp'⟩ := h'.space (hproc ▸ hpt)
  rw [hproc] at hpa' hsp'
  rw [hrest, hu] at hsp'
  let a : AddrSpace := ⟨(k.proc p).pagetable, (k.proc p).trapframe, (k.proc p).sz⟩
  refine ⟨hproc, fun va hva => ?_, fun va hva => ?_, fun q hq => ?_, fun q hq => ?_⟩
  · rw [show (k.proc p).pagetable = a.pagetable from rfl, Space.entryAt (a := a) hsp' hpa' hva,
      Space.entryAt (a := a) hsp hpa hva]
  · rw [hpa]
    exact hkept _ (user_page_at hE hsp hsz hva).2
  · have hpage : E.Page q := (hsp'.acct.pages q).mp (mem_append_left _ hq)
    rcases mem_append.mp ((hsp.acct.pages q).mpr hpage) with hfree | howned
    · exact hfree
    · -- a page of the ledger before is still in it
      refine absurd hq (hsp'.acct.not_mem_free ?_)
      rcases mem_append.mp howned with htable | hother
      · exact mem_append_left _ (htab htable)
      · exact mem_append_right _ hother
  · have hpage : E.Page q := (hsp.acct.pages q).mp (mem_append_left _ hq)
    rcases mem_append.mp ((hsp'.acct.pages q).mpr hpage) with hfree | howned
    · exact .inl hfree
    · rcases mem_append.mp howned with htable | hother
      · rw [hpa', tablePages_eq hsp'.ne hsp'.rep hsp'.pageAddr]
        exact .inr htable
      · exact absurd hq (hsp.acct.not_mem_free (mem_append_right _ hother))

/-- A call that leaves the whole ledger and what its pages hold leaves every
    process as it was. -/
theorem Wf.asBefore_of_ledger (hE : E.Ok) (h : Wf E F held k g pipes)
    (h' : Wf E F held' k' g pipes) (hpt : (k.proc p).pagetable ≠ 0)
    (howned : ∀ q, (k'.proc q).owned (g q) = (k.proc q).owned (g q))
    (hproc : k'.proc p = k.proc p)
    (hmem : ∀ q ∈ k.procPages g ++ (pipes ++ F), k'.phys.kmem.mem q = k.phys.kmem.mem q) :
    k.AsBefore p k' ∧ ∀ q, q ∈ k'.phys.kmem.freelist ↔ q ∈ k.phys.kmem.freelist := by
  have hrest : k'.rest g (pipes ++ F) p = k.rest g (pipes ++ F) p :=
    congrArg (· ++ (pipes ++ F)) (others_congr fun j _ => howned j)
  have hbefore : k.AsBefore p k' := by
    refine h.asBefore hE h' hpt hproc rfl (fun _ hq => hq) (fun q hq => hmem q ?_) hrest
    refine mem_append_left _ (mem_gather (i := p) ?_)
    unfold Proc.owned
    exact mem_append_right _ (mem_append_left _ hq)
  refine ⟨hbefore, fun q => ⟨hbefore.free q, fun hq => ?_⟩⟩
  have hpage : E.Page q := (h.slots.acct.pages q).mp (mem_append_left _ hq)
  rcases mem_append.mp ((h'.slots.acct.pages q).mpr hpage) with hfree | hother
  · exact hfree
  · rw [gather_congr howned] at hother
    exact absurd hq (h.slots.acct.not_mem_free hother)

/-! ## The calls -/

/-- The calls that take pages for a process. -/
inductive AllocCall where
  | growproc (n : Int)
  | fork
  | exec (fetchaddr : Nat → Option Nat) (fetchstr : Nat → Option (Bytes × Nat))
      (prog : Option Readi) (ustack : Bytes)
  | pipealloc

namespace AllocCall

/-- What the call of process `p` returns. -/
def run (E : Env) (p : Fin NPROC) : AllocCall → Sys Kernel Int
  | .growproc n => growprocOf E p n
  | .fork => Xv6.fork E p
  | .exec fetchaddr fetchstr prog ustack => sysExec E p fetchaddr fetchstr prog ustack
  | .pipealloc => do
    match ← Xv6.pipealloc E with
    | none => pure (-1)
    | some _ => pure 0

/-- The call needs more pages than are free: at some point the documented
    `kalloc` returns 0. -/
def Exhausts (E : Env) (p : Fin NPROC) (c : AllocCall) (k : Kernel) : Prop :=
  ∃ r k', c.run E p k = .ok (r, k') ∧ k'.phys.failed ≠ k.phys.failed

/-- The call failed and left the caller as it was; only `growproc` may have kept
    pages. -/
def Undone (p : Fin NPROC) (c : AllocCall) (k k' : Kernel) : Prop :=
  k.AsBefore p k' ∧ ((∀ n, c ≠ .growproc n) →
    ∀ q, q ∈ k'.phys.kmem.freelist ↔ q ∈ k.phys.kmem.freelist)

theorem run_tracks (h : E.FirstFree) (p : Fin NPROC) (c : AllocCall) :
    Tracks kernelOutOfPages (· = -1) (c.run E.asserting p) (c.run E p) := by
  cases c with
  | growproc n => exact growprocOf_tracks h p n
  | fork => exact fork_tracks h p
  | exec fetchaddr fetchstr prog ustack => exact sysExec_tracks h p fetchaddr fetchstr prog ustack
  | pipealloc =>
    exact (pipealloc_tracks h).bind_option (.pure _) (.pure rfl)
      fun _ => .pure _

/-- A `fork` that ran out of pages has made no process. -/
theorem fork_exhausted (h : E.FirstFree) {r : Int} (hk : k.phys.Counted)
    (hrun : Xv6.fork E p k = .ok (r, k')) (hfailed : k'.phys.failed ≠ k.phys.failed)
    {i : Fin NPROC} (hi : (k.proc i).state = .UNUSED) : (k'.proc i).state = .UNUSED := by
  have hfreed : ∀ (k2 : Kernel) (j : Fin NPROC), (j ≠ i → (k2.proc i).state = .UNUSED) →
      (update k2.proc j (k2.proc j).freed i).state = .UNUSED := by
    intro k2 j hj
    by_cases hij : i = j
    · rw [hij, update_self]
      rfl
    · rw [update_of_ne hij]
      exact hj (Ne.symm hij)
  unfold Xv6.fork at hrun
  obtain ⟨o, k1, h1, hrun⟩ := bind_eq_ok.mp hrun
  obtain ⟨hk1, hcase1⟩ := (allocproc_tracks h).run k o k1 hk h1
  rcases allocproc_eq_ok h1 with ⟨rfl, hproc⟩ | ⟨np, pid, tf, pt, rfl, hnp, hproc⟩
  · cases hrun
    rcases hproc with hproc | ⟨j, hproc⟩
    · rw [hproc]
      exact hi
    · rw [hproc]
      exact hfreed _ j fun _ => hi
  obtain ⟨hcount1, _⟩ | ⟨_, hnone, _⟩ := hcase1
  case inr => cases hnone
  simp only [reads_bind_run] at hrun
  obtain ⟨r', k2, h2, hrun⟩ := bind_eq_ok.mp hrun
  obtain ⟨hk2, hcase2⟩ := (onPhys_tracks (uvmcopy_tracks h ..)).run k1 r' k2 hk1 h2
  obtain ⟨s2, _, rfl⟩ := onPhys_eq_ok h2
  by_cases hr : r' < 0
  · rw [if_pos hr] at hrun
    obtain ⟨_, k3, h3, hrun⟩ := bind_eq_ok.mp hrun
    cases hrun
    rw [freeproc_eq_ok h3]
    refine hfreed (k1.setPhys s2) np fun hne => ?_
    change (k1.proc i).state = .UNUSED
    rw [hproc, update_of_ne hne.symm]
    exact hi
  · -- every page was there: nothing after `uvmcopy` allocates
    obtain ⟨hcount2, _⟩ | ⟨_, hbad, _⟩ := hcase2
    case inr => exact absurd (by rw [hbad]; decide) hr
    rw [if_neg hr] at hrun
    obtain ⟨_, hcase3⟩ := (fork_rest_same p np _ _).run _ _ _ hk2 hrun
    obtain ⟨hcount3, _⟩ | ⟨_, hbad, _⟩ := hcase3
    case inr => exact hbad.elim
    exact absurd (hcount3.trans (hcount2.trans hcount1)) hfailed

/-- **The documented `kalloc`**: a call that runs out of pages is undone. -/
theorem run_documented (hE : E.Ok) (hfirst : E.FirstFree) (h : Wf E F held k g pipes)
    (hk : k.phys.Counted) (hp : (k.proc p).state = .RUNNING) (c : AllocCall) :
    ∃ r k', c.run E p k = .ok (r, k') ∧
      (k'.phys.failed ≠ k.phys.failed → r = -1 → c.Undone p k k') := by
  have hpt := h.pagetable_ne hp
  cases c with
  | growproc n =>
    obtain ⟨r, k', y, hrun, hwf, _, hfail⟩ := growprocOf_spec hE h hp n
    refine ⟨r, k', hrun, fun _ hr => ⟨?_, fun hn => absurd rfl (hn n)⟩⟩
    obtain ⟨hproc, hu, htab, hkept⟩ := hfail hr
    refine h.asBefore hE hwf hpt (by rw [hproc]) ?_ ?_ ?_ ?_
    · rw [update_self, hu]
    · rw [update_self]
      exact htab
    · rw [← hu]
      exact hkept
    · have hrest := restOf_update Proc.owned k.proc g (pipes ++ F) p (k.proc p) y
      rw [update_eq_self] at hrest
      rw [Kernel.rest, hproc]
      exact hrest
  | fork =>
    obtain ⟨r, k', hrun, _, hmem, hres⟩ := fork_spec hE h hp
    refine ⟨r, k', hrun, fun hfailed _ => ?_⟩
    rcases hres with ⟨_, _, hwf, hproc⟩ | ⟨i, pid, tf, t, u, hi, hproc, _⟩
    · have howned : (∀ q, (k'.proc q).owned (g q) = (k.proc q).owned (g q)) ∧
          k'.proc p = k.proc p := by
        rcases hproc with hproc | ⟨i, hi, hproc⟩
        · rw [hproc]
          exact ⟨fun _ => rfl, rfl⟩
        · have hne : p ≠ i := by
            rintro rfl
            rw [hp] at hi
            cases hi
          refine ⟨fun q => ?_, by rw [hproc, update_of_ne hne]⟩
          by_cases hq : q = i
          · rw [hproc, hq, update_self, Proc.owned, Proc.owned, (h.unused hi).2.1]
            rfl
          · rw [hproc, update_of_ne hq]
      obtain ⟨hbefore, hfree⟩ := h.asBefore_of_ledger hE hwf hpt howned.1 howned.2 hmem
      exact ⟨hbefore, fun _ => hfree⟩
    · have hunused := fork_exhausted hfirst hk hrun hfailed hi
      rw [hproc, update_self] at hunused
      cases hunused
  | exec fetchaddr fetchstr prog ustack =>
    obtain ⟨r, k', hrun, _, _, hres⟩ := sysExec_spec hE h hp fetchaddr fetchstr prog ustack
    refine ⟨r, k', hrun, fun _ hr => ?_⟩
    rcases hres with ⟨_, hproc, hwf, hmem⟩ | ⟨hpos, _⟩
    · obtain ⟨hbefore, hfree⟩ := h.asBefore_of_ledger hE hwf hpt (fun q => by rw [hproc])
        (by rw [hproc]) hmem
      exact ⟨hbefore, fun _ => hfree⟩
    · omega
  | pipealloc =>
    rcases h.pipealloc hE with ⟨s, hrun, hkmem, hwf⟩ | ⟨f0, f1, s, file, pipes', hrun, _⟩
    · refine ⟨-1, { k with phys := s }, ?_, fun _ _ => ?_⟩
      · simp only [run]
        rw [bind_of_ok hrun]
        rfl
      · obtain ⟨hbefore, hfree⟩ := h.asBefore_of_ledger hE hwf hpt (fun q => rfl) rfl
          (fun q _ => by rw [hkmem])
        exact ⟨hbefore, fun _ => hfree⟩
    · refine ⟨0, { k with phys := s, file := file }, ?_, fun _ hr => ?_⟩
      · simp only [run]
        rw [bind_of_ok hrun]
        rfl
      · cases hr

/-- **Out of pages, the code panics.** A call that runs out of pages returns -1
    with everything undone only if it is one that does not run out: otherwise it
    stops in the assertion of `kalloc`, where the call with the documented
    `kalloc` does return -1 with everything undone. As long as there are pages,
    the two do the same. -/
theorem out_of_memory_iff {E : Env} (hE : E.Ok) (hfirst : E.FirstFree) {F : List Nat} {m : Machine}
    (hm : m.WellFormed E F) {p : Fin NPROC} (hp : (m.kernel.proc p).state = .RUNNING)
    (c : AllocCall) :
    ((c.Exhausts E p m.kernel → ∃ k', c.run E.asserting p m.kernel = .ok (-1, k') ∧
        c.Undone p m.kernel k') ↔ ¬ c.Exhausts E p m.kernel) ∧
    (c.Exhausts E p m.kernel →
      c.run E.asserting p m.kernel = .error (.panic "assert failed") ∧
      ∃ k', c.run E p m.kernel = .ok (-1, k') ∧ c.Undone p m.kernel k') ∧
    (¬ c.Exhausts E p m.kernel →
      ∃ r k', c.run E.asserting p m.kernel = .ok (r, k') ∧ c.run E p m.kernel = .ok (r, k')) := by
  obtain ⟨g, pipes, hwf⟩ := hm
  have hpt := hwf.pagetable_ne hp
  obtain ⟨_, _, _, hsp⟩ := hwf.space hpt
  have hk : m.kernel.phys.Counted := hsp.counted
  obtain ⟨r, k', hrun, hundone⟩ := run_documented hE hfirst hwf hk hp c
  obtain ⟨_, hcase⟩ := (run_tracks hfirst p c).run m.kernel r k' hk hrun
  rcases hcase with ⟨hcount, hsame⟩ | ⟨hlt, hr, hstop⟩
  · have hno : ¬ c.Exhausts E p m.kernel := by
      rintro ⟨r', k'', hrun', hfailed⟩
      rw [hrun] at hrun'
      cases hrun'
      exact hfailed hcount
    exact ⟨iff_of_true (fun hex => absurd hex hno) hno, fun hex => absurd hex hno,
      fun _ => ⟨r, k', hsame, hrun⟩⟩
  · have hne : k'.phys.failed ≠ m.kernel.phys.failed := Nat.ne_of_gt hlt
    have hex : c.Exhausts E p m.kernel := ⟨r, k', hrun, hne⟩
    have hstop : c.run E.asserting p m.kernel = .error (.panic "assert failed") := hstop
    refine ⟨iff_of_false (fun hall => ?_) (not_not.mpr hex), fun _ => ⟨hstop, k', ?_, ?_⟩,
      fun hno => absurd hex hno⟩
    · obtain ⟨k'', hok, _⟩ := hall hex
      rw [hstop] at hok
      cases hok
    · rw [← hr]
      exact hrun
    · exact hundone hne hr

/-- The first process, on a machine whose last page it has taken, asks for one
    more. -/
theorem out_of_memory_iff_growproc :
    ∃ k', (AllocCall.growproc 4096).run (smallEnv 5) 0 (firstMachine 5).kernel = .ok (-1, k') ∧
      (AllocCall.growproc 4096).Undone 0 (firstMachine 5).kernel k' := by
  have hm : (firstMachine 5).WellFormed (smallEnv 5) [PHYSTOP - PGSIZE] :=
    firstMachine_wellFormed (by decide) (by decide) (by decide +kernel)
  have hex : (AllocCall.growproc 4096).Exhausts (smallEnv 5) 0 (firstMachine 5).kernel := by
    obtain ⟨r, k', hrun, hfailed⟩ := exists_of_check
      (x := (AllocCall.growproc 4096).run (smallEnv 5) 0) (s := (firstMachine 5).kernel)
      (t := fun _ k' => decide (k'.phys.failed ≠ (firstMachine 5).kernel.phys.failed))
      (by decide +kernel)
    exact ⟨r, k', hrun, of_decide_eq_true hfailed⟩
  exact ((out_of_memory_iff (smallEnv_ok (by decide)) ⟨rfl, fun _ _ => rfl⟩ hm
    (by decide +kernel) _).2.1 hex).2

/-- **`kalloc` with nothing left**, and `growproc`, `fork` and `pipealloc` on
    such a machine: each stops the machine, though every one of its pages is
    accounted for. -/
theorem exhausted_calls_panic :
    (firstMachine 5).WellFormed (smallEnv 5) [PHYSTOP - PGSIZE] ∧
      (firstMachine 5).kernel.phys.kmem.freelist = [] ∧
      kalloc (smallEnv 5).PGNUM (firstMachine 5).kernel.phys.kmem
        = .error (.panic "assert failed") ∧
      ∀ c ∈ [AllocCall.growproc 4096, .fork, .pipealloc],
        c.run (smallEnv 5).asserting 0 (firstMachine 5).kernel
          = .error (.panic "assert failed") := by
  refine ⟨firstMachine_wellFormed (by decide) (by decide) (by decide +kernel), by decide +kernel,
    eq_error_of_stopOf (by decide +kernel), fun c hc => ?_⟩
  simp only [mem_cons, not_mem_nil, or_false] at hc
  rcases hc with rfl | rfl | rfl
  · exact eq_error_of_stopOf (by decide +kernel)
  · exact eq_error_of_stopOf (by decide +kernel)
  · exact eq_error_of_stopOf (by decide +kernel)

end AllocCall

end Xv6
