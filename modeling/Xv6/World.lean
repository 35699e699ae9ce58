import Xv6.Fs.Held
import Xv6.Proc.Image

/-!
# `exec` with the file system

`kernel/exec.c` on the kernel and its file system together: the path is looked
up, the file is locked and read block by block, and every way out gives back
what the call has taken of either.
-/

namespace Xv6

open List
open PageTree

/-- The kernel, its file system, and what a process has of both: its current
    directory and its name, the bytes before the NUL. -/
structure World where
  kernel : Kernel
  fs : Fs.State
  cwd : Fin NPROC → Option (Fin NINODE)
  name : Fin NPROC → List UInt8

namespace World

def setKernel (k : Kernel) (w : World) : World := { w with kernel := k }

def setFs (s : Fs.State) (w : World) : World := { w with fs := s }

/-- A call of the file system. -/
def onFs {α : Type} (x : Sys Fs.State α) : Sys World α := Sys.zoom World.fs World.setFs x

/-- A call that works on memory. -/
def onPhys {α : Type} (x : Sys Phys α) : Sys World α :=
  Sys.zoom World.kernel World.setKernel (Xv6.onPhys x)

section Code

variable (E : Env) (sb : Fs.Superblock)

/-! ## The code -/

/-- `readi(ip, 0, dst, off, n)`: what it returns, and the bytes it puts at `dst`
    in the kernel. -/
def readi (ip : Fin NINODE) (off n : Nat) : Sys World (Nat × Bytes) := do
  match ← onFs (Fs.readi sb ip (.kernel Bytes.zero) off n) with
  | (r, .kernel b) => pure (r.toNat, b)
  | (r, .user _ _) => pure (r.toNat, Bytes.zero)

/-- `exec` runs on the world, with the file `ip` locked in a transaction. -/
def host (ip : Fin NINODE) : Host World where
  mem := onPhys
  readi := readi sb ip
  close := do
    onFs (Fs.iunlockput sb ip)
    onFs Fs.endOp

/-- `for(last=s=path; *s; s++) if(*s == '/') last = s+1;` -/
def lastElem (last : Fs.Path) : Fs.Path → Fs.Path
  | [] => last
  | b :: s => if b = Fs.SLASH then lastElem s s else lastElem last s

/-- `exec` from its commit on. -/
def execCommit (p : Fin NPROC) (path : Fs.Path) (im : Image) : Sys World Int := do
  -- `safestrcpy(p->name, last, sizeof(p->name))`, of 16 bytes
  Sys.modify fun w =>
    { w with name := Function.update w.name p ((lastElem path path).take 15) }
  Sys.zoom World.kernel World.setKernel (Xv6.execCommit E p im)

/-- `exec(path, argv)` -/
def exec (p : Fin NPROC) (path : Fs.Path) (argv : Args) (ustack : Bytes) :
    Sys World Int := do
  onFs Fs.beginOp
  match ← Sys.reads fun w => w.cwd p with
  | none => Sys.panic "kerneltrap"
  | some cwd => do
    match ← onFs (Fs.namei sb cwd path) with
    | none => do
      onFs Fs.endOp
      pure (-1)
    | some ip => do
      onFs (Fs.ilock sb ip)
      let x ← Sys.reads fun w => w.kernel.proc p
      match ← execFile E (host sb ip) x.trapframe argv ustack with
      | none => pure (-1)
      | some im => execCommit E p path im

end Code

/-! ## What `exec` holds on its way -/

section Specs

open Sys

variable {E : Env} {sb : Fs.Superblock} {w₀ : World} {L : List Nat} {ip : Fin NINODE}

/-- Memory and the file system may have changed, and nothing else; what is held
    of the file system satisfies `P`. -/
structure Executing (w₀ : World) (P : Fs.State → Prop) (w : World) : Prop where
  kernel : w.kernel = { w₀.kernel with phys := w.kernel.phys }
  cwd : w.cwd = w₀.cwd
  name : w.name = w₀.name
  file : P w.fs

/-- The file is locked, in a transaction. -/
def FileHeld (s₀ : Fs.State) (ip : Fin NINODE) (s : Fs.State) : Prop :=
  ∃ n, Fs.Holding s₀.begun s [(ip, n)] [ip]

/-- The world with other memory. -/
def setPhys (w : World) (s : Phys) : World := { w with kernel := { w.kernel with phys := s } }

theorem Executing.setPhys {P : Fs.State → Prop} {w : World} (h : Executing w₀ P w) (s : Phys) :
    Executing w₀ P (w.setPhys s) := by
  refine ⟨?_, h.cwd, h.name, h.file⟩
  show { w.kernel with phys := s } = { w₀.kernel with phys := s }
  rw [h.kernel]

/-- The world runs `exec`: a read leaves the file locked, and `close` gives it
    back. Nothing is told about what the file holds. -/
theorem hosts_world (w₀ : World) (ip : Fin NINODE) (f : Readi) :
    Hosts (host sb ip) (fun w => w.kernel.phys) (Executing w₀ (FileHeld w₀.fs ip))
      (Executing w₀ (Fs.Released w₀.fs)) f False fun _ => True where
  mem {α x w a s} h := ⟨w.setPhys s, zoom_of_ok (onPhys_of_ok h), rfl, fun hw => hw.setPhys s,
    fun hw => hw.setPhys s⟩
  read {w} hw off n := by
    obtain ⟨m, hhold⟩ := hw.file
    refine wp_bind (wp_zoom (((Fs.readi_same sb ip _ off n).post w.fs).imp fun r s hs => ?_))
    have hw' : Executing w₀ (FileHeld w₀.fs ip) (setFs s w) :=
      ⟨hw.kernel, hw.cwd, hw.name, m, hhold.same hs⟩
    obtain ⟨r, b | ⟨v, va⟩⟩ := r
    · exact wp_pure ⟨rfl, hw', False.elim⟩
    · exact wp_pure ⟨rfl, hw', False.elim⟩
  close {w} hw := by
    obtain ⟨m, hhold⟩ := hw.file
    refine wp_bind (wp_zoom ((Fs.iunlockput_held sb hhold).imp fun _ s1 h1 => ?_))
    refine wp_zoom ((Fs.endOp_released h1).imp fun _ s2 h2 => ?_)
    exact ⟨rfl, hw.kernel, hw.cwd, hw.name, h2⟩

theorem execCommit_argc (p : Fin NPROC) (path : Fs.Path) (im : Image) (w : World) :
    (execCommit E p path im).post w fun r _ => r = (im.argc : Int) := by
  have hany : ∀ {α : Type} (x : Sys Kernel α) (k : Kernel), x.post k fun _ _ => True := fun _ _ =>
    post_of_forall fun _ _ _ => trivial
  refine wp_bind (wp_modify (wp_zoom (wp_bind (wp_reads ((hany _ _).bind fun _ _ _ => ?_)))))
  exact (hany _ _).bind fun _ _ _ => (hany _ _).bind fun _ _ _ => wp_pure rfl

/-- **If `exec` returns -1, it has given back all that it took.** -/
theorem exec_executing (hE : E.Ok) {p : Fin NPROC} (hacct : Acct E w₀.kernel.phys.kmem L)
    (htf : PageAddr (w₀.kernel.proc p).trapframe) (hrefs : ∀ j, 0 ≤ (w₀.fs.itable j).ref)
    (huniq : Fs.Uniq w₀.fs) (hcwd : ∀ cwd, w₀.cwd p = some cwd → 0 < (w₀.fs.itable cwd).ref)
    (path : Fs.Path) (argv : Args) (ustack : Bytes) :
    (exec E sb p path argv ustack).post w₀ fun r w' => r = -1 →
      Executing w₀ (Fs.Released w₀.fs) w' ∧ Acct E w'.kernel.phys.kmem L ∧
      ∀ q ∈ L, w'.kernel.phys.kmem.mem q = w₀.kernel.phys.kmem.mem q := by
  unfold exec
  refine wp_bind (wp_zoom ((Fs.beginOp_begun w₀.fs).imp fun _ s1 hs1 => ?_))
  subst hs1
  refine wp_bind (wp_reads ?_)
  cases hdir : (setFs w₀.fs.begun w₀).cwd p with
  | none => exact wp_panic trivial
  | some cwd =>
    refine wp_bind (wp_zoom ((Fs.namei_held sb (.begin hrefs huniq) (hcwd cwd hdir) path).imp
      fun r s2 hr => ?_))
    rcases hr with ⟨rfl, h2⟩ | ⟨ip, m, rfl, h2⟩
    · refine wp_bind (wp_zoom ((Fs.endOp_released h2).imp fun _ s3 h3 => ?_))
      exact wp_pure fun _ => ⟨⟨rfl, rfl, rfl, h3⟩, hacct, fun _ _ => rfl⟩
    refine wp_bind (wp_zoom ((Fs.ilock_held sb h2).imp fun _ s3 h3 => ?_))
    refine wp_bind (wp_reads ((execFile_wp (hosts_world w₀ ip fun _ _ => (0, Bytes.zero)) hE
      (w := setFs s3 (setFs s2 (setFs w₀.fs.begun w₀))) hacct ⟨rfl, rfl, rfl, m, h3⟩ htf argv
      ustack).bind fun res w' hres => ?_))
    rcases hres with ⟨hclosed, ⟨rfl, hframe, hacct'⟩ | ⟨_, _, _, _, _, im, rfl, _⟩⟩
    · exact wp_pure fun _ => ⟨hclosed, hacct', hframe⟩
    · refine (execCommit_argc p path im w').imp fun r _ hr hneg => ?_
      rw [hr] at hneg
      exact absurd hneg (by simp)

/-- **`exec` is all or nothing.** If it returns -1, the process table and the
    names are as they were, so is what the caller and everyone else has in
    memory, the pages that were free are free, and every inode reference, lock
    and transaction has been given back. -/
theorem exec_all_or_nothing (hE : E.Ok) {F : List Nat} {held : List (Fin NFILE)}
    {g : Spaces NPROC} {pipes : List Nat} {p : Fin NPROC}
    {w w' : World} (h : Wf E F held w.kernel g pipes)
    (hp : (w.kernel.proc p).state = .RUNNING) (hrefs : ∀ j, 0 ≤ (w.fs.itable j).ref)
    (huniq : Fs.Uniq w.fs) (hcwd : ∀ cwd, w.cwd p = some cwd → 0 < (w.fs.itable cwd).ref)
    (path : Fs.Path) (argv : Args) (ustack : Bytes)
    (hrun : exec E sb p path argv ustack w = .ok (-1, w')) :
    w'.kernel.proc = w.kernel.proc ∧ w'.name = w.name ∧
    (∀ va, byteAt w'.kernel.phys.kmem.mem (w.kernel.proc p).pagetable va =
      byteAt w.kernel.phys.kmem.mem (w.kernel.proc p).pagetable va) ∧
    w'.kernel.phys.kmem.mem (w.kernel.proc p).trapframe =
      w.kernel.phys.kmem.mem (w.kernel.proc p).trapframe ∧
    (∀ q ∈ w.kernel.procPages g ++ (pipes ++ F),
      w'.kernel.phys.kmem.mem q = w.kernel.phys.kmem.mem q) ∧
    w'.kernel.phys.kmem.freelist.Perm w.kernel.phys.kmem.freelist ∧
    Fs.Released w.fs w'.fs := by
  have hpt := h.pagetable_ne hp
  obtain ⟨hpa, hsz, htf, hsp⟩ := h.space hpt
  obtain ⟨hex, hacct, hframe⟩ := Sys.wp.ok (exec_executing hE h.slots.acct hsp.trapframe hrefs huniq
    hcwd path argv ustack) hrun rfl
  have hwf : Wf E F held { w.kernel with phys := w'.kernel.phys } g pipes :=
    h.outside hacct fun q hq => hframe q (by
      rw [← append_assoc]
      exact mem_append_left _ hq)
  obtain ⟨_, _, _, hsp'⟩ := hwf.space hpt
  have hown : ∀ q ∈ (g p).1.pages ++ ((g p).2.map Prod.fst ++ (w.kernel.proc p).trapframe
      :: w.kernel.rest g (pipes ++ F) p), w'.kernel.phys.kmem.mem q = w.kernel.phys.kmem.mem q :=
    fun q hq => hframe q ((ledger_perm g _ htf).mem_iff.mpr hq)
  refine ⟨by rw [hex.kernel], hex.name, fun va => ?_, hown _ ?_, hframe,
    h.slots.acct.freelist_perm hacct, hex.file⟩
  · have hcell : cell (g p).2 w'.kernel.phys.kmem.mem = cell (g p).2 w.kernel.phys.kmem.mem :=
      Kept.cell fun q hq => hown q (mem_append_right _ (mem_append_left _ hq))
    rw [hpa, hsp.byteAt hE, ← hcell]
    exact hsp'.byteAt hE va
  · exact mem_append_right _ (mem_append_right _ mem_cons_self)

end Specs

/-- The first process, with four free pages, and a disk with a program of one
    segment. -/
def first : World where
  kernel := (firstMachine 9).kernel
  fs :=
    { Fs.Sample.state with
      data := fun b =>
        if b = 32 then Fs.putDinode (Fs.Sample.data 32) 128 { Fs.Sample.file with size := 123 }
        else if b = 35 then
          ((((((Bytes.zero.setLE 0 4 ELF_MAGIC).setLE 32 8 64).setLE 56 2 1).setLE 64 4
            ELF_PROG_LOAD).setLE 72 8 120).setLE 96 8 3).setLE 104 8 5
        else Fs.Sample.data b
      outstanding := 0
      itable := fun i => ⟨ROOTDEV, if i = 0 then Fs.ROOTINO else 0, if i = 0 then 1 else 0, false,
        false, .fresh 0⟩ }
  cwd := fun _ => some 0
  name := fun _ => []

set_option maxRecDepth 1500 in
/-- The first process tries to execute it. Three pages go to the page table and
    one to the segment, and `uvmalloc` finds no fifth to map that. -/
theorem exec_all_or_nothing_short : ∃ w',
    exec (smallEnv 9) Fs.Sample.sb 0 [102] [] Bytes.zero first = .ok (-1, w') ∧
    w'.kernel.phys.calls = first.kernel.phys.calls + 5 ∧
    w'.kernel.proc = first.kernel.proc ∧
    w'.kernel.phys.kmem.freelist.Perm first.kernel.phys.kmem.freelist ∧
    Fs.Released first.fs w'.fs := by
  obtain ⟨g, pipes, hwf⟩ : (firstMachine 9).WellFormed (smallEnv 9) _ :=
    firstMachine_wellFormed (by decide) (by decide) (by decide +kernel)
  obtain ⟨r, w', hrun, hr⟩ := Sys.exists_of_check
    (x := exec (smallEnv 9) Fs.Sample.sb 0 [102] [] Bytes.zero) (s := first)
    (t := fun r w' => decide (r = -1 ∧ w'.kernel.phys.calls = first.kernel.phys.calls + 5))
    (by decide +kernel)
  obtain ⟨rfl, hcalls⟩ := of_decide_eq_true hr
  have hrefs : ∀ j, 0 ≤ (first.fs.itable j).ref := by decide
  have hused : ∀ j, 0 < (first.fs.itable j).ref → j = 0 := by decide
  have huniq : Fs.Uniq first.fs := fun i j hi hj _ _ => (hused i hi).trans (hused j hj).symm
  obtain ⟨hproc, _, _, _, _, hfree, hreleased⟩ := exec_all_or_nothing smallEnv_nine hwf
    (by decide +kernel) hrefs huniq (fun cwd hcwd => by cases hcwd; decide) [102] [] Bytes.zero hrun
  exact ⟨w', hrun, hcalls, hproc, hfree, hreleased⟩

end World

end Xv6
