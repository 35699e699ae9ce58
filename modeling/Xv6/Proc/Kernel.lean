import Xv6.Proc.Cpu
import Xv6.Proc.Exec

/-!
# Processes, open files and pipes

The calls of `kernel/proc.c`, `kernel/file.c`, `kernel/pipe.c` and
`kernel/sysfile.c` that create and end processes, change their memory, and open
and close pipes, on one kernel state. Each call runs to its end before the next;
a process that waits for a child gives up its turn and calls `wait` again when
it is woken.

Of a process's record the kernel stack, the saved context, the current directory
and the name are left out, and of an open file what concerns inodes: none of it
holds a page. What a call reads from a program's file or finds at a pointer into
user memory is an argument.
-/

namespace Xv6

open Function
open Cpus (ProcState)

inductive FileType where
  | FD_NONE
  | FD_PIPE
  | FD_INODE
  | FD_DEVICE
  deriving DecidableEq, Repr

structure File where
  type : FileType
  /-- reference count -/
  ref : Int
  readable : Bool
  writable : Bool
  /-- the page of the `struct pipe` -/
  pipe : Nat

structure Proc where
  state : ProcState
  /-- if non-zero, sleeping on chan -/
  chan : Nat
  killed : Int
  /-- exit status to be returned to parent's wait -/
  xstate : Int
  pid : BitVec 32
  parent : Option (Fin NPROC)
  sz : Nat
  /-- user page table, or 0 -/
  pagetable : Nat
  /-- the trapframe's page, or 0 -/
  trapframe : Nat
  ofile : Fin NOFILE → Option (Fin NFILE)

structure Kernel where
  phys : Phys
  proc : Fin NPROC → Proc
  file : Fin NFILE → File
  nextpid : BitVec 32
  initproc : Option (Fin NPROC)

namespace Kernel

def setPhys (s : Phys) (k : Kernel) : Kernel := { k with phys := s }

def setProc (k : Kernel) (p : Fin NPROC) (x : Proc) : Kernel :=
  { k with proc := update k.proc p x }

def setFile (k : Kernel) (f : Fin NFILE) (x : File) : Kernel :=
  { k with file := update k.file f x }

end Kernel

/-- `&proc[p]`: some address, not null. -/
def procPtr : Option (Fin NPROC) → Nat
  | some p => p.val + 1
  | none => 0

/-- A call that works on memory. -/
def onPhys {α : Type} (x : Sys Phys α) : Sys Kernel α := Sys.zoom Kernel.phys Kernel.setPhys x

def updateProc (p : Fin NPROC) (f : Proc → Proc) : Sys Kernel Unit :=
  Sys.modify fun k => k.setProc p (f (k.proc p))

def updateFile (f : Fin NFILE) (g : File → File) : Sys Kernel Unit :=
  Sys.modify fun k => k.setFile f (g (k.file f))

/-- Store `n` bytes at an offset of a page. -/
def storePage (pa off n v : Nat) : Sys Phys Unit :=
  Sys.modify fun s => s.setMem (update s.kmem.mem pa ((s.kmem.mem pa).setLE off n v))

section Code

variable (E : Env)

/-! ## Open files and pipes -/

/-- Offsets in `struct pipe`. -/
abbrev offNread : Nat := 536
abbrev offNwrite : Nat := 540
abbrev offReadopen : Nat := 544
abbrev offWriteopen : Nat := 548

/-- Allocate a file structure. -/
def filealloc : Sys Kernel (Option (Fin NFILE)) := do
  match ← Sys.reads fun k => (List.finRange NFILE).find? fun f => (k.file f).ref = 0 with
  | none => pure none
  | some f => do
    updateFile f fun x => { x with ref := 1 }
    pure (some f)

/-- Increment ref count for file f. -/
def filedup (f : Fin NFILE) : Sys Kernel Unit := do
  let x ← Sys.reads fun k => k.file f
  if x.ref < 1 then Sys.panic "filedup"
  else updateFile f fun x => { x with ref := x.ref + 1 }

/-- Where a pipe's page says that an end is open. -/
def offOpen (writable : Bool) : Nat := if writable then offWriteopen else offReadopen

def pipeclose (pi : Nat) (writable : Bool) : Sys Kernel Unit := do
  onPhys (storePage pi (offOpen writable) 4 0)
  let m ← Sys.reads fun k => k.phys.kmem.mem pi
  if m.getLE offReadopen 4 = 0 ∧ m.getLE offWriteopen 4 = 0 then onPhys (kfreePage E pi)
  else pure ()

/-- Close file f. (Decrement ref count, close when reaches 0.) -/
def fileclose (f : Fin NFILE) : Sys Kernel Unit := do
  let ff ← Sys.reads fun k => k.file f
  if ff.ref < 1 then Sys.panic "fileclose"
  else if ff.ref - 1 > 0 then updateFile f fun x => { x with ref := x.ref - 1 }
  else do
    updateFile f fun x => { x with ref := 0, type := .FD_NONE }
    if ff.type = .FD_PIPE then pipeclose E ff.pipe ff.writable else pure ()

/--
    `pi->readopen = 1; pi->writeopen = 1; pi->nwrite = 0; pi->nread = 0;
    initlock(&pi->lock)` -/
def pipeinit (pi : Nat) : Sys Phys Unit := do
  storePage pi offReadopen 4 1
  storePage pi offWriteopen 4 1
  storePage pi offNwrite 4 0
  storePage pi offNread 4 0
  storePage pi 0 4 0

def pipealloc : Sys Kernel (Option (Fin NFILE × Fin NFILE)) := do
  match ← filealloc with
  | none => pure none
  | some f0 => do
    match ← filealloc with
    | none => do
      fileclose E f0
      pure none
    | some f1 => do
      match ← onPhys (kallocPage E) with
      | none => do
        fileclose E f0
        fileclose E f1
        pure none
      | some pi => do
        onPhys (pipeinit pi)
        updateFile f0 fun x =>
          { x with type := .FD_PIPE, readable := true, writable := false, pipe := pi }
        updateFile f1 fun x =>
          { x with type := .FD_PIPE, readable := false, writable := true, pipe := pi }
        pure (some (f0, f1))

/-- Allocate a file descriptor for the given file. -/
def fdalloc (p : Fin NPROC) (f : Fin NFILE) : Sys Kernel (Option (Fin NOFILE)) := do
  match ← Sys.reads fun k => (List.finRange NOFILE).find? fun fd => (k.proc p).ofile fd = none with
  | none => pure none
  | some fd => do
    updateProc p fun x => { x with ofile := update x.ofile fd (some f) }
    pure (some fd)

def clearFd (p : Fin NPROC) (fd : Fin NOFILE) : Sys Kernel Unit :=
  updateProc p fun x => { x with ofile := update x.ofile fd none }

/-- `copyout` of a four-byte integer. -/
def copyoutInt (p : Fin NPROC) (dstva v : Nat) : Sys Kernel Int := do
  let x ← Sys.reads fun k => k.proc p
  onPhys (copyout E x.pagetable dstva (Bytes.zero.setLE 0 4 v) 4)

def sysPipe (p : Fin NPROC) (fdarray : Nat) : Sys Kernel Int := do
  match ← pipealloc E with
  | none => pure (-1)
  | some (rf, wf) => do
    match ← fdalloc p rf with
    | none => do
      fileclose E rf
      fileclose E wf
      pure (-1)
    | some fd0 => do
      match ← fdalloc p wf with
      | none => do
        clearFd p fd0
        fileclose E rf
        fileclose E wf
        pure (-1)
      | some fd1 => do
        let r0 ← copyoutInt E p fdarray fd0
        let r1 ← if r0 < 0 then pure (-1) else copyoutInt E p ((fdarray + 4) % 2 ^ 64) fd1
        if r1 < 0 then do
          clearFd p fd0
          clearFd p fd1
          fileclose E rf
          fileclose E wf
          pure (-1)
        else pure 0

def sysClose (p : Fin NPROC) (fd : Fin NOFILE) : Sys Kernel Int := do
  match ← Sys.reads fun k => (k.proc p).ofile fd with
  | none => pure (-1)
  | some f => do
    clearFd p fd
    fileclose E f
    pure 0

def sysDup (p : Fin NPROC) (fd : Fin NOFILE) : Sys Kernel Int := do
  match ← Sys.reads fun k => (k.proc p).ofile fd with
  | none => pure (-1)
  | some f => do
    match ← fdalloc p f with
    | none => pure (-1)
    | some fd' => do
      filedup f
      pure fd'

/-! ## Processes -/

/-- free a proc structure and the data hanging from it, including user pages -/
def freeproc (p : Fin NPROC) : Sys Kernel Unit := do
  let x ← Sys.reads fun k => k.proc p
  if x.trapframe ≠ 0 then onPhys (kfreePage E x.trapframe) else pure ()
  updateProc p fun x => { x with trapframe := 0 }
  if x.pagetable ≠ 0 then onPhys (procFreepagetable E x.pagetable x.sz) else pure ()
  updateProc p fun x =>
    { x with
      pagetable := 0
      sz := 0
      pid := 0
      parent := none
      chan := 0
      killed := 0
      xstate := 0
      state := .UNUSED }

def allocpid : Sys Kernel (BitVec 32) := do
  let pid ← Sys.reads fun k => k.nextpid
  Sys.modify fun k => { k with nextpid := k.nextpid + 1 }
  pure pid

/-- Look in the process table for an UNUSED proc. If found, initialize state
    required to run in the kernel. If there are no free procs, or a memory
    allocation fails, return 0. -/
def allocproc : Sys Kernel (Option (Fin NPROC)) := do
  match ← Sys.reads fun k => (List.finRange NPROC).find? fun p => (k.proc p).state = .UNUSED with
  | none => pure none
  | some p => do
    let pid ← allocpid
    updateProc p fun x => { x with pid := pid, state := .USED }
    match ← onPhys (kallocPage E) with
    | none => do
      updateProc p fun x => { x with trapframe := 0 }
      freeproc E p
      pure none
    | some tf => do
      updateProc p fun x => { x with trapframe := tf }
      match ← onPhys (procPagetable E tf) with
      | none => do
        updateProc p fun x => { x with pagetable := 0 }
        freeproc E p
        pure none
      | some pagetable => do
        updateProc p fun x => { x with pagetable := pagetable }
        pure (some p)

/--
    `for (i = 0; i < NOFILE; i++) if (p->ofile[i]) np->ofile[i] =
    filedup(p->ofile[i]);` -/
def forkFiles (p np : Fin NPROC) : List (Fin NOFILE) → Sys Kernel Unit
  | [] => pure ()
  | i :: is => do
    match ← Sys.reads fun k => (k.proc p).ofile i with
    | none => forkFiles p np is
    | some f => do
      filedup f
      updateProc np fun x => { x with ofile := update x.ofile i (some f) }
      forkFiles p np is

/-- `*(np->trapframe) = *(p->trapframe); np->trapframe->a0 = 0;` -/
def copyTrapframe (tf ntf : Nat) : Sys Phys Unit := do
  let page ← Sys.reads fun s => s.kmem.mem tf
  movePage ntf 0 page 0 288
  storePage ntf 112 8 0

/-- Create a new process, copying the parent. -/
def fork (p : Fin NPROC) : Sys Kernel Int := do
  match ← allocproc E with
  | none => pure (-1)
  | some np => do
    let x ← Sys.reads fun k => k.proc p
    let nx ← Sys.reads fun k => k.proc np
    let r ← onPhys (uvmcopy E x.pagetable nx.pagetable x.sz)
    if r < 0 then do
      freeproc E np
      pure (-1)
    else do
      updateProc np fun nx => { nx with sz := x.sz }
      onPhys (copyTrapframe x.trapframe nx.trapframe)
      forkFiles p np (List.finRange NOFILE)
      updateProc np fun nx => { nx with parent := some p }
      updateProc np fun nx => { nx with state := .RUNNABLE }
      pure nx.pid.toInt

/-- Wake up all processes sleeping on chan, called by `p`. -/
def wakeup (p : Fin NPROC) (chan : Nat) : Sys Kernel Unit :=
  Sys.modify fun k =>
    { k with
      proc := fun q =>
        let x := k.proc q
        if q ≠ p ∧ x.state = .SLEEPING ∧ x.chan = chan then { x with state := .RUNNABLE } else x }

/-- Pass p's abandoned children to init. -/
def reparent (p : Fin NPROC) : List (Fin NPROC) → Sys Kernel Unit
  | [] => pure ()
  | pp :: pps => do
    let parent ← Sys.reads fun k => (k.proc pp).parent
    if parent = some p then do
      let init ← Sys.reads fun k => k.initproc
      updateProc pp fun x => { x with parent := init }
      wakeup p (procPtr init)
      reparent p pps
    else reparent p pps

/-- The loop of `exit` that closes all open files. -/
def closeFiles (p : Fin NPROC) : List (Fin NOFILE) → Sys Kernel Unit
  | [] => pure ()
  | fd :: fds => do
    match ← Sys.reads fun k => (k.proc p).ofile fd with
    | none => closeFiles p fds
    | some f => do
      fileclose E f
      clearFd p fd
      closeFiles p fds

/-- Exit the current process. An exited process remains in the zombie state
    until its parent calls wait(). -/
def exit (p : Fin NPROC) (status : Int) : Sys Kernel Unit := do
  let init ← Sys.reads fun k => k.initproc
  if init = some p then Sys.panic "init exiting"
  else do
    closeFiles E p (List.finRange NOFILE)
    reparent p (List.finRange NPROC)
    let parent ← Sys.reads fun k => (k.proc p).parent
    wakeup p (procPtr parent)
    updateProc p fun x => { x with xstate := status, state := .ZOMBIE }

/-- Wait for a child process to exit and return its pid, or -1 if this process
    has no children; none if it sleeps. -/
def wait (p : Fin NPROC) (addr : Nat) : Sys Kernel (Option Int) := do
  match ← Sys.reads fun k => (List.finRange NPROC).find? fun pp =>
      (k.proc pp).parent = some p ∧ (k.proc pp).state = .ZOMBIE with
  | some pp => do
    let x ← Sys.reads fun k => k.proc pp
    let r ← if addr ≠ 0 then copyoutInt E p addr (x.xstate % 2 ^ 32).toNat else pure 0
    if r < 0 then pure (some (-1))
    else do
      freeproc E pp
      pure (some x.pid.toInt)
  | none => do
    let havekids ← Sys.reads fun k =>
      (List.finRange NPROC).any fun pp => (k.proc pp).parent = some p
    let killed ← Sys.reads fun k => (k.proc p).killed
    if havekids = false ∨ killed ≠ 0 then pure (some (-1))
    else do
      updateProc p fun x => { x with chan := procPtr (some p), state := .SLEEPING }
      pure none

/-- Kill the process with the given pid. -/
def kill (pid : BitVec 32) : Sys Kernel Int := do
  match ← Sys.reads fun k => (List.finRange NPROC).find? fun p => (k.proc p).pid = pid with
  | none => pure (-1)
  | some p => do
    updateProc p fun x =>
      { x with killed := 1, state := if x.state = .SLEEPING then .RUNNABLE else x.state }
    pure 0

/-! ## Memory of a process -/

def growprocOf (p : Fin NPROC) (n : Int) : Sys Kernel Int := do
  let x ← Sys.reads fun k => k.proc p
  let (r, sz) ← onPhys (growproc E x.pagetable x.sz n)
  updateProc p fun x => { x with sz := sz }
  pure r

def psOf (p : Fin NPROC) (start count : UInt8) (table : Bytes) : Sys Kernel Nat := do
  let x ← Sys.reads fun k => k.proc p
  let (r, sz) ← onPhys (ps E x.pagetable x.sz start count table)
  updateProc p fun x => { x with sz := sz }
  pure r

/--
    `p->trapframe->a1 = sp; p->trapframe->epc = elf.entry; p->trapframe->sp =
    sp;` -/
def setRegs (tf entry sp : Nat) : Sys Phys Unit := do
  storePage tf 120 8 sp
  storePage tf 24 8 entry
  storePage tf 48 8 sp

/-- `exec` from its commit on. -/
def execCommit (p : Fin NPROC) (im : Image) : Sys Kernel Int := do
  let x ← Sys.reads fun k => k.proc p
  updateProc p fun x => { x with pagetable := im.pagetable, sz := im.sz }
  onPhys (setRegs x.trapframe im.entry im.sp)
  onPhys (procFreepagetable E x.pagetable x.sz)
  pure im.argc

/-- `exec(path, argv)`; `prog` is the file at `path`, if there is one. -/
def execProg (p : Fin NPROC) (prog : Option Readi) (argv : Args) (ustack : Bytes) :
    Sys Kernel Int := do
  match prog with
  | none => pure (-1)
  | some readi => do
    let x ← Sys.reads fun k => k.proc p
    match ← onPhys (execImage E x.trapframe readi argv ustack) with
    | none => pure (-1)
    | some im => execCommit E p im

/-- `sys_exec()` -/
def sysExec (p : Fin NPROC) (fetchaddr : Nat → Option Nat) (fetchstr : Nat → Option (Bytes × Nat))
    (prog : Option Readi) (ustack : Bytes) : Sys Kernel Int := do
  let (ok, argv) ← onPhys (fetchArgs E fetchaddr fetchstr MAXARG 0 [])
  if ok = false then do
    onPhys (freeArgs E argv)
    pure (-1)
  else do
    let ret ← execProg E p prog argv ustack
    onPhys (freeArgs E argv)
    pure ret

end Code

/-! ## The kernel's calls in any order -/

/-- The kernel, and the open files that it has a reference to outside the
    processes' tables, as between `pipealloc` and `fdalloc`. -/
structure Machine where
  kernel : Kernel
  held : List (Fin NFILE)

inductive Call where
  | allocproc
  | fork (p : Fin NPROC)
  | exit (p : Fin NPROC) (status : Int)
  | wait (p : Fin NPROC) (addr : Nat)
  | kill (pid : BitVec 32)
  | exec (p : Fin NPROC) (fetchaddr : Nat → Option Nat) (fetchstr : Nat → Option (Bytes × Nat))
      (prog : Option Readi) (ustack : Bytes)
  | growproc (p : Fin NPROC) (n : Int)
  | ps (p : Fin NPROC) (start count : UInt8) (table : Bytes)
  | pipe (p : Fin NPROC) (fdarray : Nat)
  | close (p : Fin NPROC) (fd : Fin NOFILE)
  | dup (p : Fin NPROC) (fd : Fin NOFILE)
  | pipealloc
  | fileclose (f : Fin NFILE)
  /-- the scheduler switches to `p` -/
  | run (p : Fin NPROC)
  | yield (p : Fin NPROC)
  | sleep (p : Fin NPROC) (chan : Nat)
  | wakeup (p : Fin NPROC) (chan : Nat)

namespace Machine

/-- The next state after a call that leaves the references outside the tables as
    they are. -/
def after {α : Type} (m : Machine) (x : Sys Kernel α) : Outcome Machine :=
  x.outcome m.kernel fun _ k => .next { m with kernel := k }

/-- A call made by `p`. -/
def callBy {α : Type} (m : Machine) (p : Fin NPROC) (x : Sys Kernel α) : Outcome Machine :=
  if (m.kernel.proc p).state = .RUNNING then m.after x else .disabled

def step (E : Env) (m : Machine) : Call → Outcome Machine
  | .allocproc => m.after (allocproc E)
  | .fork p => m.callBy p (fork E p)
  | .exit p status => m.callBy p (exit E p status)
  | .wait p addr => m.callBy p (wait E p addr)
  | .kill pid => m.after (kill pid)
  | .exec p fetchaddr fetchstr prog ustack =>
    m.callBy p (sysExec E p fetchaddr fetchstr prog ustack)
  | .growproc p n => m.callBy p (growprocOf E p n)
  | .ps p start count table => m.callBy p (psOf E p start count table)
  | .pipe p fdarray => m.callBy p (sysPipe E p fdarray)
  | .close p fd => m.callBy p (sysClose E p fd)
  | .dup p fd => m.callBy p (sysDup p fd)
  | .pipealloc => (pipealloc E).outcome m.kernel fun r k =>
      match r with
      | none => .next { m with kernel := k }
      | some (f0, f1) => .next ⟨k, f0 :: f1 :: m.held⟩
  | .fileclose f =>
      if f ∈ m.held then
        (fileclose E f).outcome m.kernel fun _ k => .next ⟨k, m.held.erase f⟩
      else .disabled
  | .run p =>
      if (m.kernel.proc p).state = .RUNNABLE then
        m.after (updateProc p fun x => { x with state := .RUNNING, chan := 0 })
      else .disabled
  | .yield p => m.callBy p (updateProc p fun x => { x with state := .RUNNABLE })
  | .sleep p chan => m.callBy p (updateProc p fun x => { x with state := .SLEEPING, chan := chan })
  | .wakeup p chan => m.after (wakeup p chan)

end Machine

end Xv6
