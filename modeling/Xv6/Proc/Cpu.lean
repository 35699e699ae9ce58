import Xv6.Lib.Run

/-!
# CPUs, spin locks and the scheduler

`kernel/spinlock.c` and the scheduling half of `kernel/proc.c`, for any number
of CPUs. A CPU executes one kernel thread at a time: its own scheduler, or that
of a process. Each acquisition and release of a spin lock is a step of its own,
with `push_off` and `pop_off` as the code has them; `swtch` changes which thread
the CPU executes and touches no lock.

A process's thread runs kernel code that takes locks it does not hold and drops
locks it does, as it likes (`kernel ls` is such a point, with the locks it
holds), calls `yield` where it holds none, and `sleep` and `exit` where it holds
one. A section of somebody's `p->lock` in `wakeup` or `kill`, or in `fork` and
`wait`, is a *visit*: it can begin wherever the CPU is in such code or in the
scheduler's loop, which includes the interrupt handlers.

`myproc()` is the CPU's `c->proc`. That it is the process whose thread asks is
not assumed: the model stops with a panic of its own if it is not.
-/

namespace Xv6

open Function (update update_apply)

namespace Cpus

inductive ProcState where
  | UNUSED
  | USED
  | SLEEPING
  | RUNNABLE
  | RUNNING
  | ZOMBIE
  deriving DecidableEq

/-- A spin lock: some process's `p->lock`, or another. -/
inductive Lk (P L : Type) where
  | proc (p : P)
  | other (l : L)
  deriving DecidableEq

/-- Where a process's thread continues when it is switched to. -/
inductive After where
  | forkret
  | yielded
  | slept
  | gone
  deriving DecidableEq

/-- Where a process's thread is. -/
inductive Pc (L : Type) where
  /-- in the kernel or in user space, holding these locks -/
  | kernel (ls : List L)
  /-- in `yield`, holding `p->lock` -/
  | yielding
  /-- in `sleep`, holding `p->lock` and `lk` -/
  | sleeping (l : L)
  /-- in `sleep`, holding `p->lock` -/
  | dozing
  /-- in `exit`, holding `p->lock` and `wait_lock` -/
  | exiting (l : L)
  /-- the same, as a zombie -/
  | exited (l : L)
  /-- in `sched` -/
  | sched (k : After)
  /-- in `swtch`: it continues here -/
  | parked (k : After)

/-- Where a CPU's scheduler is. -/
inductive SchedPc (P : Type) where
  | start
  | loop
  | scan (rest : List P)
  | test (p : P) (rest : List P)
  /-- in `swtch`, having switched to `p` -/
  | away (p : P) (rest : List P)
  | unlock (p : P) (rest : List P)

/-- The schedulers there are: `available_schedulers`. -/
inductive Scheduler where
  | rr
  deriving DecidableEq

/-- `struct cpu`, the CPU's interrupt enable bit, and what it executes. -/
structure Cpu (P : Type) where
  /-- the process running on this cpu, or null -/
  proc : Option P
  /-- depth of push_off() nesting -/
  noff : Int
  /-- were interrupts enabled before push_off()? -/
  intena : Bool
  intr : Bool
  /-- whose thread it executes; none is the scheduler -/
  thread : Option P
  spc : SchedPc P
  /-- the process whose lock it holds for a visit -/
  visit : Option P

structure State (C P L : Type) where
  cpu : C → Cpu P
  lock : Lk P L → Option C
  state : P → ProcState
  pc : P → Pc L
  /-- `intena` as `sched` keeps it on the process's stack -/
  intena : P → Bool
  schedPointer : Scheduler

/-- What the code of a process does next, where it has a choice. -/
inductive Choice (L : Type) where
  | lock (l : L)
  | unlock (l : L)
  | intr (on : Bool)
  | yield
  | sleep
  | exit

/-- What is done to a visited process. -/
inductive Touch where
  /-- `wakeup` and `kill`: if it is SLEEPING, it becomes RUNNABLE -/
  | wake
  /-- `allocproc`: the slot is taken, to start at `forkret` -/
  | alloc
  /-- the end of `fork` -/
  | ready
  /-- `wait`: a zombie is freed -/
  | reap

inductive Event (C P L : Type) where
  | proc (c : C) (x : Choice L)
  | sched (c : C)
  | visit (c : C) (q : P)
  | touch (c : C) (x : Touch)
  | leave (c : C)
  | schedset (id : Scheduler)

variable {C P L : Type}

namespace Cpu

def pushOff (u : Cpu P) : Cpu P :=
  { u with
    intr := false
    intena := if u.noff = 0 then u.intr else u.intena
    noff := u.noff + 1 }

def popOff (u : Cpu P) : Outcome (Cpu P) :=
  if u.intr = true then .panic "pop_off - interruptible"
  else if u.noff < 1 then .panic "pop_off"
  else .next { u with noff := u.noff - 1, intr := u.noff - 1 = 0 && u.intena }

/-- A CPU that has not started its scheduler. -/
def boot : Cpu P :=
  { proc := none, noff := 0, intena := false, intr := false, thread := none, spc := .start,
    visit := none }

end Cpu

namespace State

variable [DecidableEq C] [DecidableEq P] [DecidableEq L]

@[simps -fullyApplied lock state pc]
def setCpu (s : State C P L) (c : C) (u : Cpu P) : State C P L :=
  { s with cpu := update s.cpu c u }

@[simps -fullyApplied cpu state pc]
def setLock (s : State C P L) (k : Lk P L) (o : Option C) : State C P L :=
  { s with lock := update s.lock k o }

@[simps -fullyApplied cpu lock pc]
def setState (s : State C P L) (p : P) (x : ProcState) : State C P L :=
  { s with state := update s.state p x }

@[simps -fullyApplied cpu lock state]
def goto (s : State C P L) (t : P) (l : Pc L) : State C P L :=
  { s with pc := update s.pc t l }

def sgoto (s : State C P L) (c : C) (l : SchedPc P) : State C P L :=
  s.setCpu c { s.cpu c with spc := l }

section

variable (s : State C P L) (c : C) (p q : P) (k : Lk P L)

omit [DecidableEq P] [DecidableEq L] in
@[simp] theorem setCpu_cpu (c' : C) (u : Cpu P) :
    (s.setCpu c u).cpu c' = if c' = c then u else s.cpu c' := by
  simp [setCpu, update_apply]

omit [DecidableEq C] in
@[simp] theorem setLock_lock (k' : Lk P L) (o : Option C) :
    (s.setLock k o).lock k' = if k' = k then o else s.lock k' := by
  simp [setLock, update_apply]

omit [DecidableEq C] [DecidableEq L] in
@[simp] theorem setState_state (x : ProcState) :
    (s.setState p x).state q = if q = p then x else s.state q := by
  simp [setState, update_apply]

omit [DecidableEq C] [DecidableEq L] in
@[simp] theorem goto_pc (l : Pc L) : (s.goto p l).pc q = if q = p then l else s.pc q := by
  simp [goto, update_apply]

end

/-- `acquire(lk)`; a CPU that spins has not taken its step yet. -/
def acquire (s : State C P L) (c : C) (k : Lk P L) : Outcome (State C P L) :=
  if s.lock k = some c then .panic "acquire"
  else if s.lock k = none then .next ((s.setLock k (some c)).setCpu c (s.cpu c).pushOff)
  else .disabled

/-- `release(lk)` -/
def release (s : State C P L) (c : C) (k : Lk P L) : Outcome (State C P L) :=
  if s.lock k = some c then
    (s.cpu c).popOff.bind fun u => .next ((s.setLock k none).setCpu c u)
  else .panic "release"

/-- The rest of a function that begins with `struct proc *p = myproc()`, in the
    thread of `t`. -/
def myproc (s : State C P L) (c : C) (t : P) (k : Outcome (State C P L)) : Outcome (State C P L) :=
  if (s.cpu c).proc = some t then k else .panic "myproc"

/-- `sched()`: the checks, and `swtch(&p->context, &mycpu()->context)`. -/
def sched (s : State C P L) (c : C) (p : P) (k : After) : Outcome (State C P L) :=
  if s.lock (.proc p) ≠ some c then .panic "sched p->lock"
  else if (s.cpu c).noff ≠ 1 then .panic "sched locks"
  else if s.state p = .RUNNING then .panic "sched running"
  else if (s.cpu c).intr = true then .panic "sched interruptible"
  else .next
    (({ s with intena := update s.intena p (s.cpu c).intena }.setCpu c
      { s.cpu c with thread := none }).goto p (.parked k))

/-- Kernel code of process `t` on CPU `c`, holding `ls`. -/
def kernelStep (s : State C P L) (c : C) (t : P) (ls : List L) :
    Choice L → Outcome (State C P L)
  | .lock l =>
    if l ∈ ls then .disabled
    else (s.acquire c (.other l)).bind fun s => .next (s.goto t (.kernel (l :: ls)))
  | .unlock l =>
    if l ∈ ls then (s.release c (.other l)).bind fun s => .next (s.goto t (.kernel (ls.erase l)))
    else .disabled
  | .intr on =>
    if ls = [] then .next (s.setCpu c { s.cpu c with intr := on }) else .disabled
  | .yield =>
    if ls = [] then
      s.myproc c t ((s.acquire c (.proc t)).bind fun s => .next (s.goto t .yielding))
    else .disabled
  | .sleep =>
    match ls with
    | [l] => s.myproc c t ((s.acquire c (.proc t)).bind fun s => .next (s.goto t (.sleeping l)))
    | _ => .disabled
  | .exit =>
    match ls with
    | [l] => s.myproc c t ((s.acquire c (.proc t)).bind fun s => .next (s.goto t (.exiting l)))
    | _ => .disabled

/-- The next step of the thread of `t` on CPU `c`. -/
def procStep (s : State C P L) (c : C) (t : P) (x : Choice L) : Outcome (State C P L) :=
  match s.pc t with
  | .kernel ls => s.kernelStep c t ls x
  | .yielding => .next ((s.setState t .RUNNABLE).goto t (.sched .yielded))
  | .sleeping l => (s.release c (.other l)).bind fun s => .next (s.goto t .dozing)
  | .dozing => .next ((s.setState t .SLEEPING).goto t (.sched .slept))
  | .exiting l => .next ((s.setState t .ZOMBIE).goto t (.exited l))
  | .exited l => (s.release c (.other l)).bind fun s => .next (s.goto t (.sched .gone))
  | .sched k => s.myproc c t (s.sched c t k)
  | .parked .forkret =>
    s.myproc c t ((s.release c (.proc t)).bind fun s => .next (s.goto t (.kernel [])))
  -- mycpu()->intena = intena; release(&p->lock); sleep goes on to take lk as kernel code does
  | .parked .yielded | .parked .slept =>
    ((s.setCpu c { s.cpu c with intena := s.intena t }).release c (.proc t)).bind fun s =>
      .next (s.goto t (.kernel []))
  | .parked .gone => .panic "zombie exit"

/-- The next step of CPU `c`'s scheduler. -/
def schedStep (table : List P) (s : State C P L) (c : C) : Outcome (State C P L) :=
  match (s.cpu c).spc with
  | .start => .next (s.setCpu c { s.cpu c with proc := none, spc := .loop })
  | .loop => .next (s.setCpu c { s.cpu c with intr := true, spc := .scan table })
  | .scan [] => .next (s.sgoto c .loop)
  | .scan (p :: rest) => (s.acquire c (.proc p)).bind fun s => .next (s.sgoto c (.test p rest))
  | .test p rest =>
    if s.state p = .RUNNABLE then
      -- swtch(&c->context, &p->context)
      .next ((s.setState p .RUNNING).setCpu c
        { s.cpu c with proc := some p, thread := some p, spc := .away p rest })
    else .next (s.sgoto c (.unlock p rest))
  | .away p rest =>
    if s.schedPointer ≠ .rr then
      (s.release c (.proc p)).bind fun s => .next (s.sgoto c .start)
    else .next (s.setCpu c { s.cpu c with proc := none, spc := .unlock p rest })
  | .unlock p rest => (s.release c (.proc p)).bind fun s => .next (s.sgoto c (.scan rest))

/-- The CPU is in code that may visit a process. -/
def mayVisit (s : State C P L) (c : C) : Bool :=
  match (s.cpu c).thread with
  | some t =>
    match s.pc t with
    | .kernel _ => true
    | _ => false
  | none =>
    match (s.cpu c).spc with
    | .loop | .scan _ => true
    | _ => false

def touch (s : State C P L) (q : P) : Touch → State C P L
  | .wake => if s.state q = .SLEEPING then s.setState q .RUNNABLE else s
  | .alloc =>
    if s.state q = .UNUSED then (s.setState q .USED).goto q (.parked .forkret) else s
  | .ready => if s.state q = .USED then s.setState q .RUNNABLE else s
  | .reap => if s.state q = .ZOMBIE then s.setState q .UNUSED else s

def step (table : List P) (s : State C P L) : Event C P L → Outcome (State C P L)
  | .proc c x =>
    match (s.cpu c).visit, (s.cpu c).thread with
    | none, some t => s.procStep c t x
    | _, _ => .disabled
  | .sched c =>
    match (s.cpu c).visit, (s.cpu c).thread with
    | none, none => schedStep table s c
    | _, _ => .disabled
  | .visit c q =>
    if (s.cpu c).visit = none ∧ s.mayVisit c = true then
      (s.acquire c (.proc q)).bind fun s => .next (s.setCpu c { s.cpu c with visit := some q })
    else .disabled
  | .touch c x =>
    match (s.cpu c).visit with
    | some q => .next (s.touch q x)
    | none => .disabled
  | .leave c =>
    match (s.cpu c).visit with
    | some q =>
      (s.release c (.proc q)).bind fun s => .next (s.setCpu c { s.cpu c with visit := none })
    | none => .disabled
  | .schedset id => .next { s with schedPointer := id }

end State

end Cpus

end Xv6
