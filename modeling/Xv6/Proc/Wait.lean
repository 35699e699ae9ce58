import Xv6.Lib.Monitor

/-!
# `fork`, `exit` and `wait`

`kernel/proc.c`, as programs of the monitor whose lock is `wait_lock`. Sections
of a `p->lock` are single steps. A process waits in `wait` on the channel that
is its own address, so a channel is a process, or 0 for a parent that is not
set.

`allocproc` looks for an UNUSED slot, one lock after the other; which one it
finds, and whether it and the rest of `fork` find the memory they need, are
inputs, as is whether the `copyout` of `wait` succeeds. RUNNABLE, RUNNING and
SLEEPING are one state here (`ALIVE`): the monitor's phases tell them apart.

Recorded on the side: how often a slot has been allocated (`gen`, so that a slot
and its `gen` name a process once and for all, even if pids repeat), who forked
the process in it, which processes have exited and which of them were reaped, by
whom.
-/

namespace Xv6

open Function

namespace Wait

/-- `enum procstate`; ALIVE is any of SLEEPING, RUNNABLE and RUNNING. -/
inductive ProcState where
  | UNUSED
  | USED
  | ALIVE
  | ZOMBIE
  deriving DecidableEq

/-- The fields of `struct proc` that these functions use. -/
structure Slot (P : Type) where
  state : ProcState
  parent : Option P
  pid : BitVec 32
  xstate : Int
  killed : Bool
  /-- how many processes the slot has held -/
  gen : Nat
  /-- who forked the process in the slot -/
  forker : Option P

/-- What `freeproc` leaves. -/
def Slot.free {P : Type} (x : Slot P) : Slot P :=
  { x with state := .UNUSED, parent := none, pid := 0, xstate := 0, killed := false }

/-- A process that has exited. -/
structure Exit (P : Type) where
  slot : P
  gen : Nat
  forker : Option P
  pid : BitVec 32
  xstate : Int

/-- Where a process is. -/
inductive Pc (P : Type) where
  /-- the slot has no process, or one that has exited -/
  | dead
  | user
  | returned (r : Int)
  -- fork
  | forkLock (np : P) (pid : BitVec 32)
  | forkParent (np : P) (pid : BitVec 32)
  | forkUnlock (np : P) (pid : BitVec 32)
  | forkRun (np : P) (pid : BitVec 32)
  -- exit
  | exitLock (status : Int)
  | exitReparent (status : Int) (rest : List P)
  | exitWakeInit (status : Int) (rest : List P)
  | exitWake (status : Int)
  | exitZombie (status : Int)
  | exitUnlock
  -- wait
  | waitLock (addr : Nat)
  | waitScan (addr : Nat) (rest : List P) (havekids : Bool)
  | waitKilled (addr : Nat)
  | waitSleep (addr : Nat)
  | waitUnlock (r : Int)

/-- The process table, and the records. -/
structure Table (P : Type) where
  slot : P → Slot P
  nextpid : BitVec 32
  pc : P → Pc P
  exits : List (Exit P)
  /-- the successful waits: who waited, and for whom -/
  reaps : List (P × Exit P)

/-- The system calls. `fork none` found no UNUSED slot; `fork (some np)` found
    `np`, and `ok` says whether there was memory enough. -/
inductive Call (P : Type) where
  | fork (np : Option P) (ok : Bool)
  | exit (status : Int)
  | wait (addr : Nat)

/-- What a step gets from outside: a call, and whether a `copyout` succeeds. -/
structure Input (P : Type) where
  call : Call P
  copyout : Bool

variable {P : Type} [DecidableEq P]

namespace Table

@[simps -fullyApplied slot exits reaps]
def goto (d : Table P) (p : P) (l : Pc P) : Table P := { d with pc := update d.pc p l }

@[simps -fullyApplied pc exits reaps]
def setSlot (d : Table P) (q : P) (x : Slot P) : Table P :=
  { d with slot := update d.slot q x }

/-- `allocproc` at the slot it found, and the rest of `fork` up to the release
    of `np->lock`. -/
def alloc (d : Table P) (p np : P) : Table P :=
  { d with nextpid := d.nextpid + 1 }.setSlot np
    { d.slot np with
      state := .USED, pid := d.nextpid, gen := (d.slot np).gen + 1, forker := some p }

/-- The same when memory runs out: `freeproc(np)`. -/
def allocFail (d : Table P) (np : P) : Table P :=
  { d with nextpid := d.nextpid + 1 }.setSlot np (d.slot np).free

/-- `pp->parent = q` -/
def setParent (d : Table P) (pp q : P) : Table P :=
  d.setSlot pp { d.slot pp with parent := some q }

/-- `np->state = RUNNABLE`: the child will return from `fork` in its turn. -/
def start (d : Table P) (np : P) : Table P :=
  (d.setSlot np { d.slot np with state := .ALIVE }).goto np (.returned 0)

/-- The process in a slot, as one that exits with this status. -/
def leaving (d : Table P) (p : P) (status : Int) : Exit P :=
  { slot := p, gen := (d.slot p).gen, forker := (d.slot p).forker, pid := (d.slot p).pid,
    xstate := status }

/-- `p->xstate = status; p->state = ZOMBIE` -/
def zombie (d : Table P) (p : P) (status : Int) : Table P :=
  { d with exits := d.exits ++ [d.leaving p status] }.setSlot p
    { d.slot p with xstate := status, state := .ZOMBIE }

/-- `freeproc(pp)` in `wait`, whose caller gets `pp`'s pid and exit status. -/
def reap (d : Table P) (p pp : P) : Table P :=
  { d with reaps := d.reaps ++ [(p, d.leaving pp (d.slot pp).xstate)] }.setSlot pp (d.slot pp).free

end Table

section

variable (d : Table P) (p q : P)

@[simp] theorem goto_pc (l : Pc P) : (d.goto p l).pc q = if q = p then l else d.pc q := by
  simp [Table.goto, update_apply]

@[simp] theorem setSlot_slot (x : Slot P) :
    (d.setSlot p x).slot q = if q = p then x else d.slot q := by
  simp [Table.setSlot, update_apply]

end

/-- The code of process `p`, with `init` as `initproc` and `table` as the order
    of `proc[]`. -/
def code (init : P) (table : List P) (p : P) (x : Input P) (d : Table P) :
    Option (Action P (Option P) (Table P)) :=
  match d.pc p with
  | .dead => none
  | .user | .returned _ =>
    match x.call with
    | .fork none _ => some (.go (d.goto p (.returned (-1))))
    | .fork (some np) ok =>
      if (d.slot np).state = .UNUSED then
        some (.under np
          (if ok then (d.alloc p np).goto p (.forkLock np d.nextpid)
          else (d.allocFail np).goto p (.returned (-1))))
      else none
    -- init does not exit
    | .exit status => if p = init then none else some (.go (d.goto p (.exitLock status)))
    | .wait addr => some (.go (d.goto p (.waitLock addr)))
  | .forkLock np pid => some (.acquire (d.goto p (.forkParent np pid)))
  | .forkParent np pid => some (.go ((d.setParent np p).goto p (.forkUnlock np pid)))
  | .forkUnlock np pid => some (.release (d.goto p (.forkRun np pid)))
  | .forkRun np pid => some (.under np ((d.start np).goto p (.returned pid.toInt)))
  | .exitLock status => some (.acquire (d.goto p (.exitReparent status table)))
  | .exitReparent status [] => some (.go (d.goto p (.exitWake status)))
  | .exitReparent status (pp :: rest) =>
    some (.go
      (if (d.slot pp).parent = some p then
        (d.setParent pp init).goto p (.exitWakeInit status rest)
      else d.goto p (.exitReparent status rest)))
  | .exitWakeInit status rest =>
    some (.wakeup (some init) (d.goto p (.exitReparent status rest)))
  | .exitWake status => some (.wakeup (d.slot p).parent (d.goto p (.exitZombie status)))
  | .exitZombie status => some (.under p ((d.zombie p status).goto p .exitUnlock))
  | .exitUnlock => some (.release (d.goto p .dead))
  | .waitLock addr => some (.acquire (d.goto p (.waitScan addr table false)))
  | .waitScan addr (pp :: rest) havekids =>
    if (d.slot pp).parent = some p then
      some (.under pp
        (if (d.slot pp).state = .ZOMBIE then
          if addr ≠ 0 ∧ x.copyout = false then d.goto p (.waitUnlock (-1))
          else (d.reap p pp).goto p (.waitUnlock (d.slot pp).pid.toInt)
        else d.goto p (.waitScan addr rest true)))
    else some (.go (d.goto p (.waitScan addr rest havekids)))
  | .waitScan addr [] havekids =>
    some (.go (d.goto p (if havekids then .waitKilled addr else .waitUnlock (-1))))
  | .waitKilled addr =>
    some (.under p (d.goto p (if (d.slot p).killed then .waitUnlock (-1) else .waitSleep addr)))
  | .waitSleep addr => some (.sleep (some p) (d.goto p (.waitScan addr table false)))
  | .waitUnlock r => some (.release (d.goto p (.returned r)))

/-- The processes, and `kill`. -/
def program (init : P) (table : List P) : Program P (Option P) (Table P) (Input P) :=
  { code := code init table
    kill := fun q d => d.setSlot q { d.slot q with killed := true } }

/-- Boot: `init` alone. -/
def Table.boot (init : P) : Table P :=
  { slot := fun q =>
      { state := if q = init then .ALIVE else .UNUSED, parent := none,
        pid := if q = init then 1 else 0, xstate := 0, killed := false, gen := 0, forker := none }
    nextpid := 2
    pc := fun q => if q = init then .user else .dead
    exits := []
    reaps := [] }

end Wait

end Xv6
