import Xv6.Lib.Monitor
import Xv6.Lib.Ring

/-!
# Pipes

`kernel/pipe.c`, as programs of the monitor whose lock is `pi->lock`. A place in
the code (`Pc`) is a point between two sections: `killed(pr)` is a section of
the caller's own lock, `sleep` and `wakeup` are the monitor's, and what lies
between two of them is one step, since it only touches the pipe and the pipe's
lock is held.

What user memory holds is an input: `src i` is the byte `copyin` finds at `addr
+ i`, or `none` where it fails, and `dst i` says whether `copyout` to `addr + i`
succeeds.

Three things are recorded that the code does not keep: whether a writer has
moved a byte since it last called `wakeup(&pi->nread)`, and the bytes taken from
writers and given to readers, with who they were, in order.
-/

namespace Xv6

open Function

def PIPESIZE : Nat := 512

/-- `struct pipe` without its lock. -/
structure Pipe where
  data : Nat → UInt8
  /-- number of bytes read -/
  nread : BitVec 32
  /-- number of bytes written -/
  nwrite : BitVec 32
  /-- read fd is still open -/
  readopen : Bool
  /-- write fd is still open -/
  writeopen : Bool

namespace Pipe

/-- `pi->nread == pi->nwrite` -/
def Empty (pi : Pipe) : Prop := pi.nread = pi.nwrite

/-- `pi->nwrite == pi->nread + PIPESIZE` -/
def Full (pi : Pipe) : Prop := pi.nwrite = pi.nread + BitVec.ofNat 32 PIPESIZE

instance (pi : Pipe) : Decidable pi.Empty := inferInstanceAs (Decidable (_ = _))
instance (pi : Pipe) : Decidable pi.Full := inferInstanceAs (Decidable (_ = _))

/-- `pi->data[pi->nwrite++ % PIPESIZE] = ch` -/
def put (pi : Pipe) (ch : UInt8) : Pipe :=
  { pi with
    data := update pi.data (pi.nwrite.toNat % PIPESIZE) ch
    nwrite := pi.nwrite + 1 }

/-- `pi->data[pi->nread % PIPESIZE]` -/
def front (pi : Pipe) : UInt8 := pi.data (pi.nread.toNat % PIPESIZE)

/-- `pi->nread++` -/
def drop (pi : Pipe) : Pipe := { pi with nread := pi.nread + 1 }

/-- The two channels, `&pi->nread` and `&pi->nwrite`. -/
inductive Chan where
  | nread
  | nwrite
  deriving DecidableEq

/-- The arguments of a `pipewrite`, with what the user's memory holds. -/
structure Write where
  n : Int
  src : Nat → Option UInt8

/-- The arguments of a `piperead`, with where the user's memory can be
    written. -/
structure Read where
  n : Int
  dst : Nat → Bool

inductive Call where
  | write (c : Write)
  | read (c : Read)
  | close (writable : Bool)

/-- Where a process is. In a `pipewrite` the flag says whether it has moved a
    byte since its last `wakeup(&pi->nread)`. -/
inductive Pc where
  | user
  | returned (r : Int)
  -- pipewrite
  | writeEnter (c : Write)
  | writeWhile (c : Write) (i : Nat) (moved : Bool)
  | writeKilled (c : Write) (i : Nat) (moved : Bool)
  | writeByte (c : Write) (i : Nat) (moved : Bool)
  | writeFull (c : Write) (i : Nat)
  | writeSleep (c : Write) (i : Nat)
  | writeDone (c : Write) (i : Nat)
  | writeRelease (c : Write) (i : Nat)
  | writeFail (c : Write)
  -- piperead
  | readEnter (c : Read)
  | readWhile (c : Read)
  | readKilled (c : Read)
  | readSleep (c : Read)
  | readCopy (c : Read) (i : Nat)
  | readDone (c : Read) (i : Nat)
  | readRelease (c : Read) (i : Nat)
  | readFail (c : Read)
  -- pipeclose
  | closeEnter (writable : Bool)
  | closeFlag (writable : Bool)
  | closeWake (writable : Bool)
  | closeRelease

/-- The pipe, and the processes that use it. -/
structure State (P : Type) where
  pipe : Pipe
  /-- the last close has called `kfree((char*)pi)` -/
  freed : Bool
  killed : P → Bool
  pc : P → Pc
  /-- the bytes stored so far, and by whom -/
  accepted : List (P × UInt8)
  /-- the bytes copied out so far, and to whom -/
  delivered : List (P × UInt8)
  /-- how many bytes had been stored when the process began its call -/
  since : P → Nat

variable {P : Type} [DecidableEq P]

/-- A pipe as given, and processes that have not called anything yet. -/
def State.start (pi : Pipe) : State P :=
  { pipe := pi, freed := false, killed := fun _ => false, pc := fun _ => .user,
    accepted := [], delivered := [], since := fun _ => 0 }

namespace State

@[simps -fullyApplied killed pipe accepted delivered since]
def goto (d : State P) (p : P) (l : Pc) : State P := { d with pc := update d.pc p l }

/-- A system call on the pipe begins. -/
def begin (d : State P) (p : P) (x : Call) : State P :=
  { d with since := update d.since p d.accepted.length }.goto p
    (match x with
    | .write c => .writeEnter c
    | .read c => .readEnter c
    | .close writable => .closeEnter writable)

/-- A byte goes into the pipe. -/
def store (d : State P) (p : P) (ch : UInt8) : State P :=
  { d with pipe := d.pipe.put ch, accepted := d.accepted ++ [(p, ch)] }

/-- A byte leaves the pipe, and reaches the reader if `copyout` succeeds. -/
def load (d : State P) (p : P) (ok : Bool) : State P :=
  { d with
    pipe := d.pipe.drop
    delivered := if ok then d.delivered ++ [(p, d.pipe.front)] else d.delivered }

/-- `pi->writeopen = 0` or `pi->readopen = 0` -/
def shut (d : State P) (writable : Bool) : State P :=
  { d with pipe :=
    if writable then { d.pipe with writeopen := false } else { d.pipe with readopen := false } }

end State

/-- The code of a process that has its `p->killed` and the pipe at hand. -/
def code (p : P) (x : Call) (d : State P) : Option (Action P Chan (State P)) :=
  match d.pc p with
  | .user | .returned _ => some (.go (d.begin p x))
  -- acquire(&pi->lock); a pipe that was freed has no lock
  | .writeEnter c => if d.freed then none else some (.acquire (d.goto p (.writeWhile c 0 false)))
  | .writeWhile c i moved =>
    some (.go (d.goto p
      (if (i : Int) < c.n then
        if d.pipe.readopen then .writeKilled c i moved else .writeFail c
      else .writeDone c i)))
  | .writeKilled c i moved =>
    some (.under p (d.goto p (if d.killed p then .writeFail c else .writeByte c i moved)))
  | .writeByte c i _ =>
    some (.go
      (if d.pipe.Full then d.goto p (.writeFull c i)
      else match c.src i with
        | none => d.goto p (.writeDone c i)
        | some ch => (d.store p ch).goto p (.writeWhile c (i + 1) true)))
  | .writeFull c i => some (.wakeup .nread (d.goto p (.writeSleep c i)))
  | .writeSleep c i => some (.sleep .nwrite (d.goto p (.writeWhile c i false)))
  | .writeDone c i => some (.wakeup .nread (d.goto p (.writeRelease c i)))
  | .writeRelease _ i => some (.release (d.goto p (.returned i)))
  | .writeFail _ => some (.release (d.goto p (.returned (-1))))
  | .readEnter c => if d.freed then none else some (.acquire (d.goto p (.readWhile c)))
  | .readWhile c =>
    some (.go (d.goto p
      (if d.pipe.Empty ∧ d.pipe.writeopen then .readKilled c else .readCopy c 0)))
  | .readKilled c => some (.under p (d.goto p (if d.killed p then .readFail c else .readSleep c)))
  | .readSleep c => some (.sleep .nread (d.goto p (.readWhile c)))
  | .readCopy c i =>
    some (.go
      (if (i : Int) < c.n ∧ ¬ d.pipe.Empty then
        (d.load p (c.dst i)).goto p (if c.dst i then .readCopy c (i + 1) else .readDone c i)
      else d.goto p (.readDone c i)))
  | .readDone c i => some (.wakeup .nwrite (d.goto p (.readRelease c i)))
  | .readRelease _ i => some (.release (d.goto p (.returned i)))
  | .readFail _ => some (.release (d.goto p (.returned (-1))))
  | .closeEnter writable =>
    if d.freed then none else some (.acquire (d.goto p (.closeFlag writable)))
  | .closeFlag writable => some (.go ((d.shut writable).goto p (.closeWake writable)))
  | .closeWake writable =>
    some (.wakeup (if writable then .nread else .nwrite) (d.goto p .closeRelease))
  | .closeRelease =>
    -- if(pi->readopen == 0 && pi->writeopen == 0), the pipe is freed after the release
    some (.release ({ d with freed := !d.pipe.readopen && !d.pipe.writeopen }.goto p (.returned 0)))

/-- The processes that use one pipe; `kill` sets `p->killed`. -/
def program (P : Type) [DecidableEq P] : Program P Chan (State P) Call :=
  { code := code, kill := fun q d => { d with killed := update d.killed q true } }

/-- The places between `acquire(&pi->lock)` and the release. -/
def Pc.inside : Pc → Bool
  | user | returned _ | writeEnter _ | readEnter _ | closeEnter _ => false
  | _ => true

/-- The process is between `acquire(&pi->lock)` and the release. -/
def Holds {P : Type} (p : P) (d : State P) : Prop := (d.pc p).inside = true

/-- Where a process is when `sleep` returns. -/
def Pc.afterSleep : Pc → Bool
  | writeWhile _ _ false | readWhile _ => true
  | _ => false

section

variable (d : State P) (p q : P) (l : Pc)

@[simp] theorem goto_pc : (d.goto p l).pc q = if q = p then l else d.pc q := by
  simp [State.goto, update_apply]

end

section

variable {P : Type} (d : State P) (p : P)

@[simp] theorem store_pc (ch : UInt8) : (d.store p ch).pc = d.pc := rfl
@[simp] theorem store_pipe (ch : UInt8) : (d.store p ch).pipe = d.pipe.put ch := rfl
@[simp] theorem load_pc (ok : Bool) : (d.load p ok).pc = d.pc := rfl
@[simp] theorem load_pipe (ok : Bool) : (d.load p ok).pipe = d.pipe.drop := rfl
@[simp] theorem shut_pc (w : Bool) : (d.shut w).pc = d.pc := rfl

end

theorem code_frame {p : P} {d : State P} {x : Call} {a : Action P Chan (State P)}
    (hc : code p x d = some a) (q : P) (hq : q ≠ p) : a.data.pc q = d.pc q := by
  unfold code at hc
  split at hc
  all_goals try split at hc
  all_goals cases hc
  all_goals simp only [Action.data]
  all_goals repeat' split
  all_goals simp [State.begin, hq]

/-- Whoever is inside the lock's sections and does not hold the lock is asleep
    there, at a place where it looks at the pipe again. -/
def Away {P : Type} (d : State P) (h : Option P) : Prop :=
  ∀ q, (d.pc q).inside = true → h ≠ some q → (d.pc q).afterSleep = true

/-- One process takes a step, and the lock stays with it or goes to it or from
    it. -/
theorem Away.step {P : Type} {d d' : State P} {p : P} {h h' : Option P} (ha : Away d h)
    (hothers : ∀ q, q ≠ p → d'.pc q = d.pc q)
    (hp : (d'.pc p).inside = true → h' ≠ some p → (d'.pc p).afterSleep = true)
    (hh : ∀ q, q ≠ p → h' ≠ some q → h ≠ some q) : Away d' h' := by
  intro q hq hne
  by_cases hqp : q = p
  · subst hqp
    exact hp hq hne
  · rw [hothers q hqp] at hq ⊢
    exact ha q hq (hh q hqp hne)

end Pipe

end Xv6
