import Xv6.Bio.Refcnt
import Xv6.Log.Commit
import Xv6.Log.GroupCommit

/-!
# Processes, the log and the buffer cache

Any number of processes call `bread`, store into what they got, `log_write` and
`brelse` it, between `begin_op` and `end_op` or outside of them; whoever ends
the last operation commits. The program of `commit()` (`Xv6.Log.Commit`) is run
one step at a time against the same cache, so every process can run between any
two of its steps. `bwrite`, `bpin` and `bunpin` happen only where the log calls
them.

What the callers promise is in the guards: they store only into buffers they
hold, inside an operation, outside the log area, and do not let go of a buffer
they modified before they passed it to `log_write`. A process that asks again
for a block it already has a pointer to would wait for itself: it takes no
further step. All blocks are on `ROOTDEV`, the device of the log.
-/

namespace Xv6
namespace Bio

open Log (Instr InLog)

/-- `todo` is what the process that commits has left to do in `commit()`. -/
structure State (P : Type) where
  cache : Cache P
  sys : Log.State P
  todo : List Instr

inductive Event (P : Type) where
  /-- the locked section of the `bget` in `bread(ROOTDEV, b)` -/
  | bget (p : P) (b : Nat)
  /-- … and its return -/
  | lock (p : P) (b : Nat)
  /-- the holder stores into the buffer of block `b`, which then contains `d` -/
  | modify (p : P) (b : Nat) (d : Bytes)
  | logWrite (p : P) (b : Nat)
  /-- `brelse`: `releasesleep` -/
  | unlock (p : P) (b : Nat)
  /-- … and its locked section -/
  | put (p : P) (b : Nat)
  | beginOp (p : P)
  | kill (p : P)
  | endOp (p : P)
  /-- the next step of `commit()` -/
  | commit (p : P)
  | endCommit (p : P)

variable {P : Type}

namespace State

/-- The block is outside the log area. -/
def Home (s : State P) (b : Nat) : Prop := ¬ InLog s.sys.log.start s.sys.log.size b

instance (s : State P) (b : Nat) : Decidable (s.Home b) := inferInstanceAs (Decidable (¬ _))

/-- Not inside `begin_op`, nor in the commit part of `end_op`. -/
def Client (s : State P) (p : P) : Prop := s.sys.pc p = .out ∨ s.sys.pc p = .inOp

instance (s : State P) (p : P) : Decidable (s.Client p) := inferInstanceAs (Decidable (_ ∨ _))

@[simps -fullyApplied] def setCache (s : State P) (c : Cache P) : State P := { s with cache := c }
@[simps -fullyApplied] def setSys (s : State P) (l : Log.State P) : State P := { s with sys := l }
@[simps -fullyApplied] def setTodo (s : State P) (is : List Instr) : State P :=
  { s with todo := is }

/-! ## The operations, on the buffer a process got for a block -/

/-- Go on with the buffer of block `b` that `p` has a pointer to. -/
def withBuf (s : State P) (p : P) (b : Nat) (k : Fin NBUF → Outcome (State P)) :
    Outcome (State P) :=
  match s.cache.mine p b with
  | some i => k i
  | none => .disabled

theorem withBuf_eq_next {s s' : State P} {p : P} {b : Nat} {k : Fin NBUF → Outcome (State P)}
    (h : s.withBuf p b k = .next s') : ∃ i, s.cache.mine p b = some i ∧ k i = .next s' := by
  unfold withBuf at h
  split at h
  · rename_i i hi; exact ⟨i, hi, h⟩
  · cases h

/-- The same, for a buffer the log's code has from a `bread` of its own and
    holds. -/
def withHeld (s : State P) (p : P) (b : Nat) (k : Fin NBUF → Outcome (State P)) :
    Outcome (State P) :=
  s.withBuf p b fun i => if s.cache.ref p i = .holding false false then k i else .disabled

theorem withHeld_eq_next {s s' : State P} {p : P} {b : Nat} {k : Fin NBUF → Outcome (State P)}
    (h : s.withHeld p b k = .next s') :
    ∃ i, s.cache.mine p b = some i ∧ s.cache.ref p i = .holding false false ∧
      k i = .next s' := by
  obtain ⟨i, hi, hk⟩ := withBuf_eq_next h
  split at hk
  · rename_i hh; exact ⟨i, hi, hh, hk⟩
  · cases hk

variable [DecidableEq P]

def bget (s : State P) (p : P) (b : Nat) : Outcome (State P) :=
  if s.cache.mine p b = none then
    (s.cache.bget p ROOTDEV b).bind fun c => .next (s.setCache c)
  else .disabled

def lock (s : State P) (p : P) (b : Nat) : Outcome (State P) :=
  s.withBuf p b fun i => (s.cache.lock p i).bind fun c => .next (s.setCache c)

def unlock (s : State P) (p : P) (b : Nat) : Outcome (State P) :=
  s.withBuf p b fun i => (s.cache.unlock p i).bind fun c => .next (s.setCache c)

def put (s : State P) (p : P) (b : Nat) : Outcome (State P) :=
  s.withBuf p b fun i => (s.cache.put p i).bind fun c => .next (s.setCache c)

def modify (s : State P) (p : P) (b : Nat) (d : Bytes) : Outcome (State P) :=
  s.withBuf p b fun i =>
    match s.cache.ref p i with
    | .holding _ l => .next (s.setCache ((s.cache.store i d).setRef p i (.holding true l)))
    | _ => .disabled

/-- `log_write`: the log's section, and `bpin` if the block was not logged
    yet. -/
def logWrite (s : State P) (p : P) (b : Nat) : Outcome (State P) :=
  s.withBuf p b fun i =>
    match s.cache.ref p i with
    | .holding m _ => (Log.step s.sys (.logWrite p b)).bind fun l =>
        let c := s.cache.setRef p i (.holding m true)
        .next ((s.setSys l).setCache (if b ∈ s.sys.log.block then c else c.bpin i))
    | _ => .disabled

/-- One step of the log's code, by the process that runs it. -/
def instr (s : State P) (p : P) : Instr → Outcome (State P)
  | .bget b => s.bget p b
  | .lock b => s.lock p b
  | .copyWrite src dst => s.withHeld p src fun i => s.withHeld p dst fun j =>
      .next (s.setCache ((s.cache.store j (s.cache.buf i).data).bwrite j))
  | .headWrite b => s.withHeld p b fun i =>
      .next (s.setCache ((s.cache.store i
        (Log.putHead (s.cache.buf i).data s.sys.log.block)).bwrite i))
  | .bunpin b => s.withHeld p b fun i => .next (s.setCache (s.cache.bunpin i))
  | .unlock b => s.unlock p b
  | .put b => s.put p b
  | .clear => (Log.step s.sys (.commit p)).bind fun l => .next (s.setSys l)

/-- The next step of `commit()`. With nothing to do and the header not yet
    cleared, `lh.n` was zero and `commit()` returns at once. -/
def commit (s : State P) (p : P) : Outcome (State P) :=
  match s.todo with
  | [] => (Log.step s.sys (.commit p)).bind fun l => .next (s.setSys l)
  | i :: rest =>
      if (s.sys.pc p).InCommit then (s.instr p i).bind fun s' => .next (s'.setTodo rest)
      else .disabled

/-- The first section of `end_op`; the process that is to commit enters
    `commit()`. -/
def endOp (s : State P) (p : P) : Outcome (State P) :=
  (Log.step s.sys (.endOp p)).bind fun l =>
    .next ((s.setSys l).setTodo
      (if l.pc p = .committing then Log.commitProg l.log.start l.log.block else s.todo))

end State

variable [DecidableEq P]

def step (s : State P) : Event P → Outcome (State P)
  | .bget p b => if s.Client p then s.bget p b else .disabled
  | .lock p b => if s.Client p then s.lock p b else .disabled
  | .modify p b d => if s.sys.pc p = .inOp ∧ s.Home b then s.modify p b d else .disabled
  | .logWrite p b => if s.Home b then s.logWrite p b else .disabled
  | .unlock p b => if s.Client p then s.unlock p b else .disabled
  | .put p b => if s.Client p then s.put p b else .disabled
  | .beginOp p => (Log.step s.sys (.beginOp p)).bind fun l => .next (s.setSys l)
  | .kill p => (Log.step s.sys (.kill p)).bind fun l => .next (s.setSys l)
  | .endOp p => s.endOp p
  | .commit p => s.commit p
  | .endCommit p =>
      if s.todo = [] then (Log.step s.sys (.endCommit p)).bind fun l => .next (s.setSys l)
      else .disabled

/-! ## What the blocks should contain -/

/-- What an event does to the plain array of blocks: a modification takes effect
    at once. -/
def specStep (spec : Nat → Bytes) : Event P → Nat → Bytes
  | .modify _ b d => Function.update spec b d
  | _ => spec

/-- The plain array after a schedule: each block as its last modification left
    it, or as the disk had it at boot. -/
def contents (disk : Nat → Bytes) (es : List (Event P)) : Nat → Bytes := es.foldl specStep disk

/-- The state after boot: an empty log, no process anywhere, and buffers that
    nobody has a pointer to and that agree with the disk where they hold a
    block. -/
structure Boot [Fintype P] (s : State P) : Prop where
  log : s.sys = Log.State.init s.sys.log.start s.sys.log.size
  todo : s.todo = []
  cache : CacheInv (fun _ => false) s.cache
  away : ∀ p i, s.cache.ref p i = .away
  fresh : ∀ i, (s.cache.buf i).dev = ROOTDEV → (s.cache.buf i).valid = true →
    (s.cache.buf i).data = s.cache.disk (s.cache.buf i).blockno

end Bio
end Xv6
