import Mathlib.Data.Fintype.Card
import Xv6.Lib.Run
import Xv6.Param

/-!
# The log's critical sections: `begin_op`, `log_write`, `end_op`

`kernel/log.c`, at the granularity of `log.lock`. Everything `begin_op` does
between acquiring the lock and either releasing it or sleeping is one event; so
are a `log_write`, the locked part of `end_op`, and the last section of an
`end_op` that committed. `commit()` itself runs without the lock and is its own
event: what it does to `struct log` is `lh.n = 0`, and what it does to the disk
is `Xv6.Log.Commit`'s subject.

`sleep(&log, &log.lock)` gives up the lock and goes to sleep in one step, so a
process is `asleep` or it is not; `wakeup(&log)` makes every sleeper `woken`,
and a woken process finds the lock again through another `beginOp` event — the
loop of `begin_op` starts over. `kill` may make a sleeper runnable too, at any
time.

The number of processes is whatever the finite type `P` says.
-/

namespace Xv6

/-! ## The log -/

/-- `struct log` without its lock: `block` is `lh.block[0..lh.n)`, so that
    `lh.n` is its length; entries at or beyond `lh.n` are never read. -/
structure Log where
  start : Nat
  size : Nat
  /-- how many FS sys calls are executing -/
  outstanding : Int
  /-- in commit(), please wait -/
  committing : Bool
  block : List Nat
  deriving DecidableEq

namespace Log

/-- `log.lh.n` -/
def n (l : Log) : Nat := l.block.length

/-- What `initlog` leaves after recovery, at the superblock's `logstart` and
    `nlog`. -/
def initlog (logstart nlog : Nat) : Log :=
  { start := logstart, size := nlog, outstanding := 0, committing := false, block := [] }

/-- The second test of `begin_op`: this op might exhaust log space. -/
def mightExhaust (l : Log) : Bool :=
  decide ((l.n : Int) + (l.outstanding + 1) * MAXOPBLOCKS > LOGSIZE)

/-- The search loop of `log_write` and the store after it: `i` stops at the
    first entry equal to `b` (log absorption) or at `lh.n`, and
    `lh.block[i] = b` either rewrites that entry or is a new one. -/
def absorb (block : List Nat) (b : Nat) : List Nat :=
  let i := block.findIdx (· == b)
  if i = block.length then block ++ [b] else block.set i b

/-- `log_write`'s section, on the log alone. -/
def logWrite (l : Log) (b : Nat) : Outcome Log :=
  if l.n ≥ LOGSIZE ∨ (l.n : Int) ≥ (l.size : Int) - 1 then .panic "too big a transaction"
  else if l.outstanding < 1 then .panic "log_write outside of trans"
  else .next { l with block := absorb l.block b }

variable {b : Nat} {block : List Nat}

theorem absorb_of_mem (h : b ∈ block) : absorb block b = block := by
  have hlt : block.findIdx (· == b) < block.length := List.findIdx_lt_length_of_exists
    ⟨b, h, by simp⟩
  have hget : block[block.findIdx (· == b)] = b := by
    have := List.findIdx_getElem (p := (· == b)) (w := hlt)
    simpa using this
  unfold absorb
  simp only [Nat.ne_of_lt hlt, if_false]
  calc block.set (block.findIdx (· == b)) b
      = block.set (block.findIdx (· == b)) block[block.findIdx (· == b)] := by rw [hget]
    _ = block := List.set_getElem_self hlt

theorem absorb_of_not_mem (h : b ∉ block) : absorb block b = block ++ [b] := by
  have hlen : block.findIdx (· == b) = block.length := by
    refine List.findIdx_eq_length.mpr fun x hx => ?_
    simp only [beq_eq_false_iff_ne]
    rintro rfl
    exact h hx
  simp [absorb, hlen]

theorem mem_absorb {x : Nat} : x ∈ absorb block b ↔ x ∈ block ∨ x = b := by
  by_cases h : b ∈ block
  · rw [absorb_of_mem h]
    exact ⟨.inl, fun hx => hx.elim id (fun e => e ▸ h)⟩
  · rw [absorb_of_not_mem h]
    simp

theorem absorb_nodup (h : block.Nodup) : (absorb block b).Nodup := by
  by_cases hb : b ∈ block
  · rwa [absorb_of_mem hb]
  · rw [absorb_of_not_mem hb]
    simpa using h.concat hb

theorem length_le_absorb : block.length ≤ (absorb block b).length := by
  by_cases hb : b ∈ block
  · rw [absorb_of_mem hb]
  · simp [absorb_of_not_mem hb]

theorem absorb_length_le : (absorb block b).length ≤ block.length + 1 := by
  by_cases hb : b ∈ block
  · rw [absorb_of_mem hb]
    omega
  · simp [absorb_of_not_mem hb]

theorem logWrite_eq_next {l l' : Log} (h : logWrite l b = .next l') :
    l.n < LOGSIZE ∧ (l.n : Int) < (l.size : Int) - 1 ∧ 1 ≤ l.outstanding ∧
      l' = { l with block := absorb l.block b } := by
  unfold logWrite at h
  split at h
  · cases h
  · rename_i hbig
    split at h
    · cases h
    · rename_i hout
      injection h with h
      push Not at hbig
      exact ⟨hbig.1, hbig.2, by omega, h.symm⟩

/-! ## The processes -/

/-- Where a process stands between `begin_op` and the end of `end_op`. -/
inductive Pc where
  /-- in no file-system operation -/
  | out
  /-- SLEEPING on `&log` inside `begin_op` -/
  | asleep
  /-- RUNNABLE inside `begin_op`, about to reacquire `log.lock` -/
  | woken
  /-- between the return of `begin_op` and the call of `end_op` -/
  | inOp
  /-- in `end_op` with `do_commit` set, inside `commit()` -/
  | committing
  /-- in `end_op` with `do_commit` set, `commit()` having returned -/
  | committed
  deriving DecidableEq

/-- Between setting `log.committing` and clearing it. -/
def Pc.InCommit (c : Pc) : Prop := c = .committing ∨ c = .committed

instance (c : Pc) : Decidable c.InCommit := inferInstanceAs (Decidable (_ ∨ _))

/-- The log and where every process is. -/
structure State (P : Type) where
  log : Log
  pc : P → Pc

variable {P : Type}

/-- `wakeup(&log)`: every sleeper becomes runnable. -/
def State.wakeup (s : State P) : State P :=
  { s with pc := fun p => if s.pc p = .asleep then .woken else s.pc p }

/-- Replace the log. -/
@[simps -fullyApplied]
def State.setLog (s : State P) (l : Log) : State P := { s with log := l }

@[simp] theorem State.wakeup_log (s : State P) : s.wakeup.log = s.log := rfl
@[simp] theorem State.wakeup_pc (s : State P) (p : P) :
    s.wakeup.pc p = if s.pc p = .asleep then .woken else s.pc p := rfl

variable [DecidableEq P]

/-- Move one process. -/
@[simps -fullyApplied log]
def State.goto (s : State P) (p : P) (c : Pc) : State P :=
  { s with pc := Function.update s.pc p c }

@[simp] theorem State.goto_pc (s : State P) (p q : P) (c : Pc) :
    (s.goto p c).pc q = if q = p then c else s.pc q := by
  simp [State.goto, Function.update_apply]

/-- Who does what next. -/
inductive Event (P : Type) where
  /-- `p` calls `begin_op`, or goes round its loop again after `sleep`
      returned -/
  | beginOp (p : P)
  /-- `kill` makes `p` runnable while it sleeps in `begin_op` -/
  | kill (p : P)
  /-- `p` calls `log_write` on a buffer of block `b` -/
  | logWrite (p : P) (b : Nat)
  /-- the first locked section of `p`'s `end_op` -/
  | endOp (p : P)
  /-- `commit()`, without the lock -/
  | commit (p : P)
  /-- the second locked section of an `end_op` that committed -/
  | endCommit (p : P)
  deriving DecidableEq

/-- The loop body of `begin_op`, with the lock held. -/
def beginOp (s : State P) (p : P) : State P :=
  if s.log.committing then s.goto p .asleep
  else if s.log.mightExhaust then s.goto p .asleep
  else (s.setLog { s.log with outstanding := s.log.outstanding + 1 }).goto p .inOp

/-- The first locked section of `end_op`. -/
def endOp (s : State P) (p : P) : Outcome (State P) :=
  let l := { s.log with outstanding := s.log.outstanding - 1 }
  if l.committing then .panic "log.committing"
  else if l.outstanding = 0 then .next ((s.setLog { l with committing := true }).goto p .committing)
  else .next ((s.setLog l).wakeup.goto p .out)

/-- One event. A process that is not where the event happens cannot take it.
    `log_write` is open to processes outside an operation as well: what stops
    them is the code's own check. -/
def step (s : State P) : Event P → Outcome (State P)
  | .beginOp p => if s.pc p = .out ∨ s.pc p = .woken then .next (beginOp s p) else .disabled
  | .kill p => if s.pc p = .asleep then .next (s.goto p .woken) else .disabled
  | .logWrite p b =>
      if s.pc p = .out ∨ s.pc p = .inOp then (logWrite s.log b).bind fun l => .next (s.setLog l)
      else .disabled
  | .endOp p => if s.pc p = .inOp then endOp s p else .disabled
  | .commit p =>
      if s.pc p = .committing then .next ((s.setLog { s.log with block := [] }).goto p .committed)
      else .disabled
  | .endCommit p =>
      if s.pc p = .committed then
        .next ((s.setLog { s.log with committing := false }).wakeup.goto p .out)
      else .disabled

/-- Nobody in an operation, an empty log. -/
def State.init (logstart nlog : Nat) : State P :=
  { log := initlog logstart nlog, pc := fun _ => .out }

/-- The states any schedule can lead to. -/
def Reach (logstart nlog : Nat) : State P → Prop :=
  Reachable step (fun s => s = State.init logstart nlog)

end Log
end Xv6
