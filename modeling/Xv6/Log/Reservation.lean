import Mathlib.Tactic.IntervalCases
import Xv6.Log.GroupCommit

/-!
# How much of the log an admitted operation may use

`begin_op` reserves `MAXOPBLOCKS` blocks for every operation it admits and stops
at `LOGSIZE`. `log_write` refuses at `log.size - 1`, because one block of the
log area is the header. With the superblock `mkfs` writes, `log.size` *is*
`LOGSIZE`, so the two limits differ by one, and `log_write` tests its limit
before it looks whether the block is already logged.

So the reservation is not enough, and this file says exactly when a `log_write`
panics, in terms of the schedule alone: `pending` is the set of blocks logged
since the last commit, read off the events, and the call panics when it already
has `nlog - 1` elements (`step_tooBig_iff`).
-/

namespace Xv6
namespace Log

open List

variable {P : Type} [DecidableEq P]

/-! ## What a schedule logs -/

/-- The blocks logged since the last commit, after one more event. -/
def pendingStep (bs : Finset Nat) : Event P → Finset Nat
  | .logWrite _ b => insert b bs
  | .commit _ => ∅
  | _ => bs

/-- The distinct blocks a schedule has logged since its last commit. -/
def pending (es : List (Event P)) : Finset Nat := es.foldl pendingStep ∅

/-- The blocks `p`'s operation has logged, after one more event. -/
def opBlocksStep (p : P) (bs : Finset Nat) : Event P → Finset Nat
  | .logWrite q b => if q = p then insert b bs else bs
  | .endOp q => if q = p then ∅ else bs
  | _ => bs

/-- The distinct blocks `p` has logged since its last `end_op`. -/
def opBlocks (p : P) (es : List (Event P)) : Finset Nat := es.foldl (opBlocksStep p) ∅

omit [DecidableEq P] in
@[simp] theorem pending_snoc (es : List (Event P)) (e : Event P) :
    pending (es ++ [e]) = pendingStep (pending es) e := by
  simp [pending, foldl_append]

/-- The callers keep to the rules: every `log_write` of the schedule is made by
    a process in an operation, and no operation logs more than `MAXOPBLOCKS`
    distinct blocks. -/
def Budgeted (logstart nlog : Nat) (es : List (Event P)) : Prop :=
  ∀ i, ∀ p b, es[i]? = some (.logWrite p b) →
    (∃ s, exec step (State.init logstart nlog) (es.take i) = .next s ∧ s.pc p = .inOp) ∧
    (opBlocks p (es.take (i + 1))).card ≤ MAXOPBLOCKS

/-- `Budgeted`, event by event, as a test. -/
def budgetedAt (logstart nlog : Nat) (es : List (Event P)) (i : Nat) : Bool :=
  match es[i]? with
  | some (.logWrite p _) =>
      (match exec step (State.init logstart nlog) (es.take i) with
        | .next s => decide (s.pc p = .inOp)
        | _ => false) && decide ((opBlocks p (es.take (i + 1))).card ≤ MAXOPBLOCKS)
  | _ => true

variable {es : List (Event P)}

theorem budgeted_of_test {logstart nlog : Nat}
    (h : (List.range es.length).all (budgetedAt logstart nlog es) = true) :
    Budgeted logstart nlog es := by
  intro i p b hi
  have hlt : i < es.length := (List.getElem?_eq_some_iff.mp hi).1
  have ht := all_eq_true.mp h i (mem_range.mpr hlt)
  simp only [budgetedAt, hi, Bool.and_eq_true, decide_eq_true_eq] at ht
  obtain ⟨hrun, hcard⟩ := ht
  refine ⟨?_, hcard⟩
  cases hx : exec step (State.init logstart nlog) (es.take i) with
  | next s => rw [hx] at hrun; exact ⟨s, rfl, of_decide_eq_true hrun⟩
  | panic m => rw [hx] at hrun; cases hrun
  | disabled => rw [hx] at hrun; cases hrun

/-! ## The log against the schedule -/

variable {s : State P}

/-- **The log header lists the pending blocks**, each once. -/
theorem block_eq_pending {logstart nlog : Nat}
    (h : exec step (State.init logstart nlog) es = .next s) :
    s.log.block.toFinset = pending es ∧ s.log.block.Nodup ∧ s.log.size = nlog := by
  refine exec_history (fun es s =>
    s.log.block.toFinset = pending es ∧ s.log.block.Nodup ∧ s.log.size = nlog)
    ⟨rfl, nodup_nil, rfl⟩ ?_ h
  rintro es s e s' ⟨hb, hd, hs⟩ hstep
  rw [pending_snoc]
  cases step_move hstep with
  | enter p _ _ _ => exact ⟨hb, hd, hs⟩
  | sleep p _ _ => exact ⟨hb, hd, hs⟩
  | kill p _ => exact ⟨hb, hd, hs⟩
  | write p b _ _ _ _ =>
    refine ⟨?_, absorb_nodup hd, hs⟩
    ext x
    simp only [State.setLog_log, mem_toFinset, mem_absorb, pendingStep, Finset.mem_insert,
      ← hb]
    tauto
  | endLast p _ _ _ => exact ⟨hb, hd, hs⟩
  | endOther p _ _ _ => exact ⟨hb, hd, hs⟩
  | commit p _ => exact ⟨rfl, nodup_nil, hs⟩
  | endCommit p _ => exact ⟨hb, hd, hs⟩

theorem n_eq_card_pending {logstart nlog : Nat}
    (h : exec step (State.init logstart nlog) es = .next s) : s.log.n = (pending es).card := by
  obtain ⟨hb, hd, _⟩ := block_eq_pending h
  rw [← hb, toFinset_card_of_nodup hd]
  rfl

/-- One call: with the superblock of `mkfs`, a `log_write` made in an operation
    panics exactly when `nlog - 1` blocks are already logged. -/
theorem step_tooBig_iff {logstart : Nat} {p : P} {b : Nat}
    (h : exec step (State.init logstart nlog) es = .next s) (hp : s.pc p = .inOp) :
    step s (.logWrite p b) = .panic "too big a transaction" ↔
      nlog - 1 ≤ (pending es).card := by
  rw [← n_eq_card_pending h]
  have hsize := (block_eq_pending h).2.2
  simp only [step, hp, or_true, if_true, logWrite]
  split
  · rename_i hbig
    refine ⟨fun _ => ?_, fun _ => rfl⟩
    rw [hsize] at hbig
    simp only [nlog, LOGSIZE, MAXOPBLOCKS] at hbig ⊢
    omega
  · rename_i hbig
    rw [hsize] at hbig
    refine ⟨fun hpan => ?_, fun hge => absurd ?_ hbig⟩
    · split at hpan <;> simp at hpan
    · simp only [nlog, LOGSIZE, MAXOPBLOCKS] at hge ⊢
      omega

theorem event_of_tooBig {e : Event P}
    (h : step s e = .panic "too big a transaction") : ∃ p b, e = .logWrite p b := by
  cases e with
  | logWrite p b => exact ⟨p, b, rfl⟩
  | beginOp p => simp only [step] at h; split at h <;> cases h
  | kill p => simp only [step] at h; split at h <;> cases h
  | endOp p =>
    simp only [step, endOp] at h
    split at h
    · split at h
      · simp at h
      · split at h <;> cases h
    · cases h
  | commit p => simp only [step] at h; split at h <;> cases h
  | endCommit p => simp only [step] at h; split at h <;> cases h

/-- **When the reservation is enough.** In a schedule whose callers keep to the
    rules, no `log_write` panics over the size of the transaction exactly when
    every `log_write` finds fewer than `nlog - 1` distinct blocks logged since
    the last commit. -/
theorem log_write_fits_iff {logstart : Nat} {es : List (Event P)}
    (hb : Budgeted logstart nlog es) :
    exec step (State.init logstart nlog) es ≠ .panic "too big a transaction" ↔
      ∀ i p b, es[i]? = some (.logWrite p b) → (pending (es.take i)).card < nlog - 1 := by
  constructor
  · intro hok i p b hi
    obtain ⟨⟨s, hs, hp⟩, _⟩ := hb i p b hi
    by_contra hge
    have hpan : step s (.logWrite p b) = .panic "too big a transaction" :=
      (step_tooBig_iff hs hp).mpr (by omega)
    apply hok
    -- the schedule runs up to event `i`, which panics
    obtain ⟨hlt, hget⟩ := List.getElem?_eq_some_iff.mp hi
    have hsplit : es = es.take i ++ .logWrite p b :: es.drop (i + 1) := by
      rw [← hget, cons_getElem_drop_succ, take_append_drop]
    rw [hsplit, exec_append, hs]
    simp [hpan]
  · intro hall hpan
    obtain ⟨pre, e, post, s, rfl, hpre, he⟩ := exec_eq_panic hpan
    obtain ⟨p, b, rfl⟩ := event_of_tooBig he
    have hi : (pre ++ Event.logWrite p b :: post)[pre.length]? = some (.logWrite p b) := by simp
    have htake : (pre ++ Event.logWrite p b :: post).take pre.length = pre := by simp
    obtain ⟨⟨s', hs', hp⟩, _⟩ := hb _ p b hi
    have hlt := hall _ p b hi
    rw [htake] at hs' hlt
    rw [hpre] at hs'
    injection hs' with hs'
    subst hs'
    have := (step_tooBig_iff hpre hp).mp he
    omega

/-- One operation that logs one block twice: the second call is absorbed. -/
theorem log_write_fits_iff_one :
    exec step (State.init 2 nlog : State (Fin 1))
      [.beginOp 0, .logWrite 0 50, .logWrite 0 50, .endOp 0] ≠ .panic "too big a transaction" := by
  refine (log_write_fits_iff (budgeted_of_test (by decide +kernel))).mpr fun i p b hi => ?_
  have hlt : i < 4 := (List.getElem?_eq_some_iff.mp hi).1
  interval_cases i
  · cases hi
  · decide
  · decide
  · cases hi

/-- Three processes are admitted to an empty log and log ten different blocks
    each. -/
def threeFullOps : List (Event (Fin 3)) :=
  [.beginOp 0, .beginOp 1, .beginOp 2] ++
    (List.range 10).map (fun b => .logWrite 0 (100 + b)) ++
    (List.range 10).map (fun b => .logWrite 1 (200 + b)) ++
    (List.range 10).map (fun b => .logWrite 2 (300 + b))

/-- **The reservation is one block short.** Every operation keeps to
    `MAXOPBLOCKS`, every one was admitted by `begin_op`, and the thirtieth
    `log_write` panics. -/
theorem threeFullOps_too_big : Budgeted 2 nlog threeFullOps ∧
    exec step (State.init 2 nlog) threeFullOps = .panic "too big a transaction" :=
  ⟨budgeted_of_test (by decide +kernel), Outcome.eq_panic_of_panicsWith (by decide +kernel)⟩

end Log
end Xv6
