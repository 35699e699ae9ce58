import Xv6.Lib.Count
import Xv6.Log.Lock

/-!
# Group commit: what holds between the log's critical sections

A commit contains only whole operations because of three facts about `struct
log`, none of which any single function establishes: `outstanding` counts the
processes inside an operation, `committing` is set exactly while one process is
between the two locked sections of its `end_op`, and the log is empty whenever
both are zero. `Inv` states them together with the reason nobody sleeps forever;
`inv_step` shows every event keeps them.

`step` is taken apart once, in `step_move`: `Move` lists what an event can do
with everything it has checked, and no proof below unfolds the step function
again.
-/

namespace Xv6
namespace Log

open State

variable {P : Type} {c : Pc} {p q : P} {s s' : State P}

@[simp] theorem not_inCommit_out : ¬ Pc.InCommit .out := by decide
@[simp] theorem not_inCommit_inOp : ¬ Pc.InCommit .inOp := by decide
@[simp] theorem inCommit_committing : Pc.InCommit .committing := by decide

theorem wakeup_pc_eq (h1 : c ≠ .asleep) (h2 : c ≠ .woken) : s.wakeup.pc p = c ↔ s.pc p = c := by
  rw [wakeup_pc]
  split
  · rename_i h
    rw [h]
    exact ⟨fun e => absurd e.symm h2, fun e => absurd e.symm h1⟩
  · rfl

theorem wakeup_not_asleep : s.wakeup.pc p ≠ .asleep := by
  rw [wakeup_pc]
  split
  · decide
  · assumption

@[simp] theorem inCommit_wakeup : (s.wakeup.pc p).InCommit ↔ (s.pc p).InCommit := by
  simp only [Pc.InCommit, wakeup_pc_eq (c := .committing) (by decide) (by decide),
    wakeup_pc_eq (c := .committed) (by decide) (by decide)]

/-! ## The invariant -/

section Inv

variable [Fintype P]

/-- The number of processes between `begin_op` and `end_op`. -/
def State.inOps (s : State P) : Int := count fun p => s.pc p = .inOp

theorem inOps_setLog (s : State P) (l : Log) : (s.setLog l).inOps = s.inOps := rfl

theorem inOps_wakeup (s : State P) : s.wakeup.inOps = s.inOps :=
  count_congr fun _ => wakeup_pc_eq (by decide) (by decide)

/-- The facts that hold whenever `log.lock` is free. -/
structure Inv (s : State P) : Prop where
  /-- `outstanding` counts the processes in an operation -/
  outstanding : s.log.outstanding = s.inOps
  /-- `committing` is set exactly while some process is in the commit part of
      `end_op` -/
  committing : s.log.committing = true ↔ ∃ p, (s.pc p).InCommit
  alone : ∀ p q, (s.pc p).InCommit → (s.pc q).InCommit → p = q
  /-- a commit starts when the last operation ends, and nobody is admitted until
      it is over -/
  quiet : s.log.committing = true → s.log.outstanding = 0
  empty : s.log.outstanding = 0 → s.log.committing = false → s.log.block = []
  emptied : ∀ p, s.pc p = .committed → s.log.block = []
  /-- whoever sleeps sleeps for a reason that somebody will take away -/
  asleep : ∀ p, s.pc p = .asleep →
    s.log.committing = true ∨ s.log.mightExhaust = true ∧ 1 ≤ s.log.outstanding
  nodup : s.log.block.Nodup

theorem inv_init (logstart nlog : Nat) : Inv (State.init logstart nlog : State P) where
  outstanding := (count_eq_zero_iff.mpr fun _ h => (nomatch h)).symm
  committing := ⟨fun h => (nomatch h), fun ⟨_, h⟩ => absurd h not_inCommit_out⟩
  alone := fun _ _ h => absurd h not_inCommit_out
  quiet := fun h => (nomatch h)
  empty := fun _ _ => rfl
  emptied := fun _ _ => rfl
  asleep := fun _ h => (nomatch h)
  nodup := List.nodup_nil

theorem Inv.outstanding_nonneg (hi : Inv s) : 0 ≤ s.log.outstanding :=
  hi.outstanding ▸ count_nonneg _

/-- With `committing` clear nobody is in the commit part of `end_op`. -/
theorem Inv.none_inCommit (hi : Inv s) (hc : s.log.committing = false) (p : P) :
    ¬ (s.pc p).InCommit := fun hp => by
  have := hi.committing.mpr ⟨p, hp⟩
  rw [hc] at this
  cases this

end Inv

/-! ## What one event can do -/

variable [DecidableEq P] {e : Event P}

/-- The ways an event leads to another state, each with the tests the code made
    on the way. -/
inductive Move (s : State P) : Event P → State P → Prop
  | enter (p : P) (hpc : s.pc p = .out ∨ s.pc p = .woken) (hc : s.log.committing = false)
      (hroom : s.log.mightExhaust = false) :
      Move s (.beginOp p)
        ((s.setLog { s.log with outstanding := s.log.outstanding + 1 }).goto p .inOp)
  | sleep (p : P) (hpc : s.pc p = .out ∨ s.pc p = .woken)
      (hwhy : s.log.committing = true ∨ s.log.committing = false ∧ s.log.mightExhaust = true) :
      Move s (.beginOp p) (s.goto p .asleep)
  | kill (p : P) (hpc : s.pc p = .asleep) : Move s (.kill p) (s.goto p .woken)
  | write (p : P) (b : Nat) (hpc : s.pc p = .out ∨ s.pc p = .inOp) (hn : s.log.n < LOGSIZE)
      (hsize : (s.log.n : Int) < (s.log.size : Int) - 1) (hout : 1 ≤ s.log.outstanding) :
      Move s (.logWrite p b) (s.setLog { s.log with block := absorb s.log.block b })
  | endLast (p : P) (hpc : s.pc p = .inOp) (hc : s.log.committing = false)
      (hlast : s.log.outstanding - 1 = 0) :
      Move s (.endOp p)
        ((s.setLog { s.log with outstanding := s.log.outstanding - 1, committing := true }).goto p
          .committing)
  | endOther (p : P) (hpc : s.pc p = .inOp) (hc : s.log.committing = false)
      (hmore : s.log.outstanding - 1 ≠ 0) :
      Move s (.endOp p)
        ((s.setLog { s.log with outstanding := s.log.outstanding - 1 }).wakeup.goto p .out)
  | commit (p : P) (hpc : s.pc p = .committing) :
      Move s (.commit p) ((s.setLog { s.log with block := [] }).goto p .committed)
  | endCommit (p : P) (hpc : s.pc p = .committed) :
      Move s (.endCommit p) ((s.setLog { s.log with committing := false }).wakeup.goto p .out)

theorem step_move (h : step s e = .next s') : Move s e s' := by
  cases e with
  | beginOp p =>
    simp only [step] at h
    split at h
    · rename_i hpc
      injection h with h
      subst h
      unfold beginOp
      cases hc : s.log.committing with
      | true => simpa [hc] using Move.sleep p hpc (.inl hc)
      | false =>
        cases hm : s.log.mightExhaust with
        | true => simpa [hm] using Move.sleep p hpc (.inr ⟨hc, hm⟩)
        | false => simpa [hc, hm] using Move.enter p hpc hc hm
    · cases h
  | kill p =>
    simp only [step] at h
    split at h
    · rename_i hpc; injection h with h; exact h ▸ .kill p hpc
    · cases h
  | logWrite p b =>
    simp only [step] at h
    split at h
    · rename_i hpc
      obtain ⟨l, hl, h⟩ := Outcome.bind_eq_next h
      obtain ⟨hn, hsize, hout, rfl⟩ := logWrite_eq_next hl
      injection h with h
      exact h ▸ .write p b hpc hn hsize hout
    · cases h
  | endOp p =>
    simp only [step] at h
    split at h
    · rename_i hpc
      simp only [endOp] at h
      split at h
      · cases h
      · rename_i hc
        rw [Bool.not_eq_true] at hc
        split at h
        · rename_i hlast; injection h with h; exact h ▸ .endLast p hpc hc hlast
        · rename_i hmore; injection h with h; exact h ▸ .endOther p hpc hc hmore
    · cases h
  | commit p =>
    simp only [step] at h
    split at h
    · rename_i hpc; injection h with h; exact h ▸ .commit p hpc
    · cases h
  | endCommit p =>
    simp only [step] at h
    split at h
    · rename_i hpc; injection h with h; exact h ▸ .endCommit p hpc
    · cases h

/-! ## Who is where, after a move -/

/-- Where a process goes and where it came from decide whether a move is about
    the commit. -/
theorem inCommit_goto (h : c.InCommit ↔ (s.pc p).InCommit) :
    ((s.goto p c).pc q).InCommit ↔ (s.pc q).InCommit := by
  rw [goto_pc]
  split
  · rename_i hq; rw [hq]; exact h
  · rfl

theorem not_inCommit_goto (hc : ¬ c.InCommit)
    (h : ∀ r, r ≠ p → ¬ (s.pc r).InCommit) : ¬ ((s.goto p c).pc q).InCommit := by
  rw [goto_pc]
  split
  · exact hc
  · rename_i hq; exact h q hq

theorem pc_of_goto {d : Pc} (h : (s.goto p c).pc q = d) (hd : c ≠ d) : s.pc q = d := by
  rw [goto_pc] at h
  split at h
  · exact absurd h hd
  · exact h

variable [Fintype P]

theorem inOps_goto (s : State P) (p : P) (c : Pc) : (s.goto p c).inOps
      = s.inOps - (if s.pc p = .inOp then 1 else 0) + (if c = .inOp then 1 else 0) :=
  count_update s.pc (· = .inOp) p c

/-- An empty log without outstanding operations always has room: nobody goes to
    sleep there. -/
theorem not_mightExhaust_of_empty {l : Log} (hb : l.block = []) (ho : l.outstanding = 0) :
    l.mightExhaust = false := by
  simp [mightExhaust, n, hb, ho]

/-- Reserving more or logging more never makes room. -/
theorem mightExhaust_mono {l l' : Log} (hn : l.n ≤ l'.n) (ho : l.outstanding ≤ l'.outstanding)
    (h : l.mightExhaust = true) : l'.mightExhaust = true := by
  simp only [mightExhaust, MAXOPBLOCKS, LOGSIZE, decide_eq_true_eq] at h ⊢
  omega

/-! One lemma for each thing an event can do. -/

theorem inv_enter (hi : Inv s) (hpc : s.pc p = .out ∨ s.pc p = .woken)
    (hc : s.log.committing = false) :
    Inv ((s.setLog { s.log with outstanding := s.log.outstanding + 1 }).goto p .inOp) := by
  have hp : s.pc p ≠ .inOp := by rcases hpc with h | h <;> rw [h] <;> decide
  have hnone := hi.none_inCommit hc
  have hnone' : ∀ q, ¬ (((s.setLog { s.log with outstanding := s.log.outstanding + 1 }).goto p
      .inOp).pc q).InCommit := fun q => not_inCommit_goto not_inCommit_inOp fun r _ => hnone r
  have hpos := hi.outstanding_nonneg
  refine ⟨?_, ⟨fun h => ?_, fun ⟨q, hq⟩ => absurd hq (hnone' q)⟩, fun q _ hq =>
    absurd hq (hnone' q),
    fun h => ?_, fun h => ?_, fun q hq => ?_, fun q hq => ?_, hi.nodup⟩
  · rw [inOps_goto, inOps_setLog, setLog_pc, if_neg hp, if_pos rfl, ← hi.outstanding]
    simp
  · exact absurd (hc.symm.trans h) (by decide)
  · exact absurd (hc.symm.trans h) (by decide)
  · simp only [goto_log, setLog_log] at h
    omega
  · exact absurd (.inr hq) (hnone' q)
  · rcases hi.asleep q (pc_of_goto hq (by decide)) with h | ⟨h, _⟩
    · exact absurd (hc.symm.trans h) (by decide)
    · refine .inr ⟨mightExhaust_mono (l := s.log) le_rfl ?_ h, ?_⟩
      · simp
      · simp only [goto_log, setLog_log]
        omega

theorem inv_sleep (hi : Inv s) (hpc : s.pc p = .out ∨ s.pc p = .woken)
    (hwhy : s.log.committing = true ∨ s.log.committing = false ∧ s.log.mightExhaust = true) :
    Inv (s.goto p .asleep) := by
  have hp : s.pc p ≠ .inOp := by rcases hpc with h | h <;> rw [h] <;> decide
  have hin : ∀ q, ((s.goto p .asleep).pc q).InCommit ↔ (s.pc q).InCommit := fun q =>
    inCommit_goto (by rcases hpc with h | h <;> rw [h] <;> decide)
  refine ⟨?_, ?_, fun q r hq hr => hi.alone q r ((hin q).mp hq) ((hin r).mp hr), hi.quiet, hi.empty,
    fun q hq => hi.emptied q (pc_of_goto hq (by decide)), fun q hq => ?_, hi.nodup⟩
  · rw [inOps_goto, if_neg hp, if_neg (by decide), goto_log, hi.outstanding]
    simp
  · simp only [goto_log, hin]
    exact hi.committing
  · rw [goto_pc] at hq
    split at hq
    · -- `p` itself: it slept for room, and a log that has none is in use
      rcases hwhy with h | ⟨hc, hfull⟩
      · exact .inl h
      · refine .inr ⟨hfull, ?_⟩
        have hpos := hi.outstanding_nonneg
        by_contra hlt
        have ho : s.log.outstanding = 0 := by simp only [goto_log] at hlt; omega
        rw [not_mightExhaust_of_empty (hi.empty ho hc) ho] at hfull
        cases hfull
    · exact hi.asleep q hq

theorem inv_kill (hi : Inv s) (hpc : s.pc p = .asleep) : Inv (s.goto p .woken) := by
  have hin : ∀ q, ((s.goto p .woken).pc q).InCommit ↔ (s.pc q).InCommit := fun q =>
    inCommit_goto (by rw [hpc]; decide)
  refine ⟨?_, ?_, fun q r hq hr => hi.alone q r ((hin q).mp hq) ((hin r).mp hr), hi.quiet, hi.empty,
    fun q hq => hi.emptied q (pc_of_goto hq (by decide)),
    fun q hq => hi.asleep q (pc_of_goto hq (by decide)), hi.nodup⟩
  · rw [inOps_goto, hpc, if_neg (by decide), if_neg (by decide), goto_log, hi.outstanding]
    simp
  · simp only [goto_log, hin]
    exact hi.committing

omit [DecidableEq P] in
theorem inv_write {b : Nat} (hi : Inv s) (hout : 1 ≤ s.log.outstanding) :
    Inv (s.setLog { s.log with block := absorb s.log.block b }) := by
  have hc : s.log.committing = false := by
    cases hc : s.log.committing with
    | false => rfl
    | true => have := hi.quiet hc; omega
  refine ⟨hi.outstanding, hi.committing, hi.alone, hi.quiet, fun h => ?_, fun q hq => ?_,
    fun q hq => ?_, absorb_nodup hi.nodup⟩
  · simp only [setLog_log] at h
    omega
  · exact absurd (.inr hq) (hi.none_inCommit hc q)
  · rcases hi.asleep q hq with h | ⟨h, h1⟩
    · exact absurd (hc.symm.trans h) (by decide)
    · exact .inr ⟨mightExhaust_mono (l := s.log) length_le_absorb le_rfl h, h1⟩

theorem inv_endLast (hi : Inv s) (hpc : s.pc p = .inOp)
    (hc : s.log.committing = false) (hlast : s.log.outstanding - 1 = 0) :
    Inv ((s.setLog { s.log with outstanding := s.log.outstanding - 1, committing := true }).goto p
      .committing) := by
  have hnone := hi.none_inCommit hc
  refine ⟨?_, ⟨fun _ => ⟨p, by simp⟩, fun _ => rfl⟩, fun q r hq hr => ?_, fun _ => hlast,
    fun _ h => (nomatch h), fun q hq => ?_, fun _ _ => .inl rfl, hi.nodup⟩
  · rw [inOps_goto, inOps_setLog, setLog_pc, hpc, if_pos rfl, if_neg (by decide),
      ← hi.outstanding]
    simp
  · -- nobody was committing before, so whoever is now is `p`
    have hself : ∀ x, (((s.setLog { s.log with
        outstanding := s.log.outstanding - 1, committing := true }).goto p .committing).pc
          x).InCommit → x = p := fun x hx => by
      by_contra hne
      rw [goto_pc, if_neg hne] at hx
      exact hnone x hx
    rw [hself q hq, hself r hr]
  · exact absurd (.inr (pc_of_goto hq (by decide))) (hnone q)

theorem inv_endOther (hi : Inv s) (hpc : s.pc p = .inOp)
    (hc : s.log.committing = false) (hmore : s.log.outstanding - 1 ≠ 0) :
    Inv ((s.setLog { s.log with outstanding := s.log.outstanding - 1 }).wakeup.goto p .out) := by
  have hnone' : ∀ q, ¬ (((s.setLog { s.log with outstanding := s.log.outstanding - 1
      }).wakeup.goto p .out).pc q).InCommit := fun q =>
    not_inCommit_goto not_inCommit_out fun r _ => by
      rw [inCommit_wakeup]
      exact hi.none_inCommit hc r
  refine ⟨?_, ⟨fun h => absurd (hc.symm.trans h) (by decide), fun ⟨q, hq⟩ => absurd hq (hnone' q)⟩,
    fun q _ hq => absurd hq (hnone' q), fun h => absurd (hc.symm.trans h) (by decide),
    fun h => absurd h hmore, fun q hq => absurd (.inr hq) (hnone' q),
    -- the `wakeup` leaves no sleeper behind
    fun q hq => absurd (pc_of_goto hq (by decide)) wakeup_not_asleep, hi.nodup⟩
  have hp : (s.setLog { s.log with outstanding := s.log.outstanding - 1 }).wakeup.pc p = .inOp :=
    (wakeup_pc_eq (by decide) (by decide)).mpr hpc
  rw [inOps_goto, inOps_wakeup, inOps_setLog, if_pos hp, if_neg (by decide), ← hi.outstanding]
  simp

theorem inv_commit (hi : Inv s) (hpc : s.pc p = .committing) :
    Inv ((s.setLog { s.log with block := [] }).goto p .committed) := by
  have hin : ∀ q, (((s.setLog { s.log with block := [] }).goto p .committed).pc q).InCommit ↔
      (s.pc q).InCommit := fun q => inCommit_goto (by rw [setLog_pc, hpc]; decide)
  have hc : s.log.committing = true := hi.committing.mpr ⟨p, .inl hpc⟩
  refine ⟨?_, ?_, fun q r hq hr => hi.alone q r ((hin q).mp hq) ((hin r).mp hr), hi.quiet,
    fun _ _ => rfl, fun _ _ => rfl, fun _ _ => .inl hc, List.nodup_nil⟩
  · rw [inOps_goto, inOps_setLog, setLog_pc, hpc, if_neg (by decide), if_neg (by decide),
      ← hi.outstanding]
    simp
  · simp only [hin]
    exact hi.committing

theorem inv_endCommit (hi : Inv s) (hpc : s.pc p = .committed) :
    Inv ((s.setLog { s.log with committing := false }).wakeup.goto p .out) := by
  have hnone' : ∀ q, ¬ (((s.setLog { s.log with committing := false }).wakeup.goto p .out).pc
      q).InCommit := fun q =>
    not_inCommit_goto not_inCommit_out fun r hr => by
      rw [inCommit_wakeup]
      exact fun h => hr (hi.alone r p h (.inr hpc))
  refine ⟨?_, ⟨fun h => (nomatch h), fun ⟨q, hq⟩ => absurd hq (hnone' q)⟩,
    fun q _ hq => absurd hq (hnone' q), fun h => (nomatch h), fun _ _ => hi.emptied p hpc,
    fun q hq => absurd (.inr hq) (hnone' q),
    fun q hq => absurd (pc_of_goto hq (by decide)) wakeup_not_asleep, hi.nodup⟩
  have hp : ¬ (s.setLog { s.log with committing := false }).wakeup.pc p = .inOp := by
    rw [wakeup_pc_eq (by decide) (by decide), setLog_pc, hpc]
    decide
  rw [inOps_goto, inOps_wakeup, inOps_setLog, if_neg hp, if_neg (by decide), ← hi.outstanding]
  simp

theorem inv_step (hi : Inv s) (hm : Move s e s') : Inv s' := by
  cases hm with
  | enter p hpc hc _ => exact inv_enter hi hpc hc
  | sleep p hpc hwhy => exact inv_sleep hi hpc hwhy
  | kill p hpc => exact inv_kill hi hpc
  | write p b _ _ _ hout => exact inv_write hi hout
  | endLast p hpc hc hlast => exact inv_endLast hi hpc hc hlast
  | endOther p hpc hc hmore => exact inv_endOther hi hpc hc hmore
  | commit p hpc => exact inv_commit hi hpc
  | endCommit p hpc => exact inv_endCommit hi hpc

theorem Reach.inv {logstart nlog : Nat} (h : Reach logstart nlog s) : Inv s :=
  Reachable.invariant (fun _ hs => hs ▸ inv_init logstart nlog)
    (fun _ _ _ hi hs => inv_step hi (step_move hs)) h

/-! ## Only whole operations are committed -/

/-- While a commit is in progress `log_write` cannot add a block: a process in
    an operation would be counted, and `outstanding` is zero, so the code's own
    check stops the call. -/
theorem Inv.no_write_in_commit {b : Nat} (hi : Inv s)
    (hc : s.log.committing = true) : step s (.logWrite p b) ≠ .next s' := by
  intro h
  cases step_move h with
  | write _ _ _ _ _ hout =>
    have := hi.quiet hc
    omega

/-- While a commit is in progress nobody enters an operation, and the log only
    ever loses blocks. -/
theorem Inv.step_in_commit (hi : Inv s) (hc : s.log.committing = true) (h : step s e = .next s') :
    (∀ p, s'.pc p = .inOp → s.pc p = .inOp) ∧ ∀ b ∈ s'.log.block, b ∈ s.log.block := by
  cases step_move h with
  | enter p _ hc' _ => exact absurd (hc'.symm.trans hc) (by decide)
  | sleep p _ _ => exact ⟨fun q hq => pc_of_goto hq (by decide), fun _ hb => hb⟩
  | kill p _ => exact ⟨fun q hq => pc_of_goto hq (by decide), fun _ hb => hb⟩
  | write p b _ _ _ _ => exact absurd h (hi.no_write_in_commit hc)
  | endLast p _ hc' _ => exact absurd (hc'.symm.trans hc) (by decide)
  | endOther p _ hc' _ => exact absurd (hc'.symm.trans hc) (by decide)
  | commit p _ => exact ⟨fun q hq => pc_of_goto hq (by decide), fun _ hb => nomatch hb⟩
  | endCommit p _ =>
    refine ⟨fun q hq => ?_, fun _ hb => hb⟩
    exact (wakeup_pc_eq (by decide) (by decide)).mp (pc_of_goto hq (by decide))

/-- **A commit contains only whole operations**, and nobody sleeps in `begin_op`
    without somebody left to wake it. In every reachable state: a commit in
    progress means no operation is, and belongs to one process; until it is over
    no `log_write` adds a block and no `begin_op` is admitted; outside a commit
    a log nobody is using is empty; and a sleeper waits for the committer, or
    for the end of an operation that is still running. -/
theorem commit_whole_operations {logstart nlog : Nat} {s : State P} (h : Reach logstart nlog s) :
    (s.log.committing = true →
      s.log.outstanding = 0 ∧ ∀ p q, (s.pc p).InCommit → (s.pc q).InCommit → p = q) ∧
    (s.log.committing = true →
      (∀ p b s', step s (.logWrite p b) ≠ .next s') ∧
      ∀ e s', step s e = .next s' →
        (∀ p, s'.pc p = .inOp → s.pc p = .inOp) ∧ ∀ b ∈ s'.log.block, b ∈ s.log.block) ∧
    (s.log.outstanding = 0 → s.log.committing = false → s.log.n = 0) ∧
    ∀ p, s.pc p = .asleep →
      (s.log.committing = true ∧ ∃ q, (s.pc q).InCommit) ∨
      ((s.log.n : Int) + (s.log.outstanding + 1) * MAXOPBLOCKS > LOGSIZE ∧
        1 ≤ s.log.outstanding ∧ ∃ q, s.pc q = .inOp) := by
  have hi := h.inv
  refine ⟨fun hc => ⟨hi.quiet hc, hi.alone⟩,
    fun hc => ⟨fun p b s' => hi.no_write_in_commit hc, fun e s' => hi.step_in_commit hc⟩,
    fun ho hc => by simp [n, hi.empty ho hc], fun p hp => ?_⟩
  rcases hi.asleep p hp with hc | ⟨hfull, hout⟩
  · exact .inl ⟨hc, hi.committing.mp hc⟩
  · refine .inr ⟨by simpa [mightExhaust] using hfull, hout, ?_⟩
    have hpos : 0 < s.inOps := hi.outstanding ▸ (by omega)
    exact count_pos_iff.mp hpos

/-- One process ends its operation and commits; the other asks for one meanwhile
    and sleeps. -/
theorem commit_whole_operations_two : ∃ s : State (Fin 2), Reach 2 nlog s ∧
    s.pc 1 = .asleep ∧ s.log.committing = true ∧ s.log.outstanding = 0 := by
  have h : Reach 2 nlog (((State.init 2 nlog : State (Fin 2)).setLog
      { initlog 2 nlog with committing := true }).goto 0 .committing |>.goto 1 .asleep) := by
    refine Reachable.of_exec (.init rfl) [.beginOp 0, .endOp 0, .beginOp 1] ?_
    simp [step, beginOp, endOp, State.init, initlog, mightExhaust, n, State.goto, State.setLog]
  exact ⟨_, h, by simp, by simp, ((commit_whole_operations h).1 (by simp)).1⟩

end Log
end Xv6
