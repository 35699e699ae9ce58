import Xv6.Lib.Outline

/-!
# Sleep locks

`kernel/sleeplock.c`. A sleep lock is two fields under a spin lock `lk->lk`:
`acquiresleep` sleeps on the lock itself while `locked` is set, and
`releasesleep` clears it and wakes every sleeper, who all test again. The two
stores that take the lock, and the two that give it up, are one step here: both
fields are only ever read with `lk->lk` held.

A process may call `acquiresleep` while it has the lock; it then waits for
itself.
-/

namespace Xv6

namespace Sleeplock

/-- Where a process is. -/
inductive Place where
  /-- in neither call, without the lock -/
  | outside
  /-- in `acquiresleep`, at the test of its loop -/
  | testing
  /-- in `acquiresleep`, with the lock -/
  | taken
  /-- between its `acquiresleep` and its `releasesleep` -/
  | holding
  /-- in `acquiresleep`, though it has the lock -/
  | retesting
  /-- in `releasesleep`, about to clear the fields -/
  | clearing
  /-- about to call `wakeup(lk)` -/
  | waking
  | leaving
  deriving DecidableEq

/-- The process holds `lk->lk` there. -/
def Place.inside : Place → Bool
  | outside | holding => false
  | _ => true

/-- The process has the sleep lock there. -/
def Place.owns : Place → Bool
  | taken | holding | retesting | clearing => true
  | _ => false

inductive Call where
  | acquiresleep
  | releasesleep

/-- `struct sleeplock`, and the places of the processes. -/
structure Lock (P : Type) where
  locked : Nat
  pid : Nat
  pc : P → Place

variable {P : Type} [DecidableEq P]

@[simps -fullyApplied locked pid]
def Lock.goto (d : Lock P) (p : P) (l : Place) : Lock P :=
  { d with pc := Function.update d.pc p l }

/-- `while (lk->locked) sleep(lk, &lk->lk)`, and the stores that follow the
    loop. -/
def test (pid : P → Nat) (p : P) (d : Lock P) : Action P Unit (Lock P) :=
  if d.locked ≠ 0 then .sleep () d
  else .go ({ d with locked := 1, pid := pid p }.goto p .taken)

/-- What `p`, whose pid is `pid p`, does next; `releasesleep` is called by the
    holder only. -/
def code (pid : P → Nat) (p : P) (x : Call) (d : Lock P) : Option (Action P Unit (Lock P)) :=
  match d.pc p, x with
  | .outside, .acquiresleep => some (.acquire (d.goto p .testing))
  | .outside, .releasesleep => none
  | .testing, _ => some (test pid p d)
  | .retesting, _ => some (test pid p d)
  | .taken, _ => some (.release (d.goto p .holding))
  | .holding, .acquiresleep => some (.acquire (d.goto p .retesting))
  | .holding, .releasesleep => some (.acquire (d.goto p .clearing))
  | .clearing, _ => some (.go ({ d with locked := 0, pid := 0 }.goto p .waking))
  | .waking, _ => some (.wakeup () (d.goto p .leaving))
  | .leaving, _ => some (.release (d.goto p .outside))

/-- Being killed changes nothing: the loop of `acquiresleep` does not look at
    it. -/
def program (pid : P → Nat) : Program P Unit (Lock P) Call :=
  { code := code pid, kill := fun _ d => d }

/-- After `initsleeplock`. -/
def init : Monitor P Unit (Lock P) :=
  Monitor.start { locked := 0, pid := 0, pc := fun _ => .outside }

@[simp] theorem goto_pc (d : Lock P) (p q : P) (l : Place) :
    (d.goto p l).pc q = if q = p then l else d.pc q := by
  simp [Lock.goto, Function.update_apply]

/-- Who has the lock, and what the fields say about it. -/
inductive Held (pid : P → Nat) (d : Lock P) : Prop where
  | free (hnone : ∀ q, (d.pc q).owns = false) (hlocked : d.locked = 0)
  | some (p : P) (hone : ∀ q, (d.pc q).owns = true ↔ q = p) (hlocked : d.locked = 1)
      (hpid : d.pid = pid p)

/-- Nobody sleeps on a free lock, once the `wakeup` that is due has been
    called. -/
structure Inv (pid : P → Nat) (d : Lock P) (h : Option P) (N : Unit → Prop) : Prop where
  held : Held pid d
  waking : ∀ q, d.pc q = .waking → h = some q
  served : (∀ q, d.pc q ≠ .waking) → N () ∨ d.locked = 1

section

variable {pid : P → Nat} {d d' : Lock P} {p : P} {N N' : Unit → Prop} {l : Place}

omit [DecidableEq P] in
theorem Held.congr (h : Held pid d) (howns : ∀ q, (d'.pc q).owns = (d.pc q).owns)
    (hlocked : d'.locked = d.locked) (hpid : d'.pid = d.pid) : Held pid d' := by
  cases h with
  | free hnone hl => exact .free (fun q => (howns q).trans (hnone q)) (hlocked.trans hl)
  | some p hone hl hp =>
    exact .some p (fun q => by rw [howns]; exact hone q) (hlocked.trans hl) (hpid.trans hp)

omit [DecidableEq P] in
/-- The fields tell whether `p` has the lock. -/
theorem Held.free_of_locked (h : Held pid d) (hl : d.locked = 0) (q : P) :
    (d.pc q).owns = false := by
  cases h with
  | free hnone _ => exact hnone q
  | some p _ hl' _ => rw [hl] at hl'; cases hl'

/-- A step of `p`: the others keep their places. -/
theorem Inv.step {h h' : Option P} (hd : Inv pid d h N) (hothers : ∀ q, q ≠ p → d'.pc q = d.pc q)
    (hheld : Held pid d') (hh : ∀ q, q ≠ p → h = some q → h' = some q)
    (hp : d'.pc p = .waking → h' = some p)
    (hserved : (∀ q, d'.pc q ≠ .waking) → N' () ∨ d'.locked = 1) : Inv pid d' h' N' := by
  refine ⟨hheld, fun q hq => ?_, hserved⟩
  by_cases hqp : q = p
  · subst hqp
    exact hp hq
  · exact hh q hqp (hd.waking q (hothers q hqp ▸ hq))

/-- The process goes from one place to another, neither of them at the
    `wakeup`. -/
theorem Inv.goto {h h' : Option P} (hd : Inv pid d h N) (hh : ∀ q, q ≠ p → h = some q → h' = some q)
    (howns : l.owns = (d.pc p).owns) (hp : d.pc p ≠ .waking) (hl : l ≠ .waking) :
    Inv pid (d.goto p l) h' N := by
  refine hd.step (fun q hq => by simp [hq]) (hd.held.congr (fun q => ?_) rfl rfl) hh
    (by simp [hl]) fun hq => hd.served fun q => ?_
  · by_cases hqp : q = p <;> simp [hqp, howns]
  · by_cases hqp : q = p
    · rwa [hqp]
    · simpa [hqp] using hq q

/-- The places inside a section of `lk->lk`. -/
def Holds (p : P) (d : Lock P) : Prop := (d.pc p).inside = true

variable {a : Action P Unit (Lock P)}

attribute [local simp] Place.inside Holds

/-- At the test of `acquiresleep`: it sleeps, or it is the only one to have the
    lock. -/
theorem carries_test (hp : (d.pc p).inside = true)
    (hpw : d.pc p ≠ .waking) (hc : test pid p d = a) : a.Carries Holds (Inv pid) p d := by
  subst hc
  unfold test
  split
  · rename_i hl
    refine ⟨hp, hp, fun N hd => hd.step (fun _ _ => rfl) hd.held ?_ (fun h => absurd h hpw) ?_⟩
    · exact fun q hq h => absurd (Option.some.inj h).symm hq
    · cases hd.held with
      | free _ h0 => exact absurd h0 hl
      | some _ _ h1 _ => exact fun _ => .inr h1
  · rename_i hl
    refine ⟨by rw [Holds, Holds, hp]; simp, fun h N hh hd => ?_⟩
    refine hd.step (p := p) (fun q hq => by simp [hq]) (.some p (fun q => ?_) rfl rfl)
      (fun _ _ h => h)
      (by simp) fun _ => .inr rfl
    by_cases hqp : q = p
    · simp [hqp, Place.owns]
    · simp [hqp, hd.held.free_of_locked (not_not.mp hl) q]

/-- Giving the lock up: a `wakeup` is due, and `lk->lk` is kept until it has
    been called. -/
theorem carries_clear (hp : d.pc p = .clearing) :
    (Action.go ({ d with locked := 0, pid := 0 }.goto p .waking) :
      Action P Unit (Lock P)).Carries Holds (Inv pid) p d := by
  refine ⟨by simp [hp], fun h N hh hd => ?_⟩
  refine hd.step (p := p) (fun q hq => by simp [hq]) (.free (fun q => ?_) rfl) (fun _ _ h => h)
    (fun _ => hh.mp (by simp [hp])) fun hq => absurd (by simp) (hq p)
  by_cases hqp : q = p
  · simp [hqp, Place.owns]
  cases hd.held with
  | free hnone _ => simpa [hqp] using hnone q
  | some o hone _ _ =>
    have hpo : p = o := (hone p).mp (by rw [hp]; rfl)
    have hq : ¬ (d.pc q).owns = true := fun h => hqp (((hone q).mp h).trans hpo.symm)
    simpa [hqp] using hq

theorem carries_wakeup (hp : d.pc p = .waking) :
    (Action.wakeup () (d.goto p .leaving) : Action P Unit (Lock P)).Carries Holds
      (Inv pid) p d := by
  refine ⟨by simp [hp], by simp, fun N hd => ?_⟩
  refine hd.step (p := p) (fun q hq => by simp [hq]) (hd.held.congr (fun q => ?_) rfl rfl)
    (fun _ _ h => h) (by simp) fun _ => .inl (.inr rfl)
  by_cases hqp : q = p <;> simp [hqp, hp, Place.owns]

theorem code_carries {x : Call} (hc : code pid p x d = some a) : a.Carries Holds (Inv pid) p d := by
  have hnot : ∀ q, q ≠ p → some p = some q → none = some q := fun q hq h =>
    absurd (Option.some.inj h).symm hq
  unfold code at hc
  split at hc
  all_goals rename_i hp
  all_goals try cases hc
  case h_1 | h_6 | h_7 =>
    refine ⟨by simp [hp], by simp, fun N hd => ?_⟩
    exact hd.goto (by simp) (by rw [hp]; rfl) (by simp [hp]) (by simp)
  case h_3 | h_4 => exact carries_test (by rw [hp]; rfl) (by simp [hp]) rfl
  case h_5 | h_10 =>
    refine ⟨by simp [hp], by simp, fun N hd => ?_⟩
    exact hd.goto hnot (by rw [hp]; rfl) (by simp [hp]) (by simp)
  case h_8 => exact carries_clear hp
  case h_9 => exact carries_wakeup hp

theorem code_others {x : Call} (hc : code pid p x d = some a) {q : P}
    (hq : q ≠ p) : a.data.pc q = d.pc q := by
  have htest : (test pid p d).data.pc q = d.pc q := by
    unfold test
    split <;> simp [Action.data, hq]
  unfold code at hc
  split at hc
  all_goals cases hc
  all_goals first | exact htest | simp [Action.data, hq]

end

/-- Those who sleep on the lock have nothing to be woken for while it is
    taken. -/
def outline (pid : P → Nat) : Outline (program pid) where
  quiet _ d := d.locked = 1
  holds := Holds
  inv := Inv pid
  mono hN hd := ⟨hd.held, hd.waking, fun hq => (hd.served hq).imp_left (hN ())⟩
  served hd _ := hd.served fun q hq => nomatch hd.waking q hq
  relock _ hd := ⟨hd.held, fun q hq => (nomatch hd.waking q hq),
    fun _ => hd.served fun q hq => nomatch hd.waking q hq⟩
  frame _ hc q hq := by rw [Holds, Holds, code_others hc hq]
  carries hc := code_carries hc
  kill_holds := Iff.rfl
  kill_inv hd := hd

/-- **Sleep locks exclude and strand nobody.** In every state that any number of
    processes reach by `acquiresleep` and `releasesleep`, in any interleaving
    and with any of them killed: at most one has the lock, `locked` is 1 exactly
    if one has it, `pid` is then its pid, and if `lk->lk` is free and `locked`
    is 0 nobody is SLEEPING on the lock. -/
theorem sleeplock_excludes {n : Nat} (pid : Fin n → Nat) {s : Monitor (Fin n) Unit (Lock (Fin n))}
    (hr : Reachable (Monitor.step (List.finRange n) (program pid)) (· = init) s) :
    (∀ p q, (s.data.pc p).owns = true → (s.data.pc q).owns = true → p = q) ∧
    (s.data.locked = 1 ↔ ∃ p, (s.data.pc p).owns = true) ∧
    (∀ p, (s.data.pc p).owns = true → s.data.pid = pid p) ∧
    (s.lk = none → s.data.locked = 0 →
      ∀ p, ¬ (s.phase p = .dozing () ∨ s.phase p = .asleep ())) := by
  have hsound : Monitor.Sound (outline pid) s := by
    refine Monitor.Sound.reachable (fun q => List.mem_finRange q) (fun s hs => ?_) hr
    subst hs
    exact Monitor.Sound.start ⟨.free (fun _ => rfl) rfl, fun _ => nofun, fun _ => .inl trivial⟩
      fun q hq => nomatch hq
  refine ⟨?_, ?_, ?_, fun hlk hl p hp => ?_⟩
  · cases hsound.inv.held with
    | free hnone _ => exact fun p q hp => absurd hp (by simp [hnone p])
    | some o hone _ _ => exact fun p q hp hq => ((hone p).mp hp).trans ((hone q).mp hq).symm
  · cases hsound.inv.held with
    | free hnone hl => simp [hnone, hl]
    | some o hone hl _ => exact iff_of_true hl ⟨o, (hone o).mpr rfl⟩
  · cases hsound.inv.held with
    | free hnone _ => exact fun p hp => absurd hp (by simp [hnone p])
    | some o hone _ hpid => exact fun p hp => by rw [hpid, (hone p).mp hp]
  · have hquiet : s.data.locked = 1 := hsound.quiet_of_free hlk hp
    omega

/-- Two processes: the second goes to sleep on the lock that the first has, and
    is woken. -/
theorem sleeplock_excludes_two :
    ∃ s, exec (Monitor.step (List.finRange 2) (program fun p => p.val + 1)) init
        ((List.replicate 3 (.run 0 .acquiresleep)) ++ List.replicate 4 (.run 1 .acquiresleep) ++
          List.replicate 8 (.run 0 .releasesleep)) = .next s ∧
      s.lk = none ∧ s.data.locked = 0 ∧ s.phase 1 = .woken ∧
      ¬ (s.phase 0 = .dozing () ∨ s.phase 0 = .asleep ()) := by
  obtain ⟨s, hs, ht⟩ := Outcome.exists_of_check
    (x := exec (Monitor.step (List.finRange 2) (program fun p => p.val + 1)) init
        ((List.replicate 3 (.run 0 .acquiresleep)) ++ List.replicate 4 (.run 1 .acquiresleep) ++
          List.replicate 8 (.run 0 .releasesleep)))
    (t := fun s => decide (s.lk = none ∧ s.data.locked = 0 ∧ s.phase 1 = .woken))
    (by decide +kernel)
  obtain ⟨hlk, hl, hw⟩ := of_decide_eq_true ht
  have hinit : Reachable (Monitor.step (List.finRange 2) (program fun p => p.val + 1)) (· = init)
      init := .init rfl
  exact ⟨s, hs, hlk, hl, hw, (sleeplock_excludes _ (hinit.of_exec _ hs)).2.2.2 hlk hl 0⟩

end Sleeplock

end Xv6
