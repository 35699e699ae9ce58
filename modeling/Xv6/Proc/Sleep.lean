import Mathlib.Data.Fintype.Basic
import Xv6.Lib.Outline

/-!
# `sleep` and `wakeup` lose no wakeup

`kernel/proc.c`. Some condition `C` of some data is protected by a spin lock
`lk`. Sleepers loop `while(!C) sleep(chan, lk)` holding the lock; wakers make
`C` true holding the lock and call `wakeup(chan)` before they release it. What
else the processes do is left open: whoever holds the lock may change the data
in any way, wake other channels and sleep on other channels, and any process may
take either part, any number of times. A process that has made `C` true and has
not called `wakeup(chan)` yet is `owing`, and the one thing it does not do is
give up the lock.

`sleep` and `wakeup` themselves are `Monitor.advance`: `acquire(&p->lock)`,
`release(lk)` with the state set to SLEEPING, and the scheduler's
`release(&p->lock)` are three steps, and `wakeup` takes and releases one
`p->lock` after the other.
-/

namespace Xv6

namespace SleepWakeup

/-- Where a process is. -/
inductive Place where
  /-- not holding `lk` -/
  | outside
  /-- holding `lk` -/
  | inside
  /-- holding `lk`, having made `C` true and not yet called `wakeup(chan)` -/
  | owing
  /-- holding `lk`, at the test of `while(!C) sleep(chan, lk)` -/
  | looping
  deriving DecidableEq

/-- What it chooses to do there. -/
inductive Choice (D K : Type) where
  | enter
  | change (x : D)
  | loop
  | wake (k : K)
  /-- `sleep(k, lk)` for some other channel -/
  | nap (k : K)
  | leave

/-- The data under the lock, and the places. -/
structure Shared (P D : Type) where
  value : D
  pc : P → Place

variable {P D K : Type} [DecidableEq P] [DecidableEq K]

def Shared.goto (d : Shared P D) (p : P) (l : Place) : Shared P D :=
  { d with pc := Function.update d.pc p l }

/-- Sleepers and wakers of the condition `C` on the channel `chan`. -/
def code (C : D → Bool) (chan : K) (p : P) (x : Choice D K) (d : Shared P D) :
    Option (Action P K (Shared P D)) :=
  match d.pc p, x with
  | .outside, .enter => some (.acquire (d.goto p .inside))
  | .inside, .change y =>
    some (.go ({ d with value := y }.goto p (if C y && !C d.value then .owing else .inside)))
  | .inside, .loop => some (.go (d.goto p .looping))
  | .inside, .wake k => some (.wakeup k d)
  | .inside, .nap k => if k = chan then none else some (.sleep k d)
  | .inside, .leave => some (.release (d.goto p .outside))
  | .owing, .change y =>
    some (.go ({ d with value := y }.goto p (if C y then .owing else .inside)))
  | .owing, .wake k => some (.wakeup k (if k = chan then d.goto p .inside else d))
  | .looping, _ => some (if C d.value then .go (d.goto p .inside) else .sleep chan d)
  | _, _ => none

def program (C : D → Bool) (chan : K) : Program P K (Shared P D) (Choice D K) :=
  { code := code C chan, kill := fun _ d => d }

/-- Nobody in the lock's section yet. -/
def Init (s : Monitor P K (Shared P D)) : Prop :=
  ∃ v, s = Monitor.start { value := v, pc := fun _ => .outside }

section

omit [DecidableEq K]

@[simp] theorem goto_pc (d : Shared P D) (p q : P) (l : Place) :
    (d.goto p l).pc q = if q = p then l else d.pc q := by
  simp [Shared.goto, Function.update_apply]

end

variable {C : D → Bool} {chan : K} {d : Shared P D} {p : P}

/-- Everything a process can do. -/
inductive Does (C : D → Bool) (chan : K) (p : P) (d : Shared P D) :
    Action P K (Shared P D) → Prop
  | enter (hp : d.pc p = .outside) : Does C chan p d (.acquire (d.goto p .inside))
  | change {y} (hp : d.pc p = .inside) (hy : C y = true → C d.value = true) :
      Does C chan p d (.go ({ d with value := y }.goto p .inside))
  | set {y} (hp : d.pc p = .inside ∨ d.pc p = .owing) :
      Does C chan p d (.go ({ d with value := y }.goto p .owing))
  | unset {y} (hp : d.pc p = .owing) (hy : C y = false) :
      Does C chan p d (.go ({ d with value := y }.goto p .inside))
  | loop (hp : d.pc p = .inside) : Does C chan p d (.go (d.goto p .looping))
  | leave (hp : d.pc p = .inside) : Does C chan p d (.release (d.goto p .outside))
  | nap {k} (hp : d.pc p = .inside) (hk : k ≠ chan) : Does C chan p d (.sleep k d)
  | sleep (hp : d.pc p = .looping) (hC : C d.value = false) : Does C chan p d (.sleep chan d)
  | seen (hp : d.pc p = .looping) (hC : C d.value = true) :
      Does C chan p d (.go (d.goto p .inside))
  | wake {k} (hp : d.pc p = .inside ∨ d.pc p = .owing ∧ k ≠ chan) :
      Does C chan p d (.wakeup k d)
  | repay (hp : d.pc p = .owing) : Does C chan p d (.wakeup chan (d.goto p .inside))

theorem code_does {x : Choice D K} {a : Action P K (Shared P D)}
    (hc : code C chan p x d = some a) : Does C chan p d a := by
  unfold code at hc
  split at hc
  · rename_i hp; cases hc; exact .enter hp
  · rename_i y hp
    by_cases hy : C y = true ∧ C d.value = false
    · simp only [hy.1, hy.2] at hc
      cases hc
      exact .set (.inl hp)
    · have hy' : ¬ ((C y && !C d.value) = true) := by simpa using hy
      rw [if_neg hy'] at hc
      cases hc
      exact .change hp fun h => by simpa [h] using hy
  · rename_i hp; cases hc; exact .loop hp
  · rename_i hp; cases hc; exact .wake (.inl hp)
  · rename_i hp
    split at hc
    · cases hc
    · rename_i hk; cases hc; exact .nap hp hk
  · rename_i hp; cases hc; exact .leave hp
  · rename_i y hp
    cases hc
    split
    · exact .set (.inr hp)
    · rename_i hy; exact .unset hp (by simpa using hy)
  · rename_i k hp
    cases hc
    split
    · rename_i hk; subst hk; exact .repay hp
    · rename_i hk; exact .wake (.inr ⟨hp, hk⟩)
  · rename_i hp
    cases hc
    split
    · rename_i hC; exact .seen hp hC
    · rename_i hC; exact .sleep hp (by simpa using hC)
  · cases hc

/-- The places inside the section. -/
def Holds (p : P) (d : Shared P D) : Prop := d.pc p ≠ .outside

/-- Only the holder owes a wakeup; if nobody does, nobody sleeps on `chan` or
    `C` is false. -/
structure Inv (C : D → Bool) (chan : K) (d : Shared P D) (h : Option P) (N : K → Prop) : Prop where
  owing : ∀ q, d.pc q = .owing → h = some q
  served : (∀ q, d.pc q ≠ .owing) → N chan ∨ C d.value = false

section

omit [DecidableEq P] [DecidableEq K]

variable {d' : Shared P D} {N N' : K → Prop}

theorem Inv.of_free (hd : Inv C chan d none N) : N chan ∨ C d.value = false :=
  hd.served fun q hq => by cases hd.owing q hq

/-- The holder owes nothing: the condition is served. -/
theorem Inv.served_at (hd : Inv C chan d (some p) N) (hp : d.pc p ≠ .owing) :
    N chan ∨ C d.value = false := by
  refine hd.served fun q hq => ?_
  obtain rfl := Option.some.inj (hd.owing q hq)
  exact hp hq

/-- The holder is somewhere else now, and knows what it has to know there. -/
theorem Inv.holder (hd : Inv C chan d (some p) N) {h : Option P}
    (hothers : ∀ q, q ≠ p → d'.pc q = d.pc q) (hp : d'.pc p = .owing → h = some p)
    (hserved : d'.pc p ≠ .owing → N' chan ∨ C d'.value = false) : Inv C chan d' h N' := by
  refine ⟨fun q hq => ?_, fun hq => hserved (hq p)⟩
  by_cases hqp : q = p
  · rw [hqp] at hq ⊢
    exact hp hq
  · rw [hothers q hqp] at hq
    exact absurd (Option.some.inj (hd.owing q hq)).symm hqp

end

attribute [local simp] Holds

omit [DecidableEq K] in
/-- A change by the holder, without the lock changing hands. -/
theorem carries_go {l : Place} {y : D} (hp : d.pc p ≠ .outside) (hl : l ≠ .outside)
    (hy : ∀ N : K → Prop, Inv C chan d (some p) N → l ≠ .owing → N chan ∨ C y = false) :
    (Action.go ({ d with value := y }.goto p l) : Action P K (Shared P D)).Carries Holds
      (Inv C chan) p d := by
  refine ⟨by simp [hl, hp], fun h N hh hd => ?_⟩
  obtain rfl : h = some p := hh.mp hp
  exact hd.holder (fun q hq => by simp [hq]) (fun _ => rfl) fun hne =>
    hy N hd (by simpa using hne)

omit [DecidableEq K] in
theorem does_carries {a : Action P K (Shared P D)} (ha : Does C chan p d a) :
    a.Carries Holds (Inv C chan) p d := by
  cases ha with
  | enter hp =>
    refine ⟨by simp [hp], by simp, fun N hd => ⟨fun q hq => ?_, fun _ => hd.of_free⟩⟩
    by_cases hqp : q = p
    · simp [hqp] at hq
    · cases hd.owing q (by simpa [hqp] using hq)
  | change hp hy =>
    refine carries_go (by simp [hp]) (by simp) fun N hd _ => ?_
    rcases hd.served_at (by simp [hp]) with hN | hC
    · exact .inl hN
    · exact .inr (Bool.eq_false_iff.mpr fun h => by rw [hy h] at hC; cases hC)
  | set hp =>
    refine carries_go ?_ (by simp) fun N _ hl => absurd rfl hl
    rcases hp with hp | hp <;> simp [hp]
  | unset hp hy => exact carries_go (by simp [hp]) (by simp) fun N _ _ => .inr hy
  | loop hp =>
    exact carries_go (by simp [hp]) (by simp) fun N hd _ => hd.served_at (by simp [hp])
  | seen hp hC =>
    exact carries_go (by simp [hp]) (by simp) fun N hd _ => hd.served_at (by simp [hp])
  | leave hp =>
    refine ⟨by simp [hp], by simp, fun N hd => ?_⟩
    exact hd.holder (fun q hq => by simp [hq]) (by simp) fun _ => hd.served_at (by simp [hp])
  | nap hp hk =>
    refine ⟨by simp [hp], by simp [hp], fun N hd => ?_⟩
    refine hd.holder (fun q _ => rfl) (by simp [hp]) fun _ => ?_
    exact (hd.served_at (by simp [hp])).imp (fun hN => ⟨hN, Ne.symm hk⟩) id
  | sleep hp hC =>
    refine ⟨by simp [hp], by simp [hp], fun N hd => ?_⟩
    exact hd.holder (fun q _ => rfl) (by simp [hp]) fun _ => .inr hC
  | wake hp =>
    have hheld : d.pc p ≠ .outside := by rcases hp with hp | ⟨hp, -⟩ <;> simp [hp]
    refine ⟨hheld, hheld, fun N hd => ?_⟩
    refine hd.holder (fun q _ => rfl) (fun _ => rfl) fun hne => ?_
    exact (hd.served_at hne).imp .inl id
  | repay hp =>
    refine ⟨by simp [hp], by simp, fun N hd => ?_⟩
    exact hd.holder (fun q hq => by simp [hq]) (by simp) fun _ => .inl (.inr rfl)

/-- The proof outline of sleepers and wakers: sleepers of `chan` have nothing to
    be woken for while the condition is false. -/
def outline (C : D → Bool) (chan : K) : Outline (program (P := P) C chan) where
  quiet k d := k = chan → C d.value = false
  holds := Holds
  inv := Inv C chan
  mono hN hd := ⟨hd.owing, fun hq => (hd.served hq).imp (hN chan) id⟩
  served hd k := by
    by_cases hk : k = chan
    · subst hk
      exact hd.of_free.imp id fun hC _ => hC
    · exact .inr fun h => absurd h hk
  relock hp hd := ⟨fun q hq => (nomatch hd.owing q hq), fun _ => hd.of_free⟩
  frame _ hc q hq := by
    cases code_does hc <;> simp [Action.data, Holds, hq]
  carries hc := does_carries (code_does hc)
  kill_holds := Iff.rfl
  kill_inv hd := hd

/-- **`sleep` and `wakeup` lose no wakeup.** Among any number of processes, for
    every condition `C` protected by `lk`, no interleaving reaches a state in
    which `lk` is free, `C` holds and a process is SLEEPING on `chan`. -/
theorem no_lost_wakeup {n : Nat} (C : D → Bool) (chan : K)
    {s : Monitor (Fin n) K (Shared (Fin n) D)}
    (hr : Reachable (Monitor.step (List.finRange n) (program C chan)) Init s)
    (hlk : s.lk = none) (hC : C s.data.value = true) (p : Fin n) :
    ¬ (s.phase p = .dozing chan ∨ s.phase p = .asleep chan) := by
  intro hp
  have hsound : Monitor.Sound (outline C chan) s := by
    refine Monitor.Sound.reachable (fun q => List.mem_finRange q) (fun s hs => ?_) hr
    obtain ⟨v, rfl⟩ := hs
    exact Monitor.Sound.start ⟨fun q hq => (nomatch hq), fun _ => .inl trivial⟩ fun q hq => hq rfl
  have hquiet := hsound.quiet_of_free hlk hp rfl
  rw [hC] at hquiet
  cases hquiet

/-- Two processes: the first goes to sleep until the value is nonzero, the
    second sets it and wakes the first. -/
def handover : List (Monitor.Event (Fin 2) (Choice Nat Unit)) :=
  -- acquire(lk); while(!C) sleep(chan, lk), as far as asleep
  [.run 0 .enter, .run 0 .loop, .run 0 .loop, .run 0 .loop, .run 0 .loop,
    -- acquire(lk); set; wakeup(chan), passing over itself; release(lk)
    .run 1 .enter, .run 1 (.change 7), .run 1 (.wake ()), .run 1 .leave, .run 1 .leave,
    .run 1 .leave, .run 1 .leave, .run 1 .leave]

/-- After `handover` the lock is free and the condition holds, so the first
    process is not asleep. -/
theorem no_lost_wakeup_handover :
    ∃ s, exec (Monitor.step (List.finRange 2) (program (fun v : Nat => v != 0) ()))
        (Monitor.start { value := 0, pc := fun _ => .outside }) handover = .next s ∧
      s.lk = none ∧ s.data.value = 7 ∧ ¬ (s.phase 0 = .dozing () ∨ s.phase 0 = .asleep ()) := by
  obtain ⟨s, hs, ht⟩ := Outcome.exists_of_check
    (x := exec (Monitor.step (List.finRange 2) (program (fun v : Nat => v != 0) ()))
      (Monitor.start { value := 0, pc := fun _ => .outside }) handover)
    (t := fun s => s.lk = none && s.data.value = 7) (by decide +kernel)
  simp only [Bool.and_eq_true, decide_eq_true_eq] at ht
  refine ⟨s, hs, ht.1, ht.2, ?_⟩
  exact no_lost_wakeup _ () ((Reachable.init ⟨0, rfl⟩).of_exec _ hs) ht.1 (by simp [ht.2]) 0

end SleepWakeup

end Xv6
