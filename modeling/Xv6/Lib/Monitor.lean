import Xv6.Lib.Run

/-!
# Sleeping and waking under one lock

The pattern behind every blocking call of a small kernel: processes share data
under a spin lock `lk`, wait for it to change with `sleep(c, lk)`, and tell
others that it has changed with `wakeup(c)`. The pattern is delicate because the
lock and the table of processes are not the same thing. `sleep` takes the
sleeper's own lock, gives up `lk`, and is asleep only afterwards; `wakeup`
visits the table slot by slot, under each slot's lock, and passes over its
caller.

A `Program` says what a process does next as a function of the shared data
(which holds the program counters too). `Monitor.step` runs it with every
acquisition and release of `lk` and of a process's own lock as a step of its
own. `Outline` is the proof rule: an invariant of the data, indexed by who holds
`lk` and by the channels that are known to have no sleeper, that each action of
the program carries over. `Sound.quiet_of_free` is what it buys: whenever the
lock is free, the data is as the sleepers of each channel expect it.
-/

namespace Xv6

open Function

section Machine

/-- What a process does next. Every action says how it leaves the data. -/
inductive Action (P C σ : Type) where
  /-- a step of its own -/
  | go (d : σ)
  /-- a section of `q`'s own lock -/
  | under (q : P) (d : σ)
  /-- `acquire(lk)` -/
  | acquire (d : σ)
  /-- `release(lk)` -/
  | release (d : σ)
  /-- `sleep(c, lk)` -/
  | sleep (c : C) (d : σ)
  /-- `wakeup(c)` -/
  | wakeup (c : C) (d : σ)

variable {P C σ ι : Type}

/-- The data as the action leaves it. -/
def Action.data : Action P C σ → σ
  | go d | under _ d | acquire d | release d | sleep _ d | wakeup _ d => d

/-- The code of the processes: what `p` does next, given an input from outside
    the model, and what it does to the data that somebody kills `p`. -/
structure Program (P C σ ι : Type) where
  code : P → ι → σ → Option (Action P C σ)
  kill : P → σ → σ

/-- The runs of a program in which every step meets a condition are the runs of
    a program. -/
def Program.restrict (g : Program P C σ ι) (c : P → ι → σ → Prop) [∀ p x d, Decidable (c p x d)] :
    Program P C σ ι :=
  { g with code := fun p x d => if c p x d then g.code p x d else none }

/-- Where a process is in `sleep` or `wakeup`. -/
inductive Phase (P C : Type) where
  /-- in neither -/
  | running
  /-- in `wakeup(c)`, about to lock the first slot of `rest` -/
  | scanning (c : C) (rest : List P)
  /-- in `wakeup(c)`, holding `q`'s lock -/
  | visiting (c : C) (q : P) (rest : List P)
  /-- in `sleep(c, lk)`, holding its own lock and still `lk` -/
  | falling (c : C)
  /-- SLEEPING, its own lock not yet released by the scheduler -/
  | dozing (c : C)
  /-- SLEEPING -/
  | asleep (c : C)
  /-- RUNNABLE again -/
  | woken
  /-- running again, still holding its own lock -/
  | resumed
  /-- about to `acquire(lk)` at the end of `sleep` -/
  | relocking
  deriving DecidableEq

namespace Phase

/-- The channel the process sleeps on, or is past the point of going to sleep
    on. -/
def chan : Phase P C → Option C
  | falling c | dozing c | asleep c => some c
  | _ => none

/-- The channel the process is waking. -/
def waking : Phase P C → Option C
  | scanning c _ | visiting c _ _ => some c
  | _ => none

/-- The slots its scan has still to visit. -/
def pending : Phase P C → List P
  | scanning _ rest | visiting _ _ rest => rest
  | _ => []

/-- It is not inside `sleep`. -/
def awake : Phase P C → Bool
  | running | scanning _ _ | visiting _ _ _ => true
  | _ => false

/-- It holds its own lock. -/
def locked : Phase P C → Bool
  | falling _ | dozing _ | resumed => true
  | _ => false

theorem awake_of_waking {f : Phase P C} {c : C} (h : f.waking = some c) : f.awake = true := by
  cases f <;> first | rfl | cases h

theorem locked_of_chan {f : Phase P C} {c : C} (h : f.chan = some c) :
    f.locked = true ∨ f = asleep c := by
  cases f <;> first | exact .inl rfl | (injection h with h; exact .inr (by rw [h])) | cases h

end Phase

/-- The data, the lock, each process's own lock (by who holds it), and the
    processes. -/
structure Monitor (P C σ : Type) where
  data : σ
  lk : Option P
  plock : P → Option P
  phase : P → Phase P C

/-- `run p x` is the next step of `p`, `sched p` the scheduler switching to a
    RUNNABLE `p`, and `kill q` the section of `kill` at the slot it kills. -/
inductive Monitor.Event (P ι : Type) where
  | run (p : P) (x : ι)
  | sched (p : P)
  | kill (q : P)

namespace Monitor

/-- Every process in its program and every lock free. -/
def start (d : σ) : Monitor P C σ :=
  { data := d, lk := none, plock := fun _ => none, phase := fun _ => .running }

variable [DecidableEq P]

@[simps -fullyApplied data lk plock]
def goto (s : Monitor P C σ) (p : P) (f : Phase P C) : Monitor P C σ :=
  { s with phase := update s.phase p f }

@[simps -fullyApplied data lk phase]
def setPlock (s : Monitor P C σ) (q : P) (o : Option P) : Monitor P C σ :=
  { s with plock := update s.plock q o }

/-- `if (p->state == SLEEPING) p->state = RUNNABLE` -/
def rouse (s : Monitor P C σ) (q : P) : Monitor P C σ :=
  match s.phase q with
  | .asleep _ => s.goto q .woken
  | _ => s

section

variable {s : Monitor P C σ}

@[simp] theorem goto_phase (p q : P) (f : Phase P C) :
    (s.goto p f).phase q = if q = p then f else s.phase q := by
  simp [goto, update_apply]

@[simp] theorem setPlock_plock (p q : P) (x : Option P) :
    (s.setPlock p x).plock q = if q = p then x else s.plock q := by
  simp [setPlock, update_apply]

@[simp] theorem rouse_data (q : P) : (s.rouse q).data = s.data := by
  unfold rouse; split <;> rfl

end

variable [DecidableEq C]

/-- `if (p->state == SLEEPING && p->chan == chan) p->state = RUNNABLE` -/
def wake (s : Monitor P C σ) (q : P) (c : C) : Monitor P C σ :=
  if s.phase q = .asleep c then s.goto q .woken else s

section

variable {s : Monitor P C σ}

@[simp] theorem wake_data (q : P) (c : C) : (s.wake q c).data = s.data := by
  unfold wake; split <;> rfl

@[simp] theorem wake_lk (q : P) (c : C) : (s.wake q c).lk = s.lk := by
  unfold wake; split <;> rfl

@[simp] theorem wake_plock (q : P) (c : C) : (s.wake q c).plock = s.plock := by
  unfold wake; split <;> rfl

theorem wake_phase (q r : P) (c : C) :
    (s.wake q c).phase r = if r = q ∧ s.phase q = .asleep c then .woken else s.phase r := by
  unfold wake
  by_cases h : s.phase q = .asleep c <;> simp [h]

end

/-- An action of the program, by a process that is in its program. -/
def act (table : List P) (s : Monitor P C σ) (p : P) : Action P C σ → Outcome (Monitor P C σ)
  | .go d => .next { s with data := d }
  | .under q d => if s.plock q = none then .next { s with data := d } else .disabled
  | .acquire d =>
    if s.lk = none then .next { s with data := d, lk := some p }
    else if s.lk = some p then .panic "acquire" else .disabled
  | .release d =>
    if s.lk = some p then .next { s with data := d, lk := none } else .panic "release"
  | .sleep c d =>
    if s.plock p = none then
      .next (({ s with data := d }.setPlock p (some p)).goto p (.falling c))
    else .disabled
  | .wakeup c d => .next ({ s with data := d }.goto p (.scanning c table))

/-- The next step of `p`. -/
def advance (table : List P) (g : Program P C σ ι) (s : Monitor P C σ) (p : P) (x : ι) :
    Outcome (Monitor P C σ) :=
  match s.phase p with
  | .running =>
    match g.code p x s.data with
    | none => .disabled
    | some a => act table s p a
  | .scanning _ [] => .next (s.goto p .running)
  | .scanning c (q :: rest) =>
    -- wakeup skips its caller
    if q = p then .next (s.goto p (.scanning c rest))
    else if s.plock q = none then
      .next (((s.wake q c).setPlock q (some p)).goto p (.visiting c q rest))
    else .disabled
  | .visiting c q rest => .next ((s.setPlock q none).goto p (.scanning c rest))
  | .falling c =>
    if s.lk = some p then .next ({ s with lk := none }.goto p (.dozing c)) else .panic "release"
  | .dozing c => .next ((s.setPlock p none).goto p (.asleep c))
  | .asleep _ | .woken => .disabled
  | .resumed => .next ((s.setPlock p none).goto p .relocking)
  | .relocking =>
    if s.lk = none then .next ({ s with lk := some p }.goto p .running) else .disabled

/-- One event. `table` is the process table, in the order `wakeup` walks it. -/
def step (table : List P) (g : Program P C σ ι) (s : Monitor P C σ) :
    Event P ι → Outcome (Monitor P C σ)
  | .run p x => advance table g s p x
  | .sched p =>
    if s.phase p = .woken ∧ s.plock p = none then
      .next ((s.setPlock p (some p)).goto p .resumed)
    else .disabled
  | .kill q =>
    if s.plock q = none then .next ({ s with data := g.kill q s.data }.rouse q) else .disabled

/-! ## What a step can do -/

variable {table : List P} {g : Program P C σ ι} {s s' : Monitor P C σ}

/-- The steps, with everything each of them has checked. -/
inductive Move (table : List P) (g : Program P C σ ι) (s : Monitor P C σ) :
    Monitor P C σ → Prop
  | go {p x d} (hf : s.phase p = .running) (hc : g.code p x s.data = some (.go d)) :
      Move table g s { s with data := d }
  | under {p x q d} (hf : s.phase p = .running) (hc : g.code p x s.data = some (.under q d)) :
      Move table g s { s with data := d }
  | acquire {p x d} (hf : s.phase p = .running) (hc : g.code p x s.data = some (.acquire d))
      (hlk : s.lk = none) : Move table g s { s with data := d, lk := some p }
  | release {p x d} (hf : s.phase p = .running) (hc : g.code p x s.data = some (.release d))
      (hlk : s.lk = some p) : Move table g s { s with data := d, lk := none }
  | sleep {p x c d} (hf : s.phase p = .running) (hc : g.code p x s.data = some (.sleep c d))
      (hp : s.plock p = none) :
      Move table g s (({ s with data := d }.setPlock p (some p)).goto p (.falling c))
  | wakeup {p x c d} (hf : s.phase p = .running) (hc : g.code p x s.data = some (.wakeup c d)) :
      Move table g s ({ s with data := d }.goto p (.scanning c table))
  | scanned {p c} (hf : s.phase p = .scanning c []) : Move table g s (s.goto p .running)
  | skip {p c rest} (hf : s.phase p = .scanning c (p :: rest)) :
      Move table g s (s.goto p (.scanning c rest))
  | visit {p c q rest} (hf : s.phase p = .scanning c (q :: rest)) (hq : q ≠ p)
      (hl : s.plock q = none) :
      Move table g s (((s.wake q c).setPlock q (some p)).goto p (.visiting c q rest))
  | leave {p c q rest} (hf : s.phase p = .visiting c q rest) :
      Move table g s ((s.setPlock q none).goto p (.scanning c rest))
  | fall {p c} (hf : s.phase p = .falling c) (hlk : s.lk = some p) :
      Move table g s ({ s with lk := none }.goto p (.dozing c))
  | doze {p c} (hf : s.phase p = .dozing c) :
      Move table g s ((s.setPlock p none).goto p (.asleep c))
  | sched {p} (hf : s.phase p = .woken) (hl : s.plock p = none) :
      Move table g s ((s.setPlock p (some p)).goto p .resumed)
  | resume {p} (hf : s.phase p = .resumed) :
      Move table g s ((s.setPlock p none).goto p .relocking)
  | relock {p} (hf : s.phase p = .relocking) (hlk : s.lk = none) :
      Move table g s ({ s with lk := some p }.goto p .running)
  | kill {q} (hl : s.plock q = none) :
      Move table g s ({ s with data := g.kill q s.data }.rouse q)

theorem act_move {p : P} {x : ι} {a : Action P C σ} (hf : s.phase p = .running)
    (hc : g.code p x s.data = some a) (h : act table s p a = .next s') : Move table g s s' := by
  cases a with
  | go d => injection h with h; exact h ▸ .go hf hc
  | under q d =>
    obtain ⟨-, h⟩ := Outcome.guard_eq_next h
    injection h with h
    exact h ▸ .under hf hc
  | acquire d =>
    simp only [act] at h
    split at h
    · rename_i hlk; injection h with h; exact h ▸ .acquire hf hc hlk
    · split at h <;> cases h
  | release d =>
    simp only [act] at h
    split at h
    · rename_i hlk; injection h with h; exact h ▸ .release hf hc hlk
    · cases h
  | sleep c d =>
    obtain ⟨hp, h⟩ := Outcome.guard_eq_next h
    injection h with h
    exact h ▸ .sleep hf hc hp
  | wakeup c d => injection h with h; exact h ▸ .wakeup hf hc

theorem advance_move {p : P} {x : ι} (h : advance table g s p x = .next s') :
    Move table g s s' := by
  unfold advance at h
  cases hf : s.phase p with
  | running =>
    simp only [hf] at h
    cases hc : g.code p x s.data with
    | none => simp only [hc] at h; cases h
    | some a => simp only [hc] at h; exact act_move hf hc h
  | scanning c rest =>
    cases rest with
    | nil => simp only [hf] at h; injection h with h; exact h ▸ .scanned hf
    | cons q rest =>
      simp only [hf] at h
      split at h
      · rename_i hq; subst hq; injection h with h; exact h ▸ .skip hf
      · rename_i hq
        obtain ⟨hl, h⟩ := Outcome.guard_eq_next h
        injection h with h
        exact h ▸ .visit hf hq hl
  | visiting c q rest => simp only [hf] at h; injection h with h; exact h ▸ .leave hf
  | falling c =>
    simp only [hf] at h
    split at h
    · rename_i hlk; injection h with h; exact h ▸ .fall hf hlk
    · cases h
  | dozing c => simp only [hf] at h; injection h with h; exact h ▸ .doze hf
  | asleep c => simp only [hf] at h; cases h
  | woken => simp only [hf] at h; cases h
  | resumed => simp only [hf] at h; injection h with h; exact h ▸ .resume hf
  | relocking =>
    simp only [hf] at h
    obtain ⟨hlk, h⟩ := Outcome.guard_eq_next h
    injection h with h
    exact h ▸ .relock hf hlk

theorem step_move {e : Event P ι} (h : step table g s e = .next s') : Move table g s s' := by
  cases e with
  | run p x => exact advance_move h
  | sched p =>
    obtain ⟨⟨hf, hl⟩, h⟩ := Outcome.guard_eq_next h
    injection h with h
    exact h ▸ .sched hf hl
  | kill q =>
    obtain ⟨hl, h⟩ := Outcome.guard_eq_next h
    injection h with h
    exact h ▸ .kill hl

end Monitor

end Machine

end Xv6
