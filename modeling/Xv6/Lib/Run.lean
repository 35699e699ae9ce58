import Mathlib.Data.List.Induction

/-!
# Runs of a labelled system

Every concurrent part of the kernel is modelled the same way: a state, a type of
events (who does what next), and a function that says what one event does to one
state. An event has three outcomes, and the two that are not a successor state
must not be confused:

* `next s` — the event happened and left `s`;
* `panic m` — the event happened and the code called `panic(m)`; there is no
  later state;
* `disabled` — the event cannot happen here (a process asleep does not call
  anything).

Nothing in this file names the kernel. `Reachable` is the induction every safety
theorem goes through, and `exec_append`/`Reachable.of_exec` are what ties it to
explicit schedules.
-/

namespace Xv6

universe u v

-- for the numerals of `Fin 2` and `Fin 3` in schedules
instance twoPos : @NeZero Nat .ofOfNat0 2 := ⟨by decide⟩
instance threePos : @NeZero Nat .ofOfNat0 3 := ⟨by decide⟩

/-- What one event does to one state. -/
inductive Outcome (σ : Type u) where
  | next (s : σ)
  | panic (msg : String)
  | disabled
  deriving DecidableEq

namespace Outcome

variable {σ : Type u} {τ : Type v}

/-- Continue from the successor state, if there is one. -/
def bind : Outcome σ → (σ → Outcome τ) → Outcome τ
  | next s, k => k s
  | panic m, _ => panic m
  | disabled, _ => disabled

@[simp] theorem bind_next (s : σ) (k : σ → Outcome τ) : (next s).bind k = k s := rfl
@[simp] theorem bind_panic (m : String) (k : σ → Outcome τ) : (panic m).bind k = panic m := rfl
@[simp] theorem bind_disabled (k : σ → Outcome τ) : (disabled : Outcome σ).bind k = disabled := rfl

variable {x : Outcome σ}

theorem bind_eq_next {k : σ → Outcome τ} {t : τ} (h : x.bind k = next t) :
    ∃ s, x = next s ∧ k s = next t := by
  cases x with
  | next s => exact ⟨s, rfl, h⟩
  | panic m => cases h
  | disabled => cases h

theorem bind_eq_panic {k : σ → Outcome τ} {m : String} (h : x.bind k = panic m) :
    x = panic m ∨ ∃ s, x = next s ∧ k s = panic m := by
  cases x with
  | next s => exact .inr ⟨s, rfl, h⟩
  | panic m' => injection h with h; exact .inl (by rw [h])
  | disabled => cases h

theorem guard_eq_next {c : Prop} [Decidable c] {s : σ}
    (h : (if c then x else disabled) = next s) : c ∧ x = next s := by
  split at h
  · rename_i hc; exact ⟨hc, h⟩
  · cases h

/-- Part of a state was replaced by what an operation left. -/
theorem map_eq_next {f : σ → τ} {t : τ}
    (h : (x.bind fun s => next (f s)) = next t) : ∃ s, x = next s ∧ f s = t := by
  obtain ⟨s, hx, h⟩ := bind_eq_next h
  injection h with h
  exact ⟨s, hx, h⟩

/-- There is a successor and it passes the test: how a schedule is evaluated. -/
def check (t : σ → Bool) : Outcome σ → Bool
  | next s => t s
  | _ => false

theorem exists_of_check {t : σ → Bool} (h : x.check t = true) : ∃ s, x = next s ∧ t s = true := by
  cases x with
  | next s => exact ⟨s, rfl, h⟩
  | panic m => cases h
  | disabled => cases h

/-- The outcome is this panic, as a test: states need no decidable equality for
    it. -/
def panicsWith (m : String) : Outcome σ → Bool
  | panic m' => m' == m
  | _ => false

theorem eq_panic_of_panicsWith {m : String} (h : x.panicsWith m = true) : x = panic m := by
  cases x with
  | panic m' => rw [show m' = m by simpa [panicsWith] using h]
  | next s => cases h
  | disabled => cases h

/-- The event does not panic, and where it happens `Q` holds afterwards. -/
def Safe (Q : σ → Prop) : Outcome σ → Prop
  | next s => Q s
  | panic _ => False
  | disabled => True

theorem Safe.of_next {Q : σ → Prop} {s : σ} (h : x.Safe Q) (hx : x = next s) : Q s := by
  rw [hx] at h
  exact h

theorem Safe.ne_panic {Q : σ → Prop} (h : x.Safe Q) (m : String) : x ≠ panic m := by
  intro hx
  rw [hx] at h
  exact h

end Outcome

section Runs

variable {σ : Type u} {ε : Type v} (step : σ → ε → Outcome σ)

/-- Run a schedule: the events in order, stopping at the first that panics or
    cannot happen. -/
def exec (s : σ) : List ε → Outcome σ
  | [] => .next s
  | e :: es => (step s e).bind fun s' => exec s' es

@[simp] theorem exec_nil (s : σ) : exec step s [] = .next s := rfl

@[simp] theorem exec_cons (s : σ) (e : ε) (es : List ε) :
    exec step s (e :: es) = (step s e).bind fun s' => exec step s' es := rfl

theorem exec_append (s : σ) (es fs : List ε) :
    exec step s (es ++ fs) = (exec step s es).bind fun s' => exec step s' fs := by
  induction es generalizing s with
  | nil => rfl
  | cons e es ih =>
    simp only [List.cons_append, exec_cons]
    cases h : step s e with
    | next s' => simp [ih]
    | panic m => rfl
    | disabled => rfl

theorem exec_snoc (s : σ) (es : List ε) (e : ε) :
    exec step s (es ++ [e]) = (exec step s es).bind fun s' => step s' e := by
  rw [exec_append]
  cases exec step s es with
  | next s' => cases h : step s' e <;> simp [h]
  | panic m => rfl
  | disabled => rfl

/-- The states some schedule reaches from an initial one. -/
inductive Reachable (Init : σ → Prop) : σ → Prop
  | init {s : σ} (h : Init s) : Reachable Init s
  | step {s s' : σ} {e : ε} (hr : Reachable Init s) (h : step s e = .next s') : Reachable Init s'

variable {step}

/-- **The induction rule.** What holds initially and is kept by every event
    holds in every reachable state. -/
theorem Reachable.invariant {Init Inv : σ → Prop} (hinit : ∀ s, Init s → Inv s)
    (hstep : ∀ s e s', Inv s → step s e = .next s' → Inv s') {s : σ}
    (h : Reachable step Init s) : Inv s := by
  induction h with
  | init h => exact hinit _ h
  | step _ h ih => exact hstep _ _ _ ih h

theorem Reachable.of_exec {Init : σ → Prop} {s s' : σ} (hs : Reachable step Init s) :
    ∀ (es : List ε), exec step s es = .next s' → Reachable step Init s' := by
  intro es
  induction es generalizing s with
  | nil => intro h; injection h with h; exact h ▸ hs
  | cons e es ih =>
    intro h
    obtain ⟨t, ht, hes⟩ := Outcome.bind_eq_next h
    exact ih (hs.step ht) hes

/-- An invariant along one schedule, with the schedule itself in the invariant:
    what the theorems about the *history* of a run are proved by. The induction
    is on the schedule from its end, because the history of a run grows
    there. -/
theorem exec_history (Inv : List ε → σ → Prop) {s₀ : σ} (hinit : Inv [] s₀)
    (hstep : ∀ es s e s', Inv es s → step s e = .next s' → Inv (es ++ [e]) s') :
    ∀ {es : List ε} {s : σ}, exec step s₀ es = .next s → Inv es s := by
  intro es
  induction es using List.reverseRecOn with
  | nil => intro s h; injection h with h; exact h ▸ hinit
  | append_singleton es e ih =>
    intro s h
    rw [exec_snoc] at h
    obtain ⟨t, ht, hs⟩ := Outcome.bind_eq_next h
    exact hstep es t e s (ih ht) hs

/-- **The simulation rule.** If a second system can do what the first does, one
    event at a time, it can do so along every schedule. -/
theorem exec_simulates {τ : Type u} {step' : τ → ε → Outcome τ} {R : σ → τ → Prop}
    (hstep : ∀ s t e s', R s t → step s e = .next s' → ∃ t', step' t e = .next t' ∧ R s' t') :
    ∀ {es : List ε} {s s' : σ} {t : τ}, R s t → exec step s es = .next s' →
      ∃ t', exec step' t es = .next t' ∧ R s' t' := by
  intro es
  induction es with
  | nil =>
    intro s s' t hR h
    injection h with h
    exact ⟨t, rfl, h ▸ hR⟩
  | cons e es ih =>
    intro s s' t hR h
    obtain ⟨s1, h1, hes⟩ := Outcome.bind_eq_next h
    obtain ⟨t1, ht1, hR1⟩ := hstep s t e s1 hR h1
    obtain ⟨t', ht', hR'⟩ := ih hR1 hes
    exact ⟨t', by rw [exec_cons, ht1, Outcome.bind_next, ht'], hR'⟩

/-- A schedule panics at one of its events: everything before it ran. -/
theorem exec_eq_panic {m : String} {s : σ} : ∀ {es : List ε}, exec step s es = .panic m →
      ∃ pre e post s', es = pre ++ e :: post ∧ exec step s pre = .next s' ∧
        step s' e = .panic m := by
  intro es
  induction es generalizing s with
  | nil => intro h; cases h
  | cons e es ih =>
    intro h
    rcases Outcome.bind_eq_panic h with hp | ⟨t, ht, hes⟩
    · exact ⟨[], e, es, s, rfl, rfl, hp⟩
    · obtain ⟨pre, e', post, s', rfl, hpre, hp⟩ := ih hes
      exact ⟨e :: pre, e', post, s', rfl, by simp [ht, hpre], hp⟩

end Runs

end Xv6
