import Xv6.Lib.Run

/-!
# Sequential kernel code

A C function that reads and writes a state, may call `panic`, and otherwise
returns a value is a `Sys σ α`. A call that does not return at all — it waits
for a lock its own thread holds — is `hang`, which is not a panic: nothing is
reported and nothing more happens. Nor does anything happen after `overflow`:
the trap handler runs on the stack that has no room left.

Proofs about such code go through three lemmas and never unfold the monad:
`bind_of_ok` runs the next statement once the first has been shown to return,
`bind_eq_ok` takes a finished call apart, and `bind_of_error` propagates a stop.
What a call may do to the state at all, `Within R`, follows from the shape of
its text.
-/

namespace Xv6

/-- Why a call did not return a value. -/
inductive Stop where
  | panic (msg : String)
  | hang
  | overflow
  deriving DecidableEq, Repr

/-- A function of the kernel on the state `σ`. -/
def Sys (σ α : Type) : Type := σ → Except Stop (α × σ)

namespace Sys

variable {σ α β : Type}

instance : Monad (Sys σ) where
  pure a := fun s => .ok (a, s)
  bind x f := fun s =>
    match x s with
    | .ok (a, s') => f a s'
    | .error e => .error e

/-- `panic(msg)` -/
def panic (msg : String) : Sys σ α := fun _ => .error (.panic msg)

/-- A wait that nothing will end. -/
def hang : Sys σ α := fun _ => .error .hang

/-- The kernel stack does not suffice: a store hits the guard page below it. -/
def overflow : Sys σ α := fun _ => .error .overflow

/-- Read something off the state. -/
def reads (f : σ → α) : Sys σ α := fun s => .ok (f s, s)

/-- Change the state. -/
def modify (f : σ → σ) : Sys σ Unit := fun s => .ok ((), f s)

/-- Run a call that works on part of the state. -/
def zoom {τ : Type} (get : σ → τ) (set : τ → σ → σ) (x : Sys τ α) : Sys σ α := fun s =>
  match x (get s) with
  | .ok (a, t) => .ok (a, set t s)
  | .error e => .error e

variable {a : α} {f : α → Sys σ β} {s s' : σ} {x : Sys σ α} {τ : Type}

theorem zoom_of_ok {get : σ → τ} {set : τ → σ → σ} {x : Sys τ α} {t : τ}
    (h : x (get s) = .ok (a, t)) : zoom get set x s = .ok (a, set t s) := by
  unfold zoom
  rw [h]

theorem zoom_of_error {get : σ → τ} {set : τ → σ → σ} {x : Sys τ α} {e : Stop}
    (h : x (get s) = .error e) : zoom get set x s = .error e := by
  unfold zoom
  rw [h]

theorem zoom_eq_ok {get : σ → τ} {set : τ → σ → σ} {x : Sys τ α}
    (h : zoom get set x s = .ok (a, s')) : ∃ t, x (get s) = .ok (a, t) ∧ s' = set t s := by
  unfold zoom at h
  split at h
  · rename_i b t hx
    injection h with h
    injection h with hb ht
    exact ⟨t, by rw [hx, hb], ht.symm⟩
  · cases h

@[simp] theorem pure_run (a : α) (s : σ) : (pure a : Sys σ α) s = .ok (a, s) := rfl
@[simp] theorem modify_run (f : σ → σ) (s : σ) : modify f s = .ok ((), f s) := rfl

theorem bind_run (x : Sys σ α) (f : α → Sys σ β) (s : σ) : (x >>= f) s = match x s with
      | .ok (a, s') => f a s'
      | .error e => .error e := rfl

theorem bind_of_ok (h : x s = .ok (a, s')) : (x >>= f) s = f a s' := by rw [bind_run, h]

theorem bind_of_error {e : Stop} (h : x s = .error e) :
    (x >>= f) s = .error e := by rw [bind_run, h]

/-- **A finished sequence is two finished calls.** -/
theorem bind_eq_ok {r : β × σ} :
    (x >>= f) s = .ok r ↔ ∃ a s', x s = .ok (a, s') ∧ f a s' = .ok r := by
  rw [bind_run]
  cases hx : x s with
  | error e => simp
  | ok y =>
    obtain ⟨a, s'⟩ := y
    constructor
    · intro h; exact ⟨a, s', rfl, h⟩
    · rintro ⟨a', s'', h, hf⟩
      injection h with h
      injection h with h1 h2
      rw [h1, h2]
      exact hf

@[simp] theorem pure_bind_run (a : α) (f : α → Sys σ β) (s : σ) : (pure a >>= f) s = f a s := rfl
@[simp] theorem reads_bind_run (g : σ → α) (f : α → Sys σ β) (s : σ) :
    (reads g >>= f) s = f (g s) s := rfl
@[simp] theorem modify_bind_run (g : σ → σ) (f : Unit → Sys σ β) (s : σ) :
    (modify g >>= f) s = f () (g s) := rfl
/-- The call as one event of a larger system; one that does not return has no
    later state. -/
def outcome {τ : Type} (x : Sys σ α) (s : σ) (k : α → σ → Outcome τ) : Outcome τ :=
  match x s with
  | .ok (a, s') => k a s'
  | .error (.panic m) => .panic m
  | .error .hang => .panic "hang"
  | .error .overflow => .disabled

theorem outcome_of_ok {k : α → σ → Outcome τ} (h : x s = .ok (a, s')) : x.outcome s k = k a s' := by
  unfold outcome
  rw [h]

theorem outcome_eq_next {k : α → σ → Outcome τ} {t : τ} (h : x.outcome s k = .next t) :
    ∃ a s', x s = .ok (a, s') ∧ k a s' = .next t := by
  unfold outcome at h
  split at h
  · rename_i a s' hx
    exact ⟨a, s', hx, h⟩
  all_goals cases h

theorem outcome_of_overflow {k : α → σ → Outcome τ} (h : x s = .error .overflow) :
    x.outcome s k = .disabled := by
  unfold outcome
  rw [h]

/-! ## Calls on fixed inputs -/

/-- Whether the call returns, with a value and a state that pass the test. -/
def check (x : Sys σ α) (s : σ) (t : α → σ → Bool) : Bool :=
  match x s with
  | .ok (a, s') => t a s'
  | .error _ => false

theorem exists_of_check {t : α → σ → Bool} (h : x.check s t = true) :
    ∃ a s', x s = .ok (a, s') ∧ t a s' = true := by
  unfold check at h
  split at h
  · rename_i a s' hx
    exact ⟨a, s', hx, h⟩
  · cases h

/-- How the call stops, if it does not return. -/
def stopOf (x : Sys σ α) (s : σ) : Option Stop :=
  match x s with
  | .ok _ => none
  | .error e => some e

theorem eq_error_of_stopOf {e : Stop} (h : x.stopOf s = some e) : x s = .error e := by
  unfold stopOf at h
  split at h
  · cases h
  · rename_i e' hx
    cases h
    exact hx

/-! ## What a call may do to the state -/

/-- If the call returns, what it did to the state is within `R`. -/
def Within (R : σ → σ → Prop) (x : Sys σ α) : Prop := ∀ s a s', x s = .ok (a, s') → R s s'

namespace Within

variable {R : σ → σ → Prop}

theorem pure [IsPreorder σ R] (a : α) : Within R (Pure.pure a : Sys σ α) := by
  intro s a s' h
  cases h
  exact refl_of R s

theorem reads [IsPreorder σ R] (f : σ → α) : Within R (Sys.reads f) := by
  intro s a s' h
  cases h
  exact refl_of R s

theorem panic (m : String) : Within R (Sys.panic m : Sys σ α) := by
  intro s a s' h
  cases h

theorem modify {f : σ → σ} (hf : ∀ s, R s (f s)) : Within R (Sys.modify f) := by
  intro s a s' h
  cases h
  exact hf s

theorem bind [IsPreorder σ R] {x : Sys σ α} {f : α → Sys σ β} (hx : Within R x)
    (hf : ∀ a, Within R (f a)) : Within R (x >>= f) := by
  intro s b s'' h
  obtain ⟨a, s', h1, h2⟩ := bind_eq_ok.mp h
  exact trans_of R (hx s a s' h1) (hf a s' b s'' h2)

theorem bind_option [IsPreorder σ R] {x : Sys σ (Option α)} {f : Option α → Sys σ β}
    (hx : Within R x) (hnone : Within R (f none)) (hsome : ∀ a, Within R (f (some a))) :
    Within R (x >>= f) := by
  refine hx.bind fun o => ?_
  cases o with
  | none => exact hnone
  | some a => exact hsome a

theorem ite {c : Prop} [Decidable c] {x y : Sys σ α} (hx : Within R x) (hy : Within R y) :
    Within R (if c then x else y) := by
  split
  · exact hx
  · exact hy

theorem zoom {τ : Type} {get : σ → τ} {set : τ → σ → σ} (hset : ∀ t s, R s (set t s))
    (x : Sys τ α) : Within R (Sys.zoom get set x) := by
  intro s a s' h
  unfold Sys.zoom at h
  split at h
  · cases h
    exact hset _ s
  · cases h

end Within

end Sys

end Xv6
