import Xv6.Lib.Sys

/-!
# Preconditions of calls

`x.wp s Q X`: from the state `s` the call `x` returns with a value and a state
for which `Q` holds, or it stops in a way that `X` allows. With `X` false it
says that the call returns; with `X` true it says nothing about panics. The
rules follow the constructs of the monad, so a function's specification is put
together from those of the functions it calls.
-/

namespace Xv6
namespace Sys

variable {σ α β : Type}

def wp (x : Sys σ α) (s : σ) (Q : α → σ → Prop) (X : Stop → Prop) : Prop :=
  match x s with
  | .ok (a, s') => Q a s'
  | .error e => X e

section Rules

variable {x : Sys σ α} {s : σ} {Q Q' : α → σ → Prop} {X X' : Stop → Prop}

theorem wp_of_ok {a : α} {s' : σ} (hx : x s = .ok (a, s')) (h : Q a s') : x.wp s Q X := by
  unfold wp
  rw [hx]
  exact h

theorem wp.ok {a : α} {s' : σ} (h : x.wp s Q X) (hx : x s = .ok (a, s')) : Q a s' := by
  unfold wp at h
  rw [hx] at h
  exact h

theorem wp.stop {e : Stop} (h : x.wp s Q X) (hx : x s = .error e) : X e := by
  unfold wp at h
  rw [hx] at h
  exact h

/-- A call that is not allowed to stop returns. -/
theorem wp.returns (h : x.wp s Q fun _ => False) : ∃ a s', x s = .ok (a, s') ∧ Q a s' := by
  cases hx : x s with
  | error e => exact (h.stop hx).elim
  | ok r => exact ⟨r.1, r.2, rfl, h.ok hx⟩

theorem wp.mono (h : x.wp s Q X) (hQ : ∀ a s', Q a s' → Q' a s') (hX : ∀ e, X e → X' e) :
    x.wp s Q' X' := by
  unfold wp at *
  split
  · rename_i hx
    rw [hx] at h
    exact hQ _ _ h
  · rename_i hx
    rw [hx] at h
    exact hX _ h

theorem wp.imp (h : x.wp s Q X) (hQ : ∀ a s', Q a s' → Q' a s') : x.wp s Q' X :=
  h.mono hQ fun _ he => he

theorem wp.and (h : x.wp s Q X) (h' : x.wp s Q' X') :
    x.wp s (fun a s' => Q a s' ∧ Q' a s') fun e => X e ∧ X' e := by
  unfold wp at *
  split
  · rename_i hx
    rw [hx] at h h'
    exact ⟨h, h'⟩
  · rename_i hx
    rw [hx] at h h'
    exact ⟨h, h'⟩

theorem wp_pure {a : α} (h : Q a s) : (pure a : Sys σ α).wp s Q X := h

theorem wp_panic {m : String} (h : X (.panic m)) : (panic m : Sys σ α).wp s Q X := h

theorem wp_hang (h : X .hang) : (hang : Sys σ α).wp s Q X := h

theorem wp_reads {f : σ → α} (h : Q (f s) s) : (reads f).wp s Q X := h

theorem wp_modify {f : σ → σ} {Q : Unit → σ → Prop} (h : Q () (f s)) : (modify f).wp s Q X := h

/-- **Sequencing.** -/
theorem wp_bind {f : α → Sys σ β} {Q : β → σ → Prop}
    (h : x.wp s (fun a s' => (f a).wp s' Q X) X) : (x >>= f).wp s Q X := by
  unfold wp at h
  cases hx : x s with
  | error e =>
    rw [hx] at h
    unfold wp
    rw [bind_of_error hx]
    exact h
  | ok r =>
    rw [hx] at h
    unfold wp
    rw [bind_of_ok hx]
    exact h

theorem wp.bind {f : α → Sys σ β} {R : β → σ → Prop} (h : x.wp s Q X)
    (hf : ∀ a s', Q a s' → (f a).wp s' R X) : (x >>= f).wp s R X :=
  wp_bind (h.imp hf)

theorem wp_ite {c : Prop} [Decidable c] {y : Sys σ α} (ht : c → x.wp s Q X)
    (he : ¬ c → y.wp s Q X) : (if c then x else y).wp s Q X := by
  split
  · rename_i hc
    exact ht hc
  · rename_i hc
    exact he hc

theorem wp_zoom {τ : Type} {get : σ → τ} {set : τ → σ → σ} {y : Sys τ α}
    (h : y.wp (get s) (fun a t => Q a (set t s)) X) : (zoom get set y).wp s Q X := by
  unfold wp at *
  cases hy : y (get s) with
  | error e =>
    rw [hy] at h
    simp only [zoom, hy]
    exact h
  | ok r =>
    rw [hy] at h
    simp only [zoom, hy]
    exact h

/-- Partial correctness: what holds if the call returns. -/
abbrev post (x : Sys σ α) (s : σ) (Q : α → σ → Prop) : Prop := x.wp s Q fun _ => True

theorem post_of_forall (h : ∀ a s', x s = .ok (a, s') → Q a s') : x.post s Q := by
  unfold post wp
  split
  · rename_i a s' hx
    exact h a s' hx
  · trivial

theorem Within.post {R : σ → σ → Prop} (h : Within R x) (s : σ) : x.post s fun _ s' => R s s' :=
  post_of_forall (h s)

end Rules

end Sys
end Xv6
