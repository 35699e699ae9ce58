import Xv6.Lib.Sys

/-!
# A call with an assertion, beside the call without it

Two texts of one call differ in a single place: where one counts an event and
goes on, the other has an assertion that stops it. `Tracks bad x₁ x₀` says that
the text with the assertion does what the other does as long as nothing is
counted, stops if anything is, and that a run that counted something returns a
`bad` value. The rules follow the text of the call, so a function is related by
relating what it calls.
-/

namespace Xv6.Sys

variable {σ τ α β : Type}

/-- Every value that the call can return satisfies `P`. -/
def Always (P : α → Prop) (x : Sys σ α) : Prop := ∀ s a s', x s = .ok (a, s') → P a

namespace Always

variable {P : α → Prop} {Q : β → Prop}

theorem pure {a : α} (h : P a) : Always P (Pure.pure a : Sys σ α) := by
  intro s b s' hrun
  cases hrun
  exact h

theorem bind {x : Sys σ α} {f : α → Sys σ β} (h : ∀ a, Always Q (f a)) : Always Q (x >>= f) := by
  intro s b s' hrun
  obtain ⟨a, s1, _, hf⟩ := bind_eq_ok.mp hrun
  exact h a s1 b s' hf

theorem ite {c : Prop} [Decidable c] {x y : Sys σ α} (hx : c → Always P x)
    (hy : ¬ c → Always P y) : Always P (if c then x else y) := by
  split
  · exact hx ‹_›
  · exact hy ‹_›

end Always

/-- What the two texts are compared by: what holds between their statements, how
    many events the first has counted, and how the second stops. -/
structure Guard (σ : Type) where
  inv : σ → Prop
  count : σ → Nat
  stop : Stop

/-- `x₁` is `x₀` with the assertion. -/
structure Tracks (G : Guard σ) (bad : α → Prop) (x₁ x₀ : Sys σ α) : Prop where
  run : ∀ s a s', G.inv s → x₀ s = .ok (a, s') → G.inv s' ∧
    (G.count s' = G.count s ∧ x₁ s = .ok (a, s') ∨
      G.count s < G.count s' ∧ bad a ∧ x₁ s = .error G.stop)

/-- Nothing is counted, so the two do the same. -/
abbrev Same (G : Guard σ) (x₁ x₀ : Sys σ α) : Prop := Tracks G (fun _ => False) x₁ x₀

namespace Tracks

variable {G : Guard σ} {bad bad' : α → Prop} {bad2 : β → Prop}

variable {x₀ x₁ : Sys σ α}

theorem mono (h : Tracks G bad x₁ x₀) (hbad : ∀ a, bad a → bad' a) : Tracks G bad' x₁ x₀ := by
  refine ⟨fun s a s' hs hrun => ?_⟩
  obtain ⟨hs', hcase⟩ := h.run s a s' hs hrun
  exact ⟨hs', hcase.imp_right fun ⟨hlt, ha, hstop⟩ => ⟨hlt, hbad a ha, hstop⟩⟩

theorem of_same (h : Same G x₁ x₀) : Tracks G bad x₁ x₀ :=
  h.mono fun _ hf => hf.elim

theorem refl {x : Sys σ α}
    (h : ∀ s a s', G.inv s → x s = .ok (a, s') → G.inv s' ∧ G.count s' = G.count s) :
    Tracks G bad x x := by
  refine ⟨fun s a s' hs hrun => ?_⟩
  obtain ⟨hs', hcount⟩ := h s a s' hs hrun
  exact ⟨hs', .inl ⟨hcount, hrun⟩⟩

theorem pure (a : α) : Tracks G bad (Pure.pure a) (Pure.pure a) := by
  apply refl
  intro s b s' hs hrun
  cases hrun
  exact ⟨hs, rfl⟩

theorem reads (f : σ → α) : Tracks G bad (Sys.reads f) (Sys.reads f) := by
  apply refl
  intro s b s' hs hrun
  cases hrun
  exact ⟨hs, rfl⟩

theorem panic (m : String) : Tracks G bad (Sys.panic m) (Sys.panic m) := by
  refine ⟨fun s a s' _ hrun => ?_⟩
  cases hrun

theorem hang : Tracks G bad Sys.hang Sys.hang := by
  refine ⟨fun s a s' _ hrun => ?_⟩
  cases hrun

theorem modify {f : σ → σ} {bad : Unit → Prop}
    (hf : ∀ s, G.inv s → G.inv (f s) ∧ G.count (f s) = G.count s) :
    Tracks G bad (Sys.modify f) (Sys.modify f) := by
  apply refl
  intro s b s' hs hrun
  cases hrun
  exact hf s hs

/-- **Two statements**: if the first may have counted something, the rest can
    only return a bad value. -/
theorem bind {f1 f0 : α → Sys σ β} (hx : Tracks G bad x₁ x₀)
    (hf : ∀ a, Tracks G bad2 (f1 a) (f0 a)) (hbad : ∀ a, bad a → Always bad2 (f0 a)) :
    Tracks G bad2 (x₁ >>= f1) (x₀ >>= f0) := by
  refine ⟨fun s b s'' hs hrun => ?_⟩
  obtain ⟨a, s', hrun1, hrun2⟩ := bind_eq_ok.mp hrun
  obtain ⟨hs', hcase⟩ := hx.run s a s' hs hrun1
  obtain ⟨hs'', hcase'⟩ := (hf a).run s' b s'' hs' hrun2
  refine ⟨hs'', ?_⟩
  rcases hcase with ⟨hcount, hx1⟩ | ⟨hlt, ha, hstop⟩
  · rw [bind_of_ok hx1, ← hcount]
    exact hcase'
  · refine .inr ⟨?_, hbad a ha s' b s'' hrun2, bind_of_error hstop⟩
    rcases hcase' with ⟨hcount, _⟩ | ⟨hlt', _⟩
    · rw [hcount]
      exact hlt
    · exact Nat.lt_trans hlt hlt'

/-- Two statements, the first of which counts nothing. -/
theorem bind_same {f1 f0 : α → Sys σ β} (hx : Same G x₁ x₀)
    (hf : ∀ a, Tracks G bad2 (f1 a) (f0 a)) : Tracks G bad2 (x₁ >>= f1) (x₀ >>= f0) :=
  hx.bind hf fun _ hf => hf.elim

theorem option {f1 f0 : Option α → Sys σ β} (hnone : Tracks G bad2 (f1 none) (f0 none))
    (hsome : ∀ a, Tracks G bad2 (f1 (some a)) (f0 (some a))) (o : Option α) :
    Tracks G bad2 (f1 o) (f0 o) := by
  cases o with
  | none => exact hnone
  | some a => exact hsome a

/-- Two statements, the first of which returns `none` if it counted
    something. -/
theorem bind_option {x₁ x₀ : Sys σ (Option α)} {f1 f0 : Option α → Sys σ β}
    (hx : Tracks G (· = none) x₁ x₀) (hnone : Tracks G bad2 (f1 none) (f0 none))
    (hbad : Always bad2 (f0 none)) (hsome : ∀ a, Tracks G bad2 (f1 (some a)) (f0 (some a))) :
    Tracks G bad2 (x₁ >>= f1) (x₀ >>= f0) := by
  refine hx.bind (option hnone hsome) fun o ho => ?_
  subst ho
  exact hbad

theorem ite {c : Prop} [Decidable c] {y1 y0 : Sys σ α} (hx : Tracks G bad x₁ x₀)
    (hy : Tracks G bad y1 y0) :
    Tracks G bad (if c then x₁ else y1) (if c then x₀ else y0) := by
  split
  · exact hx
  · exact hy

/-- Two statements, the second of which is `y` if the first counted
    something. -/
theorem bind_ite {c : α → Prop} [DecidablePred c] {y1 y0 z1 z0 : α → Sys σ β}
    (hx : Tracks G bad x₁ x₀) (hc : ∀ a, bad a → c a) (hy : ∀ a, Tracks G bad2 (y1 a) (y0 a))
    (hbad : ∀ a, Always bad2 (y0 a)) (hz : ∀ a, Tracks G bad2 (z1 a) (z0 a)) :
    Tracks G bad2 (x₁ >>= fun a => if c a then y1 a else z1 a)
      (x₀ >>= fun a => if c a then y0 a else z0 a) := by
  refine hx.bind (fun a => (hy a).ite (hz a)) fun a ha => ?_
  rw [if_pos (hc a ha)]
  exact hbad a

theorem zoom {H : Guard τ} {get : σ → τ} {set : τ → σ → σ} (hinv : ∀ s, G.inv s ↔ H.inv (get s))
    (hcount : ∀ s, G.count s = H.count (get s)) (hstop : G.stop = H.stop)
    (hget : ∀ t s, get (set t s) = t) {x₁ x₀ : Sys τ α} (hx : Tracks H bad x₁ x₀) :
    Tracks G bad (Sys.zoom get set x₁) (Sys.zoom get set x₀) := by
  refine ⟨fun s a s' hs hrun => ?_⟩
  unfold Sys.zoom at hrun ⊢
  split at hrun
  · rename_i t ht
    cases hrun
    obtain ⟨ht', hcase⟩ := hx.run _ a t ((hinv s).mp hs) ht
    rw [hinv, hcount, hcount, hget, hstop]
    refine ⟨ht', hcase.imp (fun ⟨hc, hrun⟩ => ⟨hc, ?_⟩) fun ⟨hlt, hb, hrun⟩ => ⟨hlt, hb, ?_⟩⟩
    · rw [hrun]
    · rw [hrun]
  · cases hrun

end Tracks

end Xv6.Sys
