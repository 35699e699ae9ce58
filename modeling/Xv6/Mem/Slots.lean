import Xv6.Lib.Gather
import Xv6.Mem.Phys

/-!
# A table of page owners

A table whose slots own pages: `owned` says which, from the slot and what is
known of it, and `Ok` says what holds of a slot when `G` is the rest of the
ledger. If `Ok` looks at the slot's own pages only, a change in one slot, or
outside the table, leaves the others as they are.
-/

namespace Xv6

open Function

variable {σ γ : Type} {n : Nat} {E : Env} {owned : σ → γ → List Nat}
  {Ok : Phys → List Nat → σ → γ → Prop}

/-- The rest of the ledger, seen from slot `i`. -/
def restOf (owned : σ → γ → List Nat) (slot : Fin n → σ) (g : Fin n → γ) (F : List Nat)
    (i : Fin n) : List Nat :=
  others (fun j => owned (slot j) (g j)) i ++ F

structure Slots (E : Env) (owned : σ → γ → List Nat) (Ok : Phys → List Nat → σ → γ → Prop)
    (s : Phys) (F : List Nat) (slot : Fin n → σ) (g : Fin n → γ) : Prop where
  acct : Acct E s.kmem (gather (fun i => owned (slot i) (g i)) ++ F)
  ok : ∀ i, Ok s (restOf owned slot g F i) (slot i) (g i)

/-- What holds of a slot depends on the memory of its own pages. -/
def Stable (E : Env) (owned : σ → γ → List Nat) (Ok : Phys → List Nat → σ → γ → Prop) : Prop :=
  ∀ s s' G G' o x, Ok s G o x → Acct E s'.kmem (owned o x ++ G') →
    (∀ p ∈ owned o x, s'.kmem.mem p = s.kmem.mem p) → Ok s' G' o x

namespace Slots

variable {s s' : Phys} {F F' : List Nat} {slot : Fin n → σ} {g : Fin n → γ} {i : Fin n}

theorem perm_at (owned : σ → γ → List Nat) (slot : Fin n → σ) (g : Fin n → γ) (F : List Nat)
    (i : Fin n) :
    (gather (fun j => owned (slot j) (g j)) ++ F).Perm
      (owned (slot i) (g i) ++ restOf owned slot g F i) := by
  unfold restOf
  rw [← List.append_assoc]
  exact (gather_perm _ i).append_right F

theorem acct_at (h : Slots E owned Ok s F slot g) (i : Fin n) :
    Acct E s.kmem (owned (slot i) (g i) ++ restOf owned slot g F i) := h.acct.perm (perm_at ..)

theorem mem_restOf {j : Fin n} {p : Nat} (hj : j ≠ i) (hp : p ∈ owned (slot j) (g j)) :
    p ∈ restOf owned slot g F i :=
  List.mem_append_left _ (mem_others (f := fun j => owned (slot j) (g j)) hj hp)

theorem frame (hst : Stable E owned Ok) (h : Slots E owned Ok s F slot g)
    (hacct : Acct E s'.kmem (gather (fun i => owned (slot i) (g i)) ++ F'))
    (hmem : ∀ p ∈ gather (fun i => owned (slot i) (g i)), s'.kmem.mem p = s.kmem.mem p) :
    Slots E owned Ok s' F' slot g where
  acct := hacct
  ok := fun j => hst _ _ _ _ _ _ (h.ok j) (hacct.perm (perm_at ..)) fun p hp =>
    hmem p (mem_gather (f := fun i => owned (slot i) (g i)) hp)

/-- **One slot changes**, and the memory of the others does not. -/
theorem put (hst : Stable E owned Ok) (h : Slots E owned Ok s F slot g) {o : σ} {x : γ}
    (hacct : Acct E s'.kmem (owned o x ++ restOf owned slot g F' i))
    (hmem : ∀ j, j ≠ i → ∀ p ∈ owned (slot j) (g j), s'.kmem.mem p = s.kmem.mem p)
    (hok : Ok s' (restOf owned slot g F' i) o x) :
    Slots E owned Ok s' F' (update slot i o) (update g i x) := by
  have hothers : others (fun j => owned (update slot i o j) (update g i x j)) i
      = others (fun j => owned (slot j) (g j)) i :=
    others_congr fun j hj => by rw [update_of_ne hj, update_of_ne hj]
  have hrest : restOf owned (update slot i o) (update g i x) F' i
      = restOf owned slot g F' i := congrArg (· ++ F') hothers
  have hacct' : Acct E s'.kmem
      (gather (fun j => owned (update slot i o j) (update g i x j)) ++ F') := by
    refine hacct.perm (List.Perm.symm ?_)
    have := perm_at owned (update slot i o) (update g i x) F' i
    rwa [update_self, update_self, hrest] at this
  refine ⟨hacct', fun j => ?_⟩
  by_cases hj : j = i
  · subst hj
    rw [update_self, update_self, hrest]
    exact hok
  · have hacctj := hacct'.perm (perm_at owned (update slot i o) (update g i x) F' j)
    rw [update_of_ne hj, update_of_ne hj] at hacctj ⊢
    exact hst _ _ _ _ _ _ (h.ok j) hacctj (hmem j hj)

end Slots

end Xv6
