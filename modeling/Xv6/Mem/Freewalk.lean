import Xv6.Mem.Walk

/-!
# Freeing a page table

`freewalk` wants a page table with no page mapped, and on one it frees every
table once and returns. The induction is on the level; inside a table it is on
the entries still to be looked at, with the pages of their trees in the ledger
and the table itself.
-/

namespace Xv6

open List Sys Nat

variable {E : Env}

open PageTree

/-! ## When nothing is mapped -/

theorem pte_congr {l a b : Nat} {t : PageTree l} (h : SameSlot l a b) : t.pte a = t.pte b := by
  induction t with
  | absent => rfl
  | leaves pa e =>
    have : px 0 a = px 0 b := Fin.ext (h 0 le_rfl)
    simp only [pte, this]
  | @node l pa kid ih =>
    have : px (l + 1) a = px (l + 1) b := Fin.ext (h (l + 1) le_rfl)
    simp only [pte, this]
    exact ih _ fun i hi => h i (by omega)

/-- The bits above a level do not reach the indices below it. -/
theorem PX_high (l i c : Nat) : ∀ j ≤ l, PX j (i * 2 ^ (12 + 9 * (l + 1)) + c) = PX j c := by
  intro j hj
  have hpow : 2 ^ (12 + 9 * (l + 1)) = 2 ^ (12 + 9 * j) * (512 * 2 ^ (9 * (l - j))) := by
    rw [show (512 : Nat) = 2 ^ 9 from rfl, ← Nat.pow_add, ← Nat.pow_add]
    congr 1
    omega
  rw [PX_eq, PX_eq, hpow, Nat.mul_left_comm, mul_add_div (Nat.two_pow_pos _), Nat.mul_left_comm,
    mul_add_mod]

theorem bare_of_pte {l : Nat} {t : PageTree l} (h : ∀ b < 2 ^ (12 + 9 * (l + 1)), t.pte b = 0) :
    t.Bare := by
  induction t with
  | absent => trivial
  | leaves pa e =>
    intro i
    have hi := h (i * 2 ^ 12) (by omega)
    have hpx : px 0 (i * 2 ^ 12) = i := Fin.ext (by change PX 0 _ = _; rw [PX_eq]; omega)
    simpa only [pte, hpx] using hi
  | @node l pa kid ih =>
    refine fun i => ih i fun c hc => ?_
    have hlt : i * 2 ^ (12 + 9 * (l + 1)) + c < 2 ^ (12 + 9 * (l + 1 + 1)) := by
      have hp : 2 ^ (12 + 9 * (l + 1 + 1)) = 512 * 2 ^ (12 + 9 * (l + 1)) := by
        rw [show (512 : Nat) = 2 ^ 9 from rfl, ← Nat.pow_add]
        congr 1
        omega
      have hmul : (i.val + 1) * 2 ^ (12 + 9 * (l + 1)) ≤ 512 * 2 ^ (12 + 9 * (l + 1)) :=
        Nat.mul_le_mul_right _ (by omega)
      rw [Nat.add_mul, Nat.one_mul] at hmul
      omega
    have hpx : px (l + 1) (i * 2 ^ (12 + 9 * (l + 1)) + c) = i := Fin.ext (by
      change PX (l + 1) _ = _
      rw [PX_eq, Nat.mul_comm, mul_add_div (Nat.two_pow_pos _), div_eq_of_lt hc]
      omega)
    have := h _ hlt
    simp only [pte, hpx] at this
    rwa [pte_congr (PX_high l i c)] at this

/-! ## `freewalk` -/

theorem nodup_entries : entries.Nodup := by
  unfold entries
  exact nodup_finRange 512

theorem flatMap_entries (f : Fin 512 → List Nat) : entries.flatMap f = gather f := by
  unfold entries
  rfl

theorem freeEntries_empty {rec : Nat → Sys Phys Unit} {s : Phys} {pa : Nat} {is : List (Fin 512)}
    (h : ∀ i ∈ is, pteAt s.kmem.mem pa i = 0) : freeEntries rec pa is s = .ok ((), s) := by
  induction is with
  | nil => rfl
  | cons i is ih =>
    simp only [freeEntries, loadPte, reads_bind_run, h i mem_cons_self]
    rw [if_neg (by simp), if_neg (by simp)]
    exact ih fun j hj => h j (mem_cons_of_mem _ hj)

/-- What freeing the pages `P` leaves, the rest of the ledger being `F`. -/
structure Freed (E : Env) (s : Phys) (P F : List Nat) (s' : Phys) : Prop where
  acct : Acct E s'.kmem F
  frame : ∀ p ∈ F, s'.kmem.mem p = s.kmem.mem p
  freed : ∃ L : List Nat, s'.freed = s.freed ++ L ∧ L.Perm P

/-- The entries of a table above level 0, given what the recursive call does. -/
theorem freeEntries_spec {rec : Nat → Sys Phys Unit} {l pa : Nat} {kid : Fin 512 → PageTree l}
    (hrec : ∀ i s F, kid i ≠ absent → (kid i).Rep s.kmem.mem →
      Acct E s.kmem ((kid i).pages ++ F) →
      ∃ s', rec (kid i).pa s = .ok ((), s') ∧ Freed E s (kid i).pages F s') :
    ∀ {is : List (Fin 512)} {s : Phys} {F : List Nat}, is.Nodup →
      (∀ i ∈ is, pteAt s.kmem.mem pa i = (kid i).link ∧ (kid i).Rep s.kmem.mem) →
      Acct E s.kmem ((is.flatMap fun i => (kid i).pages) ++ pa :: F) →
      ∃ s', freeEntries rec pa is s = .ok ((), s') ∧ Acct E s'.kmem (pa :: F) ∧
        (∀ p ∈ F, s'.kmem.mem p = s.kmem.mem p) ∧
        ∃ L : List Nat, s'.freed = s.freed ++ L ∧ L.Perm (is.flatMap fun i => (kid i).pages) := by
  intro is
  induction is with
  | nil =>
    intro s F _ _ hacct
    exact ⟨s, rfl, hacct, fun _ _ => rfl, [], (append_nil _).symm, List.Perm.refl _⟩
  | cons i is ih =>
    intro s F hnd hrep hacct
    obtain ⟨hi, hnd'⟩ := nodup_cons.mp hnd
    obtain ⟨hlink, hkid⟩ := hrep i mem_cons_self
    rw [flatMap_cons, append_assoc] at hacct
    simp only [freeEntries, loadPte, reads_bind_run, hlink]
    by_cases hk : kid i = absent
    · rw [if_neg (by simp [hk, link]), if_neg (by simp [hk, link])]
      rw [hk] at hacct
      have := ih hnd' (fun j hj => hrep j (mem_cons_of_mem _ hj)) hacct
      rwa [flatMap_cons, hk]
    · have hpg : PageAddr (kid i).pa :=
        (hacct.page_of_mem (mem_append_left _ (pa_mem_pages hk))).pageAddr
      have hdir : (kid i).link &&& (PTE_R ||| PTE_W ||| PTE_X) = 0 := by
        rw [link_of_ne hk, mkPte_and (by decide) (by decide)]
        decide
      rw [if_pos ⟨link_valid hk, hdir⟩, link_pa hk hpg]
      obtain ⟨s1, hrun, hfr⟩ := hrec i s _ hk hkid hacct
      obtain ⟨L, hL, hLp⟩ := hfr.freed
      rw [bind_of_ok hrun]
      simp only [storePte, modify_bind_run]
      -- the entry is cleared in the table only, whose page is none of the trees'
      obtain ⟨_, _, hdis⟩ := nodup_append.mp hfr.acct.nodup_owned
      have hout : ∀ p, p ≠ pa → setPte s1.kmem.mem pa i 0 p = s1.kmem.mem p := fun p hp =>
        setPte_other _ _ _ hp
      have hrep' : ∀ j ∈ is, pteAt (setPte s1.kmem.mem pa i 0) pa j = (kid j).link ∧
          (kid j).Rep (setPte s1.kmem.mem pa i 0) := by
        intro j hj
        have hji : j ≠ i := fun e => hi (e ▸ hj)
        have hmem : ∀ p ∈ (kid j).pages, p ∈ is.flatMap fun i => (kid i).pages := fun p hp =>
          mem_flatMap.mpr ⟨j, hj, hp⟩
        obtain ⟨h1, h2⟩ := hrep j (mem_cons_of_mem _ hj)
        constructor
        · rw [pteAt_setPte_ne _ _ _ hji, pteAt_congr (hfr.frame pa (by simp)), h1]
        · refine h2.congr fun p hp => ?_
          rw [hout p fun e => hdis p (hmem p hp) pa mem_cons_self e]
          exact hfr.frame p (mem_append_left _ (hmem p hp))
      obtain ⟨s', hrun', hacct', hframe', L', hL', hLp'⟩ :=
        ih (s := s1.setMem (setPte s1.kmem.mem pa i 0)) hnd' hrep' (hfr.acct.congr rfl rfl rfl rfl)
      refine ⟨s', hrun', hacct', fun p hp => ?_, L ++ L', ?_, ?_⟩
      · have hpne : p ≠ pa := fun e => by
          have := (nodup_cons.mp (nodup_append.mp hfr.acct.nodup_owned).2.1).1
          exact this (e ▸ hp)
        rw [hframe' p hp]
        refine (hout p hpne).trans (hfr.frame p ?_)
        exact mem_append_right _ (mem_cons_of_mem _ hp)
      · rw [hL']
        change s1.freed ++ L' = _
        rw [hL, append_assoc]
      · rw [flatMap_cons]
        exact hLp.append hLp'

/-- **`freewalk` on a page table with nothing mapped** frees each of its tables
    once. -/
theorem freewalk_spec (hE : E.Ok) : ∀ {l : Nat} {t : PageTree l} {s : Phys} {F : List Nat},
    t ≠ absent → t.Rep s.kmem.mem → t.Bare → Acct E s.kmem (t.pages ++ F) →
    ∃ s', freewalk E (l + 1) t.pa s = .ok ((), s') ∧ Freed E s t.pages F s' := by
  intro l t
  induction t with
  | absent => exact fun h => absurd rfl h
  | leaves pa e =>
    intro s F _ hrep hbare hacct
    obtain ⟨s', hrun, hacct', hmem, hfreed, _⟩ := kfreePage_spec hE hacct
    have hempty : ∀ i ∈ entries, pteAt s.kmem.mem pa i = 0 := fun i _ =>
      (hrep i).trans (hbare i)
    refine ⟨s', ?_, hacct', fun p hp => hmem p ?_, [pa], hfreed, List.Perm.refl _⟩
    · rw [freewalk]
      refine (bind_of_ok (freeEntries_empty hempty)).trans ?_
      exact hrun
    · rintro rfl
      exact (nodup_cons.mp hacct.nodup_owned).1 hp
  | @node l pa kid ih =>
    intro s F _ hrep hbare hacct
    obtain ⟨s1, hrun1, hacct1, hframe1, L, hL, hLp⟩ := freeEntries_spec (E := E)
      (fun i s F hk hr ha => ih i hk hr (hbare i) ha) nodup_entries
      (fun i _ => hrep i) (by rw [flatMap_entries]; exact hacct.perm perm_middle.symm)
    obtain ⟨s', hrun, hacct', hmem, hfreed, _⟩ := kfreePage_spec hE hacct1
    refine ⟨s', ?_, hacct', fun p hp => ?_, L ++ [pa], ?_, ?_⟩
    · rw [freewalk]
      refine (bind_of_ok hrun1).trans ?_
      exact hrun
    · rw [hmem p fun e => (nodup_cons.mp hacct1.nodup_owned).1 (e ▸ hp), hframe1 p hp]
    · rw [hfreed, hL, append_assoc]
    · rw [flatMap_entries] at hLp
      exact (hLp.append_right [pa]).trans (perm_append_singleton pa _)

end Xv6
