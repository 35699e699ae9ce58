import Mathlib.Data.Fintype.Basic
import Xv6.Proc.Kin

/-!
# No exit is lost and no child is reaped twice

The proof outline of `fork`, `exit` and `wait` under `wait_lock`. `exit` calls
`wakeup(p->parent)` before it becomes a zombie, and that is in order: nobody can
have gone to sleep in `wait` in between, because the lock is held
(`carries_zombie`). The one effect of a `wait` that finds a zombie and cannot
copy its status out is that it returns; zombies go only by being reaped
(`code_zombie`).
-/

namespace Xv6

open List

namespace Wait

variable {P : Type}

attribute [local simp] Holds Table.boot

section

variable [DecidableEq P] {init : P} {table : List P} {d d' : Table P} {p : P}

variable {a : Action P (Option P) (Table P)} {l : Pc P} {np pp q r : P} {pid : BitVec 32}
  {x : Input P}

/-- The action carries the outline, from `d` on. -/
abbrev Carries (init : P) (table : List P) (p : P) (d : Table P)
    (a : Action P (Option P) (Table P)) : Prop :=
  a.Carries Holds (Inv init table) p d

theorem Ledger.goto (hd : Ledger init d) : Ledger init (d.goto p l) :=
  ⟨hd.exited, hd.zombie, hd.reaped, hd.kin, hd.once⟩

theorem goto_others (q : P) (hq : q ≠ p) : (d.goto p l).pc q = d.pc q := by simp [hq]

theorem goto_inside : ((d.goto p l).pc p).inside = l.inside := by simp

theorem same_goto : Same d (d.goto p l) := ⟨fun _ => rfl, fun _ => id⟩

omit [DecidableEq P] in
theorem carries_held (hin : (d.pc p).inside = true) (hin' : (d'.pc p).inside = true)
    (hothers : ∀ q, q ≠ p → d'.pc q = d.pc q)
    (hstep : ∀ N, Inv init table d (some p) N →
      Kin init d' ∧ Ledger init d' ∧ At init d' p N (d'.pc p)) :
    Carries init table p d (.go d') := by
  refine ⟨by simp [hin, hin'], fun h N hh hd => ?_⟩
  obtain rfl : h = some p := hh.mp hin
  obtain ⟨hkin, hledger, hat⟩ := hstep N hd
  exact hd.held_step hkin hledger hothers hin' hat

omit [DecidableEq P] in
theorem carries_unheld (hin : (d.pc p).inside = false) (hin' : (d'.pc p).inside = false) (hstep :
    Kin init d → Ledger init d → Kin init d' ∧ Ledger init d' ∧ Same d d' ∧ ∀ q, q ≠ p → d'.pc q =
    d.pc q ∨ (d.pc q).inside = false ∧ (d'.pc q).inside = false) :
    Carries init table p d (.go d') := by
  refine ⟨by simp [hin, hin'], fun h N hh hd => ?_⟩
  have hp : h ≠ some p := fun he => by
    have hin'' : (d.pc p).inside = true := hh.mpr he
    rw [hin] at hin''
    cases hin''
  obtain ⟨hkin, hledger, hsame, hothers⟩ := hstep hd.kin hd.ledger
  exact hd.outside_step hp hkin hledger hsame hin' hothers

section

variable {l0 l : Pc P} (hpc : d.pc p = l0) (hexp : ∀ x, l0.Expects x → l.Expects x)
  (hleave : l0.leaving = false → l.leaving = false)
  (hchild : ∀ x, l.child p = some x → l0.child p = some x)

include hpc hexp hleave hchild

theorem Kin.move (hk : Kin init d) : Kin init (d.goto p l) := by
  refine hk.goto (hexp _ (hpc ▸ hk.state p)) (fun he => hleave ?_) (by rwa [hpc])
  rw [← hpc, he]
  exact hk.stays

theorem carries_goto (hin : l0.inside = true) (hin' : l.inside = true)
    (hat : ∀ N, At init d p N l0 → At init d p N l) :
    Carries init table p d (.go (d.goto p l)) := by
  subst hpc
  refine carries_held hin (by simpa using hin') goto_others fun N hd =>
    ⟨hd.kin.move rfl hexp hleave hchild, hd.ledger.goto, ?_⟩
  rw [goto_pc, if_pos rfl]
  exact (hat N (hd.held p rfl).2).mono same_goto fun _ => id

theorem carries_wakeup {c : Option P} (hin : l0.inside = true) (hin' : l.inside = true)
    (hat : ∀ N, At init d p N l0 → At init d p (fun c' => N c' ∨ c' = c) l) :
    Carries init table p d (.wakeup c (d.goto p l)) := by
  subst hpc
  refine ⟨hin, by simp [hin'], fun N hd => ?_⟩
  refine hd.held_step (hd.kin.move rfl hexp hleave hchild) hd.ledger.goto goto_others
    (by simpa using hin') ?_
  rw [goto_pc, if_pos rfl]
  exact (hat N (hd.held p rfl).2).mono same_goto fun _ => id

theorem carries_acquire (hin : l0.inside = false) (hin' : l.inside = true)
    (hat : ∀ N, Served d N → At init d p N l) :
    Carries init table p d (.acquire (d.goto p l)) := by
  subst hpc
  refine ⟨by simp [hin], by simp [hin'], fun N hd => ?_⟩
  refine hd.take (hd.kin.move rfl hexp hleave hchild) hd.ledger.goto goto_others
    (by simpa using hin') ?_
  rw [goto_pc, if_pos rfl]
  exact (hat N (hd.free rfl)).mono same_goto fun _ => id

theorem carries_release (hin : l0.inside = true) (hin' : l.inside = false)
    (hat : ∀ N, At init d p N l0 → Served d N) :
    Carries init table p d (.release (d.goto p l)) := by
  subst hpc
  refine ⟨hin, by simp [hin'], fun N hd => ?_⟩
  refine hd.give (hd.kin.move rfl hexp hleave hchild) hd.ledger.goto goto_others (fun h => ?_)
    ((hat N (hd.held p rfl).2).mono same_goto fun _ => id)
  rw [goto_pc, if_pos rfl, hin'] at h
  cases h

end

theorem carries_outside {l0 l : Pc P} (hpc : d.pc p = l0) (hin : l0.inside = false)
    (hin' : l.inside = false)
    (hexp : ∀ x, l0.Expects x → l.Expects x) (hleave : p = init → l.leaving = false)
    (hchild : ∀ x, l.child p = some x → l0.child p = some x) :
    Carries init table p d (.go (d.goto p l)) := by
  subst hpc
  exact carries_unheld hin (by simpa using hin') fun hk hl =>
    ⟨hk.goto (hexp _ (hk.state p)) hleave hchild, hl.goto, same_goto,
      fun q hq => .inl (goto_others q hq)⟩

section

variable (hin : (d.pc p).inside = false) (hleave : (d.pc p).leaving = false)
    (hnp : (d.slot np).state = .UNUSED)

include hin hleave hnp

theorem carries_alloc :
    Carries init table p d (.go ((d.alloc p np).goto p (.forkLock np pid))) := by
  refine carries_unheld hin goto_inside fun hk hl => ⟨?_, ?_, ⟨fun q => ?_, fun q hz => ?_⟩,
    fun q hq => .inl (by simp [hq])⟩
  · exact hk.alloc (Pc.expects_alive hleave (hk.state p)) hnp
  · refine hl.change np (fun q hq => by simp [hq]) rfl rfl ?_ (fun hg => ?_)
      fun hz => ?_
    · simp
    · simp at hg
    · simp at hz
  · by_cases hq : q = np <;> simp [hq]
  · by_cases hq : q = np
    · simp [hq] at hz
    · simpa [hq] using hz

theorem carries_allocFail :
    Carries init table p d (.go ((d.allocFail np).goto p (.returned (-1)))) := by
  refine carries_unheld hin goto_inside fun hk hl => ⟨?_, ?_, ⟨fun q => ?_, fun q hz => ?_⟩,
    fun q hq => .inl (by simp [hq])⟩
  · exact hk.allocFail (Pc.expects_alive hleave (hk.state p)) hnp
  · refine hl.change np (fun q hq => by simp [hq]) rfl rfl ?_ (fun _ => .inl ?_)
      fun hz => ?_
    · simp
    · simp [hnp]
    · simp at hz
  · by_cases hq : q = np
    · simp [hq, hk.unused np hnp]
    · simp [hq]
  · by_cases hq : q = np
    · simp [hq] at hz
    · simpa [hq] using hz

end

theorem carries_start (hpc : d.pc p = .forkRun np pid) :
    Carries init table p d (.go ((d.start np).goto p (.returned pid.toInt))) := by
  refine carries_unheld (by rw [hpc]; rfl) goto_inside fun hk hl => ?_
  obtain ⟨hused, -, -⟩ := hk.fork p np (some p) (by rw [hpc]; rfl)
  have hdead : d.pc np = .dead := Pc.dead_of_expects (hk.state np) (.inr hused)
  refine ⟨hk.start hpc, ?_, ⟨fun q => ?_, fun q hz => ?_⟩, fun q hq => ?_⟩
  · refine hl.change np (fun q hq => by simp [hq]) rfl rfl ?_ (fun _ => .inr hused)
      fun hz => ?_
    · simp
    · simp at hz
  · by_cases hq : q = np <;> simp [hq]
  · by_cases hq : q = np
    · simp [hq] at hz
    · simpa [hq] using hz
  · by_cases hqn : q = np
    · exact .inr ⟨by rw [hqn, hdead]; rfl, by simp [hqn, hqn ▸ hq, Pc.inside]⟩
    · exact .inl (by simp [hqn, hq])

theorem Ledger.setParent (hl : Ledger init d) : Ledger init (d.setParent pp r) := by
  refine hl.change pp (fun q hq => by simp [hq]) rfl rfl ?_ (fun _ => .inl ?_)
    fun hz => ?_
  · simp
  · simp
  · simpa using hz

/-- Giving a child to another parent disturbs nobody but that parent, and not
    even it if the child is no zombie. -/
theorem Quiet.setParent {c : Option P}
    (hne : c ≠ some r ∨ (d.slot pp).state ≠ .ZOMBIE) (hq : Quiet c d) :
    Quiet c (d.setParent pp r) := by
  intro q x hc hpar
  by_cases hqp : q = pp
  · subst hqp
    simp only [Table.setParent, setSlot_slot, if_true] at hpar ⊢
    rcases hne with hne | hne
    · exact absurd (hc.trans hpar.symm) hne
    · exact hne
  · simp only [Table.setParent, setSlot_slot, hqp, if_false] at hpar ⊢
    exact hq q x hc hpar

/-- `np->parent = p` -/
theorem carries_adopt (hpc : d.pc p = .forkParent np pid) :
    Carries init table p d (.go ((d.setParent np p).goto p (.forkUnlock np pid))) := by
  refine carries_held (by rw [hpc]; rfl) goto_inside
    (fun q hq => by simp [hq]) fun N hd => ?_
  obtain ⟨hused, -, -⟩ := hd.kin.fork p np none (by rw [hpc]; rfl)
  have hat := (hd.held p rfl).2
  rw [hpc] at hat
  refine ⟨hd.kin.adopt hpc, hd.ledger.setParent.goto, ?_⟩
  rw [goto_pc, if_pos rfl]
  exact fun c => (hat c).imp id fun hq => hq.setParent (.inr (by simp [hused]))

/-- `pp->parent = initproc`: only init's sleepers may have something to be woken
    for. -/
theorem carries_reparent {st : Int} {rest : List P}
    (hpc : d.pc p = .exitReparent st (pp :: rest)) (hpp : (d.slot pp).parent = some p) :
    Carries init table p d (.go ((d.setParent pp init).goto p (.exitWakeInit st rest))) := by
  refine carries_held (by rw [hpc]; rfl) goto_inside
    (fun q hq => by simp [hq]) fun N hd => ?_
  have hp := hd.kin.state p
  have hat := (hd.held p rfl).2
  rw [hpc] at hp hat
  have hne : p ≠ init := fun he => by
    have := hd.kin.stays
    rw [← he, hpc] at this
    cases this
  refine ⟨hd.kin.reparent hpp hp (fun he => absurd he hne) rfl, hd.ledger.setParent.goto, ?_⟩
  rw [goto_pc, if_pos rfl]
  refine ⟨fun c hc => (hat.1 c).imp id fun hq => hq.setParent (.inl hc), fun q hq => ?_⟩
  by_cases hqp : q = pp
  · simp only [Table.goto_slot, Table.setParent, hqp, setSlot_slot, if_true] at hq
    exact absurd (Option.some.inj hq).symm hne
  · simp only [Table.goto_slot, Table.setParent, hqp, setSlot_slot, if_false] at hq
    exact (mem_cons.mp (hat.2 q hq)).resolve_left hqp

/-- `p->state = ZOMBIE`: its parent may have something to be woken for, but is
    not asleep. -/
theorem carries_zombie {st : Int} (hpc : d.pc p = .exitZombie st) :
    Carries init table p d (.go ((d.zombie p st).goto p .exitUnlock)) := by
  refine carries_held (by rw [hpc]; rfl) goto_inside
    (fun q hq => by simp [hq]) fun N hd => ?_
  have hp := hd.kin.state p
  have hat := (hd.held p rfl).2
  rw [hpc] at hp hat
  obtain ⟨hserved, hN, hno⟩ := hat
  refine ⟨hd.kin.zombie hpc hno, (hd.ledger.zombie_step hp).goto, ?_⟩
  rw [goto_pc, if_pos rfl]
  intro c
  by_cases hc : c = (d.slot p).parent
  · rw [hc]
    exact .inl hN
  · refine (hserved c).imp id fun hq q r hcr hpar => ?_
    by_cases hqp : q = p
    · subst hqp
      simp only [Table.goto_slot, Table.zombie, setSlot_slot, if_true] at hpar
      exact absurd (hcr.trans hpar.symm) hc
    · simp only [Table.goto_slot, Table.zombie, setSlot_slot, hqp, if_false] at hpar ⊢
      exact hq q r hcr hpar

omit [DecidableEq P] in
/-- A zombie whose `exit` is over. -/
theorem Inv.dead_of_zombie {N : Option P → Prop} (hd : Inv init table d (some p) N)
    (hne : p ≠ pp) (hpp : (d.slot pp).state = .ZOMBIE) : d.pc pp = .dead := by
  have hexp := hd.kin.state pp
  have haway := hd.away pp
  rw [hpp] at hexp
  revert hexp haway
  cases d.pc pp with
  | dead => exact fun _ _ => rfl
  | exitUnlock =>
    intro _ haway
    obtain ⟨a, ha⟩ := haway rfl (by simpa using hne)
    cases ha
  | _ => intro hexp; cases hexp

/-- `freeproc(pp)` in `wait` -/
theorem carries_reap {a : Nat} {rest : List P} {kids : Bool} {r : Int}
    (hpc : d.pc p = .waitScan a (pp :: rest) kids) (hpp : (d.slot pp).parent = some p)
    (hz : (d.slot pp).state = .ZOMBIE) :
    Carries init table p d (.go ((d.reap p pp).goto p (.waitUnlock r))) := by
  refine carries_held (by rw [hpc]; rfl) goto_inside
    (fun q hq => by simp [hq]) fun N hd => ?_
  have hp := hd.kin.state p
  have hat := (hd.held p rfl).2
  rw [hpc] at hp hat
  have hne : p ≠ pp := fun he => by rw [← he, show (d.slot p).state = _ from hp] at hz; cases hz
  have hinit : pp ≠ init := fun he => by
    rw [he, hd.kin.init_alive] at hz
    cases hz
  obtain ⟨x, hx, -, hkin⟩ := hd.kin.parent pp hinit (.inr hz)
  obtain rfl : x = p := Option.some.inj (hx.symm.trans hpp)
  refine ⟨hd.kin.reap hz (hd.dead_of_zombie hne hz) hp hp (fun _ => rfl) rfl,
    (hd.ledger.reap_step hz hkin).goto, ?_⟩
  rw [goto_pc, if_pos rfl]
  refine fun c => (hat.1 c).imp id fun hq q y hc hpar => ?_
  by_cases hqp : q = pp
  · simp [hqp] at hpar
  · simp only [Table.goto_slot, Table.reap, setSlot_slot, hqp, if_false] at hpar ⊢
    exact hq q y hc hpar

/-- `wait` passes over a process that is not a child of its or not a zombie. -/
theorem carries_pass {a : Nat} {rest : List P} {kids kids' : Bool}
    (hpc : d.pc p = .waitScan a (pp :: rest) kids)
    (hno : (d.slot pp).parent = some p → (d.slot pp).state ≠ .ZOMBIE) :
    Carries init table p d (.go (d.goto p (.waitScan a rest kids'))) := by
  refine carries_goto hpc (fun _ => id) id nofun rfl rfl fun N hat => ⟨hat.1, fun q hq hqz => ?_⟩
  refine (mem_cons.mp (hat.2 q hq hqz)).resolve_left ?_
  rintro rfl
  exact hno hq hqz

/-- **Every action carries the outline.** -/
theorem code_carries (htable : ∀ q, q ∈ table)
    (hc : code init table p x d = some a) : a.Carries Holds (Inv init table) p d := by
  unfold code at hc
  generalize hpc : d.pc p = l at hc
  cases l with
  | dead => cases hc
  | user | returned r =>
    dsimp only at hc
    split at hc
    · cases hc
      exact carries_outside hpc rfl rfl (fun _ => id) (fun _ => rfl) nofun
    · split at hc <;> cases hc
      rename_i hnp
      split
      · exact carries_alloc (by rw [hpc]; rfl) (by rw [hpc]; rfl) hnp
      · exact carries_allocFail (by rw [hpc]; rfl) (by rw [hpc]; rfl) hnp
    · split at hc <;> cases hc
      rename_i hp
      exact carries_outside hpc rfl rfl (fun _ => id) (fun he => absurd he hp) nofun
    · cases hc
      exact carries_outside hpc rfl rfl (fun _ => id) (fun _ => rfl) nofun
  | forkLock np pid =>
    cases hc
    exact carries_acquire hpc (fun _ => id) id (fun _ => id) rfl rfl fun _ => id
  | forkParent np pid =>
    cases hc
    exact carries_adopt hpc
  | forkUnlock np pid =>
    cases hc
    exact carries_release hpc (fun _ => id) id (fun _ => id) rfl rfl fun _ => id
  | forkRun np pid =>
    cases hc
    exact carries_start hpc
  | exitLock st =>
    cases hc
    exact carries_acquire hpc (fun _ => id) id nofun rfl rfl fun N hd => ⟨hd, fun q _ => htable q⟩
  | exitReparent st rest =>
    cases rest with
    | nil =>
      cases hc
      exact carries_goto hpc (fun _ => id) id nofun rfl rfl fun N hat =>
        ⟨hat.1, fun q hq => absurd (hat.2 q hq) not_mem_nil⟩
    | cons pp rest =>
      cases hc
      split
      · rename_i hpp
        exact carries_reparent hpc hpp
      · rename_i hpp
        refine carries_goto hpc (fun _ => id) id nofun rfl rfl fun N hat => ⟨hat.1, fun q hq => ?_⟩
        refine (mem_cons.mp (hat.2 q hq)).resolve_left ?_
        rintro rfl
        exact hpp hq
  | exitWakeInit st rest =>
    cases hc
    refine carries_wakeup hpc (l := .exitReparent st rest) (fun _ => id) id nofun rfl rfl
      fun N hat => ⟨fun c => ?_, hat.2⟩
    by_cases hci : c = some init
    · exact .inl (.inr hci)
    · exact (hat.1 c hci).imp .inl id
  | exitWake st =>
    cases hc
    exact carries_wakeup hpc (l := .exitZombie st) (fun _ => id) id nofun rfl rfl fun N hat =>
      ⟨fun c => (hat.1 c).imp .inl id, .inr rfl, hat.2⟩
  | exitZombie st =>
    cases hc
    exact carries_zombie hpc
  | exitUnlock =>
    cases hc
    refine carries_release hpc (fun x hx => ?_) nofun nofun rfl rfl fun _ => id
    rw [show x = _ from hx]
    exact nofun
  | waitLock addr =>
    cases hc
    exact carries_acquire hpc (fun _ => id) id nofun rfl rfl fun N hd =>
      ⟨hd, fun q _ _ => htable q⟩
  | waitScan addr rest kids =>
    cases rest with
    | nil =>
      cases hc
      split
      · exact carries_goto hpc (fun _ => id) id nofun rfl rfl fun N hat =>
          ⟨hat.1, fun q r he hq hz =>
          absurd (hat.2 q ((Option.some.inj he) ▸ hq) hz) not_mem_nil⟩
      · exact carries_goto hpc (fun _ => id) id nofun rfl rfl fun N hat => hat.1
    | cons pp rest =>
      dsimp only at hc
      split at hc
      · rename_i hpp
        cases hc
        split
        · rename_i hz
          split
          · exact carries_goto hpc (fun _ => id) id nofun rfl rfl fun N hat => hat.1
          · exact carries_reap hpc hpp hz
        · rename_i hz
          exact carries_pass hpc fun _ => hz
      · rename_i hpp
        cases hc
        exact carries_pass hpc fun h => absurd h hpp
  | waitKilled addr =>
    cases hc
    split
    · exact carries_goto hpc (fun _ => id) id nofun rfl rfl fun N hat => hat.1
    · exact carries_goto hpc (fun _ => id) id nofun rfl rfl fun _ => id
  | waitSleep addr =>
    cases hc
    refine ⟨by simp [hpc, Pc.inside], by simp [Pc.inside], fun N hd => ?_⟩
    have hat := (hd.held p rfl).2
    rw [hpc] at hat
    refine hd.give (hd.kin.move hpc (fun _ => id) id nofun) hd.ledger.goto goto_others
      (fun _ => ⟨addr, by simp⟩) fun c => ?_
    by_cases hcp : c = some p
    · rw [hcp]
      exact .inr (hat.2.mono same_goto)
    · exact (hat.1 c).imp (fun hN => ⟨hN, hcp⟩) fun hq => hq.mono same_goto
  | waitUnlock r =>
    cases hc
    exact carries_release hpc (fun _ => id) id nofun rfl rfl fun _ => id

attribute [local simp] Action.data

/-- An action leaves the others where they are, except for the child that `fork`
    starts. -/
theorem code_frame (hk : Kin init d)
    (hc : code init table p x d = some a) (q : P) (hq : q ≠ p) : Holds q a.data ↔ Holds q d := by
  by_cases hrun : ∃ np pid, d.pc p = .forkRun np pid
  · obtain ⟨np, pid, hpc⟩ := hrun
    simp only [code, hpc] at hc
    cases hc
    by_cases hqn : q = np
    · subst hqn
      obtain ⟨hused, -, -⟩ := hk.fork p q (some p) (by rw [hpc]; rfl)
      have hdead : d.pc q = .dead := Pc.dead_of_expects (hk.state q) (.inr hused)
      simp [hq, hdead, Pc.inside]
    · simp [hq, hqn]
  · have hpc : a.data.pc q = d.pc q := by
      unfold code at hc
      split at hc
      all_goals try split at hc
      all_goals try split at hc
      all_goals cases hc
      all_goals simp only [Action.data]
      all_goals repeat' split
      all_goals first
        | exact absurd ⟨_, _, ‹d.pc p = .forkRun _ _›⟩ hrun
        | simp [hq]
    rw [Holds, Holds, hpc]

theorem Kin.kill (hk : Kin init d) : Kin init (d.setSlot q { d.slot q with killed := true }) := by
  have hslot : ∀ r, ((d.setSlot q { d.slot q with killed := true }).slot r).state =
      (d.slot r).state ∧ ((d.setSlot q { d.slot q with killed := true }).slot r).parent =
      (d.slot r).parent ∧ ((d.setSlot q { d.slot q with killed := true }).slot r).forker =
      (d.slot r).forker := fun r => by
    by_cases hr : r = q <;> simp [hr]
  refine ⟨fun p => ?_, hk.stays, fun r hr hb => ?_, fun r hr => ?_, fun p np par hc => ?_⟩
  · rw [(hslot p).1]
    exact hk.state p
  · obtain ⟨hs, hp, hf⟩ := hslot r
    rw [Slot.born, hs] at hb
    obtain ⟨y, hy, halive, hkin⟩ := hk.parent r hr hb
    exact ⟨y, by rw [hp, hy], by rw [(hslot y).1, halive], by rw [hf]; exact hkin⟩
  · obtain ⟨hs, hp, -⟩ := hslot r
    rw [hs] at hr
    rw [hp]
    exact hk.unused r hr
  · obtain ⟨hs, hp, hf⟩ := hslot np
    rw [hs, hp, hf]
    exact hk.fork p np par hc

theorem same_kill : Same d (d.setSlot q { d.slot q with killed := true }) := by
  refine ⟨fun r => ?_, fun r hz => ?_⟩
  · by_cases hr : r = q <;> simp [hr]
  · by_cases hr : r = q
    · simpa [hr] using hz
    · simpa [hr] using hz

/-- The proof outline of `fork`, `exit` and `wait`. -/
def outline (init : P) (table : List P) (htable : ∀ q, q ∈ table) :
    Outline (program init table) where
  quiet := Quiet
  holds := Holds
  inv := Inv init table
  mono hN hd := ⟨hd.kin, hd.ledger, hd.away, fun hn c => (hd.free hn c).imp (hN c) id,
    fun p hp => ⟨(hd.held p hp).1, (hd.held p hp).2.mono ⟨fun _ => rfl, fun _ => id⟩ hN⟩⟩
  served hd := hd.free rfl
  relock hp hd := by
    obtain ⟨a, ha⟩ := hd.away _ hp nofun
    refine ⟨hd.kin, hd.ledger, fun q hq _ => hd.away q hq nofun, nofun, fun r hr => ?_⟩
    obtain rfl := Option.some.inj hr
    rw [ha]
    exact ⟨rfl, hd.free rfl, fun q _ _ => htable q⟩
  frame hd hc q hq := code_frame hd.kin hc q hq
  carries hc := code_carries htable hc
  kill_holds := Iff.rfl
  kill_inv {q d h N} hd := by
    refine ⟨hd.kin.kill, ?_, hd.away, fun hn => (hd.free hn).mono same_kill fun _ => id,
      fun p hp => ⟨(hd.held p hp).1, (hd.held p hp).2.mono same_kill fun _ => id⟩⟩
    refine hd.ledger.change q (fun r hr => by simp [program, hr]) rfl rfl ?_ (fun _ => .inl ?_)
      fun hz => ?_
    · simp [program]
    · simp [program]
    · simpa [program] using hz

/-! ## Zombies wait to be reaped -/

/-- The slot holds the same zombie. -/
def Still (d d' : Table P) (q : P) : Prop :=
  (d'.slot q).state = .ZOMBIE ∧ (d'.slot q).gen = (d.slot q).gen ∧
    (d'.slot q).pid = (d.slot q).pid ∧ (d'.slot q).xstate = (d.slot q).xstate

/-- The zombie was reaped by its parent, which got its pid and exit status. -/
def Reaped (d d' : Table P) (q : P) : Prop :=
  ∃ p, (d.slot q).parent = some p ∧
    d'.reaps = d.reaps ++ [(p, d.leaving q (d.slot q).xstate)]

omit [DecidableEq P] in
theorem Still.of_slot (hz : (d.slot q).state = .ZOMBIE) (h : d'.slot q = d.slot q) :
    Still d d' q := by
  rw [Still, h]
  exact ⟨hz, rfl, rfl, rfl⟩

theorem Still.setParent (hz : (d.slot q).state = .ZOMBIE) : Still d (d.setParent pp r) q := by
  by_cases hq : q = pp
  · subst hq
    simp [Still, hz]
  · exact .of_slot hz (by simp [hq])

/-- **A zombie goes only by being reaped.** In particular a `wait` whose
    `copyout` fails leaves it. -/
theorem code_zombie (hk : Kin init d)
    (hc : code init table p x d = some a) (hz : (d.slot q).state = .ZOMBIE) :
    Still d a.data q ∨ Reaped d a.data q := by
  have hne : ∀ r, (d.slot r).state ≠ .ZOMBIE → q ≠ r := fun r hr he => hr (he ▸ hz)
  unfold code at hc
  generalize hpc : d.pc p = l at hc
  cases l with
  | user | returned r =>
    dsimp only at hc
    split at hc
    · cases hc
      exact .inl (.of_slot hz rfl)
    · split at hc <;> cases hc
      rename_i np _ _ hnp
      have hq := hne np (by simp [hnp])
      refine .inl ?_
      split
      · exact .of_slot hz (by simp [hq])
      · exact .of_slot hz (by simp [hq])
    · split at hc <;> cases hc
      exact .inl (.of_slot hz rfl)
    · cases hc
      exact .inl (.of_slot hz rfl)
  | forkParent np pid =>
    cases hc
    exact .inl (.setParent hz)
  | forkRun np pid =>
    cases hc
    obtain ⟨hused, -, -⟩ := hk.fork p np (some p) (by rw [hpc]; rfl)
    have hq := hne np (by simp [hused])
    exact .inl (.of_slot hz (by simp [hq]))
  | exitReparent st rest =>
    cases rest with
    | nil =>
      cases hc
      exact .inl (.of_slot hz rfl)
    | cons pp rest =>
      cases hc
      refine .inl ?_
      simp only [Action.data]
      split
      · exact .setParent hz
      · exact .of_slot hz rfl
  | exitZombie st =>
    cases hc
    have hp : (d.slot p).state = .ALIVE := by have := hk.state p; rwa [hpc] at this
    have hq := hne p (by simp [hp])
    exact .inl (.of_slot hz (by simp [hq]))
  | waitScan addr rest kids =>
    cases rest with
    | nil =>
      cases hc
      exact .inl (.of_slot hz rfl)
    | cons pp rest =>
      dsimp only at hc
      split at hc
      · rename_i hpp
        cases hc
        simp only [Action.data]
        split
        · split
          · exact .inl (.of_slot hz rfl)
          · by_cases hq : q = pp
            · subst hq
              exact .inr ⟨p, hpp, rfl⟩
            · exact .inl (.of_slot hz (by simp [hq]))
        · exact .inl (.of_slot hz rfl)
      · cases hc
        exact .inl (.of_slot hz rfl)
  | _ =>
    cases hc
    try exact .inl (.of_slot hz rfl)

/-- The same over a step of the machine. -/
theorem move_zombie {s s' : Monitor P (Option P) (Table P)} (hk : Kin init s.data)
    (hm : Monitor.Move table (program init table) s s') (hz : (s.data.slot q).state = .ZOMBIE) :
    Still s.data s'.data q ∨ Reaped s.data s'.data q := by
  cases hm with
  | go _ hc => exact code_zombie hk hc hz
  | under _ hc => exact code_zombie hk hc hz
  | acquire _ hc => exact code_zombie hk hc hz
  | release _ hc => exact code_zombie hk hc hz
  | sleep _ hc => exact code_zombie hk hc hz
  | wakeup _ hc => exact code_zombie hk hc hz
  | visit =>
    refine .inl (.of_slot hz ?_)
    simp
  | kill =>
    rename_i r _
    refine .inl ?_
    by_cases hq : q = r
    · simp [Still, program, hq, hq ▸ hz]
    · exact .of_slot hz (by simp [program, hq])
  | _ => exact .inl (.of_slot hz rfl)

/-- Boot: `init` alone. -/
def Boots (init : P) (s : Monitor P (Option P) (Table P)) : Prop :=
  s = Monitor.start (Table.boot init)

theorem inv_boot : Inv init table (Table.boot init) none fun _ => True := by
  refine ⟨⟨fun q => ?_, ?_, fun q hq hb => ?_, fun _ _ => rfl, fun q np par hc => ?_⟩,
    ⟨nofun, fun q hz => ?_, nofun, nofun, nodup_nil⟩, fun q hq => ?_, fun _ _ => .inl trivial,
    nofun⟩
  · by_cases hq : q = init <;> simp [hq, Pc.Expects]
  · simp [Pc.leaving]
  · simp [hq, Slot.born] at hb
  · by_cases hq : q = init <;> simp [hq, Pc.child] at hc
  · by_cases hq : q = init <;> simp [hq] at hz
  · by_cases hq' : q = init <;> simp [hq', Pc.inside] at hq

end

/-- **No exit is lost and no child is reaped twice.** In every state of every
    run of any number of processes: whenever `wait_lock` is free, a process
    other than init that was made RUNNABLE and not freed has a parent that is
    neither UNUSED nor ZOMBIE, and nobody asleep in `wait` has a zombie child.
    No process is reaped twice; whoever was reaped had exited, with the pid and
    status that were returned, and was reaped by whoever forked it, or by init.
    And from here, whatever happens next, a zombie stays as it is or is reaped
    by its parent. -/
theorem exits_reaped_once {n : Nat} (init : Fin n)
    {s : Monitor (Fin n) (Option (Fin n)) (Table (Fin n))} (hr : Reachable (Monitor.step
    (List.finRange n) (program init (List.finRange n))) (Boots init) s) :
    (s.lk = none →
      (∀ q, q ≠ init → (s.data.slot q).born → ∃ r, (s.data.slot q).parent = some r ∧
        (s.data.slot r).state ≠ .UNUSED ∧ (s.data.slot r).state ≠ .ZOMBIE) ∧
      ∀ p q, (s.phase p = .dozing (some p) ∨ s.phase p = .asleep (some p)) →
        (s.data.slot q).parent = some p → (s.data.slot q).state ≠ .ZOMBIE) ∧
    (s.data.reaps.map fun r => (r.2.slot, r.2.gen)).Nodup ∧
    (∀ r ∈ s.data.reaps, r.2 ∈ s.data.exits ∧ (r.2.forker = some r.1 ∨ r.1 = init)) ∧
    ∀ e s', Monitor.step (List.finRange n) (program init (List.finRange n)) s e = .next s' →
      ∀ q, (s.data.slot q).state = .ZOMBIE →
        Still s.data s'.data q ∨ Reaped s.data s'.data q := by
  have htable : ∀ q : Fin n, q ∈ List.finRange n := mem_finRange
  have hsound : Monitor.Sound (outline init (List.finRange n) htable) s := by
    refine Monitor.Sound.reachable htable (fun s hs => ?_) hr
    rw [show s = _ from hs]
    refine Monitor.Sound.start inv_boot fun p hp => ?_
    by_cases hpi : p = init <;>
      simp [outline, hpi, Pc.inside] at hp
  have hinv : Inv init (List.finRange n) s.data s.owner s.Clear := hsound.inv
  refine ⟨fun hlk => ⟨fun q hq hb => ?_, fun p q hp hpar => ?_⟩, hinv.ledger.once,
    fun r hr => ⟨(hinv.ledger.reaped r hr).1, hinv.ledger.kin r hr⟩,
    fun e s' he q hz => move_zombie hinv.kin (Monitor.step_move he) hz⟩
  · obtain ⟨r, hr, halive, -⟩ := hinv.kin.parent q hq hb
    exact ⟨r, hr, by simp [halive], by simp [halive]⟩
  · exact hsound.quiet_of_free hlk hp q p rfl hpar

/-- Init forks a child, the child exits with status 3, and init waits for it. -/
def forkExitWait : List (Monitor.Event (Fin 2) (Input (Fin 2))) :=
  List.replicate 5 (.run 0 ⟨.fork (some 1) true, true⟩) ++
    List.replicate 12 (.run 1 ⟨.exit 3, true⟩) ++ List.replicate 5 (.run 0 ⟨.wait 0, true⟩)

/-- The child was reaped, once, by init. -/
theorem exits_reaped_once_child :
    ∃ s, exec (Monitor.step (List.finRange 2) (program 0 (List.finRange 2)))
        (Monitor.start (Table.boot 0)) forkExitWait = .next s ∧
      s.lk = none ∧ s.data.reaps.length = 1 ∧
      (∀ r ∈ s.data.reaps, r.2 ∈ s.data.exits ∧ (r.2.forker = some r.1 ∨ r.1 = 0)) ∧
      ∀ q, q ≠ 0 → (s.data.slot q).born → ∃ r, (s.data.slot q).parent = some r ∧
        (s.data.slot r).state ≠ .UNUSED ∧ (s.data.slot r).state ≠ .ZOMBIE := by
  obtain ⟨s, hs, ht⟩ := Outcome.exists_of_check
    (x := exec (Monitor.step (List.finRange 2) (program (0 : Fin 2) (List.finRange 2)))
      (Monitor.start (Table.boot 0)) forkExitWait)
    (t := fun s => s.lk = none && s.data.reaps.length = 1) (by decide +kernel)
  simp only [Bool.and_eq_true, decide_eq_true_eq] at ht
  have hstart : Boots (0 : Fin 2) (Monitor.start (Table.boot 0)) := rfl
  obtain ⟨hfree, -, hreaps, -⟩ := exits_reaped_once 0 ((Reachable.init hstart).of_exec _ hs)
  exact ⟨s, hs, ht.1, ht.2, hreaps, (hfree ht.1).1⟩

end Wait

end Xv6
