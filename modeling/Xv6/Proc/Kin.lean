import Mathlib.Data.List.Nodup
import Xv6.Lib.Outline
import Xv6.Proc.Wait

/-!
# Kinship, and the record of exits

Three invariants of `fork`, `exit` and `wait`. `Kin` says who is whose parent: a
process that runs or has exited has a parent that runs. `Ledger` relates the
table to the record of exits and reaps: a zombie has exited and has not been
reaped, a slot that was reaped is empty until it is allocated again. `At` is
what the holder of `wait_lock` knows at each place: that its scan has met every
child before the rest of it, and which sleepers may have a zombie child.

Here are the steps one at a time; the program is put together in
`Xv6.Proc.Reap`.
-/

namespace Xv6

open List

namespace Wait

variable {P : Type}

attribute [simp] Table.alloc Table.allocFail Table.setParent Table.start Table.zombie Table.reap
attribute [simp] Slot.free

/-- The places between `acquire(&wait_lock)` and its release. -/
def Pc.inside : Pc P → Bool
  | forkParent _ _ | forkUnlock _ _ | exitReparent _ _ | exitWakeInit _ _ | exitWake _
  | exitZombie _ | exitUnlock | waitScan _ _ _ | waitKilled _ | waitSleep _ | waitUnlock _ => true
  | _ => false

def Holds (p : P) (d : Table P) : Prop := (d.pc p).inside = true

/-- On the way out. -/
def Pc.leaving : Pc P → Bool
  | dead | exitLock _ | exitReparent _ _ | exitWakeInit _ _ | exitWake _ | exitZombie _
  | exitUnlock => true
  | _ => false

/-- The state a slot has while its process is there. -/
def Pc.Expects : Pc P → ProcState → Prop
  | dead, x => x ≠ .ALIVE
  | exitUnlock, x => x = .ZOMBIE
  | _, x => x = .ALIVE

/-- The child a `fork` has under construction, and its parent field. -/
def Pc.child (p : P) : Pc P → Option (P × Option P)
  | forkLock np _ | forkParent np _ => some (np, none)
  | forkUnlock np _ | forkRun np _ => some (np, some p)
  | _ => none

/-- The process has been made RUNNABLE and not been freed. -/
def Slot.born (x : Slot P) : Prop := x.state = .ALIVE ∨ x.state = .ZOMBIE

/-- **Kinship.** -/
structure Kin (init : P) (d : Table P) : Prop where
  state : ∀ p, (d.pc p).Expects (d.slot p).state
  stays : (d.pc init).leaving = false
  parent : ∀ q, q ≠ init → (d.slot q).born →
    ∃ r, (d.slot q).parent = some r ∧ (d.slot r).state = .ALIVE ∧
      ((d.slot q).forker = some r ∨ r = init)
  unused : ∀ q, (d.slot q).state = .UNUSED → (d.slot q).parent = none
  fork : ∀ p np par, (d.pc p).child p = some (np, par) →
    (d.slot np).state = .USED ∧ (d.slot np).parent = par ∧ (d.slot np).forker = some p

/-- **The record of exits and reaps.** -/
structure Ledger (init : P) (d : Table P) : Prop where
  exited : ∀ e ∈ d.exits, e.gen ≤ (d.slot e.slot).gen ∧
    (e.gen = (d.slot e.slot).gen →
      (d.slot e.slot).state = .ZOMBIE ∨ (d.slot e.slot).state = .UNUSED)
  zombie : ∀ q, (d.slot q).state = .ZOMBIE →
    { slot := q, gen := (d.slot q).gen, forker := (d.slot q).forker, pid := (d.slot q).pid,
      xstate := (d.slot q).xstate : Exit P } ∈ d.exits
  reaped : ∀ r ∈ d.reaps, r.2 ∈ d.exits ∧
    (r.2.gen = (d.slot r.2.slot).gen → (d.slot r.2.slot).state = .UNUSED)
  kin : ∀ r ∈ d.reaps, r.2.forker = some r.1 ∨ r.1 = init
  once : (d.reaps.map fun r => (r.2.slot, r.2.gen)).Nodup

/-- Nobody who sleeps on the channel has a zombie child. -/
def Quiet (c : Option P) (d : Table P) : Prop :=
  ∀ q r, c = some r → (d.slot q).parent = some r → (d.slot q).state ≠ .ZOMBIE

def Served (d : Table P) (N : Option P → Prop) : Prop := ∀ c, N c ∨ Quiet c d

/-- What the holder of `wait_lock` knows. -/
def At (init : P) (d : Table P) (p : P) (N : Option P → Prop) : Pc P → Prop
  | .exitReparent _ rest => Served d N ∧ ∀ q, (d.slot q).parent = some p → q ∈ rest
  | .exitWakeInit _ rest =>
    (∀ c, c ≠ some init → N c ∨ Quiet c d) ∧ ∀ q, (d.slot q).parent = some p → q ∈ rest
  | .exitWake _ => Served d N ∧ ∀ q, (d.slot q).parent ≠ some p
  | .exitZombie _ => Served d N ∧ N (d.slot p).parent ∧ ∀ q, (d.slot q).parent ≠ some p
  | .waitScan _ rest _ =>
    Served d N ∧ ∀ q, (d.slot q).parent = some p → (d.slot q).state = .ZOMBIE → q ∈ rest
  | .waitKilled _ | .waitSleep _ => Served d N ∧ Quiet (some p) d
  | _ => Served d N

/-- **The invariant of `wait_lock`.** -/
structure Inv (init : P) (table : List P) (d : Table P) (h : Option P) (N : Option P → Prop) :
    Prop where
  kin : Kin init d
  ledger : Ledger init d
  away : ∀ q, (d.pc q).inside = true → h ≠ some q → ∃ a, d.pc q = .waitScan a table false
  free : h = none → Served d N
  held : ∀ p, h = some p → (d.pc p).inside = true ∧ At init d p N (d.pc p)

/-! ## What a step leaves alone -/

section

variable {init : P} {table : List P} {d d' : Table P} {p : P} {h : Option P}
  {N N' : Option P → Prop}

/-- The same parents, and no new zombies. -/
structure Same (d d' : Table P) : Prop where
  parent : ∀ q, (d'.slot q).parent = (d.slot q).parent
  zombie : ∀ q, (d'.slot q).state = .ZOMBIE → (d.slot q).state = .ZOMBIE

theorem Quiet.mono {c : Option P} (hs : Same d d') (hq : Quiet c d) : Quiet c d' := by
  intro q r hc hpar hz
  rw [hs.parent q] at hpar
  exact hq q r hc hpar (hs.zombie q hz)

theorem Served.mono (hs : Same d d') (hN : ∀ c, N c → N' c) (hd : Served d N) : Served d' N' :=
  fun c => (hd c).imp (hN c) fun hq => hq.mono hs

theorem At.mono {l : Pc P} (hs : Same d d') (hN : ∀ c, N c → N' c) (hd : At init d p N l) :
    At init d' p N' l := by
  have hserved : Served d N → Served d' N' := Served.mono hs hN
  cases l with
  | exitReparent st rest =>
    exact ⟨hserved hd.1, fun q hq => hd.2 q (by rwa [hs.parent q] at hq)⟩
  | exitWakeInit st rest =>
    refine ⟨fun c hc => (hd.1 c hc).imp (hN c) fun hq => hq.mono hs, fun q hq => ?_⟩
    exact hd.2 q (by rwa [hs.parent q] at hq)
  | exitWake st => exact ⟨hserved hd.1, fun q hq => hd.2 q (by rwa [hs.parent q] at hq)⟩
  | exitZombie st =>
    refine ⟨hserved hd.1, ?_, fun q hq => hd.2.2 q (by rwa [hs.parent q] at hq)⟩
    rw [hs.parent p]
    exact hN _ hd.2.1
  | waitScan a rest kids =>
    refine ⟨hserved hd.1, fun q hq hz => hd.2 q ?_ (hs.zombie q hz)⟩
    rwa [hs.parent q] at hq
  | waitKilled a => exact ⟨hserved hd.1, hd.2.mono hs⟩
  | waitSleep a => exact ⟨hserved hd.1, hd.2.mono hs⟩
  | _ => exact hserved hd

section

variable (hd : Inv init table d (some p) N) (hkin : Kin init d') (hledger : Ledger init d')
    (hothers : ∀ q, q ≠ p → d'.pc q = d.pc q)

include hd hkin hledger hothers

theorem Inv.held_step (hin : (d'.pc p).inside = true) (hat : At init d' p N' (d'.pc p)) :
    Inv init table d' (some p) N' := by
  refine ⟨hkin, hledger, fun q hq hne => ?_, nofun, fun r hr => ?_⟩
  · have hqp : q ≠ p := fun he => hne (by rw [he])
    rw [hothers q hqp] at hq ⊢
    exact hd.away q hq hne
  · obtain rfl := Option.some.inj hr
    exact ⟨hin, hat⟩

theorem Inv.give (hp : (d'.pc p).inside = true → ∃ a, d'.pc p = .waitScan a table false)
    (hserved : Served d' N') : Inv init table d' none N' := by
  refine ⟨hkin, hledger, fun q hq _ => ?_, fun _ => hserved, nofun⟩
  by_cases hqp : q = p
  · rw [hqp] at hq ⊢
    exact hp hq
  · rw [hothers q hqp] at hq ⊢
    exact hd.away q hq fun he => hqp (Option.some.inj he).symm

end

theorem Inv.outside_step (hd : Inv init table d h N) (hp : h ≠ some p) (hkin : Kin init d')
    (hledger : Ledger init d') (hsame : Same d d') (hin : (d'.pc p).inside = false)
    (hothers : ∀ q, q ≠ p → d'.pc q = d.pc q ∨ (d.pc q).inside = false ∧ (d'.pc q).inside = false) :
    Inv init table d' h N := by
  refine ⟨hkin, hledger, fun q hq hne => ?_, fun hn => (hd.free hn).mono hsame fun _ => id,
    fun r hr => ?_⟩
  · have hqp : q ≠ p := by
      rintro rfl
      rw [hin] at hq
      cases hq
    rcases hothers q hqp with heq | ⟨-, hout⟩
    · rw [heq] at hq ⊢
      exact hd.away q hq hne
    · rw [hout] at hq
      cases hq
  · have hrp : r ≠ p := fun he => hp (he ▸ hr)
    obtain ⟨hinside, hat⟩ := hd.held r hr
    rcases hothers r hrp with heq | ⟨hout, -⟩
    · rw [heq]
      exact ⟨hinside, hat.mono hsame fun _ => id⟩
    · rw [hout] at hinside
      cases hinside

theorem Inv.take (hd : Inv init table d none N) (hkin : Kin init d') (hledger : Ledger init d')
    (hothers : ∀ q, q ≠ p → d'.pc q = d.pc q) (hin : (d'.pc p).inside = true)
    (hat : At init d' p N (d'.pc p)) : Inv init table d' (some p) N := by
  refine ⟨hkin, hledger, fun q hq hne => ?_, by simp, fun r hr => ?_⟩
  · have hqp : q ≠ p := fun he => hne (by rw [he])
    rw [hothers q hqp] at hq ⊢
    exact hd.away q hq (by simp)
  · obtain rfl := Option.some.inj hr
    exact ⟨hin, hat⟩

end

/-! ## Kinship is kept -/

section

variable {init : P} {d d' : Table P} {p : P}

variable {l : Pc P} {np : P} {pid : BitVec 32}

theorem Pc.expects_alive {x : ProcState} (hl : l.leaving = false) (h : l.Expects x) :
    x = .ALIVE := by
  cases l <;> first | exact h | cases hl

theorem Pc.dead_of_expects {x : ProcState} (h : l.Expects x) (hx : x = .UNUSED ∨ x = .USED) :
    l = .dead := by
  cases l <;> first | rfl | (rcases hx with rfl | rfl <;> cases h)

section

variable (hk : Kin init d)

include hk

theorem Kin.init_alive : (d.slot init).state = .ALIVE :=
  Pc.expects_alive hk.stays (hk.state init)

/-- One slot changes. Its process keeps a parent; if it stops running it has no
    children; and the forks under way are as they should be. -/
theorem Kin.change (q0 : P) (hslot : ∀ q, q ≠ q0 → d'.slot q = d.slot q)
    (hstate : ∀ p, (d'.pc p).Expects (d'.slot p).state) (hstays : (d'.pc init).leaving = false)
    (hparent : q0 ≠ init → (d'.slot q0).born → ∃ r, (d'.slot q0).parent = some r ∧
      (d'.slot r).state = .ALIVE ∧ ((d'.slot q0).forker = some r ∨ r = init))
    (hchildren : (d.slot q0).state = .ALIVE →
      (d'.slot q0).state = .ALIVE ∨ ∀ q, (d.slot q).parent ≠ some q0)
    (hunused : (d'.slot q0).state = .UNUSED → (d'.slot q0).parent = none)
    (hfork : ∀ p np par, (d'.pc p).child p = some (np, par) →
      (d'.slot np).state = .USED ∧ (d'.slot np).parent = par ∧ (d'.slot np).forker = some p) :
    Kin init d' := by
  refine ⟨hstate, hstays, fun q hq hborn => ?_, fun q hq => ?_, hfork⟩
  · by_cases hq0 : q = q0
    · subst hq0
      exact hparent hq hborn
    · rw [hslot q hq0] at hborn ⊢
      obtain ⟨r, hr, halive, hfr⟩ := hk.parent q hq hborn
      refine ⟨r, hr, ?_, hfr⟩
      by_cases hr0 : r = q0
      · subst hr0
        exact (hchildren halive).resolve_right fun hno => hno q hr
      · rw [hslot r hr0]
        exact halive
  · by_cases hq0 : q = q0
    · subst hq0
      exact hunused hq
    · rw [hslot q hq0] at hq ⊢
      exact hk.unused q hq

/-- The child of somebody else's fork is not this slot. -/
theorem Kin.fork_ne {p0 q0 : P} {par : Option P} (hc : (d.pc p0).child p0 = some (np, par))
    (hq : (d.slot q0).state ≠ .USED ∨ (d.slot q0).forker ≠ some p0) : np ≠ q0 := by
  rintro rfl
  obtain ⟨hs, -, hf⟩ := hk.fork p0 np par hc
  rcases hq with hq | hq
  · exact hq hs
  · exact hq hf

/-- The forks under way do not build in a slot that is not USED. -/
theorem Kin.forks_ne {q0 : P} (hq0 : (d.slot q0).state ≠ .USED) :
    ∀ q, q ≠ p → ∀ np par, (d.pc q).child q = some (np, par) → np ≠ q0 :=
  fun _ _ _ _ hc => hk.fork_ne hc (.inl hq0)

variable [DecidableEq P]

theorem Kin.goto (hl : l.Expects (d.slot p).state) (hinit : p = init → l.leaving = false)
    (hchild : ∀ x, l.child p = some x → (d.pc p).child p = some x) : Kin init (d.goto p l) := by
  refine ⟨fun q => ?_, ?_, hk.parent, hk.unused, fun q np par hc => ?_⟩
  · rw [goto_pc]
    split
    · rename_i hq
      rw [hq]
      exact hl
    · exact hk.state q
  · rw [goto_pc]
    split
    · rename_i hq
      exact hinit hq.symm
    · exact hk.stays
  · rw [goto_pc] at hc
    split at hc
    · rename_i hq
      rw [hq] at hc ⊢
      exact hk.fork p np par (hchild _ hc)
    · exact hk.fork q np par hc

theorem Kin.change_goto (q0 : P) (hpc : d'.pc = d.pc)
    (hslot : ∀ q, q ≠ q0 → d'.slot q = d.slot q) (hl : l.Expects (d'.slot p).state)
    (hinit : p = init → l.leaving = false)
    (hstate : q0 ≠ p → (d.pc q0).Expects (d'.slot q0).state)
    (hparent : q0 ≠ init → (d'.slot q0).born → ∃ r, (d'.slot q0).parent = some r ∧
      (d'.slot r).state = .ALIVE ∧ ((d'.slot q0).forker = some r ∨ r = init))
    (hchildren : (d.slot q0).state = .ALIVE →
      (d'.slot q0).state = .ALIVE ∨ ∀ q, (d.slot q).parent ≠ some q0)
    (hunused : (d'.slot q0).state = .UNUSED → (d'.slot q0).parent = none)
    (hfork : ∀ np par, l.child p = some (np, par) →
      (d'.slot np).state = .USED ∧ (d'.slot np).parent = par ∧ (d'.slot np).forker = some p)
    (hforks : ∀ q, q ≠ p → ∀ np par, (d.pc q).child q = some (np, par) → np ≠ q0) :
    Kin init (d'.goto p l) := by
  refine hk.change q0 hslot (fun q => ?_) ?_ hparent hchildren hunused fun q np par hc => ?_
  · rw [goto_pc]
    split
    · rename_i hq
      rw [hq]
      exact hl
    · rename_i hq
      rw [hpc]
      by_cases hq0 : q = q0
      · rw [hq0]
        exact hstate (hq0 ▸ hq)
      · rw [Table.goto_slot, hslot q hq0]
        exact hk.state q
  · rw [goto_pc]
    split
    · rename_i hq
      exact hinit hq.symm
    · rw [hpc]
      exact hk.stays
  · rw [goto_pc] at hc
    split at hc
    · rename_i hq
      rw [hq] at hc ⊢
      exact hfork np par hc
    · rename_i hq
      rw [hpc] at hc
      rw [Table.goto_slot, hslot np (hforks q hq np par hc)]
      exact hk.fork q np par hc

attribute [local simp] Pc.Expects

theorem Kin.alloc (hp : (d.slot p).state = .ALIVE)
    (hnp : (d.slot np).state = .UNUSED) : Kin init ((d.alloc p np).goto p (.forkLock np pid)) := by
  have hne : p ≠ np := fun he => by rw [he, hnp] at hp; cases hp
  have hdead : d.pc np = .dead := Pc.dead_of_expects (hk.state np) (.inl hnp)
  refine hk.change_goto np rfl (fun q hq => by simp [hq]) ?_ (fun _ => rfl) (fun _ => ?_)
    (fun _ hb => ?_) (fun ha => ?_) (fun hu => ?_) (fun np' par hc => ?_)
    (hk.forks_ne (by simp [hnp]))
  · simpa [hne] using hp
  · simp [hdead]
  · simp [Slot.born] at hb
  · rw [hnp] at ha
    cases ha
  · simp at hu
  · cases hc
    simp [hk.unused np hnp]

theorem Kin.allocFail (hp : (d.slot p).state = .ALIVE) (hnp : (d.slot np).state = .UNUSED) :
    Kin init ((d.allocFail np).goto p (.returned (-1))) := by
  have hne : p ≠ np := fun he => by rw [he, hnp] at hp; cases hp
  have hdead : d.pc np = .dead := Pc.dead_of_expects (hk.state np) (.inl hnp)
  refine hk.change_goto np rfl (fun q hq => by simp [hq]) ?_ (fun _ => rfl)
    (fun _ => ?_) (fun _ hb => ?_) (fun ha => ?_) (fun _ => ?_) nofun (hk.forks_ne (by simp [hnp]))
  · simpa [hne] using hp
  · simp [hdead]
  · simp [Slot.born] at hb
  · rw [hnp] at ha
    cases ha
  · simp

/-- `np->parent = p` -/
theorem Kin.adopt (hpc : d.pc p = .forkParent np pid) :
    Kin init ((d.setParent np p).goto p (.forkUnlock np pid)) := by
  obtain ⟨hused, -, hforker⟩ := hk.fork p np none (by rw [hpc]; rfl)
  have hp : (d.slot p).state = .ALIVE := by have := hk.state p; rwa [hpc] at this
  have hne : p ≠ np := fun he => by rw [he, hused] at hp; cases hp
  refine hk.change_goto np rfl (fun q hq => by simp [hq]) ?_ (fun _ => rfl)
    (fun _ => ?_) (fun _ hb => ?_) (fun ha => ?_) (fun hu => ?_) (fun np' par hc => ?_)
    fun q hq np' par hc => hk.fork_ne hc (.inr ?_)
  · simpa [hne] using hp
  · simpa using hk.state np
  · simp [Slot.born, hused] at hb
  · rw [hused] at ha
    cases ha
  · simp [hused] at hu
  · cases hc
    simp [hused, hforker]
  · rw [hforker]
    simpa using Ne.symm hq

/-- `np->state = RUNNABLE` -/
theorem Kin.start (hpc : d.pc p = .forkRun np pid) :
    Kin init ((d.start np).goto p (.returned pid.toInt)) := by
  obtain ⟨hused, hpar, hforker⟩ := hk.fork p np (some p) (by rw [hpc]; rfl)
  have hp : (d.slot p).state = .ALIVE := by have := hk.state p; rwa [hpc] at this
  have hne : p ≠ np := fun he => by rw [he, hused] at hp; cases hp
  have hslot : ∀ q, q ≠ np → ((d.start np).goto p (.returned pid.toInt)).slot q = d.slot q :=
    fun q hq => by simp [hq]
  refine hk.change np hslot (fun q => ?_) ?_ (fun _ _ => ⟨p, ?_, ?_, .inl ?_⟩) (fun ha => ?_)
    (fun hu => ?_) fun q np' par hc => ?_
  · by_cases hq : q = np
    · simp [hq, Ne.symm hne]
    · rw [hslot q hq, goto_pc]
      split
      · rename_i hqp
        rw [hqp]
        exact hp
      · simpa [hq] using hk.state q
  · have hinit : init ≠ np := fun he => by
      have := hk.init_alive
      rw [he, hused] at this
      cases this
    by_cases hq : init = p
    · simp [hq, Pc.leaving]
    · simpa [hq, hinit] using hk.stays
  · simpa using hpar
  · rw [hslot p hne]
    exact hp
  · simpa using hforker
  · rw [hused] at ha
    cases ha
  · simp at hu
  · rw [goto_pc] at hc
    split at hc
    · cases hc
    · rename_i hqp
      by_cases hq : q = np
      · simp [hq, Pc.child] at hc
      · have hc' : (d.pc q).child q = some (np', par) := by simpa [hq] using hc
        have hne' : np' ≠ np := hk.fork_ne hc' (.inr (by rw [hforker]; simpa using Ne.symm hqp))
        rw [hslot np' hne']
        exact hk.fork q np' par hc'

/-- `pp->parent = initproc` -/
theorem Kin.reparent {pp : P} (hpp : (d.slot pp).parent = some p)
    (hl : l.Expects (d.slot p).state) (hinit : p = init → l.leaving = false)
    (hlchild : l.child p = none) :
    Kin init ((d.setParent pp init).goto p l) := by
  have hstate : ∀ q, ((d.setParent pp init).slot q).state = (d.slot q).state := fun q => by
    by_cases hq : q = pp <;> simp [hq]
  refine hk.change_goto pp rfl (fun q hq => by simp [hq]) (by rwa [hstate]) hinit
    (fun _ => by rw [hstate]; exact hk.state pp) (fun _ _ => ⟨init, ?_, ?_, .inr rfl⟩)
    (fun ha => .inl (by rwa [hstate])) (fun hu => ?_) (fun np par hc => ?_)
    fun q hq np par hc => ?_
  · simp
  · rw [hstate]
    exact hk.init_alive
  · rw [hstate] at hu
    rw [hk.unused pp hu] at hpp
    cases hpp
  · rw [hlchild] at hc
    cases hc
  · -- the parent of a child under construction is not set, or is the one that forks
    rintro rfl
    obtain ⟨-, hpar, hforker⟩ := hk.fork q np par hc
    rw [hpp] at hpar
    revert hc
    rw [← hpar]
    cases d.pc q <;> simp [Pc.child] <;> exact fun _ h => absurd h hq

/-- `p->state = ZOMBIE`, when nobody is a child of `p`. -/
theorem Kin.zombie {status : Int} (hpc : d.pc p = .exitZombie status)
    (hno : ∀ q, (d.slot q).parent ≠ some p) :
    Kin init ((d.zombie p status).goto p .exitUnlock) := by
  have hp : (d.slot p).state = .ALIVE := by have := hk.state p; rwa [hpc] at this
  have hne : p ≠ init := fun he => by
    have := hk.stays
    rw [← he, hpc] at this
    cases this
  refine hk.change_goto p rfl (fun q hq => by simp [hq]) ?_
    (fun he => absurd he hne) (fun h => absurd rfl h) (fun _ _ => ?_) (fun _ => .inr hno)
    (fun hu => ?_) nofun (hk.forks_ne (by simp [hp]))
  · simp
  · obtain ⟨r, hr, halive, hf⟩ := hk.parent p hne (.inl hp)
    have hrp : r ≠ p := fun he => hno p (he ▸ hr)
    exact ⟨r, by simpa using hr, by simpa [hrp] using halive,
      by simpa using hf⟩
  · simp at hu

/-- `freeproc(pp)`, when the zombie `pp` is past its `exit`. -/
theorem Kin.reap {pp : P} (hpp : (d.slot pp).state = .ZOMBIE)
    (hdead : d.pc pp = .dead) (hl : l.Expects (d.slot p).state) (hp : (d.slot p).state = .ALIVE)
    (hinit : p = init → l.leaving = false) (hlchild : l.child p = none) :
    Kin init ((d.reap p pp).goto p l) := by
  have hne : p ≠ pp := fun he => by rw [he, hpp] at hp; cases hp
  refine hk.change_goto pp rfl (fun q hq => by simp [hq]) ?_ hinit (fun _ => ?_)
    (fun _ hb => ?_) (fun ha => ?_) (fun _ => ?_) (fun np par hc => ?_)
    (hk.forks_ne (by simp [hpp]))
  · simpa [hne] using hl
  · simp [hdead]
  · simp [Slot.born] at hb
  · rw [hpp] at ha
    cases ha
  · simp
  · rw [hlchild] at hc
    cases hc

end

end

/-! ## The record is kept -/

section

variable {init : P} {d d' : Table P} {p : P}

theorem Ledger.change (hd : Ledger init d) (q0 : P) (hslot : ∀ q, q ≠ q0 → d'.slot q = d.slot q)
    (hexits : d'.exits = d.exits) (hreaps : d'.reaps = d.reaps)
    (hgen : (d.slot q0).gen ≤ (d'.slot q0).gen)
    (hsame : (d'.slot q0).gen = (d.slot q0).gen →
      (d'.slot q0).state = (d.slot q0).state ∨ (d.slot q0).state = .USED)
    (hzombie : (d'.slot q0).state = .ZOMBIE → (d.slot q0).state = .ZOMBIE ∧
      (d'.slot q0).gen = (d.slot q0).gen ∧ (d'.slot q0).forker = (d.slot q0).forker ∧
      (d'.slot q0).pid = (d.slot q0).pid ∧ (d'.slot q0).xstate = (d.slot q0).xstate) :
    Ledger init d' := by
  refine ⟨fun e he => ?_, fun q hq => ?_, fun r hr => ?_, fun r hr => ?_, ?_⟩
  · rw [hexits] at he
    obtain ⟨hle, hcur⟩ := hd.exited e he
    by_cases hq : e.slot = q0
    · rw [hq] at hle hcur ⊢
      refine ⟨Nat.le_trans hle hgen, fun heq => ?_⟩
      have hg : (d'.slot q0).gen = (d.slot q0).gen := by omega
      rcases hsame hg with hs | hs
      · rw [hs]
        exact hcur (by omega)
      · have := hcur (by omega)
        rw [hs] at this
        rcases this with h | h <;> cases h
    · rw [hslot _ hq]
      exact ⟨hle, hcur⟩
  · rw [hexits]
    by_cases hq0 : q = q0
    · subst hq0
      obtain ⟨hz, h1, h2, h3, h4⟩ := hzombie hq
      rw [h1, h2, h3, h4]
      exact hd.zombie q hz
    · rw [hslot q hq0] at hq ⊢
      exact hd.zombie q hq
  · rw [hreaps] at hr
    rw [hexits]
    obtain ⟨hmem, hcur⟩ := hd.reaped r hr
    refine ⟨hmem, fun heq => ?_⟩
    by_cases hq : r.2.slot = q0
    · rw [hq] at hcur heq ⊢
      have hle := (hd.exited r.2 hmem).1
      rw [hq] at hle
      have hg : (d'.slot q0).gen = (d.slot q0).gen := by omega
      rcases hsame hg with hs | hs
      · rw [hs]
        exact hcur (by omega)
      · have := hcur (by omega)
        rw [hs] at this
        cases this
    · rw [hslot _ hq] at heq ⊢
      exact hcur heq
  · rw [hreaps] at hr
    exact hd.kin r hr
  · rw [hreaps]
    exact hd.once

variable [DecidableEq P]

/-- A process exits: it is on record, once. -/
theorem Ledger.zombie_step {status : Int} (hd : Ledger init d) (hp : (d.slot p).state = .ALIVE) :
    Ledger init (d.zombie p status) := by
  have hnew : ∀ e ∈ d.exits, e.slot = p → e.gen < (d.slot p).gen := by
    intro e he hep
    obtain ⟨hle, hcur⟩ := hd.exited e he
    rw [hep, hp] at hcur
    rw [hep] at hle
    refine Nat.lt_of_le_of_ne hle fun heq => ?_
    rcases hcur heq with h | h <;> cases h
  have hslot : ∀ q, q ≠ p → (d.zombie p status).slot q = d.slot q := fun q hq => by
    simp [hq]
  have hgen : ∀ q, ((d.zombie p status).slot q).gen = (d.slot q).gen := fun q => by
    by_cases hq : q = p
    · simp [hq]
    · rw [hslot q hq]
  refine ⟨fun e he => ?_, fun q hq => ?_, fun r hr => ?_, hd.kin, hd.once⟩
  · rcases mem_append.mp he with he | he
    · refine ⟨by rw [hgen]; exact (hd.exited e he).1, fun heq => ?_⟩
      rw [hgen] at heq
      by_cases hq : e.slot = p
      · have := hnew e he hq
        rw [hq] at heq
        omega
      · rw [hslot _ hq]
        exact (hd.exited e he).2 heq
    · obtain rfl := mem_singleton.mp he
      refine ⟨by rw [hgen]; exact Nat.le_refl _, fun _ => .inl ?_⟩
      simp [Table.leaving]
  · by_cases hqp : q = p
    · subst hqp
      exact mem_append.mpr (.inr (by simp [Table.leaving]))
    · rw [hslot q hqp] at hq ⊢
      exact mem_append.mpr (.inl (hd.zombie q hq))
  · obtain ⟨hmem, hcur⟩ := hd.reaped r hr
    refine ⟨mem_append.mpr (.inl hmem), fun heq => ?_⟩
    rw [hgen] at heq
    by_cases hq : r.2.slot = p
    · have := hnew r.2 hmem hq
      rw [hq] at heq
      omega
    · rw [hslot _ hq]
      exact hcur heq

/-- A zombie is reaped: it was not before. -/
theorem Ledger.reap_step {pp : P} (hd : Ledger init d) (hpp : (d.slot pp).state = .ZOMBIE)
    (hkin : (d.slot pp).forker = some p ∨ p = init) : Ledger init (d.reap p pp) := by
  have hslot : ∀ q, q ≠ pp → (d.reap p pp).slot q = d.slot q := fun q hq => by
    simp [hq]
  have hgen : ∀ q, ((d.reap p pp).slot q).gen = (d.slot q).gen := fun q => by
    by_cases hq : q = pp
    · simp [hq]
    · rw [hslot q hq]
  have hfree : ((d.reap p pp).slot pp).state = .UNUSED := by simp
  have hstate : ∀ q, (d.slot q).state = .UNUSED → ((d.reap p pp).slot q).state = .UNUSED := by
    intro q hq
    by_cases hqp : q = pp
    · rw [hqp]
      exact hfree
    · rw [hslot q hqp]
      exact hq
  refine ⟨fun e he => ?_, fun q hq => ?_, fun r hr => ?_, fun r hr => ?_, ?_⟩
  · refine ⟨by rw [hgen]; exact (hd.exited e he).1, fun heq => ?_⟩
    rw [hgen] at heq
    by_cases hq : e.slot = pp
    · rw [hq]
      exact .inr hfree
    · rw [hslot _ hq]
      exact (hd.exited e he).2 heq
  · have hqp : q ≠ pp := by
      rintro rfl
      rw [hfree] at hq
      cases hq
    rw [hslot q hqp] at hq ⊢
    exact hd.zombie q hq
  · rcases mem_append.mp hr with hr | hr
    · refine ⟨(hd.reaped r hr).1, fun heq => hstate _ ((hd.reaped r hr).2 ?_)⟩
      rwa [hgen] at heq
    · obtain rfl := mem_singleton.mp hr
      exact ⟨hd.zombie pp hpp, fun _ => hfree⟩
  · rcases mem_append.mp hr with hr | hr
    · exact hd.kin r hr
    · obtain rfl := mem_singleton.mp hr
      exact hkin
  · show ((d.reaps ++ [_]).map _).Nodup
    rw [map_append]
    refine nodup_append.mpr ⟨hd.once, nodup_singleton _, fun a ha b hb hab => ?_⟩
    obtain ⟨r, hr, rfl⟩ := mem_map.mp ha
    rw [map_singleton, mem_singleton] at hb
    subst hb
    obtain ⟨hs, hg⟩ := Prod.mk.inj hab
    -- an earlier reap of the same process would have left its slot empty
    have hcur := (hd.reaped r hr).2
    simp only [Table.leaving] at hs hg
    rw [hs] at hcur
    have := hcur hg
    rw [hpp] at this
    cases this

end

end Wait

end Xv6
