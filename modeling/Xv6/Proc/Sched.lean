import Xv6.Proc.Placed

/-!
# A process runs on one CPU at a time

Every step of a thread, a scheduler or a visit keeps what `Proc.Placed` says of
the locks and the processes, and none of them panics. The one argument that is
not bookkeeping is `nowhere`: a scheduler that finds a process RUNNABLE under
its lock has it to itself, since a process on its way out of another CPU still
holds that lock.
-/

namespace Xv6

namespace Cpus

namespace State

variable {C P L : Type} {s s' : State C P L} {c c' : C} {k : Lk P L} {p q t : P}

/-! ## What the invariant gives -/

theorem held_thread (hv : (s.cpu c).visit = none) (ht : (s.cpu c).thread = some t) :
    s.held c = (s.pc t).held t := by
  simp [held, own, hv, ht]

theorem held_sched (hv : (s.cpu c).visit = none) (ht : (s.cpu c).thread = none) :
    s.held c = (s.cpu c).spc.held := by
  simp [held, own, hv, ht]

theorem Placed.proc_none (h : s.Placed) (ht : (s.cpu c).thread = none)
    (hspc : ∀ p rest, (s.cpu c).spc ≠ .away p rest) : (s.cpu c).proc = none := by
  cases hp : (s.cpu c).proc with
  | none => rfl
  | some p =>
    obtain ⟨rest, hr⟩ := h.idle c p ht hp
    exact absurd hr (hspc p rest)

/-- A process whose lock this scheduler holds is on no CPU, if it is
    RUNNABLE. -/
theorem Inv.nowhere (h : s.Inv) (hv : (s.cpu c).visit = none) (ht : (s.cpu c).thread = none)
    {rest : List P} (hspc : (s.cpu c).spc = .test p rest) (hrun : s.state p = .RUNNABLE) (c' : C) :
    (s.cpu c').proc ≠ some p := by
  intro hp
  have hmine : (.proc p : Lk P L) ∈ s.held c := by
    rw [held_sched hv ht, hspc]
    simp [SchedPc.held]
  -- whoever holds the lock is this CPU
  have hsame : (.proc p : Lk P L) ∈ s.held c' → c' = c := by
    intro hmem
    have hlock := (h.locks.owner _ _).mpr hmine
    rw [(h.locks.owner _ _).mpr hmem] at hlock
    injection hlock
  cases ht' : (s.cpu c').thread with
  | none =>
    obtain ⟨rest', haway⟩ := h.placed.idle c' p ht' hp
    have hc : c' = c := by
      apply hsame
      simp [held, own, ht', haway, SchedPc.held]
    rw [hc, hspc] at haway
    cases haway
  | some t =>
    obtain ⟨hpt, -, hfits⟩ := h.placed.thread c' t ht'
    rw [hp] at hpt
    injection hpt with hpt
    subst hpt
    rw [hrun] at hfits
    cases hpc : s.pc p with
    | sched k =>
      have hc : c' = c := by
        apply hsame
        simp [held, own, ht', hpc, Pc.held]
      rw [hc, ht] at ht'
      cases ht'
    | parked k =>
      rw [hpc] at hfits
      cases hfits.1
    | _ =>
      rw [hpc] at hfits
      cases hfits

theorem not_mem_own (hmay : s.mayVisit c = true) : (.proc q : Lk P L) ∉ s.own c := by
  unfold mayVisit at hmay
  unfold own
  cases ht : (s.cpu c).thread with
  | none =>
    simp only [ht] at hmay ⊢
    cases hspc : (s.cpu c).spc with
    | loop | scan rest => simp [SchedPc.held]
    | _ =>
      rw [hspc] at hmay
      cases hmay
  | some t =>
    simp only [ht] at hmay ⊢
    cases hpc : s.pc t with
    | kernel ls => simp [Pc.held]
    | _ =>
      rw [hpc] at hmay
      cases hmay

/-- A visited process that is not RUNNING is on no CPU. -/
theorem Inv.visited_away (h : s.Inv) (hv : (s.cpu c).visit = some q) (hrun : s.state q ≠ .RUNNING)
    (c' : C) : (s.cpu c').thread ≠ some q := by
  intro ht
  have hfits := (h.placed.thread c' q ht).2.2
  have hown : (.proc q : Lk P L) ∈ s.own c' := by
    unfold own
    rw [ht]
    cases hpc : s.pc q with
    | kernel ls =>
      rw [hpc] at hfits
      exact absurd hfits hrun
    | _ => simp [hpc, Pc.held]
  have hmem : (.proc q : Lk P L) ∈ s.held c := by simp [held, hv]
  have hmem' : (.proc q : Lk P L) ∈ s.held c' := by simp [held, hown]
  have hlock := (h.locks.owner _ _).mpr hmem
  rw [(h.locks.owner _ _).mpr hmem'] at hlock
  injection hlock with hc
  rw [hc] at hown
  exact not_mem_own (h.placed.visit c (by simp [hv])) hown

/-- Before any CPU starts its scheduler: every process will start at
    `forkret`. -/
def Boots (s : State C P L) : Prop :=
  (∀ c, s.cpu c = Cpu.boot) ∧ (∀ k, s.lock k = none) ∧
    (∀ p, s.pc p = .parked .forkret ∧ s.state p ≠ .RUNNING)

theorem Boots.inv (h : Boots s) : s.Inv := by
  obtain ⟨hcpu, hlock, hproc⟩ := h
  have hheld : ∀ c, s.held c = [] := by
    intro c
    simp [held, own, hcpu, Cpu.boot, SchedPc.held]
  refine ⟨⟨?_, ?_, ?_, ?_⟩, ⟨?_, ?_, ?_, ?_, ?_, ?_⟩⟩ <;> simp [hlock, hheld, hcpu, hproc, Cpu.boot]

/-- A RUNNING process whose lock is free is executed by the one CPU that has
    it. -/
theorem Inv.running_iff (h : s.Inv) (hfree : s.lock (.proc p) = none) :
    s.state p = .RUNNING ↔ ∃! c, (s.cpu c).proc = some p ∧ (s.cpu c).thread = some p := by
  constructor
  · intro hrun
    obtain ⟨c, hc⟩ := h.placed.running p hrun
    refine ⟨c, ⟨(h.placed.thread c p hc).1, hc⟩, ?_⟩
    intro c' hc'
    exact h.placed.thread_inj hc hc'.2
  · intro hex
    obtain ⟨c, ⟨-, ht⟩, -⟩ := hex
    have hfits := (h.placed.thread c p ht).2.2
    cases hpc : s.pc p with
    | kernel ls =>
      rw [hpc] at hfits
      exact hfits
    | _ =>
      -- anywhere else the thread holds its own lock
      have hmem : (.proc p : Lk P L) ∈ s.held c := by simp [held, own, ht, hpc, Pc.held]
      rw [(h.locks.owner _ _).mpr hmem] at hfree
      cases hfree

/-! ## The steps -/

variable [DecidableEq C] [DecidableEq P] [DecidableEq L]

attribute [local simp] take drop Cpu.pushOff sgoto

/-- A step that begins with `acquire`. -/
theorem Inv.take_safe (h : s.Inv) (hk : k ∉ s.held c) {f : State C P L → State C P L}
    (ha : Apart s (f (s.take c k)) c) (hlock : (f (s.take c k)).lock = (s.take c k).lock)
    (hcpu : ((f (s.take c k)).cpu c).noff = (s.cpu c).noff + 1 ∧
      ((f (s.take c k)).cpu c).intr = false)
    (hheld : ((f (s.take c k)).held c).Perm (k :: s.held c)) (hp : (f (s.take c k)).Placed) :
    ((s.acquire c k).bind fun s => .next (f s)).Safe Inv := by
  refine h.locks.acquire_safe hk fun hfree => ⟨?_, hp⟩
  exact h.locks.taken hfree ha (fun k' => by rw [hlock]; simp) hcpu.1 hcpu.2 hheld

/-- A step that begins with `release`. -/
theorem Inv.drop_safe (h : s.Inv) {f : State C P L → State C P L}
    (ha : Apart s (f (s.drop c k)) c) (hlock : (f (s.drop c k)).lock = (s.drop c k).lock)
    (hcpu : ((f (s.drop c k)).cpu c).noff = ((s.drop c k).cpu c).noff ∧
      ((f (s.drop c k)).cpu c).intr = ((s.drop c k).cpu c).intr)
    (hheld : (s.held c).Perm (k :: (f (s.drop c k)).held c)) (hp : (f (s.drop c k)).Placed) :
    ((s.release c k).bind fun s => .next (f s)).Safe Inv := by
  refine h.locks.release_safe (hheld.mem_iff.mpr (by simp)) ⟨?_, hp⟩
  refine h.locks.dropped ha (fun k' => by rw [hlock]; simp) ?_ ?_ hheld
  · rw [hcpu.1]
    simp
  · rw [hcpu.2]
    intro hi
    simp only [drop, setCpu_cpu, if_true, Bool.and_eq_true, decide_eq_true_eq] at hi
    exact hi.1

section Thread

variable (h : s.Inv) (hv : (s.cpu c).visit = none) (ht : (s.cpu c).thread = some t)
include h hv ht

omit [DecidableEq C] [DecidableEq L] in
/-- The thread of `t` goes on to `l` and holds the same locks. -/
theorem Inv.go {x : ProcState} {l : Pc L} (hheld : l.held t = (s.pc t).held t)
    (hfits : l.Fits x) : ((s.setState t x).goto t l).Inv := by
  have ha : Apart s ((s.setState t x).goto t l) c :=
    h.placed.apart ht (fun _ _ => rfl) (fun q hq => by simp [hq])
  refine ⟨h.locks.kept ha rfl rfl (fun _ => rfl) ?_, h.placed.stay ht ha ⟨rfl, rfl, rfl⟩ hv
    (fun q hq => by simp [hq]) (fun q hq => by simp [hq]) (by simpa using hfits)⟩
  have hv' : (((s.setState t x).goto t l).cpu c).visit = none := hv
  rw [held_thread hv ht, held_thread hv' ht, goto_pc, if_pos rfl, hheld]

theorem Inv.goTake {l : Pc L} (hk : k ∉ (s.pc t).held t)
    (hheld : (l.held t).Perm (k :: (s.pc t).held t)) (hfits : l.Fits (s.state t)) :
    ((s.acquire c k).bind fun s => .next (s.goto t l)).Safe Inv := by
  have hsits : Sits (s.cpu c) (((s.take c k).goto t l).cpu c) := by
    constructor <;> simp
  have hv' : (((s.take c k).goto t l).cpu c).visit = none := by simpa using hv
  have ha : Apart s ((s.take c k).goto t l) c :=
    h.placed.apart ht (fun c' hc => by simp [hc]) (fun q hq => by simp [hq])
  refine h.take_safe (by rwa [held_thread hv ht]) (f := fun s => s.goto t l) ha rfl
    (by simp) ?_ (h.placed.stay ht ha hsits hv' (fun q hq => by simp [hq])
      (fun _ _ => rfl) (by simpa using hfits))
  rwa [held_thread hv ht, held_thread hv' (hsits.thread.trans ht), goto_pc, if_pos rfl]

theorem Inv.goDrop {l : Pc L} (hheld : ((s.pc t).held t).Perm (k :: l.held t))
    (hfits : l.Fits (s.state t)) :
    ((s.release c k).bind fun s => .next (s.goto t l)).Safe Inv := by
  have hsits : Sits (s.cpu c) (((s.drop c k).goto t l).cpu c) := by
    constructor <;> simp
  have hv' : (((s.drop c k).goto t l).cpu c).visit = none := by simpa using hv
  have ha : Apart s ((s.drop c k).goto t l) c :=
    h.placed.apart ht (fun c' hc => by simp [hc]) (fun q hq => by simp [hq])
  refine h.drop_safe (f := fun s => s.goto t l) ha rfl ⟨rfl, rfl⟩ ?_ (h.placed.stay ht ha hsits hv'
    (fun q hq => by simp [hq]) (fun _ _ => rfl) (by simpa using hfits))
  rwa [held_thread hv ht, held_thread hv' (hsits.thread.trans ht), goto_pc, if_pos rfl]

omit [DecidableEq P] [DecidableEq L] in
theorem Inv.setIntr {i e : Bool} (hi : (s.pc t).held t ≠ [] → i = (s.cpu c).intr) :
    (s.setCpu c { s.cpu c with intr := i, intena := e }).Inv := by
  have ha : Apart s (s.setCpu c { s.cpu c with intr := i, intena := e }) c :=
    apart_of_pc (fun c' hc => by simp [hc]) rfl
  refine ⟨h.locks.kept ha rfl (by simp) (fun hne => ?_) (by simp [held, own]),
    h.placed.stay ht ha (by constructor <;> simp) (by simpa using hv) (fun _ _ => rfl)
      (fun _ _ => rfl) (h.placed.thread c t ht).2.2⟩
  rw [held_thread hv ht] at hne
  simpa using hi hne

omit [DecidableEq L] in
/-- **`sched` passes its checks**, and the process leaves its CPU to the
    scheduler. -/
theorem Inv.sched_safe {k : After} (hpc : s.pc t = .sched k) : (s.sched c t k).Safe Inv := by
  obtain ⟨hproc, ⟨rest, hspc⟩, hfits⟩ := h.placed.thread c t ht
  rw [hpc] at hfits
  obtain ⟨hrun, hgone⟩ := hfits
  have hheld : s.held c = [.proc t] := by
    rw [held_thread hv ht, hpc]
    rfl
  have hlock : s.lock (.proc t) = some c := by simp [h.locks.owner, hheld]
  have hnoff : (s.cpu c).noff = 1 := by simp [h.locks.noff, hheld]
  have hintr : (s.cpu c).intr = false := h.locks.intr c (by simp [hheld])
  unfold sched
  rw [if_neg (by simp [hlock]), if_neg (by simp [hnoff]), if_neg hrun, if_neg (by simp [hintr])]
  generalize hs' : State.goto _ t (.parked k) = s'
  have ha : Apart s s' c := h.placed.apart ht (fun c' hc => by simp [← hs', hc])
    fun q hq => by simp [← hs', hq]
  refine ⟨h.locks.kept ha (by simp [← hs']) (by simp [← hs']) (by simp [← hs']) ?_,
    h.placed.change ha (by simp [← hs', hv]) (by simp [← hs']) (by simp [← hs', hproc, hspc])
      (fun p hp => .inl (by simpa [← hs'] using hp)) (by simp [← hs']) fun p _ hothers => ?_⟩
  · rw [hheld, held_sched (by simpa [← hs'] using hv) (by simp [← hs'])]
    simp [← hs', hspc, SchedPc.held]
  · by_cases hp : p = t
    · exact ⟨by simpa [← hs', hp] using hrun, k, by simp [← hs', hp],
        fun hk => .inl (by simpa [← hs', hp] using hgone hk)⟩
    · refine (h.placed.off fun c' => ?_).congr (by simp [← hs', hp]) (by simp [← hs'])
      by_cases hc : c' = c
      · simp [hc, ht, Ne.symm hp]
      · exact hothers c' hc

end Thread

omit [DecidableEq C] [DecidableEq L] in
theorem Inv.myproc_safe (h : s.Inv) (ht : (s.cpu c).thread = some t)
    {x : Outcome (State C P L)} {Q : State C P L → Prop} (hx : x.Safe Q) :
    (s.myproc c t x).Safe Q := by
  unfold myproc
  rw [if_pos (h.placed.thread c t ht).1]
  exact hx

theorem Inv.kernelStep_safe (h : s.Inv) (hv : (s.cpu c).visit = none)
    (ht : (s.cpu c).thread = some t) {ls : List L} (hpc : s.pc t = .kernel ls) (x : Choice L) :
    (s.kernelStep c t ls x).Safe Inv := by
  have hrun : s.state t = .RUNNING := by
    have hfits := (h.placed.thread c t ht).2.2
    rw [hpc] at hfits
    exact hfits
  have hheld : (s.pc t).held t = ls.map .other := by rw [hpc]; rfl
  have hown : (.proc t : Lk P L) ∉ (s.pc t).held t := by simp [hheld]
  cases x with
  | lock l =>
    simp only [kernelStep]
    split
    · trivial
    · rename_i hl
      exact h.goTake hv ht (by simpa [hheld] using hl) (by rw [hheld]; rfl) hrun
  | unlock l =>
    simp only [kernelStep]
    split
    · rename_i hl
      exact h.goDrop hv ht (by rw [hheld]; exact (List.perm_cons_erase hl).map _) hrun
    · trivial
  | intr on =>
    simp only [kernelStep]
    split
    · rename_i hls
      exact h.setIntr hv ht (by simp [hheld, hls])
    · trivial
  | yield =>
    simp only [kernelStep]
    split
    · rename_i hls
      subst hls
      exact h.myproc_safe ht (h.goTake hv ht hown (by rw [hheld]; rfl) hrun)
    · trivial
  | sleep =>
    simp only [kernelStep]
    split
    · exact h.myproc_safe ht (h.goTake hv ht hown (by rw [hheld]; rfl) hrun)
    · trivial
  | exit =>
    simp only [kernelStep]
    split
    · exact h.myproc_safe ht (h.goTake hv ht hown (by rw [hheld]; rfl) hrun)
    · trivial

theorem Inv.procStep_safe (h : s.Inv) (hv : (s.cpu c).visit = none)
    (ht : (s.cpu c).thread = some t) (x : Choice L) : (s.procStep c t x).Safe Inv := by
  have hfits := (h.placed.thread c t ht).2.2
  unfold procStep
  cases hpc : s.pc t with
  | kernel ls => exact h.kernelStep_safe hv ht hpc x
  | yielding => exact h.go hv ht (by rw [hpc]; rfl) ⟨by simp, by simp⟩
  | sleeping l =>
    rw [hpc] at hfits
    exact h.goDrop hv ht (by rw [hpc]; exact List.Perm.swap _ _ _) hfits
  | dozing => exact h.go hv ht (by rw [hpc]; rfl) ⟨by simp, by simp⟩
  | exiting l => exact h.go hv ht (by rw [hpc]; rfl) rfl
  | exited l =>
    rw [hpc] at hfits
    have hz : s.state t = .ZOMBIE := hfits
    exact h.goDrop hv ht (by rw [hpc]; exact List.Perm.swap _ _ _) ⟨by simp [hz], fun _ => hz⟩
  | sched k => exact h.myproc_safe ht (h.sched_safe hv ht hpc)
  | parked k =>
    rw [hpc] at hfits
    obtain ⟨hrun, hk⟩ := hfits
    -- the thread comes back from sched
    have hback : (((s.setCpu c { s.cpu c with intena := s.intena t }).release c (.proc t)).bind
        fun s => .next (s.goto t (.kernel []))).Safe Inv := by
      have hi : (s.setCpu c { s.cpu c with intena := s.intena t }).Inv :=
        h.setIntr hv ht (fun _ => rfl)
      exact hi.goDrop (by simpa using hv) (by simpa using ht)
        (by rw [setCpu_pc, hpc]; exact .refl _) hrun
    cases k with
    | forkret =>
      exact h.myproc_safe ht (h.goDrop hv ht (by rw [hpc]; exact .refl _) hrun)
    | yielded => exact hback
    | slept => exact hback
    | gone => exact absurd rfl hk

section Scheduler

variable (h : s.Inv) (hv : (s.cpu c).visit = none) (ht : (s.cpu c).thread = none)
include h hv ht

variable {l : SchedPc P}

omit [DecidableEq P] [DecidableEq L] in
theorem Inv.schedGo {i : Bool} (hheld : (l.held : List (Lk P L)) = (s.cpu c).spc.held)
    (hi : ((s.cpu c).spc.held : List (Lk P L)) ≠ [] → i = (s.cpu c).intr) :
    (s.setCpu c { s.cpu c with intr := i, proc := none, spc := l }).Inv := by
  generalize hs' : s.setCpu c _ = s'
  have ha : Apart s s' c := apart_of_pc (fun c' hc => by simp [← hs', hc]) (by simp [← hs'])
  have hv' : (s'.cpu c).visit = none := by simpa [← hs'] using hv
  have ht' : (s'.cpu c).thread = none := by simpa [← hs'] using ht
  refine ⟨h.locks.kept ha (by simp [← hs']) (by simp [← hs']) (fun hne => ?_) ?_,
    h.placed.loops ht ha ht' (by simp [← hs']) hv' (by simp [← hs']) (by simp [← hs'])⟩
  · rw [held_sched hv ht] at hne
    simpa [← hs'] using hi hne
  · rw [held_sched hv ht, held_sched hv' ht']
    simpa [← hs'] using hheld

omit [DecidableEq P] [DecidableEq L] in
/-- The same, where the CPU has no process. -/
theorem Inv.schedLoop (hproc : (s.cpu c).proc = none) {i : Bool}
    (hheld : (l.held : List (Lk P L)) = (s.cpu c).spc.held)
    (hi : ((s.cpu c).spc.held : List (Lk P L)) ≠ [] → i = (s.cpu c).intr) :
    (s.setCpu c { s.cpu c with intr := i, spc := l }).Inv := by
  have hgo := h.schedGo hv ht hheld hi
  rw [← hproc] at hgo
  exact hgo

variable (hproc : (s.cpu c).proc = none)
include hproc

theorem Inv.schedTake (hspc : ((s.cpu c).spc.held : List (Lk P L)) = []) (hheld : l.held = [k]) :
    ((s.acquire c k).bind fun s => .next (s.sgoto c l)).Safe Inv := by
  have hnone : s.held c = [] := by rw [held_sched hv ht, hspc]
  have ha : Apart s ((s.take c k).sgoto c l) c :=
    apart_of_pc (fun c' hc => by simp [hc]) rfl
  have hv' : (((s.take c k).sgoto c l).cpu c).visit = none := by
    simpa using hv
  have ht' : (((s.take c k).sgoto c l).cpu c).thread = none := by
    simpa using ht
  refine h.take_safe (by simp [hnone]) (f := fun s => s.sgoto c l) ha rfl
    (by simp) ?_ (h.placed.loops ht ha ht'
      (by simpa using hproc) hv' rfl rfl)
  rw [hnone, held_sched hv' ht']
  simp [hheld]

theorem Inv.schedDrop (hspc : (s.cpu c).spc.held = [k]) (hheld : (l.held : List (Lk P L)) = []) :
    ((s.release c k).bind fun s => .next (s.sgoto c l)).Safe Inv := by
  have ha : Apart s ((s.drop c k).sgoto c l) c :=
    apart_of_pc (fun c' hc => by simp [hc]) rfl
  have hv' : (((s.drop c k).sgoto c l).cpu c).visit = none := by simpa using hv
  have ht' : (((s.drop c k).sgoto c l).cpu c).thread = none := by simpa using ht
  refine h.drop_safe (f := fun s => s.sgoto c l) ha rfl (by simp) ?_
    (h.placed.loops ht ha ht' (by simpa using hproc) hv' rfl rfl)
  rw [held_sched hv ht, hspc, held_sched hv' ht']
  simp [hheld]

end Scheduler

omit [DecidableEq L] in
/-- `swtch(&c->context, &p->context)`: the scheduler's lock is now the
    process's. -/
theorem Inv.switch (h : s.Inv) (hv : (s.cpu c).visit = none) (ht : (s.cpu c).thread = none)
    {rest : List P} (hspc : (s.cpu c).spc = .test p rest) (hrun : s.state p = .RUNNABLE) :
    ((s.setState p .RUNNING).setCpu c
      { s.cpu c with proc := some p, thread := some p, spc := .away p rest }).Inv := by
  have hnone := h.nowhere hv ht hspc hrun
  have haway : ∀ c', (s.cpu c').thread ≠ some p := by
    intro c' hc'
    exact hnone c' (h.placed.thread c' p hc').1
  have ha : Apart s ((s.setState p .RUNNING).setCpu c
      { s.cpu c with proc := some p, thread := some p, spc := .away p rest }) c :=
    apart_of_pc (fun c' hc => by simp [hc]) rfl
  obtain ⟨k, hk, hgone⟩ := h.placed.parked p haway
  refine ⟨h.locks.kept ha rfl (by simp) (by simp) ?_, h.placed.change ha (by simp [hv]) ?_
    (by simp) ?_ ?_ ?_⟩
  · rw [held_sched hv ht, held_thread (t := p) (by simpa using hv) (by simp), hspc]
    simp [hk, Pc.held, SchedPc.held]
  · rintro t ht
    obtain rfl : p = t := by simpa using ht
    have hgone' : k ≠ .gone := fun e => by simpa [hrun] using hgone e
    simp [hk, Pc.Fits, hgone']
  · intro q hq
    obtain rfl : p = q := by simpa using hq
    exact .inr hnone
  · intro c' t _ ht'
    have hne : t ≠ p := fun e => haway c' (e ▸ ht')
    simp [hne]
  · intro q hq hothers
    have hne : q ≠ p := fun e => hq (by simp [e])
    refine (h.placed.off fun c' => ?_).congr rfl (by simp [hne])
    by_cases hc : c' = c
    · simp [hc, ht]
    · exact hothers c' hc

theorem Inv.schedStep_safe (table : List P) (h : s.Inv) (hv : (s.cpu c).visit = none)
    (ht : (s.cpu c).thread = none) : (schedStep table s c).Safe Inv := by
  have hproc := h.placed.proc_none ht
  unfold schedStep
  cases hspc : (s.cpu c).spc with
  | start => exact h.schedGo hv ht (by rw [hspc]; rfl) (fun _ => rfl)
  | loop =>
    have hp := hproc (by simp [hspc])
    exact h.schedLoop hv ht hp (by rw [hspc]; rfl) (by simp [hspc, SchedPc.held])
  | scan rest =>
    have hp := hproc (by simp [hspc])
    cases rest with
    | nil => exact h.schedLoop hv ht hp (by rw [hspc]; rfl) (fun _ => rfl)
    | cons p rest => exact h.schedTake hv ht hp (by rw [hspc]; rfl) rfl
  | test p rest =>
    dsimp only
    split
    · rename_i hrun
      exact h.switch hv ht hspc hrun
    · have hp := hproc (by simp [hspc])
      exact h.schedLoop hv ht hp (by rw [hspc]; rfl) (fun _ => rfl)
  | away p rest =>
    dsimp only
    rw [if_neg (by cases s.schedPointer; simp)]
    exact h.schedGo hv ht (by rw [hspc]; rfl) (fun _ => rfl)
  | unlock p rest =>
    exact h.schedDrop hv ht (hproc (by simp [hspc])) (by rw [hspc]; rfl) rfl

/-! ## Visits -/

theorem Inv.visit_safe (h : s.Inv) (hv : (s.cpu c).visit = none) (hmay : s.mayVisit c = true)
    (q : P) :
    ((s.acquire c (.proc q)).bind fun s =>
      .next (s.setCpu c { s.cpu c with visit := some q })).Safe Inv := by
  have hown : s.held c = s.own c := by simp [held, hv]
  have ha : Apart s ((s.take c (.proc q)).setCpu c
      { (s.take c (.proc q)).cpu c with visit := some q }) c :=
    apart_of_pc (fun c' hc => by simp [hc]) rfl
  refine h.take_safe (hown ▸ not_mem_own hmay)
    (f := fun s => s.setCpu c { s.cpu c with visit := some q }) ha rfl
    (by simp) (by simp [held, hv, own])
    (h.placed.visits ha ?_ (fun _ => hmay) rfl rfl)
  constructor <;> simp

theorem Inv.leave_safe (h : s.Inv) (hv : (s.cpu c).visit = some q) :
    ((s.release c (.proc q)).bind fun s =>
      .next (s.setCpu c { s.cpu c with visit := none })).Safe Inv := by
  have ha : Apart s ((s.drop c (.proc q)).setCpu c
      { (s.drop c (.proc q)).cpu c with visit := none }) c :=
    apart_of_pc (fun c' hc => by simp [hc]) rfl
  refine h.drop_safe (f := fun s => s.setCpu c { s.cpu c with visit := none }) ha rfl (by simp)
    (by simp [held, hv, own]) (h.placed.visits ha ?_ (by simp) rfl rfl)
  constructor <;> simp

omit [DecidableEq C] [DecidableEq L] in
theorem Inv.touch (h : s.Inv) (hv : (s.cpu c).visit = some q) (x : Touch) : (s.touch q x).Inv := by
  -- only a process that no CPU executes is changed, and it stays parked
  have hset : ∀ {s' : State C P L}, s.state q ≠ .RUNNING → s'.cpu = s.cpu → s'.lock = s.lock →
      (∀ p, p ≠ q → s'.pc p = s.pc p ∧ s'.state p = s.state p) → s'.Off q → s'.Inv := by
    intro s' hrun hcpu hlock hsame hself
    have hne : ∀ {c' t}, (s.cpu c').thread = some t → t ≠ q := fun ht e =>
      h.visited_away hv hrun _ (e ▸ ht)
    have ha : Apart s s' c := ⟨fun c' _ => by rw [hcpu], fun c' t _ ht => (hsame t (hne ht)).1⟩
    refine ⟨h.locks.kept ha hlock (by rw [hcpu]) (fun _ => by rw [hcpu]) ?_,
      h.placed.sits ha (by rw [hcpu]; exact ⟨rfl, rfl, rfl⟩) (fun hv => ?_)
        (fun c' t _ ht => (hsame t (hne ht)).2) (fun t ht => ?_) fun p hp => ?_⟩
    · unfold held own
      rw [hcpu]
      cases ht : (s.cpu c).thread with
      | none => rfl
      | some t => simp only [(hsame t (hne ht)).1]
    · rw [hcpu] at hv
      rw [← h.placed.visit c hv]
      unfold mayVisit
      rw [hcpu]
      cases ht : (s.cpu c).thread with
      | none => rfl
      | some t => simp only [(hsame t (hne ht)).1]
    · rw [(hsame t (hne ht)).1, (hsame t (hne ht)).2]
      exact (h.placed.thread c t ht).2.2
    · by_cases hpq : p = q
      · exact hpq ▸ hself
      · exact (h.placed.off hp).congr (hsame p hpq).1 (hsame p hpq).2
  -- where it stays parked is where it was
  have hkeep : ∀ {x : ProcState}, s.state q ≠ .RUNNING → x ≠ .RUNNING →
      (s.state q = .ZOMBIE ∨ s.state q = .UNUSED → x = .ZOMBIE ∨ x = .UNUSED) →
      (s.setState q x).Inv := by
    intro x hrun hx hgone
    obtain ⟨k, hk, hkg⟩ := h.placed.parked q (h.visited_away hv hrun)
    exact hset hrun rfl rfl (fun p hp => ⟨rfl, by simp [hp]⟩)
      ⟨by simpa using hx, k, hk, fun e => by simpa using hgone (hkg e)⟩
  cases x with
  | wake =>
    simp only [State.touch]
    split
    · rename_i hs
      exact hkeep (by simp [hs]) (by simp) (by simp [hs])
    · exact h
  | alloc =>
    simp only [State.touch]
    split
    · rename_i hs
      exact hset (by simp [hs]) rfl rfl (fun p hp => by simp [hp])
        ⟨by simp, .forkret, by simp, nofun⟩
    · exact h
  | ready =>
    simp only [State.touch]
    split
    · rename_i hs
      exact hkeep (by simp [hs]) (by simp) (by simp [hs])
    · exact h
  | reap =>
    simp only [State.touch]
    split
    · rename_i hs
      exact hkeep (by simp [hs]) (by simp) (by simp)
    · exact h

/-! ## Every run -/

theorem Inv.step_safe (table : List P) (h : s.Inv) (e : Event C P L) :
    (step table s e).Safe Inv := by
  cases e with
  | proc c x =>
    simp only [step]
    split
    · rename_i hv ht
      exact h.procStep_safe hv ht x
    · trivial
  | sched c =>
    simp only [step]
    split
    · rename_i hv ht
      exact h.schedStep_safe table hv ht
    · trivial
  | visit c q =>
    simp only [step]
    split
    · rename_i hc
      exact h.visit_safe hc.1 hc.2 q
    · trivial
  | touch c x =>
    simp only [step]
    split
    · rename_i q hv
      exact h.touch hv x
    · trivial
  | leave c =>
    simp only [step]
    split
    · rename_i q hv
      exact h.leave_safe hv
    · trivial
  | schedset id =>
    obtain ⟨⟨ho, hn, hf, hi⟩, ⟨hvis, hth, hid, hinj, hrun, hpark⟩⟩ := h
    exact ⟨⟨ho, hn, hf, hi⟩, ⟨hvis, hth, hid, hinj, hrun, hpark⟩⟩

theorem Inv.reachable {table : List P} (h : Reachable (step table) Boots s) : s.Inv :=
  h.invariant (fun _ => Boots.inv) fun _ e _ hi => (hi.step_safe table e).of_next

/-- **A process runs on at most one CPU.** In every reachable state, on any
    number of CPUs: two CPUs have no process in common, a process whose lock is
    free is RUNNING exactly when one CPU has it and executes it, and no event
    panics, so every check of `sched` passes. -/
theorem runs_on_one_cpu {C P L : Type} [DecidableEq C] [DecidableEq P] [DecidableEq L]
    (table : List P) (s : State C P L) (h : Reachable (step table) Boots s) :
    (∀ c c' p, (s.cpu c).proc = some p → (s.cpu c').proc = some p → c = c') ∧
    (∀ p, s.lock (.proc p) = none →
      (s.state p = .RUNNING ↔
        ∃! c, (s.cpu c).proc = some p ∧ (s.cpu c).thread = some p)) ∧
    (∀ e m, step table s e ≠ .panic m) := by
  have hinv := Inv.reachable h
  refine ⟨?_, ?_, ?_⟩
  · intro c c' p hc hc'
    exact hinv.placed.inj c c' p hc hc'
  · intro p hfree
    exact hinv.running_iff hfree
  · intro e m
    exact (hinv.step_safe table e).ne_panic m

/-- Two CPUs and two processes, one of them RUNNABLE. -/
def boot₂ : State (Fin 2) (Fin 2) Unit :=
  { cpu := fun _ => Cpu.boot
    lock := fun _ => none
    state := fun p => if p = 0 then .RUNNABLE else .SLEEPING
    pc := fun _ => .parked .forkret
    intena := fun _ => false
    schedPointer := .rr }

/-- Process 0 starts on CPU 0, wakes process 1, which starts on CPU 1 while
    process 0 yields. -/
def handover₂ : List (Event (Fin 2) (Fin 2) Unit) :=
  [.sched 0, .sched 0, .sched 0, .sched 0, .proc 0 .yield, .visit 0 1, .touch 0 .wake, .leave 0,
   .sched 1, .sched 1, .proc 0 .yield, .proc 0 .yield, .proc 0 .yield, .sched 0, .sched 0,
   .sched 1, .sched 1, .proc 1 .yield]

theorem runs_on_one_cpu_handover :
    ∃ s, exec (step [0, 1]) boot₂ handover₂ = .next s ∧
      (s.cpu 1).proc = some 0 ∧ s.state 0 = .RUNNING ∧
      (∃! c, (s.cpu c).proc = some 0 ∧ (s.cpu c).thread = some 0) ∧
      (∀ e m, step [0, 1] s e ≠ .panic m) := by
  have hrun : (exec (step [0, 1]) boot₂ handover₂).check
      (fun s => (s.cpu 1).proc == some 0 && s.state 0 == .RUNNING && s.lock (.proc 0) == none)
      = true := by
    decide +kernel
  obtain ⟨s, hs, htest⟩ := Outcome.exists_of_check hrun
  simp only [Bool.and_eq_true, beq_iff_eq] at htest
  obtain ⟨⟨hproc, hstate⟩, hfree⟩ := htest
  have hboots : Boots boot₂ := by
    refine ⟨fun _ => rfl, fun _ => rfl, ?_⟩
    intro p
    exact ⟨rfl, by revert p; decide⟩
  have hreach : Reachable (step [0, 1]) Boots s := (Reachable.init hboots).of_exec _ hs
  obtain ⟨-, hone, hpanic⟩ := runs_on_one_cpu [0, 1] s hreach
  exact ⟨s, hs, hproc, hstate, (hone 0 hfree).mp hstate, hpanic⟩

end State

end Cpus

end Xv6
