import Xv6.Proc.Partition

/-!
# Free slots of the process table

`allocproc` takes a free slot as it finds it, so a new process starts with
whatever was left there. `freeproc` leaves nothing; the question is who else
writes to a free slot. A call writes to its caller's slot, to the slot it
allocates, or to slots it finds by their parent or channel, and free slots have
none. `kill` finds its slot by the pid, and the pid of a free slot is 0.

Nothing here depends on what the calls do to memory, so the environment is any.
-/

namespace Xv6

open Function Sys
open Cpus (ProcState)

variable {E : Env} {k k' : Kernel} {p : Fin NPROC}

/-- A slot with nothing left in it. -/
structure Proc.Clean (x : Proc) : Prop where
  pid : x.pid = 0
  killed : x.killed = 0
  xstate : x.xstate = 0
  chan : x.chan = 0
  parent : x.parent = none
  pagetable : x.pagetable = 0
  trapframe : x.trapframe = 0

instance (x : Proc) : Decidable x.Clean :=
  decidable_of_iff (x.pid = 0 ∧ x.killed = 0 ∧ x.xstate = 0 ∧ x.chan = 0 ∧ x.parent = none ∧
      x.pagetable = 0 ∧ x.trapframe = 0)
    ⟨fun ⟨h1, h2, h3, h4, h5, h6, h7⟩ => ⟨h1, h2, h3, h4, h5, h6, h7⟩,
      fun h => ⟨h.pid, h.killed, h.xstate, h.chan, h.parent, h.pagetable, h.trapframe⟩⟩

/-- Every free slot is clean. -/
def Kernel.Clean (k : Kernel) : Prop := ∀ p, (k.proc p).state = .UNUSED → (k.proc p).Clean

instance (k : Kernel) : Decidable k.Clean :=
  inferInstanceAs (Decidable (∀ p, (k.proc p).state = .UNUSED → (k.proc p).Clean))

theorem Proc.freed_clean (x : Proc) : x.freed.Clean := ⟨rfl, rfl, rfl, rfl, rfl, rfl, rfl⟩

/-! ## Calls that stay in one slot -/

/-- Only the slot `p` is written to; it is not freed, nor marked as killed. -/
structure Own (p : Fin NPROC) (k k' : Kernel) : Prop where
  others : ∀ q, q ≠ p → k'.proc q = k.proc q
  killed : (k'.proc p).killed = (k.proc p).killed
  live : (k.proc p).state ≠ .UNUSED → (k'.proc p).state ≠ .UNUSED

instance (p : Fin NPROC) : IsPreorder Kernel (Own p) where
  refl := fun _ => ⟨fun _ _ => rfl, rfl, fun h => h⟩
  trans := fun _ _ _ h h' =>
    ⟨fun q hq => (h'.others q hq).trans (h.others q hq), h'.killed.trans h.killed,
      fun hl => h'.live (h.live hl)⟩

theorem Own.of_proc_eq (h : k'.proc = k.proc) : Own p k k' := by
  refine ⟨fun q _ => by rw [h], by rw [h], fun hl => by rwa [h]⟩

/-- All slots but `p` are as they were, and `p` is clean or in use. -/
theorem Kernel.Clean.of_others (hc : k.Clean) (ho : ∀ q, q ≠ p → k'.proc q = k.proc q)
    (hp : (k'.proc p).state = .UNUSED → (k'.proc p).Clean) : k'.Clean := by
  intro q hq
  by_cases hqp : q = p
  · subst hqp
    exact hp hq
  · rw [ho q hqp] at hq ⊢
    exact hc q hq

theorem Own.clean (h : Own p k k') (hc : k.Clean) (hp : (k.proc p).state ≠ .UNUSED) : k'.Clean :=
  hc.of_others h.others fun h0 => absurd h0 (h.live hp)

namespace Own

theorem onPhys {α : Type} (x : Sys Phys α) : Within (Own p) (Xv6.onPhys x) := by
  refine Within.zoom (fun s k => ?_) x
  exact Own.of_proc_eq rfl

theorem updateFile (f : Fin NFILE) (g : File → File) : Within (Own p) (Xv6.updateFile f g) :=
  Within.modify fun _ => Own.of_proc_eq rfl

theorem updateProc {g : Proc → Proc} (hk : ∀ x, (g x).killed = x.killed)
    (hl : ∀ x, x.state ≠ .UNUSED → (g x).state ≠ .UNUSED) :
    Within (Own p) (Xv6.updateProc p g) := by
  refine Within.modify fun k => ⟨fun q hq => ?_, ?_, fun h => ?_⟩
  · rw [Kernel.setProc_proc, update_of_ne hq]
  · rw [Kernel.setProc_proc, update_self]
    exact hk _
  · rw [Kernel.setProc_proc, update_self]
    exact hl _ h

theorem filealloc : Within (Own p) Xv6.filealloc :=
  (Within.reads _).bind_option (.pure _) fun f => (updateFile f _).bind fun _ => .pure _

theorem filedup (f : Fin NFILE) : Within (Own p) (Xv6.filedup f) :=
  (Within.reads _).bind fun _ => .ite (.panic _) (updateFile f _)

theorem pipeclose (pi : Nat) (w : Bool) : Within (Own p) (Xv6.pipeclose E pi w) :=
  (onPhys _).bind fun _ => (Within.reads _).bind fun _ => .ite (onPhys _) (.pure _)

theorem fileclose (f : Fin NFILE) : Within (Own p) (Xv6.fileclose E f) := by
  refine (Within.reads _).bind fun ff => .ite (.panic _) (.ite ?_ ?_)
  · exact updateFile f _
  · exact (updateFile f _).bind fun _ => .ite (pipeclose _ _) (.pure _)

theorem pipealloc : Within (Own p) (Xv6.pipealloc E) := by
  refine filealloc.bind_option (.pure _) fun f0 => ?_
  refine filealloc.bind_option ((fileclose f0).bind fun _ => .pure _) fun f1 => ?_
  refine (onPhys _).bind_option ?_ fun pi => ?_
  · exact (fileclose f0).bind fun _ => (fileclose f1).bind fun _ => .pure _
  · exact (onPhys _).bind fun _ => (updateFile f0 _).bind fun _ =>
      (updateFile f1 _).bind fun _ => .pure _

theorem fdalloc (f : Fin NFILE) : Within (Own p) (Xv6.fdalloc p f) :=
  (Within.reads _).bind_option (.pure _) fun _ =>
    .bind (updateProc (fun _ => rfl) fun _ h => h) fun _ => .pure _

theorem clearFd (fd : Fin NOFILE) : Within (Own p) (Xv6.clearFd p fd) :=
  updateProc (fun _ => rfl) fun _ h => h

theorem copyoutInt (q : Fin NPROC) (dstva v : Nat) : Within (Own p) (Xv6.copyoutInt E q dstva v) :=
  (Within.reads _).bind fun _ => onPhys _

theorem sysPipe (fdarray : Nat) : Within (Own p) (Xv6.sysPipe E p fdarray) := by
  have hclose : ∀ rf wf : Fin NFILE, Within (Own p) (do
      Xv6.fileclose E rf; Xv6.fileclose E wf; Pure.pure (-1) : Sys Kernel Int) := fun rf wf =>
    (fileclose rf).bind fun _ => (fileclose wf).bind fun _ => .pure _
  refine pipealloc.bind_option (.pure _) fun (rf, wf) => ?_
  refine (fdalloc rf).bind_option (hclose rf wf) fun fd0 => ?_
  refine (fdalloc wf).bind_option ((clearFd fd0).bind fun _ => hclose rf wf) fun fd1 => ?_
  refine (copyoutInt p _ _).bind fun r0 => ?_
  have hend : ∀ r1 : Int, Within (Own p) (if r1 < 0 then do
      Xv6.clearFd p fd0; Xv6.clearFd p fd1; Xv6.fileclose E rf; Xv6.fileclose E wf
      Pure.pure (-1) else Pure.pure 0 : Sys Kernel Int) := fun r1 =>
    .ite ((clearFd fd0).bind fun _ => (clearFd fd1).bind fun _ => hclose rf wf) (.pure _)
  exact .ite ((Within.pure _).bind hend) ((copyoutInt p _ _).bind hend)

theorem sysClose (fd : Fin NOFILE) : Within (Own p) (Xv6.sysClose E p fd) :=
  (Within.reads _).bind_option (.pure _) fun f =>
    (clearFd fd).bind fun _ => (fileclose f).bind fun _ => .pure _

theorem sysDup (fd : Fin NOFILE) : Within (Own p) (Xv6.sysDup p fd) :=
  (Within.reads _).bind_option (.pure _) fun f =>
    (fdalloc f).bind_option (.pure _) fun _ => (filedup f).bind fun _ => .pure _

theorem growprocOf (n : Int) : Within (Own p) (Xv6.growprocOf E p n) :=
  (Within.reads _).bind fun _ => (onPhys _).bind fun _ =>
    .bind (updateProc (fun _ => rfl) fun _ h => h) fun _ => .pure _

theorem psOf (start count : UInt8) (table : Bytes) :
    Within (Own p) (Xv6.psOf E p start count table) :=
  (Within.reads _).bind fun _ => (onPhys _).bind fun _ =>
    .bind (updateProc (fun _ => rfl) fun _ h => h) fun _ => .pure _

theorem execProg (prog : Option Readi) (argv : Args) (ustack : Bytes) :
    Within (Own p) (Xv6.execProg E p prog argv ustack) := by
  cases prog with
  | none => exact .pure _
  | some readi =>
    refine (Within.reads _).bind fun x => (onPhys _).bind_option (.pure _) fun im => ?_
    exact (Within.reads _).bind fun x => .bind (updateProc (fun _ => rfl) fun _ h => h) fun _ =>
      (onPhys _).bind fun _ => (onPhys _).bind fun _ => .pure _

theorem sysExec (fetchaddr : Nat → Option Nat) (fetchstr : Nat → Option (Bytes × Nat))
    (prog : Option Readi) (ustack : Bytes) :
    Within (Own p) (Xv6.sysExec E p fetchaddr fetchstr prog ustack) :=
  (onPhys _).bind fun (_, _) => .ite ((onPhys _).bind fun _ => .pure _)
    ((execProg _ _ _).bind fun _ => (onPhys _).bind fun _ => .pure _)

theorem closeFiles (fds : List (Fin NOFILE)) : Within (Own p) (Xv6.closeFiles E p fds) := by
  induction fds with
  | nil => exact .pure _
  | cons fd fds ih =>
    exact (Within.reads _).bind_option ih fun f =>
      (fileclose f).bind fun _ => (clearFd fd).bind fun _ => ih

theorem forkFiles (q : Fin NPROC) (fds : List (Fin NOFILE)) :
    Within (Own p) (Xv6.forkFiles q p fds) := by
  induction fds with
  | nil => exact .pure _
  | cons fd fds ih =>
    exact (Within.reads _).bind_option ih fun f => (filedup f).bind fun _ =>
      .bind (updateProc (fun _ => rfl) fun _ h => h) fun _ => ih

end Own

/-- A call that stays in any one slot writes to none. -/
theorem Own.clean_of_all (h : ∀ q, Own q k k') (hc : k.Clean) : k'.Clean := by
  intro q hq
  obtain ⟨q', hq'⟩ := exists_ne q
  rw [(h q').others q hq'.symm] at hq ⊢
  exact hc q hq

/-! ## Making and freeing a slot -/

variable {α : Type}

theorem onPhys_eq_ok {x : Sys Phys α} {a : α} (h : onPhys x k = .ok (a, k')) :
    ∃ s, x k.phys = .ok (a, s) ∧ k' = { k with phys := s } := by
  unfold onPhys Sys.zoom at h
  split at h
  · rename_i a' s hrun
    cases h
    exact ⟨s, hrun, rfl⟩
  · cases h

theorem onPhysIf_eq_ok {c : Prop} [Decidable c] {x : Sys Phys Unit} {rest : Sys Kernel Unit}
    (h : (if c then (do onPhys x; rest) else rest) k = .ok ((), k')) :
    ∃ s, rest { k with phys := s } = .ok ((), k') := by
  split at h
  · obtain ⟨_, k1, h1, h⟩ := bind_eq_ok.mp h
    obtain ⟨s, _, rfl⟩ := onPhys_eq_ok h1
    exact ⟨s, h⟩
  · exact ⟨k.phys, h⟩

/-- **`freeproc`** leaves a clean slot, if it returns. -/
theorem freeproc_eq_ok (h : freeproc E p k = .ok ((), k')) :
    k'.proc = update k.proc p (k.proc p).freed := by
  simp only [freeproc, reads_bind_run] at h
  obtain ⟨s1, h⟩ := onPhysIf_eq_ok h
  rw [updateProc_bind] at h
  obtain ⟨s2, h⟩ := onPhysIf_eq_ok h
  cases h
  simp [Proc.freed]

theorem Kernel.Clean.freed (hc : k.Clean) (h : k'.proc = update k.proc p (k.proc p).freed) :
    k'.Clean := by
  refine hc.of_others (fun q hq => by rw [h, update_of_ne hq]) fun _ => ?_
  rw [h, update_self]
  exact Proc.freed_clean _

/-- **`allocproc`**: the slot it returns was free, and keeps what `kill` wrote
    there. -/
theorem allocproc_eq_ok {res : Option (Fin NPROC)} (h : allocproc E k = .ok (res, k')) :
    res = none ∧ (k'.proc = k.proc ∨ ∃ i, k'.proc = update k.proc i (k.proc i).freed) ∨
    ∃ i pid tf pagetable, res = some i ∧ (k.proc i).state = .UNUSED ∧
      k'.proc = update k.proc i ((k.proc i).allocated pid tf pagetable) := by
  simp only [allocproc, reads_bind_run] at h
  cases hfind : (List.finRange NPROC).find? (fun p => (k.proc p).state = .UNUSED) with
  | none =>
    rw [hfind] at h
    cases h
    exact .inl ⟨rfl, .inl rfl⟩
  | some i =>
    have hi : (k.proc i).state = .UNUSED := by simpa using List.find?_some hfind
    rw [hfind] at h
    simp only at h
    rw [bind_of_ok (allocpid_run k), updateProc_bind] at h
    obtain ⟨o, k1, h1, h⟩ := bind_eq_ok.mp h
    obtain ⟨s1, _, rfl⟩ := onPhys_eq_ok h1
    -- the failures: the slot is freed
    have hfail : ∀ {k2 k3 : Kernel} {x : Proc}, k2.proc = update k.proc i x →
        x.ofile = (k.proc i).ofile → freeproc E i k2 = .ok ((), k3) →
        k3.proc = update k.proc i (k.proc i).freed := by
      intro k2 k3 x hk2 hof hfree
      have hx : x.freed = (k.proc i).freed := by simp only [Proc.freed, hof]
      rw [freeproc_eq_ok hfree, hk2, update_self, update_idem, hx]
    cases o with
    | none =>
      simp only at h
      rw [updateProc_bind] at h
      obtain ⟨_, k2, h2, h⟩ := bind_eq_ok.mp h
      cases h
      refine .inl ⟨rfl, .inr ⟨i, hfail (x := (k.proc i).allocated k.nextpid 0 (k.proc i).pagetable)
        ?_ rfl h2⟩⟩
      simp [Proc.allocated]
    | some tf =>
      simp only at h
      rw [updateProc_bind] at h
      obtain ⟨o, k2, h2, h⟩ := bind_eq_ok.mp h
      obtain ⟨s2, _, rfl⟩ := onPhys_eq_ok h2
      cases o with
      | none =>
        simp only at h
        rw [updateProc_bind] at h
        obtain ⟨_, k3, h3, h⟩ := bind_eq_ok.mp h
        cases h
        refine .inl ⟨rfl, .inr ⟨i, hfail (x := (k.proc i).allocated k.nextpid tf 0) ?_ rfl h3⟩⟩
        simp [Proc.allocated]
      | some pt =>
        simp only at h
        rw [updateProc_bind] at h
        cases h
        refine .inr ⟨i, k.nextpid, tf, pt, rfl, hi, ?_⟩
        simp [Proc.allocated]

/-- **`fork`** gives the child the `killed` that it found in the slot. -/
theorem fork_eq_ok {r : Int} (h : fork E p k = .ok (r, k')) :
    (k'.proc = k.proc ∨ ∃ i, k'.proc = update k.proc i (k.proc i).freed) ∨
    ∃ i, (k.proc i).state = .UNUSED ∧ (∀ q, q ≠ i → k'.proc q = k.proc q) ∧
      (k'.proc i).killed = (k.proc i).killed ∧ (k'.proc i).state ≠ .UNUSED := by
  unfold fork at h
  obtain ⟨res, k1, h1, h⟩ := bind_eq_ok.mp h
  rcases allocproc_eq_ok h1 with ⟨rfl, hproc⟩ | ⟨i, pid, tf, pt, rfl, hi, hproc⟩
  · cases h
    exact .inl hproc
  simp only [reads_bind_run] at h
  obtain ⟨r', k2, h2, h⟩ := bind_eq_ok.mp h
  obtain ⟨s2, _, rfl⟩ := onPhys_eq_ok h2
  by_cases hr : r' < 0
  · rw [if_pos hr] at h
    obtain ⟨_, k3, h3, h⟩ := bind_eq_ok.mp h
    cases h
    refine .inl (.inr ⟨i, ?_⟩)
    rw [freeproc_eq_ok h3]
    simp only [hproc, update_self, update_idem]
    rfl
  · rw [if_neg hr] at h
    have hown : Sys.Within (Own i) _ := Sys.Within.bind
      (Own.updateProc (g := fun nx => { nx with sz := (k1.proc p).sz }) (fun _ => rfl) fun _ h => h)
      fun _ => Sys.Within.bind (Own.onPhys (copyTrapframe (k1.proc p).trapframe
        (k1.proc i).trapframe)) fun _ =>
      Sys.Within.bind (Own.forkFiles p (List.finRange NOFILE)) fun _ =>
      Sys.Within.bind (Own.updateProc (g := fun nx => { nx with parent := some p }) (fun _ => rfl)
        fun _ h => h)
      fun _ => Sys.Within.bind
        (Own.updateProc (g := fun nx => { nx with state := .RUNNABLE }) (fun _ => rfl) fun _ _ =>
          nofun)
      fun _ => Sys.Within.pure (k1.proc i).pid.toInt
    have := hown _ _ _ h
    refine .inr ⟨i, hi, fun q hq => ?_, ?_, ?_⟩
    · rw [this.others q hq]
      simp only [hproc, update_of_ne hq]
    · rw [this.killed]
      simp only [hproc, update_self]
      rfl
    · refine this.live ?_
      simp only [hproc, update_self]
      nofun

/-! ## Calls that look for slots -/

theorem Kernel.Clean.set (hc : k.Clean) {x : Proc} (hx : x.state ≠ .UNUSED) :
    (k.setProc p x).Clean := by
  refine hc.of_others (p := p) (fun q hq => update_of_ne hq ..) fun h0 => ?_
  rw [Kernel.setProc_proc, update_self] at h0
  exact absurd h0 hx

theorem updateProc_clean {g : Proc → Proc} {r : Unit} (hc : k.Clean)
    (h : updateProc p g k = .ok (r, k')) (hg : ∀ x, (g x).state ≠ .UNUSED) : k'.Clean := by
  cases h
  exact hc.set (hg _)

theorem wakeup_clean {chan : Nat} (hc : k.Clean) (h : wakeup p chan k = .ok ((), k')) :
    k'.Clean := by
  cases h
  intro q hq
  simp only at hq ⊢
  split at hq
  · cases hq
  · rename_i hn
    rw [if_neg hn]
    exact hc q hq

theorem reparent_clean : ∀ {pps : List (Fin NPROC)} {k : Kernel}, k.Clean →
    reparent p pps k = .ok ((), k') → k'.Clean := by
  intro pps
  induction pps with
  | nil =>
    intro k hc h
    cases h
    exact hc
  | cons pp pps ih =>
    intro k hc h
    simp only [reparent, reads_bind_run] at h
    by_cases hpp : (k.proc pp).parent = some p
    · -- a free slot has no parent, so it is not found here
      have hlive : (k.proc pp).state ≠ .UNUSED := by
        intro h0
        rw [(hc pp h0).parent] at hpp
        cases hpp
      rw [if_pos hpp, reads_bind_run, updateProc_bind] at h
      obtain ⟨_, k1, h1, h⟩ := bind_eq_ok.mp h
      have hc1 : (k.setProc pp { k.proc pp with parent := k.initproc }).Clean := hc.set hlive
      exact ih (wakeup_clean hc1 h1) h
    · rw [if_neg hpp] at h
      exact ih hc h

theorem exit_clean {status : Int} (hc : k.Clean) (hp : (k.proc p).state = .RUNNING)
    (h : exit E p status k = .ok ((), k')) : k'.Clean := by
  simp only [exit, reads_bind_run] at h
  by_cases hinit : k.initproc = some p
  · rw [if_pos hinit] at h
    cases h
  · rw [if_neg hinit] at h
    obtain ⟨_, k1, h1, h⟩ := bind_eq_ok.mp h
    have hc1 : k1.Clean := (Own.closeFiles _ _ _ _ h1).clean hc (by rw [hp]; decide)
    obtain ⟨_, k2, h2, h⟩ := bind_eq_ok.mp h
    have hc2 := reparent_clean hc1 h2
    rw [reads_bind_run] at h
    obtain ⟨_, k3, h3, h⟩ := bind_eq_ok.mp h
    have hc3 := wakeup_clean hc2 h3
    cases h
    exact hc3.set (by simp)

theorem wait_clean {addr : Nat} {r : Option Int} (hc : k.Clean) (hp : (k.proc p).state = .RUNNING)
    (h : wait E p addr k = .ok (r, k')) : k'.Clean := by
  simp only [wait, reads_bind_run] at h
  cases hfind : (List.finRange NPROC).find? (fun pp =>
      (k.proc pp).parent = some p ∧ (k.proc pp).state = .ZOMBIE) with
  | some pp =>
    simp only [hfind, reads_bind_run] at h
    have hreap : ∀ {k1 : Kernel} {r1 : Int}, k1.Clean → (if r1 < 0 then pure (some (-1)) else do
        freeproc E pp; pure (some (k.proc pp).pid.toInt) : Sys Kernel (Option Int)) k1
        = .ok (r, k') → k'.Clean := by
      intro k1 r1 hc1 h
      split at h
      · cases h
        exact hc1
      · obtain ⟨_, k2, h2, h⟩ := bind_eq_ok.mp h
        cases h
        exact hc1.freed (freeproc_eq_ok h2)
    by_cases ha : addr ≠ 0
    · rw [if_pos ha] at h
      obtain ⟨r1, k1, h1, h⟩ := bind_eq_ok.mp h
      exact hreap ((Own.copyoutInt p _ _ _ _ _ h1).clean hc (by rw [hp]; decide)) h
    · rw [if_neg ha, pure_bind_run] at h
      exact hreap hc h
  | none =>
    simp only [hfind, reads_bind_run] at h
    split at h
    · cases h
      exact hc
    · cases h
      exact hc.set (by simp)

/-- `kill` of a pid other than 0 finds a process. -/
theorem kill_live {pid : BitVec 32} (hc : k.Clean) (hpid : pid ≠ 0) (h : kill pid k = .ok (0, k')) :
    ∃ p, (k.proc p).state ≠ .UNUSED ∧ (k.proc p).pid = pid := by
  simp only [kill, reads_bind_run] at h
  cases hfind : (List.finRange NPROC).find? (fun p => (k.proc p).pid = pid) with
  | none =>
    simp only [hfind] at h
    cases h
  | some p =>
    have hp : (k.proc p).pid = pid := by simpa using List.find?_some hfind
    refine ⟨p, fun h0 => hpid ?_, hp⟩
    rw [← hp, (hc p h0).pid]

theorem kill_clean {pid : BitVec 32} {r : Int} (hc : k.Clean) (hpid : pid ≠ 0)
    (h : kill pid k = .ok (r, k')) : k'.Clean := by
  simp only [kill, reads_bind_run] at h
  cases hfind : (List.finRange NPROC).find? (fun p => (k.proc p).pid = pid) with
  | none =>
    simp only [hfind] at h
    cases h
    exact hc
  | some p =>
    simp only [hfind] at h
    have hp : (k.proc p).pid = pid := by simpa using List.find?_some hfind
    have hlive : (k.proc p).state ≠ .UNUSED := by
      intro h0
      exact hpid (by rw [← hp, (hc p h0).pid])
    cases h
    refine hc.set ?_
    simp only
    split
    · simp
    · exact hlive

/-! ## Runs -/

namespace Machine

variable {m m' : Machine}

theorem after_eq_next {x : Sys Kernel α} (h : m.after x = .next m') :
    ∃ r, x m.kernel = .ok (r, m'.kernel) := by
  obtain ⟨r, k, hrun, hk⟩ := Sys.outcome_eq_next h
  cases hk
  exact ⟨r, hrun⟩

theorem callBy_clean {x : Sys Kernel α} (hc : m.kernel.Clean)
    (hx : Sys.Within (Own p) x) (h : m.callBy p x = .next m') : m'.kernel.Clean := by
  obtain ⟨hp, r, hrun, _⟩ := callBy_eq_next h
  exact (hx _ _ _ hrun).clean hc (by rw [hp]; decide)

/-- **Every call but `kill(0)`** leaves the free slots clean. -/
theorem step_clean {c : Call} (hc : m.kernel.Clean) (hkill : c ≠ .kill 0)
    (h : m.step E c = .next m') : m'.kernel.Clean := by
  cases c with
  | allocproc =>
    obtain ⟨r, hrun⟩ := after_eq_next h
    rcases allocproc_eq_ok hrun with ⟨_, hproc | ⟨i, hproc⟩⟩ | ⟨i, pid, tf, pt, _, _, hproc⟩
    · intro q
      rw [hproc]
      exact hc q
    · exact hc.freed hproc
    · refine hc.of_others (p := i) (fun q hq => by rw [hproc, update_of_ne hq]) fun h0 => ?_
      rw [hproc, update_self] at h0
      cases h0
  | fork p =>
    obtain ⟨_, r, hrun, _⟩ := callBy_eq_next h
    rcases fork_eq_ok hrun with (hproc | ⟨i, hproc⟩) | ⟨i, _, hothers, _, hlive⟩
    · intro q
      rw [hproc]
      exact hc q
    · exact hc.freed hproc
    · exact hc.of_others hothers fun h0 => absurd h0 hlive
  | exit p status =>
    obtain ⟨hp, r, hrun, _⟩ := callBy_eq_next h
    exact exit_clean hc hp hrun
  | wait p addr =>
    obtain ⟨hp, r, hrun, _⟩ := callBy_eq_next h
    exact wait_clean hc hp hrun
  | kill pid =>
    obtain ⟨r, hrun⟩ := after_eq_next h
    exact kill_clean hc (fun h0 => hkill (by rw [h0])) hrun
  | exec p fetchaddr fetchstr prog ustack =>
    exact callBy_clean hc (Own.sysExec fetchaddr fetchstr prog ustack) h
  | growproc p n => exact callBy_clean hc (Own.growprocOf n) h
  | ps p start count table => exact callBy_clean hc (Own.psOf start count table) h
  | pipe p fdarray => exact callBy_clean hc (Own.sysPipe fdarray) h
  | close p fd => exact callBy_clean hc (Own.sysClose fd) h
  | dup p fd => exact callBy_clean hc (Own.sysDup fd) h
  | pipealloc =>
    obtain ⟨r, k1, hrun, hnext⟩ := Sys.outcome_eq_next h
    have hc1 : k1.Clean := Own.clean_of_all (fun q => Own.pipealloc (p := q) _ _ _ hrun) hc
    split at hnext <;> cases hnext <;> exact hc1
  | fileclose f =>
    simp only [step] at h
    split at h
    · obtain ⟨r, k1, hrun, hnext⟩ := Sys.outcome_eq_next h
      cases hnext
      exact Own.clean_of_all (fun q => Own.fileclose (p := q) f _ _ _ hrun) hc
    · cases h
  | run p =>
    simp only [step] at h
    split at h
    · obtain ⟨r, hrun⟩ := after_eq_next h
      exact updateProc_clean hc hrun (by simp)
    · cases h
  | yield p =>
    obtain ⟨_, r, hrun, _⟩ := callBy_eq_next h
    exact updateProc_clean hc hrun (by simp)
  | sleep p chan =>
    obtain ⟨_, r, hrun, _⟩ := callBy_eq_next h
    exact updateProc_clean hc hrun (by simp)
  | wakeup p chan =>
    obtain ⟨r, hrun⟩ := after_eq_next h
    exact wakeup_clean hc hrun

theorem exec_clean {calls : List Call} (hc : m.kernel.Clean) (hcalls : ∀ c ∈ calls, c ≠ .kill 0)
    (h : exec (step E) m calls = .next m') : m'.kernel.Clean :=
  exec_history (fun calls m => (∀ c ∈ calls, c ≠ Call.kill 0) → m.kernel.Clean) (fun _ => hc)
    (fun _ _ _ _ ih hs hcalls => step_clean
      (ih fun c hc => hcalls c (List.mem_append_left _ hc)) (hcalls _ (by simp)) hs) h hcalls

/-- **Free slots stay clean as long as nobody calls `kill(0)`**: a process that
    `fork` makes is not killed, and `kill` of any other pid succeeds only if a
    process has it. -/
theorem free_slots_clean (E : Env) {m₀ m : Machine} {calls : List Call} (h₀ : m₀.kernel.Clean)
    (hcalls : ∀ c ∈ calls, c ≠ .kill 0) (hrun : exec (step E) m₀ calls = .next m) :
    m.kernel.Clean ∧
    (∀ p m' q, m.step E (.fork p) = .next m' → (m.kernel.proc q).state = .UNUSED →
      (m'.kernel.proc q).state ≠ .UNUSED → (m'.kernel.proc q).killed = 0) ∧
    ∀ pid k', pid ≠ 0 → kill pid m.kernel = .ok (0, k') →
      ∃ p, (m.kernel.proc p).state ≠ .UNUSED ∧ (m.kernel.proc p).pid = pid := by
  have hc := exec_clean h₀ hcalls hrun
  refine ⟨hc, fun p m' q hfork hq hlive => ?_, fun pid k' hpid hkill => kill_live hc hpid hkill⟩
  obtain ⟨_, r, hrun', _⟩ := callBy_eq_next hfork
  rcases fork_eq_ok hrun' with (hproc | ⟨i, hproc⟩) | ⟨i, _, hothers, hkilled, _⟩
  · rw [hproc] at hlive
    exact absurd hq hlive
  · by_cases hqi : q = i
    · rw [hproc, hqi, update_self] at hlive
      exact absurd rfl hlive
    · rw [hproc, update_of_ne hqi] at hlive
      exact absurd hq hlive
  · by_cases hqi : q = i
    · subst hqi
      rw [hkilled]
      exact (hc q hq).killed
    · rw [hothers q hqi] at hlive
      exact absurd hq hlive

/-- The first process forks again, after its child of pid 2 was killed and
    left. -/
theorem free_slots_clean_forked :
    ∃ m m', (firstMachine 20).kernel.Clean ∧
      exec (step (smallEnv 20)) (firstMachine 20) [.fork 0, .kill 2, .run 1, .exit 1 0] = .next m ∧
      m.step (smallEnv 20) (.fork 0) = .next m' ∧ (m'.kernel.proc 2).state = .RUNNABLE ∧
      (m'.kernel.proc 2).killed = 0 := by
  have hclean : (firstMachine 20).kernel.Clean := by decide +kernel
  obtain ⟨m', hrun, hnew⟩ := Outcome.exists_of_check
    (x := exec (step (smallEnv 20)) (firstMachine 20)
      [.fork 0, .kill 2, .run 1, .exit 1 0, .fork 0])
    (t := fun m => (m.kernel.proc 2).state = .RUNNABLE) (by decide +kernel)
  have hstate : (m'.kernel.proc 2).state = .RUNNABLE := of_decide_eq_true hnew
  rw [show [Call.fork 0, .kill 2, .run 1, .exit 1 0, .fork 0]
    = [.fork 0, .kill 2, .run 1, .exit 1 0] ++ [.fork 0] from rfl, exec_snoc] at hrun
  obtain ⟨m, hm, hfork⟩ := Outcome.bind_eq_next hrun
  obtain ⟨_, hfree⟩ := Outcome.exists_of_check
    (x := exec (step (smallEnv 20)) (firstMachine 20) [.fork 0, .kill 2, .run 1, .exit 1 0])
    (t := fun m => (m.kernel.proc 2).state = .UNUSED) (by decide +kernel)
  rw [hm] at hfree
  obtain ⟨heq, hfree⟩ := hfree
  cases heq
  refine ⟨m, m', hclean, hm, hfork, hstate, ?_⟩
  exact (free_slots_clean _ hclean (by simp) hm).2.1 0 m' 2 hfork (of_decide_eq_true hfree)
    (by rw [hstate]; decide)

/-- **`kill(0)`** finds a free slot and marks it: it returns 0 although no
    process has pid 0, and the next process that `fork` makes has been killed
    before it starts. -/
theorem kill_zero_marks_free_slot :
    ∃ k' m m', (firstMachine 20).kernel.Clean ∧
      kill 0 (firstMachine 20).kernel = .ok (0, k') ∧
      (∀ p, ((firstMachine 20).kernel.proc p).state ≠ .UNUSED →
        ((firstMachine 20).kernel.proc p).pid ≠ 0) ∧
      exec (step (smallEnv 20)) (firstMachine 20) [.kill 0] = .next m ∧ ¬ m.kernel.Clean ∧
      m.step (smallEnv 20) (.fork 0) = .next m' ∧ (m.kernel.proc 1).state = .UNUSED ∧
      (m'.kernel.proc 1).state = .RUNNABLE ∧ (m'.kernel.proc 1).killed = 1 := by
  obtain ⟨m, hm, hdirty⟩ := Outcome.exists_of_check
    (x := exec (step (smallEnv 20)) (firstMachine 20) [.kill 0])
    (t := fun m => decide (¬ m.kernel.Clean ∧ (m.kernel.proc 1).state = .UNUSED))
    (by decide +kernel)
  obtain ⟨m', hm', hkilled⟩ := Outcome.exists_of_check
    (x := exec (step (smallEnv 20)) (firstMachine 20) ([.kill 0] ++ [.fork 0]))
    (t := fun m => decide ((m.kernel.proc 1).state = .RUNNABLE ∧ (m.kernel.proc 1).killed = 1))
    (by decide +kernel)
  rw [exec_snoc, hm, Outcome.bind_next] at hm'
  obtain ⟨hdirty, hunused⟩ := of_decide_eq_true hdirty
  obtain ⟨hrunnable, hkilled⟩ := of_decide_eq_true hkilled
  have hkill : kill 0 (firstMachine 20).kernel = .ok (0, m.kernel) := by
    rw [exec_cons] at hm
    obtain ⟨m1, hstep, hnil⟩ := Outcome.bind_eq_next hm
    cases hnil
    obtain ⟨r, hrun⟩ := after_eq_next hstep
    have hr : (kill 0 (firstMachine 20).kernel).toOption.map Prod.fst = some 0 := by
      decide +kernel
    rw [hrun] at hr
    cases hr
    exact hrun
  exact ⟨m.kernel, m, m', by decide +kernel, hkill, by decide +kernel, hm, hdirty, hm', hunused,
    hrunnable, hkilled⟩

end Machine

end Xv6
