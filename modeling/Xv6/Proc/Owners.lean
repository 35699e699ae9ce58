import Xv6.Lib.Count
import Xv6.Proc.Files

/-!
# Who has which page

`Wf` is the invariant of the calls in `Proc/Kernel.lean`: a slot of the process
table has the pages of its page table, of its user memory and its trapframe; the
pipes have theirs; the counts of the file table are the references that there
are. A slot changes by `Wf.put`, which asks for the slot's new pages and for the
memory of all others' to be as before.
-/

namespace Xv6

open Function List
open PageTree
open Cpus (ProcState)

variable {E : Env} {F : List Nat} {held : List (Fin NFILE)} {k : Kernel}
  {g : Spaces NPROC} {pipes : List Nat} {p : Fin NPROC}

/-! ## References to open files -/

/-- How many references to `f` there are. -/
def refs (proc : Fin NPROC → Proc) (held : List (Fin NFILE)) (f : Fin NFILE) : Int :=
  count (fun x : Fin NPROC × Fin NOFILE => (proc x.1).ofile x.2 = some f) + held.count f

section Refs

variable {proc proc' : Fin NPROC → Proc} {fd : Fin NOFILE} {f : Fin NFILE}

theorem refs_nonneg (proc : Fin NPROC → Proc) (held : List (Fin NFILE)) (f : Fin NFILE) :
    0 ≤ refs proc held f := by
  have := count_nonneg fun x : Fin NPROC × Fin NOFILE => (proc x.1).ofile x.2 = some f
  unfold refs
  omega

theorem refs_congr (h : ∀ q, (proc' q).ofile = (proc q).ofile) :
    refs proc' held = refs proc held := by
  funext f
  unfold refs
  simp only [h]

theorem refs_setFd (o : Option (Fin NFILE)) (x : Proc)
    (hx : x.ofile = update (proc p).ofile fd o) (f : Fin NFILE) :
    refs (update proc p x) held f = refs proc held f
      - (if (proc p).ofile fd = some f then 1 else 0) + (if o = some f then 1 else 0) := by
  have hfun : (fun y : Fin NPROC × Fin NOFILE => (update proc p x y.1).ofile y.2)
      = update (fun y : Fin NPROC × Fin NOFILE => (proc y.1).ofile y.2) (p, fd) o := by
    funext y
    obtain ⟨q, fd'⟩ := y
    by_cases hq : q = p
    · subst hq
      by_cases hfd : fd' = fd
      · subst hfd
        simp [hx]
      · simp [hx, hfd]
    · simp [hq]
  have hcount := count_update (fun y : Fin NPROC × Fin NOFILE => (proc y.1).ofile y.2)
    (fun o => o = some f) (p, fd) o
  rw [← hfun] at hcount
  unfold refs
  simp only at hcount ⊢
  rw [hcount]
  omega

theorem refs_pos (held : List (Fin NFILE)) (h : (proc p).ofile fd = some f) :
    1 ≤ refs proc held f := by
  have := (count_pos_iff (q := fun x : Fin NPROC × Fin NOFILE => (proc x.1).ofile x.2 = some f)).mpr
    ⟨(p, fd), h⟩
  unfold refs
  omega

theorem refs_cons (proc : Fin NPROC → Proc) (held : List (Fin NFILE)) (f0 f : Fin NFILE) :
    refs proc (f0 :: held) f = refs proc held f + (if f0 = f then 1 else 0) := by
  unfold refs
  rw [count_cons]
  by_cases h : f0 = f
  · simp [h]
    omega
  · simp [h]

end Refs

/-! ## What a slot of the process table has -/

namespace Proc

/-- The pages of a process with the page table and the user memory `y`. -/
def owned (x : Proc) (y : PageTree 2 × Pages) : List Nat :=
  y.1.pages ++ (y.2.map Prod.fst ++ if x.trapframe = 0 then [] else [x.trapframe])

/-- `y` is what the process has in memory, and `G` is the rest of the ledger. -/
def Holds (E : Env) (s : Phys) (G : List Nat) (x : Proc) (y : PageTree 2 × Pages) :
    Prop :=
  if x.pagetable = 0 then y = (absent, [])
  else x.pagetable = y.1.pa ∧ y.2.length = npages x.sz ∧ x.trapframe ≠ 0 ∧
    Space E s x.trapframe y.1 y.2 (x.trapframe :: G)

theorem owned_of_trapframe {x : Proc} {y : PageTree 2 × Pages} (h : x.trapframe ≠ 0)
    (G : List Nat) : x.owned y ++ G = y.1.pages ++ (y.2.map Prod.fst ++ x.trapframe :: G) := by
  unfold owned
  rw [if_neg h]
  simp only [append_assoc, cons_append, nil_append]

theorem holds_stable : Stable E owned (Holds E) := by
  intro s s' G G' x y h hacct hmem
  unfold Holds at h ⊢
  split at h
  · rename_i h0
    rw [if_pos h0]
    exact h
  · rename_i h0
    obtain ⟨hpa, hsz, htf, hsp⟩ := h
    rw [owned_of_trapframe htf] at hacct
    rw [if_neg h0]
    exact ⟨hpa, hsz, htf, hsp.congr (fun p hp => hmem p (mem_append_left _ hp)) hacct⟩

/-- What goes with the state of a slot between calls. -/
structure Ok (x : Proc) : Prop where
  unused : x.state = .UNUSED → x.pagetable = 0 ∧ x.trapframe = 0 ∧ x.sz = 0
  used : x.state ≠ .UNUSED → x.pagetable ≠ 0
  closed : x.state = .UNUSED ∨ x.state = .USED ∨ x.state = .ZOMBIE → ∀ fd, x.ofile fd = none

/-- What `freeproc` leaves in the slot. -/
def freed (x : Proc) : Proc :=
  { x with
    trapframe := 0
    pagetable := 0
    sz := 0
    pid := 0
    parent := none
    chan := 0
    killed := 0
    xstate := 0
    state := .UNUSED }

theorem freed_ok {x : Proc} (h : ∀ fd, x.ofile fd = none) : x.freed.Ok :=
  ⟨fun _ => ⟨rfl, rfl, rfl⟩, fun h0 => absurd rfl h0, fun _ => h⟩

/-- A change of the slot's other fields. -/
theorem Ok.congr {x x' : Proc} (h : x.Ok) (hstate : x.state ≠ .UNUSED ∧ x'.state ≠ .UNUSED)
    (hpt : x'.pagetable = x.pagetable)
    (hof : x'.state = .USED ∨ x'.state = .ZOMBIE → ∀ fd, x'.ofile fd = none) : x'.Ok where
  unused := fun h0 => absurd h0 hstate.2
  used := fun _ => hpt ▸ h.used hstate.1
  closed := fun h0 => hof (h0.resolve_left hstate.2)

end Proc

/-! ## The invariant -/

/-- All pages that the processes have. -/
abbrev Kernel.procPages (k : Kernel) (g : Spaces NPROC) : List Nat :=
  gather fun p => (k.proc p).owned (g p)

/-- The rest of the ledger, seen from a process. -/
abbrev Kernel.rest (k : Kernel) (g : Spaces NPROC) (G : List Nat)
    (p : Fin NPROC) : List Nat := restOf Proc.owned k.proc g G p

structure Wf (E : Env) (F : List Nat) (held : List (Fin NFILE)) (k : Kernel)
    (g : Spaces NPROC) (pipes : List Nat) : Prop where
  slots : Slots E Proc.owned (Proc.Holds E) k.phys (pipes ++ F) k.proc g
  files : FilesOk k.phys.kmem.mem k.file (refs k.proc held) pipes
  proc : ∀ p, (k.proc p).Ok

namespace Wf

section

variable (h : Wf E F held k g pipes)

include h

theorem space (hpt : (k.proc p).pagetable ≠ 0) :
    (k.proc p).pagetable = (g p).1.pa ∧ (g p).2.length = npages (k.proc p).sz ∧
      (k.proc p).trapframe ≠ 0 ∧
      Space E k.phys (k.proc p).trapframe (g p).1 (g p).2
        ((k.proc p).trapframe :: k.rest g (pipes ++ F) p) := by
  have := h.slots.ok p
  unfold Proc.Holds at this
  rwa [if_neg hpt] at this

omit h in
theorem mem_rest_of_pipes {q : Nat} (hq : q ∈ pipes) (p : Fin NPROC) :
    q ∈ k.rest g (pipes ++ F) p :=
  mem_append_right _ (mem_append_left _ hq)

/-- **One slot changes.** -/
theorem put {k' : Kernel} {x : Proc} {y : PageTree 2 × Pages}
    (hproc : k'.proc = update k.proc p x) (hfile : k'.file = k.file)
    (hacct : Acct E k'.phys.kmem (x.owned y ++ k.rest g (pipes ++ F) p))
    (hmem : ∀ q ∈ k.rest g (pipes ++ F) p, k'.phys.kmem.mem q = k.phys.kmem.mem q)
    (hholds : x.Holds E k'.phys (k.rest g (pipes ++ F) p) y) (hok : x.Ok)
    (hof : x.ofile = (k.proc p).ofile) : Wf E F held k' (update g p y) pipes where
  slots := by
    rw [hproc]
    exact h.slots.put Proc.holds_stable hacct
      (fun j hj q hq => hmem q (Slots.mem_restOf hj hq)) hholds
  files := by
    have hrefs : refs k'.proc held = refs k.proc held := refs_congr fun q => by
      by_cases hq : q = p
      · rw [hproc, hq, update_self, hof]
      · rw [hproc, update_of_ne hq]
    rw [hrefs, hfile]
    exact h.files.congr fun q hq => hmem q (mem_rest_of_pipes hq p)
  proc := fun q => by
    by_cases hq : q = p
    · rw [hproc, hq, update_self]
      exact hok
    · rw [hproc, update_of_ne hq]
      exact h.proc q

/-- **No slot's memory changes**, only what else is in the slots, the files, the
    pipes and what is outside the table. -/
theorem refile {k' : Kernel} {F' : List Nat} {held' : List (Fin NFILE)}
    {pipes' : List Nat} (hacct : Acct E k'.phys.kmem (pipes' ++ (k.procPages g ++ F')))
    (hmem : ∀ q ∈ k.procPages g, k'.phys.kmem.mem q = k.phys.kmem.mem q)
    (hsame : ∀ q, (k'.proc q).trapframe = (k.proc q).trapframe ∧
      (k'.proc q).pagetable = (k.proc q).pagetable ∧ (k'.proc q).sz = (k.proc q).sz)
    (hfiles : FilesOk k'.phys.kmem.mem k'.file (refs k'.proc held') pipes')
    (hok : ∀ q, (k'.proc q).Ok) : Wf E F' held' k' g pipes' where
  slots := by
    have howned : ∀ q, (k'.proc q).owned (g q) = (k.proc q).owned (g q) := fun q => by
      unfold Proc.owned
      rw [(hsame q).1]
    have hold : Slots E Proc.owned (Proc.Holds E) k'.phys (pipes' ++ F') k.proc g := by
      refine h.slots.frame Proc.holds_stable (hacct.perm ?_) hmem
      rw [← append_assoc, ← append_assoc]
      exact perm_append_comm.append_right F'
    have hrest : ∀ q, restOf Proc.owned k'.proc g (pipes' ++ F') q
        = restOf Proc.owned k.proc g (pipes' ++ F') q := fun q =>
      congrArg (· ++ (pipes' ++ F')) (others_congr fun j _ => howned j)
    refine ⟨?_, fun q => ?_⟩
    · rw [gather_congr howned]
      exact hold.acct
    · have := hold.ok q
      obtain ⟨htf, hpt, hsz⟩ := hsame q
      unfold Proc.Holds at this ⊢
      rwa [hrest, htf, hpt, hsz]
  files := hfiles
  proc := hok

theorem acct : Acct E k.phys.kmem (pipes ++ (k.procPages g ++ F)) := by
  refine h.slots.acct.perm ?_
  rw [← append_assoc, ← append_assoc]
  exact perm_append_comm.append_right F

/-- Only fields of slots change that are not about memory or files. -/
theorem quiet {k' : Kernel} (hphys : k'.phys = k.phys)
    (hfile : k'.file = k.file) (hsame : ∀ q, (k'.proc q).trapframe = (k.proc q).trapframe ∧
      (k'.proc q).pagetable = (k.proc q).pagetable ∧ (k'.proc q).sz = (k.proc q).sz)
    (hof : ∀ q, (k'.proc q).ofile = (k.proc q).ofile) (hok : ∀ q, (k'.proc q).Ok) :
    Wf E F held k' g pipes := by
  refine h.refile (by rw [hphys]; exact h.acct) (fun _ _ => by rw [hphys]) hsame ?_ hok
  rw [hphys, hfile, refs_congr hof]
  exact h.files

/-- A slot's fields change that are not about memory or files. -/
theorem set {x : Proc} (htf : x.trapframe = (k.proc p).trapframe)
    (hpt : x.pagetable = (k.proc p).pagetable) (hsz : x.sz = (k.proc p).sz)
    (hof : x.ofile = (k.proc p).ofile) (hok : x.Ok) : Wf E F held (k.setProc p x) g pipes := by
  refine h.quiet rfl rfl (fun q => ?_) (fun q => ?_) fun q => ?_
  all_goals
    by_cases hq : q = p
    · subst hq
      simp [Kernel.setProc, *]
    · simp [Kernel.setProc, hq, h.proc q]

theorem moved (hpt : (k.proc p).pagetable ≠ 0) {s : Phys}
    {t : PageTree 2} {u : Pages} {sz : Nat}
    (hm : Moved E k.phys (k.proc p).trapframe (g p).1
      ((k.proc p).trapframe :: k.rest g (pipes ++ F) p) s t u)
    (hsz : u.length = npages sz) :
    Wf E F held { k with phys := s, proc := update k.proc p { k.proc p with sz := sz } }
      (update g p (t, u)) pipes := by
  obtain ⟨hpa, _, htf, _⟩ := h.space hpt
  refine h.put rfl rfl ?_ (fun q hq => hm.frame q (mem_cons_of_mem _ hq)) ?_ ?_ rfl
  · rw [Proc.owned_of_trapframe (x := { k.proc p with sz := sz }) htf]
    exact hm.space.acct
  · unfold Proc.Holds
    rw [if_neg (show ({ k.proc p with sz := sz } : Proc).pagetable ≠ 0 from hpt)]
    exact ⟨hpa.trans hm.pa.symm, hsz, htf, hm.space⟩
  · have hok := h.proc p
    have hstate : (k.proc p).state ≠ .UNUSED := fun h0 => hpt (hok.unused h0).1
    exact hok.congr ⟨hstate, hstate⟩ rfl fun h0 => hok.closed (.inr h0)

/-- A call on the process's own memory leaves its size as it is. -/
theorem moved_same (hpt : (k.proc p).pagetable ≠ 0) {s : Phys}
    {t : PageTree 2} {u : Pages}
    (hm : Moved E k.phys (k.proc p).trapframe (g p).1
      ((k.proc p).trapframe :: k.rest g (pipes ++ F) p) s t u)
    (hsz : u.length = npages (k.proc p).sz) :
    Wf E F held { k with phys := s } (update g p (t, u)) pipes := by
  have := h.moved hpt hm hsz
  rwa [show ({ k.proc p with sz := (k.proc p).sz } : Proc) = k.proc p from rfl,
    update_eq_self] at this

theorem copyoutInt (hpt : (k.proc p).pagetable ≠ 0) (dstva v : Nat) :
    ∃ r s, Xv6.copyoutInt E p dstva v k = .ok (r, { k with phys := s }) ∧
      Wf E F held { k with phys := s } g pipes ∧
      ∀ q ∈ k.rest g (pipes ++ F) p, s.kmem.mem q = k.phys.kmem.mem q := by
  obtain ⟨hpa, hsz, _, hsp⟩ := h.space hpt
  obtain ⟨r, s, hrun, hm⟩ := copyout_spec hsp dstva (Bytes.zero.setLE 0 4 v) 4
  refine ⟨r, s, ?_, ?_, fun q hq => hm.frame q (mem_cons_of_mem _ hq)⟩
  · simp only [Xv6.copyoutInt, Sys.reads_bind_run]
    rw [hpa]
    exact onPhys_of_ok hrun
  · have := h.moved_same hpt hm hsz
    rwa [update_eq_self] at this

end

end Wf

end Xv6
