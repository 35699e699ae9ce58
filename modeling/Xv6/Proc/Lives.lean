import Xv6.Proc.Owners

/-!
# Making and ending processes

`freeproc` gives back whatever a slot has, so `allocproc` and `fork` may call it
at any point of a failure, and `wait` when it reaps. Each call keeps `Wf` and
says which slot it changed.

`allocproc` fails at the trapframe or in the page table, `fork` in `uvmcopy`,
and what was taken until then goes back through `freeproc`.
-/

namespace Xv6

open Function List Sys
open PageTree
open Cpus (ProcState)

variable {E : Env} {F : List Nat} {held : List (Fin NFILE)} {k : Kernel}
  {g : Spaces NPROC} {pipes : List Nat} {p : Fin NPROC}

theorem updateProc_run (p : Fin NPROC) (f : Proc → Proc) (k : Kernel) :
    updateProc p f k = .ok ((), k.setProc p (f (k.proc p))) := rfl

theorem updateProc_bind {α : Type} (p : Fin NPROC) (f : Proc → Proc) (g : Unit → Sys Kernel α)
    (k : Kernel) : (updateProc p f >>= g) k = g () (k.setProc p (f (k.proc p))) := rfl

@[simp] theorem Kernel.setProc_proc (k : Kernel) (p : Fin NPROC) (x : Proc) :
    (k.setProc p x).proc = update k.proc p x := rfl

/-! ## `freeproc` -/

/-- A step on the pages that is taken or not. -/
theorem onPhysIf_run {c : Prop} [Decidable c] {x : Sys Phys Unit} {rest : Sys Kernel Unit}
    {s : Phys}
    (h : ¬ c ∧ s = k.phys ∨ c ∧ x k.phys = .ok ((), s)) :
    (if c then (do onPhys x; rest) else rest) k = rest { k with phys := s } := by
  rcases h with ⟨hc, rfl⟩ | ⟨hc, hrun⟩
  · rw [if_neg hc]
  · rw [if_pos hc, bind_of_ok (onPhys_of_ok hrun)]

theorem freeproc_run {s1 s2 : Phys} (h1 : ¬ (k.proc p).trapframe ≠ 0 ∧ s1 = k.phys ∨
      (k.proc p).trapframe ≠ 0 ∧ kfreePage E (k.proc p).trapframe k.phys = .ok ((), s1))
    (h2 : ¬ (k.proc p).pagetable ≠ 0 ∧ s2 = s1 ∨
      (k.proc p).pagetable ≠ 0 ∧
        procFreepagetable E (k.proc p).pagetable (k.proc p).sz s1 = .ok ((), s2)) :
    freeproc E p k
      = .ok ((), { k with phys := s2, proc := update k.proc p (k.proc p).freed }) := by
  simp only [freeproc, reads_bind_run]
  rw [onPhysIf_run h1, updateProc_bind, onPhysIf_run h2, updateProc_run]
  simp [Kernel.setProc, Proc.freed]

/-- **`freeproc`** gives back all pages of the slot, and no others. -/
theorem freeproc_spec (hE : E.Ok) {y : PageTree 2 × Pages} {G : List Nat}
    (hacct : Acct E k.phys.kmem ((k.proc p).owned y ++ G))
    (hholds : (k.proc p).Holds E k.phys G y) :
    ∃ s, freeproc E p k
        = .ok ((), { k with phys := s, proc := update k.proc p (k.proc p).freed }) ∧
      Acct E s.kmem G ∧ ∀ q ∈ G, s.kmem.mem q = k.phys.kmem.mem q := by
  by_cases hpt : (k.proc p).pagetable = 0
  · rw [Proc.Holds, if_pos hpt] at hholds
    subst hholds
    by_cases htf : (k.proc p).trapframe = 0
    · refine ⟨k.phys, freeproc_run (.inl ⟨not_not.mpr htf, rfl⟩) (.inl ⟨not_not.mpr hpt, rfl⟩), ?_,
        fun _ _ => rfl⟩
      simpa [Proc.owned, htf, pages] using hacct
    · rw [Proc.owned_of_trapframe htf] at hacct
      obtain ⟨s, hrun, hacct', hmem, _, _⟩ := kfreePage_spec hE hacct
      refine ⟨s, freeproc_run (.inr ⟨htf, hrun⟩) (.inl ⟨not_not.mpr hpt, rfl⟩), hacct',
        fun q hq => hmem q ?_⟩
      rintro rfl
      exact (nodup_cons.mp hacct.nodup_owned).1 hq
  · rw [Proc.Holds, if_neg hpt] at hholds
    obtain ⟨hpa, hsz, htf, hsp⟩ := hholds
    have hperm : (y.1.pages ++ (y.2.map Prod.fst ++ (k.proc p).trapframe :: G)).Perm
        ((k.proc p).trapframe :: (y.1.pages ++ (y.2.map Prod.fst ++ G))) := by
      refine (List.Perm.append_left _ perm_middle).trans perm_middle
    obtain ⟨s1, hrun1, hacct1, hmem1, _, _⟩ := kfreePage_spec hE (hsp.acct.perm hperm)
    have hne : ∀ q ∈ y.1.pages ++ (y.2.map Prod.fst ++ G), q ≠ (k.proc p).trapframe := by
      rintro q hq rfl
      exact (nodup_cons.mp (hsp.acct.perm hperm).nodup_owned).1 hq
    have hsp1 : Space E s1 (k.proc p).trapframe y.1 y.2 G :=
      hsp.congr (fun q hq => hmem1 q (hne q (mem_append_left _ hq))) hacct1
    obtain ⟨s2, hrun2, hfr⟩ := procFreepagetable_spec hE hsp1 hsz
    rw [← hpa] at hrun2
    refine ⟨s2, freeproc_run (.inr ⟨htf, hrun1⟩) (.inr ⟨hpt, hrun2⟩), hfr.acct, fun q hq => ?_⟩
    rw [hfr.frame q hq, hmem1 q (hne q (mem_append_right _ (mem_append_right _ hq)))]

/-- `freeproc` of a slot that has been changed, against the slot as it was. -/
theorem freeproc_slot (hE : E.Ok) (k' : Kernel) {x : Proc} {y : PageTree 2 × Pages}
    {G : List Nat} (hproc : k'.proc = update k.proc p x) (hof : x.ofile = (k.proc p).ofile)
    (hacct : Acct E k'.phys.kmem (x.owned y ++ G)) (hholds : x.Holds E k'.phys G y) :
    ∃ s, freeproc E p k'
        = .ok ((), { k' with phys := s, proc := update k.proc p (k.proc p).freed }) ∧
      Acct E s.kmem G ∧ ∀ q ∈ G, s.kmem.mem q = k'.phys.kmem.mem q := by
  have hx : k'.proc p = x := by rw [hproc, update_self]
  have hfreed : x.freed = (k.proc p).freed := by simp only [Proc.freed, hof]
  obtain ⟨s, hrun, hrest⟩ := freeproc_spec hE (k := k') (p := p) (hx ▸ hacct) (hx ▸ hholds)
  rw [hx, hproc, update_idem, hfreed] at hrun
  exact ⟨s, hrun, hrest⟩

theorem Wf.freed (h : Wf E F held k g pipes) {k' : Kernel} (hfile : k'.file = k.file)
    (hproc : k'.proc = update k.proc p (k.proc p).freed)
    (hof : ∀ fd, (k.proc p).ofile fd = none) (hacct : Acct E k'.phys.kmem (k.rest g (pipes ++ F) p))
    (hmem : ∀ q ∈ k.rest g (pipes ++ F) p, k'.phys.kmem.mem q = k.phys.kmem.mem q) :
    Wf E F held k' (update g p (absent, [])) pipes :=
  h.put hproc hfile hacct hmem rfl (Proc.freed_ok hof) rfl

/-! ## `allocproc` -/

theorem Wf.unused (h : Wf E F held k g pipes) (hp : (k.proc p).state = .UNUSED) :
    g p = (absent, []) ∧ (k.proc p).trapframe = 0 ∧
      (k.procPages g ++ (pipes ++ F)).Perm (k.rest g (pipes ++ F) p) := by
  obtain ⟨hpt, htf, _⟩ := (h.proc p).unused hp
  have hg : g p = (absent, []) := by
    have := h.slots.ok p
    rwa [Proc.Holds, if_pos hpt] at this
  refine ⟨hg, htf, (Slots.perm_at Proc.owned k.proc g (pipes ++ F) p).trans ?_⟩
  simp [Proc.owned, hg, htf, pages]

theorem allocpid_run (k : Kernel) :
    allocpid k = .ok (k.nextpid, { k with nextpid := k.nextpid + 1 }) := rfl

/-- What `allocproc` puts into a slot. -/
def Proc.allocated (x : Proc) (pid : BitVec 32) (tf pagetable : Nat) : Proc :=
  { x with pid := pid, state := .USED, trapframe := tf, pagetable := pagetable }

attribute [local simp] Proc.allocated

/-- **`allocproc`** takes an unused slot, with a trapframe and an empty page
    table, or leaves every slot's memory as it was. -/
theorem allocproc_spec (hE : E.Ok) (h : Wf E F held k g pipes) :
    ∃ res k', allocproc E k = .ok (res, k') ∧ k'.file = k.file ∧ k'.initproc = k.initproc ∧
      (∀ q ∈ k.procPages g ++ (pipes ++ F), k'.phys.kmem.mem q = k.phys.kmem.mem q) ∧
      (res = none ∧ Wf E F held k' g pipes ∧ (k'.proc = k.proc ∨
          ∃ i, (k.proc i).state = .UNUSED ∧ k'.proc = update k.proc i (k.proc i).freed) ∨
        ∃ i pid tf t, res = some i ∧ (k.proc i).state = .UNUSED ∧
          k'.proc = update k.proc i ((k.proc i).allocated pid tf t.pa) ∧
          Wf E F held k' (update g i (t, [])) pipes) := by
  cases hfind : (List.finRange NPROC).find? (fun p => (k.proc p).state = .UNUSED) with
  | none =>
    refine ⟨none, k, ?_, rfl, rfl, fun _ _ => rfl, .inl ⟨rfl, h, .inl rfl⟩⟩
    simp only [allocproc, reads_bind_run, hfind]
    rfl
  | some i =>
    have hi : (k.proc i).state = .UNUSED := by simpa using find?_some hfind
    obtain ⟨hg, htf, hperm⟩ := h.unused hi
    obtain ⟨hpt, _, hsz⟩ := (h.proc i).unused hi
    have hof := (h.proc i).closed (.inl hi)
    have hacct : Acct E k.phys.kmem (k.rest g (pipes ++ F) i) := h.slots.acct.perm hperm
    have hback : update g i (absent, []) = g := by rw [← hg, update_eq_self]
    -- every failure ends in a `freeproc` of the slot
    have hfail : ∀ (k1 : Kernel) {x : Proc}, k1.file = k.file → k1.initproc = k.initproc →
        k1.proc = update k.proc i x → x.ofile = (k.proc i).ofile → x.pagetable = 0 →
        Acct E k1.phys.kmem (x.owned (absent, []) ++ k.rest g (pipes ++ F) i) →
        (∀ q ∈ k.rest g (pipes ++ F) i, k1.phys.kmem.mem q = k.phys.kmem.mem q) →
        ∃ k', freeproc E i k1 = .ok ((), k') ∧ k'.file = k.file ∧ k'.initproc = k.initproc ∧
          (∀ q ∈ k.procPages g ++ (pipes ++ F), k'.phys.kmem.mem q = k.phys.kmem.mem q) ∧
          Wf E F held k' g pipes ∧ k'.proc = update k.proc i (k.proc i).freed := by
      intro k1 x hfile hinit hproc hofx hptx hacct1 hmem1
      have hholds : x.Holds E k1.phys (k.rest g (pipes ++ F) i) (absent, []) := by
        rw [Proc.Holds, if_pos hptx]
      obtain ⟨s, hrun, hacct', hmem'⟩ := freeproc_slot hE k1 hproc hofx hacct1 hholds
      have hmem : ∀ q ∈ k.rest g (pipes ++ F) i, s.kmem.mem q = k.phys.kmem.mem q := fun q hq =>
        (hmem' q hq).trans (hmem1 q hq)
      refine ⟨_, hrun, hfile, hinit, fun q hq => hmem q (hperm.mem_iff.mp hq), ?_, rfl⟩
      rw [← hback]
      exact h.freed hfile rfl hof hacct' hmem
    simp only [allocproc, reads_bind_run, hfind]
    rw [bind_of_ok (allocpid_run k), updateProc_bind]
    generalize hk1 : Kernel.setProc _ i _ = k1
    obtain ⟨hphys1, hfile1, hinit1⟩ :
        k1.phys = k.phys ∧ k1.file = k.file ∧ k1.initproc = k.initproc := by
      rw [← hk1]
      exact ⟨rfl, rfl, rfl⟩
    have hproc1 : k1.proc = update k.proc i ((k.proc i).allocated k.nextpid 0 0) := by
      simp [← hk1, hpt, htf]
    rw [← hphys1] at hacct
    cases hka : E.kalloc k1.phys.calls k1.phys.kmem with
    | none =>
      rw [bind_of_ok (onPhys_of_ok (kallocPage_none hE hka))]
      simp only
      rw [updateProc_bind]
      generalize hk2 : Kernel.setProc _ i _ = k2
      obtain ⟨k', hrun, hfile, hinit, hmem, hwf, hproc⟩ := hfail k2
        (x := (k.proc i).allocated k.nextpid 0 0) (by rw [← hk2]; exact hfile1)
        (by rw [← hk2]; exact hinit1) (by simp [← hk2, hproc1]) rfl rfl
        (by rw [← hk2]; exact hacct) (fun q _ => by rw [← hk2, ← hphys1]; rfl)
      rw [bind_of_ok hrun]
      exact ⟨none, k', rfl, hfile, hinit, hmem, .inl ⟨rfl, hwf, .inr ⟨i, hi, hproc⟩⟩⟩
    | some tf =>
      obtain ⟨s2, hrun2, hacct2, hfresh, hpage, hmem2, _, _⟩ := kallocPage_some hE hacct hka
      have htf0 : tf ≠ 0 := by
        have := (hpage.addr hE).2.1
        simp only [KERNBASE] at this
        omega
      have hrest2 : ∀ q ∈ k.rest g (pipes ++ F) i, s2.kmem.mem q = k.phys.kmem.mem q := fun q hq =>
        (hmem2 q fun e => hfresh (e ▸ hq)).trans (by rw [hphys1])
      rw [bind_of_ok (onPhys_of_ok hrun2)]
      simp only
      rw [updateProc_bind]
      generalize hk2 : Kernel.setProc _ i _ = k2
      obtain ⟨hphys2, hfile2, hinit2⟩ :
          k2.phys = s2 ∧ k2.file = k.file ∧ k2.initproc = k.initproc := by
        rw [← hk2]
        exact ⟨rfl, hfile1, hinit1⟩
      have hproc2 : k2.proc = update k.proc i ((k.proc i).allocated k.nextpid tf 0) := by
        simp [← hk2, hproc1]
      obtain ⟨res, s3, hrun3, hframe3, hres⟩ := procPagetable_spec hE hacct2 hpage.pageAddr
      rw [← hphys2] at hrun3
      rw [bind_of_ok (onPhys_of_ok hrun3)]
      have hrest3 : ∀ q ∈ k.rest g (pipes ++ F) i, s3.kmem.mem q = k.phys.kmem.mem q := fun q hq =>
        (hframe3 q (mem_cons_of_mem _ hq)).trans (hrest2 q hq)
      rcases hres with ⟨rfl, hacct3⟩ | ⟨t, rfl, hsp⟩
      · simp only
        rw [updateProc_bind]
        generalize hk3 : Kernel.setProc _ i _ = k3
        obtain ⟨k', hrun, hfile, hinit, hmem, hwf, hproc⟩ := hfail k3
          (x := (k.proc i).allocated k.nextpid tf 0) (by rw [← hk3]; exact hfile2)
          (by rw [← hk3]; exact hinit2) (by simp [← hk3, hproc2]) rfl rfl
          (by
            rw [Proc.owned_of_trapframe (x := (k.proc i).allocated k.nextpid tf 0) htf0, ← hk3]
            exact hacct3) (by rw [← hk3]; exact hrest3)
        rw [bind_of_ok hrun]
        exact ⟨none, k', rfl, hfile, hinit, hmem, .inl ⟨rfl, hwf, .inr ⟨i, hi, hproc⟩⟩⟩
      · simp only
        rw [updateProc_bind]
        generalize hk3 : Kernel.setProc _ i _ = k3
        obtain ⟨hphys3, hfile3, hinit3⟩ :
            k3.phys = s3 ∧ k3.file = k.file ∧ k3.initproc = k.initproc := by
          rw [← hk3]
          exact ⟨rfl, hfile2, hinit2⟩
        have hproc3 : k3.proc
            = update k.proc i ((k.proc i).allocated k.nextpid tf t.pa) := by
          simp [← hk3, hproc2]
        have hpa : t.pa ≠ 0 := hsp.pa_ne_zero hE
        refine ⟨some i, k3, rfl, hfile3, hinit3, fun q hq => ?_, .inr ⟨i, k.nextpid, tf, t, rfl, hi,
          hproc3, ?_⟩⟩
        · rw [hphys3]
          exact hrest3 q (hperm.mem_iff.mp hq)
        · refine h.put hproc3 hfile3 ?_ (by rw [hphys3]; exact hrest3) ?_ ?_ rfl
          · rw [Proc.owned_of_trapframe (x := (k.proc i).allocated k.nextpid tf t.pa) htf0, hphys3]
            exact hsp.acct
          · rw [Proc.Holds,
              if_neg (show ((k.proc i).allocated k.nextpid tf t.pa).pagetable ≠ 0 from hpa),
              hphys3]
            exact ⟨rfl, (congrArg npages hsz).symm, htf0, hsp⟩
          · exact ⟨fun h0 => (by cases h0), fun _ => hpa, fun _ => hof⟩

/-! ## `fork` -/

/-- The rest of the ledger does not depend on the slot itself. -/
theorem restOf_update {σ γ : Type} {n : Nat} (owned : σ → γ → List Nat) (slot : Fin n → σ)
    (g : Fin n → γ) (G : List Nat) (i : Fin n) (x : σ) (y : γ) :
    restOf owned (update slot i x) (update g i y) G i = restOf owned slot g G i :=
  congrArg (· ++ G) (others_congr fun j hj => by
    rw [update_of_ne hj, update_of_ne hj])

theorem Wf.trapframe (h : Wf E F held k g pipes) (hpt : (k.proc p).pagetable ≠ 0) {s : Phys}
    (hmem : ∀ q, q ≠ (k.proc p).trapframe → s.kmem.mem q = k.phys.kmem.mem q)
    (hacct : ∀ {L}, Acct E k.phys.kmem L → Acct E s.kmem L) :
    Wf E F held { k with phys := s } g pipes := by
  obtain ⟨hpa, hsz, htf, hsp⟩ := h.space hpt
  obtain ⟨_, hnd, hdis⟩ := nodup_append.mp hsp.acct.nodup_owned
  obtain ⟨_, hnd, _⟩ := nodup_append.mp hnd
  have hrest := (nodup_cons.mp hnd).1
  have hpages : ∀ q ∈ (g p).1.pages, q ≠ (k.proc p).trapframe := fun q hq =>
    hdis q hq _ (mem_append_right _ mem_cons_self)
  have hm : Space E s (k.proc p).trapframe (g p).1 (g p).2
      ((k.proc p).trapframe :: k.rest g (pipes ++ F) p) :=
    hsp.congr (fun q hq => hmem q (hpages q hq)) (hacct hsp.acct)
  have hput : Wf E F held { k with phys := s } (update g p (g p)) pipes := h.put
    (update_eq_self _ _).symm rfl
    (by
      rw [Proc.owned_of_trapframe htf]
      exact hm.acct)
    (fun q hq => hmem q fun e => hrest (e ▸ hq))
    (by
      rw [Proc.Holds, if_neg hpt]
      exact ⟨hpa, hsz, htf, hm⟩) (h.proc p) rfl
  rwa [update_eq_self] at hput

theorem forkFiles_spec {np : Fin NPROC} (hne : np ≠ p) : ∀ {fds : List (Fin NOFILE)} {k : Kernel},
    fds.Nodup → FilesOk k.phys.kmem.mem k.file (refs k.proc held) pipes →
    (∀ fd ∈ fds, (k.proc np).ofile fd = none) →
    ∃ file of', forkFiles p np fds k
        = .ok ((), ({ k with file := file } : Kernel).setProc np { k.proc np with ofile := of' }) ∧
      FilesOk k.phys.kmem.mem file
        (refs (update k.proc np { k.proc np with ofile := of' }) held) pipes ∧
      (∀ fd ∈ fds, of' fd = (k.proc p).ofile fd) ∧
      ∀ fd, fd ∉ fds → of' fd = (k.proc np).ofile fd := by
  intro fds
  induction fds with
  | nil =>
    intro k _ hfiles _
    refine ⟨k.file, (k.proc np).ofile, ?_, ?_, fun _ h => (by cases h), fun _ _ => rfl⟩
    · rw [forkFiles, Kernel.setProc, update_eq_self]
      rfl
    · rw [update_eq_self]
      exact hfiles
  | cons fd fds ih =>
    intro k hnd hfiles hfree
    obtain ⟨hfd, hnd⟩ := nodup_cons.mp hnd
    simp only [forkFiles, reads_bind_run]
    cases hof : (k.proc p).ofile fd with
    | none =>
      obtain ⟨file, of', hrun, hfiles', hin, hout⟩ := ih hnd hfiles fun fd' h' =>
        hfree fd' (mem_cons_of_mem _ h')
      refine ⟨file, of', hrun, hfiles', fun fd' h' => ?_, fun fd' h' =>
        hout fd' fun h0 => h' (mem_cons_of_mem _ h0)⟩
      rcases mem_cons.mp h' with rfl | h'
      · rw [hout fd' hfd, hfree fd' mem_cons_self, hof]
      · exact hin fd' h'
    | some f =>
      have href := hfiles.ref f
      obtain ⟨file1, hdup, hfiles1⟩ := filedup_spec hfiles (refs_pos held hof)
      simp only
      rw [bind_of_ok hdup, updateProc_bind]
      generalize hk1 : Kernel.setProc _ np _ = k1
      have hproc1 : k1.proc = update k.proc np { k.proc np with
          ofile := update (k.proc np).ofile fd (some f) } := by
        rw [← hk1]
        rfl
      have hfiles1' : FilesOk k1.phys.kmem.mem k1.file (refs k1.proc held) pipes := by
        have hrefs : refs k1.proc held
            = update (refs k.proc held) f (refs k.proc held f + 1) := by
          funext f'
          rw [hproc1, refs_setFd (some f) _ rfl, hfree fd mem_cons_self]
          by_cases hf' : f' = f
          · subst hf'
            simp
          · simp [hf', Ne.symm hf']
        rw [hrefs, ← hk1]
        exact hfiles1
      have hp1 : k1.proc p = k.proc p := by rw [hproc1, update_of_ne hne.symm]
      have hnp1 : k1.proc np = { k.proc np with
          ofile := update (k.proc np).ofile fd (some f) } := by
        rw [hproc1, update_self]
      obtain ⟨file, of', hrun, hfiles', hin, hout⟩ := ih hnd hfiles1' fun fd' h' => by
        rw [hnp1]
        have : fd' ≠ fd := fun e => hfd (e ▸ h')
        simp only [update_of_ne this]
        exact hfree fd' (mem_cons_of_mem _ h')
      have hslot : update k1.proc np { k1.proc np with ofile := of' }
          = update k.proc np { k.proc np with ofile := of' } := by
        rw [hnp1, hproc1, update_idem]
      rw [hslot] at hfiles'
      refine ⟨file, of', ?_, ?_, fun fd' h' => ?_, fun fd' h' => ?_⟩
      · rw [hrun, Kernel.setProc, hslot, ← hk1]
        rfl
      · rw [← hk1] at hfiles'
        exact hfiles'
      · rcases mem_cons.mp h' with rfl | h'
        · rw [hout fd' hfd, hnp1, hof]
          exact update_self ..
        · rw [hin fd' h', hp1]
      · rw [hout fd' fun h0 => h' (mem_cons_of_mem _ h0), hnp1]
        have : fd' ≠ fd := fun e => h' (e ▸ mem_cons_self)
        simp only [update_of_ne this]

theorem copyTrapframe_run (tf ntf : Nat) (s : Phys) : ∃ s', copyTrapframe tf ntf s = .ok ((), s') ∧
      (∀ q, q ≠ ntf → s'.kmem.mem q = s.kmem.mem q) ∧
      ∀ {L}, Acct E s.kmem L → Acct E s'.kmem L := by
  refine ⟨_, rfl, fun q hq => ?_, fun h => h.congr rfl rfl rfl rfl⟩
  simp only [Phys.setMem, update_of_ne hq]

/-- What `fork` leaves in the child's slot. -/
def Proc.forked (x parent : Proc) (p : Fin NPROC) (pid : BitVec 32) (tf pagetable : Nat) : Proc :=
  { x.allocated pid tf pagetable with
    sz := parent.sz, ofile := parent.ofile, parent := some p, state := .RUNNABLE }

/-- **`fork`** makes one more process with its own copy of the caller's pages,
    or leaves every process's memory as it was. -/
theorem fork_spec (hE : E.Ok) (h : Wf E F held k g pipes) (hp : (k.proc p).state = .RUNNING) :
    ∃ r k', fork E p k = .ok (r, k') ∧ k'.initproc = k.initproc ∧
      (∀ q ∈ k.procPages g ++ (pipes ++ F), k'.phys.kmem.mem q = k.phys.kmem.mem q) ∧
      (r = -1 ∧ k'.file = k.file ∧ Wf E F held k' g pipes ∧ (k'.proc = k.proc ∨
          ∃ i, (k.proc i).state = .UNUSED ∧ k'.proc = update k.proc i (k.proc i).freed) ∨
        ∃ i pid tf t u, (k.proc i).state = .UNUSED ∧
          k'.proc = update k.proc i ((k.proc i).forked (k.proc p) p pid tf t.pa) ∧
          r = pid.toInt ∧ Wf E F held k' (update g i (t, u)) pipes) := by
  obtain ⟨res, k1, hrun1, hfile1, hinit1, hmem1, hres⟩ := allocproc_spec hE h
  unfold fork
  rw [bind_of_ok hrun1]
  rcases hres with ⟨rfl, hwf, hproc⟩ | ⟨np, pid, tf, t, rfl, hnp, hproc1, hwf1⟩
  · exact ⟨-1, k1, rfl, hinit1, hmem1, .inl ⟨rfl, hfile1, hwf, hproc⟩⟩
  have hne : np ≠ p := by
    rintro rfl
    rw [hp] at hnp
    cases hnp
  have hp1 : k1.proc p = k.proc p := by rw [hproc1, update_of_ne hne.symm]
  have hnp1 : k1.proc np = (k.proc np).allocated pid tf t.pa := by rw [hproc1, update_self]
  have hptp : (k.proc p).pagetable ≠ 0 := (h.proc p).used (by rw [hp]; decide)
  have hptn : (k1.proc np).pagetable ≠ 0 := (hwf1.proc np).used (by rw [hnp1]; nofun)
  obtain ⟨hpa, hsz, _, hsp⟩ := hwf1.space (p := p) (by rwa [hp1])
  obtain ⟨hpan, _, htfn, hspn⟩ := hwf1.space hptn
  rw [update_of_ne hne.symm] at hpa hsz hsp
  rw [update_self] at hpan hspn
  have hsub : ∀ q ∈ (g p).1.pages, q ∈ (k1.proc np).trapframe
      :: k1.rest (update g np (t, [])) (pipes ++ F) np := by
    intro q hq
    refine mem_cons_of_mem _ (Slots.mem_restOf hne.symm ?_)
    rw [update_of_ne hne.symm]
    exact mem_append_left _ hq
  have hrest : k1.rest (update g np (t, [])) (pipes ++ F) np = k.rest g (pipes ++ F) np := by
    rw [Kernel.rest, hproc1]
    exact restOf_update ..
  obtain ⟨hg, _, hperm⟩ := h.unused hnp
  obtain ⟨r, s2, t2, u2, hrun2, hm, hres2⟩ := uvmcopy_spec hE hsp hspn hsub hsz
  have hmem2 : ∀ q ∈ k.procPages g ++ (pipes ++ F), s2.kmem.mem q = k.phys.kmem.mem q := by
    intro q hq
    rw [hm.frame q (mem_cons_of_mem _ (hrest ▸ hperm.mem_iff.mp hq)), hmem1 q hq]
  simp only [reads_bind_run]
  rw [← hpa, ← hpan] at hrun2
  rw [bind_of_ok (onPhys_of_ok hrun2)]
  rcases hres2 with ⟨rfl, rfl⟩ | ⟨rfl, hlen⟩
  · -- not enough memory: the child's slot is freed
    rw [if_pos (by decide)]
    have hholds : (k1.proc np).Holds E s2 (k.rest g (pipes ++ F) np) (t2, []) := by
      rw [Proc.Holds, if_neg hptn, ← hrest]
      refine ⟨hpan.trans hm.pa.symm, ?_, htfn, hm.space⟩
      rw [hnp1]
      exact (congrArg npages ((h.proc np).unused hnp).2.2).symm
    obtain ⟨s3, hrun3, hacct3, hmem3⟩ := freeproc_slot hE { k1 with phys := s2 }
      (k := k) (p := np) hproc1 rfl (y := (t2, [])) (G := k.rest g (pipes ++ F) np)
      (by
        rw [Proc.owned_of_trapframe (hnp1 ▸ htfn), ← hrest, ← hnp1]
        exact hm.space.acct) (hnp1 ▸ hholds)
    rw [bind_of_ok hrun3]
    have hmem : ∀ q ∈ k.rest g (pipes ++ F) np, s3.kmem.mem q = k.phys.kmem.mem q := fun q hq =>
      (hmem3 q hq).trans (hmem2 q (hperm.mem_iff.mpr hq))
    refine ⟨-1, _, rfl, hinit1, fun q hq => hmem q (hperm.mem_iff.mp hq),
      .inl ⟨rfl, hfile1, ?_, .inr ⟨np, hnp, rfl⟩⟩⟩
    have hback : g = update g np (absent, []) := by rw [← hg, update_eq_self]
    rw [hback]
    exact h.freed hfile1 rfl ((h.proc np).closed (.inl hnp)) hacct3 hmem
  · rw [if_neg (by decide), updateProc_bind]
    have hwf2 := hwf1.moved (p := np) hptn (by rw [update_self]; exact hm) (hlen.trans hsz)
    rw [update_idem] at hwf2
    generalize hk2 : Kernel.setProc _ np _ = k2
    have hk2' : k2 = { k1 with
        phys := s2, proc := update k1.proc np { k1.proc np with sz := (k1.proc p).sz } } := by
      rw [← hk2]
      rfl
    rw [← hk2'] at hwf2
    have hnp2 : k2.proc np = { k1.proc np with sz := (k1.proc p).sz } := by
      rw [hk2']
      exact update_self ..
    obtain ⟨s3, hrun3, hmem3, hacct3⟩ := copyTrapframe_run (E := E) (k1.proc p).trapframe
      (k1.proc np).trapframe k2.phys
    have hwf3 := hwf2.trapframe (p := np) (by rw [hnp2]; exact hptn) (by rw [hnp2]; exact hmem3)
      hacct3
    rw [bind_of_ok (onPhys_of_ok hrun3)]
    obtain ⟨file, of', hrun4, hfiles, hin, _⟩ := forkFiles_spec hne
      (k := { k2 with phys := s3 }) (nodup_finRange NOFILE) hwf3.files (fun fd _ => by
        simp only [hnp2, hnp1]
        exact (h.proc np).closed (.inl hnp) fd)
    rw [bind_of_ok hrun4, updateProc_bind, updateProc_bind]
    have hof : of' = (k.proc p).ofile := by
      funext fd
      rw [hin fd (mem_finRange fd)]
      simp only [hk2', update_of_ne hne.symm, hp1]
    generalize hk4 : Kernel.setProc (Kernel.setProc _ np _) np _ = k4
    have hproc4 : k4.proc = update k.proc np ((k.proc np).forked (k.proc p) p pid tf t.pa) := by
      simp [← hk4, hk2', hproc1, hof, hp1, Proc.forked]
    have hnp4 : k4.proc np = (k.proc np).forked (k.proc p) p pid tf t.pa := by
      rw [hproc4, update_self]
    have hother : ∀ q, q ≠ np → k4.proc q = k2.proc q := by
      intro q hq
      rw [hproc4, update_of_ne hq, hk2']
      simp only [update_of_ne hq, hproc1]
    have hphys4 : k4.phys = s3 := by
      rw [← hk4]
      rfl
    have hfile4 : k4.file = file := by
      rw [← hk4]
      rfl
    have hmem : ∀ q ∈ k.procPages g ++ (pipes ++ F), k4.phys.kmem.mem q = k.phys.kmem.mem q := by
      intro q hq
      have hnotf : q ≠ (k1.proc np).trapframe := by
        rintro rfl
        obtain ⟨_, hnd, _⟩ := nodup_append.mp hm.space.acct.nodup_owned
        obtain ⟨_, hnd, _⟩ := nodup_append.mp hnd
        exact (nodup_cons.mp hnd).1 (hrest ▸ hperm.mem_iff.mp hq)
      rw [hphys4, hmem3 q hnotf, hk2']
      exact hmem2 q hq
    have hpa4 : t.pa = t2.pa := hm.pa.symm
    refine ⟨pid.toInt, k4, ?_, ?_, hmem, .inr ⟨np, pid, tf, t2, u2, hnp, ?_, rfl, ?_⟩⟩
    · rw [hnp1]
      rfl
    · rw [← hk4, ← hinit1, hk2']
      rfl
    · rw [hproc4, hpa4]
    · refine hwf3.refile (by rw [hphys4]; exact hwf3.acct) (fun _ _ => by rw [hphys4])
        (fun q => ?_) ?_ fun q => ?_
      · by_cases hq : q = np
        · subst hq
          simp only [hnp4, hnp2, hnp1, hp1, Proc.forked, Proc.allocated, and_self]
        · rw [hother q hq]
          exact ⟨rfl, rfl, rfl⟩
      · rw [hphys4, hfile4]
        have hrefs : refs k4.proc held = refs (update k2.proc np { k2.proc np with ofile := of' })
          held := by
          refine refs_congr fun q => ?_
          by_cases hq : q = np
          · subst hq
            rw [hnp4, update_self, hof]
            rfl
          · rw [hother q hq, update_of_ne hq]
        rw [hrefs]
        exact hfiles
      · by_cases hq : q = np
        · subst hq
          rw [hnp4]
          refine ⟨nofun, fun _ => ?_, ?_⟩
          · rw [hnp1] at hptn
            exact hptn
          · rintro (h0 | h0 | h0) <;> cases h0
        · rw [hother q hq]
          exact hwf2.proc q

end Xv6
