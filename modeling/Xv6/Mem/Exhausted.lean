import Xv6.Lib.Guard
import Xv6.Mem.Vm

/-!
# Running out of pages

The comment on `kalloc` promises 0 when there is no page left, and its callers
test for it. The code asserts first that there is a page. This module sets the
two beside each other for everything in `kernel/vm.c` that allocates: as long as
the documented `kalloc` finds a page at every call, the code does the same; at
the first call that finds none, the code stops in the assertion, where the
documented one makes its caller return an error.
-/

namespace Xv6

open Sys List

/-- `FREE_PAGES` counts the free list, and boot is over. -/
def Phys.Counted (s : Phys) : Prop :=
  s.kmem.freePages.toNat = s.kmem.freelist.length ∧ s.kmem.maxPages ≠ 0

/-- `kalloc` as documented, with the code's choice of a page: the first of the
    free list, or 0. -/
structure Env.FirstFree (E : Env) : Prop where
  asserts : E.asserts = false
  kalloc : ∀ n k, E.kalloc n k = k.freelist.head?

/-- The same machine with the assertion of the code. -/
def Env.asserting (E : Env) : Env := { E with asserts := true }

/-- The calls of `kalloc` that return 0 are counted; the assertion stops at the
    first. -/
def outOfPages : Guard Phys := ⟨Phys.Counted, Phys.failed, .panic "assert failed"⟩

variable {E : Env}

/-- `f` on the machine with the assertion, beside `f` on the machine without
    it. -/
abbrev Env.Tracks {σ α : Type} (E : Env) (G : Guard σ) (bad : α → Prop) (f : Env → Sys σ α) :
    Prop :=
  Sys.Tracks G bad (f E.asserting) (f E)

/-- `f` counts nothing. -/
abbrev Env.Same {σ α : Type} (E : Env) (G : Guard σ) (f : Env → Sys σ α) : Prop :=
  Sys.Same G (f E.asserting) (f E)

/-! ## The two texts of `kalloc` -/

theorem Phys.Counted.take {s : Phys} (h : s.Counted) {r : Nat} {rest : List Nat}
    (hfree : s.kmem.freelist = r :: rest) :
    Phys.Counted { s with calls := s.calls + 1, kmem := s.kmem.take E r } := by
  obtain ⟨hcount, hmax⟩ := h
  refine ⟨?_, hmax⟩
  change (s.kmem.freePages - 1).toNat = (s.kmem.freelist.erase r).length
  rw [hfree, length_cons] at hcount
  have hone : (1 : UInt64).toNat = 1 := rfl
  rw [UInt64.toNat_sub_of_le _ _ (by rw [UInt64.le_iff_toNat_le]; omega), hfree,
    erase_cons_head]
  omega

theorem kallocPage_tracks (h : E.FirstFree) : E.Tracks outOfPages (· = none) kallocPage := by
  refine ⟨fun s a s' hs hrun => ?_⟩
  unfold kallocPage at hrun ⊢
  rw [if_neg (by simp [h.asserts]), h.kalloc] at hrun
  rw [show E.asserting.kalloc = E.kalloc from rfl, h.kalloc]
  cases hfree : s.kmem.freelist with
  | nil =>
    have hzero : ¬ s.kmem.freePages > 0 := by
      rw [gt_iff_lt, UInt64.lt_iff_toNat_lt, hs.1, hfree]
      decide
    simp only [hfree, head?_nil] at hrun
    cases hrun
    exact ⟨hs, .inr ⟨Nat.lt_succ_self _, rfl, if_pos ⟨rfl, hzero⟩⟩⟩
  | cons r rest =>
    have hpos : s.kmem.freePages > 0 := by
      rw [gt_iff_lt, UInt64.lt_iff_toNat_lt, hs.1, hfree]
      exact Nat.succ_pos _
    simp only [hfree, head?_cons] at hrun
    cases hrun
    exact ⟨hs.take hfree, .inl ⟨rfl, if_neg fun hn => hn.2 hpos⟩⟩

theorem kfreePage_same (pa : Nat) : E.Same outOfPages fun E => kfreePage E pa := by
  apply Tracks.refl
  intro s a s' hs hrun
  obtain ⟨hcount, hmax⟩ := hs
  unfold kfreePage at hrun
  obtain ⟨_, s1, hfree, hrun⟩ := bind_eq_ok.mp hrun
  cases hrun
  unfold Sys.zoom at hfree
  split at hfree
  · rename_i _ k hk
    cases hfree
    simp only [kfree, reads_bind_run, id_eq] at hk
    split at hk
    · cases hk
    rename_i hassert
    split at hk
    · cases hk
    simp only [modify_bind_run, reads_bind_run, id_eq] at hk
    split at hk
    · cases hk
      have hlt : s.kmem.freePages < s.kmem.maxPages := not_not.mp fun hn => hassert ⟨hmax, hn⟩
      refine ⟨⟨?_, hmax⟩, rfl⟩
      change (s.kmem.freePages + 1).toNat = s.kmem.freelist.length + 1
      have hone : (1 : UInt64).toNat = 1 := rfl
      have := s.kmem.maxPages.toNat_lt
      rw [UInt64.lt_iff_toNat_lt] at hlt
      rw [UInt64.toNat_add, hone, hcount]
      omega
    · cases hk
      exact ⟨⟨hcount, hmax⟩, rfl⟩
  · cases hfree

/-! ## Reads and writes of memory -/

section Stores

variable {α : Type} {bad : Unit → Prop}

theorem setMem_tracks (m : Phys → Nat → Bytes) :
    Tracks outOfPages bad (Sys.modify fun s => s.setMem (m s))
      (Sys.modify fun s => s.setMem (m s)) :=
  .modify fun _ hs => ⟨hs, rfl⟩

theorem storePte_tracks (pg : Nat) (i : Fin 512) (v : Nat) :
    Tracks outOfPages bad (storePte pg i v) (storePte pg i v) := setMem_tracks _

theorem memsetPage_tracks (pa : Nat) (c : UInt8) :
    Tracks outOfPages bad (memsetPage pa c) (memsetPage pa c) :=
  .modify fun _ hs => ⟨hs, rfl⟩

theorem movePage_tracks (pa off : Nat) (src : Bytes) (so n : Nat) :
    Tracks outOfPages bad (movePage pa off src so n) (movePage pa off src so n) := setMem_tracks _

end Stores

/-! ## Page tables -/

variable (h : E.FirstFree)

include h

theorem walkFrom_tracks (va : Nat) (alloc : Bool) : ∀ level pagetable : Nat,
    E.Tracks outOfPages (fun r => alloc = true ∧ r = none)
      fun E => walkFrom E va alloc level pagetable := by
  intro level
  induction level with
  | zero =>
    intro pagetable
    exact .pure _
  | succ level ih =>
    intro pagetable
    refine .bind_same (.reads _) fun pte => ?_
    refine .ite (ih _) ?_
    cases alloc with
    | false => exact .pure _
    | true =>
      refine (kallocPage_tracks h).bind_option (.pure _) (.pure ⟨rfl, rfl⟩) fun pg => ?_
      exact .bind_same (memsetPage_tracks ..) fun _ =>
        .bind_same (storePte_tracks ..) fun _ => ih pg

theorem walk_tracks (pagetable va : Nat) (alloc : Bool) :
    E.Tracks outOfPages (fun r => alloc = true ∧ r = none) fun E => walk E pagetable va alloc :=
  .ite (.panic _) (walkFrom_tracks h va alloc 2 pagetable)

theorem walk_same (pagetable va : Nat) : E.Same outOfPages fun E => walk E pagetable va false :=
  (walk_tracks h pagetable va false).mono fun _ hn => Bool.false_ne_true hn.1

theorem walkaddr_same (pagetable va : Nat) :
    E.Same outOfPages fun E => walkaddr E pagetable va := by
  refine .ite (.pure _)
    ((walk_same h pagetable va).bind_same (.option (.pure _) fun x => ?_))
  exact .bind_same (.reads _) fun pte =>
    .ite (.pure _) (.ite (.pure _) (.pure _))

theorem mappagesLoop_tracks (pagetable last perm : Nat) : ∀ fuel a pa : Nat,
    E.Tracks outOfPages (· = -1) fun E => mappagesLoop E pagetable last perm fuel a pa := by
  intro fuel
  induction fuel with
  | zero =>
    intro a pa
    exact .hang
  | succ fuel ih =>
    intro a pa
    refine ((walk_tracks h pagetable a true).mono fun _ ho => ho.2).bind_option (.pure _)
      (.pure rfl) fun x => ?_
    refine .bind_same (.reads _) fun pte => .ite (.panic _) ?_
    exact .bind_same (storePte_tracks ..) fun _ => .ite (.pure _) (ih _ _)

theorem mappages_tracks (pagetable va size pa perm : Nat) :
    E.Tracks outOfPages (· = -1) fun E => mappages E pagetable va size pa perm :=
  .ite (.panic _) (mappagesLoop_tracks h ..)

theorem uvmunmapLoop_same (pagetable : Nat) (doFree : Bool) : ∀ npages a : Nat,
    E.Same outOfPages fun E => uvmunmapLoop E pagetable doFree npages a := by
  intro npages
  induction npages with
  | zero =>
    intro a
    exact .pure _
  | succ npages ih =>
    intro a
    refine (walk_same h pagetable a).bind_same (.option (.panic _) fun x => ?_)
    refine .bind_same (.reads _) fun pte => .ite (.panic _)
      (.ite (.panic _) (.ite ?_ ?_))
    · exact (kfreePage_same _).bind_same fun _ => .bind_same (storePte_tracks ..)
        fun _ => ih _
    · exact .bind_same (storePte_tracks ..) fun _ => ih _

theorem uvmunmap_same (pagetable va npages : Nat) (doFree : Bool) :
    E.Same outOfPages fun E => uvmunmap E pagetable va npages doFree :=
  .ite (.panic _) (uvmunmapLoop_same h ..)

theorem uvmcreate_tracks : E.Tracks outOfPages (· = none) uvmcreate := by
  refine (kallocPage_tracks h).bind_option (.pure _) (.pure rfl) fun pg => ?_
  exact .bind_same (memsetPage_tracks ..) fun _ => .pure _

theorem uvmdealloc_same (pagetable oldsz newsz : Nat) :
    E.Same outOfPages fun E => uvmdealloc E pagetable oldsz newsz :=
  .ite (.pure _) (.ite
    ((uvmunmap_same h ..).bind_same fun _ => .pure _) (.pure _))

theorem uvmallocLoop_tracks (pagetable oldsz newsz xperm : Nat) : ∀ fuel a : Nat,
    E.Tracks outOfPages (· = 0) fun E => uvmallocLoop E pagetable oldsz newsz xperm fuel a := by
  intro fuel
  induction fuel with
  | zero =>
    intro a
    exact .hang
  | succ fuel ih =>
    intro a
    have hundo : E.Tracks outOfPages (· = 0)
        (fun E => do let _ ← uvmdealloc E pagetable a oldsz; pure 0) :=
      (uvmdealloc_same h ..).bind_same fun _ => .pure _
    have hzero : Always (· = 0) (do let _ ← uvmdealloc E pagetable a oldsz; pure 0) :=
      .bind fun _ => .pure rfl
    refine .ite ((kallocPage_tracks h).bind_option hundo hzero fun mem => ?_) (.pure _)
    refine .bind_same (memsetPage_tracks ..) fun _ => ?_
    exact (mappages_tracks h ..).bind_ite (by rintro _ rfl; decide)
      (fun _ => (kfreePage_same _).bind_same fun _ => hundo) (fun _ => .bind fun _ => hzero)
      fun _ => ih _

theorem uvmalloc_tracks (pagetable oldsz newsz xperm : Nat) :
    E.Tracks outOfPages (· = 0) fun E => uvmalloc E pagetable oldsz newsz xperm :=
  .ite (.pure _) (uvmallocLoop_tracks h ..)

omit h in
theorem freeEntries_same {rec1 rec0 : Nat → Sys Phys Unit}
    (hrec : ∀ pg, Same outOfPages (rec1 pg) (rec0 pg)) (pagetable : Nat) :
    ∀ is : List (Fin 512), Same outOfPages (freeEntries rec1 pagetable is)
      (freeEntries rec0 pagetable is) := by
  intro is
  induction is with
  | nil => exact .pure _
  | cons i is ih =>
    refine .bind_same (.reads _) fun pte => .ite ?_
      (.ite (.panic _) ih)
    exact (hrec _).bind_same fun _ => .bind_same (storePte_tracks ..) fun _ => ih

omit h in
theorem freewalk_same : ∀ depth pagetable : Nat,
    E.Same outOfPages fun E => freewalk E depth pagetable := by
  intro depth
  induction depth with
  | zero =>
    intro pagetable
    exact .hang
  | succ depth ih =>
    intro pagetable
    exact (freeEntries_same ih pagetable _).bind_same fun _ => kfreePage_same _

theorem uvmfree_same (pagetable sz : Nat) : E.Same outOfPages fun E => uvmfree E pagetable sz :=
  .ite ((uvmunmap_same h ..).bind_same fun _ => freewalk_same 3 pagetable)
    (freewalk_same 3 pagetable)

theorem uvmcopyLoop_tracks (old new sz : Nat) : ∀ fuel i : Nat,
    E.Tracks outOfPages (· = -1) fun E => uvmcopyLoop E old new sz fuel i := by
  intro fuel
  induction fuel with
  | zero =>
    intro i
    exact .hang
  | succ fuel ih =>
    intro i
    have hundo : E.Tracks outOfPages (· = -1)
        (fun E => do uvmunmap E new 0 (i / PGSIZE) true; pure (-1)) :=
      (uvmunmap_same h ..).bind_same fun _ => .pure _
    have hbad : Always (· = -1) (do uvmunmap E new 0 (i / PGSIZE) true; pure (-1)) :=
      .bind fun _ => .pure rfl
    refine .ite ((walk_same h old i).bind_same (.option (.panic _) fun x => ?_))
      (.pure _)
    refine .bind_same (.reads _) fun pte => .ite (.panic _) ?_
    refine (kallocPage_tracks h).bind_option hundo hbad fun mem => ?_
    refine .bind_same (.reads _) fun page =>
      .bind_same (movePage_tracks ..) fun _ => ?_
    exact (mappages_tracks h ..).bind_ite (by rintro _ rfl; decide)
      (fun _ => (kfreePage_same _).bind_same fun _ => hundo) (fun _ => .bind fun _ => hbad)
      fun _ => ih _

theorem uvmcopy_tracks (old new sz : Nat) :
    E.Tracks outOfPages (· = -1) fun E => uvmcopy E old new sz :=
  uvmcopyLoop_tracks h ..

theorem uvmclear_same (pagetable va : Nat) :
    E.Same outOfPages fun E => uvmclear E pagetable va := by
  refine (walk_same h pagetable va).bind_same (.option (.panic _) fun x => ?_)
  exact .bind_same (.reads _) fun pte => storePte_tracks ..

theorem copyoutLoop_same (pagetable : Nat) (src : Bytes) : ∀ fuel dstva off len : Nat,
    E.Same outOfPages fun E => copyoutLoop E pagetable src fuel dstva off len := by
  intro fuel
  induction fuel with
  | zero =>
    intro dstva off len
    exact .pure _
  | succ fuel ih =>
    intro dstva off len
    refine .ite ((walkaddr_same h ..).bind_same fun pa0 => ?_) (.pure _)
    exact .ite (.pure _) (.bind_same (movePage_tracks ..) fun _ => ih _ _ _)

theorem copyout_same (pagetable dstva : Nat) (src : Bytes) (len : Nat) :
    E.Same outOfPages fun E => copyout E pagetable dstva src len :=
  copyoutLoop_same h ..

/-! ## A process's page table -/

theorem procPagetable_tracks (trapframe : Nat) :
    E.Tracks outOfPages (· = none) fun E => procPagetable E trapframe := by
  refine (uvmcreate_tracks h).bind_option (.pure _) (.pure rfl) fun pt => ?_
  refine (mappages_tracks h ..).bind_ite (by rintro _ rfl; decide)
    (fun _ => (uvmfree_same h ..).bind_same fun _ => .pure _)
    (fun _ => .bind fun _ => .pure rfl) fun _ => ?_
  exact (mappages_tracks h ..).bind_ite (by rintro _ rfl; decide)
    (fun _ => (uvmunmap_same h ..).bind_same fun _ =>
      (uvmfree_same h ..).bind_same fun _ => .pure _)
    (fun _ => .bind fun _ => .bind fun _ => .pure rfl) fun _ => .pure _

theorem procFreepagetable_same (pagetable sz : Nat) :
    E.Same outOfPages fun E => procFreepagetable E pagetable sz :=
  (uvmunmap_same h ..).bind_same fun _ => (uvmunmap_same h ..).bind_same fun _ =>
    uvmfree_same h ..

theorem growproc_tracks (pagetable sz : Nat) (n : Int) :
    E.Tracks outOfPages (fun r => r.1 = -1) fun E => growproc E pagetable sz n := by
  refine .ite ?_ (.ite ?_ (.pure _))
  · exact (uvmalloc_tracks h ..).bind_ite (fun _ hz => hz) (fun _ => .pure _)
      (fun _ => .pure rfl) fun _ => .pure _
  · exact (uvmdealloc_same h ..).bind_same fun _ => .pure _

end Xv6
