import Xv6.Mem.Slots
import Xv6.Mem.UserMem

/-!
# The shape of every address space

A system of address spaces in one physical memory: any number of them, made by
`proc_pagetable`, changed by `growproc`, `ps`, `fork`'s `uvmcopy` and `exec`'s
`uvmalloc` and `uvmclear`, freed by `proc_freepagetable`, in any order, with
`kalloc` failing wherever it likes. The invariant is a tree and a list of user
pages for each; the theorem is about the tables in memory.
-/

namespace Xv6

open List Sys Nat
open PageTree

/-! ## The system -/

/-- A page table, the trapframe it maps and the size that goes with it. -/
structure AddrSpace where
  pagetable : Nat
  trapframe : Nat
  sz : Nat
  deriving DecidableEq, Repr

structure Vm (n : Nat) where
  phys : Phys
  slot : Fin n → Option AddrSpace

inductive VmOp (n : Nat) where
  /-- `proc_pagetable(p)` -/
  | create (i : Fin n) (trapframe : Nat)
  | growproc (i : Fin n) (d : Int)
  /-- `fork`: `uvmcopy` into a fresh child -/
  | uvmcopy (i j : Fin n)
  /-- `exec`: `uvmalloc` for a program segment -/
  | segment (i : Fin n) (newsz flags : Nat)
  /-- `exec`: `uvmalloc` of two pages and `uvmclear` of the first -/
  | stack (i : Fin n)
  | ps (i : Fin n) (start count : UInt8) (table : Bytes)
  /-- `proc_freepagetable(pagetable, sz)` -/
  | free (i : Fin n)

def flags2perm (flags : Nat) : Nat :=
  let perm := if flags &&& 0x1 ≠ 0 then PTE_X else 0
  if flags &&& 0x2 ≠ 0 then perm ||| PTE_W else perm

/-- `sz = PGROUNDUP(sz); sz1 = uvmalloc(pagetable, sz, sz + 2*PGSIZE, PTE_W); …;
    uvmclear(pagetable, sz - 2*PGSIZE)`: whether it worked, and the new size. -/
def execStack (E : Env) (pagetable sz : Nat) : Sys Phys (Bool × Nat) := do
  let sz := PGROUNDUP sz
  let sz1 ← uvmalloc E pagetable sz ((sz + 2 * PGSIZE) % 2 ^ 64) PTE_W
  if sz1 = 0 then pure (false, sz)
  else do
    uvmclear E pagetable (sz1 - 2 * PGSIZE)
    pure (true, sz1)

namespace Vm

variable {n : Nat}

def put (v : Vm n) (i : Fin n) (s : Phys) (o : Option AddrSpace) : Vm n :=
  ⟨s, Function.update v.slot i o⟩

/-- An operation on the address space in a slot. -/
def on (v : Vm n) (i : Fin n) (f : AddrSpace → Outcome (Vm n)) : Outcome (Vm n) :=
  match v.slot i with
  | some a => f a
  | none => .disabled

/-- One operation; `F` are the pages that the rest of the kernel has, the
    trapframes among them. -/
def step (E : Env) (F : List Nat) (v : Vm n) : VmOp n → Outcome (Vm n)
  | .create i tf =>
      if v.slot i = none ∧ tf ∈ F then
        (procPagetable E tf).outcome v.phys fun r s => .next (v.put i s (r.map (⟨·, tf, 0⟩)))
      else .disabled
  | .growproc i d => v.on i fun a =>
      (growproc E a.pagetable a.sz d).outcome v.phys fun r s =>
        .next (v.put i s (some { a with sz := r.2 }))
  | .uvmcopy i j => v.on i fun a => v.on j fun b =>
      if i ≠ j ∧ b.sz = 0 then
        (uvmcopy E a.pagetable b.pagetable a.sz).outcome v.phys fun r s =>
          .next (v.put j s (some (if r < 0 then b else { b with sz := a.sz })))
      else .disabled
  | .segment i newsz flags => v.on i fun a =>
      (uvmalloc E a.pagetable a.sz newsz (flags2perm flags)).outcome v.phys fun sz1 s =>
        .next (v.put i s (some (if sz1 = 0 then a else { a with sz := sz1 })))
  | .stack i => v.on i fun a =>
      (execStack E a.pagetable a.sz).outcome v.phys fun r s =>
        .next (v.put i s (some { a with sz := r.2 }))
  | .ps i start count table => v.on i fun a =>
      (ps E a.pagetable a.sz start count table).outcome v.phys fun r s =>
        .next (v.put i s (some { a with sz := r.2 }))
  | .free i => v.on i fun a =>
      (procFreepagetable E a.pagetable a.sz).outcome v.phys fun _ s => .next (v.put i s none)

end Vm

/-! ## The tables in memory -/

/-- The entry for `va` in the table of level `k`, from the table `pagetable` of
    level `l` down; 0 if there is none. -/
def entryAt (m : Nat → Bytes) (va k : Nat) : (l pagetable : Nat) → Nat
  | 0, pagetable => pteAt m pagetable (px 0 va)
  | l + 1, pagetable =>
      let pte := pteAt m pagetable (px (l + 1) va)
      if k = l + 1 then pte else if pte &&& PTE_V ≠ 0 then entryAt m va k l (PTE2PA pte) else 0

/-- The pages of a page table, from the table `pagetable` of level `l` down. -/
def tablePages (m : Nat → Bytes) : (l pagetable : Nat) → List Nat
  | 0, pagetable => [pagetable]
  | l + 1, pagetable => pagetable :: gather fun i =>
      let pte := pteAt m pagetable i
      if pte &&& PTE_V ≠ 0 then tablePages m l (PTE2PA pte) else []

namespace AddrSpace

/-- The user pages of an address space, by address. -/
def userPages (m : Nat → Bytes) (a : AddrSpace) : List Nat :=
  (List.range (PGROUNDUP a.sz / PGSIZE)).map fun k =>
    PTE2PA (entryAt m (k * PGSIZE) 0 2 a.pagetable)

/-- Addresses that should be mapped: user memory, the trampoline and the
    trapframe. -/
def InUse (a : AddrSpace) (va : Nat) : Prop :=
  va < PGROUNDUP a.sz ∨ va / PGSIZE = TRAMPOLINE / PGSIZE ∨ va / PGSIZE = TRAPFRAME / PGSIZE

/-- The entries that map pages are those of the addresses in use; each has one
    of R, W, X set. -/
structure Shape (m : Nat → Bytes) (a : AddrSpace) : Prop where
  mapped : ∀ va < VASPACE, entryAt m va 0 2 a.pagetable &&& PTE_V ≠ 0 ↔ a.InUse va
  flags : ∀ va < VASPACE, entryAt m va 0 2 a.pagetable &&& PTE_V ≠ 0 →
    entryAt m va 0 2 a.pagetable &&& (PTE_R ||| PTE_W ||| PTE_X) ≠ 0
  /-- above level 0 there are links only -/
  links : ∀ va < VASPACE, ∀ k, 1 ≤ k → k ≤ 2 →
    entryAt m va k 2 a.pagetable &&& (PTE_R ||| PTE_W ||| PTE_X) = 0

end AddrSpace

/-! ## Trees and the tables in memory -/

section Trees

variable {m : Nat → Bytes} {l : Nat} {t : PageTree l}

section

variable (hne : t ≠ absent) (hrep : t.Rep m) (hpg : ∀ p ∈ t.pages, PageAddr p)

include hne hrep hpg

theorem entryAt_zero (va : Nat) : entryAt m va 0 l t.pa = t.pte va := by
  induction t with
  | absent => exact absurd rfl hne
  | leaves pa e => exact hrep _
  | @node l pa kid ih =>
    have hsub : ∀ p ∈ (kid (px (l + 1) va)).pages, PageAddr p := fun p hp =>
      hpg p (mem_cons_of_mem _ (mem_gather (f := fun i => (kid i).pages) hp))
    simp only [entryAt, PageTree.pa, (hrep (px (l + 1) va)).1]
    rw [if_neg (by omega)]
    by_cases hk : kid (px (l + 1) va) = absent
    · simp [hk, link, pte]
    · rw [if_pos (link_valid hk), link_pa hk (hsub _ (pa_mem_pages hk))]
      exact ih _ hk (hrep _).2 hsub

omit hne hrep hpg in
theorem link_no_rwx (t : PageTree l) : t.link &&& (PTE_R ||| PTE_W ||| PTE_X) = 0 := by
  by_cases hk : t = absent
  · rw [hk]
    exact zero_and _
  · rw [link_of_ne hk, mkPte_and (by decide) (by decide)]
    decide

theorem entryAt_link {va k : Nat} (h1 : 1 ≤ k) (hk : k ≤ l) :
    entryAt m va k l t.pa &&& (PTE_R ||| PTE_W ||| PTE_X) = 0 := by
  induction t with
  | absent => exact absurd rfl hne
  | leaves pa e => omega
  | @node l pa kid ih =>
    have hsub : ∀ p ∈ (kid (px (l + 1) va)).pages, PageAddr p := fun p hp =>
      hpg p (mem_cons_of_mem _ (mem_gather (f := fun i => (kid i).pages) hp))
    simp only [entryAt, PageTree.pa, (hrep (px (l + 1) va)).1]
    by_cases hkl : k = l + 1
    · rw [if_pos hkl]
      exact link_no_rwx _
    · rw [if_neg hkl]
      by_cases hkid : kid (px (l + 1) va) = absent
      · simp [hkid, link]
      · rw [if_pos (link_valid hkid), link_pa hkid (hsub _ (pa_mem_pages hkid))]
        exact ih _ hkid (hrep _).2 hsub (by omega)

theorem tablePages_eq : tablePages m l t.pa = t.pages := by
  induction t with
  | absent => exact absurd rfl hne
  | leaves pa e => rfl
  | @node l pa kid ih =>
    refine congrArg (pa :: ·) (gather_congr fun i => ?_)
    have hsub : ∀ p ∈ (kid i).pages, PageAddr p := fun p hp =>
      hpg p (mem_cons_of_mem _ (mem_gather (f := fun i => (kid i).pages) hp))
    simp only [PageTree.pa, (hrep i).1]
    by_cases hk : kid i = absent
    · simp [hk, link, pages]
    · rw [if_pos (link_valid hk), link_pa hk (hsub _ (pa_mem_pages hk))]
      exact ih i hk (hrep i).2 hsub

end

end Trees

section Shape

variable {E : Env} {s : Phys} {t : PageTree 2} {u : Pages} {F : List Nat} {a : AddrSpace}

theorem Space.entryAt_eq {tf : Nat} (h : Space E s tf t u F) (va : Nat) :
    Xv6.entryAt s.kmem.mem va 0 2 t.pa = t.pte va :=
  entryAt_zero h.ne h.rep h.pageAddr va

theorem Space.entryAt (h : Space E s a.trapframe t u F) (hpa : a.pagetable = t.pa) {va : Nat}
    (hva : va < VASPACE) :
    entryAt s.kmem.mem va 0 2 a.pagetable = spacePte E a.trapframe u va := by
  rw [hpa, h.entryAt_eq, h.pte va hva]

section

variable (hE : E.Ok) (h : Space E s a.trapframe t u F) (hpa : a.pagetable = t.pa)
    (hsz : u.length = npages a.sz)

include hE h hpa hsz

theorem Space.shape : a.Shape s.kmem.mem := by
  have hup := h.roundup hE hsz
  have hcases : ∀ va, a.InUse va ∧ (∃ pa perm, Leaf perm ∧
      spacePte E a.trapframe u va = mkPte pa perm) ∨
      ¬ a.InUse va ∧ spacePte E a.trapframe u va = 0 := by
    intro va
    unfold AddrSpace.InUse spacePte withPte
    rw [hup]
    by_cases h1 : va / PGSIZE = TRAPFRAME / PGSIZE
    · exact .inl ⟨.inr (.inr h1), _, _, by decide, if_pos h1⟩
    rw [if_neg h1]
    by_cases h2 : va / PGSIZE = TRAMPOLINE / PGSIZE
    · exact .inl ⟨.inr (.inl h2), _, _, by decide, if_pos h2⟩
    rw [if_neg h2]
    by_cases h3 : va / PGSIZE < u.length
    · obtain ⟨x, hx⟩ := exists_getElem? h3
      refine .inl ⟨.inl ?_, x.1, x.2, h.leaf x (mem_of_getElem? hx), by rw [userPte, hx]⟩
      simp only [PGSIZE] at *
      omega
    · refine .inr ⟨?_, userPte_of_ge (by omega)⟩
      rintro (h4 | h4 | h4)
      · simp only [PGSIZE] at *
        omega
      · exact h2 h4
      · exact h1 h4
  refine ⟨fun va hva => ?_, fun va hva => ?_, fun va hva k h1 hk => ?_⟩
  · rw [h.entryAt hpa hva]
    rcases hcases va with ⟨huse, pa, perm, hleaf, he⟩ | ⟨huse, he⟩
    · rw [he, mkPte_valid hleaf.1]
      exact iff_of_true (by decide) huse
    · rw [he, zero_and]
      exact iff_of_false (fun h => h rfl) huse
  · rw [h.entryAt hpa hva]
    rcases hcases va with ⟨_, pa, perm, hleaf, he⟩ | ⟨_, he⟩
    · rw [he]
      exact fun _ => hleaf.flags pa
    · rw [he, zero_and]
      exact fun h => absurd rfl h
  · rw [hpa]
    exact entryAt_link h.ne h.rep h.pageAddr h1 hk

theorem Space.userPages : a.userPages s.kmem.mem = u.map Prod.fst := by
  unfold AddrSpace.userPages
  rw [h.roundup hE hsz, Nat.mul_div_cancel _ (by decide)]
  refine ext_getElem (by simp) fun k h1 h2 => ?_
  have hk : k < u.length := by simpa using h2
  have hlt : k * PGSIZE < TRAPFRAME :=
    lt_trans (Nat.mul_lt_mul_of_pos_right hk (by decide)) (h.below hE)
  have hx : u[k]? = some u[k] := getElem?_eq_getElem hk
  have hmem : u[k] ∈ u := getElem_mem hk
  simp only [getElem_map, getElem_range]
  rw [h.entryAt hpa (vaspace_of_maxva (maxva_of_trapframe hlt)), spacePte_user hlt, userPte_page hx,
    PTE2PA_mkPte (h.user_pageAddr hmem) (h.leaf _ hmem).1]

end

end Shape

/-! ## The invariant -/

namespace Vm

variable {E : Env} {n : Nat} {F : List Nat}

/-- What an address space has on its account. -/
def owned (_ : Option AddrSpace) (x : PageTree 2 × Pages) : List Nat :=
  x.1.pages ++ x.2.map Prod.fst

/-- A slot and the tree and user memory that are in it. -/
def Holds (E : Env) (F : List Nat) (s : Phys) (G : List Nat) :
    Option AddrSpace → PageTree 2 × Pages → Prop
  | none, x => x = (absent, [])
  | some a, x => a.pagetable = x.1.pa ∧ x.2.length = npages a.sz ∧ a.trapframe ∈ F ∧
      Space E s a.trapframe x.1 x.2 G

theorem holds_stable : Stable E owned (Holds E F) := by
  intro s s' G G' o x h hacct hmem
  cases o with
  | none => exact h
  | some a =>
    obtain ⟨hpa, hsz, htf, hsp⟩ := h
    rw [owned, append_assoc] at hacct
    exact ⟨hpa, hsz, htf, hsp.congr (fun p hp => hmem p (mem_append_left _ hp)) hacct⟩

abbrev Inv (E : Env) (F : List Nat) (v : Vm n) (g : Spaces n) : Prop :=
  Slots E owned (Holds E F) v.phys F v.slot g

variable {v : Vm n} {g : Spaces n} {i : Fin n} {a : AddrSpace}

/-- The rest of the ledger, for the address space in slot `i`. -/
abbrev rest (F : List Nat) (v : Vm n) (g : Spaces n) (i : Fin n) :
    List Nat := restOf owned v.slot g F i

theorem space (h : Inv E F v g) (ha : v.slot i = some a) :
    a.pagetable = (g i).1.pa ∧ (g i).2.length = npages a.sz ∧ a.trapframe ∈ F ∧
      Space E v.phys a.trapframe (g i).1 (g i).2 (rest F v g i) := by
  have := h.ok i
  rwa [ha] at this

theorem inv_moved (h : Inv E F v g) (ha : v.slot i = some a) {s : Phys} {t' : PageTree 2}
    {u' : Pages} {sz' : Nat}
    (hm : Moved E v.phys a.trapframe (g i).1 (rest F v g i) s t' u')
    (hsz : u'.length = npages sz') : ∃ g', Inv E F (v.put i s (some { a with sz := sz' })) g' := by
  obtain ⟨hpa, _, htf, _⟩ := space h ha
  refine ⟨_, h.put holds_stable (x := (t', u')) ?_
    (fun j hj p hp => hm.frame p (Slots.mem_restOf hj hp))
    ⟨hpa.trans hm.pa.symm, hsz, htf, hm.space⟩⟩
  rw [owned, append_assoc]
  exact hm.space.acct

/-! ## Every operation -/

theorem leaf_flags2perm (flags : Nat) : Leaf (PTE_R ||| PTE_U ||| flags2perm flags) := by
  unfold flags2perm
  split <;> split <;> decide

/-- User memory `u'` is `u` with a guard page that is not the user's and a page
    for the stack. -/
structure Stacked (u u' : Pages) : Prop where
  length : u'.length = u.length + 2
  below : ∀ j < u.length, u'[j]? = u[j]?
  guard : ∀ x, u'[u.length]? = some x → x.2 &&& PTE_U = 0
  stack : ∀ x, u'[u.length + 1]? = some x → x.2 &&& PTE_U ≠ 0

/-- **`exec`'s stack**: two pages of zeroes more, the first without user
    access. -/
theorem execStack_spec (hE : E.Ok) {s : Phys} {tf : Nat} {t : PageTree 2} {u : Pages}
    {G : List Nat} (h : Space E s tf t u G) {sz : Nat} (hsz : u.length = npages sz) :
    ∃ r s' t' u', execStack E t.pa sz s = .ok (r, s') ∧ Moved E s tf t G s' t' u' ∧
      u'.length = npages r.2 ∧ (r.1 = true → r.2 = (u.length + 2) * PGSIZE ∧ Stacked u u' ∧
        cell u' s'.kmem.mem = cell u s.kmem.mem) := by
  have hle := h.length_le hE
  have hup := h.roundup hE hsz
  have hnew : (PGROUNDUP sz + 2 * PGSIZE) % 2 ^ 64 = (u.length + 2) * PGSIZE := by
    rw [hup]
    simp only [PGSIZE]
    omega
  unfold execStack
  obtain ⟨r, s1, t1, new, hrun, hm, hperm, hkept, hcell, hres⟩ := uvmalloc_spec hE h
    (show u.length = npages (PGROUNDUP sz) by rw [hup, npages_mul])
    ((PGROUNDUP sz + 2 * PGSIZE) % 2 ^ 64) PTE_W (by decide)
  rw [bind_of_ok hrun]
  rcases hres with ⟨rfl, rfl⟩ | ⟨hr, hlen⟩
  · rw [if_pos rfl]
    exact ⟨_, s1, t1, _, rfl, hm, by rw [hup, npages_mul, append_nil], nofun⟩
  · have hr' : r = (u.length + 2) * PGSIZE := by
      rw [hr, hnew, hup]
      exact max_eq_right (Nat.mul_le_mul_right _ (by omega))
    have hguard : r - 2 * PGSIZE = u.length * PGSIZE := by
      rw [hr']
      simp only [PGSIZE]
      omega
    rw [hr', npages_mul] at hlen
    rw [if_neg (by rw [hr']; simp only [PGSIZE]; omega), hguard]
    obtain ⟨s2, t2, u2, hrun2, hm2, hg, hkept2⟩ := uvmclear_spec hE hm.space
      (show u.length < (u ++ new).length by omega)
    rw [hm.pa] at hrun2
    rw [bind_of_ok hrun2]
    refine ⟨_, s2, t2, u2, rfl, hm.trans hm2, by rw [hg.length, hlen, hr', npages_mul], fun _ =>
      ⟨hr', ⟨by rw [hg.length, hlen], fun j hj => ?_, hg.guard, fun x hx => ?_⟩, ?_⟩⟩
    · rw [hg.others j hj.ne, getElem?_append_left hj]
    · rw [hg.others _ (Nat.succ_ne_self _), getElem?_append_right (le_succ _)] at hx
      rw [hperm x (mem_of_getElem? hx)]
      decide
    · rw [cell_flags hg.pages, hkept2.cell, hcell]

/-- **Every operation returns**, and leaves address spaces in every slot that
    had or gets one. -/
theorem step_inv (hE : E.Ok) (h : Inv E F v g) (op : VmOp n) :
    v.step E F op = .disabled ∨ ∃ v' g', v.step E F op = .next v' ∧ Inv E F v' g' := by
  have hon : ∀ (i : Fin n) (f : AddrSpace → Outcome (Vm n)),
      (∀ a, v.slot i = some a → f a = .disabled ∨ ∃ v' g', f a = .next v' ∧ Inv E F v' g') →
      v.on i f = .disabled ∨ ∃ v' g', v.on i f = .next v' ∧ Inv E F v' g' := by
    intro i f hf
    unfold on
    split
    · rename_i a ha
      exact hf a ha
    · exact .inl rfl
  cases op with
  | create i tf =>
    simp only [step]
    split
    · rename_i hg
      obtain ⟨hnone, htf⟩ := hg
      have hs := h.ok i
      rw [hnone] at hs
      have hacct : Acct E v.phys.kmem (rest F v g i) := by
        have := h.acct_at i
        rw [hs] at this
        exact this
      have htf' : tf ∈ rest F v g i := mem_append_right _ htf
      obtain ⟨res, s', hrun, hframe, hres⟩ :=
        procPagetable_spec hE hacct (hacct.page_of_mem htf').pageAddr
      rw [outcome_of_ok hrun]
      rcases hres with ⟨rfl, hacct'⟩ | ⟨t, rfl, hsp⟩
      · exact .inr ⟨_, _, rfl, h.put holds_stable (x := (absent, [])) hacct'
          (fun j hj p hp => hframe p (Slots.mem_restOf hj hp)) rfl⟩
      · refine .inr ⟨_, _, rfl, h.put holds_stable (x := (t, [])) ?_
          (fun j hj p hp => hframe p (Slots.mem_restOf hj hp)) ⟨rfl, npages_zero.symm, htf, hsp⟩⟩
        rw [owned, append_assoc]
        exact hsp.acct
    · exact .inl rfl
  | growproc i d =>
    refine hon i _ fun a ha => ?_
    obtain ⟨hpa, hsz, _, hsp⟩ := space h ha
    obtain ⟨r, sz', s', t', u', hrun, hm, hsz', _⟩ := growproc_spec hE hsp hsz d
    rw [← hpa] at hrun
    rw [outcome_of_ok hrun]
    obtain ⟨g', hg'⟩ := inv_moved h ha hm hsz'
    exact .inr ⟨_, g', rfl, hg'⟩
  | uvmcopy i j =>
    refine hon i _ fun a ha => hon j _ fun b hb => ?_
    split
    · rename_i hg
      obtain ⟨hij, h0⟩ := hg
      obtain ⟨hpa, hsz, _, hsp⟩ := space h ha
      obtain ⟨hpb, hszb, _, hspb⟩ := space h hb
      have hnil : (g j).2 = [] := eq_nil_of_length_eq_zero (by rw [hszb, h0, npages_zero])
      rw [hnil] at hspb
      obtain ⟨r, s', t', u', hrun, hm, hres⟩ := uvmcopy_spec hE hsp hspb
        (fun p hp => Slots.mem_restOf hij (mem_append_left _ hp)) hsz
      rw [← hpa, ← hpb] at hrun
      rw [outcome_of_ok hrun]
      rcases hres with ⟨rfl, rfl⟩ | ⟨rfl, hlen⟩
      · obtain ⟨g', hg'⟩ := inv_moved h hb hm (show ([] : Pages).length = npages b.sz by
          rw [h0, npages_zero, length_nil])
        exact .inr ⟨_, g', rfl, hg'⟩
      · obtain ⟨g', hg'⟩ := inv_moved h hb hm (hlen.trans hsz)
        exact .inr ⟨_, g', rfl, hg'⟩
    · exact .inl rfl
  | segment i newsz flags =>
    refine hon i _ fun a ha => ?_
    obtain ⟨hpa, hsz, _, hsp⟩ := space h ha
    obtain ⟨r, s', t', new, hrun, hm, _, _, _, hres⟩ := uvmalloc_spec hE hsp hsz newsz
      (flags2perm flags) (leaf_flags2perm flags)
    rw [← hpa] at hrun
    rw [outcome_of_ok hrun]
    by_cases hr : r = 0
    · have hlen : ((g i).2 ++ new).length = npages a.sz := by
        rcases hres with ⟨_, rfl⟩ | ⟨hmax, hlen⟩
        · rw [append_nil, hsz]
        · rw [hlen, hr, show a.sz = 0 by omega]
      obtain ⟨g', hg'⟩ := inv_moved h ha hm hlen
      rw [if_pos hr]
      exact .inr ⟨_, g', rfl, hg'⟩
    · have hlen : ((g i).2 ++ new).length = npages r := by
        rcases hres with ⟨h0, _⟩ | ⟨_, hlen⟩
        · exact absurd h0 hr
        · exact hlen
      obtain ⟨g', hg'⟩ := inv_moved h ha hm hlen
      rw [if_neg hr]
      exact .inr ⟨_, g', rfl, hg'⟩
  | stack i =>
    refine hon i _ fun a ha => ?_
    obtain ⟨hpa, hsz, _, hsp⟩ := space h ha
    obtain ⟨r, s', t', u', hrun, hm, hsz', _⟩ := execStack_spec hE hsp hsz
    rw [← hpa] at hrun
    rw [outcome_of_ok hrun]
    obtain ⟨g', hg'⟩ := inv_moved h ha hm hsz'
    exact .inr ⟨_, g', rfl, hg'⟩
  | ps i start count table =>
    refine hon i _ fun a ha => ?_
    obtain ⟨hpa, hsz, _, hsp⟩ := space h ha
    have hps := ps_spec hE hsp hsz start count table
    rw [← hpa] at hps
    rcases hps with hrun | ⟨r, sz', s', t', u', hrun, hm, hsz'⟩
    · exact .inl (outcome_of_overflow hrun)
    rw [outcome_of_ok hrun]
    obtain ⟨g', hg'⟩ := inv_moved h ha hm hsz'
    exact .inr ⟨_, g', rfl, hg'⟩
  | free i =>
    refine hon i _ fun a ha => ?_
    obtain ⟨hpa, hsz, _, hsp⟩ := space h ha
    obtain ⟨s', hrun, hfr⟩ := procFreepagetable_spec hE hsp hsz
    rw [← hpa] at hrun
    rw [outcome_of_ok hrun]
    exact .inr ⟨_, _, rfl, h.put holds_stable (x := (absent, [])) hfr.acct
      (fun j hj p hp => hfr.frame p (Slots.mem_restOf hj hp)) rfl⟩

theorem exec_inv (hE : E.Ok) (ops : List (VmOp n)) : ∀ {v : Vm n}
    {g : Spaces n}, Inv E F v g →
    exec (step E F) v ops = .disabled ∨
      ∃ v' g', exec (step E F) v ops = .next v' ∧ Inv E F v' g' := by
  induction ops with
  | nil => exact fun h => .inr ⟨_, _, rfl, h⟩
  | cons op ops ih =>
    intro v g h
    rw [exec_cons]
    rcases step_inv hE h op with hd | ⟨v', g', hn, h'⟩
    · rw [hd]
      exact .inl rfl
    · rw [hn]
      exact ih h'

/-- No address space yet. -/
def start (s : Phys) : Vm n := ⟨s, fun _ => none⟩

theorem inv_start {s : Phys} (hacct : Acct E s.kmem F) :
    Inv E F (start s : Vm n) fun _ => (absent, []) := by
  refine ⟨?_, fun _ => rfl⟩
  have : gather (fun _ : Fin n => owned none (absent, [])) = [] := gather_nil
  change Acct E s.kmem (gather (fun _ : Fin n => owned none (absent, [])) ++ F)
  rw [this]
  exact hacct

end Vm

/-! ## The theorem -/

/-- **The shape of a user address space**, whatever was done to it, and that
    freeing it at its size is safe: no panic, each user page and each page of
    the page table freed once, and neither the trapframe nor the trampoline. -/
theorem address_space_shape {E : Env} (hE : E.Ok) {n : Nat} {F : List Nat} {s₀ : Phys}
    (hboot : Acct E s₀.kmem F) (ops : List (VmOp n)) :
    (∀ msg, exec (Vm.step E F) (Vm.start s₀ : Vm n) ops ≠ .panic msg) ∧
    ∀ v, exec (Vm.step E F) (Vm.start s₀ : Vm n) ops = .next v →
      ∀ i a, v.slot i = some a →
        a.Shape v.phys.kmem.mem ∧
        ∃ s' L, procFreepagetable E a.pagetable a.sz v.phys = .ok ((), s') ∧
          s'.freed = v.phys.freed ++ L ∧ L.Nodup ∧
          L.Perm (a.userPages v.phys.kmem.mem ++ tablePages v.phys.kmem.mem 2 a.pagetable) ∧
          a.trapframe ∉ L ∧ E.trampoline ∉ L := by
  have hrun := Vm.exec_inv hE ops (Vm.inv_start (n := n) hboot)
  refine ⟨fun msg hp => ?_, fun v hv i a ha => ?_⟩
  · rcases hrun with hd | ⟨v', g', hn, _⟩
    · rw [hd] at hp
      cases hp
    · rw [hn] at hp
      cases hp
  · obtain ⟨g, hinv⟩ : ∃ g, Vm.Inv E F v g := by
      rcases hrun with hd | ⟨v', g', hn, hinv⟩
      · rw [hd] at hv
        cases hv
      · rw [hn] at hv
        cases hv
        exact ⟨g', hinv⟩
    obtain ⟨hpa, hsz, htf, hsp⟩ := Vm.space hinv ha
    obtain ⟨s', hfree, hfr⟩ := procFreepagetable_spec hE hsp hsz
    obtain ⟨L, hL, hLp⟩ := hfr.freed
    have hnd := hsp.acct.nodup_owned
    rw [← append_assoc] at hnd
    obtain ⟨hnd, _, hdis⟩ := nodup_append.mp hnd
    have hmem : ∀ p ∈ L, p ∈ (g i).1.pages ++ (g i).2.map Prod.fst := fun p hp =>
      perm_append_comm.mem_iff.mp (hLp.mem_iff.mp hp)
    refine ⟨hsp.shape hE hpa hsz, s', L, hpa ▸ hfree, hL, ?_, ?_, fun h => ?_, fun h => ?_⟩
    · exact (hLp.trans perm_append_comm).nodup_iff.mpr hnd
    · rw [hsp.userPages hE hpa hsz, hpa, tablePages_eq hsp.ne hsp.rep hsp.pageAddr]
      exact hLp
    · exact hdis _ (hmem _ h) _ (mem_append_right _ htf) rfl
    · have hpage : E.Page E.trampoline := by
        refine hsp.acct.page_of_mem ?_
        rw [← append_assoc]
        exact mem_append_left _ (hmem _ h)
      have := hpage.kend_le hE
      have := hE.text.2
      omega

/-- A machine with few pages after the kernel, and an allocator that returns the
    first. -/
def smallEnv (pages : Nat) : Env where
  PGNUM := pgnum
  kend := PHYSTOP - pages * PGSIZE
  trampoline := KERNBASE
  kalloc := fun _ k => k.freelist.head?
  stackRoom := 3936

theorem smallEnv_ok {pages : Nat} (h : pages < 32768) : (smallEnv pages).Ok where
  pgnum := pgnumOk
  base := by
    simp only [smallEnv, PHYSTOP, KERNBASE, PGSIZE]
    omega
  stop := sub_le _ _
  kalloc := fun _ _ _ h => mem_of_head? h
  contract := rfl
  text := by
    refine ⟨show KERNBASE % PGSIZE = 0 by decide, ?_⟩
    simp only [smallEnv, PHYSTOP, KERNBASE, PGSIZE]
    omega

theorem smallEnv_nine : (smallEnv 9).Ok := smallEnv_ok (by decide)

/-- Its last page is a trapframe, the others are free. -/
def smallPhys (pages : Nat) : Phys where
  kmem :=
    { freelist := (List.range (pages - 1)).map fun i => PHYSTOP - (i + 2) * PGSIZE
      refCount := fun i => if i = pgnum (PHYSTOP - PGSIZE) then 1 else 0
      freePages := .ofNat (pages - 1)
      maxPages := .ofNat pages
      mem := fun _ => Bytes.zero }
  calls := 0
  freed := []

theorem smallPhys_acct {pages : Nat} (h0 : 0 < pages) (h : pages < 32768) :
    Acct (smallEnv pages) (smallPhys pages).kmem [PHYSTOP - PGSIZE] where
  nodup := by
    refine nodup_append.mpr ⟨?_, nodup_singleton _, ?_⟩
    · refine List.Nodup.map_on (fun i hi j hj e => ?_) nodup_range
      have := mem_range.mp hi
      have := mem_range.mp hj
      simp only [PHYSTOP, KERNBASE, PGSIZE] at e
      omega
    · intro p hp q hq e
      obtain ⟨i, hi, rfl⟩ := mem_map.mp hp
      have := mem_range.mp hi
      rw [mem_singleton.mp hq] at e
      simp only [PHYSTOP, KERNBASE, PGSIZE] at e
      omega
  pages := fun p => by
    have hup : PGROUNDUP (smallEnv pages).kend = PHYSTOP - pages * PGSIZE := by
      simp only [smallEnv, PGROUNDUP, PHYSTOP, KERNBASE, PGSIZE]
      omega
    simp only [Env.Page, BootPage, hup, smallPhys, mem_append, mem_map, mem_range,
      mem_singleton]
    constructor
    · rintro (⟨i, hi, rfl⟩ | rfl)
      · simp only [PHYSTOP, KERNBASE, PGSIZE]
        omega
      · refine ⟨rfl, ?_, ?_⟩ <;> simp only [PHYSTOP, KERNBASE, PGSIZE] <;> omega
    · rintro ⟨h1, h2, h3⟩
      by_cases hp : p = PHYSTOP - PGSIZE
      · exact .inr hp
      · refine .inl ⟨(PHYSTOP - p) / PGSIZE - 2, ?_, ?_⟩ <;>
          simp only [PHYSTOP, KERNBASE, PGSIZE] at * <;> omega
  free := fun p hp => by
    obtain ⟨i, hi, rfl⟩ := mem_map.mp hp
    have := mem_range.mp hi
    refine if_neg fun e => ?_
    simp only [smallEnv, pgnum, PHYSTOP, KERNBASE, PGSIZE] at e
    omega
  owned := fun p hp => by
    rw [mem_singleton.mp hp]
    simp only [smallPhys, smallEnv, if_true]
  freePages := by
    simp only [smallPhys, length_map, length_range, UInt64.toNat_ofNat']
    omega
  maxPages := by
    simp only [smallPhys, length_map, length_range, length_singleton,
      UInt64.toNat_ofNat']
    omega

/-- A process that grows to 5000 bytes: the run, and the theorem at its end. -/
theorem address_space_shape_small :
    ∃ v a, exec (Vm.step (smallEnv 9) [PHYSTOP - PGSIZE]) (Vm.start (smallPhys 9) : Vm 1)
        [.create 0 (PHYSTOP - PGSIZE), .growproc 0 5000] = .next v ∧
      v.slot 0 = some a ∧ a.sz = 5000 ∧ a.Shape v.phys.kmem.mem := by
  obtain ⟨v, hv, hsz⟩ := Outcome.exists_of_check
    (x := exec (Vm.step (smallEnv 9) [PHYSTOP - PGSIZE]) (Vm.start (smallPhys 9) : Vm 1)
      [.create 0 (PHYSTOP - PGSIZE), .growproc 0 5000])
    (t := fun v => (v.slot 0).any (·.sz == 5000)) (by decide +kernel)
  obtain ⟨a, ha, hsz⟩ := (Option.any_eq_true _ _).mp hsz
  have hshape := (address_space_shape (smallEnv_ok (by decide))
    (smallPhys_acct (by decide) (by decide)) _).2 v hv 0 a ha
  exact ⟨v, a, hv, ha, by simpa using hsz, hshape.1⟩

end Xv6
