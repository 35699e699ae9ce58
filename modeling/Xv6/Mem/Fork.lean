import Xv6.Mem.Copy

/-!
# `fork` copies memory

`uvmcopy` gives the child a page of its own for each page of the parent below
the size. The loop is described by the list of pages that the child has been
given (`Copying`): their entries are laid over those that the child had, each
holds what the parent's page held, and memory in the rest of the ledger, where
the parent is, has not changed. On failure that list is unmapped and freed; the
tables that the child has been given on the way are kept.
-/

namespace Xv6

open Function List Sys Nat
open PageTree

variable {E : Env}

/-- `va` has an entry with `PTE_V`. -/
def PageTree.Valid (t : PageTree 2) (va : Nat) : Prop := va < MAXVA ∧ t.pte va &&& PTE_V ≠ 0

/-- `va` is mapped: its entry is valid and has one of R, W, X set. -/
def PageTree.Maps (t : PageTree 2) (va : Nat) : Prop :=
  t.Valid va ∧ t.pte va &&& (PTE_R ||| PTE_W ||| PTE_X) ≠ 0

/-- A parent of `sz` bytes with page table `old` and a child with page table
    `new`: the parent's pages up to the size, rounded up, are mapped and the
    child's are not. `F` is the ledger but for the child's tables; the parent's
    tables and pages are in it. No page mapped by either is free. -/
structure Forking (E : Env) (s : Phys) (old new : PageTree 2) (sz : Nat) (F : List Nat) : Prop where
  parent : old.Wf s.kmem.mem
  child : new.Wf s.kmem.mem
  acct : Acct E s.kmem (new.pages ++ F)
  tables : ∀ p ∈ old.pages, p ∈ F
  data : ∀ va < npages sz * PGSIZE, old.page va ∈ F
  mapped : ∀ va < npages sz * PGSIZE, old.Maps va
  empty : ∀ va < npages sz * PGSIZE, new.pte va &&& PTE_V = 0
  held : ∀ va, (old.Valid va → old.page va ∉ s.kmem.freelist) ∧
    (new.Valid va → new.page va ∉ s.kmem.freelist)

/-- The child has a page of its own at `va`, with the parent's flags and the
    parent's bytes; `m` and `m'` are memory before and after. -/
structure PrivateCopy (m m' : Nat → Bytes) (old new' : PageTree 2) (va : Nat) : Prop where
  valid : new'.Valid va
  flags : PTE_FLAGS (new'.pte va) = PTE_FLAGS (old.pte va)
  bytes : ∀ o < PGSIZE, m' (new'.page va) o = m (old.page va) o
  parent : ∀ b, old.Valid b → old.page b ≠ new'.page va
  child : ∀ b, new'.Valid b → new'.page b = new'.page va → b / PGSIZE = va / PGSIZE

/-! ## Flags -/

theorem PTE_FLAGS_and {pte g : Nat} (hg : 0x3FF &&& g = g) : PTE_FLAGS pte &&& g = pte &&& g := by
  rw [PTE_FLAGS, Nat.and_assoc, hg]

theorem PageTree.Maps.leaf {t : PageTree 2} {va : Nat} (h : t.Maps va) :
    Leaf (PTE_FLAGS (t.pte va)) := by
  refine ⟨lt_of_le_of_lt and_le_right (by decide), ?_⟩
  rw [PTE_FLAGS_and (by decide)]
  exact h.2

/-- The flags of a valid entry have `PTE_V` already. -/
theorem PageTree.Valid.flags {t : PageTree 2} {va : Nat} (h : t.Valid va) :
    PTE_FLAGS (t.pte va) ||| PTE_V = PTE_FLAGS (t.pte va) := by
  have hv : PTE_FLAGS (t.pte va) &&& PTE_V ≠ 0 := by
    rw [PTE_FLAGS_and (by decide)]
    exact h.2
  have hbit : (PTE_FLAGS (t.pte va)).testBit 0 = true := by
    by_contra hno
    refine hv ?_
    rw [and_one_is_mod]
    rw [testBit_zero] at hno
    simpa using hno
  refine eq_of_testBit_eq fun i => ?_
  rw [testBit_or]
  cases i with
  | zero => rw [hbit]; rfl
  | succ i =>
    have hone : (PTE_V).testBit (i + 1) = false :=
      testBit_lt_two_pow (Nat.one_lt_two_pow (succ_ne_zero i))
    rw [hone, Bool.or_false]

/-! ## The pages copied so far -/

section Copy

variable {s₀ s s' : Phys} {old new t t' : PageTree 2} {sz : Nat} {F : List Nat}
  {u : Pages}

/-- The pages `u` have been copied to the child, whose table is now `t`. -/
structure Copying (E : Env) (s₀ : Phys) (old new : PageTree 2) (F : List Nat) (s : Phys)
    (t : PageTree 2) (u : Pages) : Prop where
  pa : t.pa = new.pa
  ne : t ≠ absent
  rep : t.Rep s.kmem.mem
  pte : ∀ b < VASPACE, t.pte b = overlaid new.pte u b
  acct : Acct E s.kmem (t.pages ++ (u.map Prod.fst ++ F))
  tables : new.pages ⊆ t.pages
  frame : ∀ p ∈ F, s.kmem.mem p = s₀.kmem.mem p
  flags : ∀ k x, u[k]? = some x → x.2 = PTE_FLAGS (old.pte (k * PGSIZE))
  bytes : ∀ k x, u[k]? = some x →
    ∀ o < PGSIZE, s.kmem.mem x.1 o = s₀.kmem.mem (old.page (k * PGSIZE)) o

/-- The copy has been given up: the child's pages up to the size are not mapped,
    and it has its tables only. -/
structure GivenUp (E : Env) (s₀ : Phys) (new : PageTree 2) (sz : Nat) (F : List Nat) (s : Phys)
    (t : PageTree 2) : Prop where
  pa : t.pa = new.pa
  ne : t ≠ absent
  rep : t.Rep s.kmem.mem
  low : ∀ b < npages sz * PGSIZE, t.pte b &&& PTE_V = 0
  high : ∀ b < VASPACE, npages sz * PGSIZE ≤ b → t.pte b = new.pte b
  acct : Acct E s.kmem (t.pages ++ F)
  frame : ∀ p ∈ F, s.kmem.mem p = s₀.kmem.mem p

theorem Forking.copying (h : Forking E s₀ old new sz F) : Copying E s₀ old new F s₀ new [] where
  pa := rfl
  ne := h.child.ne
  rep := h.child.rep
  pte := fun _ _ => rfl
  acct := h.acct
  tables := fun _ hp => hp
  frame := fun _ _ => rfl
  flags := nofun
  bytes := nofun

/-- Addresses below the size are below `MAXVA`, since they are mapped. -/
theorem Forking.le_maxva (h : Forking E s₀ old new sz F) : npages sz * PGSIZE ≤ MAXVA := by
  by_contra hlt
  exact absurd (h.mapped MAXVA (by omega)).1.1 (lt_irrefl _)

theorem Forking.leaf (h : Forking E s₀ old new sz F) (hc : Copying E s₀ old new F s t u)
    (hu : u.length ≤ npages sz) {x : Nat × Nat} (hx : x ∈ u) : Leaf x.2 := by
  obtain ⟨k, hk, rfl⟩ := getElem_of_mem hx
  rw [hc.flags k _ (getElem?_eq_getElem hk)]
  exact (h.mapped (k * PGSIZE) (Nat.mul_lt_mul_of_pos_right (by omega) (by decide))).leaf

theorem Copying.pte_user (hc : Copying E s₀ old new F s t u) {b : Nat} {x : Nat × Nat}
    (hb : b < VASPACE) (hx : u[b / PGSIZE]? = some x) : t.pte b = mkPte x.1 x.2 := by
  rw [hc.pte b hb, overlaid, hx]

theorem Copying.edit (hc : Copying E s₀ old new F s t u)
    (he : Edit E s t (u.map Prod.fst ++ F) s' t' t.pte) : Copying E s₀ old new F s' t' u where
  pa := he.pa.trans hc.pa
  ne := he.ne
  rep := he.rep
  pte := fun b hb => (he.pte b hb).trans (hc.pte b hb)
  acct := he.acct
  tables := fun _ hp => he.pages (hc.tables hp)
  frame := fun p hp => (he.frame p (mem_append_right _ hp)).trans (hc.frame p hp)
  flags := hc.flags
  bytes := fun k x hx o ho => by
    rw [he.frame x.1 (mem_append_left _ (mem_map_of_mem (mem_of_getElem? hx)))]
    exact hc.bytes k x hx o ho

/-- One more page: `mem` holds what the parent's page holds, and is mapped with
    its flags. -/
theorem Copying.next (hc : Copying E s₀ old new F s t u) {s2 : Phys} {mem : Nat}
    (hmem : ∀ p ∈ t.pages ++ (u.map Prod.fst ++ F), s2.kmem.mem p = s.kmem.mem p)
    (hpage : ∀ o < PGSIZE, s2.kmem.mem mem o = s₀.kmem.mem (old.page (u.length * PGSIZE)) o)
    (he : Edit E s2 t (mem :: (u.map Prod.fst ++ F)) s' t' (withPte t.pte (u.length * PGSIZE)
      (mkPte mem (PTE_FLAGS (old.pte (u.length * PGSIZE)))))) :
    Copying E s₀ old new F s' t' (u ++ [(mem, PTE_FLAGS (old.pte (u.length * PGSIZE)))]) := by
  have hsame : ∀ p ∈ u.map Prod.fst ++ F, s'.kmem.mem p = s.kmem.mem p := fun p hp =>
    (he.frame p (mem_cons_of_mem _ hp)).trans (hmem p (mem_append_right _ hp))
  -- a page of the longer list is one of `u` or the new one
  have hcases : ∀ k x, (u ++ [(mem, PTE_FLAGS (old.pte (u.length * PGSIZE)))])[k]? = some x →
      u[k]? = some x ∨ k = u.length ∧ x = (mem, PTE_FLAGS (old.pte (u.length * PGSIZE))) := by
    intro k x hx
    by_cases hk : k < u.length
    · rw [getElem?_append_left hk] at hx
      exact .inl hx
    · rw [getElem?_append_right (by omega), getElem?_singleton] at hx
      split at hx
      · exact .inr ⟨by omega, (Option.some.inj hx).symm⟩
      · cases hx
  refine ⟨he.pa.trans hc.pa, he.ne, he.rep, fun b hb => ?_, ?_, fun _ hp => he.pages (hc.tables hp),
    fun p hp => (hsame p (mem_append_right _ hp)).trans (hc.frame p hp), fun k x hx => ?_,
    fun k x hx o ho => ?_⟩
  · rw [he.pte b hb, ← overlaid_append]
    unfold withPte
    rw [hc.pte b hb]
  · refine he.acct.perm (List.Perm.append_left _ ?_)
    simp only [map_append, map_cons, map_nil, append_assoc, cons_append,
      nil_append]
    exact perm_middle.symm
  · rcases hcases k x hx with hx | ⟨rfl, rfl⟩
    · exact hc.flags k x hx
    · rfl
  · rcases hcases k x hx with hx | ⟨rfl, rfl⟩
    · rw [hsame x.1 (mem_append_left _ (mem_map_of_mem (mem_of_getElem? hx)))]
      exact hc.bytes k x hx o ho
    · rw [he.frame mem mem_cons_self]
      exact hpage o ho

/-- `err:` unmaps and frees the pages copied so far. -/
theorem Copying.giveUp (hE : E.Ok) (h : Forking E s₀ old new sz F)
    (hc : Copying E s₀ old new F s t u) (hu : u.length ≤ npages sz) :
    ∃ s' t', (do uvmunmap E new.pa 0 (u.length * PGSIZE / PGSIZE) true; pure (-1) : Sys Phys Int) s
      = .ok (-1, s') ∧ GivenUp E s₀ new sz F s' t' := by
  have hroom : 0 + u.length * PGSIZE ≤ MAXVA := by
    rw [Nat.zero_add]
    exact (Nat.mul_le_mul_right _ hu).trans h.le_maxva
  have hpte : ∀ i x, u[i]? = some x → t.pte (0 + i * PGSIZE) = mkPte x.1 x.2 := by
    intro i x hx
    have hi : i < u.length := (List.getElem?_eq_some_iff.mp hx).1
    refine hc.pte_user ?_ ?_
    · simp only [PGSIZE, MAXVA, VASPACE] at *
      omega
    · rw [Nat.zero_add, Nat.mul_div_cancel _ (by decide), hx]
  obtain ⟨s', t', hrun, _, he, _⟩ := uvmunmapLoop_free hE hc.ne hroom hc.rep hc.acct
    (fun x hx => h.leaf hc hu hx) hpte
  rw [hc.pa] at hrun
  have hentry : ∀ b < VASPACE, t'.pte b =
      if b / PGSIZE < u.length then 0 else overlaid new.pte u b := by
    intro b hb
    rw [he.pte b hb, cleared, Nat.zero_div, Nat.zero_add, hc.pte b hb]
    exact if_congr ⟨fun h => h.2, fun h => ⟨Nat.zero_le _, h⟩⟩ rfl rfl
  refine ⟨s', t', ?_, he.pa.trans hc.pa, he.ne, he.rep, fun b hb => ?_, fun b hb hle => ?_,
    he.acct, fun p hp => (he.frame p hp).trans (hc.frame p hp)⟩
  · rw [Nat.mul_div_cancel _ (by decide), uvmunmap_eq true rfl hroom, bind_of_ok hrun]
    rfl
  · have hmax := h.le_maxva
    rw [hentry b (vaspace_of_maxva (by omega))]
    split
    · rfl
    · rename_i hge
      rw [overlaid, getElem?_eq_none (by omega)]
      exact h.empty b hb
  · have hge : ¬ b / PGSIZE < u.length := by
      simp only [PGSIZE] at *
      omega
    rw [hentry b hb, if_neg hge, overlaid, getElem?_eq_none (by omega)]

/-! ## The loop -/

/-- **The loop of `uvmcopy`** after the pages `u`: it copies the rest, or gives
    up. -/
theorem uvmcopyLoop_copies (hE : E.Ok) (h : Forking E s₀ old new sz F) : ∀ {fuel : Nat} {s : Phys}
    {t : PageTree 2} {u : Pages}, Copying E s₀ old new F s t u → u.length ≤ npages sz →
    npages sz < fuel + u.length →
    ∃ r s' t', uvmcopyLoop E old.pa new.pa sz fuel (u.length * PGSIZE) s = .ok (r, s') ∧
      (r = 0 ∧ (∃ u', Copying E s₀ old new F s' t' u' ∧ u'.length = npages sz) ∨
        r = -1 ∧ GivenUp E s₀ new sz F s' t') := by
  intro fuel
  induction fuel with
  | zero =>
    intro s t u _ hu hfuel
    omega
  | succ fuel ih =>
    intro s t u hc hu hfuel
    rw [uvmcopyLoop]
    by_cases hi : u.length * PGSIZE < sz
    · have hlt : u.length < npages sz := lt_npages.mpr hi
      have hva : u.length * PGSIZE < npages sz * PGSIZE :=
        Nat.mul_lt_mul_of_pos_right hlt (by decide)
      have hmap := h.mapped _ hva
      have hold : old.Wf s.kmem.mem := h.parent.congr fun p hp => hc.frame p (h.tables p hp)
      obtain ⟨b, hb⟩ : ∃ b, old.table (u.length * PGSIZE) = some b :=
        exists_table fun h0 => hmap.1.2 (by rw [h0, zero_and])
      have hwalk : walk E old.pa (u.length * PGSIZE) false s =
          .ok (some (b, px 0 (u.length * PGSIZE)), s) := by
        rw [walk_read hmap.1.1 hold.ne hold.rep hold.addr, hb]
        rfl
      have hundo : ∀ {s1 t1}, Copying E s₀ old new F s1 t1 u → ∃ r s' t',
          (do uvmunmap E new.pa 0 (u.length * PGSIZE / PGSIZE) true; pure (-1) : Sys Phys Int) s1
            = .ok (r, s') ∧
          (r = 0 ∧ (∃ u', Copying E s₀ old new F s' t' u' ∧ u'.length = npages sz) ∨
            r = -1 ∧ GivenUp E s₀ new sz F s' t') := by
        intro s1 t1 hc1
        obtain ⟨s', t', hrun, hg⟩ := hc1.giveUp hE h hu
        exact ⟨-1, s', t', hrun, .inr ⟨rfl, hg⟩⟩
      rw [if_pos hi, bind_of_ok hwalk]
      simp only [loadPte, reads_bind_run, hold.rep.pteAt hb]
      rw [if_neg hmap.1.2]
      cases hka : E.kalloc s.calls s.kmem with
      | none =>
        rw [bind_of_ok (kallocPage_none hE hka)]
        exact hundo { hc with }
      | some mem =>
        obtain ⟨s1, hrun, hacct, hfresh, _, hmem, _, _⟩ := kallocPage_some hE hc.acct hka
        rw [bind_of_ok hrun]
        simp only [reads_bind_run, movePage, modify_bind_run]
        generalize hs2 : s1.setMem _ = s2
        have hacct2 : Acct E s2.kmem (mem :: (t.pages ++ (u.map Prod.fst ++ F))) :=
          hs2 ▸ hacct.congr rfl rfl rfl rfl
        have hmem2 : ∀ p ∈ t.pages ++ (u.map Prod.fst ++ F), s2.kmem.mem p = s.kmem.mem p := by
          intro p hp
          have hne : p ≠ mem := fun e => hfresh (e ▸ hp)
          rw [← hs2]
          exact (update_of_ne hne _ _).trans (hmem p hne)
        have hpage : ∀ o < PGSIZE,
            s2.kmem.mem mem o = s₀.kmem.mem (old.page (u.length * PGSIZE)) o := by
          intro o ho
          have hin := h.data _ hva
          have hne : old.page (u.length * PGSIZE) ≠ mem := fun e =>
            hfresh (e ▸ mem_append_right _ (mem_append_right _ hin))
          rw [← hc.frame _ hin, ← hmem _ hne, ← hs2]
          show update s1.kmem.mem mem _ mem o = _
          rw [update_self, Bytes.blit, if_pos (by omega), Nat.zero_add, Nat.sub_zero]
          rfl
        have hzero : t.pte (u.length * PGSIZE) &&& PTE_V = 0 := by
          rw [hc.pte _ (vaspace_of_maxva hmap.1.1), overlaid, Nat.mul_div_cancel _ (by decide),
            getElem?_eq_none le_rfl]
          exact h.empty _ hva
        obtain ⟨r, s3, t3, hmap3, hres⟩ := mappages_fresh hE hmap.1.1 (mul_mod_left _ _) hc.ne
          (hc.rep.congr fun p hp => hmem2 p (mem_append_left _ hp)) hacct2 hzero hmap.leaf.1
        rw [hc.pa] at hmap3
        rw [bind_of_ok hmap3]
        rcases hres with ⟨rfl, he⟩ | ⟨rfl, s4, hfree, he⟩
        · have hshort : u.length ≤ 32768 := by
            have hlen := hc.acct.length_le hE
            simp only [length_append, length_map] at hlen
            omega
          rw [if_neg (by simp), next_page hshort]
          have hnext := hc.next hmem2 hpage he
          obtain ⟨r, s', t', hrun', hres'⟩ := ih hnext (by simp; omega) (by simp; omega)
          rw [length_append, length_singleton] at hrun'
          exact ⟨r, s', t', hrun', hres'⟩
        · rw [if_pos (by decide), bind_of_ok hfree]
          exact hundo (hc.edit (he.mono fun p hp => hmem2 p (mem_append_right _ hp)))
    · rw [if_neg hi]
      refine ⟨0, s, t, rfl, .inl ⟨rfl, u, hc, le_antisymm hu ?_⟩⟩
      have := @lt_npages u.length sz
      omega

/-! ## What the child has -/

theorem Copying.taken (h : Forking E s₀ old new sz F) (hc : Copying E s₀ old new F s t u) {p : Nat}
    (hp : p ∈ u.map Prod.fst) : p ∈ s₀.kmem.freelist := by
  obtain ⟨_, hnd, hdis⟩ := nodup_append.mp hc.acct.nodup_owned
  have hpage : E.Page p :=
    hc.acct.page_of_mem (mem_append_right _ (mem_append_left _ hp))
  rcases mem_append.mp ((h.acct.pages p).mpr hpage) with hfree | hown
  · exact hfree
  rcases mem_append.mp hown with htab | hF
  · exact absurd rfl (hdis p (hc.tables htab) p (mem_append_left _ hp))
  · exact absurd rfl ((nodup_append.mp hnd).2.2 p hp p hF)

theorem Copying.private (h : Forking E s₀ old new sz F) (hc : Copying E s₀ old new F s t u)
    (hu : u.length = npages sz) {va : Nat} (hva : va < npages sz * PGSIZE) :
    PrivateCopy s₀.kmem.mem s.kmem.mem old t va := by
  have hmap := h.mapped va hva
  have hk : va / PGSIZE < u.length := by
    rw [hu]
    exact (Nat.div_lt_iff_lt_mul (by decide)).mpr hva
  obtain ⟨x, hx⟩ := exists_getElem? hk
  have hmem := mem_of_getElem? hx
  have hin : x.1 ∈ u.map Prod.fst := mem_map_of_mem hmem
  have hround : va / PGSIZE * PGSIZE / PGSIZE = va / PGSIZE := Nat.mul_div_cancel _ (by decide)
  have hleaf := h.leaf hc hu.le hmem
  have hpte : t.pte va = mkPte x.1 x.2 := hc.pte_user (vaspace_of_maxva hmap.1.1) hx
  have haddr : ∀ y ∈ u, PageAddr y.1 := fun y hy => (hc.acct.page_of_mem (mem_append_right _
    (mem_append_left _ (mem_map_of_mem hy)))).pageAddr
  have hpage : t.page va = x.1 := by rw [page, hpte, PTE2PA_mkPte (haddr x hmem) hleaf.1]
  refine ⟨⟨hmap.1.1, ?_⟩, ?_, fun o ho => ?_, fun b hb e => ?_, fun b hb e => ?_⟩
  · rw [hpte, mkPte_valid hleaf.1]
    decide
  · rw [hpte, PTE_FLAGS_mkPte hleaf.1, hc.flags _ x hx, pte_page hround, hmap.1.flags]
  · rw [hpage, hc.bytes _ x hx o ho, page_congr hround]
  · rw [hpage] at e
    exact (h.held b).1 hb (e ▸ hc.taken h hin)
  · rw [hpage] at e
    by_cases hlow : b / PGSIZE < u.length
    · obtain ⟨y, hy⟩ := exists_getElem? hlow
      have hymem := mem_of_getElem? hy
      rw [page, hc.pte_user (vaspace_of_maxva hb.1) hy,
        PTE2PA_mkPte (haddr y hymem) (h.leaf hc hu.le hymem).1] at e
      -- no page is in the list twice
      have hnd : (u.map Prod.fst).Nodup :=
        (nodup_append.mp (nodup_append.mp hc.acct.nodup_owned).2.1).1
      have hlen : b / PGSIZE < (u.map Prod.fst).length := by rwa [length_map]
      refine (getElem?_inj hlen hnd).mp ?_
      rw [getElem?_map, getElem?_map, hx, hy, Option.map_some, Option.map_some, e]
    · have hsame : t.pte b = new.pte b := by
        rw [hc.pte b (vaspace_of_maxva hb.1), overlaid, getElem?_eq_none (by omega)]
      rw [page, hsame] at e
      exact absurd (hc.taken h hin) (e ▸ (h.held b).2 ⟨hb.1, hsame ▸ hb.2⟩)

end Copy

/-! ## The theorem -/

/-- **`fork`'s copy of memory is faithful and private.** `uvmcopy` returns 0 or
    -1, and changes nothing in the rest of the ledger, the parent's tables and
    pages among it, and none of the child's entries from the size on. If it
    returns 0, the child has a private copy of each page below the size, so a
    store by either process is not seen by the other. If it returns -1, the
    child has no mapping below the size, and every page that was free is free
    again or is now one of the child's tables. -/
theorem uvmcopy_private (hE : E.Ok) {s : Phys} {old new : PageTree 2} {sz : Nat} {F : List Nat}
    (h : Forking E s old new sz F) :
    ∃ r s' new', uvmcopy E old.pa new.pa sz s = .ok (r, s') ∧ new'.pa = new.pa ∧
      new'.Wf s'.kmem.mem ∧ old.Wf s'.kmem.mem ∧ (∀ p ∈ F, s'.kmem.mem p = s.kmem.mem p) ∧
      (∀ va < MAXVA, npages sz * PGSIZE ≤ va → new'.pte va = new.pte va) ∧
      (r = 0 ∧ (∀ va < npages sz * PGSIZE, PrivateCopy s.kmem.mem s'.kmem.mem old new' va) ∧
          (∀ m a b c, old.Valid a → b < npages sz * PGSIZE →
            peek old (poke new' m b c) a = peek old m a ∧
            peek new' (poke old m a c) b = peek new' m b) ∨
        r = -1 ∧ (∀ va < npages sz * PGSIZE, ¬ new'.Valid va) ∧
          ∀ p ∈ s.kmem.freelist, p ∈ s'.kmem.freelist ∨ p ∈ new'.pages) := by
  have hfuel : npages sz < turns + ([] : Pages).length := by
    have hmax := h.le_maxva
    simp only [turns, length_nil, PGSIZE, MAXVA] at *
    omega
  obtain ⟨r, s', new', hrun, hres⟩ := uvmcopyLoop_copies hE h h.copying (Nat.zero_le _) hfuel
  refine ⟨r, s', new', hrun, ?_⟩
  rcases hres with ⟨rfl, u, hc, hu⟩ | ⟨rfl, hg⟩
  · have hcopy : ∀ va < npages sz * PGSIZE, PrivateCopy s.kmem.mem s'.kmem.mem old new' va :=
      fun va hva => hc.private h hu hva
    refine ⟨hc.pa, hc.acct.wf hc.ne hc.rep, h.parent.congr fun p hp => hc.frame p (h.tables p hp),
      hc.frame, fun va hva hge => ?_, .inl ⟨rfl, hcopy, fun m a b c ha hb => ⟨?_, ?_⟩⟩⟩
    · have hno : u.length ≤ va / PGSIZE := by
        rw [hu]
        exact (Nat.le_div_iff_mul_le (by decide)).mpr hge
      rw [hc.pte va (vaspace_of_maxva hva), overlaid, getElem?_eq_none hno]
    · exact poke_of_ne c fun e => (hcopy b hb).parent a ha e.1.symm
    · exact poke_of_ne c fun e => (hcopy b hb).parent a ha e.1
  · refine ⟨hg.pa, hg.acct.wf hg.ne hg.rep, h.parent.congr fun p hp => hg.frame p (h.tables p hp),
      hg.frame, fun va hva hge => hg.high va (vaspace_of_maxva hva) hge,
      .inr ⟨rfl, fun va hva hv => hv.2 (hg.low va hva), fun p hp => ?_⟩⟩
    -- it is not in the rest of the ledger, where it would have been before
    have hpage : E.Page p := (h.acct.pages p).mp (mem_append_left _ hp)
    rcases mem_append.mp ((hg.acct.pages p).mpr hpage) with hfree | hown
    · exact .inl hfree
    rcases mem_append.mp hown with htab | hF
    · exact .inr htab
    · exact absurd hp (h.acct.not_mem_free (mem_append_right _ hF))

/-! ## Forking a process -/

/-- What an address space maps: user pages, the trapframe and the trampoline. -/
theorem Space.page_cases {s : Phys} {tf : Nat} {t : PageTree 2} {u : Pages}
    {F : List Nat} (hE : E.Ok) (h : Space E s tf t u F) {va : Nat} (hv : t.Valid va) :
    t.page va = tf ∨ t.page va = E.trampoline ∨ t.page va ∈ u.map Prod.fst := by
  have hpte := h.pte va (vaspace_of_maxva hv.1)
  have hvalid := hv.2
  rw [page, hpte]
  rw [hpte] at hvalid
  unfold spacePte withPte userPte at hvalid ⊢
  split
  · exact .inl (PTE2PA_mkPte h.trapframe (by decide))
  · rename_i h1
    rw [if_neg h1] at hvalid
    split
    · exact .inr (.inl (PTE2PA_mkPte (trampoline_pageAddr hE) (by decide)))
    · rename_i h2
      rw [if_neg h2] at hvalid
      split at hvalid
      · rename_i x hx
        have hmem := mem_of_getElem? hx
        rw [PTE2PA_mkPte (h.user_pageAddr hmem) (h.leaf x hmem).1]
        exact .inr (.inr (mem_map_of_mem hmem))
      · exact absurd (zero_and _) hvalid

theorem Space.forking (hE : E.Ok) {s : Phys} {tf tf' sz : Nat} {old new : PageTree 2}
    {u : Pages} {F F' : List Nat} (h : Space E s tf old u F)
    (h' : Space E s tf' new [] F') (hsz : u.length = npages sz)
    (hsub : ∀ p ∈ old.pages ++ u.map Prod.fst, p ∈ F') (htf : tf ∉ s.kmem.freelist)
    (htf' : tf' ∉ s.kmem.freelist) : Forking E s old new sz F' := by
  have hbelow := h.below hE
  rw [hsz] at hbelow
  have hentry : ∀ va < npages sz * PGSIZE, ∃ x ∈ u, old.pte va = mkPte x.1 x.2 := by
    intro va hva
    have hk : va / PGSIZE < u.length := by
      rw [hsz]
      exact (Nat.div_lt_iff_lt_mul (by decide)).mpr hva
    have hx : u[va / PGSIZE]? = some u[va / PGSIZE] := getElem?_eq_getElem hk
    have hlt := hva.trans hbelow
    refine ⟨_, getElem_mem hk, ?_⟩
    rw [h.pte va (vaspace_of_maxva (maxva_of_trapframe hlt)), spacePte_user hlt, userPte, hx]
  have htramp : E.trampoline ∉ s.kmem.freelist := by
    intro hfree
    have hpage := ((h.acct.pages _).mp (mem_append_left _ hfree)).kend_le hE
    have := hE.text.2
    omega
  refine ⟨h.acct.wf h.ne h.rep, h'.acct.wf h'.ne h'.rep, h'.acct,
    fun p hp => hsub p (mem_append_left _ hp), fun va hva => ?_, fun va hva => ?_,
    fun va hva => ?_, fun va => ⟨fun hv => ?_, fun hv => ?_⟩⟩
  · obtain ⟨x, hx, hpte⟩ := hentry va hva
    rw [page, hpte, PTE2PA_mkPte (h.user_pageAddr hx) (h.leaf x hx).1]
    exact hsub _ (mem_append_right _ (mem_map_of_mem hx))
  · obtain ⟨x, hx, hpte⟩ := hentry va hva
    refine ⟨⟨maxva_of_trapframe (hva.trans hbelow), ?_⟩, ?_⟩
    · rw [hpte, mkPte_valid (h.leaf x hx).1]
      decide
    · rw [hpte]
      exact (h.leaf x hx).flags x.1
  · have hlt := hva.trans hbelow
    rw [h'.pte va (vaspace_of_maxva (maxva_of_trapframe hlt)), spacePte_user hlt,
      userPte_of_ge (Nat.zero_le _)]
    rfl
  · rcases h.page_cases hE hv with e | e | hmem
    · rwa [e]
    · rwa [e]
    · exact h.acct.not_mem_free (mem_append_right _ (mem_append_left _ hmem))
  · rcases h'.page_cases hE hv with e | e | hmem
    · rwa [e]
    · rwa [e]
    · cases hmem

/-- A process of one page and a new one, and the copy. -/
theorem uvmcopy_private_small : ∃ (s s' : Phys) (old new new' : PageTree 2),
    uvmcopy (smallEnv 16) old.pa new.pa 1 s = .ok (0, s') ∧ new'.pa = new.pa ∧
      ∀ va < PGSIZE, PrivateCopy s.kmem.mem s'.kmem.mem old new' va := by
  obtain ⟨v, hv, hr⟩ := Outcome.exists_of_check
    (x := exec (Vm.step (smallEnv 16) [PHYSTOP - PGSIZE]) (Vm.start (smallPhys 16) : Vm 2)
      [.create 0 (PHYSTOP - PGSIZE), .growproc 0 1, .create 1 (PHYSTOP - PGSIZE)])
    (t := fun v => match v.slot 0, v.slot 1 with
      | some a, some b => a.sz == 1 && b.sz == 0 &&
          (match uvmcopy (smallEnv 16) a.pagetable b.pagetable 1 v.phys with
            | .ok (r, _) => r == 0
            | .error _ => false)
      | some _, none | none, _ => false) (by decide +kernel)
  have hE : (smallEnv 16).Ok := smallEnv_ok (by decide)
  obtain ⟨g, hinv⟩ : ∃ g, Vm.Inv (smallEnv 16) [PHYSTOP - PGSIZE] v g := by
    rcases Vm.exec_inv hE _ (Vm.inv_start (n := 2) (smallPhys_acct (by decide) (by decide)))
      with hd | ⟨v', g, hn, hinv⟩
    · rw [hd] at hv
      cases hv
    · rw [hn] at hv
      cases hv
      exact ⟨g, hinv⟩
  cases ha : v.slot 0 with
  | none => simp [ha] at hr
  | some a =>
    cases hb : v.slot 1 with
    | none => simp [ha, hb] at hr
    | some b =>
      simp only [ha, hb, Bool.and_eq_true, beq_iff_eq] at hr
      obtain ⟨⟨hsza, hszb⟩, hrun⟩ := hr
      obtain ⟨hpa, hlen, htf, hsp⟩ := Vm.space hinv ha
      obtain ⟨hpb, hlenb, htfb, hspb⟩ := Vm.space hinv hb
      rw [hsza] at hlen
      rw [hszb] at hlenb
      rw [eq_nil_of_length_eq_zero hlenb] at hspb
      have hheld : ∀ p ∈ [PHYSTOP - PGSIZE], p ∉ v.phys.kmem.freelist := fun p hp =>
        hsp.acct.not_mem_free (mem_append_right _ (mem_append_right _
          (mem_append_right _ hp)))
      have hfork := hsp.forking hE hspb hlen
        (fun p hp => Slots.mem_restOf (show (0 : Fin 2) ≠ 1 by decide) hp) (hheld _ htf)
        (hheld _ htfb)
      obtain ⟨r, s', new', hcopy, hroot, _, _, _, _, hres⟩ := uvmcopy_private hE hfork
      rw [hpa, hpb, hcopy] at hrun
      obtain rfl : r = 0 := by simpa using hrun
      rcases hres with ⟨_, hpriv, _⟩ | ⟨h0, _⟩
      · exact ⟨v.phys, s', (g 0).1, (g 1).1, new', hcopy, hroot, hpriv⟩
      · cases h0

end Xv6
