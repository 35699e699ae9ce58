import Xv6.Mem.Space

/-!
# Building, copying and freeing an address space

`proc_pagetable` makes an empty space or leaves nothing behind; `uvmcopy` fills
an empty one from another space or leaves it empty; `proc_freepagetable` gives
back every page of a space, once. In between `uvmclear` and `copyout` change
flags and contents of user pages and no mapping.
-/

namespace Xv6

open List Sys

variable {E : Env}

open PageTree

section Specs

variable {s : Phys} {tf : Nat} {t : PageTree 2} {u : Pages} {F : List Nat}

/-! ## Freeing -/

section

variable (hE : E.Ok) (hne : t ≠ absent) (hrep : t.Rep s.kmem.mem)
    (hpte : ∀ b < VASPACE, t.pte b = 0) (hacct : Acct E s.kmem (t.pages ++ F))

include hE hne hrep hpte hacct

theorem freewalk_bare : ∃ s', freewalk E 3 t.pa s = .ok ((), s') ∧ Freed E s t.pages F s' :=
  freewalk_spec hE hne hrep (bare_of_pte hpte) hacct

theorem uvmfree_empty : ∃ s', uvmfree E t.pa 0 s = .ok ((), s') ∧ Freed E s t.pages F s' := by
  obtain ⟨s', hrun, hfr⟩ := freewalk_bare hE hne hrep hpte hacct
  exact ⟨s', hrun, hfr⟩

end

/-- **`proc_freepagetable`** returns, and frees each user page and each page of
    the tree once. -/
theorem procFreepagetable_spec (hE : E.Ok) (h : Space E s tf t u F) {sz : Nat}
    (hsz : u.length = npages sz) :
    ∃ s', procFreepagetable E t.pa sz s = .ok ((), s') ∧
      Freed E s (u.map Prod.fst ++ t.pages) F s' := by
  have hbelow := h.below hE
  have hle := h.length_le hE
  -- trampoline and trapframe are unmapped and stay
  obtain ⟨s1, t1, hrun1, hpages1, he1, hfreed1⟩ := uvmunmap_keep hE (F := u.map Prod.fst ++ F)
    (show TRAMPOLINE < MAXVA by decide) (by decide) h.rep h.acct
    ((h.pte _ (by decide)).trans spacePte_trampoline) (trampoline_pageAddr hE) (by decide)
  have htf : t1.pte TRAPFRAME = mkPte tf (PTE_R ||| PTE_W) := by
    rw [he1.pte _ (by decide), withPte, if_neg (by decide), h.pte _ (by decide)]
    exact spacePte_trapframe
  obtain ⟨s2, t2, hrun2, hpages2, he2, hfreed2⟩ := uvmunmap_keep hE (F := u.map Prod.fst ++ F)
    (show TRAPFRAME < MAXVA by decide) (by decide) he1.rep he1.acct htf h.trapframe (by decide)
  have hpte : ∀ b < VASPACE, t2.pte b = userPte u b := by
    intro b hb
    have htop : ∀ c, TRAPFRAME / PGSIZE ≤ c / PGSIZE → userPte u c = 0 := fun c hc =>
      userPte_of_ge (by simp only [TRAPFRAME, TRAMPOLINE, MAXVA, PGSIZE] at *; omega)
    rw [he2.pte b hb]
    unfold withPte
    rw [he1.pte b hb]
    unfold withPte
    rw [h.pte b hb]
    unfold spacePte withPte
    split
    · rename_i hb
      exact (htop b hb.ge).symm
    · split
      · rename_i hb
        exact (htop b (by rw [hb]; decide)).symm
      · rfl
  -- then user memory, and the tree that is left
  obtain ⟨s3, t3, hrun3, hpages3, he3, hfreed3⟩ := uvmunmapLoop_free hE he2.ne
    (show 0 + u.length * PGSIZE ≤ MAXVA by
      rw [Nat.zero_add]
      exact (maxva_of_trapframe hbelow).le) he2.rep he2.acct h.leaf
    (by
      intro i x hx
      have hi : i < u.length := (List.getElem?_eq_some_iff.mp hx).1
      rw [Nat.zero_add, hpte _ (vaspace_of_maxva (maxva_of_trapframe
        (lt_trans (Nat.mul_lt_mul_of_pos_right hi (by decide)) hbelow))), userPte_page hx])
  have hbare : ∀ b < VASPACE, t3.pte b = 0 := by
    intro b hb
    rw [he3.pte b hb, cleared]
    split
    · rfl
    · rename_i hn
      rw [hpte b hb, userPte_of_ge (by simpa using hn)]
  obtain ⟨s4, hrun4, hfr⟩ := freewalk_bare hE he3.ne he3.rep hbare he3.acct
  have hpa : t3.pa = t.pa := he3.pa.trans (he2.pa.trans he1.pa)
  have huser : uvmfree E t.pa sz s2 = freewalk E 3 t.pa s3 := by
    rw [he2.pa, he1.pa] at hrun3
    unfold uvmfree
    split
    · rw [h.roundup hE hsz, Nat.mul_div_cancel _ (by decide),
        uvmunmap_eq true rfl (by simp only [PGSIZE, MAXVA] at *; omega), bind_of_ok hrun3]
    · rename_i h0
      obtain rfl : u = [] := eq_nil_of_length_eq_zero (by
        rw [hsz, show sz = 0 by omega, npages_zero])
      cases hrun3
      rfl
  refine ⟨s4, ?_, hfr.acct, fun p hp => ?_, ?_⟩
  · unfold procFreepagetable
    rw [he1.pa] at hrun2
    rw [hpa] at hrun4
    rw [bind_of_ok hrun1, bind_of_ok hrun2, huser, hrun4]
  · have hp' : p ∈ u.map Prod.fst ++ F := mem_append_right _ hp
    rw [hfr.frame p hp, he3.frame p hp, he2.frame p hp', he1.frame p hp']
  · obtain ⟨L, hL, hLp⟩ := hfr.freed
    refine ⟨u.map Prod.fst ++ L, ?_, ?_⟩
    · rw [hL, hfreed3, hfreed2, hfreed1, append_assoc]
    · rw [hpages3, hpages2, hpages1] at hLp
      exact hLp.append_left _

/-! ## Building -/

theorem uvmcreate_spec (hE : E.Ok) (hacct : Acct E s.kmem F) :
    ∃ res s', uvmcreate E s = .ok (res, s') ∧ (∀ p ∈ F, s'.kmem.mem p = s.kmem.mem p) ∧
      (res = none ∧ Acct E s'.kmem F ∨
        ∃ r, res = some r ∧ (blank 2 r).Rep s'.kmem.mem ∧
          Acct E s'.kmem ((blank 2 r).pages ++ F)) := by
  unfold uvmcreate
  cases hka : E.kalloc s.calls s.kmem with
  | none =>
    rw [bind_of_ok (kallocPage_none hE hka)]
    exact ⟨none, _, rfl, fun _ _ => rfl, .inl ⟨rfl, hacct⟩⟩
  | some r =>
    obtain ⟨s1, hrun, hacct1, hfresh, _, hmem, _, _⟩ := kallocPage_some hE hacct hka
    rw [bind_of_ok hrun]
    refine ⟨some r, _, rfl, fun p hp => ?_, .inr ⟨r, rfl, ?_, ?_⟩⟩
    · have hne : p ≠ r := fun e => hfresh (e ▸ hp)
      exact (Function.update_of_ne hne _ _).trans (hmem p hne)
    · exact blank_rep (pteAt_memset_zero s1.kmem r)
    · rw [blank_pages]
      exact hacct1.congr rfl rfl rfl rfl

/-- **`proc_pagetable`** makes a space with no user memory, or gives back what
    it had taken. -/
theorem procPagetable_spec (hE : E.Ok) (hacct : Acct E s.kmem F) (htf : PageAddr tf) :
    ∃ res s', procPagetable E tf s = .ok (res, s') ∧ (∀ p ∈ F, s'.kmem.mem p = s.kmem.mem p) ∧
      (res = none ∧ Acct E s'.kmem F ∨ ∃ t, res = some t.pa ∧ Space E s' tf t [] F) := by
  obtain ⟨res, s2, hrun2, hframe2, hres⟩ := uvmcreate_spec hE hacct
  unfold procPagetable
  rw [bind_of_ok hrun2]
  rcases hres with ⟨rfl, hacct2⟩ | ⟨r, rfl, hrep, hacct2⟩
  · exact ⟨none, s2, rfl, hframe2, .inl ⟨rfl, hacct2⟩⟩
  · simp only
    obtain ⟨r3, s3, t3, hrun3, hres3⟩ := mappages_page hE (show TRAMPOLINE < MAXVA by decide)
      (by decide) (blank_ne_absent 2 r) hrep hacct2 (by rw [blank_pte]; rfl)
        (trampoline_pageAddr hE)
      (show PTE_R ||| PTE_X < 2 ^ 10 by decide)
    rw [blank_pa] at hrun3
    rw [bind_of_ok hrun3]
    rcases hres3 with ⟨rfl, he3⟩ | ⟨rfl, he3⟩
    · rw [if_pos (by decide)]
      obtain ⟨s4, hrun4, hfr⟩ := uvmfree_empty hE he3.ne he3.rep
        (fun b hb => (he3.pte b hb).trans (blank_pte 2 r b)) he3.acct
      rw [he3.pa, blank_pa] at hrun4
      refine ⟨none, s4, ?_, fun p hp => ?_, .inl ⟨rfl, hfr.acct⟩⟩
      · rw [bind_of_ok hrun4]
        rfl
      · rw [hfr.frame p hp, he3.frame p hp, hframe2 p hp]
    · rw [if_neg (by decide)]
      have hpte3 : ∀ b < VASPACE, t3.pte b
          = withPte (fun _ => 0) TRAMPOLINE (mkPte E.trampoline (PTE_R ||| PTE_X)) b := by
        intro b hb
        rw [he3.pte b hb]
        unfold withPte
        rw [blank_pte]
      obtain ⟨r4, s4, t4, hrun4, hres4⟩ := mappages_page hE (show TRAPFRAME < MAXVA by decide)
        (by decide) he3.ne he3.rep he3.acct
        (by rw [hpte3 _ (by decide), withPte, if_neg (by decide)]; rfl) htf
        (show PTE_R ||| PTE_W < 2 ^ 10 by decide)
      rw [he3.pa, blank_pa] at hrun4
      rw [bind_of_ok hrun4]
      rcases hres4 with ⟨rfl, he4⟩ | ⟨rfl, he4⟩
      · rw [if_pos (by decide)]
        have hpte4 : ∀ b < VASPACE, t4.pte b
            = withPte (fun _ => 0) TRAMPOLINE (mkPte E.trampoline (PTE_R ||| PTE_X)) b :=
          fun b hb => (he4.pte b hb).trans (hpte3 b hb)
        obtain ⟨s5, t5, hrun5, _, he5, _⟩ := uvmunmap_keep hE (show TRAMPOLINE < MAXVA by decide)
          (by decide) he4.rep he4.acct ((hpte4 _ (by decide)).trans (if_pos rfl))
          (trampoline_pageAddr hE) (by decide)
        have hbare : ∀ b < VASPACE, t5.pte b = 0 := by
          intro b hb
          rw [he5.pte b hb, withPte]
          split
          · rfl
          · rename_i hn
            rw [hpte4 b hb, withPte, if_neg hn]
        obtain ⟨s6, hrun6, hfr⟩ := uvmfree_empty hE he5.ne he5.rep hbare he5.acct
        rw [he4.pa, he3.pa, blank_pa] at hrun5
        rw [he5.pa, he4.pa, he3.pa, blank_pa] at hrun6
        refine ⟨none, s6, ?_, fun p hp => ?_, .inl ⟨rfl, hfr.acct⟩⟩
        · rw [bind_of_ok hrun5, bind_of_ok hrun6]
          rfl
        · rw [hfr.frame p hp, he5.frame p hp, he4.frame p hp, he3.frame p hp, hframe2 p hp]
      · rw [if_neg (by decide)]
        have hpa : t4.pa = r := by rw [he4.pa, he3.pa, blank_pa]
        have hm : Moved E s3 tf t3 F s4 t4 [] := Space.of_edit htf he4 (List.Perm.refl _)
          (fun b hb => by
          unfold spacePte withPte
          rw [hpte3 b hb]
          rfl) (by simp)
        refine ⟨some r, s4, rfl, fun p hp => ?_, .inr ⟨t4, by rw [hpa], hm.space⟩⟩
        rw [he4.frame p hp, he3.frame p hp, hframe2 p hp]

/-! ## Copying -/

theorem Leaf.or_valid {perm : Nat} (h : Leaf perm) : Leaf (perm ||| PTE_V) := by
  refine ⟨flags_lt h.1, ?_⟩
  have := h.flags 0
  rwa [mkPte_and h.1 (by decide)] at this

theorem walk_user (hE : E.Ok) (h : Space E s tf t u F) {s' : Phys} (hrep : t.Rep s'.kmem.mem)
    {k : Nat} {x : Nat × Nat} (hx : u[k]? = some x) :
    ∃ b, walk E t.pa (k * PGSIZE) false s' = .ok (some (b, px 0 (k * PGSIZE)), s') ∧
      t.table (k * PGSIZE) = some b ∧
      pteAt s'.kmem.mem b (px 0 (k * PGSIZE)) = mkPte x.1 x.2 := by
  have hk : k < u.length := (List.getElem?_eq_some_iff.mp hx).1
  have hlt : k * PGSIZE < TRAPFRAME :=
    lt_trans (Nat.mul_lt_mul_of_pos_right hk (by decide)) (h.below hE)
  have hva := maxva_of_trapframe hlt
  have hpte : t.pte (k * PGSIZE) = mkPte x.1 x.2 := by
    rw [h.pte _ (vaspace_of_maxva hva), spacePte_user hlt, userPte_page hx]
  have hleaf := h.leaf x (mem_of_getElem? hx)
  obtain ⟨b, hb⟩ := exists_table (t := t) (by rw [hpte]; exact hleaf.ne_zero x.1)
  refine ⟨b, ?_, hb, by rw [hrep.pteAt hb, hpte]⟩
  rw [walk_read hva h.ne hrep h.pageAddr, hb]
  rfl

/-- The loop of `uvmcopy` with the first pages of the parent's memory copied.
    The parent's tables are in the rest of the ledger, so they stay readable. -/
theorem uvmcopyLoop_spec (hE : E.Ok) {s₀ : Phys} {tf0 : Nat} {t0 : PageTree 2}
    {u0 : Pages} {F0 : List Nat} (h0 : Space E s₀ tf0 t0 u0 F0)
    (hsub : ∀ p ∈ t0.pages, p ∈ F) {sz : Nat} (hsz : u0.length = npages sz) :
    ∀ {fuel : Nat} {s : Phys} {t : PageTree 2} {u : Pages}, Space E s tf t u F →
    (∀ p ∈ F, s.kmem.mem p = s₀.kmem.mem p) → u.length ≤ u0.length → 32769 ≤ fuel + u.length →
    ∃ r s' t' u', uvmcopyLoop E t0.pa t.pa sz fuel (u.length * PGSIZE) s = .ok (r, s') ∧
      Moved E s tf t F s' t' u' ∧ (r = -1 ∧ u' = [] ∨ r = 0 ∧ u'.length = u0.length) := by
  intro fuel
  induction fuel with
  | zero =>
    intro s t u h _ _ hfuel
    have := h.length_le hE
    omega
  | succ fuel ih =>
    intro s t u h hframe hle hfuel
    simp only [uvmcopyLoop]
    by_cases hi : u.length * PGSIZE < sz
    · have hlt : u.length < u0.length := by
        rw [hsz]
        exact lt_npages.mpr hi
      obtain ⟨x, hx⟩ := exists_getElem? hlt
      have hleaf := h0.leaf x (mem_of_getElem? hx)
      obtain ⟨b, hwalk, _, hpte⟩ := walk_user hE h0
        (h0.rep.congr fun p hp => hframe p (hsub p hp)) hx
      -- on failure the pages copied so far are unmapped and freed
      have hundo : ∀ {s1 t1}, Moved E s tf t F s1 t1 u → ∃ r s' t' u',
          (do uvmunmap E t.pa 0 (u.length * PGSIZE / PGSIZE) true; pure (-1) : Sys Phys Int) s1
            = .ok (r, s') ∧ Moved E s tf t F s' t' u' ∧
          (r = -1 ∧ u' = [] ∨ r = 0 ∧ u'.length = u0.length) := by
        intro s1 t1 hm
        obtain ⟨s', t', hrun, hm', _, _, _⟩ := uvmunmap_user hE hm.space (Nat.zero_le _)
        rw [Nat.zero_mul, Nat.sub_zero, hm.pa] at hrun
        refine ⟨-1, s', t', [], ?_, hm.trans hm', .inl ⟨rfl, rfl⟩⟩
        rw [Nat.mul_div_cancel _ (by decide), bind_of_ok hrun]
        rfl
      rw [if_pos hi, bind_of_ok hwalk]
      simp only [loadPte, reads_bind_run, hpte]
      rw [if_neg (by rw [mkPte_valid hleaf.1]; decide)]
      cases hka : E.kalloc s.calls s.kmem with
      | none =>
        rw [bind_of_ok (kallocPage_none hE hka)]
        exact hundo ⟨rfl, { h with }, fun _ _ => rfl, fun _ hp => hp⟩
      | some mem =>
        obtain ⟨s1, hrun, hacct, _, _, hmem, _, _⟩ := kallocPage_some hE h.acct hka
        rw [bind_of_ok hrun]
        simp only [reads_bind_run, movePage, modify_bind_run, PTE_FLAGS_mkPte hleaf.1]
        generalize hs2 : s1.setMem _ = s2
        have hacct2 : Acct E s2.kmem (mem :: (t.pages ++ (u.map Prod.fst ++ F))) :=
          hs2 ▸ hacct.congr rfl rfl rfl rfl
        have hmem2 : ∀ p, p ≠ mem → s2.kmem.mem p = s.kmem.mem p := fun p hp =>
          hs2 ▸ (Function.update_of_ne hp _ _).trans (hmem p hp)
        obtain ⟨r, s3, t', hmap, hres⟩ := map_fresh hE h hacct2 hmem2 hleaf.or_valid
        rw [bind_of_ok hmap]
        rcases hres with ⟨rfl, hm, _⟩ | ⟨rfl, s4, hfree, hm, _⟩
        · rw [if_neg (by simp), next_page (h.length_le hE)]
          obtain ⟨r, s', t'', u'', hrun', hm', hres'⟩ := ih hm.space
            (fun p hp => (hm.frame p hp).trans (hframe p hp)) (by simp; omega) (by simp; omega)
          rw [hm.pa, length_append, length_singleton] at hrun'
          exact ⟨r, s', t'', u'', hrun', hm.trans hm', hres'⟩
        · rw [if_pos (by decide), bind_of_ok hfree]
          exact hundo hm
    · rw [if_neg hi]
      refine ⟨0, s, t, u, rfl, h.moved, .inr ⟨rfl, le_antisymm hle ?_⟩⟩
      rw [hsz]
      have := @lt_npages u.length sz
      omega

/-- **`uvmcopy` into an empty space**: a page for each of the parent's, or
    none. -/
theorem uvmcopy_spec (hE : E.Ok) {tf0 : Nat} {t0 : PageTree 2} {u0 : Pages}
    {F0 : List Nat}
    (h0 : Space E s tf0 t0 u0 F0) (h : Space E s tf t [] F) (hsub : ∀ p ∈ t0.pages, p ∈ F)
    {sz : Nat} (hsz : u0.length = npages sz) :
    ∃ r s' t' u', uvmcopy E t0.pa t.pa sz s = .ok (r, s') ∧ Moved E s tf t F s' t' u' ∧
      (r = -1 ∧ u' = [] ∨ r = 0 ∧ u'.length = u0.length) :=
  uvmcopyLoop_spec hE h0 hsub hsz h (fun _ _ => rfl) (Nat.zero_le _)
    (show 32769 ≤ turns + 0 by unfold turns; omega)

end Specs

end Xv6
