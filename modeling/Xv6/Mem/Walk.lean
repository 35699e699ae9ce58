import Xv6.Mem.Vm

/-!
# `walk`, `mappages` and `uvmunmap` on trees

Each of the three is specified by the entries it leaves and by the ledger
(`Edit`): `walk` may add tables and maps nothing, `mappages` sets one entry,
`uvmunmap` clears entries and gives back the pages they mapped. `F` is
everything else in the ledger; memory there does not change, so whatever it
holds, other page tables or user memory, stays.
-/

namespace Xv6

open Function List Sys Nat

variable {E : Env}

open PageTree

theorem Env.Page.pageAddr {p : Nat} (h : E.Page p) : PageAddr p where
  aligned := h.aligned
  lt := by
    have := h.lt
    simp only [PHYSTOP, KERNBASE] at this
    omega

variable {F : List Nat} {b l pa perm va : Nat} {s : Phys} {t : PageTree 2}

theorem link_valid {t : PageTree l} (h : t ≠ absent) : t.link &&& PTE_V ≠ 0 := by
  rw [link_of_ne h, mkPte_valid (by decide)]
  decide

theorem link_pa {t : PageTree l} (h : t ≠ absent) (hpa : PageAddr t.pa) : PTE2PA t.link = t.pa := by
  rw [link_of_ne h, PTE2PA_mkPte hpa (by decide)]

theorem pteAt_memset_zero (k : Kmem) (r : Nat) (j : Fin 512) :
    pteAt (k.memset r 0).mem r j = 0 := by
  change pteAt (update k.mem r ((k.mem r).fill 0 PGSIZE 0)) r j = 0
  unfold pteAt
  rw [update_self]
  exact Bytes.getLE_fill_zero (by omega) (by simp only [PGSIZE]; omega)

/-! ## Looking up -/

/-- `walk` without `alloc` finds the level-0 table, or that there is none. -/
theorem walkFrom_read {t : PageTree l} (hne : t ≠ absent)
    (hrep : t.Rep s.kmem.mem) (hpg : ∀ p ∈ t.pages, PageAddr p) :
    walkFrom E va false l t.pa s = .ok ((t.table va).map fun b => (b, px 0 va), s) := by
  induction t with
  | absent => exact absurd rfl hne
  | leaves pa e => rfl
  | @node l pa kid ih =>
    have hlink := (hrep (px (l + 1) va)).1
    simp only [walkFrom, loadPte, PageTree.pa, reads_bind_run, hlink]
    by_cases hk : kid (px (l + 1) va) = absent
    · simp [hk, link, table]
    · have hsub : ∀ p ∈ (kid (px (l + 1) va)).pages, PageAddr p := fun p hp =>
        hpg p (mem_cons_of_mem _ (mem_gather hp))
      rw [if_pos (link_valid hk), link_pa hk (hsub _ (pa_mem_pages hk))]
      exact ih _ hk (hrep _).2 hsub

theorem walk_read (hva : va < MAXVA) (hne : t ≠ absent)
    (hrep : t.Rep s.kmem.mem) (hpg : ∀ p ∈ t.pages, PageAddr p) :
    walk E t.pa va false s = .ok ((t.table va).map fun b => (b, px 0 va), s) := by
  unfold walk
  rw [if_neg (by omega)]
  exact walkFrom_read hne hrep hpg

/-! ## Changing a page table -/

/-- Addresses that a tree of three levels has entries for, twice as many as
    `walk` accepts. -/
abbrev VASPACE : Nat := 2 ^ 39

theorem vaspace_of_maxva (h : va < MAXVA) : va < VASPACE := by
  simp only [MAXVA, VASPACE] at *
  omega

/-- What a change of a page table asks of `A k L`, a record of the pages `L` in
    use: they are all different, fit an entry, and a page that `kalloc` returns
    is none of them. -/
structure Ledger (E : Env) (A : Kmem → List Nat → Prop) : Prop where
  perm : ∀ {k : Kmem} {L L' : List Nat}, A k L → L.Perm L' → A k L'
  nodup : ∀ {k : Kmem} {L : List Nat}, A k L → L.Nodup
  addr : ∀ {k : Kmem} {L : List Nat}, A k L → ∀ p ∈ L, PageAddr p
  mem : ∀ {k : Kmem} {L : List Nat}, A k L → ∀ m, A { k with mem := m } L
  take : ∀ {s : Phys} {L : List Nat} {r : Nat}, A s.kmem L → E.kalloc s.calls s.kmem = some r →
    A (s.kmem.take E r) (r :: L)

theorem acct_ledger (hE : E.Ok) : Ledger E (Acct E) where
  perm := Acct.perm
  nodup := Acct.nodup_owned
  addr := fun h _ hp => (h.page_of_mem hp).pageAddr
  mem := fun h _ => h.congr rfl rfl rfl rfl
  take := fun h hka => h.take hE (hE.kalloc _ _ _ hka)

/-- Between `s` and `s'` the page table `t` becomes `t'`, with the entries
    `f`. -/
structure EditIn (A : Kmem → List Nat → Prop) {l : Nat} (s : Phys) (t : PageTree l) (F : List Nat)
    (s' : Phys) (t' : PageTree l) (f : Nat → Nat) : Prop where
  ne : t' ≠ absent
  pa : t'.pa = t.pa
  pte : ∀ b < VASPACE, t'.pte b = f b
  rep : t'.Rep s'.kmem.mem
  acct : A s'.kmem (t'.pages ++ F)
  frame : ∀ p ∈ F, s'.kmem.mem p = s.kmem.mem p
  /-- tables are added, none goes -/
  pages : t.pages ⊆ t'.pages
  table : ∀ b pg, t.table b = some pg → t'.table b = some pg

/-- A change under the ledger of the whole kernel. -/
abbrev Edit (E : Env) {l : Nat} (s : Phys) (t : PageTree l) (F : List Nat) (s' : Phys)
    (t' : PageTree l) (f : Nat → Nat) : Prop := EditIn (Acct E) s t F s' t' f

variable {A : Kmem → List Nat → Prop}

namespace EditIn

variable {l : Nat} {s s' s'' : Phys} {t t' t'' : PageTree l} {F F' : List Nat} {f g : Nat → Nat}

theorem refl (hne : t ≠ absent) (hrep : t.Rep s.kmem.mem) (hacct : A s.kmem (t.pages ++ F)) :
    EditIn A s t F s t t.pte :=
  ⟨hne, rfl, fun _ _ => rfl, hrep, hacct, fun _ _ => rfl, fun _ hp => hp, fun _ _ h => h⟩

theorem trans (h : EditIn A s t F s' t' f) (h' : EditIn A s' t' F' s'' t'' g) (hF : F' ⊆ F) :
    EditIn A s t F' s'' t'' g where
  ne := h'.ne
  pa := h'.pa.trans h.pa
  pte := h'.pte
  rep := h'.rep
  acct := h'.acct
  frame := fun p hp => (h'.frame p hp).trans (h.frame p (hF hp))
  pages := fun _ hp => h'.pages (h.pages hp)
  table := fun b pg hb => h'.table b pg (h.table b pg hb)

theorem congr (h : EditIn A s t F s' t' f) (hfg : ∀ b < VASPACE, f b = g b) :
    EditIn A s t F s' t' g :=
  { h with pte := fun b hb => (h.pte b hb).trans (hfg b hb) }

/-- Something before that changed no memory of `F`. -/
theorem mono (h : EditIn A s' t F s'' t' f) (hm : ∀ p ∈ F, s'.kmem.mem p = s.kmem.mem p) :
    EditIn A s t F s'' t' f :=
  { h with frame := fun p hp => (h.frame p hp).trans (hm p hp) }

end EditIn

/-! ## Adding tables -/

section Alloc

variable {l : Nat} {s s' : Phys} {pa r : Nat} {kid : Fin 512 → PageTree l} {i : Fin 512}
  {k' : PageTree l} {F : List Nat}

theorem EditIn.child (hA : Ledger E A) (hrep : (node pa kid).Rep s.kmem.mem) (hk : kid i ≠ absent)
    (h : EditIn A s (kid i) (otherPages pa kid i ++ F) s' k' (kid i).pte) :
    EditIn A s (node pa kid) F s' (node pa (update kid i k')) (node pa kid).pte := by
  have hpa : s'.kmem.mem pa = s.kmem.mem pa :=
    h.frame pa (mem_append_left _ (pa_mem_otherPages _ _ _))
  refine ⟨nofun, rfl, fun b hb => ?_, ?_, ?_, fun p hp => h.frame p (mem_append_right _ hp),
    fun p hp => ?_, fun b pg hb => ?_⟩
  · by_cases hi : px (l + 1) b = i
    · subst hi
      simp only [PageTree.pte, update_self]
      exact h.pte b hb
    · simp only [PageTree.pte, update_of_ne hi]
  · refine hrep.update h.rep ?_ (fun j _ => pteAt_congr hpa j)
      (fun j hj p hp => h.frame p (mem_append_left _ (mem_otherPages hj hp)))
    rw [pteAt_congr hpa, (hrep i).1, link_of_ne hk, link_of_ne h.ne, h.pa]
  · refine hA.perm h.acct ?_
    rw [← append_assoc]
    exact ((pages_update_perm pa kid i k').symm).append_right F
  · rw [(pages_node_perm pa kid i).mem_iff] at hp
    rw [(pages_update_perm pa kid i k').mem_iff]
    exact mem_append.mpr ((mem_append.mp hp).imp_left fun hq => h.pages hq)
  · by_cases hi : px (l + 1) b = i
    · subst hi
      simp only [PageTree.table, update_self] at hb ⊢
      exact h.table b pg hb
    · simpa only [PageTree.table, update_of_ne hi] using hb

/-- A page of zeroes becomes a child table. -/
theorem EditIn.adopt (hA : Ledger E A) (hrep : (node pa kid).Rep s.kmem.mem) (hk : kid i = absent)
    (hacct : A s'.kmem (r :: ((node pa kid).pages ++ F)))
    (hmem : ∀ p, p ≠ r → s'.kmem.mem p = s.kmem.mem p) :
    let s1 := s'.setKmem (s'.kmem.memset r 0)
    EditIn A s (node pa kid) F (s1.setMem (setPte s1.kmem.mem pa i (PA2PTE r ||| PTE_V)))
      (node pa (update kid i (blank l r))) (node pa kid).pte := by
  intro s1
  obtain ⟨hfresh, hnd⟩ := nodup_cons.mp (hA.nodup hacct)
  obtain ⟨hndt, _, hdis⟩ := nodup_append.mp hnd
  have hne : ∀ {p}, p ∈ (node pa kid).pages ++ F → p ≠ r := fun hp e => hfresh (e ▸ hp)
  have hpamem : pa ∈ (node pa kid).pages := mem_cons_self
  have hsub : ∀ {j p}, p ∈ (kid j).pages → p ∈ gather fun j => (kid j).pages := fun hp =>
    mem_gather hp
  have hzero : ∀ p, p ≠ r → s1.kmem.mem p = s.kmem.mem p := fun p hp =>
    (update_of_ne hp _ _).trans (hmem p hp)
  have hlink : PA2PTE r ||| PTE_V = (blank l r).link := by
    rw [blank_link, mkPte, or_zero]
  have hlt : (blank l r).link < 2 ^ 64 := by
    rw [blank_link]
    exact mkPte_lt (hA.addr hacct r mem_cons_self) (by decide)
  have hsame : ∀ {p}, p ≠ pa → p ≠ r →
      setPte s1.kmem.mem pa i (PA2PTE r ||| PTE_V) p = s.kmem.mem p := fun h1 h2 =>
    (setPte_other _ _ _ h1).trans (hzero _ h2)
  refine ⟨nofun, rfl, fun b _ => ?_, ?_, ?_, fun p hp => ?_, fun p hp => ?_, fun b pg hb => ?_⟩
  · by_cases hb : px (l + 1) b = i
    · subst hb
      simp only [PageTree.pte, update_self, blank_pte, hk]
    · simp only [PageTree.pte, update_of_ne hb]
  · refine hrep.update (blank_rep fun j => ?_) ?_ (fun j hj => ?_) (fun j hj p hp => ?_)
    · have hr : r ≠ pa := fun e => hne (mem_append_left _ hpamem) e.symm
      exact (pteAt_congr (setPte_other s1.kmem.mem _ _ hr) j).trans (pteAt_memset_zero s'.kmem r j)
    · rw [hlink]
      exact pteAt_setPte_same _ _ _ hlt
    · exact (pteAt_setPte_ne _ _ _ hj).trans
        (pteAt_congr (hzero pa (hne (mem_append_left _ hpamem))) j)
    · exact hsame (fun e => (nodup_cons.mp hndt).1 (e ▸ hsub hp))
        (hne (mem_append_left _ (mem_cons_of_mem _ (hsub hp))))
  · have h1 := pages_update_perm pa kid i (blank l r)
    have h2 := pages_node_perm pa kid i
    rw [hk] at h2
    rw [blank_pages] at h1
    exact hA.mem (hA.perm hacct ((h1.trans (h2.symm.cons r)).symm.append_right F)) _
  · exact hsame (fun e => hdis pa hpamem p hp e.symm) (hne (mem_append_right _ hp))
  · rw [(pages_node_perm pa kid i).mem_iff, hk] at hp
    rw [(pages_update_perm pa kid i (blank l r)).mem_iff]
    exact mem_append_right _ hp
  · by_cases hi : px (l + 1) b = i
    · simp only [PageTree.table, hi, hk] at hb
      cases hb
    · simpa only [PageTree.table, update_of_ne hi] using hb

end Alloc

/-- **`walk` with `alloc`** adds the tables on the way and maps nothing; out of
    memory, it returns 0 with the tables added so far in place. -/
theorem walkFrom_alloc (hE : E.Ok) (hA : Ledger E A) :
    ∀ {l : Nat} {t : PageTree l} {s : Phys} {F : List Nat},
    t ≠ absent → t.Rep s.kmem.mem → A s.kmem (t.pages ++ F) →
    ∃ res s' t', walkFrom E va true l t.pa s = .ok (res, s') ∧ EditIn A s t F s' t' t.pte ∧
      ∀ x, res = some x → t'.table va = some x.1 ∧ x.2 = px 0 va := by
  intro l
  induction l with
  | zero =>
    intro t s F hne hrep hacct
    cases t with
    | absent => exact absurd rfl hne
    | leaves pa e =>
      refine ⟨_, s, leaves pa e, rfl, .refl hne hrep hacct, ?_⟩
      rintro _ ⟨⟩
      exact ⟨rfl, rfl⟩
  | succ l ih =>
    -- once the child exists, the walk goes on in it
    have below : ∀ {pa : Nat} {kid : Fin 512 → PageTree l} {s : Phys} {F : List Nat},
        (node pa kid).Rep s.kmem.mem → A s.kmem ((node pa kid).pages ++ F) →
        kid (px (l + 1) va) ≠ absent →
        ∃ res s' t', walkFrom E va true l (kid (px (l + 1) va)).pa s = .ok (res, s') ∧
          EditIn A s (node pa kid) F s' t' (node pa kid).pte ∧
          ∀ x, res = some x → t'.table va = some x.1 ∧ x.2 = px 0 va := by
      intro pa kid s F hrep hacct hk
      have hperm := (pages_node_perm pa kid (px (l + 1) va)).append_right F
      rw [append_assoc] at hperm
      obtain ⟨res, s', k', hrun, hedit, hres⟩ := ih hk (hrep _).2 (hA.perm hacct hperm)
      refine ⟨res, s', _, hrun, hedit.child hA hrep hk, fun x hx => ?_⟩
      rw [table, update_self]
      exact hres x hx
    intro t s F hne hrep hacct
    cases t with
    | absent => exact absurd rfl hne
    | node pa kid =>
      simp only [walkFrom, loadPte, PageTree.pa, reads_bind_run, (hrep (px (l + 1) va)).1]
      by_cases hk : kid (px (l + 1) va) = absent
      · rw [if_neg (by simp [hk, link]), if_pos trivial]
        cases hka : E.kalloc s.calls s.kmem with
        | none =>
          rw [bind_of_ok (kallocPage_none hE hka)]
          exact ⟨none, _, node pa kid, rfl, ⟨hne, rfl, fun _ _ => rfl, hrep, hacct, fun _ _ => rfl,
            fun _ hp => hp, fun _ _ hb => hb⟩, by simp⟩
        | some r =>
          let s1 : Phys := { s with calls := s.calls + 1, kmem := s.kmem.take E r }
          have hacct1 : A s1.kmem (r :: ((node pa kid).pages ++ F)) := hA.take hacct hka
          have hadopt := EditIn.adopt hA hrep hk hacct1 fun p hp => Kmem.take_mem_of_ne _ hp
          rw [bind_of_ok (kallocPage_eq_some hE hka)]
          simp only [memsetPage, storePte, modify_bind_run]
          have hk' : update kid (px (l + 1) va) (blank l r) (px (l + 1) va) ≠ absent := by
            rw [update_self]
            exact blank_ne_absent l r
          obtain ⟨res, s'', t'', hrun', hedit, hres⟩ := below hadopt.rep hadopt.acct hk'
          rw [update_self, blank_pa] at hrun'
          exact ⟨res, s'', t'', hrun', (hadopt.trans hedit fun _ h => h).congr hadopt.pte, hres⟩
      · have hpg := hA.addr hacct _ (mem_append_left F (mem_cons_of_mem pa
          (mem_gather (pa_mem_pages hk))))
        rw [if_pos (link_valid hk), link_pa hk hpg]
        exact below hrep hacct hk

theorem walk_alloc (hE : E.Ok) (hA : Ledger E A) (hva : va < MAXVA) (hne : t ≠ absent)
    (hrep : t.Rep s.kmem.mem) (hacct : A s.kmem (t.pages ++ F)) :
    ∃ res s' t', walk E t.pa va true s = .ok (res, s') ∧ EditIn A s t F s' t' t.pte ∧
      ∀ x, res = some x → t'.table va = some x.1 ∧ x.2 = px 0 va := by
  unfold walk
  rw [if_neg (by omega)]
  exact walkFrom_alloc hE hA hne hrep hacct

/-! ## Mapping a page -/

/-- `walk` tells pages apart. -/
theorem sameSlot_iff {a : Nat} (ha : a < MAXVA) (hb : b < VASPACE) :
    SameSlot 2 a b ↔ a / PGSIZE = b / PGSIZE := by
  simp only [MAXVA, VASPACE, PGSIZE] at *
  constructor
  · intro h
    have h0 := h 0 (by omega)
    have h1 := h 1 (by omega)
    have h2 := h 2 (by omega)
    simp only [PX_eq] at h0 h1 h2
    omega
  · intro h i hi
    rw [PX_eq, PX_eq, Nat.pow_add, ← Nat.div_div_eq_div_mul, ← Nat.div_div_eq_div_mul]
    rw [show (2 : Nat) ^ 12 = 4096 from rfl, h]

/-- The entries `f` with the one for the page of `va` replaced. -/
def withPte (f : Nat → Nat) (va v : Nat) : Nat → Nat := fun b =>
  if b / PGSIZE = va / PGSIZE then v else f b

theorem PageTree.pte_set {v : Nat} (h : t.table va ≠ none) (hva : va < MAXVA)
    (hb : b < VASPACE) : (t.set va v).pte b = withPte t.pte va v b := by
  unfold withPte
  split
  · rename_i he
    exact pte_set_same h ((sameSlot_iff hva hb).mpr he.symm)
  · rename_i he
    exact pte_set_other fun hs => he ((sameSlot_iff hva hb).mp hs).symm

theorem EditIn.store (hA : Ledger E A) {v : Nat} (hva : va < MAXVA) (hrep : t.Rep s.kmem.mem)
    (hacct : A s.kmem (t.pages ++ F)) (hb : t.table va = some b) (hv : v < 2 ^ 64) :
    EditIn A s t F (s.setMem (setPte s.kmem.mem b (px 0 va) v)) (t.set va v)
      (withPte t.pte va v) := by
  obtain ⟨hnd, _, hdis⟩ := nodup_append.mp (hA.nodup hacct)
  have hne : t ≠ absent := by
    rintro rfl
    cases hb
  refine ⟨set_ne_absent hne _ _, set_pa _ _ _, fun c hc => pte_set (by rw [hb]; exact nofun) hva hc,
    hrep.set hnd hb hv, ?_, fun p hp => ?_, by rw [set_pages]; exact fun _ hp => hp,
    fun c pg hc => by rw [set_table]; exact hc⟩
  · rw [set_pages]
    exact hA.mem hacct _
  · exact setPte_other _ _ _ fun e => hdis b (table_mem_pages hb) p hp e.symm

theorem PageTree.Rep.pteAt {m : Nat → Bytes} {t : PageTree l} (h : t.Rep m)
    (hb : t.table va = some b) : pteAt m b (px 0 va) = t.pte va := by
  induction t with
  | absent => cases hb
  | leaves pa e =>
    obtain rfl : pa = b := Option.some.inj hb
    exact h _
  | @node l pa kid ih => exact ih _ (h _).2 hb

section

variable (hE : E.Ok) (hva : va < MAXVA) (halign : va % PGSIZE = 0) (hne : t ≠ absent)
    (hrep : t.Rep s.kmem.mem)

include hE hva halign hne hrep

/-- **`mappages` of one page**: the entry is set, or a table could not be
    had. -/
theorem mappages_page (hacct : Acct E s.kmem (t.pages ++ F))
    (hfree : t.pte va &&& PTE_V = 0) (hpa : PageAddr pa) (hperm : perm < 2 ^ 10) :
    ∃ r s' t', mappages E t.pa va PGSIZE pa perm s = .ok (r, s') ∧
      (r = -1 ∧ Edit E s t F s' t' t.pte ∨
        r = 0 ∧ Edit E s t F s' t' (withPte t.pte va (mkPte pa perm))) := by
  have hdown : PGROUNDDOWN va = va := by
    unfold PGROUNDDOWN
    simp only [PGSIZE] at *
    omega
  have hlast : PGROUNDDOWN ((va + PGSIZE - 1) % 2 ^ 64) = va := by
    unfold PGROUNDDOWN
    simp only [PGSIZE, MAXVA] at *
    omega
  obtain ⟨res, s1, t1, hrun, hedit, hres⟩ := walk_alloc hE (acct_ledger hE) hva hne hrep hacct
  unfold mappages
  rw [if_neg (by decide), hdown, hlast, turns]
  simp only [mappagesLoop]
  rw [bind_of_ok hrun]
  cases res with
  | none => exact ⟨-1, s1, t1, rfl, .inl ⟨rfl, hedit⟩⟩
  | some x =>
    obtain ⟨pg, i⟩ := x
    obtain ⟨htab, rfl⟩ := hres _ rfl
    have hzero : pteAt s1.kmem.mem pg (px 0 va) &&& PTE_V = 0 := by
      rw [hedit.rep.pteAt htab, hedit.pte va (vaspace_of_maxva hva), hfree]
    simp only [loadPte, storePte, reads_bind_run]
    rw [if_neg (not_not_intro hzero)]
    simp only [modify_bind_run, if_true]
    have hst := EditIn.store (acct_ledger hE) hva hedit.rep hedit.acct htab (mkPte_lt hpa hperm)
    refine ⟨0, _, _, rfl, .inr ⟨rfl, (hedit.trans hst fun _ h => h).congr fun b hb => ?_⟩⟩
    unfold withPte
    rw [hedit.pte b hb]

/-- A page that has been allocated is mapped, or freed again because `mappages`
    failed. The tables that were added stay. -/
theorem mappages_fresh {mem : Nat} (hacct : Acct E s.kmem (mem :: (t.pages ++ F)))
    (hfree : t.pte va &&& PTE_V = 0) (hperm : perm < 2 ^ 10) :
    ∃ r s2 t', mappages E t.pa va PGSIZE mem perm s = .ok (r, s2) ∧
      (r = 0 ∧ Edit E s t (mem :: F) s2 t' (withPte t.pte va (mkPte mem perm)) ∨
        r = -1 ∧ ∃ s', kfreePage E mem s2 = .ok ((), s') ∧ Edit E s t F s' t' t.pte) := by
  have hpg : PageAddr mem := (hacct.page_of_mem mem_cons_self).pageAddr
  obtain ⟨r, s2, t', hrun, hres⟩ := mappages_page hE hva halign hne hrep
    (hacct.perm perm_middle.symm) hfree hpg hperm
  refine ⟨r, s2, t', hrun, ?_⟩
  rcases hres with ⟨rfl, hedit⟩ | ⟨rfl, hedit⟩
  · have hacct2 := hedit.acct.perm perm_middle
    obtain ⟨s', hkfree, hacct', hmem, _, _⟩ := kfreePage_spec hE hacct2
    have hnew := (nodup_cons.mp hacct2.nodup_owned).1
    have hkeep : ∀ p ∈ t'.pages ++ F, s'.kmem.mem p = s2.kmem.mem p := fun p hp =>
      hmem p fun e => hnew (e ▸ hp)
    refine .inr ⟨rfl, s', hkfree, { hedit with
      rep := hedit.rep.congr fun p hp => hkeep p (mem_append_left _ hp)
      acct := hacct'
      frame := fun p hp => ?_ }⟩
    rw [hkeep p (mem_append_right _ hp), hedit.frame p (mem_cons_of_mem _ hp)]
  · exact .inl ⟨rfl, hedit⟩

end

/-! ## Removing mappings -/

/-- Flags of an entry that maps a page: at least one of R, W, X is set. -/
def Leaf (perm : Nat) : Prop := perm < 2 ^ 10 ∧ perm &&& (PTE_R ||| PTE_W ||| PTE_X) ≠ 0

instance : DecidablePred Leaf := fun _ => inferInstanceAs (Decidable (_ ∧ _))

theorem Leaf.flags (h : Leaf perm) (pa : Nat) :
    mkPte pa perm &&& (PTE_R ||| PTE_W ||| PTE_X) ≠ 0 := by
  rw [mkPte_and h.1 (by decide), and_or_distrib_right]
  intro h0
  have := Nat.or_eq_zero_iff.mp h0
  exact h.2 this.1

theorem Leaf.ne_valid (h : Leaf perm) (pa : Nat) : PTE_FLAGS (mkPte pa perm) ≠ PTE_V := by
  rw [PTE_FLAGS_mkPte h.1]
  intro he
  have hf := h.flags pa
  rw [mkPte_and h.1 (by decide), he] at hf
  exact hf (by decide)

theorem Leaf.ne_zero (h : Leaf perm) (pa : Nat) : mkPte pa perm ≠ 0 := by
  intro he
  exact h.flags pa (by rw [he, zero_and])

theorem exists_table {t : PageTree l} (h : t.pte va ≠ 0) : ∃ b, t.table va = some b := by
  cases hb : t.table va with
  | none => exact absurd (pte_of_no_table hb) h
  | some b => exact ⟨b, rfl⟩

/-- One turn of `uvmunmap` finds the entry and clears it. -/
theorem uvmunmapLoop_turn {n : Nat} {doFree : Bool} (hva : va < MAXVA) (hrep : t.Rep s.kmem.mem)
    (hpg : ∀ p ∈ t.pages, PageAddr p) (hb : t.table va = some b) (hpte : t.pte va = mkPte pa perm)
    (hpa : PageAddr pa) (hperm : Leaf perm) :
    uvmunmapLoop E t.pa doFree (n + 1) va s =
      (do
        if doFree then kfreePage E pa else pure ()
        storePte b (px 0 va) 0
        uvmunmapLoop E t.pa doFree n (va + PGSIZE)) s := by
  have hne : t ≠ absent := by
    rintro rfl
    cases hb
  rw [uvmunmapLoop, bind_of_ok (walk_read hva hne hrep hpg), hb]
  simp only [Option.map_some, loadPte, reads_bind_run, hrep.pteAt hb, hpte]
  rw [if_neg (by rw [mkPte_valid hperm.1]; decide), if_neg (hperm.ne_valid pa),
    PTE2PA_mkPte hpa hperm.1]

/-- Below `MAXVA` the bound of the loop does not overflow. -/
theorem uvmunmap_eq {pagetable npages : Nat} (doFree : Bool) (halign : va % PGSIZE = 0)
    (hroom : va + npages * PGSIZE ≤ MAXVA) :
    uvmunmap E pagetable va npages doFree = uvmunmapLoop E pagetable doFree npages va := by
  have hturns : ((va + npages * PGSIZE) % 2 ^ 64 - va) / PGSIZE = npages := by
    simp only [PGSIZE, MAXVA] at *
    omega
  rw [uvmunmap, if_neg (by omega), hturns]

theorem uvmunmap_keep (hE : E.Ok) (hva : va < MAXVA) (halign : va % PGSIZE = 0)
    (hrep : t.Rep s.kmem.mem) (hacct : Acct E s.kmem (t.pages ++ F))
    (hpte : t.pte va = mkPte pa perm) (hpa : PageAddr pa) (hperm : Leaf perm) :
    ∃ s' t', uvmunmap E t.pa va 1 false s = .ok ((), s') ∧ t'.pages = t.pages ∧
      Edit E s t F s' t' (withPte t.pte va 0) ∧ s'.freed = s.freed := by
  have hne : t.pte va ≠ 0 := by
    rw [hpte]
    exact hperm.ne_zero pa
  obtain ⟨b, hb⟩ := exists_table hne
  have hpg : ∀ p ∈ t.pages, PageAddr p := fun p hp =>
    (hacct.page_of_mem (mem_append_left _ hp)).pageAddr
  refine ⟨_, t.set va 0, ?_, set_pages _ _ _, EditIn.store (acct_ledger hE) hva hrep hacct hb
    (by decide), rfl⟩
  rw [uvmunmap_eq false halign (by simp only [PGSIZE, MAXVA] at *; omega),
    uvmunmapLoop_turn hva hrep hpg hb hpte hpa hperm]
  rfl

/-- The entries `f` with those for `n` pages from `va` on cleared. -/
def cleared (f : Nat → Nat) (va n : Nat) : Nat → Nat := fun b =>
  if va / PGSIZE ≤ b / PGSIZE ∧ b / PGSIZE < va / PGSIZE + n then 0 else f b

theorem cleared_succ (f : Nat → Nat) (va n b : Nat) :
    cleared (withPte f va 0) (va + PGSIZE) n b = cleared f va (n + 1) b := by
  have hq : (va + PGSIZE) / PGSIZE = va / PGSIZE + 1 := add_div_right va (by decide)
  unfold cleared withPte
  rw [hq]
  split_ifs <;> first | rfl | omega

/-- The pages of a program from address 0 on, each with the flags it is mapped
    with. -/
abbrev Pages : Type := List (Nat × Nat)

/-- The tables and the pages of each of `n` address spaces. -/
abbrev Spaces (n : Nat) : Type := Fin n → PageTree 2 × Pages

/-- **`uvmunmap` with `do_free`** clears the entries of consecutive pages and
    frees what they mapped, each once and in order. -/
theorem uvmunmapLoop_free (hE : E.Ok) : ∀ {us : Pages} {s : Phys}
    {t : PageTree 2} {va : Nat}, t ≠ absent → va + us.length * PGSIZE ≤ MAXVA → t.Rep s.kmem.mem →
    Acct E s.kmem (t.pages ++ (us.map Prod.fst ++ F)) → (∀ x ∈ us, Leaf x.2) →
    (∀ i x, us[i]? = some x → t.pte (va + i * PGSIZE) = mkPte x.1 x.2) →
    ∃ s' t', uvmunmapLoop E t.pa true us.length va s = .ok ((), s') ∧ t'.pages = t.pages ∧
      Edit E s t F s' t' (cleared t.pte va us.length) ∧ s'.freed = s.freed ++ us.map Prod.fst := by
  intro us
  induction us with
  | nil =>
    intro s t va hne _ hrep hacct _ _
    refine ⟨s, t, rfl, rfl, (EditIn.refl hne hrep hacct).congr fun b _ => ?_, (append_nil _).symm⟩
    rw [cleared, if_neg (by simp only [length_nil]; omega)]
  | cons x us ih =>
    intro s t va hne hroom hrep hacct hleaf hpte
    simp only [length_cons] at hroom ⊢
    have hva : va < MAXVA := by
      simp only [PGSIZE] at hroom
      omega
    have hx : t.pte va = mkPte x.1 x.2 := by simpa using hpte 0 x rfl
    have hlx := hleaf x mem_cons_self
    have hmapped : t.pte va ≠ 0 := by
      rw [hx]
      exact hlx.ne_zero _
    obtain ⟨b, hb⟩ := exists_table hmapped
    have hpg : ∀ p ∈ t.pages, PageAddr p := fun p hp =>
      (hacct.page_of_mem (mem_append_left _ hp)).pageAddr
    have hpx : PageAddr x.1 := (hacct.page_of_mem (by simp)).pageAddr
    rw [uvmunmapLoop_turn hva hrep hpg hb hx hpx hlx, if_pos rfl]
    -- the page goes back, which leaves the tables alone
    have hacct1 : Acct E s.kmem (x.1 :: (t.pages ++ (us.map Prod.fst ++ F))) :=
      hacct.perm perm_middle
    obtain ⟨s1, hfree, hacct2, hmem, hfreed, _⟩ := kfreePage_spec hE hacct1
    have hfresh := (nodup_cons.mp hacct1.nodup_owned).1
    have hne1 : ∀ p ∈ t.pages ++ (us.map Prod.fst ++ F), s1.kmem.mem p = s.kmem.mem p :=
      fun p hp => hmem p fun e => hfresh (e ▸ hp)
    have hrep1 := hrep.congr fun p hp => hne1 p (mem_append_left _ hp)
    have hst := EditIn.store (acct_ledger hE) hva hrep1 hacct2 hb (v := 0) (by decide)
    have hnext : ∀ i y, us[i]? = some y →
        (t.set va 0).pte (va + PGSIZE + i * PGSIZE) = mkPte y.1 y.2 := by
      intro i y hy
      have hlt : i < us.length := (List.getElem?_eq_some_iff.mp hy).1
      have hadd : va + PGSIZE + i * PGSIZE = va + (i + 1) * PGSIZE := by
        simp only [PGSIZE]
        omega
      rw [hadd, hst.pte _ (vaspace_of_maxva (by simp only [PGSIZE] at *; omega)), withPte,
        if_neg (by simp only [PGSIZE]; omega)]
      exact hpte (i + 1) y hy
    obtain ⟨s', t', hrun, hpages, hedit, hfreed'⟩ := ih hst.ne
      (by simp only [PGSIZE] at *; omega) hst.rep hst.acct
      (fun y hy => hleaf y (mem_cons_of_mem _ hy)) hnext
    rw [set_pa] at hrun
    refine ⟨s', t', ?_, hpages.trans (set_pages _ _ _), ?_, ?_⟩
    · rw [bind_of_ok hfree]
      exact hrun
    · refine ((hst.trans hedit fun p hp => mem_append_right _ hp).congr fun c hc => ?_).mono ?_
      · rw [← cleared_succ]
        unfold cleared
        rw [hst.pte c hc]
      · exact fun p hp => hne1 p (mem_append_right _ (mem_append_right _ hp))
    · rw [hfreed']
      change s1.freed ++ _ = _
      rw [hfreed, append_assoc]
      rfl

end Xv6
