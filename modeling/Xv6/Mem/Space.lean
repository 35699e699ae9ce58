import Xv6.Mem.Freewalk

/-!
# A user address space

What a process's page table is for: user memory from 0 on, one entry for each
page, and at the top the trampoline and the trapframe. `Space` ties that to the
tree in memory and to the ledger, which has the pages of the tree and of user
memory on the space's account. Growing adds pages at the end of user memory and
shrinking takes them off, so each operation is specified by the list of pages it
leaves.
-/

namespace Xv6

open Function List Sys Nat

variable {E : Env}

open PageTree

/-! ## Sizes -/

/-- The number of pages that `sz` bytes take. -/
def npages (sz : Nat) : Nat := (sz + PGSIZE - 1) / PGSIZE

theorem PGROUNDUP_eq {sz : Nat} (h : sz + PGSIZE ≤ 2 ^ 64) : PGROUNDUP sz = npages sz * PGSIZE := by
  unfold PGROUNDUP npages
  rw [mod_eq_of_lt (by simp only [PGSIZE] at *; omega)]
  rfl

theorem npages_mono {a b : Nat} (h : a ≤ b) : npages a ≤ npages b := by
  unfold npages
  simp only [PGSIZE]
  omega

variable {k : Nat} {s s' : Phys} {u : Pages}

theorem lt_npages {sz : Nat} : k < npages sz ↔ k * PGSIZE < sz := by
  unfold npages
  simp only [PGSIZE]
  omega

theorem le_npages_mul (sz : Nat) : sz ≤ npages sz * PGSIZE := by
  unfold npages
  simp only [PGSIZE]
  omega

theorem npages_zero : npages 0 = 0 := rfl

@[simp] theorem npages_mul (k : Nat) : npages (k * PGSIZE) = k := by
  unfold npages
  simp only [PGSIZE]
  omega

theorem length_le_of_pages (hE : E.Ok) {L : List Nat} (hnodup : L.Nodup) (h : ∀ p ∈ L, E.Page p) :
    L.length ≤ 32768 := by
  have hnd : (L.map E.PGNUM).Nodup :=
    hnodup.map_on fun p hp q hq e => (h p hp).num_inj hE (h q hq) e
  have hsub : L.map E.PGNUM ⊆ List.range 32768 := by
    intro x hx
    obtain ⟨p, hp, rfl⟩ := mem_map.mp hx
    obtain ⟨h1, h2, h3⟩ := (h p hp).addr hE
    exact mem_range.mpr (hE.pgnum.lt p h1 h2 h3)
  simpa using (subperm_of_subset hnd hsub).length_le

theorem Acct.length_le (hE : E.Ok) {k : Kmem} {L : List Nat} (h : Acct E k L) : L.length ≤ 32768 :=
  length_le_of_pages hE h.nodup_owned fun _ hp => h.page_of_mem hp

theorem trampoline_pageAddr (hE : E.Ok) : PageAddr E.trampoline where
  aligned := hE.text.1
  lt := by
    have h1 := hE.text.2
    have h2 := hE.stop
    simp only [PHYSTOP, KERNBASE] at h2
    omega

/-- Address arithmetic does not wrap on user memory. -/
theorem next_page (h : k ≤ 32768) : (k * PGSIZE + PGSIZE) % 2 ^ 64 = (k + 1) * PGSIZE := by
  simp only [PGSIZE]
  omega

theorem maxva_of_trapframe {b : Nat} (h : b < TRAPFRAME) : b < MAXVA := by
  simp only [TRAPFRAME, TRAMPOLINE, MAXVA] at *
  omega

/-! ## The entries of an address space -/

/-- The entry for user memory `u`, a page and its flags for each page number. -/
def userPte (u : Pages) (b : Nat) : Nat :=
  match u[b / PGSIZE]? with
  | some x => mkPte x.1 x.2
  | none => 0

/-- The entries `f` with those of the pages `u`, from address 0 on, laid over
    them. -/
def overlaid (f : Nat → Nat) (u : Pages) (b : Nat) : Nat :=
  match u[b / PGSIZE]? with
  | some x => mkPte x.1 x.2
  | none => f b

theorem overlaid_append (f : Nat → Nat) (u : Pages) (x : Nat × Nat) (b : Nat) :
    withPte (overlaid f u) (u.length * PGSIZE) (mkPte x.1 x.2) b = overlaid f (u ++ [x]) b := by
  have hq : u.length * PGSIZE / PGSIZE = u.length := Nat.mul_div_cancel _ (by decide)
  unfold withPte overlaid
  rw [hq]
  rcases lt_trichotomy (b / PGSIZE) u.length with hb | hb | hb
  · rw [if_neg hb.ne, getElem?_append_left hb]
  · rw [if_pos hb, hb, getElem?_concat_length]
  · rw [if_neg hb.ne', getElem?_eq_none hb.le, getElem?_eq_none (by simp; omega)]

def spacePte (E : Env) (tf : Nat) (u : Pages) : Nat → Nat :=
  withPte (withPte (userPte u) TRAMPOLINE (mkPte E.trampoline (PTE_R ||| PTE_X)))
    TRAPFRAME (mkPte tf (PTE_R ||| PTE_W))

section Entries

variable {tf : Nat} {u : Pages}

theorem userPte_of_ge {b : Nat} (h : u.length ≤ b / PGSIZE) : userPte u b = 0 := by
  unfold userPte
  rw [getElem?_eq_none h]

theorem userPte_page {k : Nat} {x : Nat × Nat} (h : u[k]? = some x) :
    userPte u (k * PGSIZE) = mkPte x.1 x.2 := by
  unfold userPte
  rw [Nat.mul_div_cancel _ (by decide), h]

theorem spacePte_user {b : Nat} (h : b < TRAPFRAME) : spacePte E tf u b = userPte u b := by
  unfold spacePte withPte
  simp only [TRAPFRAME, TRAMPOLINE, MAXVA, PGSIZE] at *
  rw [if_neg (by omega), if_neg (by omega)]

theorem spacePte_trapframe : spacePte E tf u TRAPFRAME = mkPte tf (PTE_R ||| PTE_W) := by
  unfold spacePte withPte
  rw [if_pos rfl]

theorem spacePte_trampoline :
    spacePte E tf u TRAMPOLINE = mkPte E.trampoline (PTE_R ||| PTE_X) := by
  unfold spacePte withPte
  rw [if_neg (by decide), if_pos rfl]

theorem spacePte_append (hu : u.length * PGSIZE < TRAPFRAME) (x : Nat × Nat) (b : Nat) :
    withPte (spacePte E tf u) (u.length * PGSIZE) (mkPte x.1 x.2) b
      = spacePte E tf (u ++ [x]) b := by
  have hq : u.length * PGSIZE / PGSIZE = u.length := Nat.mul_div_cancel _ (by decide)
  rw [withPte, hq]
  by_cases hb : b / PGSIZE = u.length
  · have hlt : b < TRAPFRAME := by
      simp only [TRAPFRAME, TRAMPOLINE, MAXVA, PGSIZE] at *
      omega
    rw [if_pos hb, spacePte_user hlt, userPte, hb, getElem?_concat_length]
  · rw [if_neg hb]
    unfold spacePte withPte
    have huser : userPte (u ++ [x]) b = userPte u b := by
      rcases Nat.lt_or_gt_of_ne hb with hlt | hgt
      · rw [userPte, getElem?_append_left hlt, userPte]
      · rw [userPte_of_ge (u := u) (by omega), userPte_of_ge (by simp; omega)]
    rw [huser]

theorem cleared_spacePte (hu : u.length * PGSIZE < TRAPFRAME) {k : Nat} (b : Nat) :
    cleared (spacePte E tf u) (k * PGSIZE) (u.length - k) b = spacePte E tf (u.take k) b := by
  have hq : k * PGSIZE / PGSIZE = k := Nat.mul_div_cancel _ (by decide)
  unfold cleared
  rw [hq]
  split
  · rename_i hb
    have hlt : b < TRAPFRAME := by
      simp only [PGSIZE] at *
      omega
    rw [spacePte_user hlt, userPte_of_ge]
    simp only [length_take]
    omega
  · rename_i hb
    have huser : userPte (u.take k) b = userPte u b := by
      by_cases hk : b / PGSIZE < k
      · unfold userPte
        rw [getElem?_take_of_lt hk]
      · rw [userPte_of_ge (u := u) (by omega),
          userPte_of_ge (by simp only [length_take]; omega)]
    unfold spacePte withPte
    rw [huser]

end Entries

/-! ## Address spaces in memory -/

/-- Memory holds the page table `t` of an address space with user memory `u` and
    trapframe `tf`; its pages are on its account, and `F` is the rest of the
    ledger. -/
structure Space (E : Env) (s : Phys) (tf : Nat) (t : PageTree 2) (u : Pages)
    (F : List Nat) :
    Prop where
  ne : t ≠ absent
  rep : t.Rep s.kmem.mem
  pte : ∀ b < VASPACE, t.pte b = spacePte E tf u b
  leaf : ∀ x ∈ u, Leaf x.2
  acct : Acct E s.kmem (t.pages ++ (u.map Prod.fst ++ F))
  trapframe : PageAddr tf

/-- Between `s` and `s'` the address space changes, and nothing else. -/
structure Moved (E : Env) (s : Phys) (tf : Nat) (t : PageTree 2) (F : List Nat) (s' : Phys)
    (t' : PageTree 2) (u' : Pages) : Prop where
  pa : t'.pa = t.pa
  space : Space E s' tf t' u' F
  frame : ∀ p ∈ F, s'.kmem.mem p = s.kmem.mem p
  /-- tables are added, none goes -/
  tables : t.pages ⊆ t'.pages

/-- The pages `u` of user memory hold what they held. -/
def Kept (u : Pages) (s s' : Phys) : Prop :=
  ∀ p ∈ u.map Prod.fst, s'.kmem.mem p = s.kmem.mem p

namespace Space

variable {s s' : Phys} {tf : Nat} {t t' : PageTree 2} {u u' : Pages} {F F' : List Nat}

section

variable (hE : E.Ok) (h : Space E s tf t u F)

include hE h

theorem length_le : u.length ≤ 32768 := by
  have := h.acct.length_le hE
  simp only [length_append, length_map] at this
  omega

/-- User memory ends below the trapframe: there are not that many pages. -/
theorem below : u.length * PGSIZE < TRAPFRAME := by
  have := h.length_le hE
  simp only [TRAPFRAME, TRAMPOLINE, MAXVA, PGSIZE]
  omega

theorem size_le {sz : Nat} (hsz : u.length = npages sz) : sz ≤ 32768 * PGSIZE := by
  have hle := h.length_le hE
  have := @lt_npages 32768 sz
  omega

theorem roundup {sz : Nat} (hsz : u.length = npages sz) : PGROUNDUP sz = u.length * PGSIZE := by
  have := h.size_le hE hsz
  rw [hsz, PGROUNDUP_eq (by simp only [PGSIZE] at *; omega)]

/-- The page table lies in memory, so it is not the null pointer. -/
theorem pa_ne_zero : t.pa ≠ 0 := by
  have hram := ((h.acct.page_of_mem (mem_append_left _ (pa_mem_pages h.ne))).addr hE).2.1
  simp only [KERNBASE] at hram
  omega

end

theorem pageAddr (h : Space E s tf t u F) : ∀ p ∈ t.pages, PageAddr p := fun _ hp =>
  (h.acct.page_of_mem (mem_append_left _ hp)).pageAddr

theorem user_pageAddr (h : Space E s tf t u F) {x : Nat × Nat} (hx : x ∈ u) : PageAddr x.1 :=
  (h.acct.page_of_mem (mem_append_right _ (mem_append_left _
    (mem_map_of_mem hx)))).pageAddr

theorem congr (h : Space E s tf t u F) (hmem : ∀ p ∈ t.pages, s'.kmem.mem p = s.kmem.mem p)
    (hacct : Acct E s'.kmem (t.pages ++ (u.map Prod.fst ++ F'))) : Space E s' tf t u F' :=
  { h with rep := h.rep.congr hmem, acct := hacct }

theorem moved (h : Space E s tf t u F) : Moved E s tf t F s t u :=
  ⟨rfl, h, fun _ _ => rfl, fun _ hp => hp⟩

/-- An edit of the tables is a change of the space if the entries fit. -/
theorem of_edit (htf : PageAddr tf) {G : List Nat} {f : Nat → Nat} (he : Edit E s t G s' t' f)
    (hG : G.Perm (u'.map Prod.fst ++ F)) (hf : ∀ b < VASPACE, f b = spacePte E tf u' b)
    (hleaf : ∀ x ∈ u', Leaf x.2) : Moved E s tf t F s' t' u' where
  pa := he.pa
  space :=
    { ne := he.ne
      rep := he.rep
      pte := fun b hb => (he.pte b hb).trans (hf b hb)
      leaf := hleaf
      acct := he.acct.perm (hG.append_left _)
      trapframe := htf }
  frame := fun p hp => he.frame p (hG.mem_iff.mpr (mem_append_right _ hp))
  tables := he.pages

end Space

namespace Moved

variable {s s' s'' : Phys} {tf : Nat} {t t' t'' : PageTree 2} {u' u'' : Pages}
  {F : List Nat}

theorem trans (h : Moved E s tf t F s' t' u') (h' : Moved E s' tf t' F s'' t'' u'') :
    Moved E s tf t F s'' t'' u'' :=
  ⟨h'.pa.trans h.pa, h'.space, fun p hp => (h'.frame p hp).trans (h.frame p hp),
    fun _ hp => h'.tables (h.tables hp)⟩

theorem mono (h : Moved E s' tf t F s'' t' u') (hm : ∀ p ∈ F, s'.kmem.mem p = s.kmem.mem p) :
    Moved E s tf t F s'' t' u' :=
  { h with frame := fun p hp => (h.frame p hp).trans (hm p hp) }

end Moved

theorem Kept.after_take {s'' : Phys}
    (h' : Kept (u.take k) s' s'') (h : Kept u s s') : Kept (u.take k) s s'' := by
  intro p hp
  obtain ⟨x, hx, rfl⟩ := mem_map.mp hp
  exact (h' _ hp).trans (h _ (mem_map_of_mem (mem_of_mem_take hx)))

/-! ## Contents -/

/-- The byte at `va` of user memory `u`; 0 beyond its end. -/
def cell (u : Pages) (m : Nat → Bytes) (va : Nat) : UInt8 :=
  match u[va / PGSIZE]? with
  | some x => m x.1 (va % PGSIZE)
  | none => 0

theorem Kept.cell (h : Kept u s s') : cell u s'.kmem.mem = cell u s.kmem.mem := by
  funext va
  unfold Xv6.cell
  split
  · rename_i x hx
    rw [h x.1 (mem_map_of_mem (mem_of_getElem? hx))]
  · rfl

theorem cell_flags {u' : Pages} (h : u'.map Prod.fst = u.map Prod.fst)
    (m : Nat → Bytes) : cell u' m = cell u m := by
  funext va
  have hpage : (u'[va / PGSIZE]?).map Prod.fst = (u[va / PGSIZE]?).map Prod.fst := by
    rw [← getElem?_map, ← getElem?_map, h]
  unfold cell
  cases hx : u[va / PGSIZE]? with
  | none =>
    rw [hx, Option.map_none, Option.map_eq_none_iff] at hpage
    rw [hpage]
  | some x =>
    rw [hx, Option.map_some, Option.map_eq_some_iff] at hpage
    obtain ⟨y, hy, hxy⟩ := hpage
    rw [hy]
    show m y.1 _ = m x.1 _
    rw [hxy]

/-- A page of zeroes at the end of user memory adds nothing to what it holds. -/
theorem Kept.cell_append {x : Nat × Nat} (h : Kept u s s')
    (hz : ∀ o < PGSIZE, s'.kmem.mem x.1 o = 0) :
    Xv6.cell (u ++ [x]) s'.kmem.mem = Xv6.cell u s.kmem.mem := by
  rw [← h.cell]
  funext va
  unfold Xv6.cell
  rcases lt_trichotomy (va / PGSIZE) u.length with hlt | heq | hgt
  · rw [getElem?_append_left hlt]
  · rw [heq, getElem?_concat_length, getElem?_eq_none le_rfl]
    exact hz _ (mod_lt _ (by decide))
  · rw [getElem?_eq_none hgt.le, getElem?_eq_none (by simp; omega)]

/-! ## Shrinking -/

section Specs

variable {s : Phys} {tf : Nat} {t : PageTree 2} {u : Pages} {F : List Nat}

section

variable (hE : E.Ok) (h : Space E s tf t u F)

include hE h

theorem uvmunmap_user {k : Nat} (hk : k ≤ u.length) :
    ∃ s' t', uvmunmap E t.pa (k * PGSIZE) (u.length - k) true s = .ok ((), s') ∧
      Moved E s tf t F s' t' (u.take k) ∧ t'.pages = t.pages ∧
      s'.freed = s.freed ++ (u.drop k).map Prod.fst ∧ Kept (u.take k) s s' := by
  have hbelow := h.below hE
  have hlen : (u.drop k).length = u.length - k := length_drop
  have hledger : (t.pages ++ (u.map Prod.fst ++ F)).Perm
      (t.pages ++ ((u.drop k).map Prod.fst ++ ((u.take k).map Prod.fst ++ F))) := by
    refine List.Perm.append_left _ ?_
    conv_lhs => rw [← take_append_drop k u, map_append]
    rw [← append_assoc]
    exact perm_append_comm.append_right F
  have hpte : ∀ i x, (u.drop k)[i]? = some x →
      t.pte (k * PGSIZE + i * PGSIZE) = mkPte x.1 x.2 := by
    intro i x hx
    rw [getElem?_drop] at hx
    have hi : k + i < u.length := (List.getElem?_eq_some_iff.mp hx).1
    have hlt : (k + i) * PGSIZE < TRAPFRAME :=
      lt_trans (Nat.mul_lt_mul_of_pos_right hi (by decide)) hbelow
    rw [← Nat.add_mul, h.pte _ (vaspace_of_maxva (maxva_of_trapframe hlt)), spacePte_user hlt,
      userPte_page hx]
  obtain ⟨s', t', hrun, hpages, hedit, hfreed⟩ := uvmunmapLoop_free hE h.ne
    (by rw [hlen, ← Nat.add_mul, Nat.add_sub_cancel' hk]; exact (maxva_of_trapframe hbelow).le)
    h.rep
    (h.acct.perm hledger) (fun x hx => h.leaf x (mem_of_mem_drop hx)) hpte
  rw [hlen] at hrun hedit
  refine ⟨s', t', ?_, Space.of_edit h.trapframe hedit (List.Perm.refl _) (fun b hb => ?_)
    (fun x hx => h.leaf x (mem_of_mem_take hx)), hpages, hfreed,
    fun p hp => hedit.frame p (mem_append_left _ hp)⟩
  · rw [uvmunmap_eq true (mul_mod_left _ _)
      (by rw [← Nat.add_mul, Nat.add_sub_cancel' hk]; exact (maxva_of_trapframe hbelow).le)]
    exact hrun
  · rw [← cleared_spacePte hbelow]
    unfold cleared
    rw [h.pte b hb]

variable {oldsz : Nat}

theorem uvmdealloc_tables (hsz : u.length = npages oldsz) (newsz : Nat) :
    ∃ s' t', uvmdealloc E t.pa oldsz newsz s = .ok (min oldsz newsz, s') ∧
      Moved E s tf t F s' t' (u.take (npages newsz)) ∧ Kept (u.take (npages newsz)) s s' ∧
      t'.pages = t.pages := by
  have hold := h.size_le hE hsz
  unfold uvmdealloc
  split
  · rename_i hge
    rw [min_eq_left hge, take_of_length_le (hsz ▸ npages_mono hge)]
    exact ⟨s, t, rfl, h.moved, fun _ _ => rfl, rfl⟩
  · rename_i hlt
    rw [h.roundup hE hsz, PGROUNDUP_eq (by simp only [PGSIZE] at *; omega),
      min_eq_right (by omega)]
    have hk : npages newsz ≤ u.length := hsz ▸ npages_mono (by omega)
    split
    · obtain ⟨s', t', hrun, hmoved, hpages, _, hkept⟩ := uvmunmap_user hE h hk
      have hn : (u.length * PGSIZE - npages newsz * PGSIZE) / PGSIZE = u.length - npages newsz := by
        rw [← Nat.sub_mul, Nat.mul_div_cancel _ (by decide)]
      refine ⟨s', t', ?_, hmoved, hkept, hpages⟩
      rw [hn, bind_of_ok hrun]
      rfl
    · rename_i hn
      rw [take_of_length_le (by simp only [PGSIZE] at hn; omega)]
      exact ⟨s, t, rfl, h.moved, fun _ _ => rfl, rfl⟩

/-- **`uvmdealloc`** leaves the pages that the new size needs, if that is
    smaller. -/
theorem uvmdealloc_spec (hsz : u.length = npages oldsz) (newsz : Nat) :
    ∃ s' t', uvmdealloc E t.pa oldsz newsz s = .ok (min oldsz newsz, s') ∧
      Moved E s tf t F s' t' (u.take (npages newsz)) ∧ Kept (u.take (npages newsz)) s s' := by
  obtain ⟨s', t', hrun, hm, hkept, -⟩ := uvmdealloc_tables hE h hsz newsz
  exact ⟨s', t', hrun, hm, hkept⟩

/-! ## Growing -/

/-- Mapping a fresh page `mem` at the end of user memory: `uvmalloc` and
    `uvmcopy` both do it, and both free the page when `mappages` fails. -/
theorem map_fresh {s1 : Phys} {mem perm : Nat}
    (hacct : Acct E s1.kmem (mem :: (t.pages ++ (u.map Prod.fst ++ F))))
    (hmem : ∀ p, p ≠ mem → s1.kmem.mem p = s.kmem.mem p) (hperm : Leaf perm) :
    ∃ r s2 t', mappages E t.pa (u.length * PGSIZE) PGSIZE mem perm s1 = .ok (r, s2) ∧
      (r = 0 ∧ Moved E s tf t F s2 t' (u ++ [(mem, perm)]) ∧ Kept u s s2 ∧
          s2.kmem.mem mem = s1.kmem.mem mem ∨
        r = -1 ∧ ∃ s', kfreePage E mem s2 = .ok ((), s') ∧ Moved E s tf t F s' t' u ∧
          Kept u s s') := by
  have hbelow := h.below hE
  have hva := maxva_of_trapframe hbelow
  have hfresh := (nodup_cons.mp hacct.nodup_owned).1
  have hsame : ∀ p ∈ t.pages ++ (u.map Prod.fst ++ F), s1.kmem.mem p = s.kmem.mem p :=
    fun p hp => hmem p fun e => hfresh (e ▸ hp)
  have hF : ∀ p ∈ u.map Prod.fst ++ F, s1.kmem.mem p = s.kmem.mem p := fun p hp =>
    hsame p (mem_append_right _ hp)
  have hzero : t.pte (u.length * PGSIZE) &&& PTE_V = 0 := by
    rw [h.pte _ (vaspace_of_maxva hva), spacePte_user hbelow,
      userPte_of_ge (by rw [Nat.mul_div_cancel _ (by decide)])]
    rfl
  obtain ⟨r, s2, t', hrun, hres⟩ := mappages_fresh hE hva (mul_mod_left _ _) h.ne
    (h.rep.congr fun p hp => hsame p (mem_append_left _ hp)) hacct hzero hperm.1
  refine ⟨r, s2, t', hrun, ?_⟩
  rcases hres with ⟨rfl, hedit⟩ | ⟨rfl, s', hfree, hedit⟩
  · have hrest : ∀ p ∈ u.map Prod.fst ++ F, s2.kmem.mem p = s.kmem.mem p := fun p hp =>
      (hedit.frame p (mem_cons_of_mem _ hp)).trans (hF p hp)
    refine .inl ⟨rfl, (Space.of_edit h.trapframe hedit ?_ (fun b hb => ?_) fun x hx => ?_).mono
      fun p hp => hF p (mem_append_right _ hp),
      fun p hp => hrest p (mem_append_left _ hp), hedit.frame mem mem_cons_self⟩
    · simp only [map_append, map_cons, map_nil, append_assoc, cons_append,
        nil_append]
      exact perm_middle.symm
    · rw [← spacePte_append hbelow (mem, perm)]
      unfold withPte
      rw [h.pte b hb]
    · rcases mem_append.mp hx with hx | hx
      · exact h.leaf x hx
      · rw [mem_singleton.mp hx]
        exact hperm
  · -- out of memory: the page goes back, the new tables stay
    refine .inr ⟨rfl, s', hfree, (Space.of_edit h.trapframe hedit (List.Perm.refl _)
      (fun b hb => h.pte b hb) h.leaf).mono fun p hp => hF p (mem_append_right _ hp),
      fun p hp => ?_⟩
    rw [hedit.frame p (mem_append_left _ hp), hF p (mem_append_left _ hp)]

omit hE h in
/-- The loop of `uvmalloc` at the end of user memory, `k` pages of which were
    there before. Every turn takes a page, so the loop ends. -/
theorem uvmallocLoop_spec (hE : E.Ok) {k newsz xperm : Nat}
    (hperm : Leaf (PTE_R ||| PTE_U ||| xperm)) : ∀ {fuel : Nat} {s : Phys} {t : PageTree 2}
    {u : Pages}, Space E s tf t u F → k ≤ u.length → u.length ≤ npages newsz →
    32769 ≤ fuel + u.length →
    ∃ r s' t' u', uvmallocLoop E t.pa (k * PGSIZE) newsz xperm fuel (u.length * PGSIZE) s
        = .ok (r, s') ∧ Moved E s tf t F s' t' u' ∧ Kept (u.take k) s s' ∧
      (r = 0 ∧ u' = u.take k ∨
        r = newsz ∧ u'.length = npages newsz ∧ cell u' s'.kmem.mem = cell u s.kmem.mem ∧
          ∃ new, u' = u ++ new ∧ ∀ x ∈ new, x.2 = PTE_R ||| PTE_U ||| xperm) := by
  intro fuel
  induction fuel with
  | zero =>
    intro s t u h _ _ hfuel
    have := h.length_le hE
    omega
  | succ fuel ih =>
    intro s t u h hk hle hfuel
    simp only [uvmallocLoop]
    by_cases ha : u.length * PGSIZE < newsz
    · have hundo : ∀ {s1 t1}, Moved E s tf t F s1 t1 u → Kept u s s1 → ∃ s' t',
          (do let _ ← uvmdealloc E t.pa (u.length * PGSIZE) (k * PGSIZE); pure 0 : Sys Phys Nat) s1
            = .ok (0, s') ∧ Moved E s tf t F s' t' (u.take k) ∧ Kept (u.take k) s s' := by
        intro s1 t1 hm hkept
        obtain ⟨s', t', hrun, hm', hkept'⟩ := uvmdealloc_spec hE hm.space (npages_mul _).symm
          (k * PGSIZE)
        rw [npages_mul] at hm' hkept'
        refine ⟨s', t', ?_, hm.trans hm', hkept'.after_take hkept⟩
        rw [← hm.pa, bind_of_ok hrun]
        rfl
      rw [if_pos ha]
      cases hka : E.kalloc s.calls s.kmem with
      | none =>
        rw [bind_of_ok (kallocPage_none hE hka)]
        have hcount : Moved E s tf t F
            { s with calls := s.calls + 1, failed := s.failed + 1 } t u :=
          ⟨rfl, { h with }, fun _ _ => rfl, fun _ hp => hp⟩
        obtain ⟨s', t', hrun, hm, hkept⟩ := hundo hcount fun _ _ => rfl
        exact ⟨0, s', t', _, hrun, hm, hkept, .inl ⟨rfl, rfl⟩⟩
      | some mem =>
        obtain ⟨s1, hrun, hacct, _, _, hmem, _, _⟩ := kallocPage_some hE h.acct hka
        rw [bind_of_ok hrun]
        simp only [memsetPage, modify_bind_run]
        have hacct1 : Acct E (s1.setKmem (s1.kmem.memset mem 0)).kmem _ :=
          hacct.congr rfl rfl rfl rfl
        have hzero : ∀ o < PGSIZE, (s1.kmem.memset mem 0).mem mem o = 0 := by
          intro o ho
          show update s1.kmem.mem mem ((s1.kmem.mem mem).fill 0 PGSIZE 0) mem o = 0
          rw [update_self, Bytes.fill, if_pos (by omega)]
        obtain ⟨r, s2, t', hmap, hres⟩ := map_fresh hE h hacct1
          (fun p hp => (update_of_ne hp _ _).trans (hmem p hp)) hperm
        rw [bind_of_ok hmap]
        rcases hres with ⟨rfl, hm, hkept, hpage⟩ | ⟨rfl, s3, hfree, hm, hkept⟩
        · rw [if_neg (by simp)]
          have hlt : u.length < npages newsz := lt_npages.mpr ha
          obtain ⟨r, s', t'', u'', hrun', hm', hkept', hres'⟩ := ih hm.space (by simp; omega)
            (by simp; omega) (by simp; omega)
          rw [hm.pa, length_append, length_singleton] at hrun'
          rw [next_page (h.length_le hE)]
          rw [take_append_of_le_length hk] at hres' hkept'
          refine ⟨r, s', t'', u'', hrun', hm.trans hm', hkept'.after_take hkept, hres'.imp_right ?_⟩
          rintro ⟨hr, hlen, hcell, new, rfl, hnew⟩
          refine ⟨hr, hlen, ?_, (mem, _) :: new, append_assoc _ _ _, fun x hx => ?_⟩
          · rw [hcell]
            refine hkept.cell_append fun o ho => ?_
            rw [hpage]
            exact hzero o ho
          · rcases mem_cons.mp hx with rfl | hx
            · rfl
            · exact hnew x hx
        · rw [if_pos (by decide), bind_of_ok hfree]
          obtain ⟨s', t'', hrun', hm', hkept'⟩ := hundo hm hkept
          exact ⟨0, s', t'', _, hrun', hm', hkept', .inl ⟨rfl, rfl⟩⟩
    · rw [if_neg ha]
      refine ⟨newsz, s, t, u, rfl, h.moved, fun _ _ => rfl, .inr ⟨rfl, ?_, rfl, [],
        (append_nil u).symm, by simp⟩⟩
      have := @lt_npages u.length newsz
      omega

/-- **`uvmalloc`** grows user memory to the new size with pages of zeroes, or
    leaves it as it was. -/
theorem uvmalloc_spec
    (hsz : u.length = npages oldsz) (newsz xperm : Nat) (hperm : Leaf (PTE_R ||| PTE_U ||| xperm)) :
    ∃ r s' t' new, uvmalloc E t.pa oldsz newsz xperm s = .ok (r, s') ∧
      Moved E s tf t F s' t' (u ++ new) ∧ (∀ x ∈ new, x.2 = PTE_R ||| PTE_U ||| xperm) ∧
      Kept u s s' ∧ cell (u ++ new) s'.kmem.mem = cell u s.kmem.mem ∧
      (r = 0 ∧ new = [] ∨ r = max oldsz newsz ∧ (u ++ new).length = npages r) := by
  unfold uvmalloc
  by_cases hlt : newsz < oldsz
  · rw [if_pos hlt]
    refine ⟨oldsz, s, t, [], rfl, ?_, nofun, fun _ _ => rfl, ?_, .inr ⟨?_, ?_⟩⟩
    · rw [append_nil]
      exact h.moved
    · rw [append_nil]
    · rw [max_eq_left (by omega)]
    · rw [append_nil, hsz]
  · rw [if_neg hlt, h.roundup hE hsz]
    have hgrow : u.length ≤ npages newsz := by
      rw [hsz]
      exact npages_mono (by omega)
    obtain ⟨r, s', t', u', hrun, hm, hkept, hres⟩ := uvmallocLoop_spec hE hperm h le_rfl hgrow
      (show 32769 ≤ turns + u.length by unfold turns; omega)
    rw [take_length] at hres hkept
    rcases hres with ⟨rfl, rfl⟩ | ⟨rfl, hlen, hcell, new, rfl, hnew⟩
    · refine ⟨0, s', t', [], hrun, ?_, nofun, hkept, ?_, .inl ⟨rfl, rfl⟩⟩
      · rw [append_nil]
        exact hm
      · rw [append_nil]
        exact hkept.cell
    · exact ⟨r, s', t', new, hrun, hm, hnew, hkept, hcell,
        .inr ⟨(max_eq_right (by omega)).symm, hlen⟩⟩

end

end Specs

end Xv6
