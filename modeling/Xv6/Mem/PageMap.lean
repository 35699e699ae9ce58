import Xv6.Mem.Refcount
import Xv6.Mem.Shape

/-!
# A page table is a map from pages to entries

Seen from outside, a page table answers one question: what is the entry for this
virtual address? `lookup` asks it through `walk`. The three functions of
`kernel/vm.c` that store entries are compared here with what they should do to
that map, for every tree whose tables are different pages and for every
argument; what the entries map does not matter, nor does the rest of the kernel.
-/

namespace Xv6

open List Sys Nat Option
open PageTree

variable {E : Env}

/-- A well-formed page table: memory holds it, and no table is reachable by two
    paths. -/
structure PageTree.Wf (m : Nat → Bytes) (t : PageTree 2) : Prop where
  ne : t ≠ absent
  rep : t.Rep m
  nodup : t.pages.Nodup
  addr : ∀ p ∈ t.pages, PageAddr p

/-- The pages that `kalloc` may still return are different from each other and
    from those of `L`. -/
structure Apart (k : Kmem) (L : List Nat) : Prop where
  nodup : (k.freelist ++ L).Nodup
  addr : ∀ p ∈ k.freelist ++ L, PageAddr p

theorem apart_ledger (hE : E.Ok) : Ledger E Apart where
  perm := fun h hp => ⟨(hp.append_left _).nodup_iff.mp h.nodup, fun p hm =>
    h.addr p ((hp.append_left _).mem_iff.mpr hm)⟩
  nodup := fun h => (nodup_append.mp h.nodup).2.1
  addr := fun h p hp => h.addr p (mem_append_right _ hp)
  mem := fun h _ => ⟨h.nodup, h.addr⟩
  take := fun {s L r} h hka => by
    have hperm : (s.kmem.freelist ++ L).Perm (s.kmem.freelist.erase r ++ r :: L) :=
      ((perm_cons_erase (hE.kalloc _ _ _ hka)).append_right L).trans perm_middle.symm
    exact ⟨hperm.nodup_iff.mp h.nodup, fun p hp => h.addr p (hperm.mem_iff.mpr hp)⟩

/-- The entry for `va`: what `walk` finds, 0 where it finds no table. -/
def lookup (E : Env) (pagetable va : Nat) : Sys Phys Nat := do
  match ← walk E pagetable va false with
  | none => pure 0
  | some (pg, i) => loadPte pg i

/-- The entries `f` after `mappages` from the page of `a` to the page of `last`:
    consecutive physical pages from `pa` on. -/
def mapped (f : Nat → Nat) (a last pa perm : Nat) : Nat → Nat := fun b =>
  if a / PGSIZE ≤ b / PGSIZE ∧ b / PGSIZE ≤ last / PGSIZE then
    mkPte ((pa + (b / PGSIZE - a / PGSIZE) * PGSIZE) % 2 ^ 64) perm
  else f b

/-- After a call the page table at `root` is well formed and has the entries
    `f`. -/
structure Becomes (E : Env) (root : Nat) (s' : Phys) (f : Nat → Nat) : Prop where
  wf : ∃ t' : PageTree 2, t'.pa = root ∧ t'.Wf s'.kmem.mem
  entries : ∀ b < MAXVA, lookup E root b s' = .ok (f b, s')

/-! ## Looking up -/

namespace PageTree.Wf

variable {s : Phys} {t : PageTree 2} {va : Nat}

theorem lookup (h : t.Wf s.kmem.mem) (hva : va < MAXVA) :
    Xv6.lookup E t.pa va s = .ok (t.pte va, s) := by
  unfold Xv6.lookup
  rw [bind_of_ok (walk_read hva h.ne h.rep h.addr)]
  cases hb : t.table va with
  | none =>
    rw [pte_of_no_table hb]
    rfl
  | some b =>
    simp only [map_some, loadPte]
    rw [← h.rep.pteAt hb]
    rfl

theorem becomes (h : t.Wf s.kmem.mem) {f : Nat → Nat} (hf : ∀ b < VASPACE, t.pte b = f b) :
    Becomes E t.pa s f :=
  ⟨⟨t, rfl, h⟩, fun b hb => by rw [h.lookup hb, hf b (vaspace_of_maxva hb)]⟩

theorem set {m : Nat → Bytes} (h : t.Wf m) {b v : Nat} (hb : t.table va = some b)
    (hv : v < 2 ^ 64) : (t.set va v).Wf (setPte m b (px 0 va) v) where
  ne := set_ne_absent h.ne _ _
  rep := h.rep.set h.nodup hb hv
  nodup := by rw [set_pages]; exact h.nodup
  addr := by rw [set_pages]; exact h.addr

theorem congr {m m' : Nat → Bytes} (h : t.Wf m) (hm : ∀ p ∈ t.pages, m' p = m p) : t.Wf m' :=
  { h with rep := h.rep.congr hm }

end PageTree.Wf

variable {F : List Nat} {a pa perm : Nat} {s s' : Phys} {t : PageTree 2}

theorem EditIn.wf (hA : Ledger E Apart) {t' : PageTree 2}
    {f : Nat → Nat} (h : EditIn Apart s t F s' t' f) : t'.Wf s'.kmem.mem where
  ne := h.ne
  rep := h.rep
  nodup := (nodup_append.mp (hA.nodup h.acct)).1
  addr := fun p hp => hA.addr h.acct p (mem_append_left _ hp)

theorem Acct.wf {k : Kmem} (h : Acct E k (t.pages ++ F))
    (hne : t ≠ absent) (hrep : t.Rep k.mem) : t.Wf k.mem where
  ne := hne
  rep := hrep
  nodup := (nodup_append.mp h.nodup_owned).1
  addr := fun _ hp => (h.page_of_mem (mem_append_left _ hp)).pageAddr

/-! ## `mappages` -/

theorem mkPte_lt_of_word (hpa : pa < 2 ^ 64) (hperm : perm < 2 ^ 64) : mkPte pa perm < 2 ^ 64 := by
  refine or_lt_two_pow (or_lt_two_pow ?_ hperm) (by decide)
  rw [PA2PTE, shiftRight_eq_div_pow, shiftLeft_eq]
  omega

/-- What an entry made by `mappages` maps, and with which flags. -/
theorem mkPte_maps (hpa : pa < 2 ^ 64) (hperm : perm < 2 ^ 10) :
    PTE2PA (mkPte pa perm) = PGROUNDDOWN pa ∧ PTE_FLAGS (mkPte pa perm) = perm ||| PTE_V := by
  refine ⟨?_, PTE_FLAGS_mkPte hperm⟩
  rw [pte_split hperm, PTE2PA, shiftRight_eq_div_pow, shiftLeft_eq,
    mul_add_div (by decide), div_eq_of_lt (flags_lt hperm), PGROUNDDOWN]
  simp only [PGSIZE]
  omega

theorem mapped_last (f : Nat → Nat) (a pa perm b : Nat) (hpa : pa < 2 ^ 64) :
    mapped f a a pa perm b = withPte f a (mkPte pa perm) b := by
  unfold mapped withPte
  by_cases h : b / PGSIZE = a / PGSIZE
  · rw [if_pos (by omega), if_pos h, h, Nat.sub_self, Nat.zero_mul, Nat.add_zero,
      mod_eq_of_lt hpa]
  · rw [if_neg (by omega), if_neg h]

theorem mapped_succ (f : Nat → Nat) {last : Nat} (pa perm b : Nat) (h : a + PGSIZE ≤ last)
    (hpa : pa < 2 ^ 64) :
    mapped (withPte f a (mkPte pa perm)) (a + PGSIZE) last ((pa + PGSIZE) % 2 ^ 64) perm b =
      mapped f a last pa perm b := by
  have hq : (a + PGSIZE) / PGSIZE = a / PGSIZE + 1 := add_div_right a (by decide)
  have hlast : a / PGSIZE + 1 ≤ last / PGSIZE := hq ▸ Nat.div_le_div_right h
  unfold mapped withPte
  rw [hq]
  by_cases h0 : b / PGSIZE = a / PGSIZE
  · rw [if_neg (by omega), if_pos h0, if_pos (by omega), h0, Nat.sub_self, Nat.zero_mul,
      Nat.add_zero, mod_eq_of_lt hpa]
  · by_cases h1 : a / PGSIZE + 1 ≤ b / PGSIZE ∧ b / PGSIZE ≤ last / PGSIZE
    · have hshift : (pa + PGSIZE) % 2 ^ 64 + (b / PGSIZE - (a / PGSIZE + 1)) * PGSIZE ≡
          pa + (b / PGSIZE - a / PGSIZE) * PGSIZE [MOD 2 ^ 64] := by
        have hsub : b / PGSIZE - a / PGSIZE = (b / PGSIZE - (a / PGSIZE + 1)) + 1 := by omega
        rw [hsub, Nat.add_mul, Nat.one_mul, Nat.add_comm (_ * PGSIZE) PGSIZE, ← Nat.add_assoc]
        exact (mod_modEq _ _).add_right _
      rw [if_pos h1, if_pos (by omega), hshift]
    · rw [if_neg h1, if_neg h0, if_neg (by omega)]

/-- **The loop of `mappages`**, if it returns 0: every page from `a` to `last`
    has been given its entry, and all of them are below `MAXVA`. -/
theorem mappagesLoop_ok (hE : E.Ok) {last : Nat} (hperm : perm < 2 ^ 64) :
    ∀ {fuel a pa : Nat} {s : Phys} {t : PageTree 2}, pa < 2 ^ 64 → t ≠ absent →
    t.Rep s.kmem.mem → Apart s.kmem (t.pages ++ F) →
    mappagesLoop E t.pa last perm fuel a pa s = .ok (0, s') →
    ∃ t', EditIn Apart s t F s' t' (mapped t.pte a last pa perm) ∧ a ≤ last ∧ last < MAXVA := by
  have hA := apart_ledger hE
  intro fuel
  induction fuel with
  | zero =>
    intro a pa s t _ _ _ _ hrun
    cases hrun
  | succ fuel ih =>
    intro a pa s t hpa hne hrep hacct hrun
    have hva : a < MAXVA := by
      by_contra hge
      rw [mappagesLoop, walk, if_pos (by omega)] at hrun
      cases hrun
    obtain ⟨res, s1, t1, hwalk, hedit, hres⟩ := walk_alloc hE hA hva hne hrep hacct
    rw [mappagesLoop, bind_of_ok hwalk] at hrun
    cases res with
    | none => cases hrun
    | some x =>
      obtain ⟨pg, i⟩ := x
      obtain ⟨htab, rfl⟩ := hres _ rfl
      simp only [loadPte, storePte, reads_bind_run] at hrun
      split at hrun
      · cases hrun
      have hst := EditIn.store hA hva hedit.rep hedit.acct htab (mkPte_lt_of_word hpa hperm)
      have hone := (hedit.trans hst fun _ h => h).congr
        (g := withPte t.pte a (mkPte pa perm)) fun b hb => by
          unfold withPte
          rw [hedit.pte b hb]
      rw [modify_bind_run] at hrun
      by_cases hlast : a = last
      · rw [if_pos hlast] at hrun
        cases hrun
        subst hlast
        exact ⟨_, hone.congr fun b _ => (mapped_last _ _ _ _ _ hpa).symm, le_refl _, hva⟩
      · have hnext : (a + PGSIZE) % 2 ^ 64 = a + PGSIZE := by
          simp only [PGSIZE, MAXVA] at *
          omega
        rw [if_neg hlast, hnext, ← hone.pa] at hrun
        obtain ⟨t', hrest, hle, hmax⟩ := ih (mod_lt _ (by decide)) hone.ne hone.rep hone.acct hrun
        refine ⟨t', (hone.trans hrest fun _ h => h).congr fun b hb => ?_, by omega, hmax⟩
        rw [← mapped_succ _ _ _ _ hle hpa]
        unfold mapped
        rw [hone.pte b hb]

/-! ## `uvmunmap` -/

theorem kfreePage_frame (hE : E.Ok) {p : Nat} {r : Unit}
    (h : kfreePage E pa s = .ok (r, s')) (hp : p ≠ pa) : s'.kmem.mem p = s.kmem.mem p := by
  unfold kfreePage at h
  obtain ⟨_, s1, hfree, hlog⟩ := bind_eq_ok.mp h
  cases hlog
  obtain ⟨k, hk, rfl⟩ := zoom_eq_ok hfree
  change k.mem p = s.kmem.mem p
  rw [(kfree_eq_ok hE.base hk).2.2.1, Function.update_of_ne hp]

/-- **The loop of `uvmunmap`**, if it returns: the entries of `n` pages are
    gone. A page that it frees is filled with junk, so none of them may be a
    table. -/
theorem uvmunmapLoop_ok (hE : E.Ok) {doFree : Bool} : ∀ {n a : Nat} {s : Phys}
    {t : PageTree 2}, t.Wf s.kmem.mem → a + n * PGSIZE ≤ MAXVA →
    (doFree = true → ∀ i < n, PTE2PA (t.pte (a + i * PGSIZE)) ∉ t.pages) →
    uvmunmapLoop E t.pa doFree n a s = .ok ((), s') →
    ∃ t' : PageTree 2, t'.pa = t.pa ∧ t'.Wf s'.kmem.mem ∧
      ∀ b < VASPACE, t'.pte b = cleared t.pte a n b := by
  intro n
  induction n with
  | zero =>
    intro a s t h _ _ hrun
    cases hrun
    refine ⟨t, rfl, h, fun b _ => ?_⟩
    rw [cleared, if_neg (by omega)]
  | succ n ih =>
    intro a s t h hroom hkeep hrun
    have hva : a < MAXVA := by
      simp only [PGSIZE] at hroom
      omega
    rw [uvmunmapLoop, bind_of_ok (walk_read hva h.ne h.rep h.addr)] at hrun
    cases hb : t.table a with
    | none =>
      rw [hb] at hrun
      cases hrun
    | some b =>
      rw [hb] at hrun
      simp only [map_some, loadPte, reads_bind_run, h.rep.pteAt hb] at hrun
      split at hrun
      · cases hrun
      split at hrun
      · cases hrun
      -- what is freed is not a table
      obtain ⟨s1, hwf1, hstore⟩ : ∃ s1, t.Wf s1.kmem.mem ∧
          (do storePte b (px 0 a) 0; uvmunmapLoop E t.pa doFree n (a + PGSIZE)) s1 =
            .ok ((), s') := by
        cases doFree with
        | false => exact ⟨s, h, hrun⟩
        | true =>
          obtain ⟨_, s1, hfree, hstore⟩ := bind_eq_ok.mp hrun
          refine ⟨s1, h.congr fun p hp => kfreePage_frame hE hfree ?_, hstore⟩
          rintro rfl
          have := hkeep rfl 0 (succ_pos n)
          rw [Nat.zero_mul, Nat.add_zero] at this
          exact this hp
      simp only [storePte, modify_bind_run] at hstore
      have hset := hwf1.set hb (v := 0) (by decide)
      have hpte : ∀ c < VASPACE, (t.set a 0).pte c = withPte t.pte a 0 c := fun c hc =>
        pte_set (by simp [hb]) hva hc
      rw [← set_pa t a 0] at hstore
      have hnext : ∀ i, a + PGSIZE + i * PGSIZE = a + (i + 1) * PGSIZE := fun i => by
        simp only [PGSIZE]
        omega
      have hkeep' : doFree = true →
          ∀ i < n, PTE2PA ((t.set a 0).pte (a + PGSIZE + i * PGSIZE)) ∉ (t.set a 0).pages := by
        intro hf i hi
        rw [hnext, set_pages, hpte _ (by simp only [PGSIZE, MAXVA, VASPACE] at *; omega), withPte,
          if_neg (by simp only [PGSIZE]; omega)]
        exact hkeep hf (i + 1) (by omega)
      obtain ⟨t', hpa, hwf', hpte'⟩ := ih hset (by rw [hnext]; exact hroom) hkeep' hstore
      refine ⟨t', hpa.trans (set_pa _ _ _), hwf', fun c hc => ?_⟩
      rw [hpte' c hc, ← cleared_succ]
      unfold cleared
      rw [hpte c hc]

/-! ## `uvmclear` -/

/-- **`uvmclear`**, if it returns: one entry has lost `PTE_U`. -/
theorem uvmclear_ok {va : Nat} (h : t.Wf s.kmem.mem) (hrun : uvmclear E t.pa va s = .ok ((), s')) :
    va < MAXVA ∧ ∃ t' : PageTree 2, t'.pa = t.pa ∧ t'.Wf s'.kmem.mem ∧
      ∀ b < VASPACE, t'.pte b = withPte t.pte va (clearUser (t.pte va)) b := by
  have hva : va < MAXVA := by
    by_contra hge
    rw [uvmclear, walk, if_pos (by omega)] at hrun
    cases hrun
  rw [uvmclear, bind_of_ok (walk_read hva h.ne h.rep h.addr)] at hrun
  cases hb : t.table va with
  | none =>
    rw [hb] at hrun
    cases hrun
  | some b =>
    rw [hb] at hrun
    simp only [map_some, loadPte, storePte, reads_bind_run, h.rep.pteAt hb,
      modify_run] at hrun
    cases hrun
    have hlt : clearUser (t.pte va) < 2 ^ 64 := lt_of_le_of_lt and_le_right (by decide)
    exact ⟨hva, t.set va _, set_pa _ _ _, h.set hb hlt, fun c hc =>
      pte_set (by simp [hb]) hva hc⟩

/-! ## Slots -/

/-- The level-0 table determines the indices above it. -/
theorem PageTree.table_inj {l : Nat} {t : PageTree l} {b p : Nat} (hnd : t.pages.Nodup)
    (ha : t.table a = some p) (hb : t.table b = some p) :
    ∀ i, 0 < i → i ≤ l → PX i a = PX i b := by
  induction t with
  | absent => cases ha
  | leaves pa e =>
    intro i h0 hi
    omega
  | @node l pa kid ih =>
    have hnd' := (pages_node_perm pa kid (px (l + 1) a)).nodup_iff.mp hnd
    obtain ⟨hkid, _, hdis⟩ := nodup_append.mp hnd'
    -- the table is below one child only
    have hsame : px (l + 1) b = px (l + 1) a := by
      by_contra hne
      exact hdis p (table_mem_pages ha) p (mem_otherPages hne (table_mem_pages hb)) rfl
    intro i h0 hi
    by_cases htop : i = l + 1
    · rw [htop]
      exact (congrArg Fin.val hsame).symm
    · rw [table, hsame] at hb
      exact ih _ hkid ha hb i h0 (by omega)

/-- `walk`, with or without `alloc`: the tree it leaves, and where the slot
    is. -/
theorem walk_slot (hE : E.Ok) {va : Nat} {alloc : Bool} {x : Nat × Fin 512} (h : t.Wf s.kmem.mem)
    (hap : Apart s.kmem t.pages) (hrun : walk E t.pa va alloc s = .ok (some x, s')) :
    va < MAXVA ∧ ∃ t' : PageTree 2, t'.pa = t.pa ∧ t'.Wf s'.kmem.mem ∧ Apart s'.kmem t'.pages ∧
      (∀ b pg, t.table b = some pg → t'.table b = some pg) ∧
      t'.table va = some x.1 ∧ x.2 = px 0 va := by
  have hva : va < MAXVA := by
    by_contra hge
    rw [walk, if_pos (by omega)] at hrun
    cases hrun
  refine ⟨hva, ?_⟩
  cases alloc with
  | false =>
    rw [walk_read hva h.ne h.rep h.addr] at hrun
    injection hrun with hrun
    injection hrun with hx hs
    subst hs
    cases hb : t.table va with
    | none =>
      rw [hb] at hx
      cases hx
    | some b =>
      rw [hb] at hx
      cases hx
      exact ⟨t, rfl, h, hap, fun _ _ hc => hc, hb, rfl⟩
  | true =>
    have hA := apart_ledger hE
    obtain ⟨res, s1, t', hwalk, hedit, hres⟩ := walk_alloc hE hA hva h.ne h.rep
      (F := []) (by rwa [append_nil])
    rw [hwalk] at hrun
    cases hrun
    have hap' := hedit.acct
    rw [append_nil] at hap'
    obtain ⟨htab, hi⟩ := hres x rfl
    exact ⟨t', hedit.pa, hedit.wf hA, hap', hedit.table, htab, hi⟩

/-- **Distinct pages have distinct slots.** -/
theorem walk_slots_ne (hE : E.Ok) {s1 s2 : Phys} {b : Nat} {x y : Bool}
    {p q : Nat × Fin 512} (h : t.Wf s.kmem.mem) (hap : Apart s.kmem t.pages)
    (hne : a / PGSIZE ≠ b / PGSIZE) (ha : walk E t.pa a x s = .ok (some p, s1))
    (hb : walk E t.pa b y s1 = .ok (some q, s2)) : p ≠ q := by
  obtain ⟨hva, t1, hpa1, hwf1, hap1, _, htab1, hi1⟩ := walk_slot hE h hap ha
  rw [← hpa1] at hb
  obtain ⟨hvb, t2, _, hwf2, _, hkeep, htab2, hi2⟩ := walk_slot hE hwf1 hap1 hb
  rintro rfl
  have hup := table_inj hwf2.nodup (hkeep _ _ htab1) htab2
  have hlow : PX 0 a = PX 0 b := congrArg Fin.val (hi1.symm.trans hi2)
  refine hne ((sameSlot_iff hva (vaspace_of_maxva hvb)).mp fun i hi => ?_)
  rcases Nat.eq_zero_or_pos i with rfl | hpos
  · exact hlow
  · exact hup i hpos hi

/-! ## The refinement -/

/-- **A page table refines a finite map.** For every well-formed tree: a
    successful `mappages` maps exactly the pages from `PGROUNDDOWN(va)` to
    `PGROUNDDOWN(va+size-1)` to consecutive physical pages with `perm|PTE_V`;
    `uvmunmap` of `npages` mappings that exist removes exactly those; `uvmclear`
    clears `PTE_U` of one page. The tree stays well formed, `walk` finds every
    other entry as it was, and it never gives two pages the same slot. -/
theorem page_table_refines_map (hE : E.Ok) {s : Phys} {t : PageTree 2} (h : t.Wf s.kmem.mem) :
    (∀ va size pa perm s', va < MAXVA → size < 2 ^ 64 → pa < 2 ^ 64 → perm < 2 ^ 64 →
      Apart s.kmem t.pages → mappages E t.pa va size pa perm s = .ok (0, s') →
      PGROUNDDOWN va ≤ PGROUNDDOWN ((va + size - 1) % 2 ^ 64) ∧
      PGROUNDDOWN ((va + size - 1) % 2 ^ 64) < MAXVA ∧
      Becomes E t.pa s'
        (mapped t.pte (PGROUNDDOWN va) (PGROUNDDOWN ((va + size - 1) % 2 ^ 64)) pa perm)) ∧
    (∀ pa perm, pa < 2 ^ 64 → perm < 2 ^ 10 →
      PTE2PA (mkPte pa perm) = PGROUNDDOWN pa ∧ PTE_FLAGS (mkPte pa perm) = perm ||| PTE_V) ∧
    (∀ va npages doFree s', va < MAXVA →
      (∀ i < npages, va + i * PGSIZE < MAXVA ∧ t.pte (va + i * PGSIZE) &&& PTE_V ≠ 0) →
      (doFree = true → ∀ i < npages, PTE2PA (t.pte (va + i * PGSIZE)) ∉ t.pages) →
      uvmunmap E t.pa va npages doFree s = .ok ((), s') →
      Becomes E t.pa s' (cleared t.pte va npages)) ∧
    (∀ va s', uvmclear E t.pa va s = .ok ((), s') →
      va < MAXVA ∧ Becomes E t.pa s' (withPte t.pte va (clearUser (t.pte va)))) ∧
    (∀ b < MAXVA, lookup E t.pa b s = .ok (t.pte b, s)) ∧
    (∀ a b x y p q s₁ s₂, Apart s.kmem t.pages → a / PGSIZE ≠ b / PGSIZE →
      walk E t.pa a x s = .ok (some p, s₁) → walk E t.pa b y s₁ = .ok (some q, s₂) → p ≠ q) := by
  have hA := apart_ledger hE
  refine ⟨fun va size pa perm s' hva hsize hpa hperm hap hrun => ?_,
    fun pa perm hpa hperm => mkPte_maps hpa hperm,
    fun va npages doFree s' hva hmap hkeep hrun => ?_,
    fun va s' hrun => ?_, fun b hb => h.lookup hb,
    fun a b x y p q s₁ s₂ hap hne ha hb => walk_slots_ne hE h hap hne ha hb⟩
  · unfold mappages at hrun
    split at hrun
    · cases hrun
    obtain ⟨t', hedit, hle, hmax⟩ := mappagesLoop_ok hE hperm hpa h.ne h.rep
      (F := []) (by rwa [append_nil]) hrun
    rw [← hedit.pa]
    exact ⟨hle, hmax, (hedit.wf hA).becomes hedit.pte⟩
  · have halign : va % PGSIZE = 0 := by
      by_contra hne
      rw [uvmunmap, if_pos hne] at hrun
      cases hrun
    have hroom : va + npages * PGSIZE ≤ MAXVA := by
      cases npages with
      | zero => omega
      | succ n =>
        have := (hmap n (Nat.lt_succ_self n)).1
        simp only [PGSIZE, MAXVA] at *
        omega
    rw [uvmunmap_eq doFree halign hroom] at hrun
    obtain ⟨t', hpa, hwf, hpte⟩ := uvmunmapLoop_ok hE h hroom hkeep hrun
    rw [← hpa]
    exact hwf.becomes hpte
  · obtain ⟨hva, t', hpa, hwf, hpte⟩ := uvmclear_ok h hrun
    rw [← hpa]
    exact ⟨hva, hwf.becomes hpte⟩

/-- An empty page table in the only page that is not free, and a page mapped at
    address 5000. -/
theorem page_table_refines_map_small :
    ∃ s', mappages (smallEnv 9) (PHYSTOP - PGSIZE) 5000 1 KERNBASE PTE_R (smallPhys 9) =
        .ok (0, s') ∧
      lookup (smallEnv 9) (PHYSTOP - PGSIZE) 4096 s' = .ok (mkPte KERNBASE PTE_R, s') ∧
      lookup (smallEnv 9) (PHYSTOP - PGSIZE) 8192 s' = .ok (0, s') := by
  have hap : Apart (smallPhys 9).kmem [PHYSTOP - PGSIZE] :=
    ⟨(smallPhys_acct (by decide) (by decide)).nodup, fun p hp =>
      (((smallPhys_acct (by decide) (by decide)).pages p).mp hp).pageAddr⟩
  have hwf : (blank 2 (PHYSTOP - PGSIZE)).Wf (smallPhys 9).kmem.mem :=
    ⟨blank_ne_absent _ _, blank_rep fun i => Bytes.getLE_zero _ _, by simp,
      fun p hp => hap.addr p (mem_append_right _ (by simpa using hp))⟩
  obtain ⟨r, s', hrun, hr⟩ := exists_of_check
    (x := mappages (smallEnv 9) (PHYSTOP - PGSIZE) 5000 1 KERNBASE PTE_R) (s := smallPhys 9)
    (t := fun r _ => r == 0) (by decide +kernel)
  obtain rfl : r = 0 := by simpa using hr
  have hmap := (page_table_refines_map smallEnv_nine hwf).1 5000 1 KERNBASE PTE_R s' (by decide)
    (by decide) (by decide) (by decide) (by simpa using hap) (by simpa using hrun)
  rw [blank_pa] at hmap
  refine ⟨s', hrun, (hmap.2.2.entries 4096 (by decide)).trans ?_,
    (hmap.2.2.entries 8192 (by decide)).trans ?_⟩
  · rfl
  · rfl

end Xv6
