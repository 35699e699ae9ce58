import Xv6.Lib.Bytes
import Xv6.Lib.Gather
import Xv6.Mem.Riscv

/-!
# Page tables as trees

A page table of the Sv39 format is a page of 512 entries, each empty or the
address of a table of the next level; at level 0 the entries map pages.
`PageTree l` is such a table with everything below it, and `Rep m t` says that
memory `m` holds `t`. The pages of a tree are all different, so a store into one
of them changes one table (`Rep.set`), and a store elsewhere changes none
(`Rep.congr`).
-/

namespace Xv6

open Function List

/-! ## Entries in memory -/

/-- `pagetable[i]` -/
def pteAt (m : Nat → Bytes) (pa : Nat) (i : Fin 512) : Nat := (m pa).getLE (8 * i) 8

/-- `pagetable[i] = v` -/
def setPte (m : Nat → Bytes) (pa : Nat) (i : Fin 512) (v : Nat) : Nat → Bytes :=
  update m pa ((m pa).setLE (8 * i) 8 v)

theorem pteAt_congr {m m' : Nat → Bytes} {pa : Nat} (h : m' pa = m pa) (i : Fin 512) :
    pteAt m' pa i = pteAt m pa i := by
  unfold pteAt
  rw [h]

theorem pteAt_setPte_same (m : Nat → Bytes) (pa : Nat) (i : Fin 512) {v : Nat} (hv : v < 2 ^ 64) :
    pteAt (setPte m pa i v) pa i = v := by
  have hv' : v < 256 ^ 8 := hv
  unfold pteAt setPte
  rw [update_self, Bytes.getLE_setLE_same, Nat.mod_eq_of_lt hv']

theorem pteAt_setPte_ne (m : Nat → Bytes) (pa : Nat) {i j : Fin 512} (v : Nat) (h : j ≠ i) :
    pteAt (setPte m pa i v) pa j = pteAt m pa j := by
  have hne : (j : Nat) ≠ i := fun e => h (Fin.ext e)
  unfold pteAt setPte
  rw [update_self, Bytes.getLE_setLE_disjoint (by omega)]

theorem setPte_other (m : Nat → Bytes) {pa p : Nat} (i : Fin 512) (v : Nat) (h : p ≠ pa) :
    setPte m pa i v p = m p := update_of_ne h _ _

/-! ## Trees -/

/-- The index that `walk` uses at a level. -/
def px (level va : Nat) : Fin 512 := ⟨PX level va, PX_lt level va⟩

inductive PageTree : Nat → Type
  /-- no table -/
  | absent {l : Nat} : PageTree l
  | leaves (pa : Nat) (pte : Fin 512 → Nat) : PageTree 0
  | node {l : Nat} (pa : Nat) (kid : Fin 512 → PageTree l) : PageTree (l + 1)

namespace PageTree

variable {l : Nat}

/-- The page of the table itself. -/
def pa : {l : Nat} → PageTree l → Nat
  | _, absent => 0
  | _, leaves pa _ => pa
  | _, node pa _ => pa

/-- The entry that stands for a tree in the table above it. -/
def link : {l : Nat} → PageTree l → Nat
  | _, absent => 0
  | _, leaves pa _ => mkPte pa 0
  | _, node pa _ => mkPte pa 0

/-- All pages of a tree. -/
def pages : {l : Nat} → PageTree l → List Nat
  | _, absent => []
  | _, leaves pa _ => [pa]
  | _, node pa kid => pa :: gather fun i => (kid i).pages

/-- The level-0 entry for a virtual address; 0 where there is no table for
    it. -/
def pte : {l : Nat} → PageTree l → Nat → Nat
  | _, absent, _ => 0
  | _, leaves _ e, va => e (px 0 va)
  | l + 1, node _ kid, va => (kid (px (l + 1) va)).pte va

/-- The level-0 table for a virtual address. -/
def table : {l : Nat} → PageTree l → Nat → Option Nat
  | _, absent, _ => none
  | _, leaves pa _, _ => some pa
  | l + 1, node _ kid, va => (kid (px (l + 1) va)).table va

/-- Replace the level-0 entry for a virtual address. -/
def set : {l : Nat} → PageTree l → Nat → Nat → PageTree l
  | _, absent, _, _ => absent
  | _, leaves pa e, va, v => leaves pa (update e (px 0 va) v)
  | l + 1, node pa kid, va, v =>
      node pa (update kid (px (l + 1) va) ((kid (px (l + 1) va)).set va v))

/-- A table with no entries. -/
def blank : (l : Nat) → Nat → PageTree l
  | 0, pa => leaves pa fun _ => 0
  | _ + 1, pa => node pa fun _ => absent

/-- Memory holds the tree. -/
def Rep (m : Nat → Bytes) : {l : Nat} → PageTree l → Prop
  | _, absent => True
  | _, leaves pa e => ∀ i, pteAt m pa i = e i
  | _, node pa kid => ∀ i, pteAt m pa i = (kid i).link ∧ (kid i).Rep m

/-- No page is mapped. -/
def Bare : {l : Nat} → PageTree l → Prop
  | _, absent => True
  | _, leaves _ e => ∀ i, e i = 0
  | _, node _ kid => ∀ i, (kid i).Bare

/-! ## Small facts -/

variable {b pa v va : Nat} {m : Nat → Bytes} {t : PageTree l}

theorem pa_mem_pages (h : t ≠ absent) : t.pa ∈ t.pages := by
  cases t with
  | absent => exact absurd rfl h
  | leaves pa e => simp [pages, PageTree.pa]
  | node pa kid => simp [pages, PageTree.pa]

theorem link_of_ne (h : t ≠ absent) : t.link = mkPte t.pa 0 := by
  cases t with
  | absent => exact absurd rfl h
  | leaves pa e => rfl
  | node pa kid => rfl

theorem blank_ne_absent (l pa : Nat) : blank l pa ≠ absent := by cases l <;> exact nofun

@[simp] theorem blank_pa (l pa : Nat) : (blank l pa).pa = pa := by cases l <;> rfl

@[simp] theorem blank_pages (l pa : Nat) : (blank l pa).pages = [pa] := by
  cases l <;> simp [blank, pages]

@[simp] theorem blank_pte (l pa va : Nat) : (blank l pa).pte va = 0 := by cases l <;> rfl

theorem blank_link (l pa : Nat) : (blank l pa).link = mkPte pa 0 := by cases l <;> rfl

theorem blank_rep (h : ∀ i, pteAt m pa i = 0) : (blank l pa).Rep m := by
  cases l with
  | zero => exact h
  | succ l => exact fun i => ⟨h i, trivial⟩

@[simp] theorem set_pa (t : PageTree l) (va v : Nat) : (t.set va v).pa = t.pa := by cases t <;> rfl

theorem set_link (t : PageTree l) (va v : Nat) : (t.set va v).link = t.link := by cases t <;> rfl

theorem set_ne_absent (h : t ≠ absent) (va v : Nat) : t.set va v ≠ absent := by
  cases t with
  | absent => exact absurd rfl h
  | leaves pa e => exact nofun
  | node pa kid => exact nofun

theorem set_pages (t : PageTree l) (va v : Nat) : (t.set va v).pages = t.pages := by
  induction t with
  | absent => rfl
  | leaves pa e => rfl
  | @node l pa kid ih =>
    refine congrArg (pa :: ·) (gather_congr fun i => ?_)
    by_cases hi : i = px (l + 1) va
    · subst hi; rw [update_self]; exact ih _
    · rw [update_of_ne hi]

theorem set_table (t : PageTree l) (va v b : Nat) : (t.set va v).table b = t.table b := by
  induction t with
  | absent => rfl
  | leaves pa e => rfl
  | @node l pa kid ih =>
    simp only [set, table]
    by_cases hi : px (l + 1) b = px (l + 1) va
    · rw [hi, update_self]; exact ih _
    · rw [update_of_ne hi]

theorem pte_of_no_table (h : t.table va = none) : t.pte va = 0 := by
  induction t with
  | absent => rfl
  | leaves pa e => cases h
  | @node l pa kid ih => exact ih _ h

theorem table_mem_pages (h : t.table va = some b) : b ∈ t.pages := by
  induction t with
  | absent => cases h
  | leaves pa e =>
    obtain rfl : pa = b := Option.some.inj h
    exact mem_singleton_self _
  | @node l pa kid ih =>
    exact mem_cons_of_mem _ (mem_gather (ih _ h))

/-- Two addresses that `walk` does not tell apart below level `l`. -/
def SameSlot (l a b : Nat) : Prop := ∀ i ≤ l, PX i a = PX i b

theorem pte_set_same (h : t.table va ≠ none) (hab : SameSlot l va b) : (t.set va v).pte b = v := by
  induction t with
  | absent => exact absurd rfl h
  | leaves pa e =>
    have : px 0 b = px 0 va := Fin.ext (hab 0 le_rfl).symm
    simp [set, pte, this]
  | @node l pa kid ih =>
    have hi : px (l + 1) b = px (l + 1) va := Fin.ext (hab (l + 1) le_rfl).symm
    simp only [set, pte, hi, update_self]
    exact ih _ h fun i hl => hab i (by omega)

theorem pte_set_other (hab : ¬ SameSlot l va b) : (t.set va v).pte b = t.pte b := by
  induction t with
  | absent => rfl
  | leaves pa e =>
    have hne : px 0 b ≠ px 0 va := by
      intro e'
      refine hab fun i hi => ?_
      obtain rfl : i = 0 := by omega
      exact (congrArg Fin.val e').symm
    simp [set, pte, hne]
  | @node l pa kid ih =>
    simp only [set, pte]
    by_cases hi : px (l + 1) b = px (l + 1) va
    · rw [hi, update_self]
      refine ih _ fun hs => hab fun i hl => ?_
      by_cases hl' : i = l + 1
      · subst hl'; exact (congrArg Fin.val hi).symm
      · exact hs i (by omega)
    · rw [update_of_ne hi]

/-! ## One child of a table -/

/-- The pages of a table without those of its child `i`. -/
def otherPages (pa : Nat) (kid : Fin 512 → PageTree l) (i : Fin 512) : List Nat :=
  pa :: others (fun j => (kid j).pages) i

theorem pages_node_perm (pa : Nat) (kid : Fin 512 → PageTree l) (i : Fin 512) :
    (node pa kid).pages.Perm ((kid i).pages ++ otherPages pa kid i) :=
  ((gather_perm _ i).cons pa).trans perm_middle.symm

theorem pages_update_perm (pa : Nat) (kid : Fin 512 → PageTree l) (i : Fin 512) (t : PageTree l) :
    (node pa (update kid i t)).pages.Perm (t.pages ++ otherPages pa kid i) := by
  have h := gather_perm_of_eq (f := fun j => (kid j).pages)
    (g := fun j => (update kid i t j).pages) (i := i) fun j hj => by
      rw [update_of_ne hj]
  rw [update_self] at h
  exact (h.cons pa).trans perm_middle.symm

theorem pa_mem_otherPages (pa : Nat) (kid : Fin 512 → PageTree l) (i : Fin 512) :
    pa ∈ otherPages pa kid i := mem_cons_self

theorem mem_otherPages {p : Nat} {kid : Fin 512 → PageTree l} {i j : Fin 512} (hj : j ≠ i)
    (hp : p ∈ (kid j).pages) : p ∈ otherPages pa kid i :=
  mem_cons_of_mem _ (mem_others (f := fun j => (kid j).pages) hj hp)

/-! ## Trees in memory -/

theorem Rep.congr {m' : Nat → Bytes} (h : t.Rep m) (hm : ∀ p ∈ t.pages, m' p = m p) : t.Rep m' := by
  induction t with
  | absent => trivial
  | leaves pa e =>
    intro i
    rw [pteAt_congr (hm pa (by simp [pages])), h i]
  | @node l pa kid ih =>
    intro i
    rw [pteAt_congr (hm pa (by simp [pages]))]
    refine ⟨(h i).1, ih i (h i).2 fun p hp => hm p ?_⟩
    exact mem_cons_of_mem _ (mem_gather hp)

/-- Memory changes outside the tables other than child `i`, and child `i`
    becomes `t'`. -/
theorem Rep.update {m' : Nat → Bytes} {kid : Fin 512 → PageTree l} {i : Fin 512}
    {t' : PageTree l} (h : (node pa kid).Rep m) (ht : t'.Rep m')
    (hlink : pteAt m' pa i = t'.link) (hentry : ∀ j, j ≠ i → pteAt m' pa j = pteAt m pa j)
    (hother : ∀ j, j ≠ i → ∀ p ∈ (kid j).pages, m' p = m p) :
    (node pa (update kid i t')).Rep m' := by
  intro j
  by_cases hj : j = i
  · subst hj
    rw [update_self]
    exact ⟨hlink, ht⟩
  · rw [update_of_ne hj, hentry j hj]
    exact ⟨(h j).1, (h j).2.congr (hother j hj)⟩

/-- **A store into a level-0 table** is a store into the tree. -/
theorem Rep.set (h : t.Rep m) (hnd : t.pages.Nodup) (hb : t.table va = some b) (hv : v < 2 ^ 64) :
    (t.set va v).Rep (setPte m b (px 0 va) v) := by
  induction t with
  | absent => cases hb
  | leaves pa e =>
    obtain rfl : pa = b := Option.some.inj hb
    intro i
    by_cases hi : i = px 0 va
    · subst hi; rw [pteAt_setPte_same m pa _ hv, update_self]
    · rw [pteAt_setPte_ne m pa v hi, update_of_ne hi, h i]
  | @node l pa kid ih =>
    have hnd' := (pages_node_perm pa kid (px (l + 1) va)).nodup_iff.mp hnd
    obtain ⟨hkid, _, hdis⟩ := nodup_append.mp hnd'
    have hbmem : b ∈ (kid (px (l + 1) va)).pages := table_mem_pages hb
    have hout : ∀ p ∈ otherPages pa kid (px (l + 1) va), setPte m b (px 0 va) v p = m p :=
      fun p hp => setPte_other m _ _ fun e => hdis b hbmem p hp e.symm
    have hpa := hout pa (pa_mem_otherPages _ _ _)
    refine Rep.update h (ih _ (h _).2 hkid hb) ?_ (fun j _ => pteAt_congr hpa j)
      (fun j hj p hp => hout p (mem_otherPages hj hp))
    rw [set_link, pteAt_congr hpa]
    exact (h _).1

end PageTree

end Xv6
