import Xv6.Mem.PageMap

/-!
# Copying between the kernel and user memory

`copyout`, `copyin` and `copyinstr` go page by page through `walkaddr`. What
they mean is said a byte at a time: `Access` says which addresses a program may
use, `peek` and `poke` read and write the byte behind one. Each loop is compared
with that: `copyout` is `pokes` of the bytes before the first address without
access, `copyin` is as many `peek`s, and `copyinstr` is `copystr`.

`walkaddr` asks for `PTE_V` and `PTE_U` and not for `PTE_W`, so `copyout` writes
to pages that the program itself can only read.
-/

namespace Xv6

open Function Sys Nat
open PageTree

variable {E : Env}

/-- A program may use `va`: it is below `MAXVA`, in a page mapped with `PTE_V`
    and `PTE_U`. -/
def Access (t : PageTree 2) (va : Nat) : Prop :=
  va < MAXVA ∧ t.pte va &&& PTE_V ≠ 0 ∧ t.pte va &&& PTE_U ≠ 0

instance (t : PageTree 2) (va : Nat) : Decidable (Access t va) :=
  inferInstanceAs (Decidable (_ ∧ _ ∧ _))

/-- It may also write there. -/
def Writable (t : PageTree 2) (va : Nat) : Prop := Access t va ∧ t.pte va &&& PTE_W ≠ 0

/-- The physical page that `va` is mapped to. -/
def PageTree.page (t : PageTree 2) (va : Nat) : Nat := PTE2PA (t.pte va)

/-- User pages are memory: none of them is page 0, which is how `walkaddr` says
    "not mapped". -/
def PageTree.InRam (t : PageTree 2) : Prop := ∀ va, Access t va → t.page va ≠ 0

/-- No user page is one of the page table's own. -/
def PageTree.Outside (t : PageTree 2) : Prop := ∀ va, Access t va → t.page va ∉ t.pages

/-- Distinct user pages are distinct physical pages. -/
def PageTree.Distinct (t : PageTree 2) : Prop :=
  ∀ a b, Access t a → Access t b → t.page a = t.page b → a / PGSIZE = b / PGSIZE

/-- The byte at `va`. -/
def peek (t : PageTree 2) (m : Nat → Bytes) (va : Nat) : UInt8 := m (t.page va) (va % PGSIZE)

/-- Memory after a store of `c` at `va`. -/
def poke (t : PageTree 2) (m : Nat → Bytes) (va : Nat) (c : UInt8) : Nat → Bytes :=
  update m (t.page va) (update (m (t.page va)) (va % PGSIZE) c)

/-- Memory after `j` bytes of `src` have been stored from `va` on. -/
def pokes (t : PageTree 2) (src : Bytes) (va : Nat) : Nat → (Nat → Bytes) → Nat → Bytes
  | 0, m => m
  | j + 1, m => poke t (pokes t src va j m) (va + j) (src j)

/-! ## Pages -/

variable {a b : Nat} {t : PageTree 2}

theorem PX_page (h : a / PGSIZE = b / PGSIZE) (i : Nat) : PX i a = PX i b := by
  have hpow : 2 ^ (12 + 9 * i) = PGSIZE * 2 ^ (9 * i) := pow_add 2 12 (9 * i)
  rw [PX_eq, PX_eq, hpow, ← Nat.div_div_eq_div_mul, ← Nat.div_div_eq_div_mul, h]

theorem PageTree.pte_page {l : Nat} {t : PageTree l} (h : a / PGSIZE = b / PGSIZE) :
    t.pte a = t.pte b := by
  have hpx : ∀ i, px i a = px i b := fun i => Fin.ext (PX_page h i)
  induction t with
  | absent => rfl
  | leaves pa e => rw [pte, pte, hpx]
  | node pa kid ih => rw [pte, pte, hpx, ih]

theorem PageTree.page_congr (h : a / PGSIZE = b / PGSIZE) : t.page a = t.page b := by
  rw [page, page, pte_page h]

theorem Access.congr (h : a / PGSIZE = b / PGSIZE) (ha : Access t a) : Access t b := by
  refine ⟨?_, pte_page h ▸ ha.2⟩
  have hlt := ha.1
  simp only [MAXVA, PGSIZE] at *
  omega

/-- **`walkaddr`** finds the physical page of an address that the program may
    use. -/
theorem walkaddr_eq {s : Phys} (h : t.Wf s.kmem.mem) (va : Nat) :
    walkaddr E t.pa va s = .ok (if Access t va then t.page va else 0, s) := by
  unfold walkaddr
  by_cases hva : va ≥ MAXVA
  · rw [if_pos hva, if_neg fun ha => absurd ha.1 (by omega)]
    rfl
  rw [if_neg hva, bind_of_ok (walk_read (by omega) h.ne h.rep h.addr)]
  cases hb : t.table va with
  | none =>
    rw [if_neg fun ha => ha.2.1 (by rw [pte_of_no_table hb]; rfl)]
    rfl
  | some b =>
    simp only [Option.map_some, loadPte, reads_bind_run, h.rep.pteAt hb]
    by_cases hv : t.pte va &&& PTE_V = 0
    · rw [if_pos hv, if_neg fun ha => ha.2.1 hv]
      rfl
    by_cases hu : t.pte va &&& PTE_U = 0
    · rw [if_neg hv, if_pos hu, if_neg fun ha => ha.2.2 hu]
      rfl
    rw [if_neg hv, if_neg hu, if_pos ⟨by omega, hv, hu⟩]
    rfl

/-! ## One turn of the loops -/

/-- The `n` bytes from `va` on that a turn with `len` bytes to go takes: they
    lie in one page, and reach its end unless they are all. -/
structure Turn (va len n : Nat) : Prop where
  pos : 0 < n
  le : n ≤ len
  page : ∀ k < n, (va + k) / PGSIZE = va / PGSIZE
  off : ∀ k < n, (va + k) % PGSIZE = va % PGSIZE + k
  next : n < len → va + n = PGROUNDDOWN va + PGSIZE
  bound : n < len → (va + n) % PGSIZE = 0

theorem turn_of_pos (va : Nat) {len : Nat} (h : len > 0) :
    Turn va len (min (PGSIZE - va % PGSIZE) len) := by
  have hlt : va % PGSIZE < PGSIZE := mod_lt _ (by decide)
  refine ⟨by omega, by omega, fun k hk => ?_, fun k hk => ?_, fun hn => ?_, fun hn => ?_⟩
  · simp only [PGSIZE] at *
    omega
  · simp only [PGSIZE] at *
    omega
  · unfold PGROUNDDOWN
    simp only [PGSIZE] at *
    omega
  · simp only [PGSIZE] at *
    omega

theorem pgrounddown_page (va : Nat) : PGROUNDDOWN va / PGSIZE = va / PGSIZE :=
  Nat.mul_div_cancel _ (by decide)

theorem walkaddr_turn {s : Phys} (h : t.Wf s.kmem.mem) (hram : t.InRam) (va : Nat) :
    (Access t va ∧ walkaddr E t.pa (PGROUNDDOWN va) s = .ok (t.page va, s) ∧ t.page va ≠ 0 ∧
      (PGROUNDDOWN va + PGSIZE) % 2 ^ 64 = PGROUNDDOWN va + PGSIZE) ∨
    (¬ Access t va ∧ walkaddr E t.pa (PGROUNDDOWN va) s = .ok (0, s)) := by
  rw [walkaddr_eq h]
  by_cases ha : Access t va
  · refine .inl ⟨ha, ?_, hram va ha, ?_⟩
    · rw [if_pos (ha.congr (pgrounddown_page va).symm), page_congr (pgrounddown_page va)]
    · have hlt := ha.1
      have hle : PGROUNDDOWN va ≤ va := div_mul_le_self _ _
      simp only [MAXVA, PGSIZE] at *
      omega
  · exact .inr ⟨ha, by rw [if_neg fun h0 => ha (h0.congr (pgrounddown_page va))]⟩

/-- A copy of `len` bytes at `va` that returns `r` has got through `j` of
    them. -/
structure Reached (t : PageTree 2) (va len : Nat) (r : Int) (j : Nat) : Prop where
  access : ∀ k < j, Access t (va + k)
  stop : (r = 0 ∧ j = len) ∨
    (r = -1 ∧ j < len ∧ ¬ Access t (va + j) ∧ (j = 0 ∨ (va + j) % PGSIZE = 0))

namespace Reached

variable {t : PageTree 2} {va len n j : Nat} {r : Int}

theorem done : Reached t va 0 0 0 := ⟨fun _ hk => absurd hk (Nat.not_lt_zero _), .inl ⟨rfl, rfl⟩⟩

theorem failed (hlen : len > 0) (h : ¬ Access t va) : Reached t va len (-1) 0 :=
  ⟨fun _ hk => absurd hk (Nat.not_lt_zero _), .inr ⟨rfl, hlen, h, .inl rfl⟩⟩

theorem turn (hn : Turn va len n) (ha : Access t va) (h : Reached t (va + n) (len - n) r j) :
    Reached t va len r (n + j) := by
  have hle := hn.le
  refine ⟨fun k hk => ?_, ?_⟩
  · by_cases hkn : k < n
    · exact ha.congr (hn.page k hkn).symm
    · have hk' := h.access (k - n) (by omega)
      rwa [Nat.add_assoc, Nat.add_sub_cancel' (by omega)] at hk'
  · rcases h.stop with ⟨hr, hj⟩ | ⟨hr, hj, hno, hb⟩
    · exact .inl ⟨hr, by omega⟩
    · rw [Nat.add_assoc] at hno hb
      refine .inr ⟨hr, by omega, hno, .inr ?_⟩
      rcases hb with rfl | hb
      · exact hn.bound (by omega)
      · exact hb

theorem le (h : Reached t va len r j) : j ≤ len := by
  rcases h.stop with ⟨_, hj⟩ | ⟨_, hj, _⟩
  · exact hj.le
  · exact hj.le

/-- A copy succeeds exactly where the program has access to the whole range. -/
theorem zero_iff (h : Reached t va len r j) : r = 0 ↔ ∀ k < len, Access t (va + k) := by
  rcases h.stop with ⟨hr, rfl⟩ | ⟨hr, hj, hno, _⟩
  · exact ⟨fun _ => h.access, fun _ => hr⟩
  · constructor
    · intro h0
      rw [h0] at hr
      cases hr
    · intro hall
      exact absurd (hall j hj) hno

theorem zero_or (h : Reached t va len r j) : r = 0 ∨ r = -1 :=
  h.stop.imp And.left And.left

theorem all (h : Reached t va len r j) (hr : r = 0) : j = len := by
  rcases h.stop with ⟨_, hj⟩ | ⟨hr', _⟩
  · exact hj
  · rw [hr] at hr'
    cases hr'

end Reached

/-! ## Stores -/

section Pokes

variable {t : PageTree 2} {src : Bytes} {va : Nat} {m : Nat → Bytes}

theorem poke_self (c : UInt8) : poke t m va c (t.page va) (va % PGSIZE) = c := by
  unfold poke
  rw [update_self, update_self]

theorem poke_of_ne {p o : Nat} (c : UInt8) (h : ¬ (t.page va = p ∧ va % PGSIZE = o)) :
    poke t m va c p o = m p o := by
  unfold poke
  by_cases hp : p = t.page va
  · subst hp
    rw [update_self, update_of_ne fun e => h ⟨rfl, e.symm⟩]
  · rw [update_of_ne hp]

theorem pokes_of_ne {p o : Nat} : ∀ {j : Nat},
    (∀ k < j, ¬ (t.page (va + k) = p ∧ (va + k) % PGSIZE = o)) → pokes t src va j m p o = m p o
  | 0, _ => rfl
  | j + 1, h => by
    rw [pokes, poke_of_ne _ (h j (lt_succ_self j)),
      pokes_of_ne fun k hk => h k (lt_succ_of_lt hk)]

/-- Where a byte has been stored, one of those stored at that place stands. -/
theorem pokes_hit (src : Bytes) (va : Nat) (m : Nat → Bytes) : ∀ {j k : Nat}, k < j →
    ∃ i < j, t.page (va + i) = t.page (va + k) ∧ (va + i) % PGSIZE = (va + k) % PGSIZE ∧
      pokes t src va j m (t.page (va + k)) ((va + k) % PGSIZE) = src i
  | 0, _, hk => absurd hk (Nat.not_lt_zero _)
  | j + 1, k, hk => by
    by_cases hj : t.page (va + j) = t.page (va + k) ∧ (va + j) % PGSIZE = (va + k) % PGSIZE
    · refine ⟨j, lt_succ_self j, hj.1, hj.2, ?_⟩
      rw [pokes, ← hj.1, ← hj.2, poke_self]
    · have hkj : k < j := by
        refine lt_of_le_of_ne (le_of_lt_succ hk) fun e => hj ?_
        rw [e]
        exact ⟨rfl, rfl⟩
      obtain ⟨i, hi, hp, ho, heq⟩ := pokes_hit src va m hkj
      refine ⟨i, lt_succ_of_lt hi, hp, ho, ?_⟩
      rw [pokes, poke_of_ne _ hj, heq]

theorem pokes_add (n : Nat) : ∀ j : Nat,
    pokes t src va (n + j) m = pokes t (fun k => src (n + k)) (va + n) j (pokes t src va n m)
  | 0 => rfl
  | j + 1 => by
    rw [← Nat.add_assoc, pokes, pokes_add n j, pokes, Nat.add_assoc va]

theorem pokes_turn (src : Bytes) (so : Nat) (m : Nat → Bytes) {len n : Nat} (hn : Turn va len n) :
    pokes t (fun k => src (so + k)) va n m =
      update m (t.page va) ((m (t.page va)).blit (va % PGSIZE) src so n) := by
  have hpre : ∀ i ≤ n, pokes t (fun k => src (so + k)) va i m =
      update m (t.page va) ((m (t.page va)).blit (va % PGSIZE) src so i) := by
    intro i
    induction i with
    | zero =>
      intro _
      have hblit : (m (t.page va)).blit (va % PGSIZE) src so 0 = m (t.page va) := by
        funext a
        rw [Bytes.blit, if_neg (by omega)]
      rw [hblit, update_eq_self]
      rfl
    | succ i ih =>
      intro hi
      rw [pokes, ih (by omega), poke, page_congr (hn.page i hi), hn.off i hi,
        update_self, update_idem]
      congr 1
      funext a
      rcases lt_trichotomy a (va % PGSIZE + i) with h | rfl | h
      · rw [update_of_ne (by omega), Bytes.blit, Bytes.blit]
        by_cases hlow : va % PGSIZE ≤ a
        · rw [if_pos ⟨hlow, by omega⟩, if_pos ⟨hlow, by omega⟩]
        · rw [if_neg (by omega), if_neg (by omega)]
      · rw [update_self, Bytes.blit, if_pos (by omega), Nat.add_sub_cancel_left]
      · rw [update_of_ne (by omega), Bytes.blit, Bytes.blit, if_neg (by omega),
          if_neg (by omega)]
  exact hpre n le_rfl

end Pokes

/-! ## A small program -/

/-- The entries of a program with a page of text at address 0 and a page of data
    after it. -/
def textAndData (b : Nat) : Nat :=
  if b / PGSIZE = 0 then mkPte KERNBASE (PTE_R ||| PTE_X ||| PTE_U)
  else if b / PGSIZE = 1 then mkPte (KERNBASE + PGSIZE) (PTE_R ||| PTE_W ||| PTE_U)
  else 0

theorem textAndData_mapped (b : Nat) :
    mapped (mapped (fun _ => 0) 0 0 KERNBASE (PTE_R ||| PTE_X ||| PTE_U)) PGSIZE PGSIZE
      (KERNBASE + PGSIZE) (PTE_R ||| PTE_W ||| PTE_U) b = textAndData b := by
  rw [mapped_last _ _ _ _ _ (by decide)]
  unfold withPte textAndData
  rw [mapped_last _ _ _ _ _ (by decide)]
  by_cases h0 : b / PGSIZE = 0
  · rw [if_neg (by rw [h0]; decide), if_pos h0]
    exact if_pos h0
  · rw [if_neg h0]
    exact if_congr Iff.rfl rfl (if_neg h0)

theorem exists_table_textAndData : ∃ (s : Phys) (t : PageTree 2), t.Wf s.kmem.mem ∧
    (∀ b < VASPACE, t.pte b = textAndData b) ∧
    KERNBASE ∉ t.pages ∧ KERNBASE + PGSIZE ∉ t.pages := by
  have hA := apart_ledger smallEnv_nine
  have haddr : ∀ p ∈ (smallPhys 9).kmem.freelist ++ ((blank 2 (PHYSTOP - PGSIZE)).pages ++
      [KERNBASE, KERNBASE + PGSIZE]), p % PGSIZE = 0 ∧ p < 2 ^ 56 := by decide +kernel
  have hap : Apart (smallPhys 9).kmem ((blank 2 (PHYSTOP - PGSIZE)).pages ++
      [KERNBASE, KERNBASE + PGSIZE]) :=
    ⟨by decide +kernel, fun p hp => ⟨(haddr p hp).1, (haddr p hp).2⟩⟩
  have hrep : (blank 2 (PHYSTOP - PGSIZE)).Rep (smallPhys 9).kmem.mem :=
    blank_rep fun i => Bytes.getLE_zero _ _
  obtain ⟨r, s2, hrun, hr⟩ := exists_of_check
    (x := do
      let a ← mappages (smallEnv 9) (PHYSTOP - PGSIZE) 0 PGSIZE KERNBASE (PTE_R ||| PTE_X ||| PTE_U)
      let b ← mappages (smallEnv 9) (PHYSTOP - PGSIZE) PGSIZE PGSIZE (KERNBASE + PGSIZE)
        (PTE_R ||| PTE_W ||| PTE_U)
      pure (a, b)) (s := smallPhys 9)
    (t := fun r _ => r == (0, 0)) (by decide +kernel)
  obtain rfl : r = (0, 0) := by simpa using hr
  obtain ⟨a, s1, h1, hrun⟩ := bind_eq_ok.mp hrun
  obtain ⟨b, _, h2, hrun⟩ := bind_eq_ok.mp hrun
  cases hrun
  obtain ⟨t1, he1, _⟩ := mappagesLoop_ok smallEnv_nine (by decide) (by decide)
    (blank_ne_absent _ _) hrep hap h1
  rw [← blank_pa 2 (PHYSTOP - PGSIZE), ← he1.pa] at h2
  obtain ⟨t2, he2, _⟩ := mappagesLoop_ok smallEnv_nine (by decide) (by decide) he1.ne
    he1.rep he1.acct h2
  have hdis := (List.nodup_append.mp (hA.nodup he2.acct)).2.2
  refine ⟨s2, t2, he2.wf hA, fun b hb => ?_, fun hm => hdis _ hm _ (by simp) rfl,
    fun hm => hdis _ hm _ (by simp) rfl⟩
  have hb1 := he1.pte b hb
  rw [he2.pte b hb, ← textAndData_mapped]
  simp only [mapped, blank_pte] at hb1 ⊢
  rw [hb1]
  rfl

section TextAndData

variable {t : PageTree 2} (ht : ∀ b < VASPACE, t.pte b = textAndData b)
include ht

theorem access_textAndData {b : Nat} : Access t b ↔ b < 2 * PGSIZE := by
  constructor
  · rintro ⟨hlt, hv, _⟩
    rw [ht b (vaspace_of_maxva hlt), textAndData] at hv
    by_contra hge
    rw [if_neg (by simp only [PGSIZE] at *; omega),
      if_neg (by simp only [PGSIZE] at *; omega)] at hv
    exact hv rfl
  · intro hlt
    have hmax : b < MAXVA := lt_trans hlt (by decide)
    unfold Access
    rw [ht b (vaspace_of_maxva hmax), textAndData]
    refine ⟨hmax, ?_⟩
    by_cases h0 : b / PGSIZE = 0
    · rw [if_pos h0]
      decide
    · rw [if_neg h0, if_pos (by simp only [PGSIZE] at *; omega)]
      decide

theorem page_textAndData {b : Nat} (hb : b < 2 * PGSIZE) :
    t.page b = KERNBASE + b / PGSIZE * PGSIZE := by
  rw [page, ht b (lt_trans hb (by decide)), textAndData]
  by_cases h0 : b / PGSIZE = 0
  · rw [if_pos h0, h0]
    decide
  · have h1 : b / PGSIZE = 1 := by
      simp only [PGSIZE] at *
      omega
    rw [if_neg h0, if_pos h1, h1]
    decide

end TextAndData

theorem exists_textAndData : ∃ (s : Phys) (t : PageTree 2), t.Wf s.kmem.mem ∧ t.InRam ∧
    t.Outside ∧ t.Distinct ∧ ∀ b < VASPACE, t.pte b = textAndData b := by
  obtain ⟨s, t, hwf, ht, h0, h1⟩ := exists_table_textAndData
  refine ⟨s, t, hwf, fun va ha => ?_, fun va ha => ?_, fun a b ha hb hab => ?_, ht⟩
  · rw [page_textAndData ht ((access_textAndData ht).mp ha)]
    simp only [KERNBASE]
    omega
  · have hva := (access_textAndData ht).mp ha
    rw [page_textAndData ht hva]
    have hq : va / PGSIZE = 0 ∨ va / PGSIZE = 1 := by
      simp only [PGSIZE] at *
      omega
    rcases hq with hq | hq
    · rw [hq]
      exact h0
    · rw [hq]
      exact h1
  · rw [page_textAndData ht ((access_textAndData ht).mp ha),
      page_textAndData ht ((access_textAndData ht).mp hb)] at hab
    simp only [PGSIZE] at *
    omega

/-! ## `copyout` and `copyin` -/

section Copies

variable {t : PageTree 2} {src : Bytes}

variable {j va : Nat} {m : Nat → Bytes}

theorem PageTree.Wf.poke (h : t.Wf m) (hout : t.Outside)
    (ha : Access t va) (c : UInt8) : t.Wf (poke t m va c) :=
  h.congr fun p hp => update_of_ne (fun e : p = t.page va => hout va ha (e ▸ hp)) _ _

theorem PageTree.Wf.pokes (h : t.Wf m) (hout : t.Outside) :
    ∀ {j : Nat}, (∀ k < j, Access t (va + k)) → t.Wf (pokes t src va j m)
  | 0, _ => h
  | j + 1, ha => (PageTree.Wf.pokes h hout fun k hk => ha k (lt_succ_of_lt hk)).poke hout
      (ha j (lt_succ_self j)) _

/-- **`copyout`, a byte at a time**: it stores the bytes before the first one
    without access. -/
theorem copyoutLoop_exact (src : Bytes) (hram : t.InRam) (hout : t.Outside) :
    ∀ {fuel : Nat} (s : Phys) (dstva off len : Nat), t.Wf s.kmem.mem → len ≤ fuel →
    ∃ r j, Reached t dstva len r j ∧ copyoutLoop E t.pa src fuel dstva off len s =
      .ok (r, s.setMem (pokes t (fun k => src (off + k)) dstva j s.kmem.mem)) := by
  intro fuel
  induction fuel with
  | zero =>
    intro s dstva off len _ hlen
    obtain rfl : len = 0 := by omega
    exact ⟨0, 0, Reached.done, rfl⟩
  | succ fuel ih =>
    intro s dstva off len hwf hlen
    rw [copyoutLoop]
    by_cases hpos : len > 0
    · rw [if_pos hpos]
      dsimp only
      rcases walkaddr_turn (E := E) hwf hram dstva with ⟨ha, hwalk, hne, hnext⟩ | ⟨ha, hwalk⟩
      · rw [bind_of_ok hwalk, if_neg hne, hnext, sub_PGROUNDDOWN]
        have hn := turn_of_pos dstva hpos
        generalize min (PGSIZE - dstva % PGSIZE) len = n at hn
        have hpok := pokes_turn (t := t) src off s.kmem.mem hn
        have hwf' : t.Wf (pokes t (fun k => src (off + k)) dstva n s.kmem.mem) :=
          hwf.pokes hout fun k hk => ha.congr (hn.page k hk).symm
        have hpos' := hn.pos
        have hle := hn.le
        rw [movePage, modify_bind_run, ← hpok]
        -- after the last turn the address is not used
        by_cases hlast : n < len
        · rw [← hn.next hlast]
          obtain ⟨r, j, hr, hrun⟩ := ih
            (s.setMem (pokes t (fun k => src (off + k)) dstva n s.kmem.mem)) (dstva + n) (off + n)
            (len - n) hwf' (by omega)
          refine ⟨r, n + j, hr.turn hn ha, hrun.trans ?_⟩
          simp only [pokes_add, Nat.add_assoc]
          rfl
        · obtain rfl : n = len := by omega
          refine ⟨0, n + 0, Reached.turn hn ha (by rw [Nat.sub_self]; exact .done), ?_⟩
          rw [Nat.sub_self]
          cases fuel <;> rfl
      · rw [bind_of_ok hwalk, if_pos rfl]
        exact ⟨-1, 0, Reached.failed hpos ha, rfl⟩
    · obtain rfl : len = 0 := by omega
      exact ⟨0, 0, Reached.done, rfl⟩

/-- **`copyin`, a byte at a time**: it reads the bytes before the first one
    without access. -/
theorem copyinLoop_exact {s : Phys} (hwf : t.Wf s.kmem.mem) (hram : t.InRam) (base : Nat) :
    ∀ {fuel : Nat} (dst : Bytes) (off len : Nat), len ≤ fuel →
    ∃ r j, Reached t (base + off) len r j ∧
      copyinLoop E t.pa fuel dst off (base + off) len s =
        .ok ((r, dst.blit off (fun k => peek t s.kmem.mem (base + k)) off j), s) := by
  intro fuel
  induction fuel with
  | zero =>
    intro dst off len hlen
    obtain rfl : len = 0 := by omega
    exact ⟨0, 0, Reached.done, by rw [Bytes.blit_none]; rfl⟩
  | succ fuel ih =>
    intro dst off len hlen
    rw [copyinLoop]
    by_cases hpos : len > 0
    · rw [if_pos hpos]
      dsimp only
      rcases walkaddr_turn (E := E) hwf hram (base + off) with
        ⟨ha, hwalk, hne, hnext⟩ | ⟨ha, hwalk⟩
      · rw [bind_of_ok hwalk, if_neg hne, hnext, sub_PGROUNDDOWN, reads_bind_run]
        have hn := turn_of_pos (base + off) hpos
        generalize min (PGSIZE - (base + off) % PGSIZE) len = n at hn
        have hpage : dst.blit off (s.kmem.mem (t.page (base + off))) ((base + off) % PGSIZE) n =
            dst.blit off (fun k => peek t s.kmem.mem (base + k)) off n := by
          funext a
          unfold Bytes.blit
          split
          · have hk : a - off < n := by omega
            simp only [peek, ← Nat.add_assoc]
            rw [page_congr (hn.page _ hk), hn.off _ hk]
          · rfl
        have hpos' := hn.pos
        have hle := hn.le
        rw [hpage]
        by_cases hlast : n < len
        · rw [← hn.next hlast, Nat.add_assoc]
          obtain ⟨r, j, hr, hrun⟩ := ih
            (dst.blit off (fun k => peek t s.kmem.mem (base + k)) off n) (off + n) (len - n)
            (by omega)
          rw [← Nat.add_assoc] at hr
          rw [Bytes.blit_blit] at hrun
          exact ⟨r, n + j, hr.turn hn ha, hrun⟩
        · obtain rfl : n = len := by omega
          refine ⟨0, n + 0, Reached.turn hn ha (by rw [Nat.sub_self]; exact .done), ?_⟩
          rw [Nat.sub_self]
          cases fuel <;> rfl
      · rw [bind_of_ok hwalk, if_pos rfl]
        exact ⟨-1, 0, Reached.failed hpos ha, by rw [Bytes.blit_none]; rfl⟩
    · obtain rfl : len = 0 := by omega
      exact ⟨0, 0, Reached.done, by rw [Bytes.blit_none]; rfl⟩

theorem Reached.lt_of_access {len k : Nat} {r : Int} (h : Reached t va len r j) (hk : k < len)
    (ha : ∀ i ≤ k, Access t (va + i)) : k < j := by
  rcases h.stop with ⟨_, rfl⟩ | ⟨_, _, hno, _⟩
  · exact hk
  · by_contra hle
    exact hno (ha j (by omega))

/-- Bytes that `copyout` changes are bytes of the range that it has reached. -/
theorem exists_of_pokes_ne {p o : Nat} (h : pokes t src va j m p o ≠ m p o) :
    ∃ k < j, t.page (va + k) = p ∧ (va + k) % PGSIZE = o := by
  by_contra hno
  push Not at hno
  exact h (pokes_of_ne fun k hk hp => hno k hk hp.1 hp.2)

theorem peek_pokes (hd : t.Distinct) {k : Nat} (ha : ∀ k < j, Access t (va + k)) (hk : k < j) :
    peek t (pokes t src va j m) (va + k) = src k := by
  obtain ⟨i, hi, hp, ho, heq⟩ := pokes_hit (t := t) src va m hk
  have hq := hd _ _ (ha i hi) (ha k hk) hp
  obtain rfl : i = k := by
    simp only [PGSIZE] at *
    omega
  exact heq

/-- **`copyout` and `copyin` are exact and inverse.** `copyout` returns 0
    exactly if every byte of the range is below `MAXVA` in a page mapped with
    `PTE_V` and `PTE_U`; then the range holds `src`, no other byte of memory has
    changed, and `copyin` of the range returns `src`. If it returns -1, the
    bytes changed are in a prefix of the range that ends at a page boundary,
    before a page that is not accessible. `copyin` succeeds for the same
    ranges. -/
theorem copyout_copyin_exact {s : Phys} (dstva len : Nat) (src : Bytes) (h : t.Wf s.kmem.mem)
    (hram : t.InRam) (hout : t.Outside) (hd : t.Distinct) :
    (∃ r m', copyout E t.pa dstva src len s = .ok (r, s.setMem m') ∧ (r = 0 ∨ r = -1) ∧
      (r = 0 ↔ ∀ k < len, Access t (dstva + k)) ∧
      (r = 0 → (∀ k < len, peek t m' (dstva + k) = src k) ∧
        (∀ p o, m' p o ≠ s.kmem.mem p o →
          ∃ k < len, t.page (dstva + k) = p ∧ (dstva + k) % PGSIZE = o) ∧
        ∀ dst, ∃ dst', copyin E t.pa dst dstva len (s.setMem m') = .ok ((0, dst'), s.setMem m') ∧
          (∀ k < len, dst' k = src k) ∧ ∀ k ≥ len, dst' k = dst k) ∧
      (r = -1 → ∃ j < len, ¬ Access t (dstva + j) ∧ (j = 0 ∨ (dstva + j) % PGSIZE = 0) ∧
        ∀ p o, m' p o ≠ s.kmem.mem p o →
          ∃ k < j, t.page (dstva + k) = p ∧ (dstva + k) % PGSIZE = o)) ∧
    ∀ dst, ∃ r dst', copyin E t.pa dst dstva len s = .ok ((r, dst'), s) ∧ (r = 0 ∨ r = -1) ∧
      (r = 0 ↔ ∀ k < len, Access t (dstva + k)) ∧
      (r = 0 → ∀ k < len, dst' k = peek t s.kmem.mem (dstva + k)) ∧
      ∀ k ≥ len, dst' k = dst k := by
  have hcopyin : ∀ (s1 : Phys) (dst : Bytes), t.Wf s1.kmem.mem → ∃ r dst',
      copyin E t.pa dst dstva len s1 = .ok ((r, dst'), s1) ∧ (r = 0 ∨ r = -1) ∧
      (r = 0 ↔ ∀ k < len, Access t (dstva + k)) ∧
      (r = 0 → ∀ k < len, dst' k = peek t s1.kmem.mem (dstva + k)) ∧
      ∀ k ≥ len, dst' k = dst k := by
    intro s1 dst hwf
    obtain ⟨r, j, hr, hrun⟩ := copyinLoop_exact (E := E) hwf hram dstva dst 0 len le_rfl
    refine ⟨r, _, hrun, hr.zero_or, hr.zero_iff, fun h0 k hk => ?_, fun k hk => ?_⟩
    · rw [hr.all h0, Bytes.blit, if_pos (by omega), Nat.zero_add, Nat.sub_zero]
    · have hj := hr.le
      rw [Bytes.blit, if_neg (by omega)]
  obtain ⟨r, j, hr, hrun⟩ := copyoutLoop_exact (E := E) src hram hout s dstva 0 len h le_rfl
  simp only [Nat.zero_add] at hrun
  refine ⟨⟨r, _, hrun, hr.zero_or, hr.zero_iff, fun h0 => ?_, fun h1 => ?_⟩, fun dst =>
    hcopyin s dst h⟩
  · obtain rfl := hr.all h0
    have hget : ∀ k < j, peek t (pokes t src dstva j s.kmem.mem) (dstva + k) = src k :=
      fun k hk => peek_pokes hd hr.access hk
    refine ⟨hget, fun p o hne => exists_of_pokes_ne hne, fun dst => ?_⟩
    obtain ⟨r', dst', hrun', _, hiff, hval, hrest⟩ := hcopyin
      (s.setMem (pokes t src dstva j s.kmem.mem)) dst (h.pokes hout hr.access)
    obtain rfl : r' = 0 := hiff.mpr hr.access
    exact ⟨dst', hrun', fun k hk => (hval rfl k hk).trans (hget k hk), hrest⟩
  · rcases hr.stop with ⟨h0, _⟩ | ⟨_, hj, hno, hb⟩
    · rw [h0] at h1
      cases h1
    · exact ⟨j, hj, hno, hb, fun p o hne => exists_of_pokes_ne hne⟩

/-- Ten bytes over the end of a page, out and in again. -/
theorem copyout_copyin_exact_across : ∃ (s s' : Phys) (t : PageTree 2) (dst : Bytes),
    copyout (smallEnv 9) t.pa 4090 (fun k => .ofNat k) 10 s = .ok (0, s') ∧
      peek t s'.kmem.mem 4097 = 7 ∧
      copyin (smallEnv 9) t.pa Bytes.zero 4090 10 s' = .ok ((0, dst), s') ∧ dst 9 = 9 := by
  obtain ⟨s, t, hwf, hram, hout, hd, ht⟩ := exists_textAndData
  obtain ⟨⟨r, m', hrun, _, hiff, hok, _⟩, _⟩ := copyout_copyin_exact (E := smallEnv 9) 4090 10
    (fun k => .ofNat k) hwf hram hout hd
  have hr : r = 0 := hiff.mpr fun k hk => (access_textAndData ht).mpr (by
    simp only [PGSIZE]
    omega)
  obtain ⟨hget, _, hin⟩ := hok hr
  obtain ⟨dst, hrun', hdst, _⟩ := hin Bytes.zero
  exact ⟨s, _, t, dst, by rw [hrun, hr], hget 7 (by decide), hrun', hdst 9 (by decide)⟩

/-- **Where `copyout` respects read-only memory.** It changes nothing but
    writable user pages, and fails for a range that is not all writable, exactly
    if every page that it gets to has `PTE_W`. What it gets to is the range up
    to the first address without `PTE_V` and `PTE_U`; a range cut short so may
    also use a physical page that is writable at another address. -/
theorem copyout_writes_writable_iff {s : Phys} {dstva len : Nat} (h : t.Wf s.kmem.mem)
    (hram : t.InRam) (hout : t.Outside) :
    (∀ src r s', copyout E t.pa dstva src len s = .ok (r, s') →
      (∀ p o, s'.kmem.mem p o ≠ s.kmem.mem p o → ∃ va, Writable t va ∧ t.page va = p) ∧
      ((∃ k < len, ¬ Writable t (dstva + k)) → r = -1)) ↔
    (∀ k < len, (∀ i ≤ k, Access t (dstva + i)) →
      ∃ va, Writable t va ∧ t.page va = t.page (dstva + k)) ∧
    ((∀ k < len, Access t (dstva + k)) → ∀ k < len, t.pte (dstva + k) &&& PTE_W ≠ 0) := by
  have hrun : ∀ src, ∃ r j, Reached t dstva len r j ∧ copyout E t.pa dstva src len s =
      .ok (r, s.setMem (pokes t src dstva j s.kmem.mem)) := by
    intro src
    obtain ⟨r, j, hr, hrun⟩ := copyoutLoop_exact (E := E) src hram hout s dstva 0 len h le_rfl
    simp only [Nat.zero_add] at hrun
    exact ⟨r, j, hr, hrun⟩
  constructor
  · intro hsafe
    refine ⟨fun k hk ha => ?_, fun hall k hk hw => ?_⟩
    · -- a source that differs from the byte at `dstva + k`
      obtain ⟨r, j, hr, hok⟩ := hrun fun _ => peek t s.kmem.mem (dstva + k) + 1
      obtain ⟨i, _, _, _, heq⟩ := pokes_hit (t := t)
        (fun _ => peek t s.kmem.mem (dstva + k) + 1) dstva s.kmem.mem (hr.lt_of_access hk ha)
      refine (hsafe _ r _ hok).1 (t.page (dstva + k)) ((dstva + k) % PGSIZE) fun hsame => ?_
      have hplus := heq.symm.trans hsame
      change peek t s.kmem.mem (dstva + k) + 1 = peek t s.kmem.mem (dstva + k) at hplus
      simp at hplus
    · obtain ⟨r, j, hr, hok⟩ := hrun Bytes.zero
      have h1 := (hsafe _ r _ hok).2 ⟨k, hk, fun hwr => hwr.2 hw⟩
      rw [hr.zero_iff.mpr hall] at h1
      cases h1
  · rintro ⟨hcut, hwhole⟩ src r s' hok
    obtain ⟨r', j, hr, hok'⟩ := hrun src
    rw [hok'] at hok
    cases hok
    refine ⟨fun p o hne => ?_, fun ⟨k, hk, hnw⟩ => ?_⟩
    · obtain ⟨k, hk, rfl, _⟩ := exists_of_pokes_ne hne
      exact hcut k (lt_of_lt_of_le hk hr.le) fun i hi => hr.access i (by omega)
    · refine hr.zero_or.resolve_left fun h0 => ?_
      have hall := hr.zero_iff.mp h0
      exact hnw ⟨hall k hk, hwhole hall k hk⟩

/-- Copies into the data page, of any ten bytes. -/
theorem copyout_writes_writable_data : ∃ (s : Phys) (t : PageTree 2),
    ∀ src r s', copyout (smallEnv 9) t.pa PGSIZE src 10 s = .ok (r, s') →
      (∀ p o, s'.kmem.mem p o ≠ s.kmem.mem p o → ∃ va, Writable t va ∧ t.page va = p) ∧
      ((∃ k < 10, ¬ Writable t (PGSIZE + k)) → r = -1) := by
  obtain ⟨s, t, hwf, hram, hout, _, ht⟩ := exists_textAndData
  have hw : ∀ k < 10, t.pte (PGSIZE + k) &&& PTE_W ≠ 0 := by
    intro k hk
    have hq : (PGSIZE + k) / PGSIZE = 1 := by
      simp only [PGSIZE]
      omega
    rw [ht _ (by simp only [PGSIZE, VASPACE]; omega), textAndData, hq]
    decide
  refine ⟨s, t, (copyout_writes_writable_iff (E := smallEnv 9) hwf hram hout).mpr
    ⟨fun k hk ha => ⟨PGSIZE + k, ⟨ha k le_rfl, hw k hk⟩, rfl⟩, fun _ => hw⟩⟩

/-- **Text is written.** A page for a segment with only the execute flag, mapped
    as `exec` maps it, has no `PTE_W`, and `copyout` writes a byte there. -/
theorem copyout_writes_text : ∃ (pagetable pte : Nat) (s₁ s₂ s₃ s₄ : Phys),
    uvmcreate (smallEnv 9) (smallPhys 9) = .ok (some pagetable, s₁) ∧
    uvmalloc (smallEnv 9) pagetable 0 PGSIZE (flags2perm 1) s₁ = .ok (PGSIZE, s₂) ∧
    lookup (smallEnv 9) pagetable 0 s₂ = .ok (pte, s₃) ∧ pte &&& PTE_W = 0 ∧
    copyout (smallEnv 9) pagetable 0 (fun _ => 7) 1 s₃ = .ok (0, s₄) ∧
    s₃.kmem.mem (PTE2PA pte) 0 = 0 ∧ s₄.kmem.mem (PTE2PA pte) 0 = 7 := by
  let pagetable := PHYSTOP - 2 * PGSIZE
  let pte := mkPte (PHYSTOP - 3 * PGSIZE) (PTE_R ||| PTE_X ||| PTE_U)
  obtain ⟨_, s₄, hrun, hlast⟩ := exists_of_check
    (x := do
      let a ← uvmcreate (smallEnv 9)
      let b ← uvmalloc (smallEnv 9) pagetable 0 PGSIZE (flags2perm 1)
      let c ← lookup (smallEnv 9) pagetable 0
      let before ← Sys.reads fun s => s.kmem.mem (PTE2PA pte) 0
      let r ← copyout (smallEnv 9) pagetable 0 (fun _ => 7) 1
      if a = some pagetable ∧ b = PGSIZE ∧ c = pte ∧ before = 0 ∧ r = 0 then pure ()
      else Sys.panic "other")
    (s := smallPhys 9) (t := fun _ s => s.kmem.mem (PTE2PA pte) 0 == 7) (by decide +kernel)
  obtain ⟨a, s₁, h1, hrun⟩ := bind_eq_ok.mp hrun
  obtain ⟨b, s₂, h2, hrun⟩ := bind_eq_ok.mp hrun
  obtain ⟨c, s₃, h3, hrun⟩ := bind_eq_ok.mp hrun
  rw [reads_bind_run] at hrun
  obtain ⟨r, s5, h4, hend⟩ := bind_eq_ok.mp hrun
  split at hend
  · rename_i hall
    obtain ⟨rfl, rfl, rfl, hbefore, rfl⟩ := hall
    cases hend
    exact ⟨pagetable, pte, s₁, s₂, s₃, s₄, h1, h2, h3, by decide, h4, hbefore, by simpa using hlast⟩
  · cases hend

end Copies

end Xv6
