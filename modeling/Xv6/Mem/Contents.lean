import Xv6.Mem.Copy

/-!
# What user memory holds

The bytes of an address space, as a function of the virtual address (`cell`),
and what the calls that write user memory do to that function. `byteAt` is what
a program finds at an address, read from the tables in memory; in an address
space it is `cell` where the program has access.
-/

namespace Xv6

open Function List Nat
open PageTree

variable {E : Env}

/-- What a program finds at `va`: the byte, if the entry has `PTE_V` and
    `PTE_U`. -/
def byteAt (m : Nat → Bytes) (pagetable va : Nat) : Option UInt8 :=
  let pte := entryAt m va 0 2 pagetable
  if va < MAXVA ∧ pte &&& PTE_V ≠ 0 ∧ pte &&& PTE_U ≠ 0 then
    some (m (PTE2PA pte) (va % PGSIZE))
  else none

section Spaces

variable {s : Phys} {tf : Nat} {t : PageTree 2} {u : Pages} {F : List Nat}

/-! ## User pages -/

namespace Space

theorem user_nodup (h : Space E s tf t u F) : (u.map Prod.fst).Nodup :=
  (nodup_append.mp (nodup_append.mp h.acct.nodup_owned).2.1).1

theorem index_inj (h : Space E s tf t u F) {j k : Nat} {x y : Nat × Nat} (hx : u[j]? = some x)
    (hy : u[k]? = some y) (he : x.1 = y.1) : j = k := by
  have hj : j < (u.map Prod.fst).length := by
    rw [length_map]
    exact (List.getElem?_eq_some_iff.mp hx).1
  refine (getElem?_inj hj h.user_nodup).mp ?_
  rw [getElem?_map, getElem?_map, hx, hy, Option.map_some, Option.map_some, he]

theorem wf (h : Space E s tf t u F) : t.Wf s.kmem.mem := h.acct.wf h.ne h.rep

section

variable (hE : E.Ok) (h : Space E s tf t u F)

include hE h

theorem user_lt {va : Nat} {x : Nat × Nat} (hx : u[va / PGSIZE]? = some x) : va < TRAPFRAME := by
  have hk : va / PGSIZE < u.length := (List.getElem?_eq_some_iff.mp hx).1
  exact lt_trans ((Nat.div_lt_iff_lt_mul (by decide)).mp hk) (h.below hE)

theorem user_pte {va : Nat} {x : Nat × Nat} (hx : u[va / PGSIZE]? = some x) :
    t.pte va = mkPte x.1 x.2 := by
  have hlt := h.user_lt hE hx
  rw [h.pte va (vaspace_of_maxva (maxva_of_trapframe hlt)), spacePte_user hlt, userPte, hx]

theorem user_page {va : Nat} {x : Nat × Nat} (hx : u[va / PGSIZE]? = some x) : t.page va = x.1 := by
  have hmem := mem_of_getElem? hx
  rw [page, h.user_pte hE hx, PTE2PA_mkPte (h.user_pageAddr hmem) (h.leaf x hmem).1]

theorem access_iff {va : Nat} :
    Access t va ↔ ∃ x, u[va / PGSIZE]? = some x ∧ x.2 &&& PTE_U ≠ 0 := by
  constructor
  · rintro ⟨hlt, hv, hu⟩
    rw [h.pte va (vaspace_of_maxva hlt)] at hv hu
    rw [spacePte_of_user hu] at hv hu
    unfold userPte at hv hu
    cases hx : u[va / PGSIZE]? with
    | none =>
      rw [hx] at hv
      exact absurd (zero_and _) hv
    | some x =>
      rw [hx] at hu
      refine ⟨x, rfl, fun h0 => hu ?_⟩
      show mkPte x.1 x.2 &&& PTE_U = 0
      rw [mkPte_and (h.leaf x (mem_of_getElem? hx)).1 (by decide), and_or_distrib_right,
        h0]
      rfl
  · rintro ⟨x, hx, hu⟩
    have hleaf := h.leaf x (mem_of_getElem? hx)
    refine ⟨maxva_of_trapframe (h.user_lt hE hx), ?_, ?_⟩
    · rw [h.user_pte hE hx, mkPte_valid hleaf.1]
      decide
    · rw [h.user_pte hE hx, mkPte_and hleaf.1 (by decide), and_or_distrib_right]
      exact fun h0 => hu (Nat.or_eq_zero_iff.mp h0).1

theorem inRam : t.InRam := by
  intro va ha
  obtain ⟨x, hx, _⟩ := (h.access_iff hE).mp ha
  have hpage : E.Page x.1 := h.acct.page_of_mem (mem_append_right _ (mem_append_left _
    (mem_map_of_mem (mem_of_getElem? hx))))
  have := (hpage.addr hE).2.1
  rw [h.user_page hE hx]
  simp only [KERNBASE] at this
  omega

theorem outside : t.Outside := by
  intro va ha hmem
  obtain ⟨x, hx, _⟩ := (h.access_iff hE).mp ha
  rw [h.user_page hE hx] at hmem
  exact (nodup_append.mp h.acct.nodup_owned).2.2 x.1 hmem x.1
    (mem_append_left _ (mem_map_of_mem (mem_of_getElem? hx))) rfl

/-- **What a program finds** is what user memory holds, where it has access. -/
theorem byteAt (va : Nat) :
    Xv6.byteAt s.kmem.mem t.pa va = if Access t va then some (cell u s.kmem.mem va) else none := by
  unfold Xv6.byteAt
  rw [h.entryAt_eq]
  refine if_ctx_congr Iff.rfl (fun ha => ?_) fun _ => rfl
  obtain ⟨x, hx, _⟩ := (h.access_iff hE).mp ha
  have hpage : PTE2PA (t.pte va) = x.1 := h.user_page hE hx
  rw [hpage, cell, hx]

end

end Space

/-! ## Stores -/

theorem cell_poke (hE : E.Ok) (h : Space E s tf t u F) (m : Nat → Bytes) {va : Nat}
    (ha : Access t va) (c : UInt8) (b : Nat) :
    cell u (poke t m va c) b = if b = va then c else cell u m b := by
  obtain ⟨x, hx, _⟩ := (h.access_iff hE).mp ha
  have hpage := h.user_page hE hx
  unfold cell
  by_cases hb : b = va
  · rw [if_pos hb, hb, hx]
    show poke t m va c x.1 (va % PGSIZE) = c
    rw [← hpage, poke_self]
  rw [if_neg hb]
  cases hy : u[b / PGSIZE]? with
  | none => rfl
  | some y =>
    refine poke_of_ne c fun ⟨he, ho⟩ => hb ?_
    have hq := h.index_inj hy hx (by rw [← he, hpage])
    simp only [PGSIZE] at hq ho
    omega

theorem cell_pokes (hE : E.Ok) (h : Space E s tf t u F) (src : Bytes) (va : Nat) (m : Nat → Bytes)
    (b : Nat) : ∀ {j : Nat}, (∀ k < j, Access t (va + k)) →
    cell u (pokes t src va j m) b = if va ≤ b ∧ b < va + j then src (b - va) else cell u m b
  | 0, _ => by rw [if_neg (by omega)]; rfl
  | j + 1, ha => by
    rw [pokes, cell_poke hE h _ (ha j (lt_succ_self j)),
      cell_pokes hE h src va m b fun k hk => ha k (lt_succ_of_lt hk)]
    by_cases hb : b = va + j
    · rw [if_pos hb, if_pos (by omega), hb, Nat.add_sub_cancel_left]
    · rw [if_neg hb]
      exact if_congr (by omega) rfl rfl

theorem cell_move (h : Space E s tf t u F) (m : Nat → Bytes) (src : Bytes) {k n : Nat}
    {x : Nat × Nat} (hx : u[k]? = some x) (hn : n ≤ PGSIZE) (b : Nat) :
    cell u (update m x.1 ((m x.1).blit 0 src 0 n)) b =
      if k * PGSIZE ≤ b ∧ b < k * PGSIZE + n then src (b - k * PGSIZE) else cell u m b := by
  unfold cell
  by_cases hk : b / PGSIZE = k
  · have hlow : k * PGSIZE ≤ b := by
      rw [← hk]
      exact div_mul_le_self _ _
    have hmod : b % PGSIZE = b - k * PGSIZE := by
      have := div_add_mod b PGSIZE
      rw [hk, Nat.mul_comm] at this
      omega
    rw [hk, hx]
    show update m x.1 _ x.1 (b % PGSIZE) = _
    rw [update_self, Bytes.blit, Nat.zero_add, Nat.zero_add, Nat.sub_zero, hmod]
    exact if_congr ⟨fun h => ⟨hlow, by omega⟩, fun h => ⟨Nat.zero_le _, by omega⟩⟩ rfl rfl
  · have hout : ¬ (k * PGSIZE ≤ b ∧ b < k * PGSIZE + n) := by
      simp only [PGSIZE] at *
      omega
    rw [if_neg hout]
    cases hy : u[b / PGSIZE]? with
    | none => rfl
    | some y =>
      show update m x.1 _ y.1 _ = m y.1 _
      rw [update_of_ne fun e => hk (h.index_inj hy hx e)]

/-- **`copyout`** of `len` bytes gets through `j` of them; that much of user
    memory holds `src`, and no other page of memory has changed. -/
theorem copyout_cell (hE : E.Ok) (h : Space E s tf t u F) (dstva : Nat) (src : Bytes) (len : Nat) :
    ∃ r s' j, copyout E t.pa dstva src len s = .ok (r, s') ∧ Moved E s tf t F s' t u ∧
      Reached t dstva len r j ∧
      (∀ b, cell u s'.kmem.mem b =
        if dstva ≤ b ∧ b < dstva + j then src (b - dstva) else cell u s.kmem.mem b) ∧
      ∀ q, (∀ k < j, t.page (dstva + k) ≠ q) → s'.kmem.mem q = s.kmem.mem q := by
  obtain ⟨r, s', hrun, hm⟩ := copyout_spec h dstva src len
  obtain ⟨r', j, hr, hrun'⟩ := copyoutLoop_exact (E := E) src (h.inRam hE) (h.outside hE) s dstva 0
    len h.wf le_rfl
  simp only [Nat.zero_add] at hrun'
  have hsame := hrun.symm.trans hrun'
  simp only [Except.ok.injEq, Prod.mk.injEq] at hsame
  obtain ⟨rfl, rfl⟩ := hsame
  exact ⟨r, _, j, hrun, hm, hr, fun b => cell_pokes hE h src dstva _ b hr.access, fun q hq =>
    funext fun o => pokes_of_ne fun k hk e => hq k hk e.1⟩

end Spaces

end Xv6
