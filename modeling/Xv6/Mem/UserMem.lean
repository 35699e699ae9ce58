import Xv6.Mem.Lifetime

/-!
# Operations on a process's own memory

`growproc` keeps the number of user pages what `p->sz` says, on every path;
`uvmclear` changes the flags of one page; `copyout` writes into user pages,
whatever address it is given, and so does not touch the tables. `ps` is
`growproc` and then `copyout`.
-/

namespace Xv6

open List Sys

variable {E : Env}

open PageTree

section Specs

variable {s : Phys} {tf : Nat} {t : PageTree 2} {u : Pages} {F : List Nat}

/-! ## Flags -/

theorem Leaf.clear {perm : Nat} (h : Leaf perm) : Leaf (perm &&& (2 ^ 10 - 1 - PTE_U)) := by
  refine ⟨lt_of_le_of_lt Nat.and_le_left h.1, ?_⟩
  have hmask : (2 ^ 10 - 1 - PTE_U) &&& (PTE_R ||| PTE_W ||| PTE_X) =
      PTE_R ||| PTE_W ||| PTE_X := by
    decide
  rw [Nat.and_assoc, hmask]
  exact h.2

theorem spacePte_set (hu : u.length * PGSIZE < TRAPFRAME) {k : Nat} (hk : k < u.length)
    (x : Nat × Nat) (b : Nat) :
    withPte (spacePte E tf u) (k * PGSIZE) (mkPte x.1 x.2) b = spacePte E tf (u.set k x) b := by
  have hq : k * PGSIZE / PGSIZE = k := Nat.mul_div_cancel _ (by decide)
  have huser : userPte (u.set k x) b = if b / PGSIZE = k then mkPte x.1 x.2 else userPte u b := by
    unfold userPte
    by_cases hb : b / PGSIZE = k
    · rw [if_pos hb, hb, getElem?_set_self hk]
    · rw [if_neg hb, getElem?_set_ne (Ne.symm hb)]
  rw [withPte, hq]
  by_cases hb : b / PGSIZE = k
  · have hlt : b < TRAPFRAME := by
      simp only [TRAPFRAME, TRAMPOLINE, MAXVA, PGSIZE] at *
      omega
    rw [if_pos hb, spacePte_user hlt, huser, if_pos hb]
  · unfold spacePte withPte
    rw [if_neg hb, huser, if_neg hb]

/-- User memory `u'` is `u`, but for the flags of page `k`, which is not the
    user's. -/
structure Guarded (u : Pages) (k : Nat) (u' : Pages) : Prop where
  pages : u'.map Prod.fst = u.map Prod.fst
  others : ∀ j ≠ k, u'[j]? = u[j]?
  guard : ∀ x, u'[k]? = some x → x.2 &&& PTE_U = 0

theorem Guarded.length {k : Nat} {u' : Pages} (h : Guarded u k u') :
    u'.length = u.length := by
  rw [← length_map (f := Prod.fst), h.pages, length_map]

theorem guarded_set {k : Nat} {x : Nat × Nat} (hx : u[k]? = some x) :
    Guarded u k (u.set k (x.1, x.2 &&& (2 ^ 10 - 1 - PTE_U))) := by
  obtain ⟨hk, rfl⟩ := List.getElem?_eq_some_iff.mp hx
  refine ⟨?_, fun j hj => getElem?_set_ne (Ne.symm hj), fun y hy => ?_⟩
  · have hlen : k < (u.map Prod.fst).length := by rwa [length_map]
    rw [map_set, ← getElem_map Prod.fst (h := hlen), set_getElem_self]
  · rw [getElem?_set_self hk] at hy
    obtain rfl := Option.some.inj hy
    show u[k].2 &&& (2 ^ 10 - 1 - PTE_U) &&& PTE_U = 0
    rw [Nat.and_assoc]
    exact Nat.and_zero _

/-- **`uvmclear` of a user page** takes the user's access away and leaves it
    mapped. -/
theorem uvmclear_spec (hE : E.Ok) (h : Space E s tf t u F) {k : Nat} (hk : k < u.length) :
    ∃ s' t' u', uvmclear E t.pa (k * PGSIZE) s = .ok ((), s') ∧ Moved E s tf t F s' t' u' ∧
      Guarded u k u' ∧ Kept u s s' := by
  obtain ⟨x, hx⟩ := exists_getElem? hk
  have hmem := mem_of_getElem? hx
  have hleaf := h.leaf x hmem
  obtain ⟨b, hwalk, hb, hpte⟩ := walk_user hE h h.rep hx
  have hva : k * PGSIZE < MAXVA := maxva_of_trapframe
    (lt_trans (Nat.mul_lt_mul_of_pos_right hk (by decide)) (h.below hE))
  have hst := EditIn.store (acct_ledger hE) hva h.rep h.acct hb (mkPte_lt (h.user_pageAddr hmem)
    hleaf.clear.1)
  unfold uvmclear
  rw [bind_of_ok hwalk]
  simp only [loadPte, storePte, reads_bind_run, hpte,
    clearUser_mkPte (h.user_pageAddr hmem) hleaf.1]
  have hguard := guarded_set hx
  refine ⟨_, _, _, rfl, Space.of_edit h.trapframe hst ?_ (fun c hc => ?_) (fun y hy => ?_), hguard,
    fun p hp => hst.frame p (mem_append_left _ hp)⟩
  · rw [hguard.pages]
  · rw [← spacePte_set (h.below hE) hk]
    unfold withPte
    rw [h.pte c hc]
  · rcases mem_or_eq_of_mem_set hy with hy | rfl
    · exact h.leaf y hy
    · exact hleaf.clear

/-! ## Contents -/

/-- Trampoline and trapframe are not the user's. -/
theorem spacePte_of_user {va : Nat} (hu : ¬ spacePte E tf u va &&& PTE_U = 0) :
    spacePte E tf u va = userPte u va := by
  unfold spacePte withPte at hu ⊢
  split
  · rename_i htf
    rw [if_pos htf, mkPte_and (by decide) (by decide)] at hu
    exact absurd (by decide) hu
  · rename_i htf
    rw [if_neg htf] at hu
    split
    · rename_i htr
      rw [if_pos htr, mkPte_and (by decide) (by decide)] at hu
      exact absurd (by decide) hu
    · rfl

theorem walkaddr_spec (h : Space E s tf t u F) (va : Nat) :
    ∃ pa, walkaddr E t.pa va s = .ok (pa, s) ∧ (pa ≠ 0 → pa ∈ u.map Prod.fst) := by
  unfold walkaddr
  by_cases hva : va ≥ MAXVA
  · exact ⟨0, by rw [if_pos hva]; rfl, fun h0 => absurd rfl h0⟩
  rw [if_neg hva, bind_of_ok (walk_read (by omega) h.ne h.rep h.pageAddr)]
  have hva' : va < MAXVA := by omega
  cases hb : t.table va with
  | none => exact ⟨0, rfl, fun h0 => absurd rfl h0⟩
  | some b =>
    simp only [Option.map_some, loadPte, reads_bind_run, h.rep.pteAt hb,
      h.pte va (vaspace_of_maxva hva')]
    by_cases hv : spacePte E tf u va &&& PTE_V = 0
    · exact ⟨0, by rw [if_pos hv]; rfl, fun h0 => absurd rfl h0⟩
    by_cases hu : spacePte E tf u va &&& PTE_U = 0
    · exact ⟨0, by rw [if_neg hv, if_pos hu]; rfl, fun h0 => absurd rfl h0⟩
    rw [if_neg hv, if_neg hu]
    refine ⟨_, rfl, fun _ => ?_⟩
    rw [spacePte_of_user hu] at hv ⊢
    unfold userPte at hv ⊢
    split at hv
    · rename_i x hx
      have hmem := mem_of_getElem? hx
      rw [PTE2PA_mkPte (h.user_pageAddr hmem) (h.leaf x hmem).1]
      exact mem_map_of_mem hmem
    · exact absurd (Nat.zero_and _) hv

/-- Writing into a user page changes no table. -/
theorem movePage_spec (h : Space E s tf t u F) {pa : Nat} (hpa : pa ∈ u.map Prod.fst)
    (off : Nat) (src : Bytes) (so n : Nat) :
    ∃ s', movePage pa off src so n s = .ok ((), s') ∧ Moved E s tf t F s' t u := by
  obtain ⟨_, hnd, hdis⟩ := nodup_append.mp h.acct.nodup_owned
  have hdis' := (nodup_append.mp hnd).2.2
  have htab : ∀ p ∈ t.pages, p ≠ pa := fun p hp e => hdis p hp pa (mem_append_left _ hpa) e
  have hF : ∀ p ∈ F, p ≠ pa := fun p hp e => hdis' pa hpa p hp e.symm
  refine ⟨_, rfl, rfl, h.congr (fun p hp => ?_) (h.acct.congr rfl rfl rfl rfl),
    fun p hp => ?_, fun _ hp => hp⟩
  · exact Function.update_of_ne (htab p hp) _ _
  · exact Function.update_of_ne (hF p hp) _ _

theorem copyoutLoop_spec {src : Bytes} : ∀ {fuel : Nat} {s : Phys} (dstva off len : Nat),
    Space E s tf t u F →
    ∃ r s', copyoutLoop E t.pa src fuel dstva off len s = .ok (r, s') ∧
      Moved E s tf t F s' t u := by
  intro fuel
  induction fuel with
  | zero => exact fun _ _ _ h => ⟨0, _, rfl, h.moved⟩
  | succ fuel ih =>
    intro s dstva off len h
    simp only [copyoutLoop]
    by_cases hlen : len > 0
    · rw [if_pos hlen]
      obtain ⟨pa, hrun, hpa⟩ := walkaddr_spec h (PGROUNDDOWN dstva)
      rw [bind_of_ok hrun]
      by_cases h0 : pa = 0
      · rw [if_pos h0]
        exact ⟨-1, s, rfl, h.moved⟩
      · obtain ⟨s1, hrun1, hm1⟩ := movePage_spec h (hpa h0) (dstva - PGROUNDDOWN dstva) src off
          (min (PGSIZE - (dstva - PGROUNDDOWN dstva)) len)
        rw [if_neg h0, bind_of_ok hrun1]
        obtain ⟨r, s', hrun', hm'⟩ := ih _ _ _ hm1.space
        exact ⟨r, s', hrun', hm1.trans hm'⟩
    · rw [if_neg hlen]
      exact ⟨0, s, rfl, h.moved⟩

/-- **`copyout`** writes user pages only. -/
theorem copyout_spec (h : Space E s tf t u F) (dstva : Nat) (src : Bytes) (len : Nat) :
    ∃ r s', copyout E t.pa dstva src len s = .ok (r, s') ∧ Moved E s tf t F s' t u :=
  copyoutLoop_spec _ _ _ h

/-! ## `growproc` and `ps` -/

/-- **`growproc`** keeps `p->sz` and user memory in step. -/
theorem growproc_spec (hE : E.Ok) (h : Space E s tf t u F) {sz : Nat} (hsz : u.length = npages sz)
    (n : Int) :
    ∃ r sz' s' t' u', growproc E t.pa sz n s = .ok ((r, sz'), s') ∧ Moved E s tf t F s' t' u' ∧
      u'.length = npages sz' ∧ (r = -1 → sz' = sz ∧ u' = u ∧ Kept u s s') := by
  unfold growproc
  split
  · obtain ⟨r, s', t', new, hrun, hm, _, hkept, _, hres⟩ := uvmalloc_spec hE h hsz
      ((sz + n) % 2 ^ 64).toNat PTE_W (by decide)
    rw [bind_of_ok hrun]
    by_cases hr : r = 0
    · rw [if_pos hr]
      have hu : u ++ new = u := by
        rcases hres with ⟨_, hnew⟩ | ⟨hmax, hlen⟩
        · rw [hnew, append_nil]
        · -- from 0 to 0 bytes, which is an error too
          have hsz0 : sz = 0 := by omega
          rw [hr] at hlen
          rw [hsz0] at hsz
          rw [length_eq_zero_iff.mp hlen, length_eq_zero_iff.mp hsz]
      exact ⟨-1, sz, s', t', _, rfl, hm, hu.symm ▸ hsz, fun _ => ⟨rfl, hu, hkept⟩⟩
    · rw [if_neg hr]
      refine ⟨0, r, s', t', _, rfl, hm, ?_, nofun⟩
      rcases hres with ⟨h0, _⟩ | ⟨_, hlen⟩
      · exact absurd h0 hr
      · exact hlen
  · split
    · obtain ⟨s', t', hrun, hm, _⟩ := uvmdealloc_spec hE h hsz ((sz + n) % 2 ^ 64).toNat
      rw [bind_of_ok hrun]
      refine ⟨0, _, s', t', _, rfl, hm, ?_, nofun⟩
      rw [length_take, hsz]
      rcases le_total sz ((sz + n) % 2 ^ 64).toNat with hle | hle
      · rw [min_eq_left hle, min_eq_right (npages_mono hle)]
      · rw [min_eq_right hle, min_eq_left (npages_mono hle)]
    · exact ⟨0, sz, s, t, u, rfl, h.moved, hsz, nofun⟩

/-- **`ps`** runs out of stack, or leaves the caller with the memory that its
    `p->sz` says. -/
theorem ps_spec (hE : E.Ok) (h : Space E s tf t u F) {sz : Nat} (hsz : u.length = npages sz)
    (start count : UInt8) (table : Bytes) :
    ps E t.pa sz start count table s = .error .overflow ∨
    ∃ r sz' s' t' u', ps E t.pa sz start count table s = .ok ((r, sz'), s') ∧
      Moved E s tf t F s' t' u' ∧ u'.length = npages sz' := by
  unfold ps
  split
  · exact .inr ⟨0, sz, s, t, u, rfl, h.moved, hsz⟩
  · obtain ⟨r, sz', s1, t1, u1, hrun, hm, hsz', _⟩ := growproc_spec hE h hsz
      (count.toNat * sizeofUserProc : Nat)
    rw [bind_of_ok hrun]
    simp only
    split_ifs
    · exact .inr ⟨0, sz', s1, t1, u1, rfl, hm, hsz'⟩
    · exact .inr ⟨0, sz', s1, t1, u1, rfl, hm, hsz'⟩
    · obtain ⟨r', s2, hrun2, hm2⟩ := copyout_spec hm.space sz table
        (count.toNat * sizeofUserProc)
      rw [hm.pa] at hrun2
      rw [bind_of_ok hrun2]
      exact .inr ⟨sz, sz', s2, t1, u1, rfl, hm.trans hm2, hsz'⟩
    · exact .inl rfl

end Specs

end Xv6
