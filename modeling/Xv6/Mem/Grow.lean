import Xv6.Mem.Contents
import Xv6.Mem.Exhausted

/-!
# Growing and shrinking

What `growproc` does to the caller's memory, as its page table shows it: a
successful call keeps what is below both sizes, adds pages of zeroes or frees
the pages it unmaps, and a call that fails changes nothing. `sz + n` is computed
in 64 bits without a sign, so that a request for less than nothing is one for
more than everything: `uvmdealloc` takes it for no request at all, and
`growproc` reports success.
-/

namespace Xv6

open List Sys Nat
open PageTree

variable {E : Env}

/-- The memory at `pagetable` went from `sz` to `sz'` bytes, which are `n`
    more. -/
structure Grown (pagetable sz : Nat) (n : Int) (s : Phys) (sz' : Nat) (s' : Phys) : Prop where
  size : (sz' : Int) = sz + n
  below : ∀ va < min sz sz',
    entryAt s'.kmem.mem va 0 2 pagetable = entryAt s.kmem.mem va 0 2 pagetable ∧
    s'.kmem.mem (PTE2PA (entryAt s.kmem.mem va 0 2 pagetable)) (va % PGSIZE) =
      s.kmem.mem (PTE2PA (entryAt s.kmem.mem va 0 2 pagetable)) (va % PGSIZE)
  /-- a page that was not there before is the user's, and zero -/
  fresh : ∀ va, PGROUNDUP sz ≤ va → va < PGROUNDUP sz' → byteAt s'.kmem.mem pagetable va = some 0
  above : ∀ va, PGROUNDUP sz' ≤ va → va < TRAPFRAME → entryAt s'.kmem.mem va 0 2 pagetable = 0
  freed : ∀ va, PGROUNDUP sz' ≤ va → va < PGROUNDUP sz →
    PTE2PA (entryAt s.kmem.mem va 0 2 pagetable) ∈ s'.kmem.freelist

/-- The memory at `pagetable` is what it was. -/
structure Unmoved (pagetable sz : Nat) (s s' : Phys) : Prop where
  mapping : ∀ va < VASPACE,
    entryAt s'.kmem.mem va 0 2 pagetable = entryAt s.kmem.mem va 0 2 pagetable
  contents : ∀ va < PGROUNDUP sz,
    s'.kmem.mem (PTE2PA (entryAt s.kmem.mem va 0 2 pagetable)) (va % PGSIZE) =
      s.kmem.mem (PTE2PA (entryAt s.kmem.mem va 0 2 pagetable)) (va % PGSIZE)

/-- `growproc` returned what it did: all that was asked for, or nothing and
    -1. -/
def GrewExactly (E : Env) (pagetable sz : Nat) (n : Int) (s : Phys) : Prop :=
  ∃ r sz' s', growproc E pagetable sz n s = .ok ((r, sz'), s') ∧
    (r = 0 ∧ Grown pagetable sz n s sz' s' ∨ r = -1 ∧ sz' = sz ∧ Unmoved pagetable sz s s')

section Specs

variable {s s' : Phys} {tf : Nat} {t t' : PageTree 2} {u u' : Pages} {F : List Nat}
variable {sz sz' : Nat}

namespace Space

theorem entry_user (h : Space E s tf t u F) {va : Nat} (hva : va < TRAPFRAME) :
    Xv6.entryAt s.kmem.mem va 0 2 t.pa = userPte u va := by
  rw [h.entryAt_eq, h.pte va (vaspace_of_maxva (maxva_of_trapframe hva)),
    spacePte_user hva]

theorem entry_page (hE : E.Ok) (h : Space E s tf t u F) {va : Nat} {x : Nat × Nat}
    (hx : u[va / PGSIZE]? = some x) : PTE2PA (Xv6.entryAt s.kmem.mem va 0 2 t.pa) = x.1 := by
  rw [h.entryAt_eq]
  exact h.user_page hE hx

end Space

theorem div_lt_length {va : Nat} (h : va < u.length * PGSIZE) : va / PGSIZE < u.length :=
  (Nat.div_lt_iff_lt_mul (by decide)).mpr h

variable {n : Int}

/-- **The call as its pages show it**: the pages of both sizes hold what they
    held, the ones above are the user's and zero, or free. -/
theorem Grown.of_moved (hE : E.Ok) (h : Space E s tf t u F) (hm : Moved E s tf t F s' t' u')
    (hsz : u.length = npages sz) (hsz' : u'.length = npages sz') (hn : (sz' : Int) = sz + n)
    (hsame : ∀ k, k < u.length → k < u'.length → ∃ x, u[k]? = some x ∧ u'[k]? = some x ∧
    s'.kmem.mem x.1 = s.kmem.mem x.1) (hfresh : ∀ k x, u.length ≤ k → u'[k]? = some x → x.2 &&&
    PTE_U ≠ 0 ∧ ∀ o < PGSIZE, s'.kmem.mem x.1 o = 0)
    (hfreed : ∀ k x, u'.length ≤ k → u[k]? = some x → x.1 ∈ s'.kmem.freelist) :
    Grown t.pa sz n s sz' s' := by
  have hround := h.roundup hE hsz
  have hround' := hm.space.roundup hE hsz'
  have hbelow := h.below hE
  have hentry' : ∀ {va}, va < TRAPFRAME → entryAt s'.kmem.mem va 0 2 t.pa = userPte u' va := by
    intro va hva
    rw [← hm.pa]
    exact hm.space.entry_user hva
  refine ⟨hn, fun va hva => ?_, fun va hge hlt => ?_, fun va hge hlt => ?_, fun va hge hlt => ?_⟩
  · obtain ⟨hlt, hlt'⟩ := lt_min_iff.mp hva
    have hk : va < u.length * PGSIZE := lt_of_lt_of_le hlt (hsz ▸ le_npages_mul sz)
    have hk' : va < u'.length * PGSIZE := lt_of_lt_of_le hlt' (hsz' ▸ le_npages_mul sz')
    obtain ⟨x, hx, hx', hpage⟩ := hsame _ (div_lt_length hk) (div_lt_length hk')
    refine ⟨?_, by rw [h.entry_page hE hx, hpage]⟩
    rw [hentry' (by omega), h.entry_user (by omega), userPte, userPte, hx, hx']
  · rw [hround, ← Nat.le_div_iff_mul_le (by decide)] at hge
    rw [hround'] at hlt
    obtain ⟨x, hx⟩ := exists_getElem? (div_lt_length hlt)
    obtain ⟨huser, hzero⟩ := hfresh _ x hge hx
    rw [← hm.pa, hm.space.byteAt hE, if_pos ((hm.space.access_iff hE).mpr ⟨x, hx, huser⟩), cell, hx]
    exact congrArg some (hzero _ (mod_lt _ (by decide)))
  · rw [hround', ← Nat.le_div_iff_mul_le (by decide)] at hge
    rw [hentry' hlt, userPte_of_ge hge]
  · rw [hround', ← Nat.le_div_iff_mul_le (by decide)] at hge
    rw [hround] at hlt
    obtain ⟨x, hx⟩ := exists_getElem? (div_lt_length hlt)
    rw [h.entry_page hE hx]
    exact hfreed _ x hge hx

/-- The 64-bit sum, where it does not wrap. -/
theorem growproc_sum (hsz : sz ≤ 32768 * PGSIZE) (hn : n < 2 ^ 31) (hpos : 0 ≤ sz + n) :
    ((((sz : Int) + n) % 2 ^ 64).toNat : Int) = sz + n := by
  simp only [PGSIZE] at hsz
  omega

/-- A request for less than nothing succeeds and does nothing. -/
theorem growproc_wraps (E : Env) (pagetable : Nat) (s : Phys)
    (hsz : sz ≤ 32768 * PGSIZE) (hn : -2 ^ 31 ≤ n) (hneg : (sz : Int) + n < 0) :
    growproc E pagetable sz n s = .ok ((0, sz), s) := by
  have hsum : sz ≤ (((sz : Int) + n) % 2 ^ 64).toNat := by
    simp only [PGSIZE] at hsz
    omega
  unfold growproc uvmdealloc
  rw [if_neg (by omega), if_pos (by omega), if_pos hsum]
  rfl

theorem not_grewExactly (E : Env) (pagetable : Nat) (s : Phys)
    (hsz : sz ≤ 32768 * PGSIZE) (hn : -2 ^ 31 ≤ n) (hneg : (sz : Int) + n < 0) :
    ¬ GrewExactly E pagetable sz n s := by
  rintro ⟨r, sz', s', hrun, hres⟩
  rw [growproc_wraps E pagetable s hsz hn hneg] at hrun
  cases hrun
  obtain ⟨_, hgrown⟩ | ⟨hr, _⟩ := hres
  · have := hgrown.size
    omega
  · cases hr

/-- The call needs more pages than are free: at some point the documented
    `kalloc` returns 0. -/
def RunsOut (E : Env) (pagetable sz : Nat) (n : Int) (s : Phys) : Prop :=
  ∃ r s', growproc E pagetable sz n s = .ok (r, s') ∧ s'.failed ≠ s.failed

theorem Space.counted (h : Space E s tf t u F) : s.Counted := by
  refine ⟨h.acct.freePages, fun h0 => ?_⟩
  have hmax := h.acct.maxPages
  have hlen := length_pos_of_mem (mem_append_left (u.map Prod.fst ++ F)
    (pa_mem_pages h.ne))
  rw [h0] at hmax
  change 0 = _ at hmax
  omega

section Exact

variable (hE : E.Ok) (h : Space E s tf t u F) (hsz : u.length = npages sz)

include hE h hsz

theorem Grown.of_append
    {new : Pages} (hm : Moved E s tf t F s' t' (u ++ new)) (hkept : Kept u s s')
    (hcell : cell (u ++ new) s'.kmem.mem = cell u s.kmem.mem)
    (hnew : ∀ x ∈ new, x.2 &&& PTE_U ≠ 0) (hsz' : (u ++ new).length = npages sz')
    (hn : (sz' : Int) = sz + n) : Grown t.pa sz n s sz' s' := by
  refine .of_moved hE h hm hsz hsz' hn (fun k hk _ => ?_) (fun k x hk hx => ⟨?_, fun o ho => ?_⟩)
    (fun k x hk hx => ?_)
  · obtain ⟨x, hx⟩ := exists_getElem? hk
    refine ⟨x, hx, ?_, hkept x.1 (mem_map_of_mem (mem_of_getElem? hx))⟩
    rw [getElem?_append_left hk, hx]
  · rw [getElem?_append_right hk] at hx
    exact hnew x (mem_of_getElem? hx)
  · -- beyond its end, user memory holds zeroes before the call
    have hdiv : (k * PGSIZE + o) / PGSIZE = k := by
      rw [Nat.mul_comm, mul_add_div (by decide), div_eq_of_lt ho, Nat.add_zero]
    have hmod : (k * PGSIZE + o) % PGSIZE = o := by
      rw [Nat.mul_comm, mul_add_mod, mod_eq_of_lt ho]
    have hc := congrFun hcell (k * PGSIZE + o)
    rw [cell, cell, hdiv, hmod, hx, getElem?_eq_none hk] at hc
    exact hc
  · rw [length_append] at hk
    have := (List.getElem?_eq_some_iff.mp hx).1
    omega

theorem Grown.of_take (hm : Moved E s tf t F s' t' (u.take (npages sz')))
    (hkept : Kept (u.take (npages sz')) s s') (htab : t'.pages = t.pages)
    (hn : (sz' : Int) = sz + n) (hneg : n ≤ 0) : Grown t.pa sz n s sz' s' := by
  have hlen : (u.take (npages sz')).length = npages sz' := by
    refine length_take_of_le ?_
    rw [hsz]
    exact npages_mono (by omega)
  refine .of_moved hE h hm hsz hlen hn (fun k hk hk' => ?_) (fun k x hk hx => ?_)
    (fun k x hk hx => ?_)
  · obtain ⟨x, hx⟩ := exists_getElem? hk'
    refine ⟨x, ?_, hx, hkept x.1 (mem_map_of_mem (mem_of_getElem? hx))⟩
    rwa [getElem?_take_of_lt (hlen ▸ hk')] at hx
  · have := (List.getElem?_eq_some_iff.mp hx).1
    rw [hlen, hsz] at *
    have := npages_mono (show sz' ≤ sz by omega)
    omega
  · -- the page was in the ledger, and is in it no more
    have hin : x.1 ∈ (u.drop (npages sz')).map Prod.fst := by
      refine mem_map_of_mem (mem_of_getElem? (i := k - npages sz') ?_)
      rw [hlen] at hk
      rw [getElem?_drop, Nat.add_sub_cancel' hk, hx]
    have hsplit : u.map Prod.fst =
        (u.take (npages sz')).map Prod.fst ++ (u.drop (npages sz')).map Prod.fst := by
      rw [← map_append, take_append_drop]
    have hacct := h.acct
    rw [hsplit] at hacct
    have hpage : E.Page x.1 := hacct.page_of_mem (mem_append_right _
      (mem_append_left _ (mem_append_right _ hin)))
    obtain ⟨_, hrest, htables⟩ := nodup_append.mp hacct.nodup_owned
    obtain ⟨huser, _, hothers⟩ := nodup_append.mp hrest
    obtain ⟨_, _, htake⟩ := nodup_append.mp huser
    refine ((mem_append.mp ((hm.space.acct.pages x.1).mpr hpage))).resolve_right fun hmem => ?_
    rw [htab] at hmem
    obtain hmem | hmem := mem_append.mp hmem
    · exact htables _ hmem _ (mem_append_left _ (mem_append_right _ hin)) rfl
    · obtain hmem | hmem := mem_append.mp hmem
      · exact htake _ hmem _ hin rfl
      · exact hothers _ (mem_append_right _ hin) _ hmem rfl

theorem Unmoved.of_moved (hm : Moved E s tf t F s' t' u) (hkept : Kept u s s') :
    Unmoved t.pa sz s s' := by
  refine ⟨fun va hva => ?_, fun va hva => ?_⟩
  · rw [h.entryAt_eq, h.pte va hva, ← hm.pa,
      hm.space.entryAt_eq, hm.space.pte va hva]
  · rw [h.roundup hE hsz] at hva
    obtain ⟨x, hx⟩ := exists_getElem? (div_lt_length hva)
    rw [h.entry_page hE hx, hkept x.1 (mem_map_of_mem (mem_of_getElem? hx))]

/-- **`growproc` for more memory** adds pages of zeroes that are the user's, or
    leaves memory as it was. -/
theorem growproc_grows (hpos : 0 < n) (hn : n < 2 ^ 31) :
    ∃ r sz' s' t' new, growproc E t.pa sz n s = .ok ((r, sz'), s') ∧
      Moved E s tf t F s' t' (u ++ new) ∧ Kept u s s' ∧
      cell (u ++ new) s'.kmem.mem = cell u s.kmem.mem ∧ (∀ x ∈ new, x.2 &&& PTE_U ≠ 0) ∧
      (r = -1 ∧ sz' = sz ∧ new = [] ∨
        r = 0 ∧ (sz' : Int) = sz + n ∧ (u ++ new).length = npages sz') := by
  have hsum := growproc_sum (h.size_le hE hsz) hn (by omega)
  obtain ⟨r, s', t', new, hrun, hm, hnew, hkept, hcell, hres⟩ := uvmalloc_spec hE h hsz
    ((sz + n) % 2 ^ 64).toNat PTE_W (by decide)
  have huser : ∀ x ∈ new, x.2 &&& PTE_U ≠ 0 := by
    intro x hx
    rw [hnew x hx]
    decide
  unfold growproc
  rw [if_pos hpos, bind_of_ok hrun]
  obtain ⟨rfl, rfl⟩ | ⟨hr, hlen⟩ := hres
  · exact ⟨-1, sz, s', t', [], rfl, hm, hkept, hcell, huser, .inl ⟨rfl, rfl, rfl⟩⟩
  · rw [if_neg (by omega)]
    exact ⟨0, r, s', t', new, rfl, hm, hkept, hcell, huser, .inr ⟨rfl, by omega, hlen⟩⟩

/-- **`growproc` is exact** for a request that leaves a size: it grows or
    shrinks by what was asked for, or `kalloc` fails and nothing changes. -/
theorem growproc_exact (hn : n < 2 ^ 31) (hpos : 0 ≤ sz + n) : GrewExactly E t.pa sz n s := by
  have hsum := growproc_sum (h.size_le hE hsz) hn hpos
  unfold GrewExactly
  rcases lt_trichotomy n 0 with hlt | rfl | hgt
  · obtain ⟨s', t', hrun, hm, hkept, htab⟩ := uvmdealloc_tables hE h hsz ((sz + n) % 2 ^ 64).toNat
    unfold growproc
    rw [if_neg (by omega), if_pos hlt, bind_of_ok hrun, min_eq_right (by omega)]
    exact ⟨0, _, s', rfl, .inl ⟨rfl, .of_take hE h hsz hm hkept htab hsum (by omega)⟩⟩
  · have htake : u.take (npages sz) = u := take_of_length_le (by omega)
    unfold growproc
    rw [if_neg (lt_irrefl 0), if_neg (lt_irrefl 0)]
    refine ⟨0, sz, s, rfl, .inl ⟨rfl, .of_take hE h hsz ?_ ?_ rfl (by omega) (le_refl 0)⟩⟩
    · rw [htake]
      exact h.moved
    · exact fun _ _ => rfl
  · obtain ⟨r, sz', s', t', new, hrun, hm, hkept, hcell, huser, hres⟩ :=
      growproc_grows hE h hsz hgt hn
    refine ⟨r, sz', s', hrun, ?_⟩
    obtain ⟨rfl, rfl, rfl⟩ | ⟨rfl, hsz', hlen⟩ := hres
    · rw [append_nil] at hm
      exact .inr ⟨rfl, rfl, .of_moved hE h hsz hm hkept⟩
    · exact .inl ⟨rfl, .of_append hE h hsz hm hkept hcell huser hlen hsz'⟩

/-- With the assertion in `kalloc`, the call is exact as long as there are
    pages. -/
theorem grewExactly_asserting (hfirst : E.FirstFree) (hn : n < 2 ^ 31) (hpos : 0 ≤ sz + n) :
    GrewExactly E.asserting t.pa sz n s ↔ ¬ RunsOut E t.pa sz n s := by
  obtain ⟨r, sz', s', hrun, hres⟩ := growproc_exact hE h hsz hn hpos
  obtain ⟨_, ⟨hcount, hsame⟩ | ⟨hlt, _, hstop⟩⟩ :=
    (growproc_tracks hfirst t.pa sz n).run s (r, sz') s' h.counted hrun
  · refine iff_of_true ⟨r, sz', s', hsame, hres⟩ ?_
    rintro ⟨r', s'', hrun', hfailed⟩
    rw [hrun] at hrun'
    cases hrun'
    exact hfailed hcount
  · refine iff_of_false ?_ (not_not.mpr ⟨_, s', hrun, Nat.ne_of_gt hlt⟩)
    rintro ⟨r', sz'', s'', hrun', _⟩
    cases hstop.symm.trans hrun'

/-- **When growing is exact.** With the documented `kalloc`, if and only if the
    request does not ask for less than nothing; with the code's, if moreover
    there are pages for it. -/
theorem growproc_exact_iff {n : Int} (hn : -2 ^ 31 ≤ n ∧ n < 2 ^ 31) :
    (GrewExactly E t.pa sz n s ↔ 0 ≤ sz + n) ∧
    (E.FirstFree →
      (GrewExactly E.asserting t.pa sz n s ↔ 0 ≤ sz + n ∧ ¬ RunsOut E t.pa sz n s)) := by
  have hle := h.size_le hE hsz
  by_cases hpos : 0 ≤ sz + n
  · refine ⟨iff_of_true (growproc_exact hE h hsz hn.2 hpos) hpos, fun hfirst => ?_⟩
    rw [grewExactly_asserting hE h hsz hfirst hn.2 hpos, and_iff_right hpos]
  · have hneg : (sz : Int) + n < 0 := Int.not_le.mp hpos
    exact ⟨iff_of_false (not_grewExactly E _ s hle hn.1 hneg) hpos,
      fun _ => iff_of_false (not_grewExactly _ _ s hle hn.1 hneg) fun h => hpos h.1⟩

end Exact

end Specs

/-! ## A process of one page -/

/-- A process of 4096 bytes on a small machine, in a state that passes the
    test. -/
theorem exists_small_space (test : Nat → Phys → Bool)
    (hcheck : (procPagetable (smallEnv 9) (PHYSTOP - PGSIZE)).check (smallPhys 9) (fun res s =>
      res.any fun pagetable => (growproc (smallEnv 9) pagetable 0 4096).check s fun r s =>
        r.2 == 4096 && test pagetable s) = true) :
    ∃ s t u, Space (smallEnv 9) s (PHYSTOP - PGSIZE) t u [PHYSTOP - PGSIZE] ∧
      u.length = npages 4096 ∧ test t.pa s = true := by
  have hacct : Acct (smallEnv 9) (smallPhys 9).kmem [PHYSTOP - PGSIZE] :=
    smallPhys_acct (by decide) (by decide)
  obtain ⟨res, s1, hrun1, hcheck1⟩ := exists_of_check hcheck
  obtain ⟨_, _, hrun1', _, hres⟩ := procPagetable_spec smallEnv_nine hacct
    (hacct.page_of_mem (mem_singleton.mpr rfl)).pageAddr
  rw [hrun1] at hrun1'
  cases hrun1'
  obtain ⟨rfl, _⟩ | ⟨t, rfl, hsp⟩ := hres
  · cases hcheck1
  obtain ⟨⟨r, sz⟩, s2, hrun2, hcheck2⟩ := exists_of_check hcheck1
  obtain ⟨_, _, _, t', u', hrun2', hm, hsz, _⟩ := growproc_spec smallEnv_nine hsp
    npages_zero.symm 4096
  rw [hrun2] at hrun2'
  cases hrun2'
  obtain ⟨hsz', htest⟩ := Bool.and_eq_true_iff.mp hcheck2
  obtain rfl : sz = 4096 := beq_iff_eq.mp hsz'
  exact ⟨s2, t', u', hm.space, hsz, by rw [hm.pa]; exact htest⟩

theorem growproc_exact_iff_small :
    ∃ s t u, Space (smallEnv 9) s (PHYSTOP - PGSIZE) t u [PHYSTOP - PGSIZE] ∧
      u.length = npages 4096 ∧ GrewExactly (smallEnv 9).asserting t.pa 4096 5000 s := by
  obtain ⟨s, t, u, hsp, hsz, htest⟩ := exists_small_space
    (fun pagetable s => (growproc (smallEnv 9) pagetable 4096 5000).check s fun _ s' =>
      s'.failed == s.failed) (by decide +kernel)
  have hpages : ¬ RunsOut (smallEnv 9) t.pa 4096 5000 s := by
    rintro ⟨r', s', hrun, hfailed⟩
    obtain ⟨_, s1, hrun1, hcount⟩ := exists_of_check htest
    rw [hrun1] at hrun
    cases hrun
    exact hfailed (beq_iff_eq.mp hcount)
  have hiff := (growproc_exact_iff smallEnv_nine hsp hsz
    (n := 5000) (by decide)).2 ⟨rfl, fun _ _ => rfl⟩
  exact ⟨s, t, u, hsp, hsz, hiff.mpr ⟨by decide, hpages⟩⟩

/-- **4096 bytes less 5000**: `growproc` returns 0, and the process has the 4096
    bytes it had. -/
theorem growproc_below_zero :
    ∃ s t u, Space (smallEnv 9) s (PHYSTOP - PGSIZE) t u [PHYSTOP - PGSIZE] ∧
      u.length = npages 4096 ∧
      growproc (smallEnv 9).asserting t.pa 4096 (-5000) s = .ok ((0, 4096), s) ∧
      ¬ GrewExactly (smallEnv 9).asserting t.pa 4096 (-5000) s := by
  obtain ⟨s, t, u, hsp, hsz, _⟩ := exists_small_space (fun _ _ => true) (by decide +kernel)
  exact ⟨s, t, u, hsp, hsz, growproc_wraps _ _ s (by decide) (by decide) (by decide),
    not_grewExactly _ _ s (by decide) (by decide) (by decide)⟩

end Xv6
