import Xv6.Bio.Cache

/-!
# Every buffer is counted

`refcnt` is the number of processes with a pointer to the buffer, plus one while
the log has the block pinned. `CacheInv pin` states it together with what keeps
it true: a block is in at most one buffer, a pinned block is in one, and the
sleep lock belongs to a process that holds the buffer. Each operation of the
cache keeps it for an unchanged `pin`; `bpin` and `bunpin` are the two that
change `pin`, at one block.
-/

namespace Xv6
namespace Bio

open Function List

variable {P : Type}

namespace Cache

variable {b dev : Nat} {c c' : Cache P} {i : Fin NBUF} {p : P}

@[simp] theorem setBuf_ref (c : Cache P) (i : Fin NBUF) (b : Buf P) :
    (c.setBuf i b).ref = c.ref := rfl
@[simp] theorem setBuf_disk (c : Cache P) (i : Fin NBUF) (b : Buf P) :
    (c.setBuf i b).disk = c.disk := rfl
@[simp] theorem setBuf_same (c : Cache P) (i : Fin NBUF) (b : Buf P) :
    (c.setBuf i b).buf i = b := by simp [setBuf]
@[simp] theorem setBuf_self (c : Cache P) (i : Fin NBUF) : c.setBuf i (c.buf i) = c := by
  simp [setBuf]
theorem setBuf_ne (c : Cache P) {j : Fin NBUF} (b : Buf P) (h : j ≠ i) :
    (c.setBuf i b).buf j = c.buf j := by simp [setBuf, h]

theorem lookup_some (h : c.lookup dev b = some i) :
    (c.buf i).dev = dev ∧ (c.buf i).blockno = b := by
  simpa using find?_some h

theorem lookup_none (h : c.lookup dev b = none)
    (hi : i ∈ c.lru) (hdev : (c.buf i).dev = dev) : (c.buf i).blockno ≠ b := by
  have := find?_eq_none.mp h i hi
  simpa [hdev] using this

theorem victim_some (h : c.victim = some i) : (c.buf i).refcnt = 0 := by
  simpa using find?_some h

theorem mine_some (h : c.mine p b = some i) :
    (c.buf i).dev = ROOTDEV ∧ (c.buf i).blockno = b ∧ c.ref p i ≠ .away := by
  simpa [and_assoc] using find?_some h

theorem mine_none (h : c.mine p b = none)
    (hdev : (c.buf i).dev = ROOTDEV) (hb : (c.buf i).blockno = b) : c.ref p i = .away := by
  have := find?_eq_none.mp h i (mem_finRange i)
  simpa [hdev, hb] using this

variable [DecidableEq P]

@[simp] theorem setRef_buf (c : Cache P) (p : P) (i : Fin NBUF) (r : Ref) :
    (c.setRef p i r).buf = c.buf := rfl

theorem setRef_ref (c : Cache P) (p q : P) (i j : Fin NBUF) (r : Ref) :
    (c.setRef p i r).ref q j = if q = p ∧ j = i then r else c.ref q j := by
  by_cases hq : q = p
  · subst hq
    by_cases hj : j = i
    · subst hj; simp [setRef]
    · simp [setRef, hj]
  · simp [setRef, hq]

theorem setRef_same (c : Cache P) (p : P) (i : Fin NBUF) (r : Ref) :
    (c.setRef p i r).ref p i = r := by simp [setRef_ref]

@[simp] theorem setRef_self (c : Cache P) (p : P) (i : Fin NBUF) :
    c.setRef p i (c.ref p i) = c := by
  simp [setRef]

theorem setRef_other (c : Cache P) {q : P} {j : Fin NBUF} (r : Ref) (h : j ≠ i ∨ q ≠ p) :
    (c.setRef p i r).ref q j = c.ref q j := by
  rw [setRef_ref, if_neg]
  rintro ⟨hq, hj⟩
  exact h.elim (fun h => h hj) (fun h => h hq)

theorem bget_eq_next (h : c.bget p dev b = .next c') : (∃ i, c.lookup dev b = some i ∧ c' =
      (c.setBuf i { c.buf i with refcnt := (c.buf i).refcnt + 1 }).setRef p i .waiting) ∨
    (c.lookup dev b = none ∧ ∃ i, (c.buf i).refcnt = 0 ∧ c' =
      (c.setBuf i { c.buf i with dev, blockno := b, valid := false, refcnt := 1 }).setRef p i
        .waiting) := by
  unfold bget at h
  split at h
  · rename_i i hi
    injection h with h
    exact .inl ⟨i, hi, h.symm⟩
  · rename_i hn
    split at h
    · rename_i i hi
      injection h with h
      exact .inr ⟨hn, i, victim_some hi, h.symm⟩
    · cases h

theorem lock_eq_next (h : c.lock p i = .next c') :
    c.ref p i = .waiting ∧ (c.buf i).lock = none ∧ ∃ d,
      (d = if (c.buf i).valid then (c.buf i).data else c.disk (c.buf i).blockno) ∧ c' =
      (c.setBuf i { c.buf i with lock := some p, valid := true, data := d }).setRef p i
        (.holding false false) := by
  unfold lock at h
  split at h
  · rename_i hw
    injection h with h
    exact ⟨hw.1, hw.2, _, rfl, h.symm⟩
  · cases h

theorem unlock_eq_next (h : c.unlock p i = .next c') :
    ∃ m l, c.ref p i = .holding m l ∧ (m = true → l = true) ∧ c' =
      (c.setBuf i { c.buf i with lock := none }).setRef p i .releasing := by
  unfold unlock at h
  split at h
  · rename_i m l hr
    split at h
    · rename_i hml
      injection h with h
      exact ⟨m, l, hr, hml, h.symm⟩
    · cases h
  · cases h

/-- After `put` the list still has the same buffers, whether or not it was
    reordered. -/
theorem put_eq_next (h : c.put p i = .next c') :
    c.ref p i = .releasing ∧ ∃ l, (∀ j, j ∈ c.lru → j ∈ l) ∧ c' =
      { (c.setBuf i { c.buf i with refcnt := (c.buf i).refcnt - 1 }).setRef p i .away with
        lru := l } := by
  unfold put at h
  split at h
  · rename_i hr
    injection h with h
    refine ⟨hr, ?_⟩
    split at h
    · refine ⟨i :: c.lru.erase i, fun j hj => ?_, h.symm⟩
      by_cases hji : j = i
      · simp [hji]
      · exact mem_cons_of_mem _ ((mem_erase_of_ne hji).mpr hj)
    · exact ⟨c.lru, fun j hj => hj, h.symm⟩
  · cases h

/-- The pointers to one buffer. -/
theorem setRef_col (c : Cache P) (p : P) (i : Fin NBUF) (r : Ref) :
    (fun q => (c.setRef p i r).ref q i) = update (fun q => c.ref q i) p r := by
  funext q
  by_cases hq : q = p
  · subst hq; simp [setRef_ref]
  · simp [setRef_ref, hq]

/-- How many processes have a pointer to buffer `i`. -/
def holders [Fintype P] (c : Cache P) (i : Fin NBUF) : Int := count fun p => c.ref p i ≠ .away

section Holders

variable [Fintype P]

/-- The pointers to buffer `i` once that of `p` is `r`. -/
theorem count_col (c : Cache P) (p : P) (i : Fin NBUF) (r : Ref) :
    count (fun q => update (fun q => c.ref q i) p r q ≠ .away) =
      c.holders i - (if c.ref p i ≠ .away then 1 else 0) + (if r ≠ .away then 1 else 0) :=
  count_update (fun q => c.ref q i) (· ≠ .away) p r

omit [DecidableEq P] in
theorem holders_nonneg (c : Cache P) (i : Fin NBUF) : 0 ≤ c.holders i := count_nonneg _

end Holders

end Cache

/-! ## The invariant -/

/-- The log's share of a reference count. -/
def pinCount (pin : Nat → Bool) (b : Buf P) : Int :=
  if b.dev = ROOTDEV ∧ pin b.blockno = true then 1 else 0

structure CacheInv [Fintype P] (pin : Nat → Bool) (c : Cache P) : Prop where
  lru : ∀ i, i ∈ c.lru
  unique : ∀ i j, (c.buf i).dev ≠ 0 → (c.buf i).dev = (c.buf j).dev →
    (c.buf i).blockno = (c.buf j).blockno → i = j
  refcnt : ∀ i, (c.buf i).refcnt = c.holders i + pinCount pin (c.buf i)
  lock : ∀ i p, (c.buf i).lock = some p ↔ c.Holds p i
  valid : ∀ i p, c.Holds p i → (c.buf i).valid = true
  pinned : ∀ b, pin b = true →
    ∃ i, (c.buf i).dev = ROOTDEV ∧ (c.buf i).blockno = b ∧ (c.buf i).valid = true
  dev : ∀ i p, c.ref p i ≠ .away → (c.buf i).dev = ROOTDEV

namespace CacheInv

open Cache

variable [Fintype P] {pin : Nat → Bool} {c : Cache P} (h : CacheInv pin c)

include h

theorem congr_pin {pin' : Nat → Bool} (he : ∀ b, pin' b = pin b) : CacheInv pin' c := by
  have : pin' = pin := funext he
  rwa [this]

variable {c' : Cache P} {i : Fin NBUF} {p : P}

theorem holder_unique {q : P} (hp : c.Holds p i) (hq : c.Holds q i) : p = q := by
  have h1 := (h.lock i p).mpr hp
  have h2 := (h.lock i q).mpr hq
  rw [h1] at h2
  exact Option.some.inj h2

/-- Nobody has a pointer to a buffer that is not counted, and the log does not
    pin it. -/
theorem free_of_refcnt (h0 : (c.buf i).refcnt = 0) :
    (∀ p, c.ref p i = .away) ∧ pinCount pin (c.buf i) = 0 := by
  have hr := h.refcnt i
  have hn := c.holders_nonneg i
  have hpin : 0 ≤ pinCount pin (c.buf i) := by unfold pinCount; split <;> decide
  have hz : c.holders i = 0 := by omega
  refine ⟨fun p => ?_, by omega⟩
  have := count_eq_zero_iff.mp hz p
  simpa using this

/-- A buffer beside the pointers to it. -/
structure Counts (pin : Nat → Bool) (b : Buf P) (ref : P → Ref) : Prop where
  refcnt : b.refcnt = count (fun p => ref p ≠ .away) + pinCount pin b
  lock : ∀ p, b.lock = some p ↔ ∃ m l, ref p = .holding m l
  valid : ∀ p, (∃ m l, ref p = .holding m l) → b.valid = true
  dev : ∀ p, ref p ≠ .away → b.dev = ROOTDEV

/-- **One buffer changes**: its block is in no other, and it has the pins it
    must have. -/
theorem change {pin' : Nat → Bool} (i : Fin NBUF) (hlru : ∀ j, j ∈ c'.lru)
    (hbuf : ∀ j ≠ i, c'.buf j = c.buf j) (href : ∀ j ≠ i, ∀ q, c'.ref q j = c.ref q j)
    (hnew : ∀ j ≠ i, (c.buf j).dev ≠ 0 → (c.buf j).dev = (c'.buf i).dev →
      (c.buf j).blockno ≠ (c'.buf i).blockno)
    (hpin : ∀ j ≠ i, pinCount pin' (c.buf j) = pinCount pin (c.buf j))
    (hi : Counts pin' (c'.buf i) fun q => c'.ref q i)
    (hpinned : ∀ b, pin' b = true → ∃ j, (c'.buf j).dev = ROOTDEV ∧ (c'.buf j).blockno = b ∧
      (c'.buf j).valid = true) : CacheInv pin' c' := by
  have hall : ∀ j, Counts pin' (c'.buf j) fun q => c'.ref q j := by
    intro j
    by_cases hj : j = i
    · rw [hj]
      exact hi
    · simp only [hbuf j hj, href j hj]
      exact ⟨by rw [hpin j hj]; exact h.refcnt j, h.lock j, h.valid j, h.dev j⟩
  refine ⟨hlru, fun j k hd0 hd hb => ?_, fun j => (hall j).refcnt, fun j => (hall j).lock,
    fun j => (hall j).valid, hpinned, fun j => (hall j).dev⟩
  by_cases hj : j = i <;> by_cases hk : k = i
  · rw [hj, hk]
  · rw [hj] at hd0 hd hb
    rw [hbuf k hk] at hd hb
    exact absurd hb.symm (hnew k hk (hd ▸ hd0) hd.symm)
  · rw [hbuf j hj] at hd0 hd hb
    rw [hk] at hd hb
    exact absurd hb (hnew j hj hd0 hd)
  · rw [hbuf j hj] at hd0 hd hb
    rw [hbuf k hk] at hd hb
    exact h.unique j k hd0 hd hb

/-- **One block's pin** changes together with the count of its buffer. -/
theorem repin (hdev : (c.buf i).dev = ROOTDEV) (v : Bool) (hvalid : (c.buf i).valid = true)
    {n : Int} (hn : n = (c.buf i).refcnt - (if pin (c.buf i).blockno = true then 1 else 0) +
      (if v = true then 1 else 0)) :
    CacheInv (update pin (c.buf i).blockno v)
      (c.setBuf i { c.buf i with refcnt := n }) := by
  refine h.change i h.lru (fun j hj => setBuf_ne c _ hj) (fun _ _ _ => rfl) (fun j hj => ?_)
    (fun j hj => ?_) ?_ fun x hx => ?_
  · rw [setBuf_same]
    exact fun hd0 hd hb => hj (h.unique j i hd0 hd hb)
  · -- another buffer of the same device has another block
    unfold pinCount
    by_cases hjd : (c.buf j).dev = ROOTDEV
    · have hne : (c.buf j).blockno ≠ (c.buf i).blockno := fun e =>
        hj (h.unique j i (by rw [hjd]; decide) (hjd.trans hdev.symm) e)
      rw [update_of_ne hne]
    · simp [hjd]
  · rw [setBuf_same]
    refine ⟨?_, h.lock i, h.valid i, h.dev i⟩
    have hr := h.refcnt i
    unfold pinCount at hr ⊢
    rw [update_self, hn]
    simp only [hdev, true_and] at hr ⊢
    exact (by omega : ∀ r k x y : Int, r = k + x → r - x + y = k + y) _ _ _ _ hr
  · by_cases hxb : x = (c.buf i).blockno
    · exact ⟨i, by rw [setBuf_same]; exact ⟨hdev, hxb.symm, hvalid⟩⟩
    · rw [update_of_ne hxb] at hx
      obtain ⟨j, hj⟩ := h.pinned x hx
      have hji : j ≠ i := fun e => hxb (e ▸ hj.2.1.symm)
      exact ⟨j, by rw [setBuf_ne c _ hji]; exact hj⟩

theorem bpin (hdev : (c.buf i).dev = ROOTDEV)
    (hvalid : (c.buf i).valid = true) (hnew : pin (c.buf i).blockno = false) :
    CacheInv (update pin (c.buf i).blockno true) (c.bpin i) :=
  h.repin hdev true hvalid (by simp [hnew])

theorem bunpin (hdev : (c.buf i).dev = ROOTDEV)
    (hvalid : (c.buf i).valid = true) (hold : pin (c.buf i).blockno = true) :
    CacheInv (update pin (c.buf i).blockno false) (c.bunpin i) :=
  h.repin hdev false hvalid (by simp [hold])

variable [DecidableEq P]

/-- **One process and one buffer**: the buffer keeps its block and its count
    follows the pointer. -/
theorem touch (p : P) (i : Fin NBUF) (b : Buf P) (r : Ref)
    (hdev : b.dev = (c.buf i).dev) (hblk : b.blockno = (c.buf i).blockno) (hcnt : b.refcnt =
    (c.buf i).refcnt - (if c.ref p i ≠ .away then 1 else 0) + (if r ≠ .away then 1 else 0))
    (hlock : ∀ q, b.lock = some q ↔ if q = p then ∃ m l, r = .holding m l else c.Holds q i)
    (hvalid : (c.buf i).valid = true ∨ (∃ m l, r = .holding m l) → b.valid = true)
    (hroot : r ≠ .away → (c.buf i).dev = ROOTDEV) :
    CacheInv pin ((c.setBuf i b).setRef p i r) := by
  refine h.change i h.lru (fun j hj => setBuf_ne c b hj)
    (fun j hj q => setRef_other _ r (.inl hj)) (fun j hj => ?_) (fun _ _ => rfl) ?_
    fun x hx => ?_
  · rw [setRef_buf, setBuf_same, hdev, hblk]
    exact fun hd0 hd hb => hj (h.unique j i hd0 hd hb)
  · rw [setRef_buf, setBuf_same, setRef_col]
    refine ⟨?_, fun q => ?_, fun q hq => ?_, fun q hq => ?_⟩
    · have hpin : pinCount pin b = pinCount pin (c.buf i) := by rw [pinCount, hdev, hblk, pinCount]
      refine Eq.trans ?_ (congrArg (· + _) (c.count_col p i r).symm)
      have := h.refcnt i
      omega
    · rw [hlock q]
      by_cases hq : q = p
      · simp [hq]
      · rw [if_neg hq, update_of_ne hq]
        rfl
    · by_cases hqp : q = p
      · rw [hqp, update_self] at hq
        exact hvalid (.inr hq)
      · rw [update_of_ne hqp] at hq
        exact hvalid (.inl (h.valid i q hq))
    · rw [hdev]
      by_cases hqp : q = p
      · rw [hqp, update_self] at hq
        exact hroot hq
      · rw [update_of_ne hqp] at hq
        exact h.dev i q hq
  · obtain ⟨j, hj⟩ := h.pinned x hx
    refine ⟨j, ?_⟩
    rw [setRef_buf]
    by_cases hji : j = i
    · subst hji
      rw [setBuf_same, hdev, hblk]
      exact ⟨hj.1, hj.2.1, hvalid (.inl hj.2.2)⟩
    · rw [setBuf_ne c b hji]
      exact hj

/-- A process that does not hold the buffer, before or after, changes nothing
    but its count. -/
theorem recount {r : Ref} {n : Int} (hp : ∀ m l, c.ref p i ≠ .holding m l)
    (hr : ∀ m l, r ≠ .holding m l) (hn : n =
    (c.buf i).refcnt - (if c.ref p i ≠ .away then 1 else 0) + (if r ≠ .away then 1 else 0))
    (hroot : r ≠ .away → (c.buf i).dev = ROOTDEV) :
    CacheInv pin ((c.setBuf i { c.buf i with refcnt := n }).setRef p i r) := by
  refine h.touch p i _ _ rfl rfl hn (fun q => (h.lock i q).trans ?_) ?_ hroot
  · by_cases hq : q = p
    · simp [hq, Cache.Holds, hp, hr]
    · rw [if_neg hq]
  · rintro (hv | ⟨m, l, e⟩)
    · exact hv
    · exact absurd e (hr m l)

/-- A buffer that nobody counts gets a block that no buffer has. -/
theorem recycle (p : P) {b : Nat} (hnone : c.lookup ROOTDEV b = none) (h0 : (c.buf i).refcnt = 0) :
    CacheInv pin ((c.setBuf i { c.buf i with
      dev := ROOTDEV, blockno := b, valid := false, refcnt := 1 }).setRef p i .waiting) := by
  obtain ⟨haway, hpin0⟩ := h.free_of_refcnt h0
  have hnew : ∀ j, (c.buf j).dev = ROOTDEV → (c.buf j).blockno ≠ b := fun j hj =>
    lookup_none hnone (h.lru j) hj
  have hnopin : pin b = false := by
    rw [← Bool.not_eq_true]
    intro hb
    obtain ⟨j, hjd, hjb, _⟩ := h.pinned b hb
    exact hnew j hjd hjb
  have hnohold : ∀ q, ¬ ∃ m l, update (fun q => c.ref q i) p Ref.waiting q = .holding m l := by
    rintro q ⟨m, l, e⟩
    rw [update_apply] at e
    split at e
    · cases e
    · rw [haway q] at e
      cases e
  refine h.change i h.lru (fun j hj => setBuf_ne c _ hj)
    (fun j hj q => setRef_other _ _ (.inl hj)) (fun j _ _ => ?_) (fun _ _ => rfl) ?_
    fun x hx => ?_
  · rw [setRef_buf, setBuf_same]
    exact hnew j
  · rw [setRef_buf, setBuf_same, setRef_col]
    refine ⟨?_, fun q => ?_, fun q hq => absurd hq (hnohold q), fun _ _ => rfl⟩
    · refine Eq.trans ?_ (congrArg (· + _) (c.count_col p i .waiting).symm)
      have hz : c.holders i = 0 := by have := h.refcnt i; omega
      simp [hz, haway, pinCount, hnopin]
    · refine iff_of_false (fun e => ?_) (hnohold q)
      obtain ⟨m, l, e⟩ := (h.lock i q).mp e
      rw [haway q] at e
      cases e
  · -- a pinned buffer is counted, so it is not the one that was recycled
    obtain ⟨j, hjd, hjb, hjv⟩ := h.pinned x hx
    have hj : j ≠ i := by
      rintro rfl
      simp [pinCount, hjd, hjb, hx] at hpin0
    refine ⟨j, ?_⟩
    rw [setRef_buf, setBuf_ne c _ hj]
    exact ⟨hjd, hjb, hjv⟩

theorem bget {b : Nat} (hm : c.mine p b = none)
    (hb : c.bget p ROOTDEV b = .next c') : CacheInv pin c' := by
  rcases bget_eq_next hb with ⟨i, hi, rfl⟩ | ⟨hn, i, h0, rfl⟩
  · obtain ⟨hd, hblk⟩ := lookup_some hi
    have haway := mine_none hm hd hblk
    exact h.recount (by simp [haway]) nofun (by simp [haway]) fun _ => hd
  · exact h.recycle p hn h0

theorem lock_step (hl : c.lock p i = .next c') : CacheInv pin c' := by
  obtain ⟨hw, hfree, d, _, rfl⟩ := lock_eq_next hl
  refine h.touch p i _ _ rfl rfl (by simp [hw]) (fun q => ?_) (fun _ => rfl)
    (fun _ => h.dev i p (by rw [hw]; exact nofun))
  by_cases hq : q = p
  · subst hq; simp
  · have : ¬ c.Holds q i := fun hold => by
      have := (h.lock i q).mpr hold
      rw [hfree] at this
      cases this
    simp [hq, this, Ne.symm hq]

theorem unlock_step (hu : c.unlock p i = .next c') : CacheInv pin c' := by
  obtain ⟨m, l, hr, _, rfl⟩ := unlock_eq_next hu
  refine h.touch p i _ _ rfl rfl (by simp [hr]) (fun q => ?_) ?_
    (fun _ => h.dev i p (by rw [hr]; exact nofun))
  · by_cases hq : q = p
    · simp [hq]
    · rw [if_neg hq]
      exact ⟨nofun, fun hold => absurd (h.holder_unique hold ⟨m, l, hr⟩) hq⟩
  · rintro (hv | ⟨m, l, e⟩)
    · exact hv
    · cases e

theorem put_step (hp : c.put p i = .next c') : CacheInv pin c' := by
  obtain ⟨hr, l, hl, rfl⟩ := put_eq_next hp
  have ht := h.recount (p := p) (i := i) (r := .away) (n := (c.buf i).refcnt - 1) (by simp [hr])
    nofun (by simp [hr]) fun e => absurd rfl e
  exact ⟨fun j => hl j (h.lru j), ht.unique, ht.refcnt, ht.lock, ht.valid, ht.pinned, ht.dev⟩

theorem store (hp : c.Holds p i) (d : Bytes)
    (m l : Bool) : CacheInv pin ((c.store i d).setRef p i (.holding m l)) := by
  obtain ⟨m', l', hr⟩ := hp
  refine h.touch p i _ _ rfl rfl (by simp [hr]) (fun q => ?_)
    (fun _ => h.valid i p ⟨m', l', hr⟩) (fun _ => h.dev i p (by rw [hr]; exact nofun))
  rw [h.lock i q]
  by_cases hq : q = p
  · subst hq; simp [Cache.Holds, hr]
  · rw [if_neg hq]

theorem setHolding (hp : c.Holds p i) (m l : Bool) :
    CacheInv pin (c.setRef p i (.holding m l)) := by
  have := h.store hp (c.buf i).data m l
  rwa [Cache.store, setBuf_self] at this

theorem writeThrough (hp : c.Holds p i) (d : Bytes) : CacheInv pin ((c.store i d).bwrite i) := by
  obtain ⟨m, l, hr⟩ := hp
  have hstore := h.store ⟨m, l, hr⟩ d m l
  have hself : (c.store i d).setRef p i (.holding m l) = c.store i d := by
    rw [← hr]
    exact setRef_self (c.store i d) p i
  rw [hself] at hstore
  exact ⟨hstore.lru, hstore.unique, hstore.refcnt, hstore.lock, hstore.valid, hstore.pinned,
    hstore.dev⟩

end CacheInv

end Bio
end Xv6
