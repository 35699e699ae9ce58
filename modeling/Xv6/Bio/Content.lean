import Xv6.Bio.Refcnt

/-!
# What the buffers and the disk contain

`spec` is the plain array of blocks. A valid buffer of a block outside the log
area always agrees with it: that is what a `bread` returns. The disk agrees with
it wherever the block is neither pinned by the log nor in the hands of a process
that has modified it, and that is what makes it right to evict such a buffer and
read the block again. Buffers of the log area agree with the disk.
-/

namespace Xv6
namespace Bio

open Function Cache

variable {P : Type}

structure ContentInv (home : Nat → Prop) (pin : Nat → Bool) (spec : Nat → Bytes) (c : Cache P) :
    Prop where
  cached : ∀ i, (c.buf i).dev = ROOTDEV → (c.buf i).valid = true → home (c.buf i).blockno →
    (c.buf i).data = spec (c.buf i).blockno
  area : ∀ i, (c.buf i).dev = ROOTDEV → (c.buf i).valid = true → ¬ home (c.buf i).blockno →
    (c.buf i).data = c.disk (c.buf i).blockno
  clean : ∀ b, home b → pin b = false →
    (∀ p i l, c.ref p i = .holding true l → (c.buf i).blockno ≠ b) → c.disk b = spec b
  logged : ∀ p i m, c.ref p i = .holding m true → pin (c.buf i).blockno = true

namespace ContentInv

variable {home : Nat → Prop} {pin : Nat → Bool} {spec : Nat → Bytes} {c : Cache P}

theorem blockno_ne [Fintype P] (hi : CacheInv pin c) {i j : Fin NBUF}
    (hdev : (c.buf i).dev = ROOTDEV) (hjd : (c.buf j).dev = ROOTDEV) (hj : j ≠ i) :
    (c.buf j).blockno ≠ (c.buf i).blockno :=
  fun e => hj (hi.unique j i (by rw [hjd]; decide) (hjd.trans hdev.symm) e)

variable (h : ContentInv home pin spec c)

include h

theorem congr_pin {pin' : Nat → Bool} (he : ∀ b, pin' b = pin b) : ContentInv home pin' spec c := by
  have : pin' = pin := funext he
  rwa [this]

variable {c' : Cache P}

/-- **One buffer changes**, with its block on the disk or in the plain array. A
    block is clean because it was, unless that is shown anew. -/
theorem change {spec' : Nat → Bytes} (i : Fin NBUF)
    (hbuf : ∀ j ≠ i, c'.buf j = c.buf j) (href : ∀ j ≠ i, ∀ q, c'.ref q j = c.ref q j)
    (hother : ∀ j ≠ i, (c.buf j).dev = ROOTDEV →
      spec' (c.buf j).blockno = spec (c.buf j).blockno ∧
      c'.disk (c.buf j).blockno = c.disk (c.buf j).blockno)
    (hdata : (c'.buf i).dev = ROOTDEV → (c'.buf i).valid = true →
      (home (c'.buf i).blockno → (c'.buf i).data = spec' (c'.buf i).blockno) ∧
      (¬ home (c'.buf i).blockno → (c'.buf i).data = c'.disk (c'.buf i).blockno))
    (hclean : ∀ x, home x → pin x = false →
      (∀ q l, c'.ref q i = .holding true l → (c'.buf i).blockno ≠ x) →
      c'.disk x = spec' x ∨ c'.disk x = c.disk x ∧ spec' x = spec x ∧
        ∀ q l, c.ref q i = .holding true l → (c.buf i).blockno ≠ x)
    (hlog : ∀ q m, c'.ref q i = .holding m true → pin (c'.buf i).blockno = true) :
    ContentInv home pin spec' c' := by
  refine ⟨fun j hjd hjv hjh => ?_, fun j hjd hjv hjh => ?_, fun x hx hpin hno => ?_,
    fun q j m hq => ?_⟩
  · by_cases hj : j = i
    · subst hj
      exact (hdata hjd hjv).1 hjh
    · rw [hbuf j hj] at hjd hjv hjh ⊢
      rw [(hother j hj hjd).1, h.cached j hjd hjv hjh]
  · by_cases hj : j = i
    · subst hj
      exact (hdata hjd hjv).2 hjh
    · rw [hbuf j hj] at hjd hjv hjh ⊢
      rw [(hother j hj hjd).2, h.area j hjd hjv hjh]
  · obtain hanew | ⟨hdisk, hspec, hi⟩ := hclean x hx hpin fun q l => hno q i l
    · exact hanew
    rw [hdisk, hspec]
    refine h.clean x hx hpin fun q j l hq => ?_
    by_cases hj : j = i
    · subst hj
      exact hi q l hq
    · rw [← hbuf j hj]
      exact hno q j l (by rw [href j hj, hq])
  · by_cases hj : j = i
    · subst hj
      exact hlog q m hq
    · rw [href j hj] at hq
      rw [hbuf j hj]
      exact h.logged q j m hq

/-- One process and one buffer: the buffer keeps its block and holds what it
    should, and a pointer to a modified buffer is given up only for a pinned
    block. -/
theorem touch [DecidableEq P] (p : P) (i : Fin NBUF) (b : Buf P) (r : Ref)
    (hblk : b.blockno = (c.buf i).blockno)
    (hhome : b.dev = ROOTDEV → b.valid = true → home b.blockno → b.data = spec b.blockno)
    (harea : b.dev = ROOTDEV → b.valid = true → ¬ home b.blockno → b.data = c.disk b.blockno)
    (hkeep : ∀ l, c.ref p i = .holding true l →
      (∃ l', r = .holding true l') ∨ pin (c.buf i).blockno = true)
    (hlog : ∀ m, r = .holding m true → pin (c.buf i).blockno = true) :
    ContentInv home pin spec ((c.setBuf i b).setRef p i r) := by
  have hi : ((c.setBuf i b).setRef p i r).buf i = b := setBuf_same c i b
  refine h.change i (fun j hj => setBuf_ne c b hj) (fun j hj q => setRef_other _ r (.inl hj))
    (fun _ _ _ => ⟨rfl, rfl⟩) ?_ (fun x hx hpin hno => .inr ⟨rfl, rfl, fun q l hq hix => ?_⟩)
    fun q m hq => ?_
  · rw [hi]
    exact fun hd hv => ⟨hhome hd hv, harea hd hv⟩
  · rw [hi, hblk] at hno
    by_cases hqp : q = p
    · subst hqp
      rcases hkeep l hq with ⟨l', rfl⟩ | hp
      · exact hno q l' (setRef_same ..) hix
      · rw [hix, hpin] at hp
        cases hp
    · exact hno q l ((setRef_other _ r (.inr hqp)).trans hq) hix
  · rw [hi, hblk]
    by_cases hqp : q = p
    · subst hqp
      rw [setRef_same] at hq
      exact hlog m hq
    · rw [setRef_other _ r (.inr hqp)] at hq
      exact h.logged q i m hq

section Fintype

variable [Fintype P]

theorem bget [DecidableEq P] (hi : CacheInv pin c) {p : P} {b : Nat} (hm : c.mine p b = none)
    (hb : c.bget p ROOTDEV b = .next c') :
    ContentInv home pin spec c' := by
  rcases bget_eq_next hb with ⟨i, hfound, rfl⟩ | ⟨hn, i, h0, rfl⟩
  · obtain ⟨hd, hblk⟩ := lookup_some hfound
    have haway := mine_none hm hd hblk
    exact h.touch p i _ _ rfl (h.cached i) (h.area i)
      (fun l e => by rw [haway] at e; cases e) (fun m e => nomatch e)
  · -- the recycled buffer is invalid, and nobody had a pointer to it
    obtain ⟨haway, _⟩ := hi.free_of_refcnt h0
    refine h.change i (fun j hj => setBuf_ne c _ hj) (fun j hj q => setRef_other _ _ (.inl hj))
      (fun _ _ _ => ⟨rfl, rfl⟩) (fun _ hv => ?_) (fun x _ _ _ => .inr ⟨rfl, rfl, fun q l hq => ?_⟩)
      fun q m hq => ?_
    · rw [setRef_buf, setBuf_same] at hv
      cases hv
    · rw [haway q] at hq
      cases hq
    · rw [setRef_ref, setBuf_ref, haway q] at hq
      split at hq <;> cases hq

/-- **A block that has to be read is on the disk**: were it pinned it would be
    in a valid buffer, and were it modified its holder would have the lock. -/
theorem disk_of_invalid (hi : CacheInv pin c) {i : Fin NBUF}
    (hdev : (c.buf i).dev = ROOTDEV) (hfree : (c.buf i).lock = none)
    (hinv : (c.buf i).valid = false) (hhome : home (c.buf i).blockno) :
    c.disk (c.buf i).blockno = spec (c.buf i).blockno := by
  have hroot : ∀ j, (c.buf j).dev = ROOTDEV → (c.buf j).blockno = (c.buf i).blockno → j = i :=
    fun j hjd hjb => hi.unique j i (by rw [hjd]; decide) (hjd.trans hdev.symm) hjb
  refine h.clean _ hhome ?_ fun p j l hp hjb => ?_
  · rw [← Bool.not_eq_true]
    intro hpin
    obtain ⟨j, hjd, hjb, hjv⟩ := hi.pinned _ hpin
    rw [hroot j hjd hjb, hinv] at hjv
    cases hjv
  · have hj := hroot j (hi.dev j p (by rw [hp]; exact nofun)) hjb
    have hlock := (hi.lock j p).mpr ⟨true, l, hp⟩
    rw [hj, hfree] at hlock
    cases hlock

theorem lock_step [DecidableEq P] (hi : CacheInv pin c) {p : P} {i : Fin NBUF}
    (hl : c.lock p i = .next c') :
    ContentInv home pin spec c' := by
  obtain ⟨hw, hfree, d, hd, rfl⟩ := lock_eq_next hl
  have hdev : (c.buf i).dev = ROOTDEV := hi.dev i p (by rw [hw]; exact nofun)
  refine h.touch p i _ _ rfl (fun _ _ hh => ?_) (fun _ _ hh => ?_)
    (fun l e => by rw [hw] at e; cases e) (fun m e => nomatch e)
  · change d = _
    cases hv : (c.buf i).valid with
    | true => rw [hd, hv, if_pos rfl]; exact h.cached i hdev hv hh
    | false => simpa [hd, hv] using h.disk_of_invalid hi hdev hfree hv hh
  · change d = _
    cases hv : (c.buf i).valid with
    | true => rw [hd, hv, if_pos rfl]; exact h.area i hdev hv hh
    | false => simp [hd, hv]

end Fintype

variable {i : Fin NBUF} {p : P}

theorem unlock_step [DecidableEq P] (hu : c.unlock p i = .next c') :
    ContentInv home pin spec c' := by
  obtain ⟨m, l, hr, hml, rfl⟩ := unlock_eq_next hu
  refine h.touch p i _ _ rfl (h.cached i) (h.area i) (fun l' e => ?_) (fun m e => nomatch e)
  rw [hr] at e
  injection e with hm _
  rw [hml hm] at hr
  exact .inr (h.logged p i m hr)

theorem put_step [DecidableEq P] (hp : c.put p i = .next c') : ContentInv home pin spec c' := by
  obtain ⟨hr, l, _, rfl⟩ := put_eq_next hp
  have ht := h.touch p i { c.buf i with refcnt := (c.buf i).refcnt - 1 } .away rfl
    (h.cached i) (h.area i) (fun l e => by rw [hr] at e; cases e) (fun m e => nomatch e)
  exact ⟨ht.cached, ht.area, ht.clean, ht.logged⟩

theorem mono_pin {pin' : Nat → Bool}
    (he : ∀ b, pin b = true → pin' b = true) : ContentInv home pin' spec c := by
  refine ⟨h.cached, h.area, fun b hb hpin hno => h.clean b hb ?_ hno,
    fun p i m hp => he _ (h.logged p i m hp)⟩
  rw [← Bool.not_eq_true]
  intro hb'
  rw [he b hb'] at hpin
  cases hpin

theorem setRefcnt (i : Fin NBUF) (n : Int) :
    ContentInv home pin spec (c.setBuf i { c.buf i with refcnt := n }) := by
  have hi : (c.setBuf i { c.buf i with refcnt := n }).buf i = { c.buf i with refcnt := n } :=
    setBuf_same ..
  refine h.change i (fun j hj => setBuf_ne c _ hj) (fun _ _ _ => rfl) (fun _ _ _ => ⟨rfl, rfl⟩) ?_
    (fun x _ _ hno => .inr ⟨rfl, rfl, ?_⟩) ?_
  · rw [hi]
    exact fun hd hv => ⟨h.cached i hd hv, h.area i hd hv⟩
  · rw [hi] at hno
    exact hno
  · rw [hi]
    exact fun q m => h.logged q i m

/-- `log_write`, on the buffer: the block is pinned from here on. -/
theorem markLogged [DecidableEq P] {m l : Bool} (hr : c.ref p i = .holding m l) :
    ContentInv home (update pin (c.buf i).blockno true) spec
      (c.setRef p i (.holding m true)) := by
  have hup : ContentInv home (update pin (c.buf i).blockno true) spec c := by
    refine h.mono_pin fun b hb => ?_
    by_cases hbi : b = (c.buf i).blockno
    · subst hbi; exact update_self ..
    · rwa [update_of_ne hbi]
  have := hup.touch p i (c.buf i) (.holding m true) rfl (hup.cached i) (hup.area i)
    (fun l' e => by
      rw [hr] at e
      injection e with hm _
      exact .inl ⟨true, by rw [hm]⟩)
    (fun _ _ => update_self ..)
  rwa [setBuf_self] at this

section Fintype

variable [Fintype P]

/-- **A modification** of a held buffer is a modification of the plain array. -/
theorem modify [DecidableEq P] (hi : CacheInv pin c) {p : P}
    {m l : Bool} (hr : c.ref p i = .holding m l) (hhome : home (c.buf i).blockno) (d : Bytes) :
    ContentInv home pin (update spec (c.buf i).blockno d)
      ((c.store i d).setRef p i (.holding true l)) := by
  have hdev : (c.buf i).dev = ROOTDEV := hi.dev i p (by rw [hr]; exact nofun)
  have hbuf : ((c.store i d).setRef p i (.holding true l)).buf i = { c.buf i with data := d } :=
    setBuf_same ..
  refine h.change i (fun j hj => setBuf_ne c _ hj) (fun j hj q => setRef_other _ _ (.inl hj))
    (fun j hj hjd => ⟨update_of_ne (blockno_ne hi hdev hjd hj) .., rfl⟩) ?_ (fun x _ _ hno => ?_)
    fun q m' hq => ?_
  · rw [hbuf]
    exact fun _ _ => ⟨fun _ => by simp, fun hn => absurd hhome hn⟩
  · rw [hbuf] at hno
    have hxb : (c.buf i).blockno ≠ x := hno p l (setRef_same ..)
    exact .inr ⟨rfl, update_of_ne hxb.symm .., fun _ _ _ => hxb⟩
  · rw [hbuf]
    by_cases hqp : q = p
    · subst hqp
      rw [setRef_same] at hq
      injection hq with _ hl
      exact h.logged q i m (by rw [hr, hl])
    · rw [setRef_other _ _ (.inr hqp)] at hq
      exact h.logged q i m' hq

/-- A buffer written through. Outside the log area it must be the contents of
    the block. -/
theorem writeThrough (hi : CacheInv pin c) (hdev : (c.buf i).dev = ROOTDEV) {d : Bytes}
    (hd : home (c.buf i).blockno → d = spec (c.buf i).blockno) :
    ContentInv home pin spec ((c.store i d).bwrite i) := by
  have hdisk : ((c.store i d).bwrite i).disk = update c.disk (c.buf i).blockno d := by
    simp [Cache.bwrite, Cache.store]
  have hbuf : ((c.store i d).bwrite i).buf i = { c.buf i with data := d } := setBuf_same ..
  refine h.change i (fun j hj => setBuf_ne c _ hj) (fun _ _ _ => rfl)
    (fun j hj hjd => ⟨rfl, ?_⟩) ?_ (fun x hx hpin hno => ?_) ?_
  · rw [hdisk, update_of_ne (blockno_ne hi hdev hjd hj)]
  · rw [hbuf, hdisk]
    exact fun _ _ => ⟨hd, fun _ => by simp⟩
  · rw [hbuf] at hno
    rw [hdisk]
    by_cases hxb : x = (c.buf i).blockno
    · subst hxb
      exact .inl ((update_self ..).trans (hd hx))
    · exact .inr ⟨update_of_ne hxb .., rfl, hno⟩
  · rw [hbuf]
    exact fun q m => h.logged q i m

end Fintype

/-- `bunpin` of a block that has reached the disk and that nobody holds as
    logged. -/
theorem unpin (hdisk : c.disk (c.buf i).blockno = spec (c.buf i).blockno)
    (hnone : ∀ p j m, c.ref p j = .holding m true → (c.buf j).blockno ≠ (c.buf i).blockno) :
    ContentInv home (update pin (c.buf i).blockno false) spec (c.bunpin i) := by
  have hup : ContentInv home (update pin (c.buf i).blockno false) spec c := by
    refine ⟨h.cached, h.area, fun x hx hpin hno => ?_, fun p j m hp => ?_⟩
    · by_cases hxb : x = (c.buf i).blockno
      · subst hxb; exact hdisk
      · rw [update_of_ne hxb] at hpin
        exact h.clean x hx hpin hno
    · rw [update_of_ne (hnone p j m hp)]
      exact h.logged p j m hp
  exact hup.setRefcnt i _

end ContentInv

end Bio
end Xv6
