import Mathlib.Data.List.Perm.Subperm
import Xv6.Virtio.Chains

/-!
# Requests between driver and device

Every entry that is on its way (unconsumed in the avail ring, taken by the
device, being posted, or unread in the used ring) is the request of a thread
that waits for it, and no thread's twice (`Traffic`). A request has its own head
descriptor, so at most `NUM` are on their way and neither ring overflows.
-/

namespace Xv6

open Function List

namespace Virtio

namespace State

variable {P B : Type}

/-- A thread waits for this request. -/
def Live (s : State P B) (c : Call B) (x : Idx) : Prop :=
  (∃ p, (s.pc p).waiting = some (c, x)) ∧ s.disk c.b = true

/-- What the device has taken and `virtio_disk_intr` has not seen. -/
def taken (s : State P B) : List (Req B) :=
  s.pending ++ (s.posting.toList ++ s.completed.drop s.seen)

/-- The heads of the chains on their way. -/
def visible (s : State P B) : List Nat := s.avail ++ s.taken.map Req.head

structure Traffic (s : State P B) : Prop where
  nodup : s.visible.Nodup
  avail : ∀ h ∈ s.avail, ∃ c x, s.Live c x ∧ x.i0 = h
  taken : ∀ r ∈ s.taken, ∃ c x, s.Live c x ∧ r = c.req x
  unread : s.unread = (s.completed.drop s.seen).map Req.head
  status : ∀ r ∈ s.posting.toList ++ s.completed.drop s.seen, (s.info r.head).status = 0
  posted : ∀ r, s.posting = some r → s.usedRing (s.usedIdx.toNat % NUM) = r.head
  seen : s.seen ≤ s.completed.length
  once : (s.completed.map fun r => r.op.call).Nodup
  past : ∀ r ∈ s.completed, r.op.call < s.calls

structure Inv (s : State P B) : Prop where
  threads : s.Threads
  chains : s.Chains
  place : ∀ p, s.At (s.pc p)
  traffic : s.Traffic

variable {s s' : State P B} {l l' l0 : Pc B} {c c' : Call B} {x x' : Idx} {p q : P}

/-! ## What is on its way -/

variable {i : Nat} {t : State P B}

theorem Traffic.visible_live (h : s.Traffic) (hi : i ∈ s.visible) :
    ∃ c x, s.Live c x ∧ x.i0 = i := by
  rcases mem_append.mp hi with hi | hi
  · exact h.avail i hi
  · obtain ⟨r, hr, hri⟩ := mem_map.mp hi
    obtain ⟨c, x, hlive, rfl⟩ := h.taken r hr
    exact ⟨c, x, hlive, hri⟩

attribute [local simp] Idx.toList goto Call.descAt State.fill Idx.rest

theorem Inv.visible_lt (h : s.Inv) (hi : i ∈ s.visible) : i < NUM := by
  obtain ⟨c, x, ⟨⟨p, hp⟩, -⟩, rfl⟩ := h.traffic.visible_live hi
  have hmem : x.i0 ∈ (s.pc p).owned := by simp [Pc.owned_of_waiting hp]
  exact (h.chains.taken p _ hmem).1

theorem length_le_of_nodup {n : Nat} {is : List Nat} (hnodup : is.Nodup) (hlt : ∀ i ∈ is, i < n) :
    is.length ≤ n := by
  have hsub : is ⊆ List.range n := fun i hi => mem_range.mpr (hlt i hi)
  simpa using (subperm_of_subset hnodup hsub).length_le

/-- A descriptor of a thread that does not wait heads nothing that is on its
    way. -/
theorem Inv.not_visible (h : s.Inv) (hp : (s.pc p).waiting = none)
    (hi : i ∈ (s.pc p).owned) : i ∉ s.visible := by
  intro hmem
  obtain ⟨c, x, ⟨⟨q, hq⟩, -⟩, rfl⟩ := h.traffic.visible_live hmem
  have hown : x.i0 ∈ (s.pc q).owned := by simp [Pc.owned_of_waiting hq]
  rw [h.chains.inj p q _ hi hown, hq] at hp
  cases hp

/-- There is room in the avail ring for one more chain. -/
theorem Inv.avail_room (h : s.Inv) (hp : (s.pc p).waiting = none)
    (hi : i ∈ (s.pc p).owned) : Ring.used s.lastAvail s.availIdx < NUM := by
  have hnodup : (i :: s.visible).Nodup :=
    nodup_cons.mpr ⟨h.not_visible hp hi, h.traffic.nodup⟩
  have hlen := length_le_of_nodup hnodup (n := NUM) (by
    intro j hj
    rcases mem_cons.mp hj with rfl | hj
    · exact (h.chains.taken p j hi).1
    · exact h.visible_lt hj)
  have havail : s.avail.length = Ring.used s.lastAvail s.availIdx := Ring.contents_length ..
  have hvis : s.visible.length = s.avail.length + s.taken.length := by simp [visible]
  simp only [length_cons] at hlen
  omega

/-- There is room in the used ring for what the device has taken. -/
theorem Inv.used_room (h : s.Inv) (hne : 0 < s.pending.length + s.posting.toList.length) :
    Ring.used s.lookedIdx s.usedIdx < NUM := by
  have hlen := length_le_of_nodup h.traffic.nodup (fun i hi => h.visible_lt hi)
  have hunread : s.unread.length = Ring.used s.lookedIdx s.usedIdx := Ring.contents_length ..
  rw [h.traffic.unread] at hunread
  simp only [visible, State.taken, length_append, length_map] at hlen hunread
  omega

theorem Live.unique (hl : s.Live c x) (hl' : s.Live c' x')
    (h : ∀ p q, (s.pc p).call = some c → (s.pc q).call = some c' → p = q) :
    (c, x) = (c', x') := by
  obtain ⟨⟨p, hp⟩, -⟩ := hl
  obtain ⟨⟨q, hq⟩, -⟩ := hl'
  rw [h p q (Pc.call_of_waiting hp) (Pc.call_of_waiting hq), hq] at hp
  exact (Option.some.inj hp).symm

theorem Threads.live_buf (h : s.Threads) (hl : s.Live c x) (hl' : s.Live c' x')
    (hb : c.b = c'.b) : (c, x) = (c', x') :=
  hl.unique hl' fun p q hp hq => h.buf p q c c' hp hq hb

theorem Threads.live_num (h : s.Threads) (hl : s.Live c x) (hl' : s.Live c' x')
    (hn : c.n = c'.n) : (c, x) = (c', x') :=
  hl.unique hl' fun p q hp hq => h.num p q c c' hp hq hn

theorem Inv.formed (h : s.Inv) (hl : s.Live c x) : s.Formed c x := by
  obtain ⟨⟨p, hp⟩, -⟩ := hl
  exact ((h.place p).of_waiting hp).1

theorem Inv.live_nodup (h : s.Inv) (hl : s.Live c x) : x.toList.Nodup := by
  obtain ⟨⟨p, hp⟩, -⟩ := hl
  have hnodup := h.chains.nodup p
  rw [Pc.owned_of_waiting hp] at hnodup
  exact hnodup

/-! ## Steps that put nothing on its way -/

/-- The thread `p` moves; whoever was waited for is still waited for. -/
theorem Live.move (h : s.Live c x) (hpc : ∀ q, q ≠ p → s'.pc q = s.pc q)
    (hwait : (s.pc p).waiting = some (c, x) → (s'.pc p).waiting = some (c, x))
    (hdisk : s'.disk c.b = true) : s'.Live c x := by
  obtain ⟨⟨q, hq⟩, -⟩ := h
  refine ⟨⟨q, ?_⟩, hdisk⟩
  by_cases hqp : q = p
  · subst hqp
    exact hwait hq
  · rw [hpc q hqp]
    exact hq

theorem Traffic.keep (h : s.Traffic) (havail : s'.avail = s.avail)
    (hpending : s'.pending = s.pending) (hposting : s'.posting = s.posting)
    (hcompleted : s'.completed = s.completed)
    (hseen : s'.seen = s.seen) (hunread : s'.unread = s.unread)
    (hring : s'.usedRing = s.usedRing) (hidx : s'.usedIdx = s.usedIdx)
    (hcalls : s.calls ≤ s'.calls)
    (hstatus : ∀ i ∈ s.visible, (s'.info i).status = (s.info i).status)
    (hlive : ∀ c x, s.Live c x → s'.Live c x) : s'.Traffic := by
  have htaken : s'.taken = s.taken := by
    unfold State.taken
    rw [hpending, hposting, hcompleted, hseen]
  refine ⟨?_, ?_, ?_, ?_, ?_, ?_, ?_, ?_, ?_⟩
  · unfold visible
    rw [havail, htaken]
    exact h.nodup
  · intro i hi
    rw [havail] at hi
    obtain ⟨c, x, hl, hx⟩ := h.avail i hi
    exact ⟨c, x, hlive c x hl, hx⟩
  · intro r hr
    rw [htaken] at hr
    obtain ⟨c, x, hl, hx⟩ := h.taken r hr
    exact ⟨c, x, hlive c x hl, hx⟩
  · rw [hunread, hcompleted, hseen]
    exact h.unread
  · intro r hr
    rw [hposting, hcompleted, hseen] at hr
    have hvis : r.head ∈ s.visible := by
      apply mem_append_right
      exact mem_map_of_mem (mem_append_right _ hr)
    rw [hstatus _ hvis]
    exact h.status r hr
  · intro r hr
    rw [hposting] at hr
    rw [hring, hidx]
    exact h.posted r hr
  · rw [hseen, hcompleted]
    exact h.seen
  · rw [hcompleted]
    exact h.once
  · intro r hr
    rw [hcompleted] at hr
    exact Nat.lt_of_lt_of_le (h.past r hr) hcalls

/-- A step of `p` inside the lock: what the others rely on is theirs. -/
theorem Inv.spares (h : s.Inv) (hp : (s.pc p).holds = true) (hq : q ≠ p)
    (hdesc : ∀ j, j ∉ (s.pc p).owned → s'.desc j = s.desc j)
    (hops : ∀ j, j ∉ (s.pc p).owned → s'.ops j = s.ops j)
    (hinfo : ∀ j, j ∉ (s.pc p).owned → (s'.info j).b = (s.info j).b)
    (hdisk : ∀ b, (∀ c, (s.pc p).call = some c → b ≠ c.b) → s'.disk b = s.disk b)
    (hcompleted : s'.completed = s.completed) (hseen : s'.seen = s.seen) :
    Spares s s' (s.pc q) := by
  have hnot : ∀ j ∈ (s.pc q).owned, j ∉ (s.pc p).owned := by
    intro j hj hj'
    exact hq (h.chains.inj q p j hj hj')
  have hbuf : ∀ c, (s.pc q).call = some c → s'.disk c.b = s.disk c.b := by
    intro c hc
    apply hdisk
    intro c' hc' hb
    exact hq (h.threads.buf q p c c' hc hc' hb)
  have hout : (s.pc q).holds ≠ true := by
    intro hin
    exact hq (h.threads.alone hp hin)
  refine ⟨?_, ?_, ?_, ?_, ?_, ?_, ?_, ?_, ?_⟩
  · intro j hj
    exact hdesc j (hnot j hj)
  · intro j hj
    exact hops j (hnot j hj)
  · intro j hj
    exact hinfo j (hnot j hj)
  · intro c hc _
    exact hbuf c hc
  · intro c _ _ hfresh
    unfold Fresh
    rw [hcompleted]
    exact hfresh
  · intro c x hw hwaits
    exact hwaits.of_eq (hbuf c (Pc.call_of_waiting hw)) hcompleted hseen
  · intro hin
    exact absurd hin hout
  · intro hin
    exact absurd hin hout
  · intro r hr
    rw [hcompleted]
    exact hr

variable [DecidableEq P]

theorem goto_others (ht : t.pc = s.pc) : ∀ q, q ≠ p → (t.goto p l).pc q = s.pc q := by
  intro q hq
  rw [goto_pc, if_neg hq, ht]

theorem Live.goto (hl : s.Live c' x') (ht : t.pc = s.pc) (hpc : s.pc p = l0)
    (hwait : l0.waiting = none) (hdisk : t.disk c'.b = true) : (t.goto p l).Live c' x' := by
  refine hl.move (p := p) (goto_others ht) ?_ hdisk
  intro hw
  rw [hpc, hwait] at hw
  cases hw

/-- A step that takes `p` to `l`. -/
theorem Inv.step_to (h : s.Inv) (ht : t.pc = s.pc) (hthreads : (t.goto p l).Threads)
    (hchains : (t.goto p l).Chains) (hself : (t.goto p l).At l)
    (hspares : ∀ q, q ≠ p → Spares s (t.goto p l) (s.pc q)) (htraffic : (t.goto p l).Traffic) :
    (t.goto p l).Inv := by
  refine ⟨hthreads, hchains, fun q => ?_, htraffic⟩
  by_cases hq : q = p
  · rw [hq, goto_pc, if_pos rfl]
    exact hself
  · rw [goto_others ht q hq]
    exact (hspares q hq).at (h.place q)

theorem Inv.within (h : s.Inv) (hpc : s.pc p = l0) (ht : t.pc = s.pc) (hlock : t.lock = s.lock)
    (hcalls : t.calls = s.calls) (hlocked : t.locked = s.locked) (hcall : l.call = l0.call)
    (hholds : l.holds = l0.holds) (hchains : (t.goto p l).Chains) (hself : (t.goto p l).At l)
    (hspares : ∀ q, q ≠ p → Spares s (t.goto p l) (s.pc q)) (htraffic : (t.goto p l).Traffic) :
    (t.goto p l).Inv := by
  have hlock' : (t.goto p l).lock = s.lock := hlock
  refine h.step_to ht (h.threads.move (goto_others ht) ?_ ?_ (fun _ _ => by rw [hlock']) hcalls
    hlocked) hchains hself hspares htraffic
  · rw [goto_pc, if_pos rfl, hpc]
    exact hcall
  · rw [goto_pc, if_pos rfl, hholds, hlock', ← hpc]
    exact h.threads.lock p

/-- A step that changes only the lock and where `p` is. -/
theorem Inv.quiet (h : s.Inv) (hp : s.pc p = l0) {k : Option P} (hcall : l.call = l0.call)
    (howned : l.owned = l0.owned)
    (hwait : ∀ c x, l0.waiting = some (c, x) → s.disk c.b = true → l.waiting = some (c, x))
    (hself : l.holds = true ↔ k = some p) (hlock : ∀ q, q ≠ p → (k = some q ↔ s.lock = some q))
    (hat : s.At l) : ({ s with lock := k }.goto p l).Inv := by
  have hpc := goto_others (s := s) (t := { s with lock := k }) (p := p) (l := l) rfl
  have hspares : ∀ l', Spares s ({ s with lock := k }.goto p l) l' := by
    intro l'
    exact Spares.of_eq rfl rfl (fun _ => rfl) rfl rfl rfl rfl rfl rfl
  subst hp
  refine h.step_to rfl (h.threads.move hpc ?_ ?_ hlock rfl rfl) (h.chains.keep hpc ?_ rfl)
    ((hspares l).at hat) (fun _ _ => hspares _)
    (h.traffic.keep rfl rfl rfl rfl rfl rfl rfl rfl (Nat.le_refl _) (fun _ _ => rfl) ?_)
  · simpa using hcall
  · simpa using hself
  · simpa using howned
  · intro c x hl
    refine hl.move hpc ?_ hl.2
    intro hw
    simpa using hwait c x hw hl.2

theorem Inv.stay (h : s.Inv) (hpc : s.pc p = l0) (hcall : l.call = l0.call)
    (howned : l.owned = l0.owned) (hwait : l0.waiting = none) (hholds : l.holds = l0.holds)
    (hat : s.At l) : (s.goto p l).Inv := by
  refine h.quiet (k := s.lock) hpc hcall howned ?_ ?_ (fun _ _ => Iff.rfl) hat
  · intro c x hw
    rw [hwait] at hw
    cases hw
  · rw [hholds, ← hpc]
    exact h.threads.lock p

theorem Inv.acquire_safe (h : s.Inv) (hpc : s.pc p = l0) (hcall : l.call = l0.call)
    (howned : l.owned = l0.owned) (hwait : l.waiting = l0.waiting) (hholds : l.holds = true)
    (hat : s.At l) : (s.acquire p l).Safe Inv := by
  unfold acquire
  split
  · rename_i hfree
    refine h.quiet (k := some p) hpc hcall howned ?_ ?_ ?_ hat
    · intro c x hw _
      rw [hwait]
      exact hw
    · simp [hholds]
    · intro q hq
      simp [hfree, Ne.symm hq]
  · trivial

theorem Inv.release_safe (h : s.Inv) (hpc : s.pc p = l0) (hp : l0.holds = true)
    (hcall : l.call = l0.call) (howned : l.owned = l0.owned) (hwait : l.waiting = l0.waiting)
    (hholds : l.holds = false) (hat : s.At l) : (s.release p l).Safe Inv := by
  refine h.quiet (k := none) hpc hcall howned ?_ ?_ ?_ hat
  · intro c x hw _
    rw [hwait]
    exact hw
  · simp [hholds]
  · intro q hq
    rw [(h.threads.lock p).mp (by rw [hpc]; exact hp)]
    simp [Ne.symm hq]

/-! ## Descriptors taken and given back -/

theorem Inv.alloc (h : s.Inv) (hpc : s.pc p = l0) (hlt : i < NUM)
    (hi : s.free i = true) (hcall : l.call = l0.call) (howned : l.owned = l0.owned ++ [i])
    (hwait : l0.waiting = none) (hholds : l.holds = l0.holds) (hat : s.At l) :
    ({ s with free := update s.free i false }.goto p l).Inv := by
  have hspares : ∀ l',
      Spares s ({ s with free := update s.free i false }.goto p l) l' := by
    intro l'
    exact Spares.of_eq rfl rfl (fun _ => rfl) rfl rfl rfl rfl rfl rfl
  refine h.within hpc rfl rfl rfl rfl hcall hholds
    (h.chains.take hlt hi (goto_others rfl) (by simpa [hpc] using howned) rfl) ((hspares l).at hat)
    (fun _ _ => hspares _)
    (h.traffic.keep rfl rfl rfl rfl rfl rfl rfl rfl (Nat.le_refl _) (fun _ _ => rfl) ?_)
  intro c x hl
  exact hl.goto rfl hpc hwait hl.2

/-- The state after `free_desc(i)`. -/
def freed (s : State P B) (i : Nat) : State P B :=
  { s with
    desc := update s.desc i { addr := .null, len := 0, flags := 0, next := 0 }
    free := update s.free i true }

omit [DecidableEq P] in
/-- **`free_desc` does not panic** on a descriptor the thread has. -/
theorem Inv.freeDesc_eq (h : s.Inv) (hi : i ∈ (s.pc p).owned) :
    s.freeDesc i = .next (s.freed i) := by
  obtain ⟨hlt, hfree⟩ := h.chains.taken p i hi
  unfold freeDesc freed
  rw [if_neg (by omega), if_neg (by simp [hfree])]

theorem Inv.give (h : s.Inv) (hpc : s.pc p = l0) (hp : l0.holds = true)
    (hcall : l.call = l0.call) (howned : l0.owned = i :: l.owned) (hwait : l0.waiting = none)
    (hholds : l.holds = true) (hat : (s.freed i).At l) : ((s.freed i).goto p l).Inv := by
  have hmine : i ∈ (s.pc p).owned := by simp [hpc, howned]
  have hspares : Spares (s.freed i) ((s.freed i).goto p l) l :=
    Spares.of_eq rfl rfl (fun _ => rfl) rfl rfl rfl rfl rfl rfl
  refine h.within hpc rfl rfl rfl rfl hcall (hholds.trans hp.symm)
    (h.chains.give (goto_others rfl) (by simpa [hpc] using howned) rfl) (hspares.at hat) ?_
    (h.traffic.keep rfl rfl rfl rfl rfl rfl rfl rfl (Nat.le_refl _) (fun _ _ => rfl) ?_)
  · intro q hq
    refine h.spares (by rw [hpc]; exact hp) hq ?_ (fun _ _ => rfl) (fun _ _ => rfl)
      (fun _ _ => rfl) rfl rfl
    intro j hj
    simp [freed, (ne_of_mem_of_not_mem hmine hj).symm]
  · intro c x hl
    exact hl.goto rfl hpc hwait hl.2

/-! ## The call -/

omit [DecidableEq P] in
theorem Threads.begin (h : s.Threads) (hidle : s.pc p = .idle) (hb : s.locked c.b ≠ true)
    (hn : c.n = s.calls) (hpc : ∀ q, q ≠ p → s'.pc q = s.pc q) (hself : s'.pc p = .enter c)
    (hlock : s'.lock = s.lock) (hcalls : s'.calls = s.calls + 1)
    (hlocked : ∀ b, s'.locked b = true ↔ s.locked b = true ∨ b = c.b) : s'.Threads := by
  -- the buffer and the number of the new call are nobody else's
  have hnew : ∀ q c', q ≠ p → (s'.pc q).call = some c' → c'.b ≠ c.b ∧ c'.n ≠ c.n := by
    intro q c' hq hc'
    rw [hpc q hq] at hc'
    obtain ⟨hlt, hlk⟩ := h.call q c' hc'
    refine ⟨?_, by omega⟩
    intro heq
    rw [heq] at hlk
    exact hb hlk
  have hmine : ∀ c', (s'.pc p).call = some c' → c' = c := by
    intro c' hc'
    rw [hself] at hc'
    injection hc' with hc'
    exact hc'.symm
  have hinj : ∀ {q q' c1 c2}, (s'.pc q).call = some c1 → (s'.pc q').call = some c2 →
      c1.b = c2.b ∨ c1.n = c2.n → ((s.pc q).call = some c1 → (s.pc q').call = some c2 → q = q') →
      q = q' := by
    intro q q' c1 c2 h1 h2 heq hold
    by_cases hq : q = p <;> by_cases hq' : q' = p
    · rw [hq, hq']
    · rw [hmine c1 (hq ▸ h1)] at heq
      exact absurd (heq.imp Eq.symm Eq.symm) (not_or.mpr (hnew q' c2 hq' h2))
    · rw [hmine c2 (hq' ▸ h2)] at heq
      exact absurd heq (not_or.mpr (hnew q c1 hq h1))
    · exact hold (hpc q hq ▸ h1) (hpc q' hq' ▸ h2)
  refine ⟨?_, ?_, fun q q' c1 c2 h1 h2 heq => hinj h1 h2 (.inl heq) ?_,
    fun q q' c1 c2 h1 h2 heq => hinj h1 h2 (.inr heq) ?_⟩
  · intro q
    rw [hlock]
    by_cases hq : q = p
    · subst hq
      rw [hself, ← h.lock q, hidle]
      simp [Pc.holds]
    · rw [hpc q hq]
      exact h.lock q
  · intro q c' hc'
    rw [hcalls, hlocked]
    by_cases hq : q = p
    · rw [hmine c' (hq ▸ hc')]
      exact ⟨by omega, .inr rfl⟩
    · obtain ⟨hlt, hlk⟩ := h.call q c' (hpc q hq ▸ hc')
      exact ⟨by omega, .inl hlk⟩
  · exact fun h1 h2 => h.buf q q' c1 c2 h1 h2 heq
  · exact fun h1 h2 => h.num q q' c1 c2 h1 h2 heq

omit [DecidableEq P] in
theorem Threads.finish (h : s.Threads) (hp : (s.pc p).holds = true)
    (hcall : (s.pc p).call = some c) (hpc : ∀ q, q ≠ p → s'.pc q = s.pc q)
    (hself : s'.pc p = .idle) (hlock : s'.lock = none) (hcalls : s'.calls = s.calls)
    (hlocked : ∀ b, b ≠ c.b → s'.locked b = s.locked b) : s'.Threads := by
  have hother : ∀ q c', (s'.pc q).call = some c' → q ≠ p ∧ (s.pc q).call = some c' := by
    intro q c' hc'
    have hq : q ≠ p := by
      intro hq
      rw [hq, hself] at hc'
      cases hc'
    rw [hpc q hq] at hc'
    exact ⟨hq, hc'⟩
  refine ⟨?_, ?_, ?_, ?_⟩
  · intro q
    rw [hlock]
    by_cases hq : q = p
    · rw [hq, hself]
      simp [Pc.holds]
    · rw [hpc q hq, h.lock q, (h.lock p).mp hp]
      simp [Ne.symm hq]
  · intro q c' hc'
    obtain ⟨hq, hc'⟩ := hother q c' hc'
    have hb : c'.b ≠ c.b := by
      intro heq
      exact hq (h.buf q p c' c hc' hcall heq)
    rw [hcalls, hlocked c'.b hb]
    exact h.call q c' hc'
  · intro q q' c1 c2 h1 h2
    exact h.buf q q' c1 c2 (hother q c1 h1).2 (hother q' c2 h2).2
  · intro q q' c1 c2 h1 h2
    exact h.num q q' c1 c2 (hother q c1 h1).2 (hother q' c2 h2).2

variable [DecidableEq B]

theorem Inv.rw (h : s.Inv) (hidle : s.pc p = .idle) {b : B} (hb : s.locked b ≠ true)
    (blockno : BitVec 32) (write : Bool) :
    ({ s with
      locked := update s.locked b true
      calls := s.calls + 1 }.goto p (.enter ⟨b, blockno, write, s.calls⟩)).Inv := by
  refine h.step_to rfl (h.threads.begin (c := ⟨b, blockno, write, s.calls⟩) hidle hb rfl
      (goto_others rfl) (by simp) rfl rfl ?_) (h.chains.keep (goto_others rfl) ?_ rfl) ?_
    (fun _ _ => Spares.of_eq rfl rfl (fun _ => rfl) rfl rfl rfl rfl rfl rfl)
    (h.traffic.keep rfl rfl rfl rfl rfl rfl rfl rfl (Nat.le_succ _) (fun _ _ => rfl)
      fun c x hl => hl.goto rfl hidle rfl hl.2)
  · intro b'
    by_cases hb' : b' = b <;> simp [hb']
  · simp [hidle, Pc.owned]
  · intro hmem
    obtain ⟨r, hr, hn⟩ := mem_map.mp hmem
    have hlt := h.traffic.past r hr
    simp only at hn
    omega

theorem Inv.exit (h : s.Inv) (hpc : s.pc p = .exit c x) :
    ({ s with locked := update s.locked c.b false, lock := none }.goto p .idle).Inv := by
  exact h.step_to rfl (h.threads.finish (c := c) (by rw [hpc]; rfl) (by rw [hpc]; rfl)
      (goto_others rfl) (by simp) rfl rfl fun b hb => by simp [update_of_ne hb])
    (h.chains.keep (goto_others rfl) (by simp [hpc, Pc.owned]) rfl) trivial
    (fun _ _ => Spares.of_eq rfl rfl (fun _ => rfl) rfl rfl rfl rfl rfl rfl)
    (h.traffic.keep rfl rfl rfl rfl rfl rfl rfl rfl (Nat.le_refl _) (fun _ _ => rfl)
      fun c x hl => hl.goto rfl hpc rfl hl.2)

omit [DecidableEq P] in
theorem fill_formed (hnodup : x.toList.Nodup) : (s.fill c x).Formed c x := by
  simp only [Idx.toList, nodup_cons, mem_cons, not_mem_nil, or_false,
    not_or] at hnodup
  obtain ⟨⟨h01, h02⟩, h12, -⟩ := hnodup
  refine ⟨?_, by simp [fill], by simp [fill]⟩
  intro j hj
  simp only [Idx.toList, mem_cons, not_mem_nil, or_false] at hj
  rcases hj with rfl | rfl | rfl
  · simp [fill, h01, h02]
  · simp [fill, h12, Ne.symm h01]
  · simp [fill, Ne.symm h02, Ne.symm h12]

theorem Inv.fill (h : s.Inv) (hpc : s.pc p = .format c x) :
    ((s.fill c x).goto p (.enqueue c x)).Inv := by
  have hholds : (s.pc p).holds = true := by rw [hpc]; rfl
  have howned : (s.pc p).owned = x.toList := by rw [hpc]; rfl
  have hwait : (s.pc p).waiting = none := by rw [hpc]; rfl
  have hnodup : x.toList.Nodup := by
    rw [← howned]
    exact h.chains.nodup p
  have hi0 : x.i0 ∈ (s.pc p).owned := by simp [howned]
  have hfresh : s.Fresh c := by
    have hat := h.place p
    rw [hpc] at hat
    exact hat
  have hf := fill_formed (s := s) (c := c) hnodup
  refine h.within hpc rfl rfl rfl rfl rfl rfl
    (h.chains.keep (goto_others rfl) ?_ rfl)
    ⟨hfresh, ⟨hf.desc, hf.ops, hf.info⟩, by simp⟩ ?_
    (h.traffic.keep rfl rfl rfl rfl rfl rfl rfl rfl (Nat.le_refl _) ?_ ?_)
  · rw [howned, goto_pc, if_pos rfl]
    rfl
  · intro q hq
    refine h.spares hholds hq ?_ ?_ ?_ ?_ rfl rfl
    · intro j hj
      rw [howned] at hj
      simp only [Idx.toList, mem_cons, not_mem_nil, or_false, not_or] at hj
      simp [hj]
    · intro j hj
      simp [(ne_of_mem_of_not_mem hi0 hj).symm]
    · intro j hj
      simp [(ne_of_mem_of_not_mem hi0 hj).symm]
    · intro b hb
      have hne : b ≠ c.b := hb c (by rw [hpc]; rfl)
      simp [update_of_ne hne]
  · intro i hi
    have hne : i ≠ x.i0 := ne_of_mem_of_not_mem hi (h.not_visible hwait hi0)
    simp [update_of_ne hne]
  · intro c' x' hl
    refine hl.goto rfl hpc rfl ?_
    by_cases hb : c'.b = c.b
    · simp [hb]
    · simpa [update_of_ne hb] using hl.2

theorem NUM_dvd : NUM ∣ 2 ^ 16 := by decide

theorem NUM_lt : NUM < 2 ^ 16 := by decide

omit [DecidableEq B] in
theorem Inv.enqueue (h : s.Inv) (hpc : s.pc p = .enqueue c x) : ({ s with
      availRing := update s.availRing (s.availIdx.toNat % NUM) x.i0 }.goto p
        (.publish c x)).Inv := by
  have hholds : (s.pc p).holds = true := by rw [hpc]; rfl
  have hwait : (s.pc p).waiting = none := by rw [hpc]; rfl
  have hi0 : x.i0 ∈ (s.pc p).owned := by simp [hpc, Pc.owned]
  have hat := h.place p
  rw [hpc] at hat
  obtain ⟨hfresh, hformed, hdisk⟩ := hat
  refine h.within hpc rfl rfl rfl rfl rfl rfl
    (h.chains.keep (goto_others rfl) ?_ rfl)
    ⟨hfresh, ⟨hformed.desc, hformed.ops, hformed.info⟩, hdisk, by simp⟩
    (fun q hq => h.spares hholds hq (fun _ _ => rfl) (fun _ _ => rfl) (fun _ _ => rfl)
      (fun _ _ => rfl) rfl rfl)
    (h.traffic.keep ?_ rfl rfl rfl rfl rfl rfl rfl (Nat.le_refl _) (fun _ _ => rfl) ?_)
  · rw [hpc, goto_pc, if_pos rfl]
    rfl
  · exact Ring.contents_store NUM_dvd _ _ (h.avail_room hwait hi0)
  · intro c' x' hl
    exact hl.goto rfl hpc rfl hl.2

omit [DecidableEq B] in
/-- The request is on its way. -/
theorem Inv.publish (h : s.Inv) (hpc : s.pc p = .publish c x) :
    ({ s with availIdx := s.availIdx + 1 }.goto p (.wait c x)).Inv := by
  have hholds : (s.pc p).holds = true := by rw [hpc]; rfl
  have hwait : (s.pc p).waiting = none := by rw [hpc]; rfl
  have hi0 : x.i0 ∈ (s.pc p).owned := by simp [hpc, Pc.owned]
  have hat := h.place p
  rw [hpc] at hat
  obtain ⟨hfresh, hformed, hdisk, hring⟩ := hat
  have havail : ({ s with availIdx := s.availIdx + 1 }.goto p (.wait c x)).avail =
      s.avail ++ [x.i0] := by
    rw [← hring]
    exact Ring.contents_bump NUM_dvd NUM_lt _ (h.avail_room hwait hi0)
  have ht := h.traffic
  refine h.within hpc rfl rfl rfl rfl rfl rfl
    (h.chains.keep (goto_others rfl) ?_ rfl)
    ⟨⟨hformed.desc, hformed.ops, hformed.info⟩, ?_, .inl hfresh⟩
    (fun q hq => h.spares hholds hq (fun _ _ => rfl) (fun _ _ => rfl) (fun _ _ => rfl)
      (fun _ _ => rfl) rfl rfl)
    ⟨?_, ?_, ?_, ht.unread, ht.status, ht.posted, ht.seen, ht.once, ht.past⟩
  · rw [hpc, goto_pc, if_pos rfl]
    rfl
  · intro hfalse
    have hfalse' : s.disk c.b = false := hfalse
    rw [hdisk] at hfalse'
    cases hfalse'
  · have hperm : (s.avail ++ [x.i0] ++ s.taken.map Req.head).Perm (x.i0 :: s.visible) := by
      rw [append_assoc]
      exact perm_middle
    unfold visible
    rw [havail]
    exact hperm.nodup_iff.mpr
      (nodup_cons.mpr ⟨h.not_visible hwait hi0, ht.nodup⟩)
  · intro i hi
    rw [havail] at hi
    rcases mem_append.mp hi with hi | hi
    · obtain ⟨c', x', hl, hx'⟩ := ht.avail i hi
      exact ⟨c', x', hl.goto rfl hpc rfl hl.2, hx'⟩
    · refine ⟨c, x, ⟨⟨p, ?_⟩, hdisk⟩, (mem_singleton.mp hi).symm⟩
      simp [Pc.waiting]
  · intro r hr
    obtain ⟨c', x', hl, hx'⟩ := ht.taken r hr
    exact ⟨c', x', hl.goto rfl hpc rfl hl.2, hx'⟩

omit [DecidableEq B] in
/-- The buffer has been given back: the chain is taken apart. -/
theorem Inv.finish (h : s.Inv) (hpc : s.pc p = .wait c x) (hdisk : s.disk c.b ≠ true) : ({ s with
      info := update s.info x.i0 { s.info x.i0 with b := none } }.goto p
        (.freeing c x x.i0)).Inv := by
  have hholds : (s.pc p).holds = true := by rw [hpc]; rfl
  have howned : (s.pc p).owned = x.toList := by rw [hpc]; rfl
  have hi0 : x.i0 ∈ (s.pc p).owned := by simp [howned]
  have hat := h.place p
  rw [hpc] at hat
  obtain ⟨hformed, hwaits⟩ := hat
  refine h.within hpc rfl rfl rfl rfl rfl rfl
    (h.chains.keep (goto_others rfl) ?_ rfl)
    ⟨by simp, ?_, ?_, hwaits.done (by simpa using hdisk)⟩ ?_
    (h.traffic.keep rfl rfl rfl rfl rfl rfl rfl rfl (Nat.le_refl _) ?_ ?_)
  · rw [howned, goto_pc, if_pos rfl]
    simp [Pc.owned]
  · rw [← howned]
    exact h.chains.nodup p
  · intro j hj
    exact hformed.desc j (by simpa using hj)
  · intro q hq
    refine h.spares hholds hq (fun _ _ => rfl) (fun _ _ => rfl) ?_ (fun _ _ => rfl) rfl rfl
    intro j hj
    simp [(ne_of_mem_of_not_mem hi0 hj).symm]
  · intro i _
    by_cases hi : i = x.i0
    · simp [hi]
    · simp [update_of_ne hi]
  · intro c' x' hl
    refine hl.move (goto_others rfl) ?_ hl.2
    intro hw
    rw [hpc] at hw
    injection hw with hw
    injection hw with hc
    rw [← hc] at hl
    exact absurd hl.2 hdisk

/-- **`free_chain` frees the chain it was given.** -/
theorem Inv.freeing_safe (h : s.Inv) (hpc : s.pc p = .freeing c x i) : (s.run p).Safe Inv := by
  have hat := h.place p
  rw [hpc] at hat
  obtain ⟨hi, hnodup, hdesc, hdone⟩ := hat
  have hnodup' := hnodup
  simp only [Idx.toList, nodup_cons, mem_cons, not_mem_nil, or_false,
    not_or] at hnodup hi
  obtain ⟨⟨h01, h02⟩, h12, -⟩ := hnodup
  have hmine : i ∈ x.rest i := by
    rcases hi with rfl | rfl | rfl
    · simp
    · simp [Ne.symm h01]
    · simp [Ne.symm h02, Ne.symm h12]
  have hfree : s.freeDesc i = .next (s.freed i) := by
    apply h.freeDesc_eq (p := p)
    rw [hpc]
    exact hmine
  -- the descriptors after `i` are still as they were formatted
  have hrest : ∀ i', (∀ j ∈ x.rest i', j ∈ x.rest i ∧ j ≠ i) →
      ∀ j ∈ x.rest i', (s.freed i).desc j = c.descAt x j := by
    intro i' hsub j hj
    obtain ⟨hj, hne⟩ := hsub j hj
    simp only [freed, update_of_ne hne]
    exact hdesc j hj
  unfold run
  simp only [hpc, hfree, Outcome.bind_next, hdesc i hmine]
  rcases hi with rfl | rfl | rfl
  · rw [if_pos (by simp [Call.desc0, VRING_DESC_F_NEXT])]
    refine h.give hpc rfl rfl ?_ rfl rfl ⟨?_, hnodup', ?_, hdone⟩
    · simp [Pc.owned, Call.desc0, Ne.symm h01]
    · simp [Call.desc0]
    · apply hrest
      intro j hj
      simp only [Call.descAt, Call.desc0, Idx.rest, if_true, if_neg (Ne.symm h01), mem_cons,
        not_mem_nil, or_false] at hj ⊢
      rcases hj with rfl | rfl
      · exact ⟨by simp, Ne.symm h01⟩
      · exact ⟨by simp, Ne.symm h02⟩
  · rw [if_pos (by
      simp only [Call.descAt, Call.desc1, if_neg (Ne.symm h01), if_true]
      cases c.write <;> decide)]
    refine h.give hpc rfl rfl ?_ rfl rfl ⟨?_, hnodup', ?_, hdone⟩
    · simp [Pc.owned, Call.desc1, Ne.symm h01, Ne.symm h02, Ne.symm h12]
    · simp [Call.desc1, Ne.symm h01]
    · apply hrest
      intro j hj
      simp only [Call.descAt, Call.desc1, Idx.rest, if_neg (Ne.symm h01), if_neg (Ne.symm h02),
        if_neg (Ne.symm h12), if_true, mem_cons, not_mem_nil, or_false] at hj ⊢
      rw [hj]
      exact ⟨.inr rfl, Ne.symm h12⟩
  · rw [if_neg (by simp [Call.desc2, Ne.symm h02, Ne.symm h12, VRING_DESC_F_WRITE,
      VRING_DESC_F_NEXT])]
    refine h.give hpc rfl rfl ?_ rfl rfl hdone
    simp [Pc.owned, Ne.symm h02, Ne.symm h12]

end State

end Virtio

end Xv6
