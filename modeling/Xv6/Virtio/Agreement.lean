import Xv6.Virtio.Requests

/-!
# Driver and device agree

The device's steps, `virtio_disk_intr`, and what follows for every interleaving:
an entry the handler reads is the completion of a waiting call's request, and a
call returns only after its own.

The device takes a head from the available ring, completes its request in any
order, and posts it. The entry and the index are two writes, and the driver may
run in between; `posting` is the request that is between the two.
-/

namespace Xv6

open Function List Option

namespace Virtio

variable {P B : Type}

namespace State

variable {s s' : State P B} {l l' : Pc B} {c c' : Call B} {x x' : Idx} {p q : P}

/-! ## The device -/

theorem Formed.readReq (h : s.Formed c x) (hnodup : x.toList.Nodup) :
    s.readReq x.i0 = some (c.req x) := by
  simp only [Idx.toList, nodup_cons, mem_cons, not_mem_nil, or_false,
    not_or] at hnodup
  obtain ⟨⟨h01, h02⟩, h12, -⟩ := hnodup
  have h0 : s.desc x.i0 = c.desc0 x := by
    rw [h.desc x.i0 (by simp [Idx.toList]), Call.descAt, if_pos rfl]
  have h1 : s.desc (c.desc0 x).next = c.desc1 x := by
    rw [show (c.desc0 x).next = x.i1 from rfl, h.desc x.i1 (by simp [Idx.toList]), Call.descAt,
      if_neg (Ne.symm h01), if_pos rfl]
  have h2 : s.desc (c.desc1 x).next = c.desc2 x := by
    rw [show (c.desc1 x).next = x.i2 from rfl, h.desc x.i2 (by simp [Idx.toList]), Call.descAt,
      if_neg (Ne.symm h02), if_neg (Ne.symm h12)]
  have hflags : (c.desc0 x).flags &&& VRING_DESC_F_NEXT ≠ 0 ∧
      (c.desc1 x).flags &&& VRING_DESC_F_NEXT ≠ 0 ∧
      (c.desc2 x).flags &&& VRING_DESC_F_NEXT = 0 := by
    simp only [Call.desc0, Call.desc1, Call.desc2]
    cases c.write <;> decide
  unfold State.readReq
  simp only [h0, h1, h2]
  rw [if_pos hflags]
  simp [Call.desc0, Call.desc1, Call.desc2, h.ops, Call.req]

attribute [local simp] Pc.owned

section

variable (h : s.Inv)

include h

/-- The device finds the chain the driver formatted. -/
theorem Inv.consume_safe (hne : s.lastAvail ≠ s.availIdx) :
    ∃ r, s.readReq (s.availRing (s.lastAvail.toNat % NUM)) = some r ∧
      Inv { s with pending := s.pending ++ [r], lastAvail := s.lastAvail + 1 } := by
  have hused : 0 < Ring.used s.lastAvail s.availIdx :=
    Nat.pos_of_ne_zero fun hz => hne (Ring.used_eq_zero.mp hz)
  have hpop : s.avail = s.availRing (s.lastAvail.toNat % NUM) ::
      Ring.contents NUM s.availRing (s.lastAvail + 1) s.availIdx :=
    Ring.contents_pop NUM_dvd _ hused
  obtain ⟨c, x, hl, hx⟩ := h.traffic.avail _ (by rw [hpop]; exact mem_cons_self)
  refine ⟨c.req x, ?_, h.threads.device rfl rfl rfl rfl, h.chains.device rfl rfl, ?_, ?_⟩
  · rw [← hx]
    exact (h.formed hl).readReq (h.live_nodup hl)
  · intro q
    have hspares : Spares s { s with
        pending := s.pending ++ [c.req x], lastAvail := s.lastAvail + 1 } (s.pc q) :=
      Spares.of_eq rfl rfl (fun _ => rfl) rfl rfl rfl rfl rfl rfl
    exact hspares.at (h.place q)
  · have ht := h.traffic
    refine ⟨?_, ?_, ?_, ht.unread, ht.status, ht.posted, ht.seen, ht.once, ht.past⟩
    · have hperm : (Ring.contents NUM s.availRing (s.lastAvail + 1) s.availIdx ++
          (s.pending ++ [c.req x] ++ (s.posting.toList ++ s.completed.drop s.seen)).map
            Req.head).Perm s.visible := by
        rw [visible, hpop, ← hx, State.taken, append_assoc, singleton_append]
        refine (List.Perm.append_left _ ((perm_middle).map Req.head)).trans ?_
        exact perm_middle
      exact hperm.nodup_iff.mpr ht.nodup
    · intro i hi
      exact ht.avail i (by rw [hpop]; exact mem_cons_of_mem _ hi)
    · intro r hr
      have hr' : r = c.req x ∨ r ∈ s.taken := by
        simp only [State.taken, mem_append, mem_singleton] at hr ⊢
        tauto
      rcases hr' with rfl | hr'
      · exact ⟨c, x, hl, rfl⟩
      · exact ht.taken r hr'

theorem Inv.complete {k : Nat} {r : Req B} (hk : s.pending[k]? = some r)
    (hposting : s.posting = none) :
    Inv { s with
      pending := s.pending.eraseIdx k
      info := update s.info r.status { s.info r.status with status := 0 }
      usedRing := update s.usedRing (s.usedIdx.toNat % NUM) r.head
      posting := some r } := by
  have ht := h.traffic
  obtain ⟨hlt, hget⟩ := List.getElem?_eq_some_iff.mp hk
  have hpend : r ∈ s.pending := mem_of_getElem? hk
  have hunread : Ring.contents NUM (update s.usedRing (s.usedIdx.toNat % NUM) r.head)
      s.lookedIdx s.usedIdx = s.unread :=
    Ring.contents_store NUM_dvd _ _ (h.used_room (by omega))
  obtain ⟨c, x, hl, hr⟩ := ht.taken r (mem_append_left _ hpend)
  have hhead : r.status = r.head := by rw [hr]; rfl
  have hinfo : ∀ i, ((update s.info r.status { s.info r.status with status := 0 }) i).b =
      (s.info i).b := by
    intro i
    by_cases hi : i = r.status
    · simp [hi]
    · simp [update_of_ne hi]
  have hmem : ∀ r', r' ∈ s.pending.eraseIdx k ++ ([r] ++ s.completed.drop s.seen) →
      r' ∈ s.taken := by
    intro r' hr'
    simp only [State.taken, mem_append, mem_singleton] at hr' ⊢
    rcases hr' with hr' | rfl | hr'
    · exact .inl (mem_of_mem_eraseIdx hr')
    · exact .inl hpend
    · exact .inr (.inr hr')
  refine ⟨h.threads.device rfl rfl rfl rfl, h.chains.device rfl rfl, ?_,
    ?_, ht.avail, ?_, ?_, ?_, ?_, ht.seen, ht.once, ht.past⟩
  · intro q
    have hspares : Spares s { s with
        pending := s.pending.eraseIdx k
        info := update s.info r.status { s.info r.status with status := 0 }
        usedRing := update s.usedRing (s.usedIdx.toNat % NUM) r.head
        posting := some r } (s.pc q) :=
      Spares.of_eq rfl rfl hinfo rfl rfl rfl hunread rfl rfl
    exact hspares.at (h.place q)
  · have hperm : (s.pending.eraseIdx k ++ ([r] ++ s.completed.drop s.seen)).Perm s.taken := by
      rw [State.taken, hposting, ← hget]
      refine perm_middle.trans ?_
      exact (getElem_cons_eraseIdx_perm hlt).append_right _
    have hperm' : (s.avail ++ (s.pending.eraseIdx k ++ ([r] ++ s.completed.drop s.seen)).map
        Req.head).Perm s.visible := (hperm.map _).append_left _
    exact hperm'.nodup_iff.mpr ht.nodup
  · intro r' hr'
    exact ht.taken r' (hmem r' hr')
  · exact hunread.trans ht.unread
  · intro r' hr'
    by_cases hi : r'.head = r.status
    · simp [hi]
    · simp only [update_of_ne hi]
      have hne : r' ≠ r := by
        intro heq
        rw [heq] at hi
        exact hi hhead.symm
      apply ht.status
      simp only [toList_some, mem_append, mem_singleton] at hr' ⊢
      rcases hr' with hr' | hr'
      · exact absurd hr' hne
      · exact .inr hr'
  · intro r' hr'
    injection hr' with hr'
    simp [hr']

/-- What the device posts was not completed before. -/
theorem Inv.posting_fresh {r : Req B} (hposting : s.posting = some r) {c : Call B}
    {x : Idx} (hl : s.Live c x) (hr : r = c.req x) : s.Fresh c := by
  have ht := h.traffic
  obtain ⟨q, hq⟩ := hl.1
  rcases ((h.place q).of_waiting hq).2.told with hfresh | hdisk | ⟨r', hr', hcall⟩
  · exact hfresh
  · rw [hl.2] at hdisk
    cases hdisk
  · -- it would be in the used ring and on its way there
    obtain ⟨c', x', hl', rfl⟩ := ht.taken r' (by simp [State.taken, hr'])
    have hsame := h.threads.live_num hl' hl hcall
    injection hsame with hc hx
    subst hc hx
    have hnodup : ((s.posting.toList ++ s.completed.drop s.seen).map Req.head).Nodup := by
      have := (nodup_append.mp ht.nodup).2.1
      rw [State.taken, map_append] at this
      exact (nodup_append.mp this).2.1
    rw [hposting, hr, toList_some, singleton_append, map_cons,
      nodup_cons] at hnodup
    exact absurd (mem_map_of_mem hr') hnodup.1

theorem Inv.post {r : Req B} (hposting : s.posting = some r) :
    Inv { s with usedIdx := s.usedIdx + 1, posting := none, completed := s.completed ++ [r] } := by
  have ht := h.traffic
  obtain ⟨c, x, hl, hr⟩ := ht.taken r (by simp [State.taken, hposting])
  have hfresh := h.posting_fresh hposting hl hr
  have hdrop : (s.completed ++ [r]).drop s.seen = s.completed.drop s.seen ++ [r] :=
    drop_append_of_le_length ht.seen
  have hunread : Ring.contents NUM s.usedRing s.lookedIdx (s.usedIdx + 1) =
      s.unread ++ [r.head] := by
    rw [← ht.posted r hposting]
    exact Ring.contents_bump NUM_dvd NUM_lt _ (h.used_room (by simp [hposting]))
  have hperm : (s.pending ++ ((none : Option (Req B)).toList ++
      (s.completed ++ [r]).drop s.seen)).Perm s.taken := by
    rw [hdrop, State.taken, hposting]
    have hcomm : (s.completed.drop s.seen ++ [r]).Perm ([r] ++ s.completed.drop s.seen) :=
      perm_append_comm
    exact hcomm.append_left _
  have hnum : r.op.call = c.n := by rw [hr]; rfl
  -- only the waiting thread's request is concerned
  have hkeep : ∀ c', c'.n ≠ c.n → s.Fresh c' →
      Fresh { s with usedIdx := s.usedIdx + 1, posting := none, completed := s.completed ++ [r] }
        c' := by
    intro c' hne hfresh'
    unfold Fresh
    rw [map_append, mem_append]
    rintro (hmem | hmem)
    · exact hfresh' hmem
    · rw [map_singleton, mem_singleton, hnum] at hmem
      exact hne hmem
  refine ⟨h.threads.device rfl rfl rfl rfl, h.chains.device rfl rfl, ?_,
    ?_, ht.avail, ?_, ?_, ?_, ?_, ?_, ?_, ?_⟩
  · intro q
    refine Spares.at (s := s) ⟨fun _ _ => rfl, fun _ _ => rfl, fun _ _ => rfl, fun _ _ _ => rfl,
      ?_, ?_, fun _ => ⟨rfl, rfl⟩, ?_, ?_⟩ (h.place q)
    · intro c' hc' hw hfresh'
      apply hkeep c' _ hfresh'
      intro hn
      obtain ⟨q', hq'⟩ := hl.1
      rw [h.threads.num q q' c' c hc' (Pc.call_of_waiting hq') hn, hq'] at hw
      cases hw
    · intro c' x' _ hwaits
      refine ⟨fun hd => mem_append_left _ (hwaits.done hd), ?_⟩
      rw [show State.completed { s with
        usedIdx := s.usedIdx + 1, posting := none, completed := s.completed ++ [r] } =
          s.completed ++ [r] from rfl, hdrop]
      by_cases hn : c'.n = c.n
      · exact .inr (.inr ⟨r, by simp, by rw [hnum, hn]⟩)
      · rcases hwaits.told with hfresh' | hdisk | ⟨r', hr', hcall⟩
        · exact .inl (hkeep c' hn hfresh')
        · exact .inr (.inl hdisk)
        · exact .inr (.inr ⟨r', mem_append_left _ hr', hcall⟩)
    · intro _ id hid
      unfold State.unread
      rw [hunread]
      cases hu : s.unread with
      | nil =>
        rw [hu] at hid
        cases hid
      | cons a as =>
        rw [hu] at hid
        exact hid
    · intro r' hr'
      exact mem_append_left _ hr'
  · exact ((hperm.map Req.head).append_left s.avail).nodup_iff.mpr ht.nodup
  · intro r' hr'
    exact ht.taken r' (hperm.mem_iff.mp hr')
  · refine hunread.trans ?_
    rw [hdrop, ht.unread, map_append, map_singleton]
  · intro r' hr'
    apply ht.status
    rw [hdrop] at hr'
    simp only [toList_none, nil_append, mem_append, mem_singleton] at hr'
    rcases hr' with hr' | rfl
    · exact mem_append_right _ hr'
    · simp [hposting]
  · intro r' hr'
    cases hr'
  · simp only [length_append]
    exact Nat.le_trans ht.seen (Nat.le_add_right _ _)
  · rw [map_append, nodup_append]
    refine ⟨ht.once, by simp, ?_⟩
    intro a ha b hb heq
    rw [map_singleton, mem_singleton, hnum] at hb
    rw [heq, hb] at ha
    exact hfresh ha
  · intro r' hr'
    rcases mem_append.mp hr' with hr' | hr'
    · exact ht.past r' hr'
    · obtain ⟨q, hq⟩ := hl.1
      rw [mem_singleton.mp hr', hnum]
      exact (h.threads.call q c (Pc.call_of_waiting hq)).1

/-! ## The interrupt handler -/

/-- The entry the handler is at completes the request of a call that waits for
    it. -/
theorem Inv.entry {id : Nat} (hpc : s.pc p = .intrEntry id) : ∃ c x, s.Live c x ∧ x.i0 = id ∧
      s.completed.drop s.seen = c.req x :: s.completed.drop (s.seen + 1) := by
  have hhead : s.unread.head? = some id := by
    have hat := h.place p
    rw [hpc] at hat
    exact hat
  rw [h.traffic.unread] at hhead
  cases hdrop : s.completed.drop s.seen with
  | nil =>
    rw [hdrop] at hhead
    cases hhead
  | cons r rest =>
    rw [hdrop] at hhead
    injection hhead with hid
    obtain ⟨c, x, hl, rfl⟩ := h.traffic.taken r (by simp [State.taken, hdrop])
    refine ⟨c, x, hl, hid, ?_⟩
    rw [← tail_drop, hdrop]
    rfl

/-- What else is on its way is not the request the handler is at. -/
theorem Inv.entry_ne (hl : s.Live c x)
    (hdrop : s.completed.drop s.seen = c.req x :: s.completed.drop (s.seen + 1)) :
    (x.i0 :: (s.avail ++ (s.pending ++ (s.posting.toList ++
      s.completed.drop (s.seen + 1))).map Req.head)).Nodup ∧
    ∀ c' x', s.Live c' x' → x'.i0 ≠ x.i0 → c'.b ≠ c.b := by
  refine ⟨?_, ?_⟩
  · have hperm : s.visible.Perm (x.i0 :: (s.avail ++ (s.pending ++ (s.posting.toList ++
        s.completed.drop (s.seen + 1))).map Req.head)) := by
      rw [visible, State.taken, hdrop]
      refine List.Perm.trans ?_ perm_middle
      refine List.Perm.append_left _ ?_
      have hmid : (s.pending ++ (s.posting.toList ++ c.req x :: s.completed.drop (s.seen + 1))).Perm
          (c.req x :: (s.pending ++ (s.posting.toList ++ s.completed.drop (s.seen + 1)))) :=
        (List.Perm.append_left _ perm_middle).trans perm_middle
      exact hmid.map Req.head
    exact hperm.nodup_iff.mp h.traffic.nodup
  · intro c' x' hl' hne hb
    have hsame := h.threads.live_buf hl' hl hb
    injection hsame with _ hx
    rw [hx] at hne
    exact hne rfl

variable [DecidableEq P] [DecidableEq B]

/-- The handler gives the buffer back. -/
theorem Inv.giveBack (hpc : (s.pc p) = .intrEntry x.i0) (hl : s.Live c x)
    (hdrop : s.completed.drop s.seen = c.req x :: s.completed.drop (s.seen + 1)) :
    ({ s with
      disk := update s.disk c.b false
      lookedIdx := s.lookedIdx + 1
      seen := s.seen + 1 }.goto p .intrLoop).Inv := by
  have ht := h.traffic
  have hholds : (s.pc p).holds = true := by rw [hpc]; rfl
  obtain ⟨hnodup, hbuf⟩ := h.entry_ne hl hdrop
  obtain ⟨hnot, hnodup⟩ := nodup_cons.mp hnodup
  obtain ⟨q0, hq0⟩ := hl.1
  have hdone : c.req x ∈ s.completed := by
    apply mem_of_mem_drop (i := s.seen)
    rw [hdrop]
    exact mem_cons_self
  have hunread : s.unread = s.usedRing (s.lookedIdx.toNat % NUM) ::
      Ring.contents NUM s.usedRing (s.lookedIdx + 1) s.usedIdx := by
    refine Ring.contents_pop NUM_dvd _ ?_
    have hlen : s.unread.length = Ring.used s.lookedIdx s.usedIdx := Ring.contents_length ..
    rw [ht.unread, hdrop] at hlen
    simp only [map_cons, length_cons] at hlen
    omega
  generalize ht' : ({ s with
    disk := update s.disk c.b false
    lookedIdx := s.lookedIdx + 1
    seen := s.seen + 1 } : State P B) = t
  have hdisk : ∀ b, b ≠ c.b → t.disk b = s.disk b := by
    intro b hb
    rw [← ht']
    exact update_of_ne hb _ _
  have hlive : ∀ c' x', s.Live c' x' → x'.i0 ≠ x.i0 → (t.goto p .intrLoop).Live c' x' := by
    intro c' x' hl' hne
    refine hl'.goto (by rw [← ht']) hpc rfl ?_
    rw [hdisk _ (hbuf c' x' hl' hne)]
    exact hl'.2
  subst ht'
  refine h.within hpc rfl rfl rfl rfl rfl rfl (h.chains.keep (goto_others rfl) ?_ rfl) trivial ?_
    ⟨hnodup, ?_, ?_, ?_, ?_, ht.posted, ?_, ht.once, ht.past⟩
  · simp [hpc]
  · intro q hq
    have hout : (s.pc q).holds ≠ true := by
      intro hin
      exact hq (h.threads.alone hholds hin)
    refine ⟨fun _ _ => rfl, fun _ _ => rfl, fun _ _ => rfl, ?_, fun _ _ _ hf => hf, ?_,
      fun hin => absurd hin hout, fun hin => absurd hin hout, fun _ hr => hr⟩
    · intro c' hc' hw
      refine hdisk _ ?_
      intro hb
      rw [h.threads.buf q q0 c' c hc' (Pc.call_of_waiting hq0) hb, hq0] at hw
      cases hw
    · intro c' x' hw hwaits
      by_cases hb : c'.b = c.b
      · have hl' : s.Live c' x' := ⟨⟨q, hw⟩, by rw [hb]; exact hl.2⟩
        have hsame := h.threads.live_buf hl' hl hb
        injection hsame with hc hx
        subst hc hx
        exact ⟨fun _ => hdone, .inr (.inl (by simp [goto]))⟩
      · refine ⟨fun hd => hwaits.done ((hdisk _ hb).symm.trans hd), ?_⟩
        rcases hwaits.told with hfresh | hd | ⟨r, hr, hcall⟩
        · exact .inl hfresh
        · exact .inr (.inl ((hdisk _ hb).trans hd))
        · rw [hdrop] at hr
          rcases mem_cons.mp hr with rfl | hr
          · have hqq := h.threads.num q q0 c' c (Pc.call_of_waiting hw) (Pc.call_of_waiting hq0)
              hcall.symm
            rw [hqq, hq0] at hw
            injection hw with hw
            injection hw with hc
            rw [hc] at hb
            exact absurd rfl hb
          · exact .inr (.inr ⟨r, hr, hcall⟩)
  · intro i hi
    obtain ⟨c', x', hl', hx'⟩ := ht.avail i hi
    refine ⟨c', x', hlive c' x' hl' ?_, hx'⟩
    intro heq
    rw [hx'] at heq
    exact hnot (mem_append_left _ (heq ▸ hi))
  · intro r hr
    have hr' : r ∈ s.taken := by
      rw [State.taken, hdrop]
      simp only [State.taken, goto, mem_append, mem_cons] at hr ⊢
      tauto
    obtain ⟨c', x', hl', rfl⟩ := ht.taken r hr'
    refine ⟨c', x', hlive c' x' hl' ?_, rfl⟩
    intro heq
    exact hnot (heq ▸ mem_append_right _ (mem_map_of_mem hr))
  · have htail := ht.unread
    rw [hunread, hdrop, map_cons] at htail
    injection htail with _ htail
  · intro r hr
    apply ht.status
    rw [hdrop]
    simp only [goto, mem_append, mem_cons] at hr ⊢
    tauto
  · have hlen := congrArg List.length hdrop
    simp only [length_drop, length_cons] at hlen
    show s.seen + 1 ≤ s.completed.length
    omega

theorem Inv.intrEntry {id : Nat} (hpc : s.pc p = .intrEntry id) :
    ∃ c x, s.Live c x ∧ x.i0 = id ∧ s.completed[s.seen]? = some (c.req x) ∧
      ∃ s', s.run p = .next s' ∧ s'.Inv ∧ s'.disk = update s.disk c.b false := by
  obtain ⟨c, x, hl, rfl, hdrop⟩ := h.entry hpc
  have hstatus : (s.info x.i0).status = 0 :=
    h.traffic.status (c.req x) (by simp [hdrop])
  have hb : (s.info x.i0).b = some c.b := (h.formed hl).info
  refine ⟨c, x, hl, rfl, ?_, _, ?_, h.giveBack hpc hl hdrop, rfl⟩
  · rw [← head?_drop, hdrop]
    rfl
  · unfold run
    simp [hpc, hstatus, hb]

/-! ## Every run -/

theorem Inv.alloc_safe {got : List Nat} (hpc : s.pc p = .alloc c got) : (s.run p).Safe Inv := by
  have hfresh : s.Fresh c := by
    have hat := h.place p
    rw [hpc] at hat
    exact hat
  unfold run
  simp only [hpc]
  unfold allocDesc
  cases hfind : (List.range NUM).find? fun i => s.free i with
  | none =>
    exact h.stay hpc rfl rfl rfl rfl hfresh
  | some i =>
    have hlt : i < NUM := mem_range.mp (mem_of_find?_eq_some hfind)
    have hi : s.free i = true := by simpa using find?_some hfind
    dsimp only
    split
    · exact h.alloc hpc hlt hi rfl rfl rfl rfl hfresh
    · exact h.alloc hpc hlt hi rfl rfl rfl rfl hfresh

theorem Inv.undo_safe {rest : List Nat} (hpc : s.pc p = .undo c rest) : (s.run p).Safe Inv := by
  have hfresh : s.Fresh c := by
    have hat := h.place p
    rw [hpc] at hat
    exact hat
  cases rest with
  | nil =>
    unfold run
    simp only [hpc]
    exact h.release_safe hpc rfl rfl rfl rfl rfl hfresh
  | cons j rest =>
    unfold run
    simp only [hpc]
    rw [h.freeDesc_eq (p := p) (i := j) (by simp [hpc])]
    exact h.give hpc rfl rfl rfl rfl rfl hfresh

theorem Inv.intrLoop_safe (hpc : s.pc p = .intrLoop) : (s.run p).Safe Inv := by
  unfold run
  simp only [hpc]
  split
  · rename_i hne
    refine h.stay hpc rfl rfl rfl rfl ?_
    have hused : 0 < Ring.used s.lookedIdx s.usedIdx :=
      Nat.pos_of_ne_zero fun hz => hne (Ring.used_eq_zero.mp hz)
    have hpop : s.unread = s.usedRing (s.lookedIdx.toNat % NUM) :: _ :=
      Ring.contents_pop NUM_dvd _ hused
    show s.unread.head? = some _
    rw [hpop]
    rfl
  · exact h.stay hpc rfl rfl rfl rfl trivial

theorem Inv.run_safe (p : P) : (s.run p).Safe Inv := by
  have hat := h.place p
  cases hpc : s.pc p with
  | idle =>
    simp only [run, hpc]
    trivial
  | enter c | doze c | asleep c x =>
    rw [hpc] at hat
    simp only [run, hpc]
    exact h.acquire_safe hpc rfl rfl rfl rfl hat
  | alloc c got => exact h.alloc_safe hpc
  | undo c rest => exact h.undo_safe hpc
  | format c x =>
    simp only [run, hpc]
    exact h.fill hpc
  | enqueue c x =>
    simp only [run, hpc]
    exact h.enqueue hpc
  | publish c x =>
    simp only [run, hpc]
    exact h.publish hpc
  | wait c x =>
    rw [hpc] at hat
    simp only [run, hpc]
    split
    · exact h.release_safe hpc rfl rfl rfl rfl rfl hat
    · rename_i hdisk
      exact h.finish hpc hdisk
  | freeing c x i => exact h.freeing_safe hpc
  | exit c x =>
    simp only [run, hpc]
    exact h.exit hpc
  | intrEnter =>
    simp only [run, hpc]
    exact h.acquire_safe hpc rfl rfl rfl rfl trivial
  | intrLoop => exact h.intrLoop_safe hpc
  | intrEntry id =>
    obtain ⟨-, -, -, -, -, s', hs', hinv, -⟩ := h.intrEntry hpc
    rw [hs']
    exact hinv
  | intrExit =>
    simp only [run, hpc]
    exact h.release_safe hpc rfl rfl rfl rfl rfl trivial

theorem Inv.step_safe (e : Event P B) : (step s e).Safe Inv := by
  cases e with
  | rw p b blockno write =>
    simp only [step]
    split
    · rename_i hidle
      split
      · trivial
      · rename_i hb
        exact h.rw hidle hb blockno write
    · trivial
  | intr p =>
    simp only [step]
    split
    · rename_i hidle
      exact h.stay hidle rfl rfl rfl rfl trivial
    · trivial
  | run p => exact h.run_safe p
  | consume =>
    simp only [step]
    split
    · rename_i hne
      obtain ⟨r, hr, hinv⟩ := h.consume_safe hne
      rw [hr]
      exact hinv
    · trivial
  | complete k =>
    simp only [step]
    split
    · rename_i r hk hposting
      exact h.complete hk hposting
    · trivial
  | post =>
    simp only [step]
    split
    · rename_i r hposting
      exact h.post hposting
    · trivial

/-- The driver after `virtio_disk_init`: no descriptor is in use, and neither
    side is ahead in either ring. -/
def Starts (s : State P B) : Prop :=
  (∀ i, i < NUM → s.free i = true) ∧ (∀ p, s.pc p = .idle) ∧ s.lock = none ∧
    s.lastAvail = s.availIdx ∧ s.lookedIdx = s.usedIdx ∧ s.pending = [] ∧ s.posting = none ∧
    s.completed = [] ∧ s.seen = 0

omit h in
omit [DecidableEq P] [DecidableEq B] in
theorem Starts.inv (h : Starts s) : s.Inv := by
  obtain ⟨hfree, hpc, hlock, havail, hused, hpending, hposting, hcompleted, hseen⟩ := h
  have hnone : s.avail = [] := by simp [State.avail, Ring.contents, havail]
  have htaken : s.taken = [] := by simp [State.taken, hpending, hposting, hcompleted]
  refine ⟨⟨?_, ?_, ?_, ?_⟩, ⟨?_, ?_, ?_, ?_⟩, ?_, ⟨?_, ?_, ?_, ?_, ?_, ?_, ?_, ?_, ?_⟩⟩
  · intro p
    simp [hpc, hlock, Pc.holds]
  · intro p c hc
    simp [hpc, Pc.call] at hc
  · intro p q c c' hc
    simp [hpc, Pc.call] at hc
  · intro p q c c' hc
    simp [hpc, Pc.call] at hc
  · intro p
    simp [hpc]
  · intro p i hi
    simp [hpc] at hi
  · intro p q i hi
    simp [hpc] at hi
  · intro i hlt hi
    rw [hfree i hlt] at hi
    cases hi
  · intro p
    rw [hpc]
    trivial
  · simp [visible, hnone, htaken]
  · simp [hnone]
  · simp [htaken]
  · simp [State.unread, Ring.contents, hused, hcompleted]
  · simp [hposting, hcompleted]
  · simp [hposting]
  · simp [hseen]
  · simp [hcompleted]
  · simp [hcompleted]

omit h in
theorem Inv.reachable (h : Reachable step Starts s) : s.Inv := by
  apply Reachable.invariant _ _ h
  · intro s hs
    exact hs.inv
  · intro s e s' hs hstep
    exact (hs.step_safe e).of_next hstep

omit [DecidableEq P] [DecidableEq B] in
theorem Inv.inFlight (hp : (s.pc p).inFlight = some (c, x)) :
    (s.pc p).owned = x.toList ∧ s.Formed c x := by
  have hat := h.place p
  cases hpc : s.pc p with
  | enqueue c' x' | publish c' x' =>
    rw [hpc] at hp hat
    injection hp with hp
    injection hp with hc hx
    subst hc hx
    exact ⟨rfl, hat.2.1⟩
  | wait c' x' | asleep c' x' =>
    rw [hpc] at hp hat
    injection hp with hp
    injection hp with hc hx
    subst hc hx
    exact ⟨rfl, hat.1⟩
  | _ =>
    rw [hpc] at hp
    cases hp

omit [DecidableEq P] [DecidableEq B] in
theorem Inv.free_or_owned {i : Nat} (hi : i < NUM) : (s.free i = true ∧ ∀ p, i ∉ (s.pc p).owned) ∨
      (s.free i = false ∧ ∃! p, i ∈ (s.pc p).owned) := by
  cases hfree : s.free i with
  | true =>
    refine .inl ⟨rfl, ?_⟩
    intro p hp
    rw [(h.chains.taken p i hp).2] at hfree
    cases hfree
  | false =>
    obtain ⟨p, hp⟩ := h.chains.owner i hi hfree
    refine .inr ⟨rfl, p, hp, ?_⟩
    intro q hq
    exact h.chains.inj q p i hq hp

end

/-- **Driver and device agree on requests.** In every reachable state: a
    descriptor is free or is exactly one thread's; an in-flight chain has three
    distinct descriptors and the device reads it as the call's request; no event
    panics, `free_desc` included; neither the driver's next avail entry nor the
    device's next used element overwrites one that has not been read; the used
    entry the handler is at is the completion of a waiting call's request, and
    the handler clears `b->disk` of that call's buffer alone; and a call that
    returns has had its own request completed, which happens once. -/
theorem driver_device_agree {P B : Type} [DecidableEq P] [DecidableEq B] (s : State P B)
    (h : Reachable step Starts s) :
    (∀ i, i < NUM →
      (s.free i = true ∧ ∀ p, i ∉ (s.pc p).owned) ∨
        (s.free i = false ∧ ∃! p, i ∈ (s.pc p).owned)) ∧
    (∀ p c x, (s.pc p).inFlight = some (c, x) →
      (s.pc p).owned = x.toList ∧ x.toList.Nodup ∧ s.readReq x.i0 = some (c.req x)) ∧
    (∀ e m, step s e ≠ .panic m) ∧
    (∀ p c x, s.pc p = .enqueue c x → ∀ k, k < Ring.used s.lastAvail s.availIdx →
      (s.lastAvail.toNat + k) % NUM ≠ s.availIdx.toNat % NUM) ∧
    (s.pending ≠ [] → ∀ k, k < Ring.used s.lookedIdx s.usedIdx →
      (s.lookedIdx.toNat + k) % NUM ≠ s.usedIdx.toNat % NUM) ∧
    (∀ p id, s.pc p = .intrEntry id →
      ∃ q c x, (s.pc q).waiting = some (c, x) ∧ x.i0 = id ∧
        s.completed[s.seen]? = some (c.req x) ∧
        ∃ s', step s (.run p) = .next s' ∧ s'.disk = update s.disk c.b false) ∧
    (∀ p c x, s.pc p = .exit c x → c.req x ∈ s.completed) ∧
    (s.completed.map fun r => r.op.call).Nodup := by
  have hinv := Inv.reachable h
  refine ⟨?_, ?_, ?_, ?_, ?_, ?_, ?_, hinv.traffic.once⟩
  · intro i hi
    exact hinv.free_or_owned hi
  · intro p c x hp
    obtain ⟨howned, hformed⟩ := hinv.inFlight hp
    have hnodup : x.toList.Nodup := by
      rw [← howned]
      exact hinv.chains.nodup p
    exact ⟨howned, hnodup, hformed.readReq hnodup⟩
  · intro e m
    exact (hinv.step_safe e).ne_panic m
  · intro p c x hpc k hk
    have hroom := hinv.avail_room (p := p) (i := x.i0) (by rw [hpc]; rfl)
      (by simp [hpc, Idx.toList])
    rw [Ring.wr_cell NUM_dvd s.lastAvail s.availIdx]
    exact Ring.cell_ne hk hroom
  · intro hne k hk
    have hroom := hinv.used_room (by have := length_pos_of_ne_nil hne; omega)
    rw [Ring.wr_cell NUM_dvd s.lookedIdx s.usedIdx]
    exact Ring.cell_ne hk hroom
  · intro p id hpc
    obtain ⟨c, x, hl, hid, hreq, s', hs', -, hdisk⟩ := hinv.intrEntry hpc
    obtain ⟨q, hq⟩ := hl.1
    exact ⟨q, c, x, hq, hid, hreq, s', hs', hdisk⟩
  · intro p c x hpc
    have hat := hinv.place p
    rw [hpc] at hat
    exact hat

/-- Two buffers and three threads, with both rings about to wrap. -/
def start₃ : State (Fin 3) (Fin 2) :=
  { desc := fun _ => { addr := .null, len := 0, flags := 0, next := 0 }
    availIdx := 0xffff
    availRing := fun _ => 0
    usedIdx := 0xffff
    usedRing := fun _ => 0
    free := fun _ => true
    lookedIdx := 0xffff
    info := fun _ => { b := none, status := 0 }
    ops := fun _ => { type := .VIRTIO_BLK_T_IN, reserved := 0, sector := 0, call := 0 }
    disk := fun _ => false
    locked := fun _ => false
    lock := none
    pc := fun _ => .idle
    lastAvail := 0xffff
    pending := []
    posting := none
    calls := 0
    completed := []
    seen := 0 }

/-- Threads 0 and 1 each publish a request, the device completes the second
    first, thread 2 handles both completions, and thread 1 takes its chain
    apart. -/
def reordered₃ : List (Event (Fin 3) (Fin 2)) :=
  .rw 0 0 7 false :: List.replicate 8 (.run 0) ++ .rw 1 1 9 true :: List.replicate 8 (.run 1) ++
    [.consume, .consume, .complete 1, .post, .complete 0, .post] ++
    .intr 2 :: List.replicate 7 (.run 2) ++ List.replicate 5 (.run 1)

theorem driver_device_agree_reordered :
    ∃ s, exec step start₃ reordered₃ = .next s ∧ s.availIdx = 1 ∧
      (∃ c x, s.pc 1 = .exit c x ∧ c.b = 1 ∧ c.req x ∈ s.completed) ∧
      (∀ e m, step s e ≠ .panic m) := by
  have hrun : (exec step start₃ reordered₃).check
      (fun s => s.availIdx == 1 && match s.pc 1 with | .exit c _ => c.b == 1 | _ => false)
      = true := by
    decide +kernel
  obtain ⟨s, hs, htest⟩ := Outcome.exists_of_check hrun
  simp only [Bool.and_eq_true, beq_iff_eq] at htest
  obtain ⟨hidx, hexit⟩ := htest
  have hstart : Starts start₃ :=
    ⟨fun _ _ => rfl, fun _ => rfl, rfl, rfl, rfl, rfl, rfl, rfl, rfl⟩
  have hreach : Reachable step Starts s := (Reachable.init hstart).of_exec _ hs
  obtain ⟨-, -, hpanic, -, -, -, hreturn, -⟩ := driver_device_agree s hreach
  refine ⟨s, hs, hidx, ?_, hpanic⟩
  cases hpc : s.pc 1 with
  | exit c x =>
    rw [hpc] at hexit
    exact ⟨c, x, rfl, by simpa using hexit, hreturn 1 c x hpc⟩
  | _ =>
    rw [hpc] at hexit
    cases hexit

end State

end Virtio

end Xv6
