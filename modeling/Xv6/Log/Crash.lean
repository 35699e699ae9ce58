import Xv6.Log.Machine

/-!
# A crash during `commit()` is all or nothing

The disk is a map from block numbers to contents, a `bwrite` is atomic, and
writes reach the disk in program order: that much is asked of the device. A
crash keeps the disk and loses everything else — the buffers and the header in
memory — and the next boot runs `recover_from_log` on what it finds.

The argument never follows `install_trans` through a crash. Once the header is
on the disk the log blocks hold the whole transaction, and nothing that `commit`
does before it erases the header writes to the log area (`target_afterHead`):
whatever had reached the home blocks, recovery copies all of them again.
-/

namespace Xv6
namespace Log

open Function List

/-! ## Transactions -/

/-- What `log_write` lets one transaction be: distinct blocks outside the log
    area with their new contents, no more of them than the log has room for and
    `struct logheader` has entries. -/
structure Txn (start size : Nat) where
  writes : List (Nat × Bytes)
  nodup : (writes.map Prod.fst).Nodup
  fits : writes.length < size
  entries : writes.length ≤ LOGSIZE
  outside : ∀ w ∈ writes, ¬ InLog start size w.1
  word : ∀ w ∈ writes, w.1 < 2 ^ 32

namespace Txn

variable {start size : Nat}

/-- The block numbers, in the order in which they enter `log.lh.block`. -/
def blocks (t : Txn start size) : List Nat := t.writes.map Prod.fst

/-- What the transaction means: the contents of all blocks after it. -/
def apply (t : Txn start size) (d : Nat → Bytes) : Nat → Bytes :=
  t.writes.foldl (fun d w => update d w.1 w.2) d

/-- The file system calls of the transaction: each write goes to a buffer and to
    the log. -/
def load (t : Txn start size) (m : Machine) : Machine :=
  t.writes.foldl (fun m w => m.logWrite w.1 w.2) m

section

variable (t : Txn start size)

include t

@[simp] theorem length_blocks : t.blocks.length = t.writes.length :=
  length_map _

theorem blocks_outside : ∀ b ∈ t.blocks, ¬ InLog start size b := by
  intro b hb
  obtain ⟨w, hw, rfl⟩ := mem_map.mp hb
  exact t.outside w hw

theorem getHead_blocks (m : Bytes) : getHead (putHead m t.blocks) = t.blocks := by
  refine getHead_putHead ?_ ?_
  · have := t.entries
    simp only [LOGSIZE, MAXOPBLOCKS] at this
    simp only [length_blocks]
    omega
  · intro b hb
    obtain ⟨w, hw, rfl⟩ := mem_map.mp hb
    exact t.word w hw

omit t in
theorem foldl_update_of_not_mem {ws : List (Nat × Bytes)} {x : Nat} (hx : x ∉ ws.map Prod.fst)
    (d : Nat → Bytes) : ws.foldl (fun d w => update d w.1 w.2) d x = d x := by
  induction ws generalizing d with
  | nil => rfl
  | cons w ws ih =>
    simp only [map_cons, mem_cons, not_or] at hx
    rw [foldl_cons, ih hx.2, update_of_ne hx.1]

omit t in
theorem foldl_update_getElem {ws : List (Nat × Bytes)} (hnd : (ws.map Prod.fst).Nodup)
    (d : Nat → Bytes) (j : Nat) (hj : j < ws.length) :
    ws.foldl (fun d w => update d w.1 w.2) d ws[j].1 = ws[j].2 := by
  induction ws generalizing d j with
  | nil => cases hj
  | cons w ws ih =>
    simp only [map_cons, nodup_cons] at hnd
    rw [foldl_cons]
    cases j with
    | zero => rw [getElem_cons_zero, foldl_update_of_not_mem hnd.1, update_self]
    | succ j => exact ih hnd.2 _ j (by simpa using hj)

theorem apply_of_not_mem {x : Nat} (hx : x ∉ t.blocks) (d : Nat → Bytes) :
    t.apply d x = d x := foldl_update_of_not_mem hx d

/-- The contents of a block that the transaction writes do not depend on what
    was there. -/
theorem apply_getElem (d : Nat → Bytes) (j : Nat) (hj : j < t.blocks.length) :
    t.apply d t.blocks[j] = (t.writes.get ⟨j, by simpa using hj⟩).2 := by
  have := foldl_update_getElem t.nodup d j (by simpa using hj)
  simpa [apply, blocks] using this

theorem load_view (m : Machine) : (t.load m).view = t.apply m.view := by
  unfold load apply
  induction t.writes generalizing m with
  | nil => rfl
  | cons w ws ih => rw [foldl_cons, foldl_cons, ih, Machine.logWrite_view]

theorem load_disk (m : Machine) : (t.load m).disk = m.disk := by
  unfold load
  induction t.writes generalizing m with
  | nil => rfl
  | cons w ws ih => rw [foldl_cons, ih, Machine.logWrite_disk]

/-- Distinct blocks are never absorbed: the header lists them in order. -/
theorem load_lh {m : Machine} (h : m.lh = []) : (t.load m).lh = t.blocks := by
  have key : ∀ (ws : List (Nat × Bytes)) (m : Machine), (m.lh ++ ws.map Prod.fst).Nodup →
      (ws.foldl (fun m w => m.logWrite w.1 w.2) m).lh = m.lh ++ ws.map Prod.fst := by
    intro ws
    induction ws with
    | nil => intro m _; simp
    | cons w ws ih =>
      intro m hnd
      have hw : w.1 ∉ m.lh := fun hm =>
        (nodup_append.mp hnd).2.2 _ hm _ (by simp) rfl
      have hlh : (m.logWrite w.1 w.2).lh = m.lh ++ [w.1] := by
        rw [Machine.logWrite_lh, absorb_of_not_mem hw]
      rw [foldl_cons, ih _ (by rw [hlh]; simpa using hnd), hlh]
      simp
  have := key t.writes m (by rw [h]; exact t.nodup)
  rw [load, this, h]
  rfl

end

end Txn

/-! ## The phases of `commit()` -/

/-- `commit()` up to the first `bwrite` of the header. -/
def beforeHead (start : Nat) (bs : List Nat) : List Instr := writeLog start bs ++ bread start

/-- `commit()` between its two `bwrite`s of the header. -/
def afterHead (start : Nat) (bs : List Nat) : List Instr :=
  brelse start ++ installTrans start false bs ++ [.clear] ++ bread start

variable {bs : List Nat} {i : Instr} {start : Nat}

theorem commitProg_phases (h : bs ≠ []) : commitProg start bs =
      beforeHead start bs ++ .headWrite start :: (afterHead start bs ++ .headWrite start ::
        brelse start) := by
  simp [commitProg, h, beforeHead, afterHead, writeHead]

/-- A cut of a program either comes before a given step or after it. -/
theorem cut_cases {pre post is js : List Instr} (h : is ++ i :: js = pre ++ post) :
    (∃ rest, is = pre ++ rest) ∨ ∃ pre', pre = is ++ i :: pre' ∧ js = pre' ++ post := by
  rcases append_eq_append_iff.mp h with ⟨a, hpre, ha⟩ | ⟨c, his, _⟩
  · cases a with
    | nil => exact .inl ⟨[], by simp [hpre]⟩
    | cons j a =>
      injection ha with hj ha
      exact .inr ⟨a, by rw [hpre, hj], ha⟩
  · exact .inl ⟨c, his⟩

theorem target_beforeHead {x : Nat}
    (h : i ∈ beforeHead start bs) (ht : i.target = some x) :
    ∃ j < bs.length, x = start + j + 1 := by
  rcases mem_append.mp h with h | h
  · exact target_writeLog h ht
  · rw [target_bread h] at ht; cases ht

theorem target_afterHead {x : Nat}
    (h : i ∈ afterHead start bs) (ht : i.target = some x) : x ∈ bs := by
  simp only [afterHead, mem_append, mem_singleton] at h
  rcases h with ((h | h) | rfl) | h
  · rw [target_brelse h] at ht; cases ht
  · exact target_installTrans h ht
  · cases ht
  · rw [target_bread h] at ht; cases ht

section Phases

variable {start size : Nat} (t : Txn start size) {m : Machine} (hlh : m.lh = t.blocks)

include t in
theorem inLog_start : InLog start size start := ⟨le_refl _, by have := t.fits; omega⟩

variable {bs : List Nat} {x : Nat}

include t in
theorem ne_start (hx : ¬ InLog start size x) : x ≠ start := by
  rintro rfl
  exact hx (inLog_start t)

/-- The header is not written before the first `write_head`. -/
theorem target_beforeHead_ne (hx : x = start ∨ ¬ InLog start size x) {i : Instr}
    (hi : i ∈ beforeHead start t.blocks) : i.target ≠ some x := by
  intro ht
  obtain ⟨j, hj, rfl⟩ := target_beforeHead hi ht
  rcases hx with h | h
  · omega
  · exact h (inLog_logBlock (by simpa using t.fits) hj)

/-- Between its two header writes `commit` leaves the log area alone. -/
theorem target_afterHead_ne (hx : InLog start size x ∨ x ∉ t.blocks) {i : Instr}
    (hi : i ∈ afterHead start t.blocks) : i.target ≠ some x := by
  intro ht
  have hb := target_afterHead hi ht
  rcases hx with h | h
  · exact t.blocks_outside x hb h
  · exact h hb

/-- The machine when the first `write_head` has reached the disk. -/
def headWritten (start : Nat) (bs : List Nat) (m : Machine) : Machine :=
  (Instr.headWrite start).run (run (beforeHead start bs) m)

theorem run_headWritten (bs : List Nat) (rest : List Instr) :
    run (beforeHead start bs ++ .headWrite start :: rest) m =
      run rest (headWritten start bs m) := by
  rw [run_append, run_cons, headWritten]

theorem clear_not_mem_beforeHead : Instr.clear ∉ beforeHead start bs := by
  intro h
  rcases mem_append.mp h with h | h
  · obtain ⟨j, _, hj⟩ := mem_loopFrom.mp h
    simp [writeLogAt, bread, brelse] at hj
  · simp [bread] at h

include hlh in
/-- **The commit point**: the header on the disk lists the transaction. -/
theorem headWritten_head : getHead ((headWritten start t.blocks m).disk start) = t.blocks := by
  have hlh' : (run (beforeHead start t.blocks) m).lh = t.blocks := by
    rw [run_lh clear_not_mem_beforeHead, hlh]
  simp [headWritten, Instr.run, hlh', t.getHead_blocks]

/-- … and the log blocks hold it. -/
theorem headWritten_log (j : Nat) (hj : j < t.blocks.length) :
    (headWritten start t.blocks m).disk (start + j + 1) = m.view t.blocks[j] ∧
      (headWritten start t.blocks m).view (start + j + 1) = m.view t.blocks[j] := by
  have hne : start + j + 1 ≠ start := by omega
  have hbread := run_frame (p := bread start) (x := start + j + 1)
    (fun i hi => by rw [target_bread hi]; exact nofun) (run (writeLog start t.blocks) m)
  have hlog := run_writeLog (by simpa using t.fits) t.blocks_outside m j hj
  simp [headWritten, Instr.run, update_of_ne hne, beforeHead, hbread, hlog]

/-- … while nothing outside the log area has changed. -/
theorem headWritten_home (hx : ¬ InLog start size x) :
    (headWritten start t.blocks m).disk x = m.disk x ∧
      (headWritten start t.blocks m).view x = m.view x := by
  have hne : x ≠ start := ne_start t hx
  have := run_frame (fun i hi => target_beforeHead_ne t (.inr hx) hi) m
  simp [headWritten, Instr.run, update_of_ne hne, this]

/-- The machine when the second `write_head` has reached the disk. -/
def headErased (start : Nat) (bs : List Nat) (m : Machine) : Machine :=
  (Instr.headWrite start).run (run (afterHead start bs) m)

theorem run_headErased (bs : List Nat) (rest : List Instr) :
    run (afterHead start bs ++ .headWrite start :: rest) m = run rest (headErased start bs m) := by
  rw [run_append, run_cons, headErased]

theorem afterHead_lh : (run (afterHead start bs) m).lh = [] := by
  rw [afterHead, run_append, run_append, run_lh (by simp [bread])]
  rfl

theorem headErased_head : getHead ((headErased start bs m).disk start) = [] := by
  simp [headErased, Instr.run, afterHead_lh, getHead_putHead (l := [])]

/-- `install_trans` brings a logged block home, on the disk and in its
    buffer. -/
theorem headErased_block (j : Nat) (hj : j < t.blocks.length) :
    (headErased start t.blocks m).disk t.blocks[j] = m.view (start + j + 1) ∧
      (headErased start t.blocks m).view t.blocks[j] = m.view (start + j + 1) := by
  have hne : t.blocks[j] ≠ start := ne_start t (t.blocks_outside _ (getElem_mem hj))
  have hinstall := run_installTrans t.nodup (by simpa using t.fits) t.blocks_outside false
    (run (brelse start) m) j hj
  rw [(run_frame (fun i hi => by rw [target_brelse hi]; exact nofun) m).2] at hinstall
  have hlast := run_frame (p := [.clear] ++ bread start) (x := t.blocks[j])
    (fun i hi => by
      rcases mem_append.mp hi with hi | hi
      · rw [mem_singleton.mp hi]; exact nofun
      · rw [target_bread hi]; exact nofun)
    (run (installTrans start false t.blocks) (run (brelse start) m))
  have hrun : run (afterHead start t.blocks) m = run ([.clear] ++ bread start)
      (run (installTrans start false t.blocks) (run (brelse start) m)) := by
    simp [afterHead]
  simp only [headErased, Instr.run, Machine.bwrite_disk, Machine.bwrite_view,
    update_of_ne hne, hrun, hlast]
  exact hinstall

theorem headErased_other (hx : ¬ InLog start size x) (hxb : x ∉ t.blocks) :
    (headErased start t.blocks m).disk x = m.disk x ∧
      (headErased start t.blocks m).view x = m.view x := by
  have hne : x ≠ start := ne_start t hx
  have := run_frame (fun i hi => target_afterHead_ne t (.inr hxb) hi) m
  simp [headErased, Instr.run, update_of_ne hne, this]

end Phases

/-! ## Crash atomicity -/

/-- Between transactions: nothing is logged, here or on the disk, and every
    buffer of a block outside the log agrees with the disk. -/
structure Quiet (start size : Nat) (m : Machine) : Prop where
  lh : m.lh = []
  head : getHead (m.disk start) = []
  home : ∀ x, ¬ InLog start size x → m.view x = m.disk x

section Commit

variable {start size : Nat} (t : Txn start size) {m : Machine}

variable {x : Nat}

/-- The blocks outside the log once the header is erased: the transaction,
    applied. -/
theorem erased_home (hq : Quiet start size m) (hx : ¬ InLog start size x) :
    let m' := headErased start t.blocks (headWritten start t.blocks (t.load m))
    m'.disk x = t.apply m.disk x ∧ m'.view x = t.apply m.disk x := by
  intro m'
  by_cases hxb : x ∈ t.blocks
  · obtain ⟨j, hj, rfl⟩ := getElem_of_mem hxb
    have he := headErased_block t (m := headWritten start t.blocks (t.load m)) j hj
    have hw := (headWritten_log t (m := t.load m) j hj).2
    rw [t.load_view, t.apply_getElem] at hw
    rw [hw] at he
    rw [t.apply_getElem]
    exact he
  · have he := headErased_other t (m := headWritten start t.blocks (t.load m)) hx hxb
    have hw := headWritten_home t (m := t.load m) hx
    rw [t.load_disk, t.load_view, t.apply_of_not_mem hxb, hq.home x hx] at hw
    rw [t.apply_of_not_mem hxb, he.1, he.2]
    exact hw

/-- Recovery of a disk that lists `t` and holds it in the log blocks redoes the
    whole of `t`, however much of it had been installed. -/
theorem recover_of_logged {d e : Nat → Bytes} (hhead : getHead (d start) = t.blocks)
    (hlog : ∀ (j : Nat) (hj : j < t.blocks.length), d (start + j + 1) = t.apply e t.blocks[j])
    (hrest : ∀ x ∉ t.blocks, ¬ InLog start size x → d x = e x)
    (hx : ¬ InLog start size x) : (recoverFromLog start d).disk x = t.apply e x := by
  obtain ⟨hcopied, hother⟩ :=
    recoverFromLog_disk hhead t.nodup (by simpa using t.fits) t.blocks_outside
  by_cases hxb : x ∈ t.blocks
  · obtain ⟨j, hj, rfl⟩ := getElem_of_mem hxb
    rw [hcopied j hj, hlog j hj]
  · rw [hother x hxb hx, hrest x hxb hx, t.apply_of_not_mem hxb]

include t in
theorem recover_of_empty {d : Nat → Bytes} (hhead : getHead (d start) = [])
    (hx : ¬ InLog start size x) : (recoverFromLog start d).disk x = d x :=
  (recoverFromLog_disk hhead nodup_nil (by have := t.fits; simp; omega) (by simp)).2 x
    (by simp) hx

/-- **One commit, cut anywhere**: recovery finds the transaction whole if the
    first `write_head` had reached the disk, and not at all otherwise. -/
theorem recover_cut (hq : Quiet start size m) {pre post : List Instr}
    (hcut : commitProg start t.blocks = pre ++ post) (hx : ¬ InLog start size x) :
    (recoverFromLog start (run pre (t.load m)).disk).disk x =
      if .headWrite start ∈ pre then t.apply m.disk x else m.disk x := by
  by_cases hne : t.blocks = []
  · -- an empty transaction writes nothing
    have hpre : pre = [] := by
      have : commitProg start t.blocks = [] := by simp [commitProg, hne]
      exact (append_eq_nil_iff.mp (hcut.symm.trans this)).1
    subst hpre
    rw [run_nil, t.load_disk]
    simpa using recover_of_empty t hq.head hx
  rw [commitProg_phases hne] at hcut
  rcases cut_cases hcut with ⟨rest, hbefore⟩ | ⟨pre', rfl, hcut'⟩
  · -- the header still says that nothing is logged
    have hmem : ∀ i ∈ pre, i ∈ beforeHead start t.blocks := fun i hi => by
      rw [hbefore]; exact mem_append_left _ hi
    have hno : Instr.headWrite start ∉ pre := fun hi =>
      target_beforeHead_ne t (.inl rfl) (hmem _ hi) rfl
    have hstart := (run_frame (fun i hi => target_beforeHead_ne t (.inl rfl) (hmem i hi))
      (t.load m)).1
    have hhome := (run_frame (fun i hi => target_beforeHead_ne t (.inr hx) (hmem i hi))
      (t.load m)).1
    rw [t.load_disk] at hstart hhome
    rw [if_neg hno, recover_of_empty t (by rw [hstart]; exact hq.head) hx, hhome]
  · have hlh : (t.load m).lh = t.blocks := t.load_lh hq.lh
    rw [if_pos (by simp), run_headWritten]
    rcases cut_cases hcut' with ⟨rest, hafter⟩ | ⟨pre'', rfl, hcut''⟩
    · -- the header and the log blocks stand until the header is erased
      have hframe : ∀ y, InLog start size y ∨ y ∉ t.blocks →
          (run pre' (headWritten start t.blocks (t.load m))).disk y =
            (headWritten start t.blocks (t.load m)).disk y := fun y hy =>
        (run_frame (fun i hi => target_afterHead_ne t hy
          (by rw [hafter]; exact mem_append_left _ hi)) _).1
      refine recover_of_logged t ?_ (fun j hj => ?_) (fun y hyb hy => ?_) hx
      · rw [hframe _ (.inl (inLog_start t)), headWritten_head t hlh]
      · rw [hframe _ (.inl (inLog_logBlock (by simpa using t.fits) hj)),
          (headWritten_log t j hj).1, t.load_view, t.apply_getElem, t.apply_getElem]
      · rw [hframe _ (.inr hyb), (headWritten_home t hy).1, t.load_disk]
    · -- the header is erased and everything is installed
      have hframe : ∀ y, (run pre'' (headErased start t.blocks
          (headWritten start t.blocks (t.load m)))).disk y =
            (headErased start t.blocks (headWritten start t.blocks (t.load m))).disk y := fun y =>
        (run_frame (fun i hi => by
          rw [target_brelse (b := start) (by rw [hcut'']; exact mem_append_left _ hi)]
          exact nofun) _).1
      rw [run_headErased, recover_of_empty t (by rw [hframe]; exact headErased_head) hx, hframe]
      exact (erased_home t hq hx).1

/-- A commit that is not interrupted applies its transaction and is ready for
    the next. -/
theorem commit_quiet (hq : Quiet start size m) : Quiet start size (commit start (t.load m)) ∧
      ∀ x, ¬ InLog start size x → (commit start (t.load m)).disk x = t.apply m.disk x := by
  have hlh : (t.load m).lh = t.blocks := t.load_lh hq.lh
  unfold commit
  rw [hlh]
  by_cases hne : t.blocks = []
  · have hw : t.writes = [] := map_eq_nil_iff.mp hne
    have hload : t.load m = m := by simp [Txn.load, hw]
    simp only [commitProg, hne, if_true, run_nil, hload]
    exact ⟨hq, fun x _ => by simp [Txn.apply, hw]⟩
  · rw [commitProg_phases hne, run_headWritten, run_headErased]
    have hframe := fun y => run_frame (p := brelse start) (x := y)
      (fun i hi => by rw [target_brelse hi]; exact nofun)
      (headErased start t.blocks (headWritten start t.blocks (t.load m)))
    refine ⟨⟨?_, ?_, fun x hx => ?_⟩, fun x hx => ?_⟩
    · rw [run_lh (by simp [brelse])]
      exact afterHead_lh
    · rw [(hframe start).1]
      exact headErased_head
    · rw [(hframe x).1, (hframe x).2, (erased_home t hq hx).1, (erased_home t hq hx).2]
    · exact ((hframe x).1).trans (erased_home t hq hx).1

end Commit

section History

variable {start size : Nat}

/-- The transactions `ts`, each loaded and committed before the next. -/
def commitAll (start : Nat) (ts : List (Txn start size)) (m : Machine) : Machine :=
  ts.foldl (fun m t => commit start (t.load m)) m

/-- The contents of all blocks after `ts`. -/
def applyAll (ts : List (Txn start size)) (d : Nat → Bytes) : Nat → Bytes :=
  ts.foldl (fun d t => t.apply d) d

/-- The surviving disk when `ts` have been committed and the commit of `t` has
    got as far as `pre`. -/
def crashDisk (d : Nat → Bytes) (ts : List (Txn start size)) (t : Txn start size)
    (pre : List Instr) : Nat → Bytes :=
  (run pre (t.load (commitAll start ts { disk := d, cache := fun _ => none, lh := [] }))).disk

/-- What a transaction leaves outside the log depends only on what was outside
    the log. -/
theorem Txn.apply_congr (t : Txn start size) {d e : Nat → Bytes}
    (h : ∀ x, ¬ InLog start size x → d x = e x) {x : Nat} (hx : ¬ InLog start size x) :
    t.apply d x = t.apply e x := by
  by_cases hxb : x ∈ t.blocks
  · obtain ⟨j, hj, rfl⟩ := getElem_of_mem hxb
    rw [t.apply_getElem, t.apply_getElem]
  · rw [t.apply_of_not_mem hxb, t.apply_of_not_mem hxb, h x hx]

theorem commitAll_quiet (ts : List (Txn start size)) {m : Machine} (hq : Quiet start size m) :
    Quiet start size (commitAll start ts m) ∧
      ∀ x, ¬ InLog start size x → (commitAll start ts m).disk x = applyAll ts m.disk x := by
  -- from the last transaction backwards, so that the hypothesis is about the machine it meets
  induction ts using List.reverseRecOn with
  | nil => exact ⟨hq, fun x _ => rfl⟩
  | append_singleton ts t ih =>
    obtain ⟨hq', hdisk⟩ := ih
    obtain ⟨hq'', hdisk'⟩ := commit_quiet t hq'
    have hsnoc : commitAll start (ts ++ [t]) m = commit start (t.load (commitAll start ts m)) := by
      simp [commitAll]
    have happly : applyAll (ts ++ [t]) m.disk = t.apply (applyAll ts m.disk) := by
      simp [applyAll]
    rw [hsnoc, happly]
    exact ⟨hq'', fun x hx => (hdisk' x hx).trans (t.apply_congr hdisk hx)⟩

/-- **Crash atomicity.** From a disk whose log header says `n = 0`, after any
    transactions `ts` and at any cut of the commit of the next one,
    `recover_from_log` leaves every block outside the log area as it is after
    `ts` and `t` if the first `write_head` of that commit had completed, and as
    it is after `ts` otherwise. -/
theorem recover_all_or_nothing {d : Nat → Bytes} (hclean : (d start).getLE 0 4 = 0)
    (ts : List (Txn start size)) (t : Txn start size) {pre post : List Instr}
    (hcut : commitProg start t.blocks = pre ++ post) {x : Nat} (hx : ¬ InLog start size x) :
    (recoverFromLog start (crashDisk d ts t pre)).disk x =
      if .headWrite start ∈ pre then applyAll (ts ++ [t]) d x else applyAll ts d x := by
  have hboot : Quiet start size { disk := d, cache := fun _ => none, lh := [] } :=
    ⟨rfl, getHead_of_zero hclean, fun x _ => rfl⟩
  obtain ⟨hq, hdisk⟩ := commitAll_quiet ts hboot
  have happly : applyAll (ts ++ [t]) d = t.apply (applyAll ts d) := by simp [applyAll]
  rw [crashDisk, recover_cut t hq hcut hx, happly, hdisk x hx, t.apply_congr hdisk hx]

/-- One block, changed twice: block 50 of a disk that `mkfs` wrote, where the
    log is at 2. -/
def rewriteBlock (d : Bytes) : Txn 2 nlog where
  writes := [(50, d)]
  nodup := by simp
  fits := by simp [nlog, LOGSIZE, MAXOPBLOCKS]
  entries := by simp [LOGSIZE, MAXOPBLOCKS]
  outside := by simp [InLog, nlog, LOGSIZE, MAXOPBLOCKS]
  word := by simp

/-- A crash right after the second transaction's header write keeps both; one
    step earlier, only the first. -/
theorem recover_all_or_nothing_rewrite :
    let commit₂ := commitProg 2 (rewriteBlock (fun _ => 8)).blocks
    let survives := fun k => (recoverFromLog 2 (crashDisk (fun _ => Bytes.zero)
      [rewriteBlock (fun _ => 7)] (rewriteBlock (fun _ => 8)) (commit₂.take k))).disk 50
    survives 11 = (fun _ => 7) ∧ survives 12 = fun _ => 8 := by
  have hcut := fun k => (take_append_drop k (commitProg 2 [50])).symm
  have hall := fun k => recover_all_or_nothing (d := fun _ => Bytes.zero) (Bytes.getLE_zero 0 4)
    [rewriteBlock (fun _ => 7)] (rewriteBlock (fun _ => 8)) (hcut k) (x := 50)
    (by simp [InLog, nlog, LOGSIZE, MAXOPBLOCKS])
  exact ⟨(hall 11).trans (if_neg (by decide)), (hall 12).trans (if_pos (by decide))⟩

end History

end Log
end Xv6
