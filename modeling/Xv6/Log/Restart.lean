import Xv6.Log.Crash

/-!
# Recovery can itself be cut off

`recover_from_log` runs at boot, and the machine may lose power again while it
does. What survives is the disk, with some of the home blocks installed already.
Nothing of that matters to the next attempt: as long as the header stands,
recovery has written to no block that it reads, and what it leaves behind does
not depend on what the home blocks held (`install_congr`). The same home block
may be listed more than once; the last copy wins, in every attempt alike.
-/

namespace Xv6
namespace Log

open Function List

/-! ## Interrupted recoveries -/

/-- The machine as `recover_from_log` has it after `read_head`. -/
def recoverBoot (start : Nat) (d : Nat → Bytes) : Machine :=
  { Machine.fill { disk := d, cache := fun _ => none, lh := [] } start with
    lh := getHead (d start) }

/-- Recovery starts on the disk `d`, is cut off somewhere, and `d'` is the disk
    that survives. -/
def CutOff (start : Nat) (d d' : Nat → Bytes) : Prop :=
  ∃ pre post, recoverProg start (getHead (d start)) = pre ++ post ∧
    d' = (run pre (recoverBoot start d)).disk

theorem recoverBoot_view (start : Nat) (d : Nat → Bytes) : (recoverBoot start d).view = d :=
  Machine.fill_view { disk := d, cache := fun _ => none, lh := [] } start

theorem recoverFromLog_eq (start : Nat) (d : Nat → Bytes) : recoverFromLog start d =
      run (recoverProg start (getHead (d start))) (recoverBoot start d) := by
  have hview : Machine.view (Machine.fill ⟨d, fun _ => none, []⟩ start) = d := by
    rw [Machine.fill_view]; rfl
  simp only [recoverFromLog, hview]
  rfl

/-! ## What a whole recovery leaves on the disk -/

/-- `install_trans` as writes to the disk: from entry `tail` on, each home block
    gets its log block's contents. -/
def install (start : Nat) (log : Nat → Bytes) : Nat → List Nat → (Nat → Bytes) → (Nat → Bytes)
  | _, [], d => d
  | tail, b :: bs, d =>
    install start log (tail + 1) bs (update d b (log (start + tail + 1)))

variable {bs : List Nat} {log : Nat → Bytes} {start : Nat}

theorem install_of_not_mem {x : Nat}
    (hx : x ∉ bs) (tail : Nat) (d : Nat → Bytes) : install start log tail bs d x = d x := by
  induction bs generalizing tail d with
  | nil => rfl
  | cons b bs ih =>
    rw [mem_cons, not_or] at hx
    rw [install, ih hx.2, update_of_ne hx.1]

/-- **What the home blocks held before does not matter.** -/
theorem install_congr {d d' : Nat → Bytes} (h : ∀ x ∉ bs, d x = d' x) (tail : Nat) :
    install start log tail bs d = install start log tail bs d' := by
  induction bs generalizing tail d d' with
  | nil => exact funext fun x => h x not_mem_nil
  | cons b bs ih =>
    apply ih
    intro x hx
    by_cases hxb : x = b
    · rw [hxb, update_self, update_self]
    · rw [update_of_ne hxb, update_of_ne hxb]
      exact h x (not_mem_cons_of_ne_of_not_mem hxb hx)

theorem install_log_congr {log' : Nat → Bytes} {tail : Nat}
    (h : ∀ j, tail ≤ j → j < tail + bs.length → log (start + j + 1) = log' (start + j + 1))
    (d : Nat → Bytes) : install start log tail bs d = install start log' tail bs d := by
  induction bs generalizing tail d with
  | nil => rfl
  | cons b bs ih =>
    rw [length_cons] at h
    rw [install, install, h tail (le_refl _) (by omega)]
    apply ih
    intro j hj hlt
    exact h j (by omega) (by omega)

theorem run_installFrom (start : Nat) (recovering : Bool) {tail : Nat} (m : Machine)
    (hm : m.view = m.disk) (hlog : ∀ j, tail ≤ j → j < tail + bs.length → m.view (start + j + 1) =
    log (start + j + 1) ∧ start + j + 1 ∉ bs) :
    (run (loopFrom (installAt start recovering) tail bs) m).disk =
        install start log tail bs m.disk ∧
      (run (loopFrom (installAt start recovering) tail bs) m).view =
        install start log tail bs m.disk := by
  induction bs generalizing tail m with
  | nil => exact ⟨rfl, hm⟩
  | cons b bs ih =>
    rw [length_cons] at hlog
    obtain ⟨hd, hv⟩ := installAt_copies start recovering tail b m
    have hb := (hlog tail (le_refl _) (by omega)).1
    rw [loopFrom, run_append, install, ← hb, ← hd]
    apply ih
    · rw [hd, hv, hm]
    · intro j hj hlt
      obtain ⟨hl, hout⟩ := hlog j (by omega) (by omega)
      rw [mem_cons, not_or] at hout
      exact ⟨by rw [hv, update_of_ne hout.1, hl], hout.2⟩

/-- The header with no block listed. -/
def eraseHead (m : Bytes) : Bytes := putHead m []

theorem getHead_eraseHead (m : Bytes) : getHead (eraseHead m) = [] :=
  getHead_putHead (by decide) (by simp)

theorem eraseHead_eraseHead (m : Bytes) : eraseHead (eraseHead m) = eraseHead m :=
  Bytes.setLE_setLE_same m 0 4 0 0

theorem run_clear_writeHead (start : Nat) (m : Machine) :
    (run ([.clear] ++ writeHead start) m).disk =
      update m.disk start (eraseHead (m.view start)) := by
  have hview : ∀ x, Machine.view { m with lh := [] } x = m.view x := fun _ => rfl
  simp only [writeHead, bread, brelse, cons_append, nil_append, run_cons, run_nil,
    Instr.run, Machine.bwrite_disk, Machine.fill_disk, Machine.fill_view, Machine.fill_lh, hview,
    eraseHead]

section Attempts

variable {start size : Nat} {d d' : Nat → Bytes} (hlen : (getHead (d start)).length < size)
  (hout : ∀ b ∈ getHead (d start), ¬ InLog start size b)

include hout in
theorem logBlock_not_mem {x : Nat} (hx : InLog start size x) : x ∉ getHead (d start) :=
  fun h => hout x h hx

include hlen hout in
theorem start_not_mem : start ∉ getHead (d start) :=
  logBlock_not_mem hout ⟨le_refl _, by omega⟩

include hlen hout in
theorem recoverFromLog_install : (recoverFromLog start d).disk =
      update (install start d 0 (getHead (d start)) d) start (eraseHead (d start)) := by
  have hlog : ∀ j, 0 ≤ j → j < 0 + (getHead (d start)).length →
      (recoverBoot start d).view (start + j + 1) = d (start + j + 1) ∧
        start + j + 1 ∉ getHead (d start) := by
    intro j _ hj
    rw [recoverBoot_view]
    exact ⟨rfl, logBlock_not_mem hout (inLog_logBlock hlen (by omega))⟩
  obtain ⟨hd, hv⟩ := run_installFrom start true (recoverBoot start d) (recoverBoot_view start d)
    hlog
  rw [recoverFromLog_eq, recoverProg, append_assoc, run_append]
  rw [← installTrans] at hd hv
  rw [run_clear_writeHead, hd, hv, install_of_not_mem (start_not_mem hlen hout)]
  rfl

include hlen hout in
/-- The header is erased, and a second recovery finds nothing to do. -/
theorem recoverFromLog_again :
    (recoverFromLog start (recoverFromLog start d).disk).disk = (recoverFromLog start d).disk := by
  have hhead : (recoverFromLog start d).disk start = eraseHead (d start) := by
    rw [recoverFromLog_install hlen hout, update_self]
  have hnone : getHead ((recoverFromLog start d).disk start) = [] := by
    rw [hhead, getHead_eraseHead]
  have hlen' : (getHead ((recoverFromLog start d).disk start)).length < size := by
    rw [hnone]; exact Nat.zero_lt_of_lt hlen
  rw [recoverFromLog_install hlen' (by simp [hnone]), hnone, hhead, eraseHead_eraseHead, install,
    ← hhead, update_eq_self]

/-- **One attempt.** Before the header is erased it leaves the blocks that
    recovery reads alone; afterwards the recovery is complete. -/
theorem cutOff_cases (h : CutOff start d d') :
    (∀ x ∉ getHead (d start), d' x = d x) ∨ d' = (recoverFromLog start d).disk := by
  obtain ⟨pre, post, hprog, rfl⟩ := h
  have hphases : recoverProg start (getHead (d start)) =
      (installTrans start true (getHead (d start)) ++ [.clear] ++ bread start) ++
        .headWrite start :: brelse start := by
    simp [recoverProg, writeHead]
  rcases cut_cases (hphases.symm.trans hprog) with ⟨rest, hrest⟩ | ⟨pre', hpre, hrel⟩
  · -- the header is not written yet
    refine .inl fun x hx => (run_frame (fun i hi ht => hx ?_) _).1
    have hi' : i ∈ installTrans start true (getHead (d start)) ++ [.clear] ++ bread start := by
      rw [hrest]; exact mem_append_left _ hi
    simp only [mem_append, mem_singleton] at hi'
    rcases hi' with (hi' | rfl) | hi'
    · exact target_installTrans hi' ht
    · cases ht
    · rw [target_bread hi'] at ht; cases ht
  · -- only the release of the header's buffer is left
    refine .inr (funext fun x => ?_)
    rw [recoverFromLog_eq, hprog, run_append]
    refine ((run_frame (fun i hi => ?_) _).1).symm
    have hi' : i ∈ brelse start := hrel ▸ mem_append_right _ hi
    rw [target_brelse hi']
    exact nofun

include hlen hout in
/-- A recovery that starts again on what an attempt left behind ends on the same
    disk. -/
theorem recoverFromLog_cutOff (h : CutOff start d d') :
    (recoverFromLog start d').disk = (recoverFromLog start d).disk ∧
      (getHead (d' start) = getHead (d start) ∨ getHead (d' start) = []) := by
  rcases cutOff_cases h with hsame | hdone
  · have hs : d' start = d start := hsame start (start_not_mem hlen hout)
    have hlog : ∀ j, 0 ≤ j → j < 0 + (getHead (d start)).length →
        d' (start + j + 1) = d (start + j + 1) := fun j _ hj =>
      hsame _ (logBlock_not_mem hout (inLog_logBlock hlen (by omega)))
    have hlen' : (getHead (d' start)).length < size := by rw [hs]; exact hlen
    have hout' : ∀ b ∈ getHead (d' start), ¬ InLog start size b := by rw [hs]; exact hout
    refine ⟨?_, .inl (by rw [hs])⟩
    rw [recoverFromLog_install hlen hout, recoverFromLog_install hlen' hout', hs,
      install_congr hsame, install_log_congr hlog]
  · rw [hdone]
    refine ⟨recoverFromLog_again hlen hout, .inr ?_⟩
    rw [recoverFromLog_install hlen hout, update_self, getHead_eraseHead]

include hlen hout in
/-- **Recovery is restartable**: after any number of attempts that were cut off,
    the one that completes leaves the disk that a single uninterrupted recovery
    leaves, and running it once more changes nothing. -/
theorem recovery_restartable (h : Relation.ReflTransGen (CutOff start) d d') :
    (recoverFromLog start d').disk = (recoverFromLog start d).disk ∧
      (recoverFromLog start (recoverFromLog start d').disk).disk =
        (recoverFromLog start d').disk := by
  suffices hrun : (recoverFromLog start d').disk = (recoverFromLog start d).disk ∧
      (getHead (d' start)).length < size ∧ ∀ b ∈ getHead (d' start), ¬ InLog start size b by
    exact ⟨hrun.1, recoverFromLog_again hrun.2.1 hrun.2.2⟩
  induction h with
  | refl => exact ⟨rfl, hlen, hout⟩
  | tail _ hcut ih =>
    obtain ⟨heq, hlen', hout'⟩ := ih
    obtain ⟨hdisk, hhead⟩ := recoverFromLog_cutOff hlen' hout' hcut
    refine ⟨hdisk.trans heq, ?_⟩
    rcases hhead with hhead | hhead
    · rw [hhead]
      exact ⟨hlen', hout'⟩
    · rw [hhead]
      exact ⟨Nat.zero_lt_of_lt hlen, by simp⟩

end Attempts

/-- A log at block 2 that lists the home block 50 twice. -/
def loggedTwice : Nat → Bytes :=
  update (fun x _ => UInt8.ofNat x) 2 (putHead (fun _ => 0) [50, 50])

theorem getHead_loggedTwice : getHead (loggedTwice 2) = [50, 50] :=
  getHead_putHead (by decide) (by decide)

/-- Cut off after the first copy, then run to its end. -/
theorem recovery_restartable_loggedTwice :
    CutOff 2 loggedTwice (run (installAt 2 true 0 50) (recoverBoot 2 loggedTwice)).disk ∧
      (recoverFromLog 2 (run (installAt 2 true 0 50) (recoverBoot 2 loggedTwice)).disk).disk =
        (recoverFromLog 2 loggedTwice).disk := by
  have hcut : CutOff 2 loggedTwice
      (run (installAt 2 true 0 50) (recoverBoot 2 loggedTwice)).disk :=
    ⟨installAt 2 true 0 50, installAt 2 true 1 50 ++ [.clear] ++ writeHead 2,
      by rw [getHead_loggedTwice]; rfl, rfl⟩
  have hlen : (getHead (loggedTwice 2)).length < 30 := by
    rw [getHead_loggedTwice]; decide
  have hout : ∀ b ∈ getHead (loggedTwice 2), ¬ InLog 2 30 b := by
    rw [getHead_loggedTwice]
    simp [InLog]
  exact ⟨hcut, (recovery_restartable hlen hout (.single hcut)).1⟩

end Log
end Xv6
