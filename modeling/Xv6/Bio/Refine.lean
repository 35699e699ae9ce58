import Xv6.Bio.Invariant

/-!
# The cache and the log refine a plain array of blocks

The invariant of `Xv6.Bio.Invariant` holds along every run from boot, at the
contents the run's modifications make up. What is left is that a buffer in use
is never given to another block, which needs no invariant: `bget` recycles a
buffer whose count is zero and nothing else changes a block number.
-/

namespace Xv6

open Outcome
namespace Bio

open Log (Instr)

variable {P : Type}

/-! ## Buffers in use are not recycled -/

/-- Every buffer that is counted keeps its block. -/
def Cache.Keeps (c c' : Cache P) : Prop :=
  ∀ i, 0 < (c.buf i).refcnt →
    (c'.buf i).dev = (c.buf i).dev ∧ (c'.buf i).blockno = (c.buf i).blockno

theorem Cache.keeps_setBuf (c : Cache P) {i : Fin NBUF} {b : Buf P}
    (h : b.dev = (c.buf i).dev ∧ b.blockno = (c.buf i).blockno) : c.Keeps (c.setBuf i b) := by
  intro j _
  by_cases hj : j = i
  · subst hj; rw [setBuf_same]; exact h
  · rw [setBuf_ne c b hj]; exact ⟨rfl, rfl⟩

section Keeps

variable [DecidableEq P] {s s' : State P}

variable {b : Nat} {p : P}

theorem keeps_bget (hs : s.bget p b = .next s') : s.cache.Keeps s'.cache := by
  obtain ⟨c, hc, rfl⟩ := map_eq_next (guard_eq_next hs).2
  rcases Cache.bget_eq_next hc with ⟨i, _, rfl⟩ | ⟨_, i, h0, rfl⟩
  · exact s.cache.keeps_setBuf ⟨rfl, rfl⟩
  · -- only a buffer with count zero changes its block
    intro j hj
    have hji : j ≠ i := by
      rintro rfl
      omega
    rw [State.setCache_cache, Cache.setRef_buf, Cache.setBuf_ne s.cache _ hji]
    exact ⟨rfl, rfl⟩

theorem keeps_lock (hs : s.lock p b = .next s') : s.cache.Keeps s'.cache := by
  obtain ⟨i, _, hs⟩ := State.withBuf_eq_next hs
  obtain ⟨c, hc, rfl⟩ := map_eq_next hs
  obtain ⟨_, _, d, _, rfl⟩ := Cache.lock_eq_next hc
  exact s.cache.keeps_setBuf ⟨rfl, rfl⟩

theorem keeps_unlock (hs : s.unlock p b = .next s') : s.cache.Keeps s'.cache := by
  obtain ⟨i, _, hs⟩ := State.withBuf_eq_next hs
  obtain ⟨c, hc, rfl⟩ := map_eq_next hs
  obtain ⟨m, l, _, _, rfl⟩ := Cache.unlock_eq_next hc
  exact s.cache.keeps_setBuf ⟨rfl, rfl⟩

theorem keeps_put (hs : s.put p b = .next s') : s.cache.Keeps s'.cache := by
  obtain ⟨i, _, hs⟩ := State.withBuf_eq_next hs
  obtain ⟨c, hc, rfl⟩ := map_eq_next hs
  obtain ⟨_, l, _, rfl⟩ := Cache.put_eq_next hc
  exact s.cache.keeps_setBuf ⟨rfl, rfl⟩

theorem keeps_logWrite (hs : s.logWrite p b = .next s') : s.cache.Keeps s'.cache := by
  obtain ⟨i, _, hs⟩ := State.withBuf_eq_next hs
  split at hs
  · obtain ⟨l, _, rfl⟩ := map_eq_next hs
    rw [State.setCache_cache]
    split
    · exact fun _ _ => ⟨rfl, rfl⟩
    · exact s.cache.keeps_setBuf ⟨rfl, rfl⟩
  · cases hs

theorem keeps_instr {i : Instr} (hs : s.instr p i = .next s') : s.cache.Keeps s'.cache := by
  cases i with
  | bget b => exact keeps_bget hs
  | lock b => exact keeps_lock hs
  | unlock b => exact keeps_unlock hs
  | put b => exact keeps_put hs
  | copyWrite src dst =>
    obtain ⟨i, _, _, hs⟩ := State.withHeld_eq_next hs
    obtain ⟨j, _, _, hs⟩ := State.withHeld_eq_next hs
    injection hs with hs
    exact hs ▸ s.cache.keeps_setBuf ⟨rfl, rfl⟩
  | headWrite b =>
    obtain ⟨i, _, _, hs⟩ := State.withHeld_eq_next hs
    injection hs with hs
    exact hs ▸ s.cache.keeps_setBuf ⟨rfl, rfl⟩
  | bunpin b =>
    obtain ⟨i, _, _, hs⟩ := State.withHeld_eq_next hs
    injection hs with hs
    exact hs ▸ s.cache.keeps_setBuf ⟨rfl, rfl⟩
  | clear =>
    obtain ⟨l, _, rfl⟩ := map_eq_next hs
    exact fun _ _ => ⟨rfl, rfl⟩

theorem keeps_step {e : Event P} (hs : step s e = .next s') : s.cache.Keeps s'.cache := by
  have hsame : s.cache.Keeps s.cache := fun _ _ => ⟨rfl, rfl⟩
  cases e with
  | bget p b =>
    exact keeps_bget (guard_eq_next hs).2
  | lock p b =>
    exact keeps_lock (guard_eq_next hs).2
  | unlock p b =>
    exact keeps_unlock (guard_eq_next hs).2
  | put p b =>
    exact keeps_put (guard_eq_next hs).2
  | modify p b d =>
    obtain ⟨i, _, hs⟩ := State.withBuf_eq_next (guard_eq_next hs).2
    split at hs
    · injection hs with hs
      exact hs ▸ s.cache.keeps_setBuf ⟨rfl, rfl⟩
    · cases hs
  | logWrite p b =>
    exact keeps_logWrite (guard_eq_next hs).2
  | beginOp p =>
    obtain ⟨l, _, rfl⟩ := map_eq_next hs
    exact hsame
  | kill p =>
    obtain ⟨l, _, rfl⟩ := map_eq_next hs
    exact hsame
  | endOp p =>
    obtain ⟨l, _, rfl⟩ := map_eq_next hs
    exact hsame
  | commit p =>
    simp only [step, State.commit] at hs
    split at hs
    · obtain ⟨l, _, rfl⟩ := map_eq_next hs
      exact hsame
    · obtain ⟨s1, hi, rfl⟩ := map_eq_next (guard_eq_next hs).2
      have hkeep := keeps_instr hi
      exact hkeep
  | endCommit p =>
    obtain ⟨l, _, rfl⟩ := map_eq_next (guard_eq_next hs).2
    exact hsame

end Keeps

/-! ## The refinement -/

section Main

variable [DecidableEq P] [Fintype P]

omit [Fintype P] in
/-- `bread` of block `b` returns a buffer of that block, and its sleep lock. -/
theorem lock_returns {s s' : State P} {p : P} {b : Nat} (hs : step s (.lock p b) = .next s') :
    ∃ i, (s'.cache.buf i).dev = ROOTDEV ∧ (s'.cache.buf i).blockno = b ∧ s'.cache.Holds p i := by
  obtain ⟨i, hi, hs⟩ := State.withBuf_eq_next (guard_eq_next hs).2
  obtain ⟨c, hc, rfl⟩ := map_eq_next hs
  obtain ⟨_, _, d, _, rfl⟩ := Cache.lock_eq_next hc
  obtain ⟨hdev, hblk, _⟩ := Cache.mine_some hi
  refine ⟨i, ?_, ?_, false, false, ?_⟩
  · simpa using hdev
  · simpa using hblk
  · exact Cache.setRef_same ..

/-- **The buffer cache and the log refine a plain array of blocks.** After every schedule that
    starts at boot:

    * a block is in at most one buffer;
    * a buffer's `refcnt` is the number of processes with a pointer to it, plus one while its
      block is logged and `install_trans` is not through with it;
    * the header lists no block twice;
    * no event gives a buffer that is counted to another block;
    * a process that holds a buffer sees the contents its block was last given, and so does every
      `bread` that returns next; for a block of the log area, what the disk has. -/
theorem cache_refines_array {s₀ s : State P} (h₀ : Boot s₀) {es : List (Event P)}
    (h : exec step s₀ es = .next s) :
    (∀ i j, (s.cache.buf i).dev ≠ 0 → (s.cache.buf i).dev = (s.cache.buf j).dev →
      (s.cache.buf i).blockno = (s.cache.buf j).blockno → i = j) ∧
    (∀ i, (s.cache.buf i).refcnt = count (fun p => s.cache.ref p i ≠ .away) +
      if (s.cache.buf i).dev = ROOTDEV ∧ (s.cache.buf i).blockno ∈ s.sys.log.block ∧
        (s.sys.log.committing = true → .bunpin (s.cache.buf i).blockno ∈ s.todo) then 1 else 0) ∧
    s.sys.log.block.Nodup ∧
    (∀ e s', step s e = .next s' → ∀ i, 0 < (s.cache.buf i).refcnt →
      (s'.cache.buf i).dev = (s.cache.buf i).dev ∧
        (s'.cache.buf i).blockno = (s.cache.buf i).blockno) ∧
    (∀ p i, s.cache.Holds p i → (s.cache.buf i).data =
      if s.Home (s.cache.buf i).blockno then contents s₀.cache.disk es (s.cache.buf i).blockno
      else s.cache.disk (s.cache.buf i).blockno) ∧
    (∀ p b s', step s (.lock p b) = .next s' → ∃ i, (s'.cache.buf i).dev = ROOTDEV ∧
      (s'.cache.buf i).blockno = b ∧ s'.cache.Holds p i ∧ (s'.cache.buf i).data =
        if s'.Home b then contents s₀.cache.disk es b else s'.cache.disk b) := by
  have hread : ∀ {t : State P} {spec : Nat → Bytes}, Inv spec t → ∀ p i, t.cache.Holds p i →
      (t.cache.buf i).data = if t.Home (t.cache.buf i).blockno then spec (t.cache.buf i).blockno
        else t.cache.disk (t.cache.buf i).blockno := by
    intro t spec hi p i hp
    have hdev := hi.cache.dev i p (by obtain ⟨m, l, e⟩ := hp; rw [e]; exact nofun)
    have hvalid := hi.cache.valid i p hp
    split
    · rename_i hh; exact hi.content.cached i hdev hvalid hh
    · rename_i hh; exact hi.content.area i hdev hvalid hh
  have hi := inv_run h₀ h
  refine ⟨hi.cache.unique, fun i => ?_, hi.log.nodup, fun e s' hs => keeps_step hs, hread hi, ?_⟩
  · rw [hi.cache.refcnt i, Cache.holders, pinCount]
    simp only [State.pinned_iff]
  · intro p b s' hs
    obtain ⟨i, hdev, hblk, hp⟩ := lock_returns hs
    refine ⟨i, hdev, hblk, hp, ?_⟩
    have := hread (inv_step hi hs) p i hp
    rw [hblk] at this
    exact this

/-- The state that `binit` and `initlog` leave of a disk whose log is empty. -/
def State.boot (disk : Nat → Bytes) (logstart nlog : Nat) : State P where
  cache := Cache.binit disk
  sys := Log.State.init logstart nlog
  todo := []

omit [DecidableEq P] in
theorem boot_binit (disk : Nat → Bytes) (logstart nlog : Nat) :
    Boot (State.boot disk logstart nlog : State P) where
  log := rfl
  todo := rfl
  away := fun _ _ => rfl
  fresh := fun _ hdev => nomatch hdev
  cache :=
    { lru := fun i => by simp [State.boot, Cache.binit]
      unique := fun _ _ h0 => absurd rfl h0
      refcnt := fun i => by
        have : (Cache.binit disk : Cache P).holders i = 0 := count_eq_zero_iff.mpr fun p h => h rfl
        simp only [State.boot, this, pinCount]
        rfl
      lock := fun i p => ⟨nofun, fun ⟨_, _, h⟩ => nomatch h⟩
      valid := fun _ _ ⟨_, _, h⟩ => nomatch h
      pinned := fun _ => nofun
      dev := fun _ _ h => absurd rfl h }

/-- Block 50 is rewritten and committed, thirty other blocks push it out of the
    cache, and somebody asks for it again. -/
def rewriteAndEvict : List (Event (Fin 1)) :=
  [.beginOp 0, .bget 0 50, .lock 0 50, .modify 0 50 (fun _ => 7), .logWrite 0 50, .unlock 0 50,
    .put 0 50, .endOp 0] ++ List.replicate 30 (.commit 0) ++ [.endCommit 0] ++
  (List.range 30).flatMap (fun k => [.bget 0 (100 + k), .lock 0 (100 + k), .unlock 0 (100 + k),
    .put 0 (100 + k)]) ++ [.bget 0 50]

theorem cache_refines_array_evicted : ∃ s s' : State (Fin 1),
    exec step (State.boot (fun _ => Bytes.zero) 2 nlog) rewriteAndEvict = .next s ∧
      step s (.lock 0 50) = .next s' ∧
      ∃ i, s'.cache.Holds 0 i ∧ (s'.cache.buf i).blockno = 50 ∧
        (s'.cache.buf i).data = fun _ => 7 := by
  have hrun : (exec step (State.boot (fun _ => Bytes.zero) 2 nlog) rewriteAndEvict).check
      (fun s => (step s (.lock 0 50)).check fun s' => decide (s'.Home 50)) = true := by
    decide +kernel
  obtain ⟨s, hs, hlast⟩ := Outcome.exists_of_check hrun
  obtain ⟨s', hs', hhome⟩ := Outcome.exists_of_check hlast
  obtain ⟨i, _, hblk, hheld, hdata⟩ :=
    (cache_refines_array (boot_binit _ _ _) hs).2.2.2.2.2 0 50 s' hs'
  refine ⟨s, s', hs, hs', i, hheld, hblk, ?_⟩
  rw [hdata, if_pos (of_decide_eq_true hhome)]
  rfl

end Main

end Bio
end Xv6
