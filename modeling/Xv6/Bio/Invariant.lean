import Xv6.Bio.Content
import Xv6.Bio.System
import Xv6.Log.Order

/-!
# What holds of the cache and the log between any two events

Between a `log_write` and the `bunpin` of the commit that installs it, the only
copies of a block's contents may be its buffer and a block of the log. `Inv`
ties the three together for every state: the cache's own invariants at the pins
the log has taken (`pinned`), and for the process in `commit()` what its
remaining program says has reached the disk.

No event looks at more than one buffer and one step of the program, so each is
one lemma: what only touches the cache (`inv_cache`), what only moves the log
(`inv_sys`), and the steps of `commit()` that write.
-/

namespace Xv6
namespace Bio

open Function List Log
open Log (Instr InLog)
open Outcome (guard_eq_next map_eq_next)

variable {P : Type}

/-- The log has the block pinned: it is logged, and `install_trans` is not
    through with it. -/
def State.pinned (s : State P) (b : Nat) : Bool :=
  decide (b ∈ s.sys.log.block) && (!s.sys.log.committing || decide (.bunpin b ∈ s.todo))

theorem State.pinned_iff {s : State P} {b : Nat} : s.pinned b = true ↔
    b ∈ s.sys.log.block ∧ (s.sys.log.committing = true → .bunpin b ∈ s.todo) := by
  unfold State.pinned
  cases s.sys.log.committing <;> simp

theorem State.pinned_of_idle {s : State P} (hc : s.sys.log.committing = false) (b : Nat) :
    s.pinned b = decide (b ∈ s.sys.log.block) := by
  simp [State.pinned, hc]

theorem State.pinned_congr {s s' : State P} {b : Nat}
    (h : b ∈ s'.sys.log.block ∧ (s'.sys.log.committing = true → .bunpin b ∈ s'.todo) ↔
      b ∈ s.sys.log.block ∧ (s.sys.log.committing = true → .bunpin b ∈ s.todo)) :
    s'.pinned b = s.pinned b :=
  Bool.eq_iff_iff.mpr (pinned_iff.trans (h.trans pinned_iff.symm))

structure Inv [Fintype P] (spec : Nat → Bytes) (s : State P) : Prop where
  log : Log.Inv s.sys
  home : ∀ b ∈ s.sys.log.block, s.Home b
  room : s.sys.log.block = [] ∨ s.sys.log.block.length < s.sys.log.size
  cache : CacheInv s.pinned s.cache
  content : ContentInv s.Home s.pinned spec s.cache
  idle : s.sys.log.committing = false → s.todo = []
  order : s.todo.Pairwise (Log.Before s.sys.log.start s.sys.log.size)
  shape : ∀ i ∈ s.todo, Log.Shape s.sys.log.start s.sys.log.block i
  sized : s.todo ≠ [] → 0 < s.sys.log.size
  /-- a block that is still to be copied home has been copied to the log, or
      will be first -/
  copied : ∀ j b, s.sys.log.block[j]? = some b →
    .copyWrite (s.sys.log.start + j + 1) b ∈ s.todo →
    .copyWrite b (s.sys.log.start + j + 1) ∉ s.todo →
    s.cache.disk (s.sys.log.start + j + 1) = spec b
  installed : s.sys.log.committing = true → ∀ j b, s.sys.log.block[j]? = some b →
    .copyWrite (s.sys.log.start + j + 1) b ∉ s.todo → s.cache.disk b = spec b

section Inv

open Cache State

variable [Fintype P] {spec : Nat → Bytes} {s s' : State P}
  (h : Inv spec s)

include h

variable {b : Nat} {l : Log.State P} {p : P} {rest : List Instr}

/-- A step on the cache that leaves the disk as it is. -/
theorem inv_cache {c : Cache P} (hc : CacheInv s.pinned c)
    (hcont : ContentInv s.Home s.pinned spec c) (hdisk : c.disk = s.cache.disk) :
    Inv spec (s.setCache c) where
  log := h.log
  home := h.home
  room := h.room
  cache := hc
  content := hcont
  idle := h.idle
  order := h.order
  shape := h.shape
  sized := h.sized
  copied := by
    rw [setCache_cache, hdisk]
    exact h.copied
  installed := by
    rw [setCache_cache, hdisk]
    exact h.installed

theorem inv_sys {l : Log.State P} (hl : Log.Inv l)
    (hstart : l.log.start = s.sys.log.start) (hsize : l.log.size = s.sys.log.size)
    (hblock : l.log.block = s.sys.log.block) (hcom : l.log.committing = s.sys.log.committing) :
    Inv spec (s.setSys l) := by
  have hpin : ∀ b, (s.setSys l).pinned b = s.pinned b := by
    intro b
    apply pinned_congr
    rw [setSys_sys, hblock, hcom]
    rfl
  have hhome : (s.setSys l).Home = s.Home := by
    funext b
    simp [State.Home, hstart, hsize]
  refine ⟨hl, ?_, ?_, h.cache.congr_pin hpin, ?_, ?_, ?_, ?_, ?_, ?_, ?_⟩
  · rw [hhome, setSys_sys, hblock]; exact h.home
  · rw [setSys_sys, hblock, hsize]; exact h.room
  · rw [hhome]; exact h.content.congr_pin hpin
  · rw [setSys_sys, hcom]; exact h.idle
  · rw [setSys_sys, hstart, hsize]; exact h.order
  · rw [setSys_sys, hstart, hblock]; exact h.shape
  · rw [setSys_sys, hsize]; exact h.sized
  · simp only [setSys_sys, setSys_todo, setSys_cache, hstart, hblock]
    exact h.copied
  · simp only [setSys_sys, setSys_todo, setSys_cache, hstart, hblock, hcom]
    exact h.installed

theorem Inv.not_committing (hout : 1 ≤ s.sys.log.outstanding) : s.sys.log.committing = false := by
  rw [← Bool.not_eq_true]
  intro hc
  have := h.log.quiet hc
  omega

/-- **One step of `commit()` is done**, and `c` is the cache after it. -/
theorem inv_done {i : Instr} (htodo : s.todo = i :: rest) {c : Cache P}
    {pin : Nat → Bool} (hpin : ∀ b, ((s.setCache c).setTodo rest).pinned b = pin b)
    (hcache : CacheInv pin c) (hcont : ContentInv s.Home pin spec c)
    (hcopied : ∀ j b, s.sys.log.block[j]? = some b →
      .copyWrite (s.sys.log.start + j + 1) b ∈ rest →
      .copyWrite b (s.sys.log.start + j + 1) ∉ rest → c.disk (s.sys.log.start + j + 1) = spec b)
    (hinst : s.sys.log.committing = true → ∀ j b, s.sys.log.block[j]? = some b →
      .copyWrite (s.sys.log.start + j + 1) b ∉ rest → c.disk b = spec b) :
    Inv spec ((s.setCache c).setTodo rest) := by
  refine ⟨h.log, h.home, h.room, hcache.congr_pin hpin, hcont.congr_pin hpin, fun hcom => ?_, ?_,
    fun j hj => h.shape j (by rw [htodo]; exact mem_cons_of_mem _ hj),
    fun _ => h.sized (by rw [htodo]; exact nofun), hcopied, hinst⟩
  · have := h.idle hcom
    rw [htodo] at this
    cases this
  · have := h.order
    rw [htodo] at this
    exact this.of_cons

/-- A step that neither copies nor unpins leaves nothing to be said about what
    is left. -/
theorem inv_pop {i : Instr} (htodo : s.todo = i :: rest)
    (hc : ∀ src dst, i ≠ .copyWrite src dst) (hu : ∀ b, i ≠ .bunpin b) :
    Inv spec (s.setTodo rest) := by
  have hcopy : ∀ src dst, Instr.copyWrite src dst ∈ s.todo ↔ .copyWrite src dst ∈ rest := by
    intro src dst
    simp [htodo, Ne.symm (hc src dst)]
  refine inv_done h htodo (fun b => pinned_congr (s := s) ?_) h.cache h.content
    (fun j b hj h1 h2 => ?_) fun hcom j b hj h1 => ?_
  · rw [htodo]
    simp [Ne.symm (hu b)]
  · exact h.copied j b hj ((hcopy _ _).mpr h1) fun e => h2 ((hcopy _ _).mp e)
  · exact h.installed hcom j b hj fun e => h1 ((hcopy _ _).mp e)

theorem Inv.committing (htodo : s.todo ≠ []) : s.sys.log.committing = true := by
  rw [← Bool.not_eq_false]
  exact fun hc => htodo (h.idle hc)

theorem Inv.home_of_block {j : Nat} (hj : s.sys.log.block[j]? = some b) :
    s.Home b := h.home b (mem_of_getElem? hj)

theorem Inv.logBlock_not_home {j : Nat} (hj : s.sys.log.block[j]? = some b) :
    ¬ s.Home (s.sys.log.start + j + 1) := by
  obtain ⟨hlt, _⟩ := List.getElem?_eq_some_iff.mp hj
  rcases h.room with hnil | hroom
  · rw [hnil] at hlt; cases hlt
  · exact fun hn => hn ⟨by omega, by omega⟩

/-! ## Steps on the cache alone -/

variable [DecidableEq P]

theorem inv_bget (hs : s.bget p b = .next s') :
    Inv spec s' ∧ s'.todo = s.todo ∧ s'.sys = s.sys := by
  obtain ⟨hm, hs⟩ := guard_eq_next hs
  obtain ⟨c, hc, rfl⟩ := map_eq_next hs
  refine ⟨inv_cache h (h.cache.bget hm hc) (h.content.bget h.cache hm hc) ?_, rfl, rfl⟩
  rcases bget_eq_next hc with ⟨i, _, rfl⟩ | ⟨_, i, _, rfl⟩ <;> rfl

theorem inv_lock (hs : s.lock p b = .next s') :
    Inv spec s' ∧ s'.todo = s.todo ∧ s'.sys = s.sys := by
  obtain ⟨i, _, hs⟩ := withBuf_eq_next hs
  obtain ⟨c, hc, rfl⟩ := map_eq_next hs
  refine ⟨inv_cache h (h.cache.lock_step hc) (h.content.lock_step h.cache hc) ?_, rfl, rfl⟩
  obtain ⟨_, _, d, _, rfl⟩ := lock_eq_next hc
  rfl

theorem inv_unlock (hs : s.unlock p b = .next s') :
    Inv spec s' ∧ s'.todo = s.todo ∧ s'.sys = s.sys := by
  obtain ⟨i, _, hs⟩ := withBuf_eq_next hs
  obtain ⟨c, hc, rfl⟩ := map_eq_next hs
  refine ⟨inv_cache h (h.cache.unlock_step hc) (h.content.unlock_step hc) ?_, rfl, rfl⟩
  obtain ⟨m, l, _, _, rfl⟩ := unlock_eq_next hc
  rfl

theorem inv_put (hs : s.put p b = .next s') : Inv spec s' ∧ s'.todo = s.todo ∧ s'.sys = s.sys := by
  obtain ⟨i, _, hs⟩ := withBuf_eq_next hs
  obtain ⟨c, hc, rfl⟩ := map_eq_next hs
  refine ⟨inv_cache h (h.cache.put_step hc) (h.content.put_step hc) ?_, rfl, rfl⟩
  obtain ⟨_, l, _, rfl⟩ := put_eq_next hc
  rfl

/-! ## Steps on the log alone -/

theorem inv_beginOp (hl : Log.step s.sys (.beginOp p) = .next l) : Inv spec (s.setSys l) := by
  have hi := inv_step h.log (step_move hl)
  cases step_move hl with
  | enter _ _ _ _ => exact inv_sys h hi rfl rfl rfl rfl
  | sleep _ _ _ => exact inv_sys h hi rfl rfl rfl rfl

theorem inv_kill (hl : Log.step s.sys (.kill p) = .next l) : Inv spec (s.setSys l) := by
  have hi := inv_step h.log (step_move hl)
  cases step_move hl with
  | kill _ _ => exact inv_sys h hi rfl rfl rfl rfl

/-! ## File system calls -/

theorem inv_modify {d : Bytes} (hpc : s.sys.pc p = .inOp)
    (hhome : s.Home b) (hs : s.modify p b d = .next s') :
    Inv (update spec b d) s' := by
  obtain ⟨i, hi, hs⟩ := withBuf_eq_next hs
  obtain ⟨_, hblk, _⟩ := mine_some hi
  split at hs
  · rename_i m l hr
    injection hs with hs
    subst hs
    have hout : 1 ≤ s.sys.log.outstanding := by
      have : 0 < s.sys.inOps := count_pos_iff.mpr ⟨p, hpc⟩
      have := h.log.outstanding
      omega
    have hc := h.not_committing hout
    have htodo := h.idle hc
    have hcont := h.content.modify h.cache hr (by rw [hblk]; exact hhome) d
    rw [hblk] at hcont
    refine ⟨h.log, h.home, h.room, h.cache.store ⟨m, l, hr⟩ d true l, hcont, h.idle, h.order,
      h.shape, h.sized, fun j x hj hin => ?_, fun hcom => ?_⟩
    · rw [setCache_todo, htodo] at hin
      cases hin
    · rw [setCache_sys, hc] at hcom
      cases hcom
  · cases hs

theorem inv_logWrite (hhome : s.Home b) (hs : s.logWrite p b = .next s') : Inv spec s' := by
  obtain ⟨i, hi, hs⟩ := withBuf_eq_next hs
  obtain ⟨hdev, hblk, _⟩ := mine_some hi
  split at hs
  · rename_i m l hr
    obtain ⟨sys, hl, rfl⟩ := map_eq_next hs
    have hlog := inv_step h.log (step_move hl)
    cases step_move hl with
    | write _ _ _ _ hsize hout =>
      have hc := h.not_committing hout
      have htodo := h.idle hc
      have hmark := h.content.markLogged hr
      have hkeep := h.cache.setHolding ⟨m, l, hr⟩ m true
      have hvalid : (s.cache.buf i).valid = true := h.cache.valid i p ⟨m, l, hr⟩
      rw [hblk] at hmark
      -- the pins are the logged blocks, and this one is among them now
      have hpin : ∀ x, ((s.setSys (s.sys.setLog
          { s.sys.log with block := Log.absorb s.sys.log.block b })).setCache
          (if b ∈ s.sys.log.block then s.cache.setRef p i (.holding m true)
            else (s.cache.setRef p i (.holding m true)).bpin i)).pinned x =
          update s.pinned b true x := by
        intro x
        rw [Bool.eq_iff_iff, pinned_iff]
        by_cases hx : x = b
        · subst hx
          simp [mem_absorb, hc]
        · rw [update_of_ne hx, pinned_of_idle hc]
          simp [mem_absorb, hc, hx]
      refine ⟨hlog, ?_, ?_, ?_, ?_, h.idle, h.order, ?_, h.sized,
        fun j x hj hin => ?_, fun hcom => ?_⟩
      · intro x hx
        rcases mem_absorb.mp hx with hx | hx
        · exact h.home x hx
        · subst hx; exact hhome
      · right
        have hlen : (Log.absorb s.sys.log.block b).length ≤ s.sys.log.block.length + 1 :=
          absorb_length_le
        have hn : s.sys.log.n = s.sys.log.block.length := rfl
        change (Log.absorb s.sys.log.block b).length < s.sys.log.size
        omega
      · refine CacheInv.congr_pin ?_ hpin
        by_cases hb : b ∈ s.sys.log.block
        · have hsame : ∀ x, update s.pinned b true x = s.pinned x := by
            intro x
            by_cases hx : x = b
            · subst hx; rw [update_self, pinned_of_idle hc]; simp [hb]
            · rw [update_of_ne hx]
          simp only [setCache_cache, if_pos hb]
          exact hkeep.congr_pin hsame
        · simp only [setCache_cache, if_neg hb]
          have := hkeep.bpin hdev hvalid
            (by rw [setRef_buf, hblk, pinned_of_idle hc]; simp [hb])
          rw [setRef_buf, hblk] at this
          exact this
      · refine ContentInv.congr_pin ?_ hpin
        by_cases hb : b ∈ s.sys.log.block
        · simp only [setCache_cache, if_pos hb]; exact hmark
        · simp only [setCache_cache, if_neg hb]; exact hmark.setRefcnt i _
      · intro x hx
        rw [setCache_todo, setSys_todo, htodo] at hx
        cases hx
      · rw [setCache_todo, setSys_todo, htodo] at hin
        cases hin
      · have : s.sys.log.committing = true := hcom
        rw [hc] at this
        cases this
  · cases hs

/-! ## The steps of `commit()` -/

/-- `write_head`'s write, at the first block of the log area. -/
theorem inv_headWrite
    (htodo : s.todo = .headWrite b :: rest) (hs : s.instr p (.headWrite b) = .next s') :
    Inv spec (s'.setTodo rest) := by
  obtain ⟨i, hi, hr, hs⟩ := withHeld_eq_next hs
  injection hs with hs
  subst hs
  obtain ⟨hdev, hblk, _⟩ := mine_some hi
  have hb : b = s.sys.log.start := h.shape (.headWrite b) (by rw [htodo]; simp)
  have hsize := h.sized (by simp [htodo])
  have hnot : ¬ s.Home b := fun hn => hn ⟨by omega, by omega⟩
  have hdisk : ∀ d x, x ≠ b → ((s.cache.store i d).bwrite i).disk x = s.cache.disk x := by
    intro d x hx
    simp [Cache.bwrite, Cache.store, hblk, hx]
  have hwrite : Inv spec (s.setCache ((s.cache.store i
      (Log.putHead (s.cache.buf i).data s.sys.log.block)).bwrite i)) := by
    refine ⟨h.log, h.home, h.room, h.cache.writeThrough ⟨_, _, hr⟩ _,
      h.content.writeThrough h.cache hdev fun hh => absurd (hblk ▸ hh) hnot, h.idle, h.order,
      h.shape, h.sized, fun j x hj h1 h2 => ?_, fun hcom j x hj h1 => ?_⟩
    · rw [setCache_cache, hdisk _ _ (by rw [setCache_sys]; omega)]
      exact h.copied j x hj h1 h2
    · rw [setCache_cache, hdisk _ _ (by rintro rfl; exact hnot (h.home_of_block hj))]
      exact h.installed hcom j x hj h1
  exact inv_pop hwrite htodo (by simp) (by simp)

/-- **One copy of `commit()`.** A block outside the log area receives its
    contents, a block of the log the contents of the block whose place it is;
    then so do the statements about what is left. -/
theorem inv_copy {src dst : Nat} (htodo : s.todo = .copyWrite src dst :: rest)
    {j : Fin NBUF} (hj : s.cache.mine p dst = some j)
    (hr : s.cache.ref p j = .holding false false) {d : Bytes} (hhome : s.Home dst → d = spec dst)
    (hlog : ∀ k b, s.sys.log.block[k]? = some b → dst = s.sys.log.start + k + 1 → d = spec b) :
    Inv spec ((s.setCache ((s.cache.store j d).bwrite j)).setTodo rest) := by
  obtain ⟨hdev, hblk, _⟩ := mine_some hj
  have hdisk : ((s.cache.store j d).bwrite j).disk = update s.cache.disk dst d := by
    simp [Cache.bwrite, Cache.store, hblk]
  -- a copy to another block is not the one just done
  have hother : ∀ {x y : Nat}, dst ≠ y → Instr.copyWrite x y ∉ rest →
      .copyWrite x y ∉ s.todo := by
    intro x y hy hrest hin
    rw [htodo, mem_cons] at hin
    rcases hin with e | hin
    · injection e with _ e
      exact hy e.symm
    · exact hrest hin
  refine inv_done h htodo (fun b => pinned_congr (s := s) ?_)
    (h.cache.writeThrough ⟨_, _, hr⟩ d) (h.content.writeThrough h.cache hdev fun hh => ?_)
    (fun k b hk h1 h2 => ?_) fun hcom k b hk h1 => ?_
  · rw [htodo]
    simp
  · rw [hblk] at hh ⊢
    exact hhome hh
  · rw [hdisk]
    by_cases hk' : s.sys.log.start + k + 1 = dst
    · rw [hk', update_self]
      exact hlog k b hk hk'.symm
    · rw [update_of_ne hk']
      exact h.copied k b hk (by rw [htodo]; exact mem_cons_of_mem _ h1)
        (hother (Ne.symm hk') h2)
  · rw [hdisk]
    by_cases hb : b = dst
    · subst hb
      rw [update_self]
      exact hhome (h.home_of_block hk)
    · rw [update_of_ne hb]
      exact h.installed hcom k b hk (hother (Ne.symm hb) h1)

theorem inv_copyWrite {src dst : Nat} (htodo : s.todo = .copyWrite src dst :: rest)
    (hs : s.instr p (.copyWrite src dst) = .next s') : Inv spec (s'.setTodo rest) := by
  obtain ⟨i, hi, hri, hs⟩ := withHeld_eq_next hs
  obtain ⟨j, hj, hrj, hs⟩ := withHeld_eq_next hs
  injection hs with hs
  subst hs
  obtain ⟨hdev, hblk, _⟩ := mine_some hi
  have hvalid := h.cache.valid i p ⟨_, _, hri⟩
  obtain ⟨k, b, hk, ⟨rfl, rfl⟩ | ⟨rfl, rfl⟩⟩ := h.shape (.copyWrite src dst) (by rw [htodo]; simp)
  · -- into the log: the buffer has the contents of the block
    have hdata : (s.cache.buf i).data = spec src := by
      have := h.content.cached i hdev hvalid (hblk ▸ h.home_of_block hk)
      rwa [hblk] at this
    refine inv_copy h htodo hj hrj (fun hh => absurd hh (h.logBlock_not_home hk)) ?_
    intro k' b' hk' e
    have : k' = k := by omega
    subst this
    rw [hk] at hk'
    injection hk' with e'
    rw [hdata, e']
  · -- out of the log: no copy into it is left, so the log block has the contents of the block
    have hsrc := h.logBlock_not_home hk
    have hlast : Instr.copyWrite dst (s.sys.log.start + k + 1) ∉ s.todo := by
      intro hin
      rw [htodo, mem_cons] at hin
      rcases hin with e | hin
      · injection e with e _
        exact hsrc (e ▸ h.home_of_block hk)
      · have hord := h.order
        rw [htodo] at hord
        exact rel_of_pairwise_cons hord hin (not_not.mp hsrc) (not_not.mp hsrc)
    have hdata : (s.cache.buf i).data = spec dst := by
      rw [h.content.area i hdev hvalid (hblk ▸ hsrc), hblk]
      exact h.copied k dst hk (by rw [htodo]; simp) hlast
    refine inv_copy h htodo hj hrj (fun _ => hdata) ?_
    rintro k' b' hk' rfl
    exact absurd (h.home_of_block hk) (h.logBlock_not_home hk')

/-- **`bunpin`** comes after the copy home: the block is on the disk. -/
theorem inv_bunpin (htodo : s.todo = .bunpin b :: rest) (hs : s.instr p (.bunpin b) = .next s') :
    Inv spec (s'.setTodo rest) := by
  obtain ⟨i, hi, hr, hs⟩ := withHeld_eq_next hs
  injection hs with hs
  subst hs
  obtain ⟨hdev, hblk, _⟩ := mine_some hi
  have hvalid := h.cache.valid i p ⟨_, _, hr⟩
  have hmem : b ∈ s.sys.log.block := h.shape (.bunpin b) (by rw [htodo]; simp)
  have hcom := h.committing (by rw [htodo]; exact nofun)
  have hord := h.order
  rw [htodo] at hord
  have hlater := fun {x : Instr} (hx : x ∈ rest) => rel_of_pairwise_cons hord hx
  have hcopy : ∀ x y, Instr.copyWrite x y ∈ s.todo ↔ .copyWrite x y ∈ rest := by
    intro x y
    simp [htodo]
  obtain ⟨k, hk⟩ := getElem?_of_mem hmem
  have hdisk : s.cache.disk b = spec b := by
    refine h.installed hcom k b hk fun hin => ?_
    exact hlater ((hcopy _ _).mp hin) rfl
  have hpinned : s.pinned b = true :=
    pinned_iff.mpr ⟨hmem, fun _ => by rw [htodo]; simp⟩
  have hpin : ∀ x, ((s.setCache (s.cache.bunpin i)).setTodo rest).pinned x =
      update s.pinned b false x := by
    intro x
    rw [Bool.eq_iff_iff, pinned_iff]
    by_cases hx : x = b
    · subst hx
      rw [update_self]
      refine ⟨fun ⟨_, hin⟩ => absurd rfl (hlater (hin hcom)), fun e => (nomatch e)⟩
    · rw [update_of_ne hx, pinned_iff, htodo]
      simp [hx]
  -- whoever else held the buffer as logged would hold its lock
  have hnone : ∀ q j m, s.cache.ref q j = .holding m true →
      (s.cache.buf j).blockno ≠ (s.cache.buf i).blockno := by
    intro q j m hq e
    have hji : j = i := h.cache.unique j i
      (by rw [h.cache.dev j q (by rw [hq]; exact nofun)]; decide)
      ((h.cache.dev j q (by rw [hq]; exact nofun)).trans hdev.symm) e
    subst hji
    have hqp := h.cache.holder_unique ⟨m, true, hq⟩ ⟨_, _, hr⟩
    rw [hqp, hr] at hq
    cases hq
  have hcache := h.cache.bunpin hdev hvalid (by rw [hblk]; exact hpinned)
  have hcont := h.content.unpin (i := i) (by rw [hblk]; exact hdisk) hnone
  rw [hblk] at hcache hcont
  exact inv_done h htodo hpin hcache hcont
    (fun j x hj h1 h2 => h.copied j x hj ((hcopy _ _).mpr h1) fun e => h2 ((hcopy _ _).mp e))
    fun hc j x hj h1 => h.installed hc j x hj fun e => h1 ((hcopy _ _).mp e)

/-- `log.lh.n = 0`, with nothing left to copy or unpin. -/
theorem inv_clear
    (hl : Log.step s.sys (.commit p) = .next l) (hcopy : ∀ x y, Instr.copyWrite x y ∉ s.todo)
    (hunpin : ∀ b, Instr.bunpin b ∉ s.todo) : Inv spec (s.setSys l) := by
  have hlog := inv_step h.log (step_move hl)
  cases step_move hl with
  | commit _ hpc =>
    have hcom : s.sys.log.committing = true := h.log.committing.mpr ⟨p, .inl hpc⟩
    have hpin : ∀ b, (s.setSys ((s.sys.setLog { s.sys.log with block := [] }).goto p
        .committed)).pinned b = s.pinned b := by
      intro b
      apply pinned_congr
      exact ⟨fun ⟨hb, _⟩ => (nomatch hb), fun ⟨_, hb⟩ => absurd (hb hcom) (hunpin b)⟩
    refine ⟨hlog, fun b hb => (nomatch hb), .inl rfl, h.cache.congr_pin hpin,
      h.content.congr_pin hpin, h.idle, h.order, fun i hi => ?_, h.sized,
      fun j b hj => (nomatch hj), fun _ j b hj => (nomatch hj)⟩
    have := h.shape i hi
    cases i with
    | copyWrite x y => exact absurd hi (hcopy x y)
    | bunpin b => exact absurd hi (hunpin b)
    | headWrite b => exact this
    | bget | lock | unlock | put | clear => trivial

theorem inv_commit (hs : s.commit p = .next s') : Inv spec s' := by
  unfold State.commit at hs
  split at hs
  · rename_i htodo
    obtain ⟨l, hl, rfl⟩ := map_eq_next hs
    exact inv_clear h hl (by simp [htodo]) (by simp [htodo])
  · rename_i i rest htodo
    obtain ⟨s1, hi, rfl⟩ := map_eq_next (guard_eq_next hs).2
    -- the steps that only move buffers are followed by `inv_pop`
    have hplain : (∀ x y, i ≠ .copyWrite x y) → (∀ b, i ≠ .bunpin b) →
        Inv spec s1 ∧ s1.todo = s.todo ∧ s1.sys = s.sys → Inv spec (s1.setTodo rest) :=
      fun hc hu hs1 => inv_pop hs1.1 (hs1.2.1.trans htodo) hc hu
    cases i with
    | bget b => exact hplain (fun _ _ => nofun) (fun _ => nofun) (inv_bget h hi)
    | lock b => exact hplain (fun _ _ => nofun) (fun _ => nofun) (inv_lock h hi)
    | unlock b => exact hplain (fun _ _ => nofun) (fun _ => nofun) (inv_unlock h hi)
    | put b => exact hplain (fun _ _ => nofun) (fun _ => nofun) (inv_put h hi)
    | copyWrite src dst => exact inv_copyWrite h htodo hi
    | headWrite b => exact inv_headWrite h htodo hi
    | bunpin b => exact inv_bunpin h htodo hi
    | clear =>
      obtain ⟨l, hl, rfl⟩ := map_eq_next hi
      have hord := h.order
      rw [htodo] at hord
      exact inv_clear (inv_pop h htodo (fun _ _ => nofun) (fun _ => nofun)) hl
        (fun x y hin => rel_of_pairwise_cons hord hin)
        (fun b hin => rel_of_pairwise_cons hord hin)

theorem inv_endOp (hs : s.endOp p = .next s') : Inv spec s' := by
  obtain ⟨l, hl, rfl⟩ := map_eq_next hs
  have hlog := inv_step h.log (step_move hl)
  cases step_move hl with
  | endOther _ _ hc _ =>
    simp only [Log.State.goto_pc, if_true, reduceCtorEq, if_false]
    exact inv_sys h hlog rfl rfl rfl rfl
  | endLast _ _ hc _ =>
    -- `commit()` begins: everything it has to do is still to be done
    have hprog : ∀ i, i ∈ Log.commitProg s.sys.log.start s.sys.log.block → s.sys.log.block ≠ [] :=
      fun i hi => (mem_commitProg.mp hi).1
    have hpin : ∀ b, (((s.setSys ((s.sys.setLog { s.sys.log with
        outstanding := s.sys.log.outstanding - 1, committing := true }).goto p
        .committing)).setTodo (Log.commitProg s.sys.log.start s.sys.log.block)).pinned b) =
        s.pinned b := by
      intro b
      apply pinned_congr
      refine ⟨fun ⟨hb, _⟩ => ⟨hb, fun hcom => ?_⟩, fun ⟨hb, _⟩ => ⟨hb, fun _ => ?_⟩⟩
      · rw [hc] at hcom
        cases hcom
      · obtain ⟨k, hk⟩ := getElem?_of_mem hb
        exact (commitProg_block hk).2.2
    simp only [Log.State.goto_pc, if_true, Log.State.goto_log, Log.State.setLog_log]
    refine ⟨hlog, h.home, h.room, h.cache.congr_pin hpin, h.content.congr_pin hpin,
      fun hcom => (nomatch hcom), commitProg_order h.log.nodup h.home, commitProg_shape,
      fun hne => ?_, fun j b hj _ h2 => absurd (commitProg_block hj).1 h2,
      fun _ j b hj h1 => absurd (commitProg_block hj).2.1 h1⟩
    obtain ⟨i, hi⟩ := exists_mem_of_ne_nil _ hne
    rcases h.room with hnil | hroom
    · exact absurd hnil (hprog i hi)
    · change 0 < s.sys.log.size
      omega

theorem inv_endCommit (htodo : s.todo = [])
    (hl : Log.step s.sys (.endCommit p) = .next l) : Inv spec (s.setSys l) := by
  have hlog := inv_step h.log (step_move hl)
  cases step_move hl with
  | endCommit _ hpc =>
    have hempty := h.log.emptied p hpc
    have hpin : ∀ b, (s.setSys ((s.sys.setLog { s.sys.log with committing := false }).wakeup.goto
        p .out)).pinned b = s.pinned b := by
      intro b
      apply pinned_congr
      simp [hempty]
    refine ⟨hlog, h.home, h.room, h.cache.congr_pin hpin, h.content.congr_pin hpin,
      fun _ => htodo, h.order, h.shape, h.sized, h.copied, fun hcom => (nomatch hcom)⟩

/-! ## Every event -/

theorem inv_step {e : Event P} (hs : step s e = .next s') : Inv (specStep spec e) s' := by
  cases e with
  | bget p b =>
    exact (inv_bget h (guard_eq_next hs).2).1
  | lock p b =>
    exact (inv_lock h (guard_eq_next hs).2).1
  | unlock p b =>
    exact (inv_unlock h (guard_eq_next hs).2).1
  | put p b =>
    exact (inv_put h (guard_eq_next hs).2).1
  | modify p b d =>
    obtain ⟨hg, hs⟩ := guard_eq_next hs
    exact inv_modify h hg.1 hg.2 hs
  | logWrite p b =>
    obtain ⟨hg, hs⟩ := guard_eq_next hs
    exact inv_logWrite h hg hs
  | beginOp p =>
    obtain ⟨l, hl, rfl⟩ := map_eq_next hs
    exact inv_beginOp h hl
  | kill p =>
    obtain ⟨l, hl, rfl⟩ := map_eq_next hs
    exact inv_kill h hl
  | endOp p => exact inv_endOp h hs
  | commit p => exact inv_commit h hs
  | endCommit p =>
    obtain ⟨htodo, hs⟩ := guard_eq_next hs
    obtain ⟨l, hl, rfl⟩ := map_eq_next hs
    exact inv_endCommit h htodo hl

omit h

omit [DecidableEq P] in
theorem inv_boot (h : Boot s) : Inv s.cache.disk s := by
  have hblock : s.sys.log.block = [] := by rw [h.log]; rfl
  have hpin : ∀ b, s.pinned b = false := by
    intro b
    simp [State.pinned, hblock]
  refine ⟨by rw [h.log]; exact inv_init _ _, by simp [hblock], .inl hblock,
    h.cache.congr_pin hpin, ?_, fun _ => h.todo, by simp [h.todo], by simp [h.todo],
    fun hne => absurd h.todo hne, by simp [hblock], by simp [hblock]⟩
  exact ⟨fun i hd hv _ => h.fresh i hd hv, fun i hd hv _ => h.fresh i hd hv, fun _ _ _ _ => rfl,
    fun p i m hr => by rw [h.away p i] at hr; cases hr⟩

/-- **Every run keeps the invariant**, at the contents its modifications make
    up. -/
theorem inv_run {s₀ : State P} (h0 : Boot s₀) {es : List (Event P)}
    (h : exec step s₀ es = .next s) : Inv (contents s₀.cache.disk es) s := by
  refine exec_history (fun es s => Inv (contents s₀.cache.disk es) s) (inv_boot h0) ?_ h
  intro es s e s' hi hs
  have : contents s₀.cache.disk (es ++ [e]) = specStep (contents s₀.cache.disk es) e := by
    simp [contents]
  rw [this]
  exact inv_step hi hs

end Inv

end Bio
end Xv6
