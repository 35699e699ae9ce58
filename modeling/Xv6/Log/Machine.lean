import Xv6.Log.Commit

/-!
# The log's programs on a machine of their own

One disk, the buffers that hold blocks, and the header in memory: what `commit`
and `recover_from_log` do when no other process is about. A `bread` and a
`brelse` change nothing that a later `bread` could see, so the programs come
down to their writes: `run_frame` says what they leave alone and `run_loopFrom`
what their two copying loops bring about.
-/

namespace Xv6
namespace Log

open Function List Nat

/-! ## One machine with a disk and a buffer cache -/

/-- The disk, the buffers that hold a block, and the header in memory
    (`log.lh`). -/
structure Machine where
  disk : Nat → Bytes
  cache : Nat → Option Bytes
  lh : List Nat

namespace Machine

/-- What `bread(log.dev, b)` returns: the buffer of `b`, or the disk's copy. -/
def view (m : Machine) (b : Nat) : Bytes := (m.cache b).getD (m.disk b)

/-- After `bread(b)` the block is in a buffer. -/
@[simps -fullyApplied disk lh]
def fill (m : Machine) (b : Nat) : Machine :=
  { m with cache := update m.cache b (some (m.view b)) }

/-- New contents for the buffer of `b`, written through by `bwrite`. -/
@[simps -fullyApplied disk lh]
def bwrite (m : Machine) (b : Nat) (d : Bytes) : Machine :=
  { m with cache := update m.cache b (some d), disk := update m.disk b d }

/-- A file system call modifies the buffer of `b` and calls `log_write`. -/
@[simps -fullyApplied disk lh]
def logWrite (m : Machine) (b : Nat) (d : Bytes) : Machine :=
  { m with cache := update m.cache b (some d), lh := absorb m.lh b }

@[simp] theorem fill_view (m : Machine) (b : Nat) : (m.fill b).view = m.view := by
  funext x
  by_cases h : x = b
  · subst h; simp [fill, view]
  · simp [fill, view, update_of_ne h]

@[simp] theorem bwrite_view (m : Machine) (b : Nat) (d : Bytes) :
    (m.bwrite b d).view = update m.view b d := by
  funext x
  by_cases h : x = b
  · subst h; simp [bwrite, view]
  · simp [bwrite, view, update_of_ne h]

@[simp] theorem logWrite_view (m : Machine) (b : Nat) (d : Bytes) :
    (m.logWrite b d).view = update m.view b d := by
  funext x
  by_cases h : x = b
  · subst h; simp [logWrite, view]
  · simp [logWrite, view, update_of_ne h]

end Machine

/-- One step, with nobody else about: finding, counting and letting go of
    buffers changes neither the disk nor what a `bread` would return. -/
def Instr.run : Instr → Machine → Machine
  | .bget _, m => m
  | .lock b, m => m.fill b
  | .copyWrite src dst, m => m.bwrite dst (m.view src)
  | .headWrite b, m => m.bwrite b (putHead (m.view b) m.lh)
  | .bunpin _, m => m
  | .unlock _, m => m
  | .put _, m => m
  | .clear, m => { m with lh := [] }

/-- A program run to its end. -/
def run (is : List Instr) (m : Machine) : Machine := is.foldl (fun m i => i.run m) m

@[simp] theorem run_nil (m : Machine) : run [] m = m := rfl

@[simp] theorem run_cons (i : Instr) (is : List Instr) (m : Machine) :
    run (i :: is) m = run is (i.run m) := rfl

@[simp] theorem run_append (is js : List Instr) (m : Machine) :
    run (is ++ js) m = run js (run is m) := by
  simp [run]

/-- `commit()` -/
def commit (start : Nat) (m : Machine) : Machine := run (commitProg start m.lh) m

/-- `recover_from_log()` at boot: no buffer holds anything and the header in
    memory is the one `read_head` finds on the disk. -/
def recoverFromLog (start : Nat) (disk : Nat → Bytes) : Machine :=
  let m := Machine.fill { disk, cache := fun _ => none, lh := [] } start
  let lh := getHead (m.view start)
  run (recoverProg start lh) { m with lh }

/-! ## What a program leaves alone -/

/-- The block a step writes to the disk, if it is one that writes. -/
def Instr.target : Instr → Option Nat
  | .copyWrite _ dst => some dst
  | .headWrite b => some b
  | _ => none

variable {b start x : Nat} {i : Instr}

attribute [local simp] Instr.run brelse

/-- **Frame**: a block that no step writes keeps its contents, on the disk and
    in its buffer. -/
theorem run_frame {p : List Instr} (h : ∀ i ∈ p, i.target ≠ some x) (m : Machine) :
    (run p m).disk x = m.disk x ∧ (run p m).view x = m.view x := by
  induction p generalizing m with
  | nil => exact ⟨rfl, rfl⟩
  | cons i p ih =>
    have hi : i.target ≠ some x := h i (by simp)
    obtain ⟨hd, hv⟩ := ih (fun j hj => h j (by simp [hj])) (i.run m)
    rw [run_cons, hd, hv]
    cases i with
    | copyWrite src dst =>
      have hx : x ≠ dst := fun e => hi (by rw [e]; rfl)
      simp [update_of_ne hx]
    | headWrite b =>
      have hx : x ≠ b := fun e => hi (by rw [e]; rfl)
      simp [update_of_ne hx]
    | clear => exact ⟨rfl, rfl⟩
    | lock b => simp
    | bget b => exact ⟨rfl, rfl⟩
    | bunpin b => exact ⟨rfl, rfl⟩
    | unlock b => exact ⟨rfl, rfl⟩
    | put b => exact ⟨rfl, rfl⟩

theorem run_lh {is : List Instr} (h : Instr.clear ∉ is) (m : Machine) : (run is m).lh = m.lh := by
  induction is generalizing m with
  | nil => rfl
  | cons i is ih =>
    rw [run_cons, ih fun hi => h (by simp [hi])]
    cases i with
    | clear => exact absurd (by simp) h
    | _ => rfl

/-! ## The two copying loops -/

/-- `is` reads `src`, writes it to `dst`, and does nothing else that a `bread`
    could see. -/
def Copies (is : List Instr) (src dst : Nat) : Prop :=
  ∀ m : Machine, (run is m).disk = update m.disk dst (m.view src) ∧
    (run is m).view = update m.view dst (m.view src)

theorem writeLogAt_copies (start tail b : Nat) :
    Copies (writeLogAt start tail b) b (start + tail + 1) := fun m => by
  simp [writeLogAt, bread]

theorem installAt_copies (start : Nat) (recovering : Bool) (tail b : Nat) :
    Copies (installAt start recovering tail b) (start + tail + 1) b := fun m => by
  cases recovering <;> simp [installAt, bread]

/-- **A loop of copies** between disjoint blocks leaves each destination with
    what its source held before the loop. -/
theorem run_loopFrom (body : Nat → Nat → List Instr) (src dst : Nat → Nat → Nat)
    (hbody : ∀ t b, Copies (body t b) (src t b) (dst t b)) (tail : Nat) (bs : List Nat)
    (hdst : ∀ (i j : Nat) (hi : i < bs.length) (hj : j < bs.length),
      dst (tail + i) bs[i] = dst (tail + j) bs[j] → i = j)
    (hsrc : ∀ (i j : Nat) (hi : i < bs.length) (hj : j < bs.length),
      src (tail + i) bs[i] ≠ dst (tail + j) bs[j])
    (hframe : ∀ t b, ∀ i ∈ body t b, ∀ x, i.target = some x → x = dst t b) (m : Machine) (j : Nat)
    (hj : j < bs.length) :
    (run (loopFrom body tail bs) m).disk (dst (tail + j) bs[j]) = m.view (src (tail + j) bs[j]) ∧
      (run (loopFrom body tail bs) m).view (dst (tail + j) bs[j]) =
        m.view (src (tail + j) bs[j]) := by
  induction bs generalizing tail m j with
  | nil => cases hj
  | cons b bs ih =>
    obtain ⟨hd, hv⟩ := hbody tail b m
    rw [loopFrom, run_append]
    cases j with
    | zero =>
      -- the rest of the loop writes other blocks
      have hrest : ∀ i ∈ loopFrom body (tail + 1) bs, i.target ≠ some (dst tail b) := by
        intro i hi ht
        obtain ⟨k, hk, hik⟩ := mem_loopFrom.mp hi
        have he := hframe _ _ i hik _ ht
        rw [Nat.add_right_comm, Nat.add_assoc] at he
        cases hdst 0 (k + 1) (succ_pos _) (succ_lt_succ hk) he
      obtain ⟨hd', hv'⟩ := run_frame hrest (run (body tail b) m)
      simp only [Nat.add_zero, getElem_cons_zero]
      rw [hd', hv', hd, hv]
      simp
    | succ j =>
      have hj' : j < bs.length := by simpa using hj
      have hshift : ∀ i, tail + 1 + i = tail + (i + 1) := fun i => by omega
      have hne : src (tail + 1 + j) bs[j] ≠ dst tail b := by
        rw [hshift]
        exact hsrc (j + 1) 0 hj (succ_pos _)
      have key := @ih (tail + 1)
        (fun i k hi hk h => by
          rw [hshift, hshift] at h
          exact Nat.succ.inj (hdst (i + 1) (k + 1) (succ_lt_succ hi) (succ_lt_succ hk) h))
        (fun i k hi hk => by
          rw [hshift, hshift]
          exact hsrc (i + 1) (k + 1) (succ_lt_succ hi) (succ_lt_succ hk))
        (run (body tail b) m) j hj'
      rw [hv, update_of_ne hne, hshift] at key
      exact key

/-! ## Where the programs write -/

theorem target_writeLogAt {t : Nat} (h : i ∈ writeLogAt start t b)
    (ht : i.target = some x) : x = start + t + 1 := by
  cases i with
  | copyWrite src dst =>
    injection ht with e
    simp [writeLogAt, bread] at h
    omega
  | headWrite c => simp [writeLogAt, bread] at h
  | _ => cases ht

theorem target_installAt {t : Nat} {recovering : Bool}
    (h : i ∈ installAt start recovering t b) (ht : i.target = some x) : x = b := by
  cases i with
  | copyWrite src dst =>
    injection ht with e
    cases recovering <;> simp [installAt, bread] at h <;> omega
  | headWrite c => cases recovering <;> simp [installAt, bread] at h
  | _ => cases ht

theorem target_writeLog {bs : List Nat} (h : i ∈ writeLog start bs)
    (ht : i.target = some x) : ∃ j < bs.length, x = start + j + 1 := by
  obtain ⟨j, hj, hi⟩ := mem_loopFrom.mp h
  exact ⟨j, hj, by simpa using target_writeLogAt hi ht⟩

theorem target_installTrans {recovering : Bool} {bs : List Nat}
    (h : i ∈ installTrans start recovering bs) (ht : i.target = some x) : x ∈ bs := by
  obtain ⟨j, hj, hi⟩ := mem_loopFrom.mp h
  rw [target_installAt hi ht]
  exact getElem_mem hj

theorem target_bread (h : i ∈ bread b) : i.target = none := by
  simp only [bread, mem_cons, not_mem_nil, or_false] at h
  rcases h with rfl | rfl <;> rfl

theorem target_brelse (h : i ∈ brelse b) : i.target = none := by
  simp only [brelse, mem_cons, not_mem_nil, or_false] at h
  rcases h with rfl | rfl <;> rfl

section Blocks

variable {start size : Nat} {bs : List Nat} (hnd : bs.Nodup) (hlen : bs.length < size)
  (hout : ∀ b ∈ bs, ¬ InLog start size b)

include hlen in
theorem inLog_logBlock {j : Nat} (hj : j < bs.length) : InLog start size (start + j + 1) :=
  ⟨by omega, by omega⟩

include hlen hout in
theorem run_writeLog (m : Machine) (j : Nat) (hj : j < bs.length) :
    (run (writeLog start bs) m).disk (start + j + 1) = m.view bs[j] ∧
      (run (writeLog start bs) m).view (start + j + 1) = m.view bs[j] := by
  have := run_loopFrom (writeLogAt start) (fun _ b => b) (fun t _ => start + t + 1)
    (writeLogAt_copies start) 0 bs
    (fun i k _ _ h => by omega)
    (fun i k hi hk h => hout bs[i] (getElem_mem hi) (by
      rw [h, Nat.zero_add]
      exact inLog_logBlock hlen hk))
    (fun t b i hi x ht => target_writeLogAt hi ht) m j hj
  simpa [writeLog] using this

include hnd hlen hout in
theorem run_installTrans (recovering : Bool) (m : Machine) (j : Nat) (hj : j < bs.length) :
    (run (installTrans start recovering bs) m).disk bs[j] = m.view (start + j + 1) ∧
      (run (installTrans start recovering bs) m).view bs[j] = m.view (start + j + 1) := by
  have := run_loopFrom (installAt start recovering) (fun t _ => start + t + 1) (fun _ b => b)
    (installAt_copies start recovering) 0 bs
    (fun i k hi hk h => (hnd.getElem_inj_iff).mp h)
    (fun i k hi hk h => hout bs[k] (getElem_mem hk) (by
      rw [← h, Nat.zero_add]
      exact inLog_logBlock hlen hi))
    (fun t b i hi x ht => target_installAt hi ht) m j hj
  simpa [installTrans] using this

/-- **Recovery** copies the log blocks that the header lists to their home
    locations, and changes no other block outside the log. -/
theorem recoverFromLog_disk {d : Nat → Bytes} (hbs : getHead (d start) = bs) (hnd : bs.Nodup)
    (hlen : bs.length < size) (hout : ∀ b ∈ bs, ¬ InLog start size b) :
    (∀ (j : Nat) (hj : j < bs.length), (recoverFromLog start d).disk bs[j] = d (start + j + 1)) ∧
      ∀ x ∉ bs, ¬ InLog start size x → (recoverFromLog start d).disk x = d x := by
  have hlast : ∀ x, ¬ InLog start size x → ∀ i ∈ [Instr.clear] ++ writeHead start,
      i.target ≠ some x := by
    intro x hx i hi ht
    simp only [writeHead, cons_append, nil_append, mem_cons, mem_append,
      not_mem_nil, or_false] at hi
    rcases hi with rfl | (h | rfl) | h
    · cases ht
    · rw [target_bread h] at ht; cases ht
    · exact hx (by injection ht with e; exact ⟨by omega, by omega⟩)
    · rw [target_brelse h] at ht; cases ht
  unfold recoverFromLog recoverProg
  have hview : Machine.view (Machine.fill ⟨d, fun _ => none, []⟩ start) = d := by
    rw [Machine.fill_view]; rfl
  simp only [hview, hbs, append_assoc]
  refine ⟨fun j hj => ?_, fun x hxb hx => ?_⟩
  · rw [run_append, (run_frame (hlast _ (hout _ (getElem_mem hj))) _).1,
      (run_installTrans hnd hlen hout true _ j hj).1]
    exact congrFun hview _
  · rw [run_append, (run_frame (hlast _ hx) _).1, (run_frame (fun i hi ht =>
      hxb (target_installTrans hi ht)) _).1]
    rfl

end Blocks

end Log
end Xv6
