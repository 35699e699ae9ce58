import Xv6.Lib.Bytes
import Xv6.Log.Lock

/-!
# What `commit()` and `recover_from_log()` do to buffers

`write_log`, `write_head`, `install_trans`, `commit` and `recover_from_log` of
`kernel/log.c` are straight-line programs once the log header is known: they
read buffers, copy one into another, write it, and let go of it. Here they are
those programs, as lists of the steps the buffer cache is asked for. What a step
means is said elsewhere, twice: alone, on a disk that may lose power between two
writes (`Xv6.Log.Machine`), and among other processes on the buffer cache
(`Xv6.Bio.System`). Both run the same programs.

`bread` is two steps, finding a buffer (`bget`'s critical section) and getting
its sleep lock with valid contents; so is `brelse`. A `memmove` into a buffer
and the `bwrite` of that buffer are one step: the buffer is locked by the
process that does both.
-/

namespace Xv6
namespace Log

/-- The log area: the header block and the log blocks. -/
def InLog (start size x : Nat) : Prop := start ≤ x ∧ x < start + size

instance (start size x : Nat) : Decidable (InLog start size x) :=
  inferInstanceAs (Decidable (_ ∧ _))

/-! ## The header block -/

/-- `hb->block[i] = …` for the entries from `i` on. -/
def putBlocks (m : Bytes) (i : Nat) : List Nat → Bytes
  | [] => m
  | b :: bs => putBlocks (m.setLE (4 + 4 * i) 4 b) (i + 1) bs

/-- `write_head`'s stores into the header buffer: `n`, then the `n` block
    numbers. Entries beyond them keep what they held. -/
def putHead (m : Bytes) (bs : List Nat) : Bytes := putBlocks (m.setLE 0 4 bs.length) 0 bs

/-- `read_head`: `n` is an `int`, and the loop runs while `i < n`. -/
def getHead (m : Bytes) : List Nat :=
  (List.range (Bytes.toInt 32 (m.getLE 0 4)).toNat).map fun i => m.getLE (4 + 4 * i) 4

variable {m : Bytes}

theorem putBlocks_below {bs : List Nat} {i o k : Nat} (h : o + k ≤ 4 + 4 * i) :
    (putBlocks m i bs).getLE o k = m.getLE o k := by
  induction bs generalizing m i with
  | nil => rfl
  | cons b bs ih =>
    rw [putBlocks, ih (by omega), Bytes.getLE_setLE_disjoint (by omega)]

theorem getLE_putBlocks {bs : List Nat} {i j : Nat} (hj : j < bs.length)
    (hw : ∀ b ∈ bs, b < 2 ^ 32) : (putBlocks m i bs).getLE (4 + 4 * (i + j)) 4 = bs[j] := by
  induction bs generalizing m i j with
  | nil => cases hj
  | cons b bs ih =>
    cases j with
    | zero =>
      have hb : b < 256 ^ 4 := hw b (by simp)
      rw [putBlocks, putBlocks_below (by omega), Nat.add_zero, Bytes.getLE_setLE_same,
        Nat.mod_eq_of_lt hb]
      rfl
    | succ j =>
      have := ih (m := m.setLE (4 + 4 * i) 4 b) (i := i + 1) (j := j) (by simpa using hj)
        fun c hc => hw c (by simp [hc])
      rw [putBlocks, show i + (j + 1) = i + 1 + j by omega, this]
      rfl

/-- **The header reads back what was written into it.** -/
theorem getHead_putHead {l : List Nat} (hlen : l.length < 2 ^ 31)
    (hw : ∀ b ∈ l, b < 2 ^ 32) : getHead (putHead m l) = l := by
  have hn : (putHead m l).getLE 0 4 = l.length := by
    rw [putHead, putBlocks_below (by omega), Bytes.getLE_setLE_same, Nat.mod_eq_of_lt (by omega)]
  have hint : (Bytes.toInt 32 l.length).toNat = l.length := by
    rw [Bytes.toInt_of_lt hlen, Int.toNat_natCast]
  unfold getHead
  rw [hn, hint]
  refine List.ext_getElem (by simp) fun j h1 h2 => ?_
  have := getLE_putBlocks (m := m.setLE 0 4 l.length) (i := 0) h2 hw
  simpa [putHead] using this

theorem getHead_of_zero (h : m.getLE 0 4 = 0) : getHead m = [] := by
  simp [getHead, h, Bytes.toInt]

/-! ## The programs -/

/-- One step of the log's code, on the buffers of the blocks it names. -/
inductive Instr where
  /-- the critical section of `bget`: a buffer for block `b`, counted -/
  | bget (b : Nat)
  /-- the rest of `bread`: the buffer's sleep lock, and its contents if they
      were not valid -/
  | lock (b : Nat)
  /-- `memmove(dst->data, src->data, BSIZE); bwrite(dst)` -/
  | copyWrite (src dst : Nat)
  /-- the stores of `write_head` into the buffer of the header, and its
      `bwrite` -/
  | headWrite (b : Nat)
  /-- `bunpin` -/
  | bunpin (b : Nat)
  /-- `releasesleep` in `brelse` -/
  | unlock (b : Nat)
  /-- the critical section of `brelse` -/
  | put (b : Nat)
  /-- `log.lh.n = 0` -/
  | clear
  deriving DecidableEq

/-- `bread(log.dev, b)` -/
def bread (b : Nat) : List Instr := [.bget b, .lock b]

/-- `brelse` of the buffer of block `b` -/
def brelse (b : Nat) : List Instr := [.unlock b, .put b]

/-- `for (tail = 0; tail < log.lh.n; tail++)` with `log.lh.block[tail]` at hand,
    from `tail` on. -/
def loopFrom (body : Nat → Nat → List Instr) : Nat → List Nat → List Instr
  | _, [] => []
  | tail, b :: bs => body tail b ++ loopFrom body (tail + 1) bs

/-- The body of `write_log`'s loop at `tail`, for `log.lh.block[tail] = b`. -/
def writeLogAt (start tail b : Nat) : List Instr :=
  bread (start + tail + 1) ++ bread b ++ [.copyWrite b (start + tail + 1)] ++
    brelse b ++ brelse (start + tail + 1)

/-- `write_log()` -/
def writeLog (start : Nat) (bs : List Nat) : List Instr := loopFrom (writeLogAt start) 0 bs

/-- `write_head()` -/
def writeHead (start : Nat) : List Instr := bread start ++ [.headWrite start] ++ brelse start

/-- The body of `install_trans(recovering)`'s loop at `tail`. -/
def installAt (start : Nat) (recovering : Bool) (tail b : Nat) : List Instr :=
  bread (start + tail + 1) ++ bread b ++ [.copyWrite (start + tail + 1) b] ++
    (if recovering then [] else [.bunpin b]) ++ brelse (start + tail + 1) ++ brelse b

/-- `install_trans(recovering)` -/
def installTrans (start : Nat) (recovering : Bool) (bs : List Nat) : List Instr :=
  loopFrom (installAt start recovering) 0 bs

/-- `commit()`, for a log header that lists `bs`. -/
def commitProg (start : Nat) (bs : List Nat) : List Instr :=
  if bs = [] then []
  else writeLog start bs ++ writeHead start ++ installTrans start false bs ++ [.clear] ++
    writeHead start

/-- What `recover_from_log()` does once `read_head()` has found `bs`. -/
def recoverProg (start : Nat) (bs : List Nat) : List Instr :=
  installTrans start true bs ++ [.clear] ++ writeHead start

theorem mem_loopFrom {body : Nat → Nat → List Instr} {tail : Nat} {bs : List Nat} {i : Instr} :
    i ∈ loopFrom body tail bs ↔ ∃ (j : Nat) (h : j < bs.length), i ∈ body (tail + j) bs[j] := by
  induction bs generalizing tail with
  | nil => simp [loopFrom]
  | cons b bs ih =>
    rw [loopFrom, List.mem_append, ih]
    constructor
    · rintro (h | ⟨j, hj, h⟩)
      · exact ⟨0, by simp, h⟩
      · exact ⟨j + 1, by simpa using hj, by simpa [Nat.add_assoc, Nat.add_comm 1] using h⟩
    · rintro ⟨j, hj, h⟩
      cases j with
      | zero => exact .inl h
      | succ j =>
        exact .inr ⟨j, by simpa using hj, by simpa [Nat.add_assoc, Nat.add_comm 1] using h⟩

end Log
end Xv6
