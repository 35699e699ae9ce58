import Xv6.Lib.Bytes
import Xv6.Lib.Count
import Xv6.Lib.Run
import Xv6.Param

/-!
# The buffer cache

`kernel/bio.c`, at the granularity of its critical sections: `bget` up to its
release of `bcache.lock`, `acquiresleep` together with `bread`'s read from the
disk, `releasesleep`, and the section of `brelse` that counts down and moves the
buffer to the front of the list. Between any two of them another process may
run.

A process keeps a pointer to a buffer from its `bget` to the end of its
`brelse`; `ref p i` says what it is doing with it. The list threaded through
`prev` and `next` is the list of buffers it visits from `head.next` on, so that
`bget`'s second loop visits it from the other end.
-/

namespace Xv6
namespace Bio

open Function

/-- What a process is doing with a buffer it has a pointer to. -/
inductive Ref where
  /-- it has none -/
  | away
  /-- in `acquiresleep` -/
  | waiting
  /-- `bread` has returned it; whether it has been modified since, and whether
      passed to `log_write` -/
  | holding (modified logged : Bool)
  /-- in `brelse`, between `releasesleep` and `bcache.lock` -/
  | releasing
  deriving DecidableEq

/-- `struct buf`. `refcnt` is an `Int`: an unsigned count that goes below zero
    would not be a count (`Xv6.Bio.CacheInv.refcnt` says it never does). -/
structure Buf (P : Type) where
  valid : Bool
  dev : Nat
  blockno : Nat
  /-- the holder of the sleep lock -/
  lock : Option P
  refcnt : Int
  data : Bytes

/-- `bcache`, the disk behind it, and the pointers into it. -/
structure Cache (P : Type) where
  buf : Fin NBUF → Buf P
  lru : List (Fin NBUF)
  disk : Nat → Bytes
  ref : P → Fin NBUF → Ref

namespace Cache

variable {P : Type} [DecidableEq P]

/-- `binit`: each buffer is put in front of the ones before it. -/
def binit (disk : Nat → Bytes) : Cache P where
  buf := fun _ =>
    { valid := false, dev := 0, blockno := 0, lock := none, refcnt := 0, data := Bytes.zero }
  lru := (List.finRange NBUF).reverse
  disk := disk
  ref := fun _ _ => .away

def setBuf (c : Cache P) (i : Fin NBUF) (b : Buf P) : Cache P :=
  { c with buf := update c.buf i b }

def setRef (c : Cache P) (p : P) (i : Fin NBUF) (r : Ref) : Cache P :=
  { c with ref := update c.ref p (update (c.ref p) i r) }

/-- Is the block already cached? -/
def lookup (c : Cache P) (dev b : Nat) : Option (Fin NBUF) :=
  c.lru.find? fun i => (c.buf i).dev == dev && (c.buf i).blockno == b

/-- The least recently used buffer that nobody counts. -/
def victim (c : Cache P) : Option (Fin NBUF) :=
  c.lru.reverse.find? fun i => (c.buf i).refcnt == 0

/-- `bget`, up to `release(&bcache.lock)`. -/
def bget (c : Cache P) (p : P) (dev b : Nat) : Outcome (Cache P) :=
  match c.lookup dev b with
  | some i =>
      .next ((c.setBuf i { c.buf i with refcnt := (c.buf i).refcnt + 1 }).setRef p i .waiting)
  | none =>
    match c.victim with
    | some i =>
        .next ((c.setBuf i { c.buf i with dev, blockno := b, valid := false, refcnt := 1 }).setRef p
          i .waiting)
    | none => .panic "bget: no buffers"

/-- The rest of `bread`: `acquiresleep` returns once the lock is free, and the
    block is read from the disk if the buffer does not hold it. -/
def lock (c : Cache P) (p : P) (i : Fin NBUF) : Outcome (Cache P) :=
  if c.ref p i = .waiting ∧ (c.buf i).lock = none then
    let data := if (c.buf i).valid then (c.buf i).data else c.disk (c.buf i).blockno
    .next ((c.setBuf i { c.buf i with lock := some p, valid := true, data }).setRef p i
      (.holding false false))
  else .disabled

/-- `releasesleep` in `brelse`, by a process that keeps the rule of the log: a
    buffer it modified has been passed to `log_write`. -/
def unlock (c : Cache P) (p : P) (i : Fin NBUF) : Outcome (Cache P) :=
  match c.ref p i with
  | .holding modified logged =>
      if modified = true → logged = true then
        .next ((c.setBuf i { c.buf i with lock := none }).setRef p i .releasing)
      else .disabled
  | _ => .disabled

/-- The locked section of `brelse`. -/
def put (c : Cache P) (p : P) (i : Fin NBUF) : Outcome (Cache P) :=
  if c.ref p i = .releasing then
    let c' := (c.setBuf i { c.buf i with refcnt := (c.buf i).refcnt - 1 }).setRef p i .away
    .next (if (c.buf i).refcnt - 1 = 0 then { c' with lru := i :: c.lru.erase i } else c')
  else .disabled

/-- The holder stores into the buffer. -/
def store (c : Cache P) (i : Fin NBUF) (d : Bytes) : Cache P :=
  c.setBuf i { c.buf i with data := d }

/-- `bwrite`: the buffer goes to the disk. -/
def bwrite (c : Cache P) (i : Fin NBUF) : Cache P :=
  { c with disk := update c.disk (c.buf i).blockno (c.buf i).data }

def bpin (c : Cache P) (i : Fin NBUF) : Cache P :=
  c.setBuf i { c.buf i with refcnt := (c.buf i).refcnt + 1 }

def bunpin (c : Cache P) (i : Fin NBUF) : Cache P :=
  c.setBuf i { c.buf i with refcnt := (c.buf i).refcnt - 1 }

/-- The buffer of block `b` that `p` has a pointer to. -/
def mine (c : Cache P) (p : P) (b : Nat) : Option (Fin NBUF) :=
  (List.finRange NBUF).find? fun i =>
    (c.buf i).dev == ROOTDEV && (c.buf i).blockno == b && c.ref p i != .away

/-- `p` holds the sleep lock of buffer `i`. -/
def Holds (c : Cache P) (p : P) (i : Fin NBUF) : Prop := ∃ m l, c.ref p i = .holding m l

instance (c : Cache P) (p : P) (i : Fin NBUF) : Decidable (c.Holds p i) :=
  match h : c.ref p i with
  | .away => isFalse fun ⟨_, _, e⟩ => by rw [h] at e; cases e
  | .waiting => isFalse fun ⟨_, _, e⟩ => by rw [h] at e; cases e
  | .holding m l => isTrue ⟨m, l, h⟩
  | .releasing => isFalse fun ⟨_, _, e⟩ => by rw [h] at e; cases e

end Cache

end Bio
end Xv6
