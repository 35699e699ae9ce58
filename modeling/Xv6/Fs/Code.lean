import Xv6.Fs.Layout
import Xv6.Lib.Sys
import Xv6.Log.Lock
import Xv6.Mem.Riscv

/-!
# The file system

`kernel/fs.c`. The buffer cache and the log are taken at what they promise: a
`bread` returns the latest contents of a block, `log_write` enters a block into
the running transaction, and the last `end_op` puts the transaction on the disk.
One process is at work at a time, so a sleeplock that is taken stays taken
(`hang`), and the spinlocks need not be seen. The table of inodes is indexed by
`Fin NINODE`, which stands for a `struct inode *`.

A loop whose number of turns the code does not say carries a bound on them and
hangs when it runs out, so a theorem that a call returns also says that the
bound is enough.
-/

namespace Xv6
namespace Fs

open Function

/-! ## State -/

/-- in-memory copy of an inode -/
structure Inode where
  dev : Nat
  inum : Nat
  ref : Int
  locked : Bool
  /-- inode has been read from disk? -/
  valid : Bool
  /-- copy of disk inode -/
  din : Dinode

structure State where
  /-- what `bread` finds in a block -/
  data : Nat → Bytes
  /-- what the disk holds of it -/
  home : Nat → Bytes
  /-- `log.lh.block`: the blocks of the running transaction -/
  lh : List Nat
  /-- `log.outstanding` -/
  outstanding : Nat
  itable : Fin NINODE → Inode

def State.setData (s : State) (b : Nat) (m : Bytes) : State :=
  { s with data := update s.data b m }

def State.setInode (s : State) (i : Fin NINODE) (ip : Inode) : State :=
  { s with itable := update s.itable i ip }

def State.setDin (s : State) (i : Fin NINODE) (d : Dinode) : State :=
  s.setInode i { s.itable i with din := d }

/-- `bp = bread(dev, b)`: what is in `bp->data`. -/
def bread (b : Nat) : Sys State Bytes := Sys.reads fun s => s.data b

/-- A store into `bp->data`. -/
def bstore (b : Nat) (m : Bytes) : Sys State Unit := Sys.modify fun s => s.setData b m

/-- `*ip` -/
def inode (i : Fin NINODE) : Sys State Inode := Sys.reads fun s => s.itable i

/-- A store to the fields of `*ip` that are a copy of the disk's. -/
def setDin (i : Fin NINODE) (d : Dinode) : Sys State Unit := Sys.modify fun s => s.setDin i d

section Code

variable (sb : Superblock)

/-! ## Transactions -/

/-- `log_write(bp)` -/
def logWrite (b : Nat) : Sys State Unit := fun s =>
  if s.lh.length ≥ LOGSIZE ∨ (s.lh.length : Int) ≥ (sb.nlog : Int) - 1 then
    .error (.panic "too big a transaction")
  else if s.outstanding < 1 then .error (.panic "log_write outside of trans")
  else .ok ((), { s with lh := Log.absorb s.lh b })

/-- `begin_op()`, with nobody else about who could make room. -/
def beginOp : Sys State Unit := fun s =>
  if s.lh.length + (s.outstanding + 1) * MAXOPBLOCKS > LOGSIZE then .error .hang
  else .ok ((), { s with outstanding := s.outstanding + 1 })

/-- `end_op()`: the last one commits. -/
def endOp : Sys State Unit := Sys.modify fun s =>
  if s.outstanding - 1 = 0 then
    { s with
      outstanding := 0
      lh := []
      home := fun b => if b ∈ s.lh then s.data b else s.home b }
  else { s with outstanding := s.outstanding - 1 }

/-! ## Blocks -/

/-- Zero a block. -/
def bzero (b : Nat) : Sys State Unit := do
  let m ← bread b
  bstore b (m.fill 0 BSIZE 0)
  logWrite sb b

/-- The inner loop of `balloc`: the first clear bit of a bitmap block, from `bi`
    on. -/
def freeBit (m : Bytes) (b size : Nat) : Nat → Nat → Option Nat
  | 0, _ => none
  | fuel + 1, bi =>
    if b + bi < size then
      if m.testBit bi = false then some bi else freeBit m b size fuel (bi + 1)
    else none

def ballocLoop : Nat → Nat → Sys State Nat
  | 0, _ => Sys.hang
  | fuel + 1, b =>
    if b < sb.size then do
      let m ← bread (sb.BBLOCK b)
      match freeBit m b sb.size BPB 0 with
      | some bi => do
        bstore (sb.BBLOCK b) (m.setBit bi)
        logWrite sb (sb.BBLOCK b)
        bzero sb (b + bi)
        pure (b + bi)
      | none => ballocLoop fuel (b + BPB)
    else pure 0

/-- Allocate a zeroed disk block; 0 if out of disk space. -/
def balloc : Sys State Nat := ballocLoop sb (sb.size / BPB + 2) 0

/-- Free a disk block. -/
def bfree (b : Nat) : Sys State Unit := do
  let m ← bread (sb.BBLOCK b)
  if m.testBit (b % BPB) = false then Sys.panic "freeing free block"
  else do
    bstore (sb.BBLOCK b) (m.clearBit (b % BPB))
    logWrite sb (sb.BBLOCK b)

/-! ## Inodes -/

/-- Where the inode is in its block. -/
def slot (inum : Nat) : Nat := 64 * (inum % IPB)

/-- Copy a modified in-memory inode to disk. -/
def iupdate (i : Fin NINODE) : Sys State Unit := do
  let ip ← inode i
  let m ← bread (sb.IBLOCK ip.inum)
  bstore (sb.IBLOCK ip.inum) (putDinode m (slot ip.inum) ip.din)
  logWrite sb (sb.IBLOCK ip.inum)

/-- Find the inode with number `inum` on device `dev` and return the in-memory
    copy. -/
def iget (dev inum : Nat) : Sys State (Fin NINODE) := do
  let t ← Sys.reads State.itable
  match (List.finRange NINODE).find? fun i =>
      decide ((t i).ref > 0 ∧ (t i).dev = dev ∧ (t i).inum = inum) with
  | some i => do
    Sys.modify fun s => s.setInode i { t i with ref := (t i).ref + 1 }
    pure i
  | none =>
    match (List.finRange NINODE).find? fun i => decide ((t i).ref = 0) with
    | none => Sys.panic "iget: no inodes"
    | some i => do
      Sys.modify fun s => s.setInode i { t i with dev, inum, ref := 1, valid := false }
      pure i

/-- Increment reference count for `ip`. -/
def idup (i : Fin NINODE) : Sys State (Fin NINODE) := do
  Sys.modify fun s => s.setInode i { s.itable i with ref := (s.itable i).ref + 1 }
  pure i

/-- Lock the given inode. Reads the inode from disk if necessary. -/
def ilock (i : Fin NINODE) : Sys State Unit := do
  let ip ← inode i
  if ip.ref < 1 then Sys.panic "ilock"
  else if ip.locked then Sys.hang
  else if ip.valid then Sys.modify fun s => s.setInode i { ip with locked := true }
  else do
    let m ← bread (sb.IBLOCK ip.inum)
    let d := getDinode m (slot ip.inum)
    Sys.modify fun s => s.setInode i { ip with locked := true, valid := true, din := d }
    if d.type = 0 then Sys.panic "ilock: no type" else pure ()

/-- Unlock the given inode. -/
def iunlock (i : Fin NINODE) : Sys State Unit := do
  let ip ← inode i
  if ip.locked = false ∨ ip.ref < 1 then Sys.panic "iunlock"
  else Sys.modify fun s => s.setInode i { ip with locked := false }

/-- The loop of `itrunc` over the direct blocks. -/
def itruncDirect (i : Fin NINODE) : List (Fin 13) → Sys State Unit
  | [] => pure ()
  | k :: ks => do
    let ip ← inode i
    if ip.din.addrs k ≠ 0 then do
      bfree sb (ip.din.addrs k)
      setDin i { ip.din with addrs := update ip.din.addrs k 0 }
      itruncDirect i ks
    else itruncDirect i ks

/-- The loop of `itrunc` over the entries of the indirect block, `n` of them
    from `j` on. -/
def itruncEntries (addr : Nat) : Nat → Nat → Sys State Unit
  | 0, _ => pure ()
  | n + 1, j => do
    let a ← bread addr
    if a.getLE (4 * j) 4 ≠ 0 then do
      bfree sb (a.getLE (4 * j) 4)
      itruncEntries addr n (j + 1)
    else itruncEntries addr n (j + 1)

/-- The end of `itrunc`. -/
def itruncDone (i : Fin NINODE) : Sys State Unit := do
  let ip ← inode i
  setDin i { ip.din with size := 0 }
  iupdate sb i

/-- Truncate inode (discard contents). -/
def itrunc (i : Fin NINODE) : Sys State Unit := do
  itruncDirect sb i ((List.finRange 13).take NDIRECT)
  let ip ← inode i
  if ip.din.addrs 12 ≠ 0 then do
    itruncEntries sb (ip.din.addrs 12) NINDIRECT 0
    bfree sb (ip.din.addrs 12)
    setDin i { ip.din with addrs := update ip.din.addrs 12 0 }
    itruncDone sb i
  else itruncDone sb i

/-- `ip->ref--` -/
def refDec (i : Fin NINODE) : Sys State Unit :=
  Sys.modify fun s => s.setInode i { s.itable i with ref := (s.itable i).ref - 1 }

/-- Drop a reference to an in-memory inode; free the inode (and its content) on
    disk if that was the last reference and the inode has no links to it. -/
def iput (i : Fin NINODE) : Sys State Unit := do
  let ip ← inode i
  if ip.ref = 1 ∧ ip.valid = true ∧ ip.din.nlink = 0 then
    if ip.locked then Sys.hang
    else do
      Sys.modify fun s => s.setInode i { ip with locked := true }
      itrunc sb i
      let ip ← inode i
      setDin i { ip.din with type := 0 }
      iupdate sb i
      Sys.modify fun s => s.setInode i { s.itable i with valid := false, locked := false }
      refDec i
  else refDec i

/-- Common idiom: unlock, then put. -/
def iunlockput (i : Fin NINODE) : Sys State Unit := do
  iunlock i
  iput sb i

def iallocLoop (dev type : Nat) : Nat → Nat → Sys State (Option (Fin NINODE))
  | 0, _ => pure none
  | n + 1, inum => do
    let m ← bread (sb.IBLOCK inum)
    if (getDinode m (slot inum)).type = 0 then do
      bstore (sb.IBLOCK inum) (clearDinode m (slot inum) type)
      logWrite sb (sb.IBLOCK inum)
      let i ← iget dev inum
      pure (some i)
    else iallocLoop dev type n (inum + 1)

/-- Allocate an inode on device `dev`, marked as allocated by giving it type
    `type`. -/
def ialloc (dev type : Nat) : Sys State (Option (Fin NINODE)) :=
  iallocLoop sb dev type (sb.ninodes - 1) 1

/-! ## Inode content -/

/-- The entry for block `bn` of the indirect block `addr`, allocated if there is
    none. -/
def bmapEntry (addr bn : Nat) : Sys State Nat := do
  let a ← bread addr
  if a.getLE (4 * bn) 4 = 0 then do
    let b ← balloc sb
    if b ≠ 0 then do
      let a ← bread addr
      bstore addr (a.setLE (4 * bn) 4 b)
      logWrite sb addr
      pure b
    else pure b
  else pure (a.getLE (4 * bn) 4)

/-- The disk block address of the `bn`-th block in inode `ip`; if there is no
    such block, `bmap` allocates one. 0 if out of disk space. -/
def bmap (i : Fin NINODE) (bn : Nat) : Sys State Nat := do
  let ip ← inode i
  if h : bn < NDIRECT then
    if ip.din.addrs ⟨bn, Nat.lt_succ_of_lt h⟩ = 0 then do
      let addr ← balloc sb
      if addr = 0 then pure 0
      else do
        setDin i { ip.din with
          addrs := update ip.din.addrs ⟨bn, Nat.lt_succ_of_lt h⟩ addr }
        pure addr
    else pure (ip.din.addrs ⟨bn, Nat.lt_succ_of_lt h⟩)
  else if bn - NDIRECT < NINDIRECT then
    if ip.din.addrs 12 = 0 then do
      let addr ← balloc sb
      if addr = 0 then pure 0
      else do
        setDin i { ip.din with addrs := update ip.din.addrs 12 addr }
        bmapEntry sb addr (bn - NDIRECT)
    else bmapEntry sb (ip.din.addrs 12) (bn - NDIRECT)
  else Sys.panic "bmap: out of range"

end Code

/-- A process's memory: the page at a page-aligned address, where `walkaddr`
    finds one. -/
abbrev Umem := Nat → Option Bytes

/-- `copyin(pagetable, dst + o, srcva, len)`: `dst` after it, and the return
    value. -/
def copyinLoop (u : Umem) : Nat → Bytes → Nat → Nat → Nat → Bytes × Int
  | 0, dst, _, _, _ => (dst, 0)
  | fuel + 1, dst, o, srcva, len =>
    if len > 0 then
      let va0 := PGROUNDDOWN srcva
      match u va0 with
      | none => (dst, -1)
      | some page =>
        let n := min (PGSIZE - (srcva - va0)) len
        copyinLoop u fuel (dst.blit o page (srcva - va0) n) (o + n) ((va0 + PGSIZE) % 2 ^ 64)
          (len - n)
    else (dst, 0)

/-- `copyout(pagetable, dstva, src + o, len)`: the memory after it, and the
    return value. -/
def copyoutLoop (src : Bytes) : Nat → Umem → Nat → Nat → Nat → Umem × Int
  | 0, u, _, _, _ => (u, 0)
  | fuel + 1, u, dstva, o, len =>
    if len > 0 then
      let va0 := PGROUNDDOWN dstva
      match u va0 with
      | none => (u, -1)
      | some page =>
        let n := min (PGSIZE - (dstva - va0)) len
        copyoutLoop src fuel (update u va0 (some (page.blit (dstva - va0) src o n)))
          ((va0 + PGSIZE) % 2 ^ 64) (o + n) (len - n)
    else (u, 0)

/-- The source or destination of a transfer: kernel memory, or a user
    address. -/
inductive Ptr where
  | kernel (buf : Bytes)
  | user (u : Umem) (va : Nat)

/-- `either_copyin(dst + o, user_src, src + done, len)` -/
def eitherCopyin (dst : Bytes) (o : Nat) (src : Ptr) (done len : Nat) : Bytes × Int :=
  match src with
  | .kernel buf => (dst.blit o buf done len, 0)
  | .user u va => copyinLoop u len dst o ((va + done) % 2 ^ 64) len

/-- `either_copyout(user_dst, dst + done, src + o, len)` -/
def eitherCopyout (dst : Ptr) (done : Nat) (src : Bytes) (o len : Nat) : Ptr × Int :=
  match dst with
  | .kernel buf => (.kernel (buf.blit done src o len), 0)
  | .user u va =>
    let r := copyoutLoop src len u ((va + done) % 2 ^ 64) o len
    (.user r.1 va, r.2)

section Code

variable (sb : Superblock)

def readiLoop (i : Fin NINODE) (n : Nat) : Nat → Nat → Nat → Ptr → Sys State (Int × Ptr)
  | 0, _, _, _ => Sys.hang
  | fuel + 1, tot, off, dst =>
    if tot < n then do
      let addr ← bmap sb i (off / BSIZE)
      if addr = 0 then pure ((tot : Int), dst)
      else do
        let b ← bread addr
        let m := min (n - tot) (BSIZE - off % BSIZE)
        let r := eitherCopyout dst tot b (off % BSIZE) m
        if r.2 = -1 then pure (-1, r.1)
        else readiLoop i n fuel (tot + m) (off + m) r.1
    else pure ((tot : Int), dst)

/-- Read data from inode: the number of bytes, and the destination after it. -/
def readi (i : Fin NINODE) (dst : Ptr) (off n : Nat) : Sys State (Int × Ptr) := do
  let ip ← inode i
  if off > ip.din.size ∨ (off + n) % 2 ^ 32 < off then pure (0, dst)
  else if (off + n) % 2 ^ 32 > ip.din.size then
    readiLoop sb i (ip.din.size - off) (ip.din.size - off + 1) 0 off dst
  else readiLoop sb i n (n + 1) 0 off dst

/-- The loop of `writei`: `tot` and `off` at its end. If the source cannot be
    read, what was copied until then stays in the buffer. -/
def writeiLoop (i : Fin NINODE) (src : Ptr) (n : Nat) : Nat → Nat → Nat → Sys State (Nat × Nat)
  | 0, _, _ => Sys.hang
  | fuel + 1, tot, off =>
    if tot < n then do
      let addr ← bmap sb i (off / BSIZE)
      if addr = 0 then pure (tot, off)
      else do
        let b ← bread addr
        let m := min (n - tot) (BSIZE - off % BSIZE)
        let r := eitherCopyin b (off % BSIZE) src tot m
        bstore addr r.1
        if r.2 = -1 then pure (tot, off)
        else do
          logWrite sb addr
          writeiLoop i src n fuel (tot + m) (off + m)
    else pure (tot, off)

/-- Write data to inode; the number of bytes successfully written. -/
def writei (i : Fin NINODE) (src : Ptr) (off n : Nat) : Sys State Int := do
  let ip ← inode i
  if off > ip.din.size ∨ (off + n) % 2 ^ 32 < off then pure (-1)
  else if (off + n) % 2 ^ 32 > MAXFILE * BSIZE then pure (-1)
  else do
    let r ← writeiLoop sb i src n (n + 1) 0 off
    let ip ← inode i
    setDin i { ip.din with size := if r.2 > ip.din.size then r.2 else ip.din.size }
    iupdate sb i
    pure (r.1 : Int)

/-! ## Files -/

/-- The most that `filewrite` writes in one transaction. -/
abbrev maxWrite : Nat := (MAXOPBLOCKS - 1 - 1 - 2) / 2 * BSIZE

/-- The loop of `filewrite` for a file of type `FD_INODE`: `i` and `f->off` at
    its end. -/
def filewriteLoop (ip : Fin NINODE) (u : Umem) (addr n : Nat) :
    Nat → Nat → Nat → Sys State (Nat × Nat)
  | 0, _, _ => Sys.hang
  | fuel + 1, i, off =>
    if i < n then do
      let n1 := min (n - i) maxWrite
      beginOp
      ilock sb ip
      let r ← writei sb ip (.user u ((addr + i) % 2 ^ 64)) off n1
      let off' := if r > 0 then (off + r.toNat) % 2 ^ 32 else off
      iunlock ip
      endOp
      if r ≠ n1 then pure (i, off') else filewriteLoop ip u addr n fuel (i + n1) off'
    else pure (i, off)

/-- Write to a file with offset `off`: the return value, and `f->off` after
    it. -/
def filewrite (ip : Fin NINODE) (u : Umem) (addr n off : Nat) : Sys State (Int × Nat) := do
  let r ← filewriteLoop sb ip u addr n (n + 1) 0 off
  pure (if r.1 = n then (n : Int) else -1, r.2)

/-! ## Directories -/

/-- Read the directory entry at `off` into `de`; `none` if less than an entry is
    there. -/
def readDirent (i : Fin NINODE) (off : Nat) : Sys State (Option Bytes) := do
  let r ← readi sb i (.kernel Bytes.zero) off DESIZE
  match r with
  | (16, .kernel de) => pure (some de)
  | _ => pure none

def dirlookupLoop (i : Fin NINODE) (name : Name) :
    Nat → Nat → Sys State (Option (Fin NINODE × Nat))
  | 0, _ => Sys.hang
  | fuel + 1, off => do
    let dp ← inode i
    if off < dp.din.size then do
      match ← readDirent sb i off with
      | none => Sys.panic "dirlookup read"
      | some de =>
        if deInum de 0 = 0 then dirlookupLoop i name fuel (off + DESIZE)
        else if namecmp name de 0 = 0 then do
          let ip ← iget dp.dev (deInum de 0)
          pure (some (ip, off))
        else dirlookupLoop i name fuel (off + DESIZE)
    else pure none

/-- Look for a directory entry in a directory; if found, its inode and its byte
    offset. -/
def dirlookup (i : Fin NINODE) (name : Name) : Sys State (Option (Fin NINODE × Nat)) := do
  let dp ← inode i
  if dp.din.type ≠ T_DIR then Sys.panic "dirlookup not DIR"
  else dirlookupLoop sb i name (dp.din.size / DESIZE + 2) 0

/-- The loop of `dirlink`: the offset of an empty entry, or the end. -/
def emptyDirent (i : Fin NINODE) : Nat → Nat → Sys State Nat
  | 0, _ => Sys.hang
  | fuel + 1, off => do
    let dp ← inode i
    if off < dp.din.size then do
      match ← readDirent sb i off with
      | none => Sys.panic "dirlink read"
      | some de => if deInum de 0 = 0 then pure off else emptyDirent i fuel (off + DESIZE)
    else pure off

/-- Write a new directory entry (name, inum) into the directory `dp`. -/
def dirlink (i : Fin NINODE) (name : Name) (inum : Nat) : Sys State Int := do
  match ← dirlookup sb i name with
  | some (ip, _) => do
    iput sb ip
    pure (-1)
  | none => do
    let dp ← inode i
    let off ← emptyDirent sb i (dp.din.size / DESIZE + 2) 0
    let r ← writei sb i (.kernel (mkDirent name inum)) off DESIZE
    if r ≠ DESIZE then pure (-1) else pure 0

/-! ## Paths -/

/-- A path: the bytes before its NUL. -/
abbrev Path := List UInt8

/-- `'/'` -/
abbrev SLASH : UInt8 := 47

/-- Copy the next path element from `path` into `name`: the element, cut off
    after `DIRSIZ` bytes, and the path after it without leading slashes. -/
def skipelem (path : Path) : Option (Name × Path) :=
  let p := path.dropWhile (· == SLASH)
  if p = [] then none
  else some ((p.takeWhile (· != SLASH)).take DIRSIZ,
    (p.dropWhile (· != SLASH)).dropWhile (· == SLASH))

def namexLoop (nameiparent : Bool) :
    Nat → Fin NINODE → Path → Name → Sys State (Option (Fin NINODE × Name))
  | 0, _, _, _ => Sys.hang
  | fuel + 1, ip, path, last =>
    match skipelem path with
    | none =>
      if nameiparent then do
        iput sb ip
        pure none
      else pure (some (ip, last))
    | some (name, path) => do
      ilock sb ip
      let dp ← inode ip
      if dp.din.type ≠ T_DIR then do
        iunlockput sb ip
        pure none
      else if nameiparent = true ∧ path = [] then do
        iunlock ip
        pure (some (ip, name))
      else do
        match ← dirlookup sb ip name with
        | none => do
          iunlockput sb ip
          pure none
        | some (next, _) => do
          iunlockput sb ip
          namexLoop nameiparent fuel next path name

/-- Look up and return the inode for a path name; with `nameiparent`, the inode
    for the parent and the final path element. -/
def namex (cwd : Fin NINODE) (path : Path) (nameiparent : Bool) :
    Sys State (Option (Fin NINODE × Name)) := do
  if path.head? = some SLASH then do
    let ip ← iget ROOTDEV ROOTINO
    namexLoop sb nameiparent (path.length + 1) ip path []
  else do
    let ip ← idup cwd
    namexLoop sb nameiparent (path.length + 1) ip path []

def namei (cwd : Fin NINODE) (path : Path) : Sys State (Option (Fin NINODE)) := do
  match ← namex sb cwd path false with
  | none => pure none
  | some (ip, _) => pure (some ip)

def nameiparent (cwd : Fin NINODE) (path : Path) : Sys State (Option (Fin NINODE × Name)) :=
  namex sb cwd path true

end Code

end Fs
end Xv6
