import Xv6.Lib.Ring
import Xv6.Lib.Run

/-!
# The virtio disk driver and its device

`kernel/virtio_disk.c`, and a device that reads and writes the same memory. Any
number of kernel threads call `virtio_disk_rw`, each with a buffer whose sleep
lock it holds, or run `virtio_disk_intr`; a thread's place in the code and the
locals it needs are its `Pc`. The code runs under `vdisk_lock`, but the device
does not take it, so the code is cut at every access to memory that the device
also accesses.

A thread in `sleep` goes on whenever the lock is free: it may be woken for no
reason, so nothing here rests on who calls `wakeup`.

The device takes requests off the avail ring in order, reading each chain as it
finds it, and completes what it has taken in any order: it writes status 0 where
the chain says, the used element, and then `used->idx`. A chain that is not a
header, a block and a status byte stops the model with a panic of its own.
`call`, `calls`, `completed` and `seen` are bookkeeping that neither side reads:
a number for each call, what the device completed, and how much of it
`virtio_disk_intr` has looked at.
-/

namespace Xv6

open Function

namespace Virtio

/-- this many virtio descriptors -/
def NUM : Nat := 8

def VRING_DESC_F_NEXT : BitVec 16 := 1
def VRING_DESC_F_WRITE : BitVec 16 := 2

/-- What a descriptor points at. -/
inductive Addr (B : Type) where
  | null
  /-- `&disk.ops[i]` -/
  | ops (i : Nat)
  /-- `b->data` -/
  | data (b : B)
  /-- `&disk.info[i].status` -/
  | status (i : Nat)

/-- `struct virtq_desc` -/
structure Desc (B : Type) where
  addr : Addr B
  len : Nat
  flags : BitVec 16
  next : Nat

inductive BlkType where
  | VIRTIO_BLK_T_IN
  | VIRTIO_BLK_T_OUT
  deriving DecidableEq

/-- `struct virtio_blk_req`, and the call that wrote it. -/
structure BlkReq where
  type : BlkType
  reserved : Nat
  sector : BitVec 64
  call : Nat
  deriving DecidableEq

/-- `disk.info[i]` -/
structure Info (B : Type) where
  b : Option B
  status : Nat

/-- A call of `virtio_disk_rw`. -/
structure Call (B : Type) where
  b : B
  blockno : BitVec 32
  write : Bool
  n : Nat

/-- `int idx[3]` -/
structure Idx where
  i0 : Nat
  i1 : Nat
  i2 : Nat

def Idx.toList (x : Idx) : List Nat := [x.i0, x.i1, x.i2]

/-- A request as the device read it. -/
structure Req (B : Type) where
  head : Nat
  op : BlkReq
  data : B
  status : Nat

/-- Where a kernel thread is. -/
inductive Pc (B : Type) where
  | idle
  | enter (c : Call B)
  /-- in `alloc3_desc`, with the descriptors it has -/
  | alloc (c : Call B) (got : List Nat)
  /-- in `alloc3_desc`, giving them back -/
  | undo (c : Call B) (rest : List Nat)
  /-- in `sleep(&disk.free[0], &disk.vdisk_lock)` -/
  | doze (c : Call B)
  | format (c : Call B) (x : Idx)
  | enqueue (c : Call B) (x : Idx)
  | publish (c : Call B) (x : Idx)
  /-- at `while(b->disk == 1)` -/
  | wait (c : Call B) (x : Idx)
  /-- in `sleep(b, &disk.vdisk_lock)` -/
  | asleep (c : Call B) (x : Idx)
  /-- in `free_chain` -/
  | freeing (c : Call B) (x : Idx) (i : Nat)
  | exit (c : Call B) (x : Idx)
  | intrEnter
  | intrLoop
  | intrEntry (id : Nat)
  | intrExit

structure State (P B : Type) where
  desc : Nat → Desc B
  /-- `avail->idx` -/
  availIdx : BitVec 16
  availRing : Nat → Nat
  /-- `used->idx` -/
  usedIdx : BitVec 16
  usedRing : Nat → Nat
  free : Nat → Bool
  /-- `disk.used_idx`: we've looked this far in used[2..NUM] -/
  lookedIdx : BitVec 16
  info : Nat → Info B
  ops : Nat → BlkReq
  /-- `b->disk` -/
  disk : B → Bool
  /-- `b->lock` is held by a caller -/
  locked : B → Bool
  /-- who holds `vdisk_lock` -/
  lock : Option P
  pc : P → Pc B
  /-- how far the device has read the avail ring -/
  lastAvail : BitVec 16
  /-- what the device has taken -/
  pending : List (Req B)
  /-- what it is putting in the used ring -/
  posting : Option (Req B)
  calls : Nat
  completed : List (Req B)
  seen : Nat

inductive Event (P B : Type) where
  /-- `p` calls `virtio_disk_rw(b, write)` -/
  | rw (p : P) (b : B) (blockno : BitVec 32) (write : Bool)
  /-- `p` runs `virtio_disk_intr` -/
  | intr (p : P)
  /-- the next step of `p` -/
  | run (p : P)
  /-- the device takes the next avail entry -/
  | consume
  /-- it completes the `k`-th request it has taken: status and used element -/
  | complete (k : Nat)
  /-- `used->idx += 1` -/
  | post

variable {P B : Type}

namespace Call

def type (c : Call B) : BlkType :=
  if c.write then .VIRTIO_BLK_T_OUT else .VIRTIO_BLK_T_IN

/-- `b->blockno * (BSIZE / 512)`, a product of 32 bits -/
def sector (c : Call B) : BitVec 64 := (c.blockno * 2).zeroExtend 64

/-- The header the call writes. -/
def op (c : Call B) : BlkReq := { type := c.type, reserved := 0, sector := c.sector, call := c.n }

/-- The first descriptor. -/
def desc0 (_ : Call B) (x : Idx) : Desc B :=
  { addr := .ops x.i0, len := 16, flags := VRING_DESC_F_NEXT, next := x.i1 }

/-- The second. -/
def desc1 (c : Call B) (x : Idx) : Desc B :=
  { addr := .data c.b
    len := 1024
    flags := (if c.write then 0 else VRING_DESC_F_WRITE) ||| VRING_DESC_F_NEXT
    next := x.i2 }

/-- The third. -/
def desc2 (_ : Call B) (x : Idx) : Desc B :=
  { addr := .status x.i0, len := 1, flags := VRING_DESC_F_WRITE, next := 0 }

end Call

namespace State

/-- `alloc_desc()` -/
def allocDesc (s : State P B) : Option (Nat × State P B) :=
  match (List.range NUM).find? fun i => s.free i with
  | some i => some (i, { s with free := update s.free i false })
  | none => none

/-- `free_desc(i)` -/
def freeDesc (s : State P B) (i : Nat) : Outcome (State P B) :=
  if i ≥ NUM then .panic "free_desc 1"
  else if s.free i = true then .panic "free_desc 2"
  else .next { s with
    desc := update s.desc i { addr := .null, len := 0, flags := 0, next := 0 }
    free := update s.free i true }

/-- Format the three descriptors, and record the buffer for
    `virtio_disk_intr`. -/
def fill [DecidableEq B] (s : State P B) (c : Call B) (x : Idx) : State P B :=
  { s with
    ops := update s.ops x.i0 c.op
    desc := update (update (update s.desc x.i0 (c.desc0 x))
      x.i1 (c.desc1 x)) x.i2 (c.desc2 x)
    info := update s.info x.i0 { b := some c.b, status := 0xff }
    disk := update s.disk c.b true }

variable [DecidableEq P]

def goto (s : State P B) (p : P) (l : Pc B) : State P B :=
  { s with pc := update s.pc p l }

@[simp] theorem goto_pc (s : State P B) (p q : P) (l : Pc B) :
    (s.goto p l).pc q = if q = p then l else s.pc q := by
  simp [goto, update_apply]

/-- `acquire(&disk.vdisk_lock)` -/
def acquire (s : State P B) (p : P) (l : Pc B) : Outcome (State P B) :=
  if s.lock = none then .next ({ s with lock := some p }.goto p l) else .disabled

/-- `release(&disk.vdisk_lock)` -/
def release (s : State P B) (p : P) (l : Pc B) : Outcome (State P B) :=
  .next ({ s with lock := none }.goto p l)

variable [DecidableEq B]

/-- The next step of thread `p`. -/
def run (s : State P B) (p : P) : Outcome (State P B) :=
  match s.pc p with
  | .idle => .disabled
  | .enter c => s.acquire p (.alloc c [])
  | .alloc c got =>
    match s.allocDesc with
    | none => .next (s.goto p (.undo c got))
    | some (i, s) =>
      match got with
      | [i0, i1] => .next (s.goto p (.format c ⟨i0, i1, i⟩))
      | _ => .next (s.goto p (.alloc c (got ++ [i])))
  | .undo c [] => s.release p (.doze c)
  | .undo c (j :: rest) => (s.freeDesc j).bind fun s => .next (s.goto p (.undo c rest))
  | .doze c => s.acquire p (.alloc c [])
  | .format c x => .next ((s.fill c x).goto p (.enqueue c x))
  | .enqueue c x =>
    .next ({ s with
      availRing := update s.availRing (s.availIdx.toNat % NUM) x.i0 }.goto p
        (.publish c x))
  | .publish c x => .next ({ s with availIdx := s.availIdx + 1 }.goto p (.wait c x))
  | .wait c x =>
    if s.disk c.b = true then s.release p (.asleep c x)
    else .next ({ s with
      info := update s.info x.i0 { s.info x.i0 with b := none } }.goto p
        (.freeing c x x.i0))
  | .asleep c x => s.acquire p (.wait c x)
  | .freeing c x i =>
    let flag := (s.desc i).flags
    let nxt := (s.desc i).next
    (s.freeDesc i).bind fun s =>
      if flag &&& VRING_DESC_F_NEXT ≠ 0 then .next (s.goto p (.freeing c x nxt))
      else .next (s.goto p (.exit c x))
  | .exit c _ => { s with locked := update s.locked c.b false }.release p .idle
  | .intrEnter => s.acquire p .intrLoop
  | .intrLoop =>
    if s.lookedIdx ≠ s.usedIdx then
      .next (s.goto p (.intrEntry (s.usedRing (s.lookedIdx.toNat % NUM))))
    else .next (s.goto p .intrExit)
  -- the device sees none of this
  | .intrEntry id =>
    if (s.info id).status ≠ 0 then .panic "virtio_disk_intr status"
    else
      match (s.info id).b with
      | none => .panic "virtio_disk_intr: null buffer"
      | some b =>
        .next ({ s with
          disk := update s.disk b false
          lookedIdx := s.lookedIdx + 1
          seen := s.seen + 1 }.goto p .intrLoop)
  | .intrExit => s.release p .idle

/-- The chain of a request as the device reads it: a header, a block and a
    status byte. -/
def readReq (s : State P B) (head : Nat) : Option (Req B) :=
  let d0 := s.desc head
  let d1 := s.desc d0.next
  let d2 := s.desc d1.next
  if d0.flags &&& VRING_DESC_F_NEXT ≠ 0 ∧ d1.flags &&& VRING_DESC_F_NEXT ≠ 0 ∧
      d2.flags &&& VRING_DESC_F_NEXT = 0 then
    match d0.addr, d1.addr, d2.addr with
    | .ops i, .data b, .status j => some { head := head, op := s.ops i, data := b, status := j }
    | _, _, _ => none
  else none

def step (s : State P B) : Event P B → Outcome (State P B)
  | .rw p b blockno write =>
    match s.pc p with
    | .idle =>
      if s.locked b = true then .disabled
      else .next ({ s with
        locked := update s.locked b true
        calls := s.calls + 1 }.goto p (.enter ⟨b, blockno, write, s.calls⟩))
    | _ => .disabled
  | .intr p =>
    match s.pc p with
    | .idle => .next (s.goto p .intrEnter)
    | _ => .disabled
  | .run p => s.run p
  | .consume =>
    if s.lastAvail ≠ s.availIdx then
      match s.readReq (s.availRing (s.lastAvail.toNat % NUM)) with
      | some r => .next { s with pending := s.pending ++ [r], lastAvail := s.lastAvail + 1 }
      | none => .panic "device: malformed chain"
    else .disabled
  | .complete k =>
    match s.pending[k]?, s.posting with
    | some r, none =>
      .next { s with
        pending := s.pending.eraseIdx k
        info := update s.info r.status { s.info r.status with status := 0 }
        usedRing := update s.usedRing (s.usedIdx.toNat % NUM) r.head
        posting := some r }
    | _, _ => .disabled
  | .post =>
    match s.posting with
    | some r =>
      .next { s with
        usedIdx := s.usedIdx + 1
        posting := none
        completed := s.completed ++ [r] }
    | none => .disabled

end State

end Virtio

end Xv6
