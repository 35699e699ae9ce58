import Xv6.Fs.Read
import Xv6.Fs.Stream
import Xv6.Proc.Kernel

/-!
# `fileread`

`read` on a pipe, on the console and on an inode. The count is an `int`;
`piperead` and `consoleread` compare with it as one, `readi` takes it as a
`uint`. A negative count is a large one there, and `readi` has only its own test
for overflow against it: it delivers the rest of the file.
-/

namespace Xv6
namespace Fs

open Function
open Sys

/-- The major number of the only device that `devsw` has a `read` for. -/
abbrev CONSOLE : Nat := 1

/-- The fields of `struct file` that a read uses. -/
structure OpenFile where
  type : FileType
  readable : Bool
  /-- FD_INODE and FD_DEVICE -/
  ip : Fin NINODE
  /-- FD_INODE -/
  off : BitVec 32
  /-- FD_DEVICE -/
  major : Int

/-- What a read works on. -/
structure Reading where
  file : OpenFile
  fs : State
  /-- `f->pipe` -/
  pipe : Pipe
  cons : Cons
  /-- the memory of the process that reads -/
  mem : Umem

/-- An `int` as a `uint`. -/
def toUint (n : Int) : Nat := (n % 2 ^ 32).toNat

/-- The memory behind a user pointer. -/
def Ptr.umem (old : Umem) : Ptr → Umem
  | .kernel _ => old
  | .user u _ => u

/-- A call on the file system. -/
def onFs {α : Type} (x : Sys State α) : Sys Reading α :=
  Sys.zoom Reading.fs (fun fs s => { s with fs }) x

theorem onFs_of_ok {α : Type} {x : Sys State α} {s : Reading} {a : α} {fs : State}
    (h : x s.fs = .ok (a, fs)) : onFs x s = .ok (a, { s with fs }) := zoom_of_ok h

/-- Read from file `f`; `addr` is a user virtual address. -/
def fileread (sb : Superblock) (pipeWakes : List (Bool × Pipe)) (consWakes : List (Bool × Cons))
    (addr : Nat) (n : Int) : Sys Reading Int := do
  let s ← Sys.reads id
  if s.file.readable = false then pure (-1)
  else match s.file.type with
    | .FD_PIPE =>
      match piperead addr n pipeWakes s.pipe s.mem with
      | none => Sys.hang
      | some c => do
        Sys.modify fun s => { s with pipe := c.ring, mem := c.mem }
        pure c.ret
    | .FD_DEVICE =>
      if s.file.major < 0 ∨ s.file.major ≥ NDEV ∨ s.file.major ≠ CONSOLE then pure (-1)
      else match consoleread addr n consWakes s.cons s.mem with
        | none => Sys.hang
        | some c => do
          Sys.modify fun s => { s with cons := c.ring, mem := c.mem }
          pure c.ret
    | .FD_INODE => do
      onFs (ilock sb s.file.ip)
      let r ← onFs (readi sb s.file.ip (.user s.mem addr) s.file.off.toNat (toUint n))
      Sys.modify fun s => { s with
        mem := r.2.umem s.mem
        file := { s.file with off := if r.1 > 0 then s.file.off + .ofInt 32 r.1 else s.file.off } }
      onFs (iunlock s.file.ip)
      pure r.1
    | .FD_NONE => Sys.panic "fileread"

/-- What a read of `n` bytes to `addr` may do: return at most `n`, and change no
    byte of user memory outside its buffer. -/
def ReadWithin (addr : Nat) (n r : Int) (u u' : Umem) : Prop :=
  r ≤ max n 0 ∧ ∀ va < 2 ^ 64, userByte u' va ≠ userByte u va →
    ∃ k : Nat, (k : Int) < n ∧ va = (addr + k) % 2 ^ 64

/-- A negative count is harmless: it is none, or it does not get to `readi`, or
    `readi` refuses it as an overflow, or there is nothing to read. -/
def CountOk (sb : Superblock) (n : Int) (s : Reading) : Prop :=
  0 ≤ n ∨ s.file.type ≠ .FD_INODE ∨ s.file.readable = false ∨
    (inodeOf sb s.fs s.file.ip).size ≤ s.file.off.toNat ∨ -n ≤ s.file.off.toNat

/-! ## User memory -/

/-- From `u` to `u'` only bytes at distance less than `n` from `va` change, and
    none below `lo`. -/
def OnlyIn (va lo n : Nat) (u u' : Umem) : Prop :=
  ∀ x < 2 ^ 64, userByte u' x ≠ userByte u x → ∃ k, lo ≤ k ∧ k < n ∧ x = (va + k) % 2 ^ 64

namespace OnlyIn

variable {va lo mid n : Nat} {u u' u'' : Umem}

theorem refl (va lo n : Nat) (u : Umem) : OnlyIn va lo n u u := fun _ _ h => absurd rfl h

theorem trans (h : OnlyIn va lo mid u u') (h' : OnlyIn va mid n u' u'') (hlo : lo ≤ mid)
    (hmid : mid ≤ n) : OnlyIn va lo n u u'' := by
  intro x hx hne
  by_cases hs : userByte u' x = userByte u x
  · obtain ⟨k, h1, h2, h3⟩ := h' x hx (hs ▸ hne)
    exact ⟨k, by omega, h2, h3⟩
  · obtain ⟨k, h1, h2, h3⟩ := h x hx hs
    exact ⟨k, h1, by omega, h3⟩

theorem mono (h : OnlyIn va lo mid u u') (hmid : mid ≤ n) : OnlyIn va lo n u u' := by
  intro x hx hne
  obtain ⟨k, h1, h2, h3⟩ := h x hx hne
  exact ⟨k, h1, by omega, h3⟩

end OnlyIn

theorem StoredAt.onlyIn {u u' : Umem} {va : Nat} {bs : List UInt8}
    (h : StoredAt u (va % 2 ^ 64) bs u') : OnlyIn va 0 bs.length u u' := by
  intro x hx hne
  -- `x` is some distance after `va`
  have haddr : (va % 2 ^ 64 + (x + 2 ^ 64 - va % 2 ^ 64) % 2 ^ 64) % 2 ^ 64 = x := by omega
  have hat := h ((x + 2 ^ 64 - va % 2 ^ 64) % 2 ^ 64) (Nat.mod_lt _ (by decide))
  rw [haddr] at hat
  refine ⟨(x + 2 ^ 64 - va % 2 ^ 64) % 2 ^ 64, Nat.zero_le _, ?_, by omega⟩
  by_contra hge
  rw [List.getElem?_eq_none (by omega), Option.none_or] at hat
  exact hne hat

theorem copyoutLoop_onlyIn (src : Bytes) (base : Nat) : ∀ (fuel : Nat) (u : Umem) (a o len : Nat),
    OnlyIn base a (a + len) u
      (copyoutLoop src fuel u ((base + a) % 2 ^ 64) o len).1 := by
  intro fuel
  induction fuel with
  | zero => exact fun u a o len => .refl _ _ _ u
  | succ fuel ih =>
    intro u a o len
    unfold copyoutLoop
    by_cases hpos : len > 0
    · simp only [if_pos hpos, sub_PGROUNDDOWN]
      generalize hva : (base + a) % 2 ^ 64 = va
      have hlt : va < 2 ^ 64 := hva ▸ Nat.mod_lt _ (by decide)
      cases hu : u (PGROUNDDOWN va) with
      | none => exact .refl _ _ _ u
      | some page =>
        simp only
        generalize hn : min (PGSIZE - va % PGSIZE) len = n
        have hstore : OnlyIn base a (a + n) u (update u (PGROUNDDOWN va)
            (some (page.blit (va % PGSIZE) src o n))) := by
          intro x hx hne
          rw [userByte_store u hu (by omega)] at hne
          by_cases hin : va ≤ x ∧ x < va + n
          · exact ⟨a + (x - va), by omega, by omega, by omega⟩
          · exact absurd (if_neg hin) hne
        have hnext : (PGROUNDDOWN va + PGSIZE) % 2 ^ 64 =
            (base + (a + (PGSIZE - va % PGSIZE))) % 2 ^ 64 := by
          unfold PGROUNDDOWN
          simp only [PGSIZE]
          omega
        by_cases hlast : n < len
        · have hfull : PGSIZE - va % PGSIZE = n := by omega
          rw [hnext, hfull]
          have hrest := ih (update u (PGROUNDDOWN va)
            (some (page.blit (va % PGSIZE) src o n))) (a + n) (o + n) (len - n)
          rw [show a + n + (len - n) = a + len by omega] at hrest
          exact hstore.trans hrest (by omega) (by omega)
        · have hzero : len - n = 0 := by omega
          rw [hzero]
          have hdone : ∀ w v p, copyoutLoop src fuel w v p 0 = (w, 0) := by
            intro w v p
            cases fuel <;> rfl
          rw [hdone]
          exact hstore.mono (by omega)
    · rw [if_neg hpos]
      exact .refl _ _ _ u

/-! ## `readi`, on any file -/

section Readi

variable {sb : Superblock} {i : Fin NINODE}

theorem readiLoop_within {va n : Nat} : ∀ {fuel tot off : Nat} {u : Umem} {s s' : State}
    {r : Int × Ptr}, tot ≤ n → readiLoop sb i n fuel tot off (.user u va) s = .ok (r, s') →
    r.1 ≤ n ∧ ∃ u', r.2 = .user u' va ∧ OnlyIn va tot n u u' := by
  intro fuel
  induction fuel with
  | zero =>
    intro tot off u s s' r _ hrun
    cases hrun
  | succ fuel ih =>
    intro tot off u s s' r htot hrun
    unfold readiLoop at hrun
    by_cases hlt : tot < n
    · rw [if_pos hlt] at hrun
      obtain ⟨addr, s1, _, hrun⟩ := bind_eq_ok.mp hrun
      by_cases haddr : addr = 0
      · rw [if_pos haddr] at hrun
        cases hrun
        exact ⟨Int.ofNat_le.mpr htot, u, rfl, .refl _ _ _ u⟩
      rw [if_neg haddr, bread, reads_bind_run] at hrun
      generalize hm : min (n - tot) (BSIZE - off % BSIZE) = m at hrun
      have hcopy : ∃ u', (eitherCopyout (.user u va) tot (s1.data addr) (off % BSIZE) m).1 =
          .user u' va ∧ OnlyIn va tot (tot + m) u u' :=
        ⟨_, rfl, copyoutLoop_onlyIn (s1.data addr) va m u tot (off % BSIZE) m⟩
      generalize eitherCopyout (.user u va) tot (s1.data addr) (off % BSIZE) m = c at hrun hcopy
      obtain ⟨u1, hu1, honly1⟩ := hcopy
      by_cases hfail : c.2 = -1
      · rw [if_pos hfail] at hrun
        cases hrun
        exact ⟨by omega, u1, hu1, honly1.mono (by omega)⟩
      · rw [if_neg hfail, hu1] at hrun
        obtain ⟨hret, u', hu', honly⟩ := ih (by omega) hrun
        exact ⟨hret, u', hu', honly1.trans honly (by omega) (by omega)⟩
    · rw [if_neg hlt] at hrun
      cases hrun
      exact ⟨Int.ofNat_le.mpr htot, u, rfl, .refl _ _ _ u⟩

/-- **`readi`** of `n` bytes to user memory, on any file: what it delivers is
    within the `n`, and within what the file has from `off` on. If `off + n`
    overflows it delivers nothing. -/
theorem readi_within {va off n : Nat} {u : Umem} {s s' : State} {r : Int × Ptr}
    (hoff : off < 2 ^ 32) (hn : n < 2 ^ 32)
    (hrun : readi sb i (.user u va) off n s = .ok (r, s')) :
    ∃ m u', r.1 ≤ (m : Nat) ∧ r.2 = .user u' va ∧ OnlyIn va 0 m u u' ∧ m ≤ n ∧
      m ≤ (s.itable i).din.size - off ∧ (2 ^ 32 ≤ off + n → m = 0) := by
  unfold readi at hrun
  rw [inode, reads_bind_run] at hrun
  split at hrun
  · cases hrun
    exact ⟨0, u, le_rfl, rfl, .refl _ _ _ u, Nat.zero_le _, Nat.zero_le _, fun _ => rfl⟩
  rename_i hno
  split at hrun
  · rename_i hbig
    obtain ⟨hret, u', hu', honly⟩ := readiLoop_within (Nat.zero_le _) hrun
    exact ⟨_, u', hret, hu', honly, by omega, le_rfl, fun h => by omega⟩
  · rename_i hsmall
    obtain ⟨hret, u', hu', honly⟩ := readiLoop_within (Nat.zero_le _) hrun
    exact ⟨_, u', hret, hu', honly, le_rfl, by omega, fun h => by omega⟩

end Readi

/-! ## Locking the inode -/

/-! ## `fileread` -/

theorem toUint_of_nonneg {n : Int} (h0 : 0 ≤ n) (h1 : n < 2 ^ 31) : toUint n = n.toNat := by
  unfold toUint
  omega

theorem toUint_of_neg {n : Int} (h0 : -2 ^ 31 ≤ n) (h1 : n < 0) :
    toUint n = (n + 2 ^ 32).toNat := by
  unfold toUint
  omega

theorem toUint_lt (n : Int) : toUint n < 2 ^ 32 := by
  unfold toUint
  omega

section ReadWithin

variable {addr : Nat} {n r : Int} {u u' : Umem}

theorem readWithin_of_eq (h : r ≤ 0) : ReadWithin addr n r u u :=
  ⟨le_trans h (le_max_right _ _), fun _ _ hne => absurd rfl hne⟩

theorem OnlyIn.readWithin {m : Nat} (h : OnlyIn addr 0 m u u') (hr : r ≤ m)
    (hm : m ≤ n.toNat) : ReadWithin addr n r u u' := by
  refine ⟨by omega, fun va hva hne => ?_⟩
  obtain ⟨k, _, hk, hx⟩ := h va hva hne
  exact ⟨k, by omega, hx⟩

theorem ReadOf.readWithin {σ : Type} {stream taken rest : List UInt8} {c : Copied σ} {k : Nat}
    (h : ReadOf addr n u stream taken rest c k) : ReadWithin addr n c.ret u c.mem := by
  have honly := h.drain.bytes.onlyIn
  have hle := h.drain.le
  have hret := h.ret
  rw [List.length_take, Nat.min_eq_left (hle.trans h.drain.goal_le)] at honly
  exact honly.readWithin (by omega) (by omega)

end ReadWithin

/-- How much of an inode a count that is harmless can get. -/
theorem CountOk.le {sb : Superblock} {n : Int} {s : Reading} (h : CountOk sb n s)
    (htype : s.file.type = .FD_INODE) (hread : s.file.readable ≠ false) (hlo : -2 ^ 31 ≤ n)
    (hhi : n < 2 ^ 31) {m : Nat} (hm : m ≤ toUint n)
    (hsize : m ≤ (inodeOf sb s.fs s.file.ip).size - s.file.off.toNat)
    (hover : 2 ^ 32 ≤ s.file.off.toNat + toUint n → m = 0) : m ≤ n.toNat := by
  by_cases h0 : 0 ≤ n
  · rwa [toUint_of_nonneg h0 hhi] at hm
  have hzero : m = 0 := by
    rcases h with h | h | h | h | h
    · exact absurd h h0
    · exact absurd htype h
    · exact absurd h hread
    · omega
    · exact hover (by rw [toUint_of_neg hlo (by omega)]; omega)
  omega

theorem fileread_within {sb : Superblock} {pipeWakes : List (Bool × Pipe)}
    {consWakes : List (Bool × Cons)} {addr : Nat} {n r : Int} {s s' : Reading}
    (hlo : -2 ^ 31 ≤ n) (hhi : n < 2 ^ 31) (hcount : CountOk sb n s)
    (hrun : fileread sb pipeWakes consWakes addr n s = .ok (r, s')) :
    ReadWithin addr n r s.mem s'.mem := by
  unfold fileread at hrun
  rw [reads_bind_run, id] at hrun
  by_cases hread : s.file.readable = false
  · rw [if_pos hread] at hrun
    cases hrun
    exact readWithin_of_eq (by decide)
  rw [if_neg hread] at hrun
  cases htype : s.file.type with
  | FD_NONE =>
    rw [htype] at hrun
    cases hrun
  | FD_PIPE =>
    rw [htype] at hrun
    dsimp only at hrun
    cases hp : piperead addr n pipeWakes s.pipe s.mem with
    | none =>
      rw [hp] at hrun
      cases hrun
    | some c =>
      rw [hp] at hrun
      cases hrun
      obtain ⟨k, hk⟩ := piperead_drain hhi hp
      exact hk.readWithin
  | FD_DEVICE =>
    rw [htype] at hrun
    dsimp only at hrun
    split at hrun
    · cases hrun
      exact readWithin_of_eq (by decide)
    cases hc : consoleread addr n consWakes s.cons s.mem with
    | none =>
      rw [hc] at hrun
      cases hrun
    | some c =>
      rw [hc] at hrun
      cases hrun
      obtain ⟨k, hk⟩ := consoleread_drain hhi hc
      exact hk.readWithin
  | FD_INODE =>
    rw [htype] at hrun
    obtain ⟨_, s1, hlock, hrun⟩ := bind_eq_ok.mp hrun
    obtain ⟨fs1, hlock1, rfl⟩ := zoom_eq_ok hlock
    obtain ⟨q, s2, hreadi, hrun⟩ := bind_eq_ok.mp hrun
    obtain ⟨fs2, hreadi1, rfl⟩ := zoom_eq_ok hreadi
    rw [modify_bind_run] at hrun
    obtain ⟨_, s3, hunlock, hrun⟩ := bind_eq_ok.mp hrun
    obtain ⟨fs3, _, rfl⟩ := zoom_eq_ok hunlock
    cases hrun
    obtain ⟨m, u', hret, hu', honly, hm, hsize, hover⟩ :=
      readi_within s.file.off.isLt (toUint_lt n) hreadi1
    rw [((ilock_wp sb _ _).ok hlock1).2, lock_self] at hsize
    show ReadWithin addr n q.1 s.mem (q.2.umem s.mem)
    rw [hu']
    exact honly.readWithin hret (hcount.le htype hread hlo hhi hm hsize hover)

/-- A file whose bytes can all be read: its inode can be locked and has a block
    for each of them. -/
structure Readable (sb : Superblock) (s : Reading) : Prop where
  type : s.file.type = .FD_INODE
  readable : s.file.readable = true
  lockable : Lockable sb s.fs s.file.ip
  size : (inodeOf sb s.fs s.file.ip).size < 2 ^ 32
  full : (inodeOf sb s.fs s.file.ip).Full s.fs.data

/-- A read of such a file to memory that is mapped returns what `readi` says. -/
theorem Readable.fileread_eq {sb : Superblock} {s : Reading} (h : Readable sb s) (addr : Nat)
    {n : Int} (hno : s.file.off.toNat + toUint n < 2 ^ 32) (hmap : ∀ va, userByte s.mem va ≠ none)
    (pipeWakes : List (Bool × Pipe)) (consWakes : List (Bool × Cons)) :
    ∃ s', fileread sb pipeWakes consWakes addr n s =
      .ok ((readLen (inodeOf sb s.fs s.file.ip).size s.file.off.toNat (toUint n) : Nat), s') := by
  have hlock := h.lockable.ilock
  have hentry := lock_self s.fs s.file.ip (inodeOf sb s.fs s.file.ip)
  have hdin := congrArg Inode.din hentry
  obtain ⟨q, hreadi, hbytes⟩ := readi_ok hdin h.full h.size hno (.user s.mem addr)
  obtain ⟨hret, _⟩ := hbytes fun a _ => hmap _
  have hunlock := iunlock_ok (by rw [hentry]) (by rw [hentry]; exact h.lockable.ref)
  unfold fileread
  rw [reads_bind_run, id, if_neg (by rw [h.readable]; decide), h.type]
  dsimp only
  rw [bind_of_ok (onFs_of_ok hlock), bind_of_ok (onFs_of_ok hreadi),
    modify_bind_run, bind_of_ok (onFs_of_ok hunlock), ← hret]
  exact ⟨_, rfl⟩

/-- **When `fileread` keeps to its count.** Every call that returns, for every
    kind of file, state, address and `int` count, returns at most `max(n, 0)`
    and changes no user byte outside its buffer, if the count is not negative,
    or the file is not an inode or not open for reading, or `f->off` is at or
    past the end, or `off + n` overflows. For a file with all its blocks that is
    also necessary. -/
theorem fileread_within_iff (sb : Superblock) (pipeWakes : List (Bool × Pipe))
    (consWakes : List (Bool × Cons)) (n : Int) (hlo : -2 ^ 31 ≤ n) (hhi : n < 2 ^ 31)
    (s : Reading) :
    (CountOk sb n s → ∀ addr r s', fileread sb pipeWakes consWakes addr n s = .ok (r, s') →
      ReadWithin addr n r s.mem s'.mem) ∧
    (Readable sb s →
      ((∀ u addr r s', fileread sb pipeWakes consWakes addr n { s with mem := u } = .ok (r, s') →
        ReadWithin addr n r u s'.mem) ↔ CountOk sb n s)) := by
  refine ⟨fun hcount addr r s' hrun => fileread_within hlo hhi hcount hrun, fun hs => ⟨?_, ?_⟩⟩
  · intro hall
    by_contra hcount
    simp only [CountOk, not_or, not_le, not_not] at hcount
    obtain ⟨hneg, _, _, hsize, hoff⟩ := hcount
    have huint := toUint_of_neg hlo hneg
    have hs' : Readable sb { s with mem := allMapped } :=
      ⟨hs.type, hs.readable, hs.lockable, hs.size, hs.full⟩
    obtain ⟨s', hrun⟩ := hs'.fileread_eq 0 (n := n)
      (by rw [huint]; show s.file.off.toNat + _ < _; omega)
      (fun _ => nofun) pipeWakes consWakes
    have hle := (hall allMapped 0 _ s' hrun).1
    change ((min (toUint n) ((inodeOf sb s.fs s.file.ip).size - s.file.off.toNat) : Nat) : Int) ≤ _
      at hle
    rw [huint] at hle
    omega
  · intro hcount u addr r s' hrun
    exact fileread_within (s := { s with mem := u }) hlo hhi hcount hrun

namespace Sample

/-- The file of two bytes, opened for reading by a process that has every
    page. -/
def reading : Reading where
  file := ⟨.FD_INODE, true, 0, 0, 0⟩
  fs := { state with itable := fun i => { state.itable i with locked := false } }
  pipe := oneByte
  cons := oneLine
  mem := allMapped

theorem reading_readable : Readable sb reading where
  type := rfl
  readable := rfl
  lockable := ⟨by decide, rfl, by decide⟩
  size := by decide
  full := file_full

end Sample

/-- The file of two bytes: a read of ten returns, and keeps to its buffer. -/
theorem fileread_within_ten : ∃ r s',
    fileread Sample.sb [] [] 0 10 Sample.reading = .ok (r, s') ∧
      ReadWithin 0 10 r Sample.reading.mem s'.mem := by
  obtain ⟨r, s', hrun, _⟩ := exists_of_check (x := fileread Sample.sb [] [] 0 10)
    (s := Sample.reading) (t := fun r _ => r == 2) (by decide +kernel)
  have hiff := (fileread_within_iff Sample.sb [] [] 10 (by decide) (by decide) Sample.reading).2
    Sample.reading_readable
  exact ⟨r, s', hrun, hiff.mpr (.inl (by decide)) _ 0 r s' hrun⟩

/-- **A read of -1 bytes** returns the two bytes of the file, and stores
    them. -/
theorem fileread_negative : ∃ s', fileread Sample.sb [] [] 0 (-1) Sample.reading = .ok (2, s') ∧
    userByte Sample.reading.mem 0 = some 0 ∧ userByte s'.mem 0 = some 7 ∧
    userByte s'.mem 1 = some 8 := by
  obtain ⟨r, s', hrun, hr⟩ := exists_of_check (x := fileread Sample.sb [] [] 0 (-1))
    (s := Sample.reading) (t := fun r s' => r == 2 && userByte s'.mem 0 == some 7 &&
      userByte s'.mem 1 == some 8) (by decide +kernel)
  simp only [Bool.and_eq_true, beq_iff_eq] at hr
  obtain ⟨⟨rfl, h0⟩, h1⟩ := hr
  exact ⟨s', hrun, rfl, h0, h1⟩

end Fs
end Xv6
