import Xv6.Fs.Transfer
import Xv6.Pipe.Fifo

/-!
# Reading from a pipe or the console

`piperead` and `consoleread` take bytes from a ring one at a time and copy each
to the user. Both hold the lock of their ring except while they sleep, and they
sleep only when the ring is empty; what it holds at the next wakeup is an input
(`wakes`), with whether the process has been killed before that sleep.

The index of the ring moves on before the byte is copied. A byte whose copy
fails is gone: it is neither in user memory nor in the ring.
-/

namespace Xv6

open List Nat

/-! ## The console's input -/

def INPUT_BUF_SIZE : Nat := 128

/-- `cons` without its lock. -/
structure Cons where
  buf : Nat → UInt8
  /-- Read index -/
  r : BitVec 32
  /-- Write index -/
  w : BitVec 32
  /-- Edit index -/
  e : BitVec 32

/-- The bytes that a read may take. -/
def Cons.contents (k : Cons) : List UInt8 := Ring.contents INPUT_BUF_SIZE k.buf k.r k.w

/-- `cons.buf[cons.r % INPUT_BUF_SIZE]` -/
def Cons.front (k : Cons) : UInt8 := k.buf (k.r.toNat % INPUT_BUF_SIZE)

/-- `cons.r++` -/
def Cons.drop (k : Cons) : Cons := { k with r := k.r + 1 }

namespace Fs

/-- `copyout(pagetable, va, &c, 1)` -/
def copyoutByte (u : Umem) (va : Nat) (c : UInt8) : Umem × Int :=
  copyoutLoop (fun _ => c) 1 u va 0 1

/-- What a read leaves. -/
structure Copied (σ : Type) where
  ret : Int
  /-- the ring it has read from -/
  ring : σ
  mem : Umem
  /-- what was in the ring at the wakeups -/
  arrived : List UInt8
  /-- it stopped because a copy to user memory failed -/
  fault : Bool

/-! ## `piperead` -/

/-- The loop of `piperead` that copies, with `i` bytes done and `fuel` to go. -/
def pipereadLoop (addr : Nat) : Nat → Nat → Pipe → Umem → Copied Pipe
  | 0, i, pi, u => ⟨i, pi, u, [], false⟩
  | fuel + 1, i, pi, u =>
    if pi.Empty then ⟨i, pi, u, [], false⟩
    else
      let x := copyoutByte u ((addr + i) % 2 ^ 64) pi.front
      if x.2 = -1 then ⟨i, pi.drop, x.1, [], true⟩
      else pipereadLoop addr fuel (i + 1) pi.drop x.1

/-- Read up to `n` bytes; `none` if nobody wakes it up again. -/
def piperead (addr : Nat) (n : Int) : List (Bool × Pipe) → Pipe → Umem → Option (Copied Pipe)
  | [], pi, u =>
    if pi.Empty ∧ pi.writeopen then none
    else some (pipereadLoop addr n.toNat 0 pi u)
  | (killed, pi') :: wakes, pi, u =>
    if pi.Empty ∧ pi.writeopen then
      if killed then some ⟨-1, pi, u, [], false⟩
      else (piperead addr n wakes pi' u).map fun c =>
        { c with arrived := pi'.contents ++ c.arrived }
    else some (pipereadLoop addr n.toNat 0 pi u)

/-! ## `consoleread` -/

/-- The console after `while (cons.r == cons.w)`. -/
structure Awake where
  /-- it is to return -1 -/
  killed : Bool
  cons : Cons
  wakes : List (Bool × Cons)
  arrived : List UInt8

def consoleWait : List (Bool × Cons) → Cons → Option Awake
  | [], k => if k.r = k.w then none else some ⟨false, k, [], []⟩
  | (killed, k') :: wakes, k =>
    if k.r = k.w then
      if killed then some ⟨true, k, wakes, []⟩
      else (consoleWait wakes k').map fun a => { a with arrived := k'.contents ++ a.arrived }
    else some ⟨false, k, (killed, k') :: wakes, []⟩

/-- The loop of `consoleread`, with `n` of `target` bytes to go. -/
def consolereadLoop (target : Nat) : Nat → Nat → List (Bool × Cons) → Cons → Umem →
    Option (Copied Cons)
  | 0, _, _, k, u => some ⟨target, k, u, [], false⟩
  | n + 1, dst, wakes, k, u => do
    let a ← consoleWait wakes k
    if a.killed then pure ⟨-1, a.cons, u, a.arrived, false⟩
    else
      let c := a.cons.front
      let i := target - (n + 1)
      if c = 4 then
        -- end-of-file, kept for the next call unless this one has read nothing
        pure ⟨i, if n + 1 < target then a.cons else a.cons.drop, u, a.arrived, false⟩
      else
        let x := copyoutByte u dst c
        if x.2 = -1 then pure ⟨i, a.cons.drop, x.1, a.arrived, true⟩
        else if c = 10 then pure ⟨i + 1, a.cons.drop, x.1, a.arrived, false⟩
        else do
          let d ← consolereadLoop target n ((dst + 1) % 2 ^ 64) a.wakes a.cons.drop x.1
          pure { d with arrived := a.arrived ++ d.arrived }

/-- Copy up to a whole input line to `dst`; `none` if nobody wakes it up
    again. -/
def consoleread (dst : Nat) (n : Int) (wakes : List (Bool × Cons)) (k : Cons) (u : Umem) :
    Option (Copied Cons) :=
  consolereadLoop n.toNat n.toNat (dst % 2 ^ 64) wakes k u

/-! ## One byte -/

section Byte

variable {u : Umem} {va : Nat}

theorem userByte_eq_none : userByte u va = none ↔ u (PGROUNDDOWN va) = none := by
  unfold userByte
  exact Option.map_eq_none_iff

theorem copyoutByte_none (c : UInt8) (h : userByte u va = none) : copyoutByte u va c = (u, -1) := by
  unfold copyoutByte copyoutLoop
  simp only [if_pos Nat.one_pos, userByte_eq_none.mp h]

theorem copyoutByte_some (c : UInt8) (h : userByte u va ≠ none) : (copyoutByte u va c).2 = 0 ∧
      ∀ x, userByte (copyoutByte u va c).1 x = if x = va then some c else userByte u x := by
  obtain ⟨page, hpage⟩ := Option.ne_none_iff_exists'.mp (mt userByte_eq_none.mpr h)
  have hroom : 1 ≤ PGSIZE - va % PGSIZE := Nat.sub_pos_of_lt (mod_lt _ (by decide))
  have hmin : min (PGSIZE - va % PGSIZE) 1 = 1 := Nat.min_eq_right hroom
  have hrun : copyoutByte u va c = (Function.update u (PGROUNDDOWN va)
      (some (page.blit (va % PGSIZE) (fun _ => c) 0 1)), 0) := by
    unfold copyoutByte copyoutLoop
    simp only [if_pos Nat.one_pos, hpage, sub_PGROUNDDOWN, hmin]
    rfl
  rw [hrun]
  refine ⟨rfl, fun x => ?_⟩
  rw [userByte_store u hpage hroom]
  by_cases hx : x = va
  · rw [if_pos (by omega), if_pos hx]
  · rw [if_neg (by omega), if_neg hx]

end Byte

/-- The bytes `bs` have been stored at `va`, and nothing else has changed. -/
def StoredAt (u : Umem) (va : Nat) (bs : List UInt8) (u' : Umem) : Prop :=
  ∀ a < 2 ^ 64, userByte u' ((va + a) % 2 ^ 64) = bs[a]?.or (userByte u ((va + a) % 2 ^ 64))

namespace StoredAt

variable {u u' u'' : Umem} {va : Nat} {bs : List UInt8}

theorem nil (u : Umem) (va : Nat) : StoredAt u va [] u := fun _ _ => rfl

theorem cons {c : UInt8} (hva : va < 2 ^ 64) (hlen : bs.length < 2 ^ 64)
    (h : ∀ x, userByte u' x = if x = va then some c else userByte u x)
    (hrest : StoredAt u' ((va + 1) % 2 ^ 64) bs u'') : StoredAt u va (c :: bs) u'' := by
  intro a ha
  cases a with
  | zero =>
    -- the last of the addresses after the first
    have hlast := hrest (2 ^ 64 - 1) (by omega)
    have haddr : ((va + 1) % 2 ^ 64 + (2 ^ 64 - 1)) % 2 ^ 64 = va := by omega
    rw [haddr, getElem?_eq_none (by omega), Option.none_or, h, if_pos rfl] at hlast
    rw [Nat.add_zero, mod_eq_of_lt hva, hlast]
    rfl
  | succ a =>
    have haddr : ((va + 1) % 2 ^ 64 + a) % 2 ^ 64 = (va + (a + 1)) % 2 ^ 64 := by omega
    have hnext := hrest a (by omega)
    rw [haddr, h, if_neg (by omega)] at hnext
    exact hnext

end StoredAt

/-! ## What a read takes -/

/-- The bytes that a read of the console takes to copy, as far as its count
    goes: those up to a newline, and none from a ^D on. -/
def line : List UInt8 → List UInt8
  | [] => []
  | c :: s => if c = 4 then [] else if c = 10 then [c] else c :: line s

theorem length_line_le : ∀ s : List UInt8, (line s).length ≤ s.length
  | [] => le_rfl
  | c :: s => by
    rw [line]
    split
    · exact Nat.zero_le _
    · split
      · exact succ_le_succ (Nat.zero_le _)
      · exact succ_le_succ (length_line_le s)

/-- The first `n` of the bytes have a place in user memory. -/
def Placed (u : Umem) (addr : Nat) (n : Int) (bs : List UInt8) : Prop :=
  ∀ a : Nat, (a : Int) < n → a < bs.length → userByte u ((addr + a) % 2 ^ 64) ≠ none

/-- A read of `stream` that goes for `goal` bytes has delivered `r` and left
    `rest`. -/
structure Drain (u : Umem) (va : Nat) (stream rest : List UInt8) (u' : Umem) (r goal : Nat)
    (fault : Bool) : Prop where
  le : r ≤ goal
  goal_le : goal ≤ stream.length
  bytes : StoredAt u va (stream.take r) u'
  mapped : ∀ a < r, userByte u ((va + a) % 2 ^ 64) ≠ none
  fine : fault = false → goal ≤ r
  failed : fault = true → r < goal ∧ userByte u ((va + r) % 2 ^ 64) = none ∧
    rest = stream.drop (r + 1)

namespace Drain

variable {u u' u'' : Umem} {va r goal : Nat} {stream rest : List UInt8} {fault : Bool}

theorem stop (u : Umem) (va : Nat) (stream rest : List UInt8) :
    Drain u va stream rest u 0 0 false :=
  ⟨le_rfl, Nat.zero_le _, .nil u va, fun _ h => absurd h (Nat.not_lt_zero _), fun _ => le_rfl,
    nofun⟩

theorem fail {c : UInt8} (hva : va < 2 ^ 64) (h : userByte u va = none)
    (hgoal : goal ≤ rest.length) : Drain u va (c :: rest) rest u 0 (goal + 1) true :=
  ⟨Nat.zero_le _, succ_le_succ hgoal, .nil u va, fun _ h => absurd h (Nat.not_lt_zero _), nofun,
    fun _ => ⟨succ_pos _, by rwa [Nat.add_zero, mod_eq_of_lt hva], rfl⟩⟩

theorem cons {c : UInt8} (hva : va < 2 ^ 64) (hr : goal + 1 < 2 ^ 64) (hmap : userByte u va ≠ none)
    (hc : ∀ x, userByte u' x = if x = va then some c else userByte u x)
    (h : Drain u' ((va + 1) % 2 ^ 64) stream rest u'' r goal fault) :
    Drain u va (c :: stream) rest u'' (r + 1) (goal + 1) fault := by
  have hle := h.le
  -- the addresses that come after
  have hmap' : ∀ a < 2 ^ 64 - 1, userByte u' (((va + 1) % 2 ^ 64 + a) % 2 ^ 64) =
      userByte u ((va + (a + 1)) % 2 ^ 64) := by
    intro a ha
    have haddr : ((va + 1) % 2 ^ 64 + a) % 2 ^ 64 = (va + (a + 1)) % 2 ^ 64 := by omega
    rw [haddr, hc, if_neg (by omega)]
  have hlen : (stream.take r).length < 2 ^ 64 := by
    rw [length_take]
    omega
  refine ⟨succ_le_succ h.le, succ_le_succ h.goal_le, StoredAt.cons hva hlen hc h.bytes,
    fun a ha => ?_, fun hf => succ_le_succ (h.fine hf), fun hf => ?_⟩
  · cases a with
    | zero => rwa [Nat.add_zero, mod_eq_of_lt hva]
    | succ a =>
      rw [← hmap' a (by omega)]
      exact h.mapped a (by omega)
  · obtain ⟨hlt, hnone, hrest⟩ := h.failed hf
    rw [hmap' r (by omega)] at hnone
    exact ⟨succ_lt_succ hlt, hnone, hrest⟩

end Drain

/-- A read of up to `n` bytes of `stream`, of which it takes no more than
    `taken`, has delivered `r`, or it has been killed. -/
structure ReadOf {σ : Type} (addr : Nat) (n : Int) (u : Umem) (stream taken rest : List UInt8)
    (c : Copied σ) (r : Nat) : Prop where
  ret : c.ret = (r : Nat) ∨ (c.ret = -1 ∧ c.fault = false)
  drain : Drain u (addr % 2 ^ 64) stream rest c.mem r (min n.toNat taken.length) c.fault

/-- **A read keeps what it has not delivered exactly if every byte has a
    place**, which is to say that no copy fails. -/
theorem ReadOf.kept_iff {σ : Type} {addr : Nat} {n : Int} {u : Umem}
    {stream taken rest : List UInt8} {c : Copied σ} {r : Nat}
    (h : ReadOf addr n u stream taken rest c r) :
    (c.fault = true ↔ ¬ Placed u addr n taken) ∧
    ((c.fault = true → rest = stream.drop c.ret.toNat) ↔ Placed u addr n taken) ∧
    (c.fault = true → rest = stream.drop (c.ret.toNat + 1)) := by
  have hword : ∀ a, (addr % 2 ^ 64 + a) % 2 ^ 64 = (addr + a) % 2 ^ 64 := fun a => by omega
  have hle := h.drain.goal_le
  cases hf : c.fault with
  | false =>
    have hfine := h.drain.fine hf
    have hplaced : Placed u addr n taken := fun a h1 h2 => by
      rw [← hword]
      exact h.drain.mapped a (by omega)
    exact ⟨iff_of_false nofun (not_not.mpr hplaced), iff_of_true nofun hplaced, nofun⟩
  | true =>
    obtain ⟨hlt, hnone, hrest⟩ := h.drain.failed hf
    rw [hword] at hnone
    have hret : c.ret.toNat = r := by
      rcases h.ret with hr | ⟨_, hr⟩
      · rw [hr, Int.toNat_natCast]
      · cases hf.symm.trans hr
    have hnot : ¬ Placed u addr n taken := fun hp => hp r (by omega) (by omega) hnone
    rw [hret]
    refine ⟨iff_of_true rfl hnot, iff_of_false (fun hkept => ?_) hnot, fun _ => hrest⟩
    have hlen := congrArg List.length (hrest.symm.trans (hkept rfl))
    rw [length_drop, length_drop] at hlen
    omega

theorem Pipe.contents_of_empty {pi : Pipe} (h : pi.Empty) : pi.contents = [] := by
  refine eq_nil_of_length_eq_zero ?_
  rw [Pipe.contents, Ring.contents_length, Ring.used_eq_zero]
  exact h

/-- **The loop of `piperead`**: it goes for `n` bytes or for all that are
    there. -/
theorem pipereadLoop_drain (addr : Nat) : ∀ (fuel i : Nat) (pi : Pipe) (u : Umem),
    fuel + 1 < 2 ^ 64 →
    ∃ r, (pipereadLoop addr fuel i pi u).ret = (i + r : Nat) ∧
      (pipereadLoop addr fuel i pi u).arrived = [] ∧
      Drain u ((addr + i) % 2 ^ 64) pi.contents (pipereadLoop addr fuel i pi u).ring.contents
        (pipereadLoop addr fuel i pi u).mem r (min fuel pi.contents.length)
        (pipereadLoop addr fuel i pi u).fault := by
  intro fuel
  induction fuel with
  | zero =>
    intro i pi u _
    rw [Nat.zero_min]
    exact ⟨0, rfl, rfl, .stop _ _ _ _⟩
  | succ fuel ih =>
    intro i pi u hfuel
    have hva : (addr + i) % 2 ^ 64 < 2 ^ 64 := mod_lt _ (by decide)
    unfold pipereadLoop
    by_cases hempty : pi.Empty
    · rw [if_pos hempty, Pipe.contents_of_empty hempty, length_nil, Nat.min_zero]
      exact ⟨0, rfl, rfl, .stop _ _ _ _⟩
    · rw [if_neg hempty, Pipe.contents_drop hempty, length_cons, Nat.succ_min_succ]
      dsimp only
      cases hb : userByte u ((addr + i) % 2 ^ 64) with
      | none =>
        rw [copyoutByte_none _ hb, if_pos rfl]
        exact ⟨0, rfl, rfl, .fail hva hb (Nat.min_le_right _ _)⟩
      | some c =>
        have hmap : userByte u ((addr + i) % 2 ^ 64) ≠ none := by
          rw [hb]
          exact nofun
        obtain ⟨hok, hbytes⟩ := copyoutByte_some pi.front hmap
        rw [if_neg (by rw [hok]; decide)]
        obtain ⟨r, hret, harr, hd⟩ := ih (i + 1) pi.drop
          (copyoutByte u ((addr + i) % 2 ^ 64) pi.front).1 (by omega)
        have hnext : (addr + (i + 1)) % 2 ^ 64 = ((addr + i) % 2 ^ 64 + 1) % 2 ^ 64 := by omega
        rw [hnext] at hd
        exact ⟨r + 1, by rw [hret]; congr 1; omega, harr, hd.cons hva (by omega) hmap hbytes⟩

/-- **`piperead`**, from whatever it finds at the last wakeup. -/
theorem piperead_drain {addr : Nat} {n : Int} (hn : n < 2 ^ 31) :
    ∀ {wakes : List (Bool × Pipe)} {pi : Pipe} {u : Umem} {c : Copied Pipe},
    piperead addr n wakes pi u = some c → ∃ r,
      ReadOf addr n u (pi.contents ++ c.arrived) (pi.contents ++ c.arrived) c.ring.contents c
        r := by
  have hloop : ∀ (pi : Pipe) (u : Umem) (c : Copied Pipe), pipereadLoop addr n.toNat 0 pi u = c →
      ∃ r, ReadOf addr n u (pi.contents ++ c.arrived) (pi.contents ++ c.arrived) c.ring.contents c
        r := by
    rintro pi u c rfl
    obtain ⟨r, hret, harr, hd⟩ := pipereadLoop_drain addr n.toNat 0 pi u (by omega)
    rw [Nat.zero_add] at hret
    refine ⟨r, .inl hret, ?_⟩
    rw [harr, append_nil]
    exact hd
  intro wakes
  induction wakes with
  | nil =>
    intro pi u c hrun
    unfold piperead at hrun
    split at hrun
    · cases hrun
    · exact hloop pi u c (Option.some.inj hrun)
  | cons x wakes ih =>
    obtain ⟨killed, pi'⟩ := x
    intro pi u c hrun
    unfold piperead at hrun
    split at hrun
    · rename_i hsleep
      have hnil := Pipe.contents_of_empty hsleep.1
      split at hrun
      · cases hrun
        refine ⟨0, .inr ⟨rfl, rfl⟩, ?_⟩
        rw [hnil, append_nil, length_nil, Nat.min_zero]
        exact .stop _ _ _ _
      · obtain ⟨c', hrun', rfl⟩ := Option.map_eq_some_iff.mp hrun
        rw [hnil, nil_append]
        obtain ⟨r, h⟩ := ih hrun'
        exact ⟨r, h.ret, h.drain⟩
    · exact hloop pi u c (Option.some.inj hrun)

/-! ## The console -/

theorem inputBuf_dvd : INPUT_BUF_SIZE ∣ 2 ^ 32 := by decide

theorem Cons.contents_of_eq {k : Cons} (h : k.r = k.w) : k.contents = [] := by
  refine eq_nil_of_length_eq_zero ?_
  rw [Cons.contents, Ring.contents_length, Ring.used_eq_zero]
  exact h

theorem Cons.contents_drop {k : Cons} (h : k.r ≠ k.w) : k.contents = k.front :: k.drop.contents :=
  Ring.contents_pop inputBuf_dvd k.buf (Nat.pos_of_ne_zero fun h0 => h (Ring.used_eq_zero.mp h0))

theorem consoleWait_contents : ∀ {wakes : List (Bool × Cons)} {k : Cons} {a : Awake},
    consoleWait wakes k = some a →
    k.contents ++ a.arrived = a.cons.contents ∧
      (a.killed = true ∧ a.cons.r = a.cons.w ∨ a.killed = false ∧ a.cons.r ≠ a.cons.w) := by
  intro wakes
  induction wakes with
  | nil =>
    intro k a hrun
    unfold consoleWait at hrun
    split at hrun
    · cases hrun
    · rename_i hne
      cases hrun
      exact ⟨append_nil _, .inr ⟨rfl, hne⟩⟩
  | cons x wakes ih =>
    obtain ⟨killed, k'⟩ := x
    intro k a hrun
    unfold consoleWait at hrun
    split at hrun
    · rename_i hsleep
      split at hrun
      · cases hrun
        exact ⟨append_nil _, .inl ⟨rfl, hsleep⟩⟩
      · obtain ⟨a', hrun', rfl⟩ := Option.map_eq_some_iff.mp hrun
        obtain ⟨hcont, hne⟩ := ih hrun'
        refine ⟨?_, hne⟩
        rw [Cons.contents_of_eq hsleep]
        exact hcont
    · rename_i hne
      cases hrun
      exact ⟨append_nil _, .inr ⟨rfl, hne⟩⟩

/-- **The loop of `consoleread`**: it goes for `n` bytes of a line. -/
theorem consolereadLoop_drain {target : Nat} (htarget : target + 1 < 2 ^ 64) :
    ∀ {n dst : Nat} {wakes : List (Bool × Cons)} {k : Cons} {u : Umem} {c : Copied Cons},
    n ≤ target → dst < 2 ^ 64 → consolereadLoop target n dst wakes k u = some c →
    ∃ r, (c.ret = (target - n + r : Nat) ∨ (c.ret = -1 ∧ c.fault = false)) ∧
      Drain u dst (k.contents ++ c.arrived) c.ring.contents c.mem r
        (min n (line (k.contents ++ c.arrived)).length) c.fault := by
  intro n
  induction n with
  | zero =>
    intro dst wakes k u c _ _ hrun
    cases hrun
    rw [Nat.zero_min]
    exact ⟨0, .inl rfl, .stop _ _ _ _⟩
  | succ n ih =>
    intro dst wakes k u c hle hdst hrun
    unfold consolereadLoop at hrun
    obtain ⟨a, hwait, hrun⟩ := Option.bind_eq_some_iff.mp hrun
    obtain ⟨hcont, ⟨hk, hempty⟩ | ⟨hk, hne⟩⟩ := consoleWait_contents hwait
    · rw [hk, if_pos rfl] at hrun
      cases hrun
      rw [hcont, Cons.contents_of_eq hempty, line, length_nil, Nat.min_zero]
      exact ⟨0, .inr ⟨rfl, rfl⟩, .stop _ _ _ _⟩
    have hpop := Cons.contents_drop hne
    rw [hk] at hrun
    simp only [Bool.false_eq_true, if_false] at hrun
    split at hrun
    · rename_i heof
      cases hrun
      rw [hcont, hpop, line, if_pos heof, length_nil, Nat.min_zero]
      exact ⟨0, .inl rfl, .stop _ _ _ _⟩
    rename_i heof
    have hline : ∀ s, line (a.cons.front :: s) =
        a.cons.front :: if a.cons.front = 10 then [] else line s := by
      intro s
      rw [line, if_neg heof]
      split <;> rfl
    cases hb : userByte u dst with
    | none =>
      rw [copyoutByte_none _ hb, if_pos rfl] at hrun
      cases hrun
      rw [hcont, hpop, hline, length_cons, Nat.succ_min_succ]
      refine ⟨0, .inl rfl, .fail hdst hb ((Nat.min_le_right _ _).trans ?_)⟩
      split
      · exact Nat.zero_le _
      · exact length_line_le _
    | some b =>
      have hmap : userByte u dst ≠ none := by
        rw [hb]
        exact nofun
      obtain ⟨hok, hbytes⟩ := copyoutByte_some a.cons.front hmap
      rw [if_neg (by rw [hok]; decide)] at hrun
      split at hrun
      · rename_i hnl
        cases hrun
        rw [hcont, hpop, hline, if_pos hnl, length_cons, Nat.succ_min_succ, length_nil,
          Nat.min_zero]
        exact ⟨1, .inl rfl, (Drain.stop _ _ _ _).cons hdst (by omega) hmap hbytes⟩
      · rename_i hnl
        obtain ⟨d, hrec, hend⟩ := Option.bind_eq_some_iff.mp hrun
        cases hend
        obtain ⟨r, hret, hd⟩ := ih (by omega) (mod_lt _ (by decide)) hrec
        refine ⟨r + 1, hret.imp_left fun h => ?_, ?_⟩
        · rw [h]
          congr 1
          omega
        · show Drain u dst (k.contents ++ (a.arrived ++ d.arrived)) _ _ _
            (min (n + 1) (line (k.contents ++ (a.arrived ++ d.arrived))).length) _
          rw [← append_assoc, hcont, hpop, cons_append, hline, if_neg hnl, length_cons,
            Nat.succ_min_succ]
          exact hd.cons hdst (by omega) hmap hbytes

/-- **`consoleread`.** -/
theorem consoleread_drain {addr : Nat} {n : Int} (hn : n < 2 ^ 31) {wakes : List (Bool × Cons)}
    {k : Cons} {u : Umem} {c : Copied Cons} (hrun : consoleread addr n wakes k u = some c) :
    ∃ r, ReadOf addr n u (k.contents ++ c.arrived) (line (k.contents ++ c.arrived))
      c.ring.contents c r := by
  obtain ⟨r, hret, hd⟩ := consolereadLoop_drain (by omega) le_rfl (Nat.mod_lt _ (by decide)) hrun
  rw [Nat.sub_self, Nat.zero_add] at hret
  exact ⟨r, hret, hd⟩

/-- **A byte that cannot be delivered is consumed.** For every state of the pipe
    or console, every `n` and address and every memory: a copy fails exactly if
    one of the bytes that the read goes for has no place in user memory. What is
    left in the ring then is what was there, and came while it slept, without
    the bytes that it returns and one more; so what it has not delivered is kept
    exactly if every byte has a place. A pipe is read up to `n` bytes or until
    it is empty, the console up to `n` bytes of a line. -/
theorem read_keeps_undelivered_iff (addr : Nat) (n : Int) (hn : n < 2 ^ 31) (u : Umem) :
    (∀ wakes pi (c : Copied Pipe), piperead addr n wakes pi u = some c →
      (c.fault = true ↔ ¬ Placed u addr n (pi.contents ++ c.arrived)) ∧
      ((c.fault = true → c.ring.contents = (pi.contents ++ c.arrived).drop c.ret.toNat) ↔
        Placed u addr n (pi.contents ++ c.arrived)) ∧
      (c.fault = true →
        c.ring.contents = (pi.contents ++ c.arrived).drop (c.ret.toNat + 1))) ∧
    (∀ wakes k (c : Copied Cons), consoleread addr n wakes k u = some c →
      (c.fault = true ↔ ¬ Placed u addr n (line (k.contents ++ c.arrived))) ∧
      ((c.fault = true → c.ring.contents = (k.contents ++ c.arrived).drop c.ret.toNat) ↔
        Placed u addr n (line (k.contents ++ c.arrived))) ∧
      (c.fault = true →
        c.ring.contents = (k.contents ++ c.arrived).drop (c.ret.toNat + 1))) := by
  refine ⟨fun wakes pi c hrun => ?_, fun wakes k c hrun => ?_⟩
  · obtain ⟨r, h⟩ := piperead_drain hn hrun
    exact h.kept_iff
  · obtain ⟨r, h⟩ := consoleread_drain hn hrun
    exact h.kept_iff

/-- A pipe with one byte in it. -/
def oneByte : Pipe := ⟨fun _ => 7, 0, 1, true, true⟩

/-- A console with a line of two bytes. -/
def oneLine : Cons := ⟨fun i => if i = 0 then 7 else 10, 0, 2, 2⟩

/-- A process that has every page. -/
def allMapped : Umem := fun _ => some Bytes.zero

/-- Reads into memory that is mapped. -/
theorem read_keeps_undelivered_mapped : ∃ (c : Copied Pipe) (d : Copied Cons),
    piperead 0 1 [] oneByte allMapped = some c ∧ c.ret = 1 ∧
      (c.fault = true → c.ring.contents = (oneByte.contents ++ c.arrived).drop c.ret.toNat) ∧
    consoleread 0 2 [] oneLine allMapped = some d ∧ d.ret = 2 ∧
      (d.fault = true → d.ring.contents = (oneLine.contents ++ d.arrived).drop d.ret.toNat) := by
  have hmap : ∀ va, userByte allMapped va ≠ none := fun va => nofun
  obtain ⟨c, hc⟩ : ∃ c, piperead 0 1 [] oneByte allMapped = some c := ⟨_, rfl⟩
  obtain ⟨d, hd⟩ : ∃ d, consoleread 0 2 [] oneLine allMapped = some d := ⟨_, rfl⟩
  have hpipe := (read_keeps_undelivered_iff 0 1 (by decide) allMapped).1 [] oneByte c hc
  have hcons := (read_keeps_undelivered_iff 0 2 (by decide) allMapped).2 [] oneLine d hd
  refine ⟨c, d, hc, ?_, hpipe.2.1.mpr fun a _ _ => hmap _, hd, ?_,
    hcons.2.1.mpr fun a _ _ => hmap _⟩
  · exact (congrArg (fun x => (x.map Copied.ret).getD 0) hc).symm
  · exact (congrArg (fun x => (x.map Copied.ret).getD 0) hd).symm

/-- **Lost bytes**: reads of one byte to an address that is not mapped return 0
    and take it. -/
theorem read_loses_byte : ∃ (c : Copied Pipe) (d : Copied Cons),
    piperead 0 1 [] oneByte (fun _ => none) = some c ∧ c.ret = 0 ∧ c.fault = true ∧
      oneByte.contents = [7] ∧ c.ring.contents = [] ∧
    consoleread 0 1 [] oneLine (fun _ => none) = some d ∧ d.ret = 0 ∧ d.fault = true ∧
      oneLine.contents = [7, 10] ∧ d.ring.contents = [10] :=
  ⟨_, _, rfl, rfl, rfl, rfl, rfl, rfl, rfl, rfl, rfl, rfl⟩

end Fs
end Xv6
