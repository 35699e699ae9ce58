import Mathlib.Data.Fintype.Basic
import Xv6.Lib.Outline
import Xv6.Pipe.Code

/-!
# A pipe is a lossless bounded FIFO

What is in the pipe is the ring's `contents` between the two counters, which
wrap at `2^32`; since `PIPESIZE` divides that, nothing moves when they do. The
invariant `Fifo` says that the bytes delivered followed by the bytes in the pipe
are the bytes accepted, in that order, and for each call under way how far it
has got: a writer at index `i` has had exactly the first `i` bytes of its buffer
accepted since it began, whoever else's bytes came in between.

User memory is mapped here (`Mapped`). Where a `copyout` fails, `piperead` has
already counted the byte as read, and it is lost.
-/

namespace Xv6

open List

namespace Pipe

/-- The bytes `data[nread..nwrite)`. -/
def contents (pi : Pipe) : List UInt8 := Ring.contents PIPESIZE pi.data pi.nread pi.nwrite

/-- `nwrite - nread`, on 32 bits -/
def used (pi : Pipe) : Nat := Ring.used pi.nread pi.nwrite

theorem pipesize_dvd : PIPESIZE ∣ 2 ^ 32 := by decide

theorem pipesize_lt : PIPESIZE < 2 ^ 32 := by decide

variable {pi : Pipe}

theorem full_iff : pi.Full ↔ pi.used = PIPESIZE := by
  have hadd : (pi.nread + BitVec.ofNat 32 PIPESIZE).toNat =
      (pi.nread.toNat + PIPESIZE) % 2 ^ 32 := by
    rw [BitVec.toNat_add, BitVec.toNat_ofNat, Nat.mod_eq_of_lt pipesize_lt]
  constructor
  · intro h
    refine Ring.used_unique pipesize_lt ?_
    rw [← hadd, ← show pi.nwrite = _ from h]
  · intro h
    apply BitVec.eq_of_toNat_eq
    rw [hadd, ← Ring.add_used pi.nread pi.nwrite, ← h]
    rfl

theorem used_pos (h : ¬ pi.Empty) : 0 < pi.used :=
  Nat.pos_of_ne_zero fun h0 => h (Ring.used_eq_zero.mp h0)

theorem contents_put (ch : UInt8) (h : pi.used < PIPESIZE) :
    (pi.put ch).contents = pi.contents ++ [ch] :=
  Ring.contents_push pipesize_dvd pipesize_lt pi.data ch h

theorem used_put (ch : UInt8) (h : pi.used < PIPESIZE) : (pi.put ch).used = pi.used + 1 := by
  have hlt : Ring.used pi.nread pi.nwrite + 1 < 2 ^ 32 := Nat.lt_of_le_of_lt h pipesize_lt
  exact Ring.used_push hlt

theorem contents_drop (h : ¬ pi.Empty) : pi.contents = pi.front :: pi.drop.contents :=
  Ring.contents_pop pipesize_dvd pi.data (used_pos h)

theorem used_drop (h : ¬ pi.Empty) : pi.drop.used = pi.used - 1 :=
  Ring.used_pop (used_pos h)

/-! ## Calls with mapped memory -/

def Write.Mapped (c : Write) : Prop := ∀ i, i < c.n.toNat → (c.src i).isSome = true

def Read.Mapped (c : Read) : Prop := ∀ i, i < c.n.toNat → c.dst i = true

def Call.Mapped : Call → Prop
  | write c => c.Mapped
  | read c => c.Mapped
  | close _ => True

instance (x : Call) : Decidable x.Mapped := by
  cases x <;> unfold Call.Mapped <;> (try unfold Write.Mapped) <;> (try unfold Read.Mapped) <;>
    infer_instance

/-- The pipe's processes, calling with mapped addresses only. -/
def mapped (P : Type) [DecidableEq P] : Program P Chan (State P) Call :=
  (program P).restrict fun _ x _ => x.Mapped

variable {P : Type} [DecidableEq P]

/-- The bytes of `p` that were accepted since it began its call. -/
def State.taken (d : State P) (p : P) : List UInt8 :=
  ((d.accepted.drop (d.since p)).filter fun x => x.1 = p).map Prod.snd

/-- How far the call of `p` has got. -/
def Progress (d : State P) (p : P) : Pc → Prop
  | .writeEnter c => c.Mapped ∧ d.taken p = []
  | .writeWhile c i _ | .writeKilled c i _ | .writeByte c i _ | .writeFull c i | .writeSleep c i
  | .writeDone c i | .writeRelease c i =>
    c.Mapped ∧ (d.taken p).map some = (List.range i).map c.src
  | .readEnter c | .readWhile c | .readKilled c | .readSleep c | .readCopy c _ | .readDone c _ =>
    c.Mapped
  | _ => True

/-- What a reader that holds the lock knows of a pipe from which it has read
    nothing. -/
def Nothing (pi : Pipe) : Pc → Prop
  | .readCopy _ 0 => pi.Empty → pi.writeopen = false
  | .readDone c 0 | .readRelease c 0 => 0 < c.n → pi.Empty ∧ pi.writeopen = false
  | _ => True

/-- **The invariant of a pipe** that began as `pi₀`. -/
structure Fifo (pi₀ : Pipe) (d : State P) (h : Option P) : Prop where
  bounded : d.pipe.used ≤ PIPESIZE
  order : pi₀.contents ++ d.accepted.map Prod.snd = d.delivered.map Prod.snd ++ d.pipe.contents
  since : ∀ p, d.since p ≤ d.accepted.length
  progress : ∀ p, Progress d p (d.pc p)
  nothing : ∀ p, h = some p → Nothing d.pipe (d.pc p)
  away : Away d h

variable {pi₀ : Pipe} {d d' : State P} {p : P} {h h' : Option P}

theorem Progress.congr {l : Pc} (ht : d'.taken p = d.taken p) (hp : Progress d p l) :
    Progress d' p l := by
  cases l <;> simp only [Progress, ht] at hp ⊢ <;> exact hp

abbrev KeepsFifo (pi₀ : Pipe) (p : P) (d : State P) (a : Action P Chan (State P)) : Prop :=
  a.Carries Holds (fun d h _ => Fifo pi₀ d h) p d

theorem Fifo.goto {l : Pc} {f : Bool} (hd : Fifo pi₀ d h) (hp : Progress d p l)
    (hn : h' = some p → Nothing d.pipe l) (hh : ∀ q, q ≠ p → (h' = some q ↔ h = some q))
    (ha : l.inside = true → h' ≠ some p → l.afterSleep = true) :
    Fifo pi₀ ({ d with freed := f }.goto p l) h' := by
  refine ⟨hd.bounded, hd.order, hd.since, fun q => ?_, fun q hq => ?_, ?_⟩
  · by_cases hqp : q = p
    · rw [hqp, goto_pc, if_pos rfl]
      exact hp.congr rfl
    · rw [goto_pc, if_neg hqp]
      exact (hd.progress q).congr rfl
  · by_cases hqp : q = p
    · rw [hqp, goto_pc, if_pos rfl]
      exact hn (hqp ▸ hq)
    · rw [goto_pc, if_neg hqp]
      exact hd.nothing q ((hh q hqp).mp hq)
  · refine hd.away.step (p := p) (fun q hq => by simp [hq]) ?_ fun q hq => mt (hh q hq).mpr
    rw [goto_pc, if_pos rfl]
    exact ha

theorem Fifo.begin {x : Call} (hd : Fifo pi₀ d h) (hx : x.Mapped) (hp : h ≠ some p) :
    Fifo pi₀ (d.begin p x) h := by
  refine ⟨hd.bounded, hd.order, fun q => ?_, fun q => ?_, fun q hq => ?_, ?_⟩
  · by_cases hqp : q = p
    · simp [State.begin, hqp]
    · simpa [State.begin, hqp] using hd.since q
  · by_cases hqp : q = p
    · subst hqp
      have htaken : (d.begin q x).taken q = [] := by simp [State.begin, State.taken]
      cases x with
      | write c => simpa [State.begin, Progress] using ⟨hx, htaken⟩
      | read c => simpa [State.begin, Progress] using (show c.Mapped from hx)
      | close w => simp [State.begin, Progress]
    · have hpc : (d.begin p x).pc q = d.pc q := by simp [State.begin, hqp]
      rw [hpc]
      exact (hd.progress q).congr (by simp [State.begin, State.taken, hqp])
  · have hqp : q ≠ p := fun he => hp (he ▸ hq)
    have hpc : (d.begin p x).pc q = d.pc q := by simp [State.begin, hqp]
    rw [hpc]
    exact hd.nothing q hq
  · refine hd.away.step (p := p) (fun q hq => by simp [State.begin, hq]) ?_ fun _ _ => id
    cases x <;> simp [State.begin, Pc.inside]

theorem taken_store (hd : d.since p ≤ d.accepted.length) (q : P) (ch : UInt8) :
    (d.store q ch).taken p = if q = p then d.taken p ++ [ch] else d.taken p := by
  have hdrop : (d.accepted ++ [(q, ch)]).drop (d.since p) =
      d.accepted.drop (d.since p) ++ [(q, ch)] := drop_append_of_le_length hd
  unfold State.taken State.store
  rw [hdrop, filter_append, map_append]
  by_cases hq : q = p <;> simp [hq]

/-- The holder moves a byte or closes an end. -/
theorem Fifo.held {l : Pc} (hd : Fifo pi₀ d (some p)) (hpc : d'.pc = d.pc)
    (hbounded : d'.pipe.used ≤ PIPESIZE)
    (horder : pi₀.contents ++ d'.accepted.map Prod.snd = d'.delivered.map Prod.snd ++
      d'.pipe.contents)
    (hsince : ∀ q, d'.since q ≤ d'.accepted.length)
    (htaken : ∀ q, q ≠ p → d'.taken q = d.taken q) (hprog : Progress d' p l)
    (hn : Nothing d'.pipe l) : Fifo pi₀ (d'.goto p l) (some p) := by
  refine ⟨hbounded, horder, hsince, fun q => ?_, fun q hq => ?_, ?_⟩
  · by_cases hqp : q = p
    · rw [hqp, goto_pc, if_pos rfl]
      exact hprog.congr rfl
    · rw [goto_pc, if_neg hqp, hpc]
      exact (hd.progress q).congr (htaken q hqp)
  · obtain rfl := Option.some.inj hq
    rw [goto_pc, if_pos rfl]
    exact hn
  · exact hd.away.step (p := p) (fun q hq => by simp [hq, hpc]) (fun _ hne => absurd rfl hne)
      fun _ _ => id

theorem Fifo.store {c : Write} {i : Nat} {moved : Bool} {ch : UInt8} (hd : Fifo pi₀ d (some p))
    (hpc : d.pc p = .writeByte c i moved) (hfull : ¬ d.pipe.Full) (hch : c.src i = some ch) :
    Fifo pi₀ ((d.store p ch).goto p (.writeWhile c (i + 1) true)) (some p) := by
  have hroom : d.pipe.used < PIPESIZE := by
    have hne : d.pipe.used ≠ PIPESIZE := fun he => hfull (full_iff.mpr he)
    have hle := hd.bounded
    omega
  have hprog := hd.progress p
  rw [hpc] at hprog
  refine hd.held rfl ?_ ?_ (fun q => (hd.since q).trans (by simp [State.store])) (fun q hq => ?_)
    ⟨hprog.1, ?_⟩ trivial
  · rw [store_pipe, used_put ch hroom]
    exact hroom
  · rw [store_pipe, contents_put ch hroom, ← append_assoc]
    show _ ++ (d.accepted ++ [(p, ch)]).map Prod.snd = _
    rw [map_append, ← append_assoc, hd.order]
    rfl
  · exact (taken_store (hd.since q) p ch).trans (if_neg (Ne.symm hq))
  · rw [taken_store (hd.since p), if_pos rfl, range_succ, map_append, map_append, hprog.2]
    simp [hch]

theorem Fifo.load {c : Read} {i : Nat} (hd : Fifo pi₀ d (some p))
    (hpc : d.pc p = .readCopy c i) (hempty : ¬ d.pipe.Empty) :
    Fifo pi₀ ((d.load p true).goto p (.readCopy c (i + 1))) (some p) := by
  have hprog := hd.progress p
  rw [hpc] at hprog
  refine hd.held rfl ?_ ?_ hd.since (fun _ _ => rfl) hprog trivial
  · rw [load_pipe, used_drop hempty]
    exact (Nat.sub_le _ _).trans hd.bounded
  · show _ = (d.delivered ++ [(p, d.pipe.front)]).map Prod.snd ++ d.pipe.drop.contents
    rw [map_append, append_assoc]
    refine hd.order.trans ?_
    rw [contents_drop hempty]
    rfl

theorem Fifo.shut {w : Bool} (hd : Fifo pi₀ d (some p)) :
    Fifo pi₀ ((d.shut w).goto p (.closeWake w)) (some p) := by
  refine hd.held rfl ?_ ?_ hd.since (fun _ _ => rfl) trivial trivial
  · refine Eq.trans_le ?_ hd.bounded
    cases w <;> rfl
  · refine hd.order.trans ?_
    cases w <;> rfl

section

variable {l0 l : Pc} {f : Bool} (hpc : d.pc p = l0)

include hpc

theorem fifo_goto (hin : l0.inside = true) (hin' : l.inside = true)
    (hprog : Progress d p l0 → Progress d p l) (hn : Nothing d.pipe l0 → Nothing d.pipe l) :
    KeepsFifo pi₀ p d (.go (d.goto p l)) := by
  subst hpc
  refine ⟨by simp [Holds, hin, hin'], fun h N hh hd => ?_⟩
  obtain rfl : h = some p := hh.mp hin
  exact hd.goto (f := d.freed) (hprog (hd.progress p)) (fun _ => hn (hd.nothing p rfl))
    (fun _ _ => Iff.rfl) fun _ hne => absurd rfl hne

theorem fifo_wakeup {c : Chan} (hin : l0.inside = true) (hin' : l.inside = true)
    (hprog : Progress d p l0 → Progress d p l) (hn : Nothing d.pipe l0 → Nothing d.pipe l) :
    KeepsFifo pi₀ p d (.wakeup c (d.goto p l)) := by
  subst hpc
  refine ⟨hin, by simp [Holds, hin'], fun N hd => ?_⟩
  exact hd.goto (f := d.freed) (hprog (hd.progress p)) (fun _ => hn (hd.nothing p rfl))
    (fun _ _ => Iff.rfl) fun _ hne => absurd rfl hne

theorem fifo_acquire (hin : l0.inside = false) (hin' : l.inside = true)
    (hprog : Progress d p l0 → Progress d p l) (hn : Nothing d.pipe l) :
    KeepsFifo pi₀ p d (.acquire (d.goto p l)) := by
  subst hpc
  refine ⟨by simp [Holds, hin], by simp [Holds, hin'], fun N hd => ?_⟩
  exact hd.goto (f := d.freed) (hprog (hd.progress p)) (fun _ => hn)
    (fun q hqp => by simp [Ne.symm hqp]) fun _ hne => absurd rfl hne

theorem fifo_release (hin : l0.inside = true) (hin' : l.inside = false)
    (hprog : Progress d p l0 → Progress d p l) :
    KeepsFifo pi₀ p d (.release ({ d with freed := f }.goto p l)) := by
  subst hpc
  refine ⟨hin, by simp [Holds, hin'], fun N hd => ?_⟩
  refine hd.goto (hprog (hd.progress p)) nofun (fun q hqp => by simp [Ne.symm hqp]) fun hl _ => ?_
  rw [hin'] at hl
  cases hl

theorem fifo_sleep {c : Chan} (hin : l0.inside = true) (hin' : l.inside = true)
    (hafter : l.afterSleep = true) (hprog : Progress d p l0 → Progress d p l) :
    KeepsFifo pi₀ p d (.sleep c (d.goto p l)) := by
  subst hpc
  refine ⟨hin, by simp [Holds, hin'], fun N hd => ?_⟩
  exact hd.goto (f := d.freed) (hprog (hd.progress p)) nofun (fun q hqp => by simp [Ne.symm hqp])
    fun _ _ => hafter

end

/-- A step of the holder that moves a byte or closes an end. -/
theorem fifo_held (hin : (d.pc p).inside = true) (hin' : (d'.pc p).inside = true)
    (hd : Fifo pi₀ d (some p) → Fifo pi₀ d' (some p)) :
    KeepsFifo pi₀ p d (.go d') := by
  refine ⟨by simp [Holds, hin, hin'], fun h N hh => ?_⟩
  obtain rfl : h = some p := hh.mp hin
  exact hd

theorem fifo_carries {x : Call} {a : Action P Chan (State P)} (hx : x.Mapped)
    (hc : code p x d = some a) : KeepsFifo pi₀ p d a := by
  unfold code at hc
  generalize hpc : d.pc p = l at hc
  cases l with
  | user | returned r =>
    cases hc
    have hin : ¬ Holds p d := by simp [Holds, hpc, Pc.inside]
    have hin' : ¬ Holds p (d.begin p x) := by cases x <;> simp [Holds, State.begin, Pc.inside]
    exact ⟨by simp [hin, hin'], fun h N hh hd => hd.begin hx fun he => hin (hh.mpr he)⟩
  | writeEnter c =>
    dsimp only at hc
    split at hc <;> cases hc
    exact fifo_acquire hpc rfl rfl (fun h => ⟨h.1, by simp [h.2]⟩) trivial
  | readEnter c =>
    dsimp only at hc
    split at hc <;> cases hc
    exact fifo_acquire hpc rfl rfl id trivial
  | closeEnter w =>
    dsimp only at hc
    split at hc <;> cases hc
    exact fifo_acquire hpc rfl rfl (fun _ => trivial) trivial
  | writeWhile c i moved =>
    cases hc
    split
    · split
      · exact fifo_goto hpc rfl rfl id id
      · exact fifo_goto hpc rfl rfl (fun _ => trivial) id
    · exact fifo_goto hpc rfl rfl id id
  | writeKilled c i moved =>
    cases hc
    split
    · exact fifo_goto hpc rfl rfl (fun _ => trivial) id
    · exact fifo_goto hpc rfl rfl id id
  | writeByte c i moved =>
    cases hc
    split
    · exact fifo_goto hpc rfl rfl id id
    · rename_i hfull
      cases hch : c.src i with
      | none => exact fifo_goto hpc rfl rfl id id
      | some ch =>
        exact fifo_held (by rw [hpc]; rfl) (by simp [Pc.inside]) fun hd => hd.store hpc hfull hch
  | writeFull c i | writeDone c i =>
    cases hc
    exact fifo_wakeup hpc rfl rfl id id
  | writeSleep c i | readSleep c =>
    cases hc
    exact fifo_sleep hpc rfl rfl rfl id
  | writeRelease c i | writeFail c | readRelease c i | readFail c | closeRelease =>
    cases hc
    exact fifo_release hpc rfl rfl fun _ => trivial
  | readWhile c =>
    cases hc
    split
    · exact fifo_goto hpc rfl rfl id id
    · rename_i hwait
      refine fifo_goto hpc rfl rfl id fun _ hempty => ?_
      exact Bool.eq_false_iff.mpr fun hopen => hwait ⟨hempty, hopen⟩
  | readKilled c =>
    cases hc
    split
    · exact fifo_goto hpc rfl rfl (fun _ => trivial) id
    · exact fifo_goto hpc rfl rfl id id
  | readCopy c i =>
    cases hc
    split
    · rename_i hmore
      refine ⟨?_, fun h N hh hd => ?_⟩
      · cases c.dst i <;> simp [Holds, Pc.inside, hpc]
      · obtain rfl : h = some p := hh.mp (by simp [Holds, hpc, Pc.inside])
        have hprog := hd.progress p
        rw [hpc] at hprog
        have hdst : c.dst i = true := hprog i (by omega)
        simp only [hdst, if_true]
        exact hd.load hpc hmore.2
    · rename_i hmore
      refine fifo_goto hpc rfl rfl id fun hn => ?_
      cases i with
      | zero =>
        intro hpos
        have hempty : d.pipe.Empty := by
          by_contra hne
          exact hmore ⟨by simpa using hpos, hne⟩
        exact ⟨hempty, hn hempty⟩
      | succ i => exact trivial
  | readDone c i =>
    cases hc
    refine fifo_wakeup hpc rfl rfl (fun _ => trivial) fun hn => ?_
    cases i with
    | zero => exact hn
    | succ i => exact trivial
  | closeFlag w =>
    cases hc
    exact fifo_held (by rw [hpc]; rfl) (by simp [Pc.inside]) fun hd => hd.shut
  | closeWake w =>
    cases hc
    exact fifo_wakeup hpc rfl rfl (fun _ => trivial) fun _ => trivial

/-- The proof outline of a pipe that began as `pi₀`. Nothing is said about
    channels. -/
def fifo (P : Type) [DecidableEq P] (pi₀ : Pipe) : Outline (mapped P) where
  quiet _ _ := True
  holds := Holds
  inv d h _ := Fifo pi₀ d h
  mono _ hd := hd
  served _ _ := .inr trivial
  relock hp hd := by
    refine ⟨hd.bounded, hd.order, hd.since, hd.progress, fun q hq => ?_, fun q hq _ =>
      hd.away q hq nofun⟩
    obtain rfl := Option.some.inj hq
    have hafter := hd.away _ hp nofun
    revert hafter
    cases State.pc _ _ <;> first | exact fun _ => trivial | exact nofun
  frame _ hc q hq := by
    simp only [mapped, Program.restrict] at hc
    split at hc
    · rw [Holds, Holds, code_frame hc q hq]
    · cases hc
  carries hc := by
    simp only [mapped, Program.restrict] at hc
    split at hc
    · rename_i hx
      exact fifo_carries hx hc
    · cases hc
  kill_holds := Iff.rfl
  kill_inv hd := ⟨hd.bounded, hd.order, hd.since, fun p => (hd.progress p).congr rfl, hd.nothing,
    hd.away⟩

/-- This pipe, and processes that have not called anything yet. -/
def Begins (pi₀ : Pipe) (s : Monitor P Chan (State P)) : Prop :=
  s = Monitor.start (State.start pi₀)

/-- **A pipe is a lossless bounded FIFO.** Whatever the counters were to begin
    with, in every interleaving of calls with mapped addresses: at most
    `PIPESIZE` bytes are in the pipe; the bytes delivered, followed by those in
    the pipe, are those that were in it to begin with, followed by those
    accepted; a `pipewrite` about to return `n` has had exactly its `n` bytes
    accepted, in order; and a `piperead` of `n > 0` bytes about to return 0
    finds the pipe empty and its write end closed. -/
theorem lossless_fifo {n : Nat} {pi₀ : Pipe} (hpi : pi₀.used ≤ PIPESIZE)
    {s : Monitor (Fin n) Chan (State (Fin n))}
    (hr : Reachable (Monitor.step (List.finRange n) (mapped (Fin n))) (Begins pi₀) s) :
    s.data.pipe.used ≤ PIPESIZE ∧
    pi₀.contents ++ s.data.accepted.map Prod.snd =
      s.data.delivered.map Prod.snd ++ s.data.pipe.contents ∧
    (∀ p c i, s.data.pc p = .writeRelease c i → (i : Int) = c.n →
      (s.data.taken p).map some = (List.range i).map c.src) ∧
    (∀ p c, s.data.pc p = .readRelease c 0 → 0 < c.n →
      s.data.pipe.Empty ∧ s.data.pipe.writeopen = false) := by
  have hsound : Monitor.Sound (fifo (Fin n) pi₀) s := by
    refine Monitor.Sound.reachable (fun q => mem_finRange q) (fun s hs => ?_) hr
    rw [show s = _ from hs]
    refine Monitor.Sound.start ⟨hpi, ?_, fun _ => Nat.zero_le _, fun _ => trivial, nofun, nofun⟩
      nofun
    simp [State.start]
  have hd : Fifo pi₀ s.data s.owner := hsound.inv
  refine ⟨hd.bounded, hd.order, fun p c i hpc _ => ?_, fun p c hpc hn => ?_⟩
  · have hprog := hd.progress p
    rw [hpc] at hprog
    exact hprog.2
  · by_cases hp : s.owner = some p
    · have hnothing := hd.nothing p hp
      rw [hpc] at hnothing
      exact hnothing hn
    · have haway := hd.away p (by rw [hpc]; rfl) hp
      rw [hpc] at haway
      cases haway

/-- Two bytes written into an empty pipe whose counters are about to wrap, up to
    the return. -/
def wrapping : List (Monitor.Event (Fin 2) Call) :=
  List.replicate 14 (.run 1 (.write { n := 2, src := fun i => some (UInt8.ofNat (7 + i)) }))

def almostWrapped : Pipe :=
  { data := fun _ => 0, nread := BitVec.ofNat 32 (2 ^ 32 - 1),
    nwrite := BitVec.ofNat 32 (2 ^ 32 - 1), readopen := true, writeopen := true }

/-- `nwrite` has wrapped to 1, and the pipe holds what was accepted. -/
theorem lossless_fifo_wrapping :
    ∃ s, exec (Monitor.step (List.finRange 2) (mapped (Fin 2)))
        (Monitor.start (State.start almostWrapped)) wrapping = .next s ∧
      s.data.pipe.nwrite = 1 ∧ s.data.accepted.map Prod.snd = [7, 8] ∧
      s.data.pipe.used ≤ PIPESIZE ∧
      almostWrapped.contents ++ [7, 8] = s.data.delivered.map Prod.snd ++ s.data.pipe.contents := by
  obtain ⟨s, hs, ht⟩ := Outcome.exists_of_check
    (x := exec (Monitor.step (List.finRange 2) (mapped (Fin 2)))
      (Monitor.start (State.start almostWrapped)) wrapping)
    (t := fun s => s.data.pipe.nwrite = 1 && s.data.accepted.map Prod.snd = [7, 8])
    (by decide +kernel)
  simp only [Bool.and_eq_true, decide_eq_true_eq] at ht
  have hstart : Begins almostWrapped (Monitor.start (State.start (P := Fin 2) almostWrapped)) := rfl
  obtain ⟨hused, horder, -, -⟩ :=
    lossless_fifo (by decide) ((Reachable.init hstart).of_exec _ hs)
  rw [ht.2] at horder
  exact ⟨s, hs, ht.1, ht.2, hused, horder⟩

end Pipe

end Xv6
