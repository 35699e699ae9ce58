import Mathlib.Data.Fintype.Basic
import Xv6.Lib.Outline
import Xv6.Pipe.Code

/-!
# Who may be asleep on a pipe

A reader asleep on `&pi->nread` should find the pipe empty and its write end
open, a writer asleep on `&pi->nwrite` should find it full and its read end
open; otherwise nobody is left to wake them. The outline follows the lock's
holder: `servesReaders` and `servesWriters` say at which places it has no wakeup
outstanding for the readers or the writers.

There is one place where `pipewrite` gives up the lock with a wakeup
outstanding. Its loop tests `killed(pr)` before every byte and returns at once,
past the `wakeup(&pi->nread)` at its end, so a writer that is killed after it
has moved a byte into an empty pipe leaves a sleeping reader behind
(`reader_left_asleep`). `KilledMidway` is that event; without it the property
holds.
-/

namespace Xv6

namespace Pipe

variable {P : Type}

/-- The sleepers of the channel have nothing to be woken for. -/
def Quiet (pi : Pipe) : Chan → Prop
  | .nread => pi.Empty ∧ pi.writeopen = true
  | .nwrite => pi.Full ∧ pi.readopen = true

/-- The test `killed(pr)` of a `pipewrite` that has moved a byte since its last
    `wakeup(&pi->nread)`, and that has been killed. -/
def KilledMidway (p : P) (d : State P) : Prop :=
  match d.pc p with
  | .writeKilled _ _ moved => moved = true ∧ d.killed p = true
  | _ => False

instance (p : P) (d : State P) : Decidable (KilledMidway p d) := by
  unfold KilledMidway
  split <;> infer_instance

/-- The pipe's processes, where no writer is killed midway. -/
def undisturbed (P : Type) [DecidableEq P] : Program P Chan (State P) Call :=
  (program P).restrict fun p _ d => ¬ KilledMidway p d

/-- At these places the holder has no wakeup outstanding for the readers. -/
def Pc.servesReaders : Pc → Bool
  | writeWhile _ _ moved | writeKilled _ _ moved | writeByte _ _ moved => !moved
  | writeFull _ _ | writeDone _ _ | closeWake true => false
  | _ => true

/-- At these places the holder has no wakeup outstanding for the writers. -/
def Pc.servesWriters : Pc → Bool
  | readCopy _ _ | readDone _ _ | closeWake false => false
  | _ => true

/-- What the holder has seen of the pipe at these places. -/
def Pc.Seen (pi : Pipe) : Pc → Prop
  | writeWhile _ _ moved => moved = true → pi.readopen = true
  | writeKilled _ _ _ | writeByte _ _ _ => pi.readopen = true
  | writeFull _ _ | writeSleep _ _ => pi.Full ∧ pi.readopen = true
  | readKilled _ | readSleep _ => pi.Empty ∧ pi.writeopen = true
  | _ => True

/-- What the holder of the lock knows. -/
structure Serves (d : State P) (p : P) (N : Chan → Prop) : Prop where
  seen : (d.pc p).Seen d.pipe
  readers : (d.pc p).servesReaders = true → N .nread ∨ Quiet d.pipe .nread
  writers : (d.pc p).servesWriters = true → N .nwrite ∨ Quiet d.pipe .nwrite

/-- The invariant: the holder's knowledge, or every channel served. -/
structure Served (d : State P) (h : Option P) (N : Chan → Prop) : Prop where
  away : Away d h
  free : h = none → ∀ c, N c ∨ Quiet d.pipe c
  held : ∀ p, h = some p → Serves d p N

variable {d d' : State P} {p : P} {h : Option P} {N : Chan → Prop}

abbrev KeepsServed (p : P) (d : State P) (a : Action P Chan (State P)) : Prop :=
  a.Carries Holds Served p d

theorem carries_go (hin : (d.pc p).inside = true) (hin' : (d'.pc p).inside = true)
    (hothers : ∀ q, q ≠ p → d'.pc q = d.pc q)
    (hserves : ∀ N : Chan → Prop, Serves d p N → Serves d' p N) :
    KeepsServed p d (.go d') := by
  refine ⟨by simp [Holds, hin, hin'], fun h N hh hd => ?_⟩
  obtain rfl : h = some p := hh.mp hin
  refine ⟨hd.away.step hothers (fun _ hne => absurd rfl hne) fun _ _ => id, by simp, fun r hr => ?_⟩
  obtain rfl := Option.some.inj hr
  exact hserves N (hd.held p rfl)

/-- The lock is given up where every channel is served. -/
theorem Served.give {N' : Chan → Prop} (hd : Served d (some p) N)
    (hp : (d'.pc p).inside = true → (d'.pc p).afterSleep = true)
    (hothers : ∀ q, q ≠ p → d'.pc q = d.pc q) (hfree : ∀ c, N' c ∨ Quiet d'.pipe c) :
    Served d' none N' := by
  refine ⟨hd.away.step hothers (fun h _ => hp h) ?_, fun _ => hfree, nofun⟩
  exact fun q hqp _ he => hqp (Option.some.inj he).symm

/-- The lock is taken: what was served for everybody is served for the
    holder. -/
theorem Served.take (hd : Served d none N) (hothers : ∀ q, q ≠ p → d'.pc q = d.pc q)
    (hpipe : d'.pipe = d.pipe) (hseen : (d'.pc p).Seen d.pipe) : Served d' (some p) N := by
  refine ⟨hd.away.step hothers (fun _ hne => absurd rfl hne) (by simp), by simp,
    fun r hr => ?_⟩
  obtain rfl := Option.some.inj hr
  rw [← hpipe] at hseen
  refine ⟨hseen, fun _ => ?_, fun _ => ?_⟩ <;> rw [hpipe] <;> exact hd.free rfl _

theorem carries_outside (hin : (d.pc p).inside = false) (hin' : (d'.pc p).inside = false)
    (hothers : ∀ q, q ≠ p → d'.pc q = d.pc q) (hpipe : d'.pipe = d.pipe) :
    KeepsServed p d (.go d') := by
  refine ⟨by simp [Holds, hin, hin'], fun h N hh hd => ⟨?_, fun hn => ?_, fun r hr => ?_⟩⟩
  · refine hd.away.step hothers (fun hp _ => ?_) fun _ _ => id
    rw [hin'] at hp
    cases hp
  · rw [hpipe]
    exact hd.free hn
  · have hrp : r ≠ p := by
      rintro rfl
      have hp : (d.pc r).inside = true := hh.mpr hr
      rw [hin] at hp
      cases hp
    obtain ⟨hs, hr, hw⟩ := hd.held r hr
    rw [← hothers r hrp, ← hpipe] at hs hr hw
    exact ⟨hs, hr, hw⟩

/-- A byte is stored where the pipe is not full, so nobody sleeps on it being
    full. -/
theorem Serves.store [DecidableEq P] {c : Write} {i : Nat} {moved : Bool} {ch : UInt8}
    (hpc : d.pc p = .writeByte c i moved) (hfull : ¬ d.pipe.Full) (hs : Serves d p N) :
    Serves ((d.store p ch).goto p (.writeWhile c (i + 1) true)) p N := by
  obtain ⟨hseen, -, hw⟩ := hs
  rw [hpc] at hseen hw
  refine ⟨?_, ?_, fun _ => .inl ?_⟩
  · rw [goto_pc, if_pos rfl]
    exact fun _ => hseen
  · rw [goto_pc, if_pos rfl]
    exact nofun
  · exact (hw rfl).resolve_right fun hq => hfull hq.1

/-- A byte is loaded where the pipe is not empty, so nobody sleeps on it being
    empty. -/
theorem Serves.load [DecidableEq P] {c : Read} {i : Nat} {ok : Bool} {l : Pc}
    (hpc : d.pc p = .readCopy c i) (hempty : ¬ d.pipe.Empty)
    (hl : l = .readCopy c (i + 1) ∨ l = .readDone c i) (hs : Serves d p N) :
    Serves ((d.load p ok).goto p l) p N := by
  obtain ⟨-, hr, -⟩ := hs
  rw [hpc] at hr
  have hN : N .nread := (hr rfl).resolve_right fun hq => hempty hq.1
  rcases hl with rfl | rfl
  all_goals
    refine ⟨?_, fun _ => .inl hN, ?_⟩ <;> rw [goto_pc, if_pos rfl]
    · exact trivial
    · exact nofun

/-- The flag of an end is cleared: the other end's sleepers see no
    difference. -/
theorem Serves.shut [DecidableEq P] {writable : Bool} (hpc : d.pc p = .closeFlag writable)
    (hs : Serves d p N) : Serves ((d.shut writable).goto p (.closeWake writable)) p N := by
  obtain ⟨-, hr, hw⟩ := hs
  rw [hpc] at hr hw
  cases writable with
  | true =>
    refine ⟨?_, ?_, fun _ => hw rfl⟩ <;> rw [goto_pc, if_pos rfl]
    · exact trivial
    · exact nofun
  | false =>
    refine ⟨?_, fun _ => hr rfl, ?_⟩ <;> rw [goto_pc, if_pos rfl]
    · exact trivial
    · exact nofun

/-- The holder moves to a place that asks for nothing it does not know. -/
theorem Serves.goto [DecidableEq P] {l : Pc} (hs : Serves d p N) (hseen : l.Seen d.pipe)
    (hr : l.servesReaders = true → (d.pc p).servesReaders = true)
    (hw : l.servesWriters = true → (d.pc p).servesWriters = true) : Serves (d.goto p l) p N := by
  refine ⟨?_, ?_, ?_⟩ <;> rw [goto_pc, if_pos rfl]
  · exact hseen
  · exact fun h => hs.readers (hr h)
  · exact fun h => hs.writers (hw h)

/-- After the wakeup of a channel nothing is outstanding on it. -/
theorem Serves.wakeup [DecidableEq P] {c : Chan} {l : Pc} (hs : Serves d p N)
    (hseen : l.Seen d.pipe)
    (hr : c = .nread ∨ (d.pc p).servesReaders = true)
    (hw : c = .nwrite ∨ (d.pc p).servesWriters = true) :
    Serves (d.goto p l) p fun c' => N c' ∨ c' = c := by
  refine ⟨?_, fun _ => ?_, fun _ => ?_⟩
  · rw [goto_pc, if_pos rfl]
    exact hseen
  · rcases hr with rfl | hr
    · exact .inl (.inr rfl)
    · exact (hs.readers hr).imp .inl id
  · rcases hw with rfl | hw
    · exact .inl (.inr rfl)
    · exact (hs.writers hw).imp .inl id

/-- Where nothing is outstanding every channel is served. -/
theorem Serves.all (hs : Serves d p N) (hr : (d.pc p).servesReaders = true)
    (hw : (d.pc p).servesWriters = true) : ∀ c, N c ∨ Quiet d.pipe c
  | .nread => hs.readers hr
  | .nwrite => hs.writers hw

variable [DecidableEq P]

theorem goto_others {l : Pc} (q : P) (hq : q ≠ p) : (d.goto p l).pc q = d.pc q := by simp [hq]

section

variable {l0 l : Pc} (hpc : d.pc p = l0)

include hpc

theorem carries_goto (hin : l0.inside = true) (hin' : l.inside = true)
    (hseen : l0.Seen d.pipe → l.Seen d.pipe)
    (hr : l.servesReaders = true → l0.servesReaders = true)
    (hw : l.servesWriters = true → l0.servesWriters = true) :
    KeepsServed p d (.go (d.goto p l)) := by
  subst hpc
  exact carries_go hin (by simpa using hin') goto_others fun _ hs => hs.goto (hseen hs.seen) hr hw

theorem carries_wakeup {c : Chan} (hin : l0.inside = true) (hin' : l.inside = true)
    (hseen : l0.Seen d.pipe → l.Seen d.pipe) (hr : c = .nread ∨ l0.servesReaders = true)
    (hw : c = .nwrite ∨ l0.servesWriters = true) :
    KeepsServed p d (.wakeup c (d.goto p l)) := by
  subst hpc
  refine ⟨hin, by simpa [Holds] using hin', fun N hd => ⟨?_, nofun, fun r hr' => ?_⟩⟩
  · exact hd.away.step goto_others (fun _ hne => absurd rfl hne) fun _ _ => id
  · obtain rfl := Option.some.inj hr'
    have hs := hd.held p rfl
    exact hs.wakeup (hseen hs.seen) hr hw

theorem carries_release {f : Bool} (hin : l0.inside = true) (hl : l.inside = false)
    (hr : l0.servesReaders = true) (hw : l0.servesWriters = true) :
    KeepsServed p d (.release ({ d with freed := f }.goto p l)) := by
  subst hpc
  refine ⟨hin, by simp [Holds, hl], fun N hd => ?_⟩
  refine hd.give (fun h => ?_) (fun q hq => by simp [hq]) ((hd.held p rfl).all hr hw)
  rw [goto_pc, if_pos rfl, hl] at h
  cases h

theorem carries_acquire (hin : l0.inside = false) (hl : l.inside = true) (hseen : l.Seen d.pipe) :
    KeepsServed p d (.acquire (d.goto p l)) := by
  subst hpc
  refine ⟨by simp [Holds, hin], by simp [Holds, hl], fun N hd => ?_⟩
  exact hd.take goto_others rfl (by simpa using hseen)

theorem carries_sleep {c : Chan} (hin : l0.inside = true) (hl : l.inside = true)
    (hafter : l.afterSleep = true) (hr : l0.servesReaders = true)
    (hw : l0.servesWriters = true) (hquiet : l0.Seen d.pipe → Quiet d.pipe c) :
    KeepsServed p d (.sleep c (d.goto p l)) := by
  subst hpc
  refine ⟨hin, by simp [Holds, hl], fun N hd => ?_⟩
  have hs := hd.held p rfl
  refine hd.give (fun _ => by simpa using hafter) goto_others fun c' => ?_
  by_cases hc : c' = c
  · subst hc
    exact .inr (hquiet hs.seen)
  · exact (hs.all hr hw c').imp (fun hN => ⟨hN, hc⟩) id

end

/-- **Every action carries the outline**, except that of a writer that was
    killed midway. -/
theorem code_carries {x : Call} {a : Action P Chan (State P)} (hmid : ¬ KilledMidway p d)
    (hc : code p x d = some a) : KeepsServed p d a := by
  unfold KilledMidway at hmid
  unfold code at hc
  generalize hpc : d.pc p = l at hc hmid
  cases l with
  | user | returned r =>
    cases hc
    refine carries_outside (by rw [hpc]; rfl) ?_ (fun q hq => by simp [State.begin, hq]) rfl
    cases x <;> simp [State.begin, Pc.inside]
  | writeEnter c =>
    dsimp only at hc
    split at hc <;> cases hc
    exact carries_acquire hpc rfl rfl (by simp [Pc.Seen])
  | readEnter c | closeEnter w =>
    dsimp only at hc
    split at hc <;> cases hc
    exact carries_acquire hpc rfl rfl trivial
  | writeWhile c i moved =>
    cases hc
    split
    · split
      · rename_i hopen
        exact carries_goto hpc rfl rfl (fun _ => hopen) id id
      · rename_i hopen
        cases moved with
        | false => exact carries_goto hpc rfl rfl (fun _ => trivial) id id
        | true =>
          -- the read end was open when the byte was moved, and the lock was held since
          refine carries_go (by rw [hpc]; rfl) (by simp [Pc.inside]) goto_others fun N hs => ?_
          have hseen := hs.seen
          rw [hpc] at hseen
          exact absurd (hseen rfl) hopen
    · exact carries_goto hpc rfl rfl (fun _ => trivial) (by simp [Pc.servesReaders]) id
  | writeKilled c i moved =>
    cases hc
    split
    · rename_i hkilled
      obtain rfl : moved = false := by simpa [hkilled] using hmid
      exact carries_goto hpc rfl rfl (fun _ => trivial) id id
    · exact carries_goto hpc rfl rfl id id id
  | writeByte c i moved =>
    cases hc
    split
    · rename_i hfull
      exact carries_goto hpc rfl rfl (fun h => ⟨hfull, h⟩) (by simp [Pc.servesReaders]) id
    · rename_i hfull
      cases c.src i with
      | none => exact carries_goto hpc rfl rfl (fun _ => trivial) (by simp [Pc.servesReaders]) id
      | some ch =>
        exact carries_go (by rw [hpc]; rfl) (by simp [Pc.inside]) (fun q hq => by simp [hq])
          fun N hs => hs.store hpc hfull
  | writeFull c i =>
    cases hc
    exact carries_wakeup hpc rfl rfl id (.inl rfl) (.inr rfl)
  | writeSleep c i | readSleep c =>
    cases hc
    exact carries_sleep hpc rfl rfl rfl rfl rfl id
  | writeDone c i =>
    cases hc
    exact carries_wakeup hpc rfl rfl (fun _ => trivial) (.inl rfl) (.inr rfl)
  | writeRelease c i | writeFail c | readRelease c i | readFail c | closeRelease =>
    cases hc
    exact carries_release hpc rfl rfl rfl rfl
  | readWhile c =>
    cases hc
    split
    · rename_i hwait
      exact carries_goto hpc rfl rfl (fun _ => hwait) id id
    · exact carries_goto hpc rfl rfl (fun _ => trivial) id (by simp [Pc.servesWriters])
  | readKilled c =>
    cases hc
    split
    · exact carries_goto hpc rfl rfl (fun _ => trivial) id id
    · exact carries_goto hpc rfl rfl id id id
  | readCopy c i =>
    cases hc
    split
    · rename_i hmore
      refine carries_go (by rw [hpc]; rfl) ?_ (fun q hq => by simp [hq]) fun N hs =>
        hs.load hpc hmore.2 ?_
      · rw [goto_pc, if_pos rfl]
        split <;> rfl
      · split
        · exact .inl rfl
        · exact .inr rfl
    · exact carries_goto hpc rfl rfl (fun _ => trivial) id (by simp [Pc.servesWriters])
  | readDone c i =>
    cases hc
    exact carries_wakeup hpc rfl rfl (fun _ => trivial) (.inr rfl) (.inl rfl)
  | closeFlag w =>
    cases hc
    exact carries_go (by rw [hpc]; rfl) (by simp [Pc.inside]) (fun q hq => by simp [hq])
      fun N hs => hs.shut hpc
  | closeWake w =>
    cases hc
    cases w with
    | false => exact carries_wakeup hpc rfl rfl (fun _ => trivial) (.inr rfl) (.inl rfl)
    | true => exact carries_wakeup hpc rfl rfl (fun _ => trivial) (.inl rfl) (.inr rfl)

omit [DecidableEq P] in
/-- A process that was asleep looks at the pipe again, and takes nothing for
    granted. -/
theorem Served.relock (hp : Holds p d) (hd : Served d none N) : Served d (some p) N := by
  have hafter := hd.away p hp (by simp)
  refine ⟨fun q hq _ => hd.away q hq (by simp), by simp, fun r hr => ?_⟩
  obtain rfl := Option.some.inj hr
  refine ⟨?_, fun _ => hd.free rfl _, fun _ => hd.free rfl _⟩
  revert hafter
  cases d.pc p with
  | writeWhile c i moved =>
    intro hafter
    cases moved with
    | false => simp [Pc.Seen]
    | true => cases hafter
  | readWhile c => exact fun _ => trivial
  | _ => intro h; cases h

/-- The proof outline of the pipe's processes. -/
def wakeups (P : Type) [DecidableEq P] : Outline (undisturbed P) where
  quiet c d := Quiet d.pipe c
  holds := Holds
  inv := Served
  mono hN hd := ⟨hd.away, fun hn c => (hd.free hn c).imp (hN c) id, fun p hp =>
    ⟨(hd.held p hp).seen, fun hr => ((hd.held p hp).readers hr).imp (hN _) id,
      fun hw => ((hd.held p hp).writers hw).imp (hN _) id⟩⟩
  served hd := hd.free rfl
  relock hp hd := hd.relock hp
  frame _ hc q hq := by
    simp only [undisturbed, Program.restrict] at hc
    split at hc
    · rw [Holds, Holds, code_frame hc q hq]
    · cases hc
  carries hc := by
    simp only [undisturbed, Program.restrict] at hc
    split at hc
    · rename_i hmid
      exact code_carries hmid hc
    · cases hc
  kill_holds := Iff.rfl
  kill_inv hd := ⟨hd.away, hd.free, fun p hp => ⟨(hd.held p hp).seen, (hd.held p hp).readers,
    (hd.held p hp).writers⟩⟩

/-- Some pipe, and processes that have not called anything yet. -/
def Init (s : Monitor P Chan (State P)) : Prop := ∃ pi, s = Monitor.start (State.start pi)

/-- **Pipes do not strand a sleeper**, as long as no writer is killed midway:
    whenever `pi->lock` is free, a process asleep on `&pi->nread` finds the pipe
    empty and its write end open, and one asleep on `&pi->nwrite` finds it full
    and its read end open. -/
theorem sleepers_served {n : Nat} {s : Monitor (Fin n) Chan (State (Fin n))}
    (hr : Reachable (Monitor.step (List.finRange n) (undisturbed (Fin n))) Init s)
    (hlk : s.lk = none) (p : Fin n) (c : Chan)
    (hp : s.phase p = .dozing c ∨ s.phase p = .asleep c) : Quiet s.data.pipe c := by
  have hsound : Monitor.Sound (wakeups (Fin n)) s := by
    refine Monitor.Sound.reachable (fun q => List.mem_finRange q) (fun s hs => ?_) hr
    obtain ⟨pi, rfl⟩ := hs
    exact Monitor.Sound.start ⟨nofun, fun _ _ => .inl trivial, nofun⟩ nofun
  exact hsound.quiet_of_free hlk hp

/-- A new pipe, as `pipealloc` leaves it. -/
def fresh : Pipe :=
  { data := fun _ => 0, nread := 0, nwrite := 0, readopen := true, writeopen := true }

/-- The first process reads one byte of an empty pipe, and goes to sleep. -/
def readerSleeps : List (Monitor.Event (Fin 2) Call) :=
  List.replicate 7 (.run 0 (.read { n := 1, dst := fun _ => true }))

/-- The second writes two bytes. It is killed when it has moved the first. -/
def writerKilled : List (Monitor.Event (Fin 2) Call) :=
  List.replicate 6 (.run 1 (.write { n := 2, src := fun _ => some 7 })) ++ [.kill 1] ++
    List.replicate 2 (.run 1 (.write { n := 2, src := fun _ => some 7 }))

/-- A reader asleep on an empty pipe with its write end open. -/
theorem sleepers_served_reader :
    ∃ s, exec (Monitor.step (List.finRange 2) (undisturbed (Fin 2)))
        (Monitor.start (State.start fresh)) readerSleeps = .next s ∧
      s.lk = none ∧ s.phase 0 = .asleep .nread ∧ Quiet s.data.pipe .nread := by
  obtain ⟨s, hs, ht⟩ := Outcome.exists_of_check
    (x := exec (Monitor.step (List.finRange 2) (undisturbed (Fin 2)))
      (Monitor.start (State.start fresh)) readerSleeps)
    (t := fun s => s.lk = none && s.phase 0 = .asleep .nread) (by decide +kernel)
  simp only [Bool.and_eq_true, decide_eq_true_eq] at ht
  exact ⟨s, hs, ht.1, ht.2,
    sleepers_served ((Reachable.init ⟨fresh, rfl⟩).of_exec _ hs) ht.1 0 .nread (.inr ht.2)⟩

/-- **A writer killed midway leaves the reader asleep.** It has returned -1, the
    lock is free, the pipe holds a byte, and the reader sleeps on. -/
theorem reader_left_asleep :
    ∃ s, exec (Monitor.step (List.finRange 2) (program (Fin 2)))
        (Monitor.start (State.start fresh)) (readerSleeps ++ writerKilled) = .next s ∧
      s.lk = none ∧ s.phase 0 = .asleep .nread ∧ s.data.pc 1 = .returned (-1) ∧
      ¬ s.data.pipe.Empty := by
  obtain ⟨s, hs, ht⟩ := Outcome.exists_of_check
    (x := exec (Monitor.step (List.finRange 2) (program (Fin 2)))
      (Monitor.start (State.start fresh)) (readerSleeps ++ writerKilled))
    (t := fun s => s.lk = none && s.phase 0 = .asleep .nread &&
      (match s.data.pc 1 with | .returned r => r == -1 | _ => false) && !decide s.data.pipe.Empty)
    (by decide +kernel)
  simp only [Bool.and_eq_true, decide_eq_true_eq, Bool.not_eq_true', decide_eq_false_iff_not] at ht
  obtain ⟨⟨⟨hlk, hphase⟩, hret⟩, hempty⟩ := ht
  refine ⟨s, hs, hlk, hphase, ?_, hempty⟩
  split at hret
  · rename_i r hpc
    rw [hpc, eq_of_beq hret]
  · cases hret

end Pipe

end Xv6
