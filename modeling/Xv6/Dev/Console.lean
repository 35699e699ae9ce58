import Xv6.Fs.Stream

/-!
# The console's line discipline

`consoleintr` stores a character at `cons.e`, takes it back or commits the line,
and `consoleread` takes committed characters from `cons.r`, each under
`cons.lock`. What they are for is said without a ring: characters typed make up
a line that can still be edited, a line that is ended or fills the buffer is
appended to what has been committed, and reads take from that in order (`Line`,
`Spec`).

A turn of the loop of `consoleread` is one event, so that any number of
processes may be in the middle of a call while characters arrive. The code gives
up the lock only where it sleeps, so its schedules are among those. A call that
finds `cons.r == cons.w` takes no turn until that changes, or returns -1 if its
process has been killed. The bytes copied out are what its destination then
holds; the echo of `consputc` and the listing of `procdump` are left out.
-/

namespace Xv6
namespace Console

open Function List Xv6.Ring

/-- `#define C(x) ((x)-'@')` -/
def C (x : Char) : UInt8 := UInt8.ofNat (x.toNat - '@'.toNat)

abbrev newline : UInt8 := 10
abbrev carriageReturn : UInt8 := 13
/-- Delete key -/
abbrev delete : UInt8 := 0x7f

/-! ## The code -/

/-- The loop of `^U`, which has at most `cons.e - cons.w` turns. -/
def killLine : Nat → Cons → Cons
  | 0, k => k
  | fuel + 1, k =>
    if k.e ≠ k.w ∧ k.buf ((k.e - 1).toNat % INPUT_BUF_SIZE) ≠ newline then
      killLine fuel { k with e := k.e - 1 }
    else k

/-- `cons.buf[cons.e++ % INPUT_BUF_SIZE] = c` -/
def store (k : Cons) (c : UInt8) : Cons :=
  { k with buf := update k.buf (k.e.toNat % INPUT_BUF_SIZE) c, e := k.e + 1 }

/-- the console input interrupt handler. -/
def consoleintr (c : UInt8) (k : Cons) : Cons :=
  if c = C 'P' then k
  else if c = C 'U' then killLine (Ring.used k.w k.e) k
  else if c = C 'H' ∨ c = delete then
    if k.e ≠ k.w then { k with e := k.e - 1 } else k
  else if c ≠ 0 ∧ Ring.used k.r k.e < INPUT_BUF_SIZE then
    let c := if c = carriageReturn then newline else c
    let k := store k c
    if c = newline ∨ c = C 'D' ∨ Ring.used k.r k.e = INPUT_BUF_SIZE then { k with w := k.e }
    else k
  else k

/-- A call of `consoleread` in its loop. -/
structure Call where
  target : Int
  n : Int
  /-- what it has copied out -/
  got : List UInt8

/-- A call that has returned. -/
structure Ret where
  /-- the `n` it was called with -/
  asked : Int
  ret : Int
  got : List UInt8
  deriving DecidableEq

structure State (P : Type) where
  cons : Cons
  call : P → Option Call
  /-- every byte copied out, to whom -/
  out : List (P × UInt8)
  /-- every call that has returned -/
  done : List (P × Ret)

inductive Event (P : Type) where
  /-- a character arrives -/
  | intr (c : UInt8)
  /-- `consoleread(user_dst, dst, n)` is called -/
  | read (p : P) (n : Int)
  /-- a turn of its loop -/
  | turn (p : P)
  /-- it finds nothing to read and its process killed -/
  | killed (p : P)

section Machine

variable {P : Type} [DecidableEq P]

/-- The call of `p` returns `v`. -/
def State.finish (s : State P) (p : P) (x : Call) (v : Int) : State P :=
  { s with
    call := update s.call p none
    done := s.done ++ [(p, ⟨x.target, v, x.got⟩)] }

/-- `dst` gets the byte and `--n`. -/
def Call.take (x : Call) (c : UInt8) : Call :=
  { x with n := x.n - 1, got := x.got ++ [c] }

/-- A turn of the loop of `consoleread`, with something to read. -/
def State.turn (s : State P) (p : P) (x : Call) : State P :=
  let c := s.cons.front
  if c = C 'D' then
    -- `cons.r++`, and `cons.r--` again if something has been delivered
    let s := if x.n < x.target then s else { s with cons := s.cons.drop }
    s.finish p x (x.target - x.n)
  else
    let x := x.take c
    let s := { s with cons := s.cons.drop, out := s.out ++ [(p, c)] }
    if c = newline ∨ ¬ x.n > 0 then s.finish p x (x.target - x.n)
    else { s with call := update s.call p (some x) }

def step (s : State P) : Event P → Outcome (State P)
  | .intr c => .next { s with cons := consoleintr c s.cons }
  | .read p n =>
    match s.call p with
    | some _ => .disabled
    | none =>
      if n > 0 then .next { s with call := update s.call p (some ⟨n, n, []⟩) }
      else .next (s.finish p ⟨n, n, []⟩ (n - n))
  | .turn p =>
    match s.call p with
    | none => .disabled
    | some x => if s.cons.r = s.cons.w then .disabled else .next (s.turn p x)
  | .killed p =>
    match s.call p with
    | none => .disabled
    | some x => if s.cons.r = s.cons.w then .next (s.finish p x (-1)) else .disabled

/-! ## What it is for -/

/-- What has been typed. -/
structure Line where
  /-- every character ever committed -/
  committed : List UInt8
  /-- how many of them have been taken -/
  taken : Nat
  /-- the line that is being typed -/
  edit : List UInt8

def Line.waiting (l : Line) : List UInt8 := l.committed.drop l.taken

def Line.buffered (l : Line) : Nat := l.waiting.length + l.edit.length

def Line.commit (l : Line) : Line := { l with committed := l.committed ++ l.edit, edit := [] }

/-- A character is typed. -/
def Line.type (l : Line) (c : UInt8) : Line :=
  if c = 0 ∨ c = C 'P' then l
  else if c = C 'U' then { l with edit := [] }
  else if c = C 'H' ∨ c = delete then { l with edit := l.edit.dropLast }
  else if INPUT_BUF_SIZE ≤ l.buffered then l
  else
    let c := if c = carriageReturn then newline else c
    let l := { l with edit := l.edit ++ [c] }
    if c = newline ∨ c = C 'D' ∨ l.buffered = INPUT_BUF_SIZE then l.commit else l

def Line.take (l : Line) : Line := { l with taken := l.taken + 1 }

/-- A call that may deliver `asked` bytes and has delivered `got`. -/
structure Request where
  asked : Int
  got : List UInt8

structure Spec (P : Type) where
  line : Line
  call : P → Option Request
  out : List (P × UInt8)
  done : List (P × Ret)

def Spec.finish (s : Spec P) (p : P) (x : Request) (v : Int) : Spec P :=
  { s with
    call := update s.call p none
    done := s.done ++ [(p, ⟨x.asked, v, x.got⟩)] }

/-- The next character is `c`. A `^D` ends the call and is taken only by one
    that has delivered nothing; any other character is delivered, and ends the
    call if it is a newline or the last that was asked for. -/
def Spec.turn (s : Spec P) (p : P) (x : Request) (c : UInt8) : Spec P :=
  if c = C 'D' then
    if x.got = [] then { s with line := s.line.take }.finish p x 0
    else s.finish p x x.got.length
  else
    let x := { x with got := x.got ++ [c] }
    let s := { s with line := s.line.take, out := s.out ++ [(p, c)] }
    if c = newline ∨ (x.got.length : Int) = x.asked then s.finish p x x.got.length
    else { s with call := update s.call p (some x) }

def Spec.step (s : Spec P) : Event P → Outcome (Spec P)
  | .intr c => .next { s with line := s.line.type c }
  | .read p n =>
    match s.call p with
    | some _ => .disabled
    | none =>
      if n > 0 then .next { s with call := update s.call p (some ⟨n, []⟩) }
      else .next (s.finish p ⟨n, []⟩ 0)
  | .turn p =>
    match s.call p, s.line.waiting with
    | some x, c :: _ => .next (s.turn p x c)
    | _, _ => .disabled
  | .killed p =>
    match s.call p, s.line.waiting with
    | some x, [] => .next (s.finish p x (-1))
    | _, _ => .disabled

/-- Nothing typed and nobody reading. -/
def Spec.start : Spec P := ⟨⟨[], 0, []⟩, fun _ => none, [], []⟩

/-- ... and so it is with the code, wherever the three indices are. -/
structure Boot (s : State P) : Prop where
  write : s.cons.w = s.cons.r
  edit : s.cons.e = s.cons.r
  call : ∀ p, s.call p = none
  out : s.out = []
  done : s.done = []

end Machine

/-! ## Editing -/

/-- The ring holds what is committed and not taken, and after it, from `w` on,
    the line. -/
structure Holds (k : Cons) (l : Line) : Prop where
  ring : Ring.contents INPUT_BUF_SIZE k.buf k.r k.e = l.waiting ++ l.edit
  write : Ring.used k.r k.w = l.waiting.length
  bound : Ring.used k.r k.e ≤ INPUT_BUF_SIZE
  line : ∀ c ∈ l.edit, c ≠ newline
  taken : l.taken ≤ l.committed.length

theorem size_dvd : INPUT_BUF_SIZE ∣ 2 ^ 32 := by decide

theorem size_lt : INPUT_BUF_SIZE < 2 ^ 32 := by decide

namespace Holds

variable {k : Cons} {l : Line}

section

variable (h : Holds k l)

include h

theorem used : Ring.used k.r k.w + l.edit.length = Ring.used k.r k.e := by
  have hlen := congrArg List.length h.ring
  rw [contents_length, length_append, ← h.write] at hlen
  exact hlen.symm

theorem buffered : l.buffered = Ring.used k.r k.e := by
  rw [← h.used, h.write]
  rfl

theorem edited_iff : k.e ≠ k.w ↔ l.edit ≠ [] := by
  have hused := h.used
  rw [ne_eq, ne_eq, not_iff_not, ← length_eq_zero_iff]
  constructor
  · intro he
    rw [he] at hused
    omega
  · intro h0
    have hsame : Ring.used k.r k.e = Ring.used k.r k.w := by omega
    exact used_inj hsame

/-- The character before `e` is the last of the line, and can be taken back. -/
theorem unpush {ed : List UInt8} {c : UInt8} (hed : l.edit = ed ++ [c]) :
    k.buf ((k.e - 1).toNat % INPUT_BUF_SIZE) = c ∧
      Holds { k with e := k.e - 1 } { l with edit := ed } := by
  have hused := h.used
  rw [hed, length_append, length_singleton] at hused
  have hpos : 0 < Ring.used k.r k.e := by omega
  have hring := h.ring
  rw [contents_unpush size_dvd size_lt k.buf hpos h.bound, hed, ← append_assoc] at hring
  obtain ⟨hinit, hlast⟩ := append_inj' hring rfl
  have hback := used_unpush hpos
  have hbound := h.bound
  refine ⟨head_eq_of_cons_eq hlast, hinit, h.write, ?_, fun x hx => h.line x ?_, h.taken⟩
  · show Ring.used k.r (k.e - 1) ≤ INPUT_BUF_SIZE
    omega
  · rw [hed]
    exact mem_append_left _ hx

/-- **`^U`** takes the whole line back: there is no newline in it. -/
theorem kill {fuel : Nat} (hfuel : l.edit.length = fuel) :
    Holds (killLine fuel k) { l with edit := [] } := by
  -- on the length of the line, from its end
  induction fuel generalizing k l with
  | zero =>
    rw [length_eq_zero_iff] at hfuel
    have hl : { l with edit := [] } = l := by rw [← hfuel]
    rw [hl]
    exact h
  | succ fuel ih =>
    obtain ⟨ed, c, hed⟩ : ∃ ed c, l.edit = ed ++ [c] :=
      (eq_nil_or_concat' l.edit).resolve_left fun h0 => by rw [h0] at hfuel; cases hfuel
    obtain ⟨hlast, hback⟩ := h.unpush hed
    have hc : c ∈ l.edit := by rw [hed]; exact mem_append_right _ (mem_singleton_self c)
    have hne : k.e ≠ k.w := h.edited_iff.mpr (ne_nil_of_mem hc)
    have hlen : ed.length = fuel := by
      rw [hed, length_append, length_singleton] at hfuel
      omega
    unfold killLine
    rw [if_pos ⟨hne, by rw [hlast]; exact h.line c hc⟩]
    exact ih (l := { l with edit := ed }) hback hlen

theorem store (c : UInt8) (hroom : Ring.used k.r k.e < INPUT_BUF_SIZE) :
    Ring.contents INPUT_BUF_SIZE (Console.store k c).buf k.r (k.e + 1) =
        l.waiting ++ (l.edit ++ [c]) ∧
      Ring.used k.r (k.e + 1) = Ring.used k.r k.e + 1 := by
  refine ⟨?_, used_push (by have := size_lt; omega)⟩
  rw [← append_assoc, ← h.ring]
  exact contents_push size_dvd size_lt k.buf c hroom

theorem waiting_commit (ed : List UInt8) :
    Line.waiting { l with committed := l.committed ++ ed, edit := [] } = l.waiting ++ ed :=
  drop_append_of_le_length h.taken

/-- **`consoleintr`** is the line discipline. -/
theorem intr (c : UInt8) : Holds (consoleintr c k) (l.type c) := by
  unfold consoleintr Line.type
  by_cases hP : c = C 'P'
  · rw [if_pos hP, if_pos (.inr hP)]
    exact h
  rw [if_neg hP]
  by_cases hU : c = C 'U'
  · have h0 : ¬ (c = 0 ∨ c = C 'P') := by
      rw [hU]
      decide
    rw [if_pos hU, if_neg h0, if_pos hU]
    exact h.kill (used_of_add h.used).symm
  rw [if_neg hU]
  by_cases hH : c = C 'H' ∨ c = delete
  · have h0 : ¬ (c = 0 ∨ c = C 'P') := by
      rcases hH with rfl | rfl
      · decide
      · decide
    rw [if_pos hH, if_neg h0, if_neg hU, if_pos hH]
    rcases eq_nil_or_concat' l.edit with hnil | ⟨ed, x, hed⟩
    · rw [if_neg fun he => h.edited_iff.mp he hnil, hnil]
      have hl : { l with edit := [].dropLast } = l := by rw [dropLast_nil, ← hnil]
      rw [hl]
      exact h
    · have hne : l.edit ≠ [] := by rw [hed]; exact concat_ne_nil x ed
      rw [if_pos (h.edited_iff.mpr hne), hed, dropLast_concat]
      exact (h.unpush hed).2
  rw [if_neg hH]
  by_cases h0 : c = 0
  · rw [if_neg fun hc => hc.1 h0, if_pos (.inl h0)]
    exact h
  rw [if_neg (not_or_intro h0 hP), if_neg hU, if_neg hH, h.buffered]
  by_cases hroom : Ring.used k.r k.e < INPUT_BUF_SIZE
  · rw [if_pos ⟨h0, hroom⟩, if_neg (Nat.not_le.mpr hroom)]
    generalize (if c = carriageReturn then newline else c) = x
    obtain ⟨hring, hused⟩ := h.store x hroom
    have hbuf : Line.buffered { l with edit := l.edit ++ [x] } = Ring.used k.r (k.e + 1) := by
      rw [hused, ← h.buffered, Line.buffered, Line.buffered, length_append]
      rfl
    simp only [hbuf]
    show Holds
      (if x = newline ∨ x = C 'D' ∨ Ring.used k.r (k.e + 1) = INPUT_BUF_SIZE then _ else _) _
    by_cases hend : x = newline ∨ x = C 'D' ∨ Ring.used k.r (k.e + 1) = INPUT_BUF_SIZE
    · rw [if_pos hend, if_pos hend]
      have hwait := h.waiting_commit (l.edit ++ [x])
      refine ⟨?_, ?_, ?_, nofun, ?_⟩
      · show Ring.contents INPUT_BUF_SIZE _ k.r (k.e + 1) = Line.waiting _ ++ []
        rw [hring, append_nil, ← hwait]
        rfl
      · show Ring.used k.r (k.e + 1) = (Line.waiting _).length
        have hlen := congrArg List.length hring
        rw [contents_length] at hlen
        rw [hlen, ← hwait]
        rfl
      · show Ring.used k.r (k.e + 1) ≤ INPUT_BUF_SIZE
        omega
      · show l.taken ≤ (l.committed ++ (l.edit ++ [x])).length
        rw [length_append]
        exact le_trans h.taken (Nat.le_add_right _ _)
    · rw [if_neg hend, if_neg hend]
      refine ⟨hring, h.write, ?_, fun y hy => ?_, h.taken⟩
      · show Ring.used k.r (k.e + 1) ≤ INPUT_BUF_SIZE
        omega
      · rcases mem_append.mp hy with hy | hy
        · exact h.line y hy
        · rw [mem_singleton.mp hy]
          exact fun he => hend (.inl he)
  · rw [if_neg fun hc => hroom hc.2, if_pos (Nat.not_lt.mp hroom)]
    exact h

/-- What a read takes is the first of what is waiting. -/
theorem take (hne : k.r ≠ k.w) : ∃ rest, l.waiting = k.front :: rest ∧ Holds k.drop l.take := by
  have hpos : 0 < Ring.used k.r k.w := Nat.pos_of_ne_zero fun h0 => hne (used_eq_zero.mp h0)
  have hused := h.used
  have hposE : 0 < Ring.used k.r k.e := by omega
  obtain ⟨c, rest, hwait⟩ : ∃ c rest, l.waiting = c :: rest :=
    exists_cons_of_length_pos (by rw [← h.write]; exact hpos)
  have hring := h.ring
  rw [contents_pop size_dvd k.buf hposE, hwait, cons_append] at hring
  injection hring with hc hrest
  have htake : l.take.waiting = rest := by
    have htail := congrArg List.tail hwait
    rw [Line.waiting, tail_drop] at htail
    exact htail
  have hlen := h.write
  rw [hwait, length_cons] at hlen
  have hbound := h.bound
  refine ⟨rest, by rw [hwait, ← hc]; rfl, ?_, ?_, ?_, h.line, ?_⟩
  · rw [htake]
    exact hrest
  · show Ring.used (k.r + 1) k.w = l.take.waiting.length
    rw [used_pop hpos, htake]
    omega
  · show Ring.used (k.r + 1) k.e ≤ INPUT_BUF_SIZE
    rw [used_pop hposE]
    omega
  · have hdrop := congrArg List.length hwait
    rw [Line.waiting, length_drop, length_cons] at hdrop
    show l.taken + 1 ≤ l.committed.length
    omega

theorem empty_iff : k.r = k.w ↔ l.waiting = [] := by
  rw [← used_eq_zero, h.write, length_eq_zero_iff]

end

end Holds

namespace Line

variable {c : UInt8} {rest : List UInt8}

theorem take_taken {l : Line} (h : l.waiting = c :: rest) :
    l.committed.take (l.taken + 1) = l.committed.take l.taken ++ [c] ∧
      l.taken + 1 ≤ l.committed.length := by
  have hc : l.committed[l.taken]? = some c := by
    rw [← head?_drop]
    exact congrArg List.head? h
  obtain ⟨hlt, hc⟩ := List.getElem?_eq_some_iff.mp hc
  rw [take_succ_eq_append_getElem hlt, hc]
  exact ⟨rfl, hlt⟩

theorem type_committed (l : Line) (c : UInt8) :
    (l.type c).taken = l.taken ∧ ∃ more, (l.type c).committed = l.committed ++ more := by
  unfold type
  generalize (if c = carriageReturn then newline else c) = x
  dsimp only
  split_ifs
  · exact ⟨rfl, [], (append_nil _).symm⟩
  · exact ⟨rfl, [], (append_nil _).symm⟩
  · exact ⟨rfl, [], (append_nil _).symm⟩
  · exact ⟨rfl, [], (append_nil _).symm⟩
  · exact ⟨rfl, l.edit ++ [x], rfl⟩
  · exact ⟨rfl, [], (append_nil _).symm⟩

theorem stream_type {l : Line} (h : l.taken ≤ l.committed.length) (c : UInt8) :
    (l.type c).taken ≤ (l.type c).committed.length ∧
      (l.type c).committed.take (l.type c).taken = l.committed.take l.taken := by
  obtain ⟨htaken, more, hmore⟩ := l.type_committed c
  rw [htaken, hmore, length_append, take_append_of_le_length h]
  exact ⟨le_trans h (Nat.le_add_right _ _), rfl⟩

end Line

/-! ## Reading -/

section Runs

variable {P : Type}

def Call.request (x : Call) : Request := ⟨x.target, x.got⟩

/-- The call has `n` bytes to go. -/
structure Call.Ok (x : Call) : Prop where
  more : 0 < x.n
  count : x.n + x.got.length = x.target

theorem Call.Ok.count' {x : Call} (h : x.Ok) : x.target - x.n = x.got.length := by
  have := h.count
  omega

structure Refines (s : State P) (t : Spec P) : Prop where
  cons : Holds s.cons t.line
  call : ∀ p, t.call p = (s.call p).map Call.request
  calls : ∀ p x, s.call p = some x → x.Ok
  out : s.out = t.out
  done : s.done = t.done

namespace Refines

variable {s : State P} {t : Spec P} {p : P} {x : Call}

theorem drop (h : Refines s t) (hk : Holds s.cons.drop t.line.take) :
    Refines { s with cons := s.cons.drop } { t with line := t.line.take } :=
  ⟨hk, h.call, h.calls, h.out, h.done⟩

theorem deliver (h : Refines s t) (p : P) (c : UInt8) :
    Refines { s with out := s.out ++ [(p, c)] } { t with out := t.out ++ [(p, c)] } :=
  ⟨h.cons, h.call, h.calls, by rw [h.out], h.done⟩

variable [DecidableEq P]

theorem finish (h : Refines s t) (p : P) (x : Call) (v : Int) :
    Refines (s.finish p x v) (t.finish p x.request v) := by
  refine ⟨h.cons, fun q => ?_, fun q y hy => ?_, h.out, ?_⟩
  · show update t.call p none q = (update s.call p none q).map _
    by_cases hq : q = p
    · subst hq
      rw [update_self, update_self]
      rfl
    · rw [update_of_ne hq, update_of_ne hq]
      exact h.call q
  · by_cases hq : q = p
    · subst hq
      rw [show (s.finish q x v).call q = none from update_self ..] at hy
      cases hy
    · rw [show (s.finish p x v).call q = s.call q from update_of_ne hq ..] at hy
      exact h.calls q y hy
  · show s.done ++ _ = t.done ++ _
    rw [h.done]
    rfl

theorem wait (h : Refines s t) (p : P) (hx : x.Ok) :
    Refines { s with call := update s.call p (some x) }
      { t with call := update t.call p (some x.request) } := by
  refine ⟨h.cons, fun q => ?_, fun q y hy => ?_, h.out, h.done⟩
  · show update t.call p _ q = (update s.call p _ q).map _
    by_cases hq : q = p
    · subst hq
      rw [update_self, update_self]
      rfl
    · rw [update_of_ne hq, update_of_ne hq]
      exact h.call q
  · by_cases hq : q = p
    · subst hq
      have hy' : update s.call q (some x) q = some y := hy
      rw [update_self] at hy'
      cases hy'
      exact hx
    · have hy' : update s.call p (some x) q = some y := hy
      rw [update_of_ne hq] at hy'
      exact h.calls q y hy'

/-- **A turn of the loop.** -/
theorem turn (h : Refines s t) (hx : s.call p = some x) (hk : Holds s.cons.drop t.line.take) :
    Refines (s.turn p x) (t.turn p x.request s.cons.front) := by
  have hok := h.calls p x hx
  have hcount := hok.count
  unfold State.turn Spec.turn
  by_cases hD : s.cons.front = C 'D'
  · simp only [if_pos hD]
    by_cases hgot : x.request.got = []
    · have hnil : x.got = [] := hgot
      have hn : ¬ x.n < x.target := by
        rw [hnil] at hcount
        simp only [length_nil] at hcount
        omega
      rw [if_neg hn, if_pos hgot, hok.count', hnil]
      exact (h.drop hk).finish p x 0
    · have hlen : 0 < x.got.length := length_pos_iff.mpr hgot
      rw [if_pos (by omega), if_neg hgot, hok.count']
      exact h.finish p x _
  · simp only [if_neg hD]
    generalize s.cons.front = c at hD
    have hnext := (h.drop hk).deliver p c
    have hlen : ((x.got ++ [c]).length : Int) = x.got.length + 1 := by
      rw [length_append]
      rfl
    have hret : (x.take c).target - (x.take c).n = ((x.got ++ [c]).length : Int) := by
      show x.target - (x.n - 1) = _
      omega
    have hend : (c = newline ∨ ¬ (x.take c).n > 0) ↔
        (c = newline ∨ ((x.request.got ++ [c]).length : Int) = x.request.asked) := by
      have hmore := hok.more
      show (c = newline ∨ ¬ x.n - 1 > 0) ↔ (c = newline ∨ ((x.got ++ [c]).length : Int) = x.target)
      constructor
      · exact Or.imp_right fun hn => by omega
      · exact Or.imp_right fun hn => by omega
    by_cases hstop : c = newline ∨ ¬ (x.take c).n > 0
    · rw [if_pos hstop, if_pos (hend.mp hstop), hret]
      exact hnext.finish p (x.take c) _
    · rw [if_neg hstop, if_neg fun h0 => hstop (hend.mpr h0)]
      refine hnext.wait p ⟨?_, ?_⟩
      · by_contra hn
        exact hstop (.inr hn)
      · show x.n - 1 + ((x.got ++ [c]).length : Int) = x.target
        omega

/-- **The code does what the specification does**, event by event. -/
theorem step (h : Refines s t) {e : Event P} {s' : State P} (hs : Console.step s e = .next s') :
    ∃ t', t.step e = .next t' ∧ Refines s' t' := by
  cases e with
  | intr c =>
    cases hs
    exact ⟨_, rfl, h.cons.intr c, h.call, h.calls, h.out, h.done⟩
  | read p n =>
    simp only [Console.step] at hs
    simp only [Spec.step, h.call p]
    cases hx : s.call p with
    | some x =>
      rw [hx] at hs
      cases hs
    | none =>
      rw [hx] at hs
      dsimp only at hs
      simp only [Option.map_none]
      split at hs
      · rename_i hn
        cases hs
        rw [if_pos hn]
        exact ⟨_, rfl, h.wait p ⟨hn, by simp⟩⟩
      · rename_i hn
        cases hs
        rw [if_neg hn, Int.sub_self]
        exact ⟨_, rfl, h.finish p ⟨n, n, []⟩ 0⟩
  | turn p =>
    simp only [Console.step] at hs
    simp only [Spec.step, h.call p]
    cases hx : s.call p with
    | none =>
      rw [hx] at hs
      cases hs
    | some x =>
      rw [hx] at hs
      dsimp only at hs
      split at hs
      · cases hs
      · rename_i hne
        cases hs
        obtain ⟨rest, hwait, hk⟩ := h.cons.take hne
        rw [hwait]
        exact ⟨_, rfl, h.turn hx hk⟩
  | killed p =>
    simp only [Console.step] at hs
    simp only [Spec.step, h.call p]
    cases hx : s.call p with
    | none =>
      rw [hx] at hs
      cases hs
    | some x =>
      rw [hx] at hs
      dsimp only at hs
      split at hs
      · rename_i he
        cases hs
        rw [h.cons.empty_iff.mp he]
        exact ⟨_, rfl, h.finish p x (-1)⟩
      · cases hs

end Refines

/-! ## What is delivered -/

/-- What a call has delivered when it returns: at most what was asked for, with
    no newline before the end. It returns how much that is, unless its process
    has been killed. -/
structure Ret.Ok (r : Ret) : Prop where
  most : (r.got.length : Int) ≤ max r.asked 0
  line : newline ∉ r.got.dropLast
  ret : r.ret = r.got.length ∨ r.ret = -1

structure Request.Ok (x : Request) : Prop where
  more : (x.got.length : Int) < x.asked
  line : newline ∉ x.got

variable {p : P} {t : Spec P} {x : Request}

theorem Request.Ok.ret {v : Int} (h : x.Ok) (hv : v = x.got.length ∨ v = -1) :
    (Ret.mk x.asked v x.got).Ok :=
  ⟨le_trans (le_of_lt h.more) (le_max_left _ _), fun hm => h.line (mem_of_mem_dropLast hm), hv⟩

/-- What the call that `p` is in has delivered. -/
def Spec.pending (t : Spec P) (p : P) : List UInt8 := (t.call p).elim [] Request.got

theorem Spec.pending_of_call (hx : t.call p = some x) : t.pending p = x.got := by
  rw [pending, hx]
  rfl

variable [DecidableEq P]

/-- The bytes that `p` was given. -/
def bytesTo (out : List (P × UInt8)) (p : P) : List UInt8 :=
  (out.filter fun x => x.1 = p).map Prod.snd

/-- What the calls of `p` have returned, one after the other. -/
def returned (done : List (P × Ret)) (p : P) : List UInt8 :=
  (done.filter fun x => x.1 = p).flatMap fun x => x.2.got

/-- What has been taken has been delivered, but for the `^D`s. -/
structure Delivered (t : Spec P) : Prop where
  taken : t.line.taken ≤ t.line.committed.length
  stream : t.out.map Prod.snd = (t.line.committed.take t.line.taken).filter (· ≠ C 'D')
  each : ∀ p, bytesTo t.out p = returned t.done p ++ t.pending p

/-- Calls stop where they should. -/
structure Calls (t : Spec P) : Prop where
  running : ∀ p x, t.call p = some x → x.Ok
  done : ∀ r ∈ t.done, r.2.Ok

theorem Delivered.deliver {c : UInt8} {rest : List UInt8}
    (h : Delivered t) (hx : t.call p = some x) (hw : t.line.waiting = c :: rest) (hD : c ≠ C 'D') :
    Delivered { t with
      line := t.line.take
      out := t.out ++ [(p, c)]
      call := update t.call p (some { x with got := x.got ++ [c] }) } := by
  obtain ⟨htake, hlt⟩ := Line.take_taken hw
  refine ⟨hlt, ?_, fun q => ?_⟩
  · show (t.out ++ [(p, c)]).map Prod.snd = (t.line.committed.take (t.line.taken + 1)).filter _
    rw [map_append, h.stream, htake, filter_append]
    simp [hD]
  · show bytesTo (t.out ++ [(p, c)]) q = returned t.done q ++
      (update t.call p _ q).elim [] Request.got
    have heach := h.each q
    unfold bytesTo Spec.pending at *
    rw [filter_append, map_append, heach]
    by_cases hq : q = p
    · subst hq
      rw [update_self, hx]
      simp
    · rw [update_of_ne hq]
      simp [Ne.symm hq]

theorem Delivered.skip {rest : List UInt8} (h : Delivered t)
    (hw : t.line.waiting = C 'D' :: rest) : Delivered { t with line := t.line.take } := by
  obtain ⟨htake, hlt⟩ := Line.take_taken hw
  refine ⟨hlt, ?_, h.each⟩
  show t.out.map Prod.snd = (t.line.committed.take (t.line.taken + 1)).filter _
  rw [htake, filter_append, h.stream]
  simp

theorem Delivered.finish (h : Delivered t)
    (hx : t.pending p = x.got) (v : Int) : Delivered (t.finish p x v) := by
  refine ⟨h.taken, h.stream, fun q => ?_⟩
  show bytesTo t.out q = returned (t.done ++ [(p, ⟨x.asked, v, x.got⟩)]) q ++
    (update t.call p none q).elim [] Request.got
  rw [h.each q]
  unfold returned
  rw [filter_append, flatMap_append]
  by_cases hq : q = p
  · subst hq
    rw [update_self, hx]
    simp
  · rw [update_of_ne hq]
    simp [Ne.symm hq, Spec.pending]

section Steps

variable {t t' : Spec P} {p : P} {x : Request} {c : UInt8} {rest : List UInt8}

theorem Delivered.turn (h : Delivered t) (hx : t.call p = some x)
    (hw : t.line.waiting = c :: rest) : Delivered (t.turn p x c) := by
  unfold Spec.turn
  by_cases hD : c = C 'D'
  · rw [if_pos hD]
    split_ifs
    · rw [hD] at hw
      exact (h.skip hw).finish (Spec.pending_of_call hx) 0
    · exact h.finish (Spec.pending_of_call hx) _
  · rw [if_neg hD]
    dsimp only
    have hnext := h.deliver hx hw hD
    split_ifs
    · have hend := hnext.finish (p := p) (x := { x with got := x.got ++ [c] })
        (Spec.pending_of_call (update_self ..)) ((x.got ++ [c]).length : Int)
      unfold Spec.finish at hend ⊢
      simp only [update_idem] at hend
      exact hend
    · exact hnext

theorem Delivered.step {e : Event P} (h : Delivered t) (hs : t.step e = .next t') :
    Delivered t' := by
  cases e with
  | intr c =>
    cases hs
    obtain ⟨htaken, hstream⟩ := Line.stream_type h.taken c
    refine ⟨htaken, ?_, h.each⟩
    show t.out.map Prod.snd = ((t.line.type c).committed.take (t.line.type c).taken).filter _
    rw [hstream]
    exact h.stream
  | read p n =>
    simp only [Spec.step] at hs
    split at hs
    · cases hs
    · rename_i hnone
      have hnil : t.pending p = [] := by
        rw [Spec.pending, hnone]
        rfl
      split at hs
      · cases hs
        refine ⟨h.taken, h.stream, fun q => ?_⟩
        show bytesTo t.out q = returned t.done q ++
          (update t.call p _ q).elim [] Request.got
        rw [h.each q]
        by_cases hq : q = p
        · subst hq
          rw [update_self, hnil]
          rfl
        · rw [update_of_ne hq]
          rfl
      · cases hs
        exact h.finish (x := ⟨n, []⟩) hnil 0
  | turn p =>
    simp only [Spec.step] at hs
    split at hs
    · rename_i x c rest hx hw
      cases hs
      exact h.turn hx hw
    · cases hs
  | killed p =>
    simp only [Spec.step] at hs
    split at hs
    · rename_i x hx _
      cases hs
      exact h.finish (Spec.pending_of_call hx) (-1)
    · cases hs

theorem Calls.finish {v : Int} (h : Calls t) (hr : (Ret.mk x.asked v x.got).Ok) :
    Calls (t.finish p x v) := by
  refine ⟨fun q y hy => ?_, fun r hr' => ?_⟩
  · by_cases hq : q = p
    · subst hq
      rw [show (t.finish q x v).call q = none from update_self ..] at hy
      cases hy
    · rw [show (t.finish p x v).call q = t.call q from update_of_ne hq ..] at hy
      exact h.running q y hy
  · rcases mem_append.mp hr' with hr' | hr'
    · exact h.done r hr'
    · rw [mem_singleton.mp hr']
      exact hr

theorem Calls.wait (h : Calls t) (p : P) (hx : x.Ok) :
    Calls { t with call := update t.call p (some x) } := by
  refine ⟨fun q y hy => ?_, h.done⟩
  have hy' : update t.call p (some x) q = some y := hy
  by_cases hq : q = p
  · subst hq
    rw [update_self] at hy'
    cases hy'
    exact hx
  · rw [update_of_ne hq] at hy'
    exact h.running q y hy'

theorem Calls.turn (h : Calls t) (hx : t.call p = some x) (c : UInt8) : Calls (t.turn p x c) := by
  have hok := h.running p x hx
  unfold Spec.turn
  by_cases hD : c = C 'D'
  · rw [if_pos hD]
    split_ifs with hnil
    · have hline : Calls { t with line := t.line.take } := ⟨h.running, h.done⟩
      exact hline.finish (hok.ret (.inl (by rw [hnil]; rfl)))
    · exact h.finish (hok.ret (.inl rfl))
  · rw [if_neg hD]
    dsimp only
    have hline : Calls { t with line := t.line.take, out := t.out ++ [(p, c)] } :=
      ⟨h.running, h.done⟩
    have hmore := hok.more
    have hlen : ((x.got ++ [c]).length : Int) = x.got.length + 1 := by
      rw [length_append]
      rfl
    split_ifs with hstop
    · refine hline.finish ⟨?_, ?_, .inl rfl⟩
      · show ((x.got ++ [c]).length : Int) ≤ max x.asked 0
        exact le_trans (by omega) (le_max_left _ _)
      · show newline ∉ (x.got ++ [c]).dropLast
        rw [dropLast_concat]
        exact hok.line
    · refine hline.wait p ⟨?_, fun hm => ?_⟩
      · show ((x.got ++ [c]).length : Int) < x.asked
        have hne : ((x.got ++ [c]).length : Int) ≠ x.asked := fun he => hstop (.inr he)
        omega
      · rcases mem_append.mp hm with hm | hm
        · exact hok.line hm
        · exact hstop (.inl (mem_singleton.mp hm).symm)

theorem Calls.step {e : Event P} (h : Calls t) (hs : t.step e = .next t') : Calls t' := by
  cases e with
  | intr c =>
    cases hs
    exact ⟨h.running, h.done⟩
  | read p n =>
    simp only [Spec.step] at hs
    split at hs
    · cases hs
    · split at hs
      · rename_i hn
        cases hs
        exact h.wait p ⟨hn, not_mem_nil⟩
      · cases hs
        exact h.finish (x := ⟨n, []⟩) ⟨le_max_right _ _, not_mem_nil, .inl rfl⟩
  | turn p =>
    simp only [Spec.step] at hs
    split at hs
    · rename_i x c _ hx _
      cases hs
      exact h.turn hx c
    · cases hs
  | killed p =>
    simp only [Spec.step] at hs
    split at hs
    · rename_i x hx _
      cases hs
      exact h.finish ((h.running p x hx).ret (.inr rfl))
    · cases hs

end Steps

/-! ## The line discipline -/

theorem killLine_frame (fuel : Nat) (k : Cons) :
    (killLine fuel k).r = k.r ∧ (killLine fuel k).w = k.w ∧ (killLine fuel k).buf = k.buf := by
  induction fuel generalizing k with
  | zero => exact ⟨rfl, rfl, rfl⟩
  | succ fuel ih =>
    unfold killLine
    split_ifs
    · exact ih _
    · exact ⟨rfl, rfl, rfl⟩

/-- Only characters after `w` have been taken back. -/
structure Erased (k k' : Cons) : Prop where
  read : k'.r = k.r
  write : k'.w = k.w
  buf : k'.buf = k.buf
  edit : Ring.used k.r k.w ≤ Ring.used k.r k'.e

theorem Holds.erased {k : Cons} {l : Line} (h : Holds k l) {c : UInt8}
    (hc : c = C 'U' ∨ c = C 'H' ∨ c = delete) : Erased k (consoleintr c k) := by
  have hframe : (consoleintr c k).r = k.r ∧ (consoleintr c k).w = k.w ∧
      (consoleintr c k).buf = k.buf := by
    unfold consoleintr
    rcases hc with rfl | hH
    · rw [if_neg (by decide), if_pos rfl]
      exact killLine_frame _ k
    · have hP : c ≠ C 'P' := by
        rcases hH with rfl | rfl
        · decide
        · decide
      have hU : c ≠ C 'U' := by
        rcases hH with rfl | rfl
        · decide
        · decide
      rw [if_neg hP, if_neg hU, if_pos hH]
      split_ifs
      · exact ⟨rfl, rfl, rfl⟩
      · exact ⟨rfl, rfl, rfl⟩
  have hused := (h.intr c).used
  rw [hframe.1, hframe.2.1] at hused
  exact ⟨hframe.1, hframe.2.1, hframe.2.2, by omega⟩

/-- A `^D` ends the call that meets it, and is taken only by one that has
    delivered nothing. -/
theorem Refines.turn_eof {s : State P} {x : Call} (h : Refines s t)
    (hx : s.call p = some x) (hne : s.cons.r ≠ s.cons.w) (hD : s.cons.front = C 'D') :
    ∃ s', Console.step s (.turn p) = .next s' ∧ s'.call p = none ∧
      s'.done = s.done ++ [(p, ⟨x.target, x.got.length, x.got⟩)] ∧
      s'.cons = if x.got = [] then s.cons.drop else s.cons := by
  have hok := h.calls p x hx
  have hcount := hok.count
  refine ⟨s.turn p x, ?_, ?_⟩
  · simp only [Console.step, hx]
    rw [if_neg hne]
  · unfold State.turn
    simp only [if_pos hD]
    by_cases hgot : x.got = []
    · have hn : ¬ x.n < x.target := by
        rw [hgot, length_nil] at hcount
        omega
      rw [if_neg hn, if_pos hgot, hok.count']
      exact ⟨update_self .., rfl, rfl⟩
    · have hlen := length_pos_iff.mpr hgot
      rw [if_pos (by omega), if_neg hgot, hok.count']
      exact ⟨update_self .., rfl, rfl⟩

/-- **The line discipline is exact.** For any number of readers and any
    interleaving of characters and reads, wherever the counters start: the
    indices stay in order and within the buffer, erasing stops at `w`, the code
    goes the way of the specification, what has been delivered is what was
    committed, in order and without the `^D`s, and each call returns what it
    should. -/
theorem line_discipline {s₀ s : State P} (h₀ : Boot s₀) {es : List (Event P)}
    (h : exec step s₀ es = .next s) :
    (Ring.used s.cons.r s.cons.w ≤ Ring.used s.cons.r s.cons.e ∧
      Ring.used s.cons.r s.cons.e ≤ INPUT_BUF_SIZE) ∧
    (∀ c, c = C 'U' ∨ c = C 'H' ∨ c = delete → Erased s.cons (consoleintr c s.cons)) ∧
    (∀ p x, s.call p = some x → s.cons.r ≠ s.cons.w → s.cons.front = C 'D' →
      ∃ s', step s (.turn p) = .next s' ∧ s'.call p = none ∧
        s'.done = s.done ++ [(p, ⟨x.target, x.got.length, x.got⟩)] ∧
        s'.cons = if x.got = [] then s.cons.drop else s.cons) ∧
    ∃ t : Spec P, exec Spec.step Spec.start es = .next t ∧ s.out = t.out ∧ s.done = t.done ∧
      Holds s.cons t.line ∧
      s.out.map Prod.snd = (t.line.committed.take t.line.taken).filter (· ≠ C 'D') ∧
      (∀ p, bytesTo s.out p = returned s.done p ++ (s.call p).elim [] Call.got) ∧
      ∀ r ∈ s.done, r.2.Ok := by
  have hboot : Refines s₀ Spec.start := by
    refine ⟨⟨?_, ?_, ?_, nofun, Nat.zero_le _⟩, fun p => ?_, fun p x hx => ?_, h₀.out, h₀.done⟩
    · rw [h₀.edit]
      exact length_eq_zero_iff.mp (by rw [Ring.contents_length, Ring.used_self])
    · rw [h₀.write, Ring.used_self]
      rfl
    · rw [h₀.edit, Ring.used_self]
      exact Nat.zero_le _
    · rw [h₀.call p]
      rfl
    · rw [h₀.call p] at hx
      cases hx
  obtain ⟨t, ht, href⟩ := exec_simulates (fun _ _ _ _ hR hs => hR.step hs) hboot h
  have hstart : Delivered (Spec.start : Spec P) := ⟨le_refl _, rfl, fun _ => rfl⟩
  have hcalls : Calls (Spec.start : Spec P) := ⟨nofun, nofun⟩
  have hdel : Delivered t ∧ Calls t := exec_history (fun _ t => Delivered t ∧ Calls t)
    ⟨hstart, hcalls⟩ (fun _ _ _ _ hd hs => ⟨hd.1.step hs, hd.2.step hs⟩) ht
  have hused := href.cons.used
  refine ⟨⟨by omega, href.cons.bound⟩, fun c hc => href.cons.erased hc,
    fun p x hx hne hD => href.turn_eof hx hne hD, t, ht, href.out, href.done, href.cons, ?_,
    fun p => ?_, ?_⟩
  · rw [href.out]
    exact hdel.1.stream
  · rw [href.out, href.done, hdel.1.each p, Spec.pending, href.call p]
    cases s.call p with
    | none => rfl
    | some x => rfl
  · rw [href.done]
    exact hdel.2.done

end Runs

/-! ## A line -/

/-- Just before the counters wrap. -/
def nearWrap : State Unit :=
  ⟨⟨fun _ => 0, 0xfffffffe, 0xfffffffe, 0xfffffffe⟩, fun _ => none, [], []⟩

/-- `a`, `x`, delete, `b`, return; then a read of ten bytes, and one of a line
    that ends in `^D`. -/
def twoReads : List (Event Unit) :=
  [.intr 97, .intr 120, .intr delete, .intr 98, .intr 13, .read () 10, .turn (), .turn (), .turn (),
    .intr 99, .intr 4, .read () 10, .turn (), .turn (), .read () 10, .turn ()]

theorem line_discipline_twoReads : ∃ s, exec step nearWrap twoReads = .next s ∧
    s.done = [((), ⟨10, 3, [97, 98, 10]⟩), ((), ⟨10, 1, [99]⟩), ((), ⟨10, 0, []⟩)] ∧
    ∃ t : Spec Unit, exec Spec.step Spec.start twoReads = .next t ∧ s.done = t.done := by
  obtain ⟨s, hs, hdone⟩ := Outcome.exists_of_check (show (exec step nearWrap twoReads).check
    (fun s => decide (s.done = [((), ⟨10, 3, [97, 98, 10]⟩), ((), ⟨10, 1, [99]⟩),
      ((), ⟨10, 0, []⟩)])) = true by decide +kernel)
  have hboot : Boot nearWrap := ⟨rfl, rfl, fun _ => rfl, rfl, rfl⟩
  obtain ⟨-, -, -, t, ht, -, hsame, -⟩ := line_discipline hboot hs
  exact ⟨s, hs, of_decide_eq_true hdone, t, ht, hsame⟩

end Console
end Xv6
