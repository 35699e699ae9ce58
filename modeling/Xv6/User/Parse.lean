import Xv6.Lib.Sys
import Xv6.User.Shell

/-!
# The shell's parser

`parsecmd` and the functions under it, as they work on a line in memory: the
state is the cursor `*ps`, an offset into the line, and a syntax error is the
`panic` it ends in. A token is two offsets of the line; the `argv` and `eargv`
of a command are the pairs of them, in order, up to the null pointer. Recursion
and loops count down a fuel, and run out of it as `hang`; a store beyond `argv`
would be the stop `argvOverflow`. `malloc` is taken to succeed.

The second half of the module says what `gettoken` and `peek` do in terms of the
list of tokens of the line (`lex`), which is defined without a cursor. Nothing
after it looks at characters.
-/

namespace Xv6
namespace Sh

open List Sys Nat

/-! ## The code -/

abbrev MAXARGS : Nat := 10

abbrev O_RDONLY : Nat := 0x000
abbrev O_WRONLY : Nat := 0x001
abbrev O_CREATE : Nat := 0x200
abbrev O_TRUNC : Nat := 0x400

def ch (c : Char) : UInt8 := UInt8.ofNat c.toNat

/-- `char whitespace[] = " \t\r\n\v"` -/
def whitespace : List UInt8 := [32, 9, 13, 10, 11]

/-- `char symbols[] = "<|>&;()"` -/
def symbols : List UInt8 := ['<', '|', '>', '&', ';', '(', ')'].map ch

def blank (c : UInt8) : Bool := whitespace.contains c

/-- `!strchr(whitespace, c) && !strchr(symbols, c)` -/
def wordChar (c : UInt8) : Bool := !blank c && !symbols.contains c

/-- What `gettoken` returns, but for the 0 at the end of the line: the character
    itself, `'+'` for `>>` and `'a'` for a word. -/
inductive Kind where
  | bar | lparen | rparen | semi | amp | lt | gt | gtgt | word
  deriving DecidableEq, Repr

/-- The cases of the `switch`. -/
def symbol (c : UInt8) : Option Kind :=
  if c = ch '|' then some .bar
  else if c = ch '(' then some .lparen
  else if c = ch ')' then some .rparen
  else if c = ch ';' then some .semi
  else if c = ch '&' then some .amp
  else if c = ch '<' then some .lt
  else if c = ch '>' then some .gt
  else none

/-- Parsed command representation -/
inductive Cmd where
  | exec (argv : List (Nat × Nat))
  | redir (cmd : Cmd) (file efile : Nat) (mode fd : Nat)
  | pipe (left right : Cmd)
  | list (left right : Cmd)
  | back (cmd : Cmd)
  deriving DecidableEq, Repr

/-- `cmd->argv[argc] = q; cmd->eargv[argc] = eq`, where `cmd` is the command
    inside the redirections. -/
def Cmd.push (q eq : Nat) : Cmd → Cmd
  | exec argv => exec (argv ++ [(q, eq)])
  | redir cmd file efile mode fd => redir (cmd.push q eq) file efile mode fd
  | pipe left right => pipe left right
  | list left right => list left right
  | back cmd => back cmd

/-- A store beyond the end of `argv`. -/
def argvOverflow : Sys Nat Cmd := Sys.panic "argv[MAXARGS]"

section Code

variable (mem : List UInt8)

/-- `*s` -/
def byteAt (s : Nat) : UInt8 := mem.getD s 0

/-- `while (s < es && p(*s)) s++`, with `es - s` turns at most. -/
def skipLoop (p : UInt8 → Bool) : Nat → Nat → Nat
  | 0, s => s
  | fuel + 1, s => if p (byteAt mem s) then skipLoop p fuel (s + 1) else s

def skip (p : UInt8 → Bool) (es s : Nat) : Nat := skipLoop mem p (es - s) s

/-- The `switch` of `gettoken`: what there is at `s`, and where it ends. -/
def scan (es s : Nat) : Option Kind × Nat :=
  if byteAt mem s = 0 then (none, s)
  else
    match symbol (byteAt mem s) with
    | some .gt => if byteAt mem (s + 1) = ch '>' then (some .gtgt, s + 2) else (some .gt, s + 1)
    | some k => (some k, s + 1)
    | none => (some .word, skip mem wordChar es s)

def gettoken (es : Nat) : Sys Nat (Option Kind × Nat × Nat) := do
  let s ← Sys.reads id
  let q := skip mem blank es s
  let (ret, eq) := scan mem es q
  Sys.modify fun _ => skip mem blank es eq
  pure (ret, q, eq)

def peek (es : Nat) (toks : List Char) : Sys Nat Bool := do
  Sys.modify fun s => skip mem blank es s
  let s ← Sys.reads id
  pure (byteAt mem s ≠ 0 && (toks.map ch).contains (byteAt mem s))

def parseredirs (es : Nat) : Nat → Cmd → Sys Nat Cmd
  | 0, _ => Sys.hang
  | fuel + 1, cmd => do
    if ← peek mem es ['<', '>'] then do
      let (tok, _) ← gettoken mem es
      let (word, q, eq) ← gettoken mem es
      if word ≠ some .word then Sys.panic "missing file for redirection"
      else
        match tok with
        | some .lt => parseredirs es fuel (.redir cmd q eq O_RDONLY 0)
        | some .gt => parseredirs es fuel (.redir cmd q eq (O_WRONLY ||| O_CREATE ||| O_TRUNC) 1)
        | some .gtgt => parseredirs es fuel (.redir cmd q eq (O_WRONLY ||| O_CREATE) 1)
        | _ => parseredirs es fuel cmd
    else pure cmd

/-- The loop of `parseexec`, and the two stores after it. -/
def parseargs (es : Nat) : Nat → Nat → Cmd → Sys Nat Cmd
  | 0, _, _ => Sys.hang
  | fuel + 1, argc, ret => do
    if ← peek mem es ['|', ')', '&', ';'] then
      if argc < MAXARGS then pure ret else argvOverflow
    else do
      let (tok, q, eq) ← gettoken mem es
      match tok with
      | none => if argc < MAXARGS then pure ret else argvOverflow
      | some .word =>
        if argc < MAXARGS then
          if argc + 1 ≥ MAXARGS then Sys.panic "too many args"
          else do
            let ret ← parseredirs mem es fuel (ret.push q eq)
            parseargs es fuel (argc + 1) ret
        else argvOverflow
      | some _ => Sys.panic "syntax"

/-- The loop of `parseline` over `&`. -/
def parseback (es : Nat) : Nat → Cmd → Sys Nat Cmd
  | 0, _ => Sys.hang
  | fuel + 1, cmd => do
    if ← peek mem es ['&'] then do
      let _ ← gettoken mem es
      parseback es fuel (.back cmd)
    else pure cmd

mutual

def parseline (es : Nat) : Nat → Sys Nat Cmd
  | 0 => Sys.hang
  | fuel + 1 => do
    let cmd ← parsepipe es fuel
    let cmd ← parseback mem es fuel cmd
    if ← peek mem es [';'] then do
      let _ ← gettoken mem es
      let right ← parseline es fuel
      pure (.list cmd right)
    else pure cmd

def parsepipe (es : Nat) : Nat → Sys Nat Cmd
  | 0 => Sys.hang
  | fuel + 1 => do
    let cmd ← parseexec es fuel
    if ← peek mem es ['|'] then do
      let _ ← gettoken mem es
      let right ← parsepipe es fuel
      pure (.pipe cmd right)
    else pure cmd

def parseblock (es : Nat) : Nat → Sys Nat Cmd
  | 0 => Sys.hang
  | fuel + 1 => do
    if ← peek mem es ['('] then do
      let _ ← gettoken mem es
      let cmd ← parseline es fuel
      if ← peek mem es [')'] then do
        let _ ← gettoken mem es
        parseredirs mem es fuel cmd
      else Sys.panic "syntax - missing )"
    else Sys.panic "parseblock"

def parseexec (es : Nat) : Nat → Sys Nat Cmd
  | 0 => Sys.hang
  | fuel + 1 => do
    if ← peek mem es ['('] then parseblock es fuel
    else do
      let ret ← parseredirs mem es fuel (.exec [])
      parseargs mem es fuel 0 ret

end

/-- NUL-terminate all the counted strings. -/
def nulterminate : Cmd → List UInt8 → List UInt8
  | .exec argv, mem => argv.foldl (fun mem a => mem.set a.2 0) mem
  | .redir cmd _ efile _ _, mem => (nulterminate cmd mem).set efile 0
  | .pipe left right, mem => nulterminate right (nulterminate left mem)
  | .list left right, mem => nulterminate right (nulterminate left mem)
  | .back cmd, mem => nulterminate cmd mem

/-- `parsecmd` before `nulterminate`. -/
def parsewhole (es : Nat) : Sys Nat Cmd := do
  let cmd ← parseline mem es (4 * es + 4)
  let _ ← peek mem es []
  let s ← Sys.reads id
  if s ≠ es then Sys.panic "syntax" else pure cmd

/-- The command that a line is, and the line afterwards. -/
def parsecmd : Except Stop (Cmd × List UInt8) :=
  match parsewhole mem (cstr mem).length 0 with
  | .ok (cmd, _) => .ok (cmd, nulterminate cmd mem)
  | .error e => .error e

end Code

/-! ## Tokens -/

/-- A token: what it is, and where it starts and ends. -/
structure Token where
  kind : Kind
  q : Nat
  eq : Nat
  deriving DecidableEq, Repr

/-- The token at the start of a text that does not start with a blank, and its
    length. -/
def firstToken (c : UInt8) (cs : List UInt8) : Kind × Nat :=
  match symbol c with
  | some .gt => if cs.head? = some (ch '>') then (.gtgt, 2) else (.gt, 1)
  | some k => (k, 1)
  | none => (.word, ((c :: cs).takeWhile wordChar).length)

def lexLoop : Nat → Nat → List UInt8 → List Token
  | 0, _, _ => []
  | _ + 1, _, [] => []
  | fuel + 1, p, c :: cs =>
    if blank c then lexLoop fuel (p + 1) cs
    else ⟨(firstToken c cs).1, p, p + (firstToken c cs).2⟩ ::
      lexLoop fuel (p + (firstToken c cs).2) ((c :: cs).drop (firstToken c cs).2)

/-- The tokens of a text that starts at offset `p`. -/
def lex (p : Nat) (l : List UInt8) : List Token := lexLoop l.length p l

variable {c : UInt8}

theorem symbol_eq_none : symbol c = none ↔ symbols.contains c = false := by
  unfold symbol symbols
  simp only [map_cons, map_nil, contains_cons, contains_nil, Bool.or_false,
    Bool.or_eq_false_iff, beq_eq_false_iff_ne]
  split_ifs <;> simp_all

theorem firstToken_pos (cs : List UInt8) (hc : blank c = false) : 0 < (firstToken c cs).2 := by
  unfold firstToken
  split
  · split_ifs
    · exact Nat.two_pos
    · exact Nat.one_pos
  · exact Nat.one_pos
  · rename_i hnone
    have hword : wordChar c = true := by
      unfold wordChar
      rw [hc, symbol_eq_none.mp hnone]
      rfl
    rw [takeWhile_cons_of_pos hword]
    exact succ_pos _

theorem lexLoop_cons (n p : Nat) (cs : List UInt8) : lexLoop (n + 1) p (c :: cs) =
    if blank c then lexLoop n (p + 1) cs else ⟨(firstToken c cs).1, p, p + (firstToken c cs).2⟩ ::
      lexLoop n (p + (firstToken c cs).2) ((c :: cs).drop (firstToken c cs).2) := rfl

theorem lexLoop_fuel {n m p : Nat} {l : List UInt8} (hn : l.length ≤ n) (hm : l.length ≤ m) :
    lexLoop n p l = lexLoop m p l := by
  -- each turn takes at least one character
  induction n generalizing m p l with
  | zero =>
    rw [length_eq_zero_iff.mp (Nat.le_zero.mp hn)]
    cases m with
    | zero => rfl
    | succ m => rfl
  | succ n ih =>
    cases l with
    | nil =>
      cases m with
      | zero => rfl
      | succ m => rfl
    | cons c cs =>
      obtain ⟨m, rfl⟩ : ∃ m', m = m' + 1 := ⟨m - 1, by rw [length_cons] at hm; omega⟩
      rw [length_cons] at hn hm
      rw [lexLoop_cons, lexLoop_cons]
      by_cases hc : blank c = true
      · rw [if_pos hc, if_pos hc]
        exact ih (by omega) (by omega)
      · rw [if_neg hc, if_neg hc]
        have hpos := firstToken_pos cs (eq_false_of_ne_true hc)
        have hlen : ((c :: cs).drop (firstToken c cs).2).length ≤ cs.length := by
          rw [length_drop, length_cons]
          omega
        rw [ih (by omega) (le_trans hlen (le_of_succ_le_succ hm))]

theorem lex_blank (hc : blank c = true) (p : Nat) (cs : List UInt8) :
    lex p (c :: cs) = lex (p + 1) cs := by
  unfold lex
  rw [length_cons, lexLoop_cons, if_pos hc]

theorem lex_token (hc : blank c = false) (p : Nat) (cs : List UInt8) :
    lex p (c :: cs) = ⟨(firstToken c cs).1, p, p + (firstToken c cs).2⟩ ::
      lex (p + (firstToken c cs).2) ((c :: cs).drop (firstToken c cs).2) := by
  have hpos := firstToken_pos cs hc
  unfold lex
  rw [length_cons, lexLoop_cons, if_neg (by rw [hc]; exact Bool.false_ne_true)]
  congr 1
  refine lexLoop_fuel ?_ (le_refl _)
  rw [length_drop, length_cons]
  omega

theorem lex_dropWhile (p : Nat) (l : List UInt8) :
    lex (p + (l.takeWhile blank).length) (l.dropWhile blank) = lex p l := by
  induction l generalizing p with
  | nil => rfl
  | cons c cs ih =>
    by_cases hc : blank c = true
    · rw [takeWhile_cons_of_pos hc, dropWhile_cons_of_pos hc, lex_blank hc, ← ih (p + 1),
        length_cons]
      congr 1
      omega
    · rw [takeWhile_cons_of_neg hc, dropWhile_cons_of_neg hc]
      rfl

theorem length_lex_le (p : Nat) (l : List UInt8) : (lex p l).length ≤ l.length := by
  unfold lex
  suffices h : ∀ n p (l : List UInt8), (lexLoop n p l).length ≤ n from h _ p l
  intro n
  induction n with
  | zero => exact fun p l => le_refl _
  | succ n ih =>
    intro p l
    cases l with
    | nil => exact Nat.zero_le _
    | cons c cs =>
      rw [lexLoop_cons]
      split_ifs
      · exact le_trans (ih _ _) (le_succ n)
      · rw [length_cons]
        exact succ_le_succ (ih _ _)

/-! ## The cursor -/

section Cursor

variable {mem : List UInt8} {p : Nat}

theorem byteAt_eq (h : p ≤ (cstr mem).length) :
    byteAt mem p = ((cstr mem).drop p).headD 0 := by
  unfold byteAt cstr at *
  induction mem generalizing p with
  | nil =>
    obtain rfl : p = 0 := Nat.le_zero.mp h
    rfl
  | cons c cs ih =>
    by_cases hc : c = 0
    · subst hc
      obtain rfl : p = 0 := Nat.le_zero.mp h
      rfl
    · have hne : (c != 0) = true := bne_iff_ne.mpr hc
      rw [takeWhile_cons_of_pos (p := (· != 0)) hne] at h ⊢
      cases p with
      | zero => rfl
      | succ p => exact ih (le_of_succ_le_succ h)

theorem mem_cstr_ne (h : c ∈ cstr mem) : c ≠ 0 := by
  have := mem_takeWhile_imp h
  simpa using this

theorem skip_eq (f : UInt8 → Bool) (h : p ≤ (cstr mem).length) :
    skip mem f (cstr mem).length p = p + (((cstr mem).drop p).takeWhile f).length := by
  unfold skip
  generalize hfuel : (cstr mem).length - p = fuel
  induction fuel generalizing p with
  | zero =>
    rw [drop_eq_nil_of_le (by omega)]
    rfl
  | succ fuel ih =>
    obtain ⟨c, rest, hdrop⟩ : ∃ c rest, (cstr mem).drop p = c :: rest :=
      exists_cons_of_length_pos (by rw [length_drop]; omega)
    have hnext : (cstr mem).drop (p + 1) = rest := by
      rw [← tail_drop, hdrop]
      rfl
    unfold skipLoop
    rw [byteAt_eq h, hdrop, headD_cons]
    by_cases hf : f c = true
    · rw [if_pos hf, ih (by omega) (by omega), hnext, takeWhile_cons_of_pos hf,
        length_cons]
      omega
    · rw [if_neg hf, takeWhile_cons_of_neg hf]
      rfl

/-- The cursor is inside the line, before the tokens `ts`. -/
structure At (mem : List UInt8) (p : Nat) (ts : List Token) : Prop where
  le : p ≤ (cstr mem).length
  toks : lex p ((cstr mem).drop p) = ts

variable {ts : List Token} {t : Token}

theorem drop_length_takeWhile (f : UInt8 → Bool) (l : List UInt8) :
    l.drop (l.takeWhile f).length = l.dropWhile f := by
  calc l.drop (l.takeWhile f).length
      = (l.takeWhile f ++ l.dropWhile f).drop (l.takeWhile f).length := by
        rw [takeWhile_append_dropWhile]
    _ = l.dropWhile f := drop_left

/-- Skipping blanks passes no token, and comes to the end or to a character that
    is none. -/
theorem At.skip (h : At mem p ts) : ∃ s, Sh.skip mem blank (cstr mem).length p = s ∧ At mem s ts ∧
      ((cstr mem).drop s = [] ∨ ∃ c cs, (cstr mem).drop s = c :: cs ∧ blank c = false) := by
  have hle := h.le
  have hlen := (takeWhile_sublist blank (l := (cstr mem).drop p)).length_le
  have hdrop : (cstr mem).drop (p + (((cstr mem).drop p).takeWhile blank).length) =
      ((cstr mem).drop p).dropWhile blank := by
    rw [← drop_drop, drop_length_takeWhile]
  refine ⟨_, skip_eq blank hle, ⟨?_, ?_⟩, ?_⟩
  · rw [length_drop] at hlen
    omega
  · rw [hdrop, lex_dropWhile, h.toks]
  · rw [hdrop]
    cases hd : ((cstr mem).drop p).dropWhile blank with
    | nil => exact .inl rfl
    | cons c cs =>
      have hhead := head?_dropWhile_not blank ((cstr mem).drop p)
      rw [hd] at hhead
      exact .inr ⟨c, cs, rfl, by simpa using hhead⟩

theorem firstToken_le (c : UInt8) (cs : List UInt8) : (firstToken c cs).2 ≤ (c :: cs).length := by
  unfold firstToken
  split
  · split_ifs with hgt
    · cases cs with
      | nil => cases hgt
      | cons d ds => exact succ_le_succ (succ_le_succ (Nat.zero_le _))
    · exact succ_le_succ (Nat.zero_le _)
  · exact succ_le_succ (Nat.zero_le _)
  · exact (takeWhile_sublist wordChar (l := c :: cs)).length_le

theorem scan_eq {cs : List UInt8} (h : p ≤ (cstr mem).length) (hd : (cstr mem).drop p = c :: cs) :
    scan mem (cstr mem).length p = (some (firstToken c cs).1, p + (firstToken c cs).2) := by
  have hc : c ≠ 0 := mem_cstr_ne (mem_of_mem_drop (hd ▸ mem_cons_self))
  have hlt : p + 1 ≤ (cstr mem).length := by
    have := congrArg List.length hd
    rw [length_drop, length_cons] at this
    omega
  have hnext : byteAt mem (p + 1) = cs.headD 0 := by
    rw [byteAt_eq hlt, ← tail_drop, hd, tail_cons]
  unfold scan firstToken
  rw [byteAt_eq h, hd, headD_cons, if_neg hc, hnext, skip_eq wordChar h, hd]
  cases hk : symbol c with
  | none => rfl
  | some k =>
    cases k with
    | gt =>
      cases cs with
      | nil => rfl
      | cons d ds =>
        by_cases hgt : d = ch '>'
        · subst hgt
          rfl
        · have hhead : (d :: ds).head? ≠ some (ch '>') := fun h => hgt (Option.some.inj h)
          exact (if_neg hgt).trans (by rw [if_neg hhead])
    | _ => rfl

theorem gettoken_run {q eq s' : Nat} {ret : Option Kind} {es : Nat}
    (hq : skip mem blank es p = q) (hscan : scan mem es q = (ret, eq))
    (hs' : skip mem blank es eq = s') :
    gettoken mem es p = .ok ((ret, q, eq), s') := by
  subst hq
  unfold gettoken
  rw [reads_bind_run]
  simp only [id]
  rw [hscan]
  show Except.ok ((ret, _, eq), _) = _
  rw [hs']

theorem gettoken_nil (h : At mem p []) :
    ∃ q eq p', gettoken mem (cstr mem).length p = .ok ((none, q, eq), p') ∧ At mem p' [] := by
  obtain ⟨s, hs, hat, hend | ⟨c, cs, hd, hc⟩⟩ := h.skip
  · obtain ⟨s', hs', hat', -⟩ := hat.skip
    have hbyte : byteAt mem s = 0 := by
      rw [byteAt_eq hat.le, hend]
      rfl
    exact ⟨s, s, s', gettoken_run hs (if_pos hbyte) hs', hat'⟩
  · have htoks := hat.toks
    rw [hd, lex_token hc] at htoks
    cases htoks

/-- **`gettoken` takes the next token off the line.** -/
theorem gettoken_cons (h : At mem p (t :: ts)) :
    ∃ p', gettoken mem (cstr mem).length p = .ok ((some t.kind, t.q, t.eq), p') ∧ At mem p' ts := by
  obtain ⟨s, hs, hat, hend | ⟨c, cs, hd, hc⟩⟩ := h.skip
  · have htoks := hat.toks
    rw [hend] at htoks
    cases htoks
  · have htoks := hat.toks
    rw [hd, lex_token hc] at htoks
    injection htoks with ht hts
    have hle := firstToken_le c cs
    rw [← hd, length_drop] at hle
    have hafter : At mem (s + (firstToken c cs).2) ts := by
      refine ⟨by have := hat.le; omega, ?_⟩
      rw [← drop_drop, hd, hts]
    obtain ⟨s', hs', hat', -⟩ := hafter.skip
    rw [← ht]
    exact ⟨s', gettoken_run hs (scan_eq hat.le hd) hs', hat'⟩

/-- The character a token starts with, as `peek` sees it; for a word it is none
    of `symbols`. -/
def Kind.first : Kind → Option UInt8
  | bar => some (ch '|')
  | lparen => some (ch '(')
  | rparen => some (ch ')')
  | semi => some (ch ';')
  | amp => some (ch '&')
  | lt => some (ch '<')
  | gt => some (ch '>')
  | gtgt => some (ch '>')
  | word => none

/-- Whether the next token starts with one of the characters. -/
def starts (toks : List Char) : List Token → Bool
  | [] => false
  | t :: _ => t.kind.first.any (toks.map ch).contains

theorem first_of_symbol {k : Kind} (h : symbol c = some k) : k.first = some c := by
  unfold symbol at h
  split_ifs at h with h1 h2 h3 h4 h5 h6 h7
  all_goals
    injection h with h
    subst h
    simp only [Kind.first, *]

theorem first_firstToken (c : UInt8) (cs : List UInt8) :
    (firstToken c cs).1.first = if symbols.contains c then some c else none := by
  unfold firstToken
  cases hk : symbol c with
  | none =>
    rw [symbol_eq_none.mp hk]
    rfl
  | some k =>
    have hin : symbols.contains c = true := by
      by_contra hnot
      rw [symbol_eq_none.mpr (eq_false_of_ne_true hnot)] at hk
      cases hk
    rw [if_pos hin, ← first_of_symbol hk]
    cases k with
    | gt =>
      dsimp only
      split_ifs <;> rfl
    | _ => rfl

/-- **`peek` looks at the next token and takes none.** -/
theorem peek_run (h : At mem p ts) {toks : List Char} (hsub : toks.map ch ⊆ symbols) :
    ∃ p', peek mem (cstr mem).length toks p = .ok (starts toks ts, p') ∧ At mem p' ts := by
  obtain ⟨s, hs, hat, hcase⟩ := h.skip
  refine ⟨s, ?_, hat⟩
  unfold peek
  rw [modify_bind_run, hs, reads_bind_run, pure_run, id, byteAt_eq hat.le, ← hat.toks]
  obtain hend | ⟨c, cs, hd, hc⟩ := hcase
  · rw [hend]
    rfl
  · have hne : c ≠ 0 := mem_cstr_ne (mem_of_mem_drop (hd ▸ mem_cons_self))
    rw [hd, lex_token hc, headD_cons, starts, first_firstToken, decide_eq_true hne,
      Bool.true_and]
    by_cases hin : symbols.contains c = true
    · rw [if_pos hin]
      rfl
    · rw [if_neg hin]
      have hnot : (toks.map ch).contains c = false := by
        by_contra hcon
        exact hin (contains_iff_mem.mpr
          (hsub (contains_iff_mem.mp (eq_true_of_ne_false hcon))))
      rw [hnot]
      rfl

/-- The `peek` at the end of `parsecmd` goes to the end of the line if no token
    is left. -/
theorem peek_end (h : At mem p ts) :
    ∃ b p', peek mem (cstr mem).length [] p = .ok (b, p') ∧ (p' = (cstr mem).length ↔ ts = []) := by
  obtain ⟨s, hs, hat, hcase⟩ := h.skip
  refine ⟨_, s, by unfold peek; rw [modify_bind_run, hs]; rfl, ?_⟩
  rw [← hat.toks]
  obtain hend | ⟨c, cs, hd, hc⟩ := hcase
  · have := drop_eq_nil_iff.mp hend
    have := hat.le
    rw [hend]
    exact ⟨fun _ => rfl, fun _ => by omega⟩
  · rw [hd, lex_token hc]
    constructor
    · intro hs
      rw [hs, drop_length] at hd
      cases hd
    · intro h
      cases h

end Cursor

end Sh
end Xv6
