import Xv6.Lib.Wp
import Xv6.User.Parse

/-!
# The grammar of command lines

What `parsecmd` accepts, as a grammar over the tokens of the line:

    line  ::= pipe '&'* [';' line]
    pipe  ::= cmd ['|' pipe]
    cmd   ::= '(' line ')' redir* | redir* (word redir*)*
    redir ::= ('<' | '>' | '>>') word

with at most `MAXARGS - 1` words in a simple command. `Derives` gives every
derivation its tree. The parser never looks back, so both directions go along
its own recursion: what a function returns derives from the tokens it took
(induction on the fuel), and a derivation followed by a token that cannot
continue it is what the function returns (induction on the derivation).

The call stack is taken to suffice for the recursion, as `malloc` is taken to
succeed.
-/

namespace Xv6
namespace Sh

open List Sys Nat

/-! ## Derivations -/

/-- A redirection of a command. -/
structure Redir where
  file : Nat
  efile : Nat
  mode : Nat
  fd : Nat

def Redir.wrap (cmd : Cmd) (r : Redir) : Cmd := .redir cmd r.file r.efile r.mode r.fd

/-- The open mode and the descriptor that an operator stands for. -/
def redirMode : Kind → Option (Nat × Nat)
  | .lt => some (O_RDONLY, 0)
  | .gt => some (O_WRONLY ||| O_CREATE ||| O_TRUNC, 1)
  | .gtgt => some (O_WRONLY ||| O_CREATE, 1)
  | _ => none

/-- `redir*` -/
inductive Redirs : List Token → List Redir → Prop
  | nil : Redirs [] []
  | cons {op w : Token} {mode fd : Nat} {ts : List Token} {rs : List Redir} :
    redirMode op.kind = some (mode, fd) → w.kind = .word → Redirs ts rs →
    Redirs (op :: w :: ts) (⟨w.q, w.eq, mode, fd⟩ :: rs)

/-- `(word redir*)*`, with its words and its redirections -/
inductive Words : List Token → List (Nat × Nat) → List Redir → Prop
  | nil : Words [] [] []
  | cons {w : Token} {ts ts' : List Token} {ws : List (Nat × Nat)} {rs rs' : List Redir} :
    w.kind = .word → Redirs ts rs → Words ts' ws rs' →
    Words (w :: (ts ++ ts')) ((w.q, w.eq) :: ws) (rs ++ rs')

/-- A command under that many `&`. -/
def backs : Nat → Cmd → Cmd
  | 0, c => c
  | n + 1, c => backs n (.back c)

inductive Sym where
  | line | pipe | cmd
  deriving DecidableEq, Repr

/-- **The grammar**, and the tree of each derivation: `&` is applied to the
    whole pipe, `;` and `|` nest to the right, and a later redirection is
    further out. -/
inductive Derives : Sym → List Token → Cmd → Prop
  | line {ts amps : List Token} {c : Cmd} :
    Derives .pipe ts c → (∀ t ∈ amps, t.kind = .amp) →
    Derives .line (ts ++ amps) (backs amps.length c)
  | list {ts amps ts' : List Token} {semi : Token} {c c' : Cmd} :
    Derives .pipe ts c → (∀ t ∈ amps, t.kind = .amp) → semi.kind = .semi → Derives .line ts' c' →
    Derives .line (ts ++ amps ++ semi :: ts') (.list (backs amps.length c) c')
  | pipe {ts : List Token} {c : Cmd} : Derives .cmd ts c → Derives .pipe ts c
  | pipes {ts ts' : List Token} {bar : Token} {c c' : Cmd} :
    Derives .cmd ts c → bar.kind = .bar → Derives .pipe ts' c' →
    Derives .pipe (ts ++ bar :: ts') (.pipe c c')
  | block {l r : Token} {ts ts' : List Token} {c : Cmd} {rs : List Redir} :
    l.kind = .lparen → Derives .line ts c → r.kind = .rparen → Redirs ts' rs →
    Derives .cmd (l :: (ts ++ r :: ts')) (rs.foldl Redir.wrap c)
  | simple {ts ts' : List Token} {ws : List (Nat × Nat)} {rs rs' : List Redir} :
    Redirs ts rs → Words ts' ws rs' → ws.length ≤ MAXARGS - 1 →
    Derives .cmd (ts ++ ts') ((rs ++ rs').foldl Redir.wrap (.exec ws))

theorem push_foldl_wrap (q eq : Nat) (rs : List Redir) (c : Cmd) :
    (rs.foldl Redir.wrap c).push q eq = rs.foldl Redir.wrap (c.push q eq) := by
  induction rs generalizing c with
  | nil => rfl
  | cons r rs ih => exact ih (r.wrap c)

/-- The messages of a rejected line. -/
def syntaxErrors : List Stop :=
  [.panic "syntax", .panic "syntax - missing )", .panic "missing file for redirection",
    .panic "too many args"]

/-! ## Peeking and taking -/

section Parser

variable {mem : List UInt8} {p : Nat} {ts : List Token} {t : Token}
variable {α : Type} {Q : α → Nat → Prop} {X : Stop → Prop}

variable {toks : List Char}

theorem wp_peek (h : At mem p ts) (hsub : toks.map ch ⊆ symbols)
    {x y : Sys Nat α} (hyes : ∀ p', starts toks ts = true → At mem p' ts → x.wp p' Q X)
    (hno : ∀ p', starts toks ts = false → At mem p' ts → y.wp p' Q X) :
    (peek mem (cstr mem).length toks >>= fun b => if b = true then x else y).wp p Q X := by
  obtain ⟨p', hp, hat⟩ := peek_run h hsub
  refine wp_bind (wp_of_ok hp ?_)
  cases hs : starts toks ts with
  | true => exact hyes p' hs hat
  | false => exact hno p' hs hat

theorem wp_gettoken (h : At mem p (t :: ts)) {f : Option Kind × Nat × Nat → Sys Nat α}
    (hf : ∀ p', At mem p' ts → (f (some t.kind, t.q, t.eq)).wp p' Q X) :
    (gettoken mem (cstr mem).length >>= f).wp p Q X := by
  obtain ⟨p', hp, hat⟩ := gettoken_cons h
  exact wp_bind (wp_of_ok hp (hf p' hat))

theorem wp_gettoken_nil (h : At mem p []) {f : Option Kind × Nat × Nat → Sys Nat α}
    (hf : ∀ q eq p', At mem p' [] → (f (none, q, eq)).wp p' Q X) :
    (gettoken mem (cstr mem).length >>= f).wp p Q X := by
  obtain ⟨q, eq, p', hp, hat⟩ := gettoken_nil h
  exact wp_bind (wp_of_ok hp (hf q eq p' hat))

/-- Which tokens the characters of a `peek` stand for. -/
theorem starts_cons {P : Kind → Prop} (h : starts toks ts = true)
    (hP : ∀ k : Kind, k.first.any (toks.map ch).contains = true → P k) :
    ∃ t ts', ts = t :: ts' ∧ P t.kind := by
  cases ts with
  | nil => cases h
  | cons t ts' => exact ⟨t, ts', rfl, hP t.kind h⟩

theorem starts_of_kind {k : Kind} (hk : t.kind = k) :
    starts toks (t :: ts) = k.first.any (toks.map ch).contains := by
  rw [← hk]
  rfl

/-! ## What is returned derives from what was taken -/

/-- The tree that was returned belongs to the tokens before the cursor. -/
def Took (mem : List UInt8) (ts : List Token) (P : List Token → Cmd → Prop) (c : Cmd) (p : Nat) :
    Prop :=
  ∃ ts₁ ts₂, ts = ts₁ ++ ts₂ ∧ P ts₁ c ∧ At mem p ts₂

/-- A rejected line is rejected with a message: no loop is left without fuel,
    and nothing is stored beyond `argv`. -/
abbrev Rejected (e : Stop) : Prop := e ∈ syntaxErrors

theorem parseredirs_sound {fuel : Nat} (c : Cmd) (h : At mem p ts) (hf : ts.length < fuel) :
    (parseredirs mem (cstr mem).length fuel c).wp p
      (Took mem ts fun ts1 c' => ∃ rs, Redirs ts1 rs ∧ c' = rs.foldl Redir.wrap c) Rejected := by
  induction fuel generalizing p ts c with
  | zero => omega
  | succ fuel ih =>
    unfold parseredirs
    refine wp_peek h (by decide) (fun p hs h => ?_) (fun p _ h => ?_)
    · obtain ⟨op, ts, rfl, hop⟩ := starts_cons (P := fun k => (redirMode k).isSome = true) hs
        (by intro k; cases k <;> decide)
      obtain ⟨⟨mode, fd⟩, hmode⟩ := Option.isSome_iff_exists.mp hop
      refine wp_gettoken h fun p h => ?_
      cases ts with
      | nil => exact wp_gettoken_nil h fun q eq p h => wp_panic (by decide)
      | cons w ts =>
        refine wp_gettoken h fun p h => wp_ite (fun _ => wp_panic (by decide)) fun hw => ?_
        have hw : w.kind = .word := Option.some.inj (not_not.mp hw)
        suffices hrest : (parseredirs mem (cstr mem).length fuel (.redir c w.q w.eq mode fd)).wp p
            (Took mem (op :: w :: ts)
              fun ts1 c' => ∃ rs, Redirs ts1 rs ∧ c' = rs.foldl Redir.wrap c) Rejected by
          cases hk : op.kind <;> rw [hk] at hmode <;> cases hmode <;> exact hrest
        refine (ih _ h (by simp only [length_cons] at hf; omega)).imp ?_
        rintro c' p' ⟨ts1, ts2, rfl, ⟨rs, hrs, rfl⟩, hat⟩
        exact ⟨op :: w :: ts1, ts2, rfl, ⟨_, .cons hmode hw hrs, rfl⟩, hat⟩
    · exact wp_pure ⟨[], ts, rfl, ⟨[], .nil, rfl⟩, h⟩

theorem parseargs_sound {fuel : Nat} (ws : List (Nat × Nat)) (rs : List Redir) (h : At mem p ts)
    (hf : ts.length < fuel) (hws : ws.length < MAXARGS) :
    (parseargs mem (cstr mem).length fuel ws.length (rs.foldl Redir.wrap (.exec ws))).wp p
      (Took mem ts fun ts1 c' => ∃ ws' rs', Words ts1 ws' rs' ∧ (ws ++ ws').length < MAXARGS ∧
        c' = (rs ++ rs').foldl Redir.wrap (.exec (ws ++ ws'))) Rejected := by
  induction fuel generalizing p ts ws rs with
  | zero => omega
  | succ fuel ih =>
    have hdone : ∀ {p ts}, At mem p ts →
        (if ws.length < MAXARGS then pure (rs.foldl Redir.wrap (.exec ws))
          else argvOverflow).wp p
        (Took mem ts fun ts1 c' => ∃ ws' rs', Words ts1 ws' rs' ∧ (ws ++ ws').length < MAXARGS ∧
          c' = (rs ++ rs').foldl Redir.wrap (.exec (ws ++ ws'))) Rejected := by
      intro p ts h
      refine wp_ite (fun _ => ?_) (fun hnot => absurd hws hnot)
      refine wp_pure ⟨[], ts, rfl, ⟨[], [], .nil, ?_, ?_⟩, h⟩
      · rwa [append_nil]
      · rw [append_nil, append_nil]
    unfold parseargs
    refine wp_peek h (by decide) (fun p _ h => hdone h) (fun p _ h => ?_)
    cases ts with
    | nil => exact wp_gettoken_nil h fun q eq p h => hdone h
    | cons w ts =>
      refine wp_gettoken h fun p h => ?_
      cases hk : w.kind with
      | word =>
        refine wp_ite (fun _ => ?_) (fun hnot => absurd hws hnot)
        refine wp_ite (fun _ => wp_panic (by decide)) (fun hroom => ?_)
        rw [length_cons] at hf
        refine (parseredirs_sound _ h (by omega)).bind ?_
        rintro c' p' ⟨ts1, ts2, rfl, ⟨rs1, hrs1, rfl⟩, h⟩
        have hlen : (ws ++ [(w.q, w.eq)]).length = ws.length + 1 := length_append
        rw [push_foldl_wrap, Cmd.push, ← foldl_append, ← hlen]
        rw [length_append] at hf
        refine (ih _ _ h (by omega) (by rw [hlen]; omega)).imp ?_
        rintro c' p' ⟨ts3, ts4, rfl, ⟨ws', rs', hwords, hle, rfl⟩, h⟩
        refine ⟨w :: (ts1 ++ ts3), ts4, by simp, ⟨_, _, .cons hk hrs1 hwords, ?_, ?_⟩, h⟩
        · rwa [← append_cons] at hle
        · rw [← append_cons, append_assoc]
      | _ => exact wp_panic (by decide)

theorem parseback_sound {fuel : Nat} (c : Cmd) (h : At mem p ts) (hf : ts.length < fuel) :
    (parseback mem (cstr mem).length fuel c).wp p
      (Took mem ts fun ts1 c' => (∀ t ∈ ts1, t.kind = .amp) ∧ c' = backs ts1.length c)
      Rejected := by
  induction fuel generalizing p ts c with
  | zero => omega
  | succ fuel ih =>
    unfold parseback
    refine wp_peek h (by decide) (fun p hs h => ?_) (fun p _ h => ?_)
    · obtain ⟨t, ts, rfl, ht⟩ := starts_cons (P := (· = .amp)) hs (by intro k; cases k <;> decide)
      refine wp_gettoken h fun p h => (ih (.back c) h (lt_of_succ_lt_succ hf)).imp ?_
      rintro c' p' ⟨ts1, ts2, rfl, ⟨hamps, rfl⟩, h⟩
      exact ⟨t :: ts1, ts2, rfl, ⟨forall_mem_cons.mpr ⟨ht, hamps⟩, rfl⟩, h⟩
    · exact wp_pure ⟨[], ts, rfl, ⟨fun t ht => absurd ht not_mem_nil, rfl⟩, h⟩

/-- A function of the parser returns what derives from its symbol, given fuel
    for the tokens that are left: `need` is what the functions between two
    tokens take. -/
def Sound (mem : List UInt8) (x : Sys Nat Cmd) (sym : Sym) (need fuel : Nat) : Prop :=
  ∀ p ts, At mem p ts → 4 * ts.length + need ≤ fuel → x.wp p (Took mem ts (Derives sym)) Rejected

variable {fuel : Nat}

theorem parseline_sound (ihpipe : Sound mem (parsepipe mem (cstr mem).length fuel) .pipe 3 fuel)
    (ihline : Sound mem (parseline mem (cstr mem).length fuel) .line 4 fuel) :
    Sound mem (parseline mem (cstr mem).length (fuel + 1)) .line 4 (fuel + 1) := by
  intro p ts h hf
  unfold parseline
  refine (ihpipe p ts h (by omega)).bind ?_
  rintro c p ⟨ts1, ts2, rfl, hpipe, h⟩
  rw [length_append] at hf
  refine (parseback_sound c h (by omega)).bind ?_
  rintro c' p ⟨amps, ts3, rfl, ⟨hamps, rfl⟩, h⟩
  rw [length_append] at hf
  refine wp_peek h (by decide) (fun p hs h => ?_) (fun p _ h => ?_)
  · obtain ⟨t, ts, rfl, ht⟩ := starts_cons (P := (· = .semi)) hs (by intro k; cases k <;> decide)
    rw [length_cons] at hf
    refine wp_gettoken h fun p h => (ihline p ts h (by omega)).bind ?_
    rintro right p ⟨ts4, ts5, rfl, hright, h⟩
    exact wp_pure ⟨_, ts5, by simp, .list hpipe hamps ht hright, h⟩
  · exact wp_pure ⟨_, ts3, by simp, .line hpipe hamps, h⟩

theorem parsepipe_sound (ihexec : Sound mem (parseexec mem (cstr mem).length fuel) .cmd 2 fuel)
    (ihpipe : Sound mem (parsepipe mem (cstr mem).length fuel) .pipe 3 fuel) :
    Sound mem (parsepipe mem (cstr mem).length (fuel + 1)) .pipe 3 (fuel + 1) := by
  intro p ts h hf
  unfold parsepipe
  refine (ihexec p ts h (by omega)).bind ?_
  rintro c p ⟨ts1, ts2, rfl, hcmd, h⟩
  rw [length_append] at hf
  refine wp_peek h (by decide) (fun p hs h => ?_) (fun p _ h => ?_)
  · obtain ⟨t, ts, rfl, ht⟩ := starts_cons (P := (· = .bar)) hs (by intro k; cases k <;> decide)
    rw [length_cons] at hf
    refine wp_gettoken h fun p h => (ihpipe p ts h (by omega)).bind ?_
    rintro right p ⟨ts3, ts4, rfl, hright, h⟩
    exact wp_pure ⟨_, ts4, by simp, .pipes hcmd ht hright, h⟩
  · exact wp_pure ⟨_, ts2, rfl, .pipe hcmd, h⟩

/-- `parseblock` is called only where there is a `(`. -/
theorem parseblock_sound (ihline : Sound mem (parseline mem (cstr mem).length fuel) .line 4 fuel)
    (h : At mem p ts) (hs : starts ['('] ts = true) (hf : 4 * ts.length ≤ fuel) :
    (parseblock mem (cstr mem).length (fuel + 1)).wp p (Took mem ts (Derives .cmd)) Rejected := by
  unfold parseblock
  refine wp_peek h (by decide) (fun p _ h => ?_)
    (fun p hno _ => absurd (hs.symm.trans hno) Bool.noConfusion)
  obtain ⟨l, ts, rfl, hl⟩ := starts_cons (P := (· = .lparen)) hs (by intro k; cases k <;> decide)
  rw [length_cons] at hf
  refine wp_gettoken h fun p h => (ihline p ts h (by omega)).bind ?_
  rintro c p ⟨ts1, ts2, rfl, hline, h⟩
  rw [length_append] at hf
  refine wp_peek h (by decide) (fun p hs h => ?_) (fun p _ _ => wp_panic (by decide))
  obtain ⟨r, ts, rfl, hr⟩ := starts_cons (P := (· = .rparen)) hs (by intro k; cases k <;> decide)
  rw [length_cons] at hf
  refine wp_gettoken h fun p h => (parseredirs_sound c h (by omega)).imp ?_
  rintro c' p ⟨ts3, ts4, rfl, ⟨rs, hrs, rfl⟩, h⟩
  exact ⟨_, ts4, by simp, .block hl hline hr hrs, h⟩

theorem parseexec_sound
    (ihblock : ∀ {p ts}, At mem p ts → starts ['('] ts = true → 4 * ts.length < fuel →
      (parseblock mem (cstr mem).length fuel).wp p (Took mem ts (Derives .cmd)) Rejected) :
    Sound mem (parseexec mem (cstr mem).length (fuel + 1)) .cmd 2 (fuel + 1) := by
  intro p ts h hf
  unfold parseexec
  refine wp_peek h (by decide) (fun p hs h => ihblock h hs (by omega)) (fun p _ h => ?_)
  refine (parseredirs_sound (.exec []) h (by omega)).bind ?_
  rintro c p ⟨ts1, ts2, rfl, ⟨rs, hrs, rfl⟩, h⟩
  rw [length_append] at hf
  refine (parseargs_sound [] rs h (by omega) (by decide)).imp ?_
  rintro c p ⟨ts3, ts4, rfl, ⟨ws, rs', hwords, hlen, rfl⟩, h⟩
  exact ⟨_, ts4, (append_assoc _ _ _).symm, .simple hrs hwords (Nat.le_of_lt_succ hlen), h⟩

/-- Each function calls the others with one unit of fuel less. -/
theorem parser_sound (mem : List UInt8) (fuel : Nat) :
    Sound mem (parseline mem (cstr mem).length fuel) .line 4 fuel ∧
    Sound mem (parsepipe mem (cstr mem).length fuel) .pipe 3 fuel ∧
    Sound mem (parseexec mem (cstr mem).length fuel) .cmd 2 fuel ∧
    ∀ {p ts}, At mem p ts → starts ['('] ts = true → 4 * ts.length < fuel →
      (parseblock mem (cstr mem).length fuel).wp p (Took mem ts (Derives .cmd)) Rejected := by
  induction fuel with
  | zero =>
    exact ⟨fun p ts _ hf => absurd hf (by omega), fun p ts _ hf => absurd hf (by omega),
      fun p ts _ hf => absurd hf (by omega), fun _ _ hf => absurd hf (by omega)⟩
  | succ fuel ih =>
    obtain ⟨ihline, ihpipe, ihexec, ihblock⟩ := ih
    exact ⟨parseline_sound ihpipe ihline, parsepipe_sound ihexec ihpipe, parseexec_sound ihblock,
      fun h hs hf => parseblock_sound ihline h hs (Nat.le_of_lt_succ hf)⟩

/-! ## What derives is returned -/

/-- The function returns the tree, at the tokens `ts`. -/
def Returns (mem : List UInt8) (x : Sys Nat Cmd) (p : Nat) (c : Cmd) (ts : List Token) : Prop :=
  x.wp p (fun c' p' => c' = c ∧ At mem p' ts) fun _ => False

/-- What comes next, if anything, is of one of the kinds. -/
def Next (kinds : List Kind) (ts : List Token) : Prop := ∀ t ∈ ts.head?, t.kind ∈ kinds

/-- What can follow a symbol of the grammar. -/
def follow : Sym → List Kind
  | .line => [.rparen]
  | .pipe => [.semi, .amp, .rparen]
  | .cmd => [.bar, .semi, .amp, .rparen]

theorem Next.mono {ks ks' : List Kind} (h : Next ks ts) (hsub : ks ⊆ ks') : Next ks' ts :=
  fun t ht => hsub (h t ht)

variable {ks : List Kind}

theorem Next.cons {k : Kind} (hk : t.kind = k) (hin : k ∈ ks) : Next ks (t :: ts) := by
  intro t' ht
  cases ht
  rwa [hk]

theorem Next.starts_eq_false (h : Next ks ts)
    (hks : ∀ k ∈ ks, k.first.any (toks.map ch).contains = false) : starts toks ts = false := by
  cases ts with
  | nil => rfl
  | cons t ts => exact hks t.kind (h t rfl)

theorem Next.starts_eq_true (h : Next ks (t :: ts))
    (hks : ∀ k ∈ ks, k.first.any (toks.map ch).contains = true) : starts toks (t :: ts) = true :=
  hks t.kind (h t rfl)

variable {ts' : List Token}

theorem parseredirs_complete {rs : List Redir} (c : Cmd) (hrs : Redirs ts rs)
    (h : At mem p (ts ++ ts')) (hnext : starts ['<', '>'] ts' = false)
    (hf : (ts ++ ts').length < fuel) :
    Returns mem (parseredirs mem (cstr mem).length fuel c) p (rs.foldl Redir.wrap c) ts' := by
  induction hrs generalizing p fuel c with
  | nil =>
    obtain ⟨fuel, rfl⟩ : ∃ n, fuel = n + 1 := ⟨fuel - 1, by omega⟩
    unfold parseredirs
    exact wp_peek h (by decide) (fun p hs _ => absurd (hs.symm.trans hnext) Bool.noConfusion)
      fun p _ h => wp_pure ⟨rfl, h⟩
  | @cons op w mode fd ts rs hmode hw hrs ih =>
    obtain ⟨fuel, rfl⟩ : ∃ n, fuel = n + 1 := ⟨fuel - 1, by omega⟩
    have hop : starts ['<', '>'] (op :: (w :: ts ++ ts')) = true := by
      cases hk : op.kind <;> rw [hk] at hmode <;> cases hmode <;> exact starts_of_kind hk
    unfold parseredirs
    refine wp_peek h (by decide) (fun p _ h => ?_)
      (fun p hs _ => absurd (hop.symm.trans hs) Bool.noConfusion)
    refine wp_gettoken h fun p h => wp_gettoken h fun p h => ?_
    refine wp_ite (fun hnot => absurd (congrArg some hw) hnot) (fun _ => ?_)
    have hlt : (ts ++ ts').length < fuel := by
      simp only [cons_append, length_cons] at hf
      omega
    have hrest := ih (.redir c w.q w.eq mode fd) h hlt
    cases hk : op.kind <;> rw [hk] at hmode <;> cases hmode <;> exact hrest

theorem Words.next_append {ws : List (Nat × Nat)} {rs : List Redir} (h : Words ts ws rs)
    (hnext : Next ks ts') :
    Next (.word :: ks) (ts ++ ts') := by
  cases h with
  | nil => exact hnext.mono (subset_cons_self _ _)
  | cons hw _ _ => exact .cons hw mem_cons_self

theorem parseargs_complete {ws' : List (Nat × Nat)} {rs' : List Redir}
    (ws : List (Nat × Nat)) (rs : List Redir) (hwords : Words ts ws' rs')
    (h : At mem p (ts ++ ts')) (hnext : Next (follow .cmd) ts') (hf : (ts ++ ts').length < fuel)
    (hlen : (ws ++ ws').length < MAXARGS) :
    Returns mem
      (parseargs mem (cstr mem).length fuel ws.length (rs.foldl Redir.wrap (.exec ws))) p
      ((rs ++ rs').foldl Redir.wrap (.exec (ws ++ ws'))) ts' := by
  induction hwords generalizing p fuel ws rs with
  | nil =>
    obtain ⟨fuel, rfl⟩ : ∃ n, fuel = n + 1 := ⟨fuel - 1, by omega⟩
    rw [append_nil] at hlen ⊢
    rw [append_nil]
    have hdone : ∀ {p}, At mem p ts' → Returns mem (if ws.length < MAXARGS then
        pure (rs.foldl Redir.wrap (.exec ws)) else argvOverflow) p
        (rs.foldl Redir.wrap (.exec ws)) ts' :=
      fun h => wp_ite (fun _ => wp_pure ⟨rfl, h⟩) (fun hnot => absurd hlen hnot)
    unfold parseargs
    refine wp_peek h (by decide) (fun p _ h => hdone h) (fun p hs h => ?_)
    cases ts' with
    | nil => exact wp_gettoken_nil h fun q eq p h => hdone h
    | cons t ts' => exact absurd ((hnext.starts_eq_true (by decide)).symm.trans hs) Bool.noConfusion
  | @cons w ts ts1 ws' rs1 rs' hw hrs hwords ih =>
    obtain ⟨fuel, rfl⟩ : ∃ n, fuel = n + 1 := ⟨fuel - 1, by omega⟩
    simp only [cons_append, length_cons, append_assoc] at h hf
    rw [append_cons] at hlen ⊢
    rw [← append_assoc]
    have hroom : ws.length + 1 < MAXARGS := by
      simp only [length_append, length_cons] at hlen
      omega
    unfold parseargs
    refine wp_peek h (by decide)
      (fun p hs _ => absurd ((starts_of_kind hw).symm.trans hs) Bool.noConfusion) (fun p _ h => ?_)
    refine wp_gettoken h fun p h => ?_
    rw [hw]
    refine wp_ite (fun _ => ?_) (fun hnot => absurd (lt_of_succ_lt hroom) hnot)
    refine wp_ite (fun hfull => absurd hroom (Nat.not_lt.mpr hfull)) (fun _ => ?_)
    have hredirs := parseredirs_complete ((rs.foldl Redir.wrap (.exec ws)).push w.q w.eq) hrs h
      ((hwords.next_append hnext).starts_eq_false (by decide)) (lt_of_succ_lt_succ hf)
    refine hredirs.bind ?_
    rintro c p ⟨rfl, h⟩
    have hcount : (ws ++ [(w.q, w.eq)]).length = ws.length + 1 := length_append
    rw [push_foldl_wrap, Cmd.push, ← foldl_append, ← hcount]
    rw [length_append] at hf
    exact ih _ _ h (by omega) hlen

theorem parseback_complete {amps ts' : List Token} (c : Cmd) (hamps : ∀ t ∈ amps, t.kind = .amp)
    (h : At mem p (amps ++ ts')) (hnext : starts ['&'] ts' = false)
    (hf : (amps ++ ts').length < fuel) :
    Returns mem (parseback mem (cstr mem).length fuel c) p (backs amps.length c) ts' := by
  induction amps generalizing p fuel c with
  | nil =>
    obtain ⟨fuel, rfl⟩ : ∃ n, fuel = n + 1 := ⟨fuel - 1, by omega⟩
    unfold parseback
    exact wp_peek h (by decide) (fun p hs _ => absurd (hs.symm.trans hnext) Bool.noConfusion)
      fun p _ h => wp_pure ⟨rfl, h⟩
  | cons t amps ih =>
    obtain ⟨fuel, rfl⟩ : ∃ n, fuel = n + 1 := ⟨fuel - 1, by omega⟩
    obtain ⟨ht, hamps⟩ := forall_mem_cons.mp hamps
    unfold parseback
    refine wp_peek h (by decide) (fun p _ h => ?_)
      (fun p hs _ => absurd ((starts_of_kind ht).symm.trans hs) Bool.noConfusion)
    exact wp_gettoken h fun p h => ih (.back c) hamps h (lt_of_succ_lt_succ hf)

theorem Next.amps_append {amps ts' : List Token}
    (hamps : ∀ t ∈ amps, t.kind = .amp) (hin : .amp ∈ ks) (hnext : Next ks ts') :
    Next ks (amps ++ ts') := by
  cases amps with
  | nil => exact hnext
  | cons t amps => exact .cons (hamps t mem_cons_self) hin

/-- The function for a symbol of the grammar. -/
def parser (mem : List UInt8) : Sym → Nat → Sys Nat Cmd
  | .line => parseline mem (cstr mem).length
  | .pipe => parsepipe mem (cstr mem).length
  | .cmd => parseexec mem (cstr mem).length

def need : Sym → Nat
  | .line => 4
  | .pipe => 3
  | .cmd => 2

/-- **What derives is returned**, if what comes next cannot continue it. -/
theorem parser_complete {sym : Sym} {c : Cmd} (hder : Derives sym ts c)
    (h : At mem p (ts ++ ts')) (hnext : Next (follow sym) ts')
    (hf : 4 * (ts ++ ts').length + need sym ≤ fuel) :
    Returns mem (parser mem sym fuel) p c ts' := by
  induction hder generalizing p ts' fuel with
  | @line ts amps c hpipe hamps ihpipe =>
    rw [need] at hf
    obtain ⟨fuel, rfl⟩ : ∃ n, fuel = n + 1 := ⟨fuel - 1, by omega⟩
    rw [append_assoc] at h hf
    have hpipe := ihpipe h (.amps_append hamps (by decide) (hnext.mono (by decide)))
      (le_of_succ_le_succ hf)
    rw [parser, parseline]
    refine hpipe.bind ?_
    rintro _ p ⟨rfl, h⟩
    rw [length_append] at hf
    refine (parseback_complete _ hamps h (hnext.starts_eq_false (by decide)) (by omega)).bind ?_
    rintro _ p ⟨rfl, h⟩
    have hsemi : starts [';'] ts' = false := hnext.starts_eq_false (by decide)
    exact wp_peek h (by decide) (fun p hs _ => absurd (hs.symm.trans hsemi) Bool.noConfusion)
      fun p _ h => wp_pure ⟨rfl, h⟩
  | @list ts amps ts1 semi c c' hpipe hamps hsemi hline ihpipe ihline =>
    rw [need] at hf
    obtain ⟨fuel, rfl⟩ : ∃ n, fuel = n + 1 := ⟨fuel - 1, by omega⟩
    rw [append_assoc, append_assoc, cons_append] at h hf
    have hnext' : Next [.semi] (semi :: (ts1 ++ ts')) := .cons hsemi (by decide)
    have hpipe := ihpipe h (.amps_append hamps (by decide) (hnext'.mono (by decide)))
      (le_of_succ_le_succ hf)
    rw [parser, parseline]
    refine hpipe.bind ?_
    rintro _ p ⟨rfl, h⟩
    rw [length_append] at hf
    refine (parseback_complete _ hamps h (hnext'.starts_eq_false (by decide)) (by omega)).bind ?_
    rintro _ p ⟨rfl, h⟩
    rw [length_append, length_cons] at hf
    refine wp_peek h (by decide) (fun p _ h => ?_)
      fun p hs _ => absurd ((starts_of_kind hsemi).symm.trans hs) Bool.noConfusion
    refine wp_gettoken h fun p h => (ihline h hnext (by rw [need]; omega)).bind ?_
    rintro _ p ⟨rfl, h⟩
    exact wp_pure ⟨rfl, h⟩
  | @pipe ts c hcmd ihcmd =>
    rw [need] at hf
    obtain ⟨fuel, rfl⟩ : ∃ n, fuel = n + 1 := ⟨fuel - 1, by omega⟩
    have hcmd := ihcmd h (hnext.mono (by decide)) (le_of_succ_le_succ hf)
    rw [parser, parsepipe]
    refine hcmd.bind ?_
    rintro _ p ⟨rfl, h⟩
    have hbar : starts ['|'] ts' = false := hnext.starts_eq_false (by decide)
    exact wp_peek h (by decide) (fun p hs _ => absurd (hs.symm.trans hbar) Bool.noConfusion)
      fun p _ h => wp_pure ⟨rfl, h⟩
  | @pipes ts ts1 bar c c' hcmd hbar hpipe ihcmd ihpipe =>
    rw [need] at hf
    obtain ⟨fuel, rfl⟩ : ∃ n, fuel = n + 1 := ⟨fuel - 1, by omega⟩
    rw [append_assoc, cons_append] at h hf
    have hcmd := ihcmd h (.cons hbar (by decide)) (le_of_succ_le_succ hf)
    rw [parser, parsepipe]
    refine hcmd.bind ?_
    rintro _ p ⟨rfl, h⟩
    rw [length_append, length_cons] at hf
    refine wp_peek h (by decide) (fun p _ h => ?_)
      fun p hs _ => absurd ((starts_of_kind hbar).symm.trans hs) Bool.noConfusion
    refine wp_gettoken h fun p h => (ihpipe h hnext (by rw [need]; omega)).bind ?_
    rintro _ p ⟨rfl, h⟩
    exact wp_pure ⟨rfl, h⟩
  | @block l r ts ts1 c rs hl hline hr hrs ihline =>
    rw [need] at hf
    obtain ⟨fuel, rfl⟩ : ∃ n, fuel = n + 2 := ⟨fuel - 2, by omega⟩
    rw [cons_append, append_assoc, cons_append] at h hf
    rw [length_cons] at hf
    rw [parser, parseexec, parseblock]
    -- the `(` is looked for twice
    refine wp_peek h (by decide) (fun p _ h => wp_peek h (by decide) (fun p _ h => ?_)
        fun p hs _ => absurd ((starts_of_kind hl).symm.trans hs) Bool.noConfusion)
      fun p hs _ => absurd ((starts_of_kind hl).symm.trans hs) Bool.noConfusion
    refine wp_gettoken h fun p h =>
      (ihline h (.cons hr (by decide)) (by rw [need]; omega)).bind ?_
    rintro _ p ⟨rfl, h⟩
    refine wp_peek h (by decide) (fun p _ h => ?_)
      fun p hs _ => absurd ((starts_of_kind hr).symm.trans hs) Bool.noConfusion
    rw [length_append, length_cons] at hf
    exact wp_gettoken h fun p h =>
      parseredirs_complete _ hrs h (hnext.starts_eq_false (by decide)) (by omega)
  | @simple ts ts1 ws rs rs' hrs hwords hlen =>
    rw [need] at hf
    obtain ⟨fuel, rfl⟩ : ∃ n, fuel = n + 1 := ⟨fuel - 1, by omega⟩
    rw [append_assoc] at h hf
    have hnext' := hwords.next_append hnext
    have hparen : starts ['('] (ts ++ (ts1 ++ ts')) = false := by
      cases hrs with
      | nil => exact hnext'.starts_eq_false (by decide)
      | @cons op w mode fd ts rs hmode hw hrs =>
        cases hk : op.kind <;> rw [hk] at hmode <;> cases hmode <;> exact starts_of_kind hk
    rw [parser, parseexec]
    refine wp_peek h (by decide) (fun p hs _ => absurd (hs.symm.trans hparen) Bool.noConfusion)
      fun p _ h => ?_
    refine (parseredirs_complete _ hrs h (hnext'.starts_eq_false (by decide)) (by omega)).bind ?_
    rintro _ p ⟨rfl, h⟩
    rw [length_append] at hf
    exact parseargs_complete [] rs hwords h hnext (by omega) (lt_succ_of_le hlen)

end Parser

theorem at_zero (mem : List UInt8) : At mem 0 (lex 0 (cstr mem)) :=
  ⟨Nat.zero_le _, by rw [drop_zero]⟩

theorem parsewhole_sound (mem : List UInt8) :
    (parsewhole mem (cstr mem).length).wp 0 (fun c _ => Derives .line (lex 0 (cstr mem)) c)
      Rejected := by
  have hf : 4 * (lex 0 (cstr mem)).length + 4 ≤ 4 * (cstr mem).length + 4 :=
    Nat.add_le_add_right (Nat.mul_le_mul_left 4 (length_lex_le 0 _)) 4
  unfold parsewhole
  refine ((parser_sound mem _).1 0 _ (at_zero mem) hf).bind ?_
  rintro c p ⟨ts1, ts2, hts, hder, h⟩
  obtain ⟨b, p', hp, hend⟩ := peek_end h
  refine wp_bind (wp_of_ok hp (wp_bind (wp_reads ?_)))
  refine wp_ite (fun _ => wp_panic (by decide)) (fun hnot => wp_pure ?_)
  rw [hts, hend.mp (not_not.mp hnot), append_nil]
  exact hder

theorem parsewhole_complete {mem : List UInt8} {c : Cmd} (h : Derives .line (lex 0 (cstr mem)) c) :
    (parsewhole mem (cstr mem).length).wp 0 (fun c' _ => c' = c) fun _ => False := by
  have hat : At mem 0 (lex 0 (cstr mem) ++ []) := by
    rw [append_nil]
    exact at_zero mem
  have hf : 4 * (lex 0 (cstr mem) ++ []).length + 4 ≤ 4 * (cstr mem).length + 4 := by
    rw [append_nil]
    exact Nat.add_le_add_right (Nat.mul_le_mul_left 4 (length_lex_le 0 _)) 4
  unfold parsewhole
  refine (parser_complete h hat (fun t ht => absurd ht (Option.not_mem_none t)) hf).bind ?_
  rintro c' p ⟨rfl, hat'⟩
  obtain ⟨b, p', hp, hend⟩ := peek_end hat'
  refine wp_bind (wp_of_ok hp (wp_bind (wp_reads ?_)))
  exact wp_ite (fun hnot => absurd (hend.mpr rfl) hnot) (fun _ => wp_pure rfl)

theorem parsecmd_eq_ok {mem mem' : List UInt8} {c : Cmd} : parsecmd mem = .ok (c, mem') ↔
      (∃ p, parsewhole mem (cstr mem).length 0 = .ok (c, p)) ∧ mem' = nulterminate c mem := by
  unfold parsecmd
  cases parsewhole mem (cstr mem).length 0 with
  | error e =>
    constructor
    · intro h; cases h
    · rintro ⟨⟨p, h⟩, -⟩; cases h
  | ok r =>
    obtain ⟨c', p⟩ := r
    constructor
    · intro h
      cases h
      exact ⟨⟨p, rfl⟩, rfl⟩
    · rintro ⟨⟨p, h⟩, rfl⟩
      cases h
      rfl

/-- **The parser accepts its grammar.** For every string `parsecmd` ends: it
    returns a tree exactly if the tree is that of a derivation of the line's
    tokens, and otherwise it stops with a syntax error, in particular never
    after a store beyond `argv`. -/
theorem parsecmd_iff_derives (mem : List UInt8) :
    (∀ c, (∃ mem', parsecmd mem = .ok (c, mem')) ↔ Derives .line (lex 0 (cstr mem)) c) ∧
      ∀ e, parsecmd mem = .error e → e ∈ syntaxErrors := by
  refine ⟨fun c => ⟨?_, fun h => ?_⟩, fun e h => ?_⟩
  · rintro ⟨mem', h⟩
    obtain ⟨⟨p, hp⟩, -⟩ := parsecmd_eq_ok.mp h
    exact (parsewhole_sound mem).ok hp
  · obtain ⟨c', p, hp, rfl⟩ := (parsewhole_complete h).returns
    exact ⟨_, parsecmd_eq_ok.mpr ⟨⟨p, hp⟩, rfl⟩⟩
  · unfold parsecmd at h
    cases hp : parsewhole mem (cstr mem).length 0 with
    | ok r =>
      rw [hp] at h
      cases h
    | error e' =>
      rw [hp] at h
      cases h
      exact (parsewhole_sound mem).stop hp

end Sh
end Xv6
