import Xv6.Lib.Monitor

/-!
# A proof rule for programs that sleep and wake

An `Outline` of a program is an invariant `inv d h N` of its data: `h` is the
process that holds the lock, if it is free to use the data, and `N` says of
which channels it is known that nobody sleeps on them. Waking a channel adds it
to `N`, going to sleep on it takes it out, and the lock can be given up only
where every channel is in `N` or is `quiet`: where whoever sleeps on it has
nothing to be woken for. It does not matter whether the data is changed before
the `wakeup` or after it, as long as the lock is held from the one to the other.

`Sound` is the invariant of the whole machine: the outline's own, and for each
process what it holds at its place in `sleep` or `wakeup` (`Monitor.Here`). The
one that carries the argument is the scanner's: every process that sleeps on the
channel is still ahead of the scan.
-/

namespace Xv6

section

variable {P C σ ι : Type}

/-- What an outline asks of an action that `p` takes at `d`. -/
def Action.Carries (holds : P → σ → Prop) (inv : σ → Option P → (C → Prop) → Prop) (p : P)
    (d : σ) : Action P C σ → Prop
  | .go d' | .under _ d' => (holds p d' ↔ holds p d) ∧
      ∀ h N, (holds p d ↔ h = some p) → inv d h N → inv d' h N
  | .acquire d' => ¬ holds p d ∧ holds p d' ∧ ∀ N, inv d none N → inv d' (some p) N
  | .release d' => holds p d ∧ ¬ holds p d' ∧ ∀ N, inv d (some p) N → inv d' none N
  | .sleep c d' => holds p d ∧ holds p d' ∧
      ∀ N, inv d (some p) N → inv d' none fun c' => N c' ∧ c' ≠ c
  | .wakeup c d' => holds p d ∧ holds p d' ∧
      ∀ N, inv d (some p) N → inv d' (some p) fun c' => N c' ∨ c' = c

/-- A proof outline of a program. -/
structure Outline (g : Program P C σ ι) where
  /-- the sleepers of the channel have nothing to be woken for -/
  quiet : C → σ → Prop
  /-- the process's place in its program is inside a section of the lock -/
  holds : P → σ → Prop
  inv : σ → Option P → (C → Prop) → Prop
  mono : ∀ {d h N N'}, (∀ c, N c → N' c) → inv d h N → inv d h N'
  served : ∀ {d N}, inv d none N → ∀ c, N c ∨ quiet c d
  relock : ∀ {p d N}, holds p d → inv d none N → inv d (some p) N
  frame : ∀ {p x d a h N}, inv d h N → g.code p x d = some a →
    ∀ q, q ≠ p → (holds q a.data ↔ holds q d)
  carries : ∀ {p x d a}, g.code p x d = some a → a.Carries holds inv p d
  kill_holds : ∀ {q p d}, holds p (g.kill q d) ↔ holds p d
  kill_inv : ∀ {q d h N}, inv d h N → inv (g.kill q d) h N

end

namespace Monitor

attribute [local simp] Phase.awake

section

variable {P C σ ι : Type} {g : Program P C σ ι}

/-- The holder of the lock, unless it is on its way to sleep and done with the
    data. -/
def owner (s : Monitor P C σ) : Option P := s.lk.filter fun p => (s.phase p).awake

/-- Nobody sleeps on the channel, or nobody will when the scan that is going on
    is over. -/
def Clear (s : Monitor P C σ) (c : C) : Prop :=
  (∃ p, (s.phase p).waking = some c) ∨ ∀ q, (s.phase q).chan ≠ some c

/-- What holds of a process that is at this phase. -/
def Here (o : Outline g) (s : Monitor P C σ) (p : P) : Phase P C → Prop
  | .running => o.holds p s.data ↔ s.lk = some p
  | .scanning c rest => o.holds p s.data ∧ s.lk = some p ∧
      ∀ q, (s.phase q).chan = some c → q ∈ rest
  | .visiting c q rest => o.holds p s.data ∧ s.lk = some p ∧ s.plock q = some p ∧
      ∀ q', (s.phase q').chan = some c → q' ∈ rest
  | .falling _ => o.holds p s.data ∧ s.lk = some p ∧ s.plock p = some p
  | .dozing _ | .resumed => o.holds p s.data ∧ s.lk ≠ some p ∧ s.plock p = some p
  | .asleep _ | .woken | .relocking => o.holds p s.data ∧ s.lk ≠ some p

/-- **The invariant of the machine.** -/
structure Sound (o : Outline g) (s : Monitor P C σ) : Prop where
  inv : o.inv s.data s.owner s.Clear
  here : ∀ p, Here o s p (s.phase p)

variable {o : Outline g} {s s' : Monitor P C σ}

theorem Sound.start {d : σ} (hinv : o.inv d none fun _ => True) (hholds : ∀ p, ¬ o.holds p d) :
    Sound o (start d : Monitor P C σ) :=
  ⟨o.mono (fun _ _ => .inr fun _ hq => nomatch hq) hinv,
    fun p => by simp [Here, Monitor.start, hholds]⟩

/-- A step of somebody else leaves a process what it holds: its place, its
    locks, and, if it is the one that holds the lock, nobody new asleep. -/
theorem Here.frame {r : P} {f : Phase P C} (h : Here o s r f)
    (hholds : o.holds r s'.data ↔ o.holds r s.data) (hlk : s'.lk = some r ↔ s.lk = some r)
    (hplock : ∀ q, s.plock q = some r → s'.plock q = some r)
    (hchan : s.lk = some r → ∀ q c, (s'.phase q).chan = some c → (s.phase q).chan = some c) :
    Here o s' r f := by
  cases f with
  | running => exact hholds.trans (Iff.trans h hlk.symm)
  | scanning c rest =>
    obtain ⟨h1, h2, h3⟩ := h
    exact ⟨hholds.mpr h1, hlk.mpr h2, fun q hq => h3 q (hchan h2 q c hq)⟩
  | visiting c q rest =>
    obtain ⟨h1, h2, h3, h4⟩ := h
    exact ⟨hholds.mpr h1, hlk.mpr h2, hplock _ h3, fun q' hq => h4 q' (hchan h2 q' c hq)⟩
  | falling c =>
    obtain ⟨h1, h2, h3⟩ := h
    exact ⟨hholds.mpr h1, hlk.mpr h2, hplock _ h3⟩
  | dozing c =>
    obtain ⟨h1, h2, h3⟩ := h
    exact ⟨hholds.mpr h1, fun hl => h2 (hlk.mp hl), hplock _ h3⟩
  | resumed =>
    obtain ⟨h1, h2, h3⟩ := h
    exact ⟨hholds.mpr h1, fun hl => h2 (hlk.mp hl), hplock _ h3⟩
  | asleep c => exact ⟨hholds.mpr h.1, fun hl => h.2 (hlk.mp hl)⟩
  | woken => exact ⟨hholds.mpr h.1, fun hl => h.2 (hlk.mp hl)⟩
  | relocking => exact ⟨hholds.mpr h.1, fun hl => h.2 (hlk.mp hl)⟩

variable {c : C} {p : P}

theorem Sound.lk_of_waking (h : Sound o s) (hw : (s.phase p).waking = some c) : s.lk = some p := by
  have hp := h.here p
  revert hp hw
  cases s.phase p <;> intro hw hp <;> first | exact hp.2.1 | cases hw

/-- A process that holds its own lock is where it says. -/
theorem Sound.plock_of_locked (h : Sound o s) (hl : (s.phase p).locked = true) :
    s.plock p = some p := by
  have hp := h.here p
  revert hp hl
  cases s.phase p <;> intro hl hp <;> first | exact hp.2.2 | cases hl

theorem Sound.asleep_of_chan (h : Sound o s) {q : P} (hl : s.plock q = none)
    (hc : (s.phase q).chan = some c) : s.phase q = .asleep c := by
  rcases Phase.locked_of_chan hc with hk | hk
  · rw [h.plock_of_locked hk] at hl
    cases hl
  · exact hk

theorem owner_eq_some : s.owner = some p ↔ s.lk = some p ∧ (s.phase p).awake = true := by
  simp [owner, Option.filter_eq_some_iff]

theorem owner_of_none (h : s.lk = none) : s.owner = none := by simp [owner, h]

/-- The owner is the same if the lock is and its holder is awake as it was. -/
theorem owner_congr (hlk : s'.lk = s.lk)
    (h : ∀ p, s.lk = some p → (s'.phase p).awake = (s.phase p).awake) : s'.owner = s.owner := by
  unfold owner
  rw [hlk]
  cases hs : s.lk with
  | none => rfl
  | some p => simp only [Option.filter, h p hs]

theorem Clear.mono (hc : s.Clear c)
    (hwaking : ∀ p, (s.phase p).waking = some c → (s'.phase p).waking = some c)
    (hchan : ∀ q, (s'.phase q).chan = some c → (s.phase q).chan = some c) : s'.Clear c := by
  rcases hc with ⟨p, hp⟩ | hc
  · exact .inl ⟨p, hwaking p hp⟩
  · exact .inr fun q hq => hc q (hchan q hq)

/-- Who holds the lock is awake in its program: it is the owner, and nobody is
    being woken. -/
theorem Sound.clear_iff (h : Sound o s) (hf : s.phase p = .running)
    (hlk : s.lk = some p) (c : C) : s.Clear c ↔ ∀ q, (s.phase q).chan ≠ some c := by
  refine ⟨fun hc => ?_, .inr⟩
  rcases hc with ⟨r, hr⟩ | hc
  · have hrp : r = p := Option.some.inj ((h.lk_of_waking hr).symm.trans hlk)
    rw [hrp, hf] at hr
    cases hr
  · exact hc

theorem Sound.owner_running (h : Sound o s) (hf : s.phase p = .running) :
    o.holds p s.data ↔ s.owner = some p := by
  have hp : o.holds p s.data ↔ s.lk = some p := by simpa [Here, hf] using h.here p
  rw [owner_eq_some, hf, hp]
  simp

/-- **No wakeup is lost.** Whenever the lock is free, whoever sleeps on a
    channel has nothing to be woken for. -/
theorem Sound.quiet_of_free {q : P} (h : Sound o s) (hlk : s.lk = none)
    (hq : s.phase q = .dozing c ∨ s.phase q = .asleep c) : o.quiet c s.data := by
  have hchan : (s.phase q).chan = some c := by
    rcases hq with hq | hq <;> rw [hq] <;> rfl
  refine (o.served (owner_of_none hlk ▸ h.inv) c).resolve_left ?_
  rintro (⟨r, hr⟩ | hc)
  · rw [h.lk_of_waking hr] at hlk
    cases hlk
  · exact hc q hchan

end

section

variable {P C σ ι : Type} [DecidableEq P] {table : List P}
  {g : Program P C σ ι} {o : Outline g} {s s' : Monitor P C σ}

variable {c : C} {d : σ} {p q : P} {rest : List P} {x : ι}

section Running

variable (h : Sound o s) (hf : s.phase p = .running)

include h hf

/-- A step of its own program, with the lock as it was. -/
theorem Sound.data {a : Action P C σ} (hc : g.code p x s.data = some a) (hd : a.data = d)
    (hcarry : (o.holds p d ↔ o.holds p s.data) ∧
      ∀ h N, (o.holds p s.data ↔ h = some p) → o.inv s.data h N → o.inv d h N) :
    Sound o { s with data := d } := by
  refine ⟨hcarry.2 s.owner s.Clear (h.owner_running hf) h.inv, fun r => ?_⟩
  by_cases hr : r = p
  · subst hr
    have hp : o.holds r s.data ↔ s.lk = some r := by simpa [Here, hf] using h.here r
    simpa [Here, hf] using hcarry.1.trans hp
  · exact (h.here r).frame (hd ▸ o.frame h.inv hc r hr) Iff.rfl (fun q hq => hq) fun _ q c hq => hq

theorem Sound.acquire (hc : g.code p x s.data = some (.acquire d)) (hlk : s.lk = none) :
    Sound o { s with data := d, lk := some p } := by
  obtain ⟨-, hholds, hinv⟩ := o.carries hc
  refine ⟨?_, fun r => ?_⟩
  · have howner : owner { s with data := d, lk := some p } = some p :=
      owner_eq_some.mpr ⟨rfl, by simp [hf]⟩
    rw [howner]
    exact hinv s.Clear (owner_of_none hlk ▸ h.inv)
  · by_cases hr : r = p
    · subst hr
      simpa [Here, hf] using hholds
    · refine (h.here r).frame (o.frame h.inv hc r hr) ?_ (fun q hq => hq) fun _ q c hq => hq
      simp [hlk, Ne.symm hr]

theorem Sound.release (hc : g.code p x s.data = some (.release d)) (hlk : s.lk = some p) :
    Sound o { s with data := d, lk := none } := by
  obtain ⟨hheld, hholds, hinv⟩ := o.carries hc
  refine ⟨?_, fun r => ?_⟩
  · have howner : owner { s with data := d, lk := none } = none := owner_of_none rfl
    rw [howner]
    exact hinv s.Clear ((h.owner_running hf).mp hheld ▸ h.inv)
  · by_cases hr : r = p
    · subst hr
      simpa [Here, hf] using hholds
    · refine (h.here r).frame (o.frame h.inv hc r hr) ?_ (fun q hq => hq) fun _ q c hq => hq
      simp [hlk, Ne.symm hr]

/-- Going to sleep: the data is given up before the lock is. -/
theorem Sound.sleep (hc : g.code p x s.data = some (.sleep c d)) (hp : s.plock p = none) :
    Sound o (({ s with data := d }.setPlock p (some p)).goto p (.falling c)) := by
  obtain ⟨hheld, hholds, hinv⟩ := o.carries hc
  obtain ⟨hlk, -⟩ := owner_eq_some.mp ((h.owner_running hf).mp hheld)
  have howner : owner (({ s with data := d }.setPlock p (some p)).goto p (.falling c)) = none := by
    refine Option.eq_none_iff_forall_ne_some.mpr fun r hr => ?_
    obtain ⟨hr, ha⟩ := owner_eq_some.mp hr
    obtain rfl : r = p := Option.some.inj (hr.symm.trans hlk)
    simp at ha
  refine ⟨?_, fun r => ?_⟩
  · rw [howner]
    refine o.mono (fun c' hc' => .inr fun q => ?_)
      (hinv s.Clear ((h.owner_running hf).mp hheld ▸ h.inv))
    obtain ⟨hclear, hne⟩ := hc'
    by_cases hq : q = p
    · simpa [hq, Phase.chan] using Ne.symm hne
    · simpa [hq] using (h.clear_iff hf hlk c').mp hclear q
  · by_cases hr : r = p
    · subst hr
      simpa [Here] using ⟨hholds, hlk⟩
    · simp only [goto_phase, hr, if_false, setPlock_phase]
      refine (h.here r).frame (o.frame h.inv hc r hr) Iff.rfl (fun q hq => ?_) fun hl => ?_
      · rw [goto_plock, setPlock_plock, if_neg (by rintro rfl; rw [hp] at hq; cases hq)]
        exact hq
      · exact absurd (Option.some.inj (hl.symm.trans hlk)) hr

/-- The scan starts with every sleeper ahead of it. -/
theorem Sound.wakeup (htable : ∀ q, q ∈ table) (hc : g.code p x s.data = some (.wakeup c d)) :
    Sound o ({ s with data := d }.goto p (.scanning c table)) := by
  obtain ⟨hheld, hholds, hinv⟩ := o.carries hc
  obtain ⟨hlk, -⟩ := owner_eq_some.mp ((h.owner_running hf).mp hheld)
  have howner : owner ({ s with data := d }.goto p (.scanning c table)) = some p :=
    owner_eq_some.mpr ⟨hlk, by simp⟩
  refine ⟨?_, fun r => ?_⟩
  · rw [howner]
    refine o.mono (fun c' hc' => ?_) (hinv s.Clear ((h.owner_running hf).mp hheld ▸ h.inv))
    rcases hc' with hclear | rfl
    · refine .inr fun q => ?_
      by_cases hq : q = p
      · simp [hq, Phase.chan]
      · simpa [hq] using (h.clear_iff hf hlk c').mp hclear q
    · exact .inl ⟨p, by simp [Phase.waking]⟩
  · by_cases hr : r = p
    · subst hr
      simpa [Here, htable] using ⟨hholds, hlk⟩
    · simp only [goto_phase, hr, if_false]
      refine (h.here r).frame (o.frame h.inv hc r hr) Iff.rfl (fun q hq => hq) fun hl => ?_
      exact absurd (Option.some.inj (hl.symm.trans hlk)) hr

end Running

/-- Nobody but `p` is anywhere else than it was, except for sleepers that are
    awake now. -/
def Rouses (p : P) (s s' : Monitor P C σ) : Prop :=
  ∀ r, r ≠ p → s'.phase r = s.phase r ∨ (∃ c, s.phase r = .asleep c) ∧ s'.phase r = .woken

theorem rouses_goto {f : Phase P C} (hphase : s'.phase = s.phase) : Rouses p s (s'.goto p f) := by
  intro r hr
  rw [goto_phase, if_neg hr, hphase]
  exact .inl rfl

section

variable (h : Sound o s)

include h

/-- A step inside `sleep` or `wakeup` of a process that stays in it: the data is
    as it was, and so is the lock. -/
theorem Sound.quietly (p : P) (f : Phase P C) (hdata : s'.data = s.data)
    (hlk : s'.lk = s.lk) (hp : s'.phase p = f) (hawake : f.awake = (s.phase p).awake)
    (hothers : Rouses p s s')
    (hplock : ∀ r q, r ≠ p → s.plock q = some r → s'.plock q = some r)
    (hclear : ∀ c, s.Clear c → s'.Clear c)
    (hchan : ∀ c, f.chan = some c → (s.phase p).chan = some c)
    (hhere : Here o s' p f) : Sound o s' := by
  have hphase : ∀ r, (s'.phase r).awake = (s.phase r).awake := by
    intro r
    by_cases hr : r = p
    · rw [hr, hp, hawake]
    · rcases hothers r hr with heq | ⟨⟨c, hs⟩, heq⟩
      · rw [heq]
      · rw [heq, hs]
        rfl
  have hsub : ∀ q c, (s'.phase q).chan = some c → (s.phase q).chan = some c := by
    intro q c hq
    by_cases hr : q = p
    · rw [hr, hp] at hq
      rw [hr]
      exact hchan c hq
    · rcases hothers q hr with heq | ⟨-, heq⟩
      · rwa [heq] at hq
      · rw [heq] at hq
        cases hq
  refine ⟨?_, fun r => ?_⟩
  · rw [hdata, owner_congr hlk fun r _ => hphase r]
    exact o.mono hclear h.inv
  · by_cases hr : r = p
    · rw [hr, hp]
      exact hhere
    · have hframe : ∀ {f}, Here o s r f → Here o s' r f := fun hf =>
        hf.frame (by rw [hdata]) (by rw [hlk]) (fun q => hplock r q hr) fun _ => hsub
      rcases hothers r hr with heq | ⟨⟨c, hs⟩, heq⟩
      · rw [heq]
        exact hframe (h.here r)
      · rw [heq]
        have hr := h.here r
        rw [hs] at hr
        exact hframe (f := .woken) hr

/-- The end of a scan: nobody who sleeps on the channel is ahead, so nobody
    sleeps on it. -/
theorem Sound.scanned (hf : s.phase p = .scanning c []) : Sound o (s.goto p .running) := by
  obtain ⟨hholds, hlk, hscan⟩ : Here o s p (.scanning c []) := hf ▸ h.here p
  refine h.quietly p .running rfl rfl (by simp) (by rw [hf]; rfl) (rouses_goto rfl)
    (fun r q _ hq => hq) (fun c' hc' => ?_)
    (fun c' hc' => nomatch hc') ⟨fun _ => hlk, fun _ => hholds⟩
  refine .inr fun q => ?_
  by_cases hq : q = p
  · simp [hq, Phase.chan]
  · rw [goto_phase, if_neg hq]
    rcases hc' with ⟨r, hr⟩ | hc'
    · -- the one scan that is going on is this one
      obtain rfl : r = p := Option.some.inj ((h.lk_of_waking hr).symm.trans hlk)
      rw [hf] at hr
      obtain rfl : c = c' := Option.some.inj hr
      intro hchan
      exact absurd (hscan q hchan) List.not_mem_nil
    · exact hc' q

omit h in
/-- The scan goes on: its channel counts as clear all along. -/
theorem Clear.scan (p : P) (f : Phase P C) (hw : f.waking = (s.phase p).waking)
    (hfc : f.chan = none) (hp : s'.phase p = f)
    (hothers : Rouses p s s')
    (hc : s.Clear c) : s'.Clear c := by
  refine hc.mono (fun r hr => ?_) fun q hq => ?_
  · by_cases hrp : r = p
    · rw [hrp, hp, hw, ← hrp]
      exact hr
    · rcases hothers r hrp with heq | ⟨⟨c', hs⟩, -⟩
      · rwa [heq]
      · rw [hs] at hr
        cases hr
  · by_cases hqp : q = p
    · rw [hqp, hp, hfc] at hq
      cases hq
    · rcases hothers q hqp with heq | ⟨-, heq⟩
      · rwa [heq] at hq
      · rw [heq] at hq
        cases hq

theorem Sound.skip
    (hf : s.phase p = .scanning c (p :: rest)) : Sound o (s.goto p (.scanning c rest)) := by
  obtain ⟨hholds, hlk, hscan⟩ : Here o s p (.scanning c (p :: rest)) := hf ▸ h.here p
  have hothers : Rouses p s (s.goto p (.scanning c rest)) := rouses_goto rfl
  refine h.quietly p (.scanning c rest) rfl rfl (by simp) (by rw [hf]; rfl) hothers
    (fun r q _ hq => hq)
    (fun c' hc' => hc'.scan p (.scanning c rest) (by rw [hf]; rfl) rfl (by simp) hothers)
    (fun c' hc' => nomatch hc') ⟨hholds, hlk, fun q hq => ?_⟩
  rw [goto_phase] at hq
  split at hq
  · cases hq
  · rename_i hqp
    exact (List.mem_cons.mp (hscan q hq)).resolve_left hqp

/-- The scan reaches a slot whose lock is free: if its process sleeps on the
    channel, it is woken, and the rest of the sleepers are further on. -/
theorem Sound.visit [DecidableEq C]
    (hf : s.phase p = .scanning c (q :: rest)) (hq : q ≠ p) (hl : s.plock q = none) :
    Sound o (((s.wake q c).setPlock q (some p)).goto p (.visiting c q rest)) := by
  obtain ⟨hholds, hlk, hscan⟩ : Here o s p (.scanning c (q :: rest)) := hf ▸ h.here p
  have hother : ∀ r, r ≠ p →
      (((s.wake q c).setPlock q (some p)).goto p (.visiting c q rest)).phase r =
        if r = q ∧ s.phase q = .asleep c then .woken else s.phase r := by
    intro r hr
    rw [goto_phase, if_neg hr, setPlock_phase, wake_phase]
  have hothers : Rouses p s
      (((s.wake q c).setPlock q (some p)).goto p (.visiting c q rest)) := by
    intro r hr
    rw [hother r hr]
    split
    · rename_i hc
      exact .inr ⟨⟨c, by rw [hc.1, hc.2]⟩, rfl⟩
    · exact .inl rfl
  refine h.quietly p (.visiting c q rest) (by simp) (by simp) (by simp)
    (by rw [hf]; rfl) hothers (fun r q' hr hq' => ?_)
    (fun c' hc' => hc'.scan p (.visiting c q rest) (by rw [hf]; rfl) rfl (by simp) hothers)
    (fun c' hc' => nomatch hc') ⟨by simpa using hholds, by simpa using hlk, by simp, ?_⟩
  · have hne : q' ≠ q := by
      rintro rfl
      rw [hl] at hq'
      cases hq'
    simpa [hne] using hq'
  · intro q' hchan
    by_cases hq'p : q' = p
    · subst hq'p
      simp [Phase.chan] at hchan
    · rw [hother q' hq'p] at hchan
      split at hchan
      · cases hchan
      · rename_i hc
        refine (List.mem_cons.mp (hscan q' hchan)).resolve_left ?_
        rintro rfl
        exact hc ⟨rfl, h.asleep_of_chan hl hchan⟩

theorem Sound.leave (hf : s.phase p = .visiting c q rest) :
    Sound o ((s.setPlock q none).goto p (.scanning c rest)) := by
  obtain ⟨hholds, hlk, hpq, hscan⟩ : Here o s p (.visiting c q rest) := hf ▸ h.here p
  have hothers : Rouses p s ((s.setPlock q none).goto p (.scanning c rest)) := rouses_goto rfl
  refine h.quietly p (.scanning c rest) rfl rfl (by simp) (by rw [hf]; rfl) hothers
    (fun r q' hr hq' => ?_)
    (fun c' hc' => hc'.scan p (.scanning c rest) (by rw [hf]; rfl) rfl (by simp) hothers)
    (fun c' hc' => nomatch hc') ⟨hholds, hlk, fun q' hq' => ?_⟩
  · have hne : q' ≠ q := by
      rintro rfl
      exact hr (Option.some.inj (hq'.symm.trans hpq))
    simpa [hne] using hq'
  · rw [goto_phase] at hq'
    split at hq'
    · cases hq'
    · exact hscan q' hq'

/-- A step inside `sleep` of a process that has given up the lock and stays in
    `sleep`. -/
theorem Sound.asleepStep {f : Phase P C} {x : Option P}
    (haway : (s.phase p).awake = false) (hf : f.awake = false)
    (hchan : ∀ c, f.chan = some c → (s.phase p).chan = some c)
    (hl : s.plock p = none ∨ s.plock p = some p)
    (hhere : Here o ((s.setPlock p x).goto p f) p f) : Sound o ((s.setPlock p x).goto p f) := by
  refine h.quietly p f rfl rfl (by simp) (by rw [haway, hf]) (rouses_goto rfl) (fun r q hr hq => ?_)
    (fun c hc => hc.mono (fun r hr => ?_) fun q hq => ?_) hchan hhere
  · have hne : q ≠ p := by
      rintro rfl
      rcases hl with hl | hl
      · rw [hl] at hq
        cases hq
      · exact hr (Option.some.inj (hq.symm.trans hl))
    simpa [hne] using hq
  · have hne : r ≠ p := by
      rintro rfl
      rw [Phase.awake_of_waking hr] at haway
      cases haway
    simpa [hne] using hr
  · rw [goto_phase] at hq
    split at hq
    · rename_i hqp
      rw [hqp]
      exact hchan c hq
    · exact hq

theorem Sound.fall (hf : s.phase p = .falling c)
    (hlk : s.lk = some p) : Sound o ({ s with lk := none }.goto p (.dozing c)) := by
  obtain ⟨hholds, -, hplock⟩ : Here o s p (.falling c) := hf ▸ h.here p
  have howner : s.owner = none := by simp [owner, hlk, Option.filter, hf]
  refine ⟨?_, fun r => ?_⟩
  · have howner' : owner ({ s with lk := none }.goto p (.dozing c)) = none := owner_of_none rfl
    rw [howner', ← howner]
    refine o.mono (fun c' hc' => hc'.mono (fun r hr => ?_) fun q hq => ?_) h.inv
    · have hne : r ≠ p := by
        rintro rfl
        rw [hf] at hr
        cases hr
      simpa [hne] using hr
    · rw [goto_phase] at hq
      split at hq
      · rename_i hqp
        rw [hqp, hf]
        exact hq
      · exact hq
  · by_cases hr : r = p
    · subst hr
      simpa [Here] using ⟨hholds, hplock⟩
    · rw [goto_phase, if_neg hr]
      refine (h.here r).frame Iff.rfl (by simp [hlk, Ne.symm hr]) (fun q hq => hq) fun hl => ?_
      exact absurd (Option.some.inj (hl.symm.trans hlk)) hr

theorem Sound.relock (hf : s.phase p = .relocking) (hlk : s.lk = none) :
    Sound o ({ s with lk := some p }.goto p .running) := by
  obtain ⟨hholds, -⟩ : Here o s p .relocking := hf ▸ h.here p
  have howner : owner ({ s with lk := some p }.goto p .running) = some p :=
    owner_eq_some.mpr ⟨rfl, by simp⟩
  refine ⟨?_, fun r => ?_⟩
  · rw [howner]
    refine o.relock hholds
      (o.mono (fun c' hc' => hc'.mono (fun r hr => ?_) fun q hq => ?_) (owner_of_none hlk ▸ h.inv))
    · rw [h.lk_of_waking hr] at hlk
      cases hlk
    · rw [goto_phase] at hq
      split at hq
      · cases hq
      · exact hq
  · by_cases hr : r = p
    · subst hr
      simpa [Here] using hholds
    · rw [goto_phase, if_neg hr]
      refine (h.here r).frame Iff.rfl (by simp [hlk, Ne.symm hr]) (fun q hq => hq) fun hl => ?_
      rw [hlk] at hl
      cases hl

/-- `kill` at the victim's slot. -/
theorem Sound.kill : Sound o ({ s with data := g.kill q s.data }.rouse q) := by
  have hdata : Sound o { s with data := g.kill q s.data } :=
    ⟨o.kill_inv h.inv, fun r => (h.here r).frame o.kill_holds Iff.rfl (fun _ hq => hq)
      fun _ _ _ hq => hq⟩
  cases hq : s.phase q with
  | asleep c =>
    have hrouse : { s with data := g.kill q s.data }.rouse q =
        { s with data := g.kill q s.data }.goto q .woken := by simp only [rouse, hq]
    rw [hrouse]
    have hhere : Here o { s with data := g.kill q s.data } q (.asleep c) := hq ▸ hdata.here q
    refine hdata.quietly q .woken rfl rfl (by simp) (by simp [hq]) (rouses_goto rfl)
      (fun r q' _ h => h) (fun c' hc' => hc'.mono (fun r hr => ?_) fun r hr => ?_)
      (fun c' hc' => (nomatch hc')) hhere
    · have hne : r ≠ q := by
        rintro rfl
        rw [show ({ s with data := g.kill r s.data } : Monitor P C σ).phase r = .asleep c from hq]
          at hr
        cases hr
      simpa [hne] using hr
    · rw [goto_phase] at hr
      split at hr
      · cases hr
      · exact hr
  | _ =>
    have hrouse : { s with data := g.kill q s.data }.rouse q =
        { s with data := g.kill q s.data } := by simp only [rouse, hq]
    rw [hrouse]
    exact hdata

end

/-- **Every step of the machine keeps an outline.** -/
theorem Sound.move [DecidableEq C] (htable : ∀ q, q ∈ table) (h : Sound o s)
    (hm : Move table g s s') : Sound o s' := by
  cases hm with
  | go hf hc => exact h.data hf hc rfl (o.carries hc)
  | under hf hc => exact h.data hf hc rfl (o.carries hc)
  | acquire hf hc hlk => exact h.acquire hf hc hlk
  | release hf hc hlk => exact h.release hf hc hlk
  | sleep hf hc hp => exact h.sleep hf hc hp
  | wakeup hf hc => exact h.wakeup hf htable hc
  | scanned hf => exact h.scanned hf
  | skip hf => exact h.skip hf
  | visit hf hq hl => exact h.visit hf hq hl
  | leave hf => exact h.leave hf
  | fall hf hlk => exact h.fall hf hlk
  | doze hf =>
    rename_i p c
    obtain ⟨hholds, hlk, hplock⟩ : Here o s p (.dozing c) := hf ▸ h.here p
    exact h.asleepStep (by rw [hf]; rfl) rfl (fun c' hc' => by rw [hf]; exact hc')
      (.inr hplock) ⟨hholds, hlk⟩
  | sched hf hl =>
    rename_i p
    obtain ⟨hholds, hlk⟩ : Here o s p .woken := hf ▸ h.here p
    exact h.asleepStep (by rw [hf]; rfl) rfl (fun c' hc' => (nomatch hc')) (.inl hl)
      ⟨hholds, hlk, by simp⟩
  | resume hf =>
    rename_i p
    obtain ⟨hholds, hlk, hplock⟩ : Here o s p .resumed := hf ▸ h.here p
    exact h.asleepStep (by rw [hf]; rfl) rfl (fun c' hc' => (nomatch hc')) (.inr hplock)
      ⟨hholds, hlk⟩
  | relock hf hlk => exact h.relock hf hlk
  | kill hl => exact h.kill

theorem Sound.reachable [DecidableEq C] (htable : ∀ q, q ∈ table) {Init : Monitor P C σ → Prop}
    (hinit : ∀ s, Init s → Sound o s) (hr : Reachable (step table g) Init s) : Sound o s :=
  hr.invariant hinit fun _ _ _ h hs => h.move htable (step_move hs)

end

end Monitor

end Xv6
