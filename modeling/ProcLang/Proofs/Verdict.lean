import ProcLang.Proofs.Continuing
import ProcLang.Proofs.Run

/-!
# The verdict of a run

A run over tokens of texts, with an end token behind them, either succeeds and the tokens can be
read as a whole, or it stops at the first token that the frames refuse and reports why
(`run_verdict`). So a run succeeds exactly on the tokens of the language.
-/

namespace ProcLang

/-! ## Tokens of one source -/

namespace TokenSource

variable {source source' source'' : TokenSource} {ts us : List Token}

theorem Supplies.unique (h : source.Supplies ts source') (h' : source.Supplies ts source'') :
    source' = source'' := by
  induction ts generalizing source with
  | nil => exact h.trans h'.symm
  | cons t ts ih =>
    obtain ⟨mid, hn, h⟩ := h
    obtain ⟨mid', hn', h'⟩ := h'
    obtain rfl : mid = mid' := (Prod.mk.inj (hn.symm.trans hn')).2
    exact ih h h'

/-- Behind tokens that were supplied comes the next one. -/
theorem Supplies.exists_next {t : Token} (h : source.Supplies (ts ++ t :: us) source')
    (h' : source.Supplies ts source'') : ∃ next, source''.next = (.ok t, next) := by
  obtain ⟨mid, hts, next, hn, -⟩ := supplies_append.mp h
  obtain rfl := hts.unique h'
  exact ⟨next, hn⟩

theorem Supplies.exists_next_of_prefix {t : Token} (h : source.Supplies (us ++ [t]) source')
    (h' : source.Supplies ts source'') (hstart : ts <+: us) :
    ∃ u next, source''.next = (.ok u, next) := by
  obtain ⟨behind, rfl⟩ := hstart
  rw [List.append_assoc] at h
  cases behind with
  | nil =>
    obtain ⟨next, hn⟩ := h.exists_next h'
    exact ⟨t, next, hn⟩
  | cons u behind =>
    obtain ⟨next, hn⟩ := h.exists_next h'
    exact ⟨u, next, hn⟩

/-- A source has no error in front of the last token that it supplies. -/
theorem Supplies.next_ne_error {t : Token} {err : ScanError} (h : source.Supplies (us ++ [t]) source')
    (h' : source.Supplies ts source'') (hstart : ts <+: us) : source''.next.1 ≠ .error err := by
  obtain ⟨u, next, hn⟩ := h.exists_next_of_prefix h' hstart
  rw [hn]
  exact nofun

/-- Of two lists that a source supplies one begins with the other. -/
theorem Supplies.prefix_or (h : source.Supplies ts source') (h' : source.Supplies us source'') :
    ts <+: us ∨ us <+: ts := by
  induction ts generalizing source us with
  | nil => exact Or.inl List.nil_prefix
  | cons t ts ih =>
    cases us with
    | nil => exact Or.inr List.nil_prefix
    | cons u us =>
      obtain ⟨mid, hn, h⟩ := h
      obtain ⟨mid', hn', h'⟩ := h'
      obtain ⟨htu, rfl⟩ := Prod.mk.inj (hn.symm.trans hn')
      cases htu
      simpa only [List.prefix_cons_inj] using ih h h'

/-- A list supplies its tokens and an end token with its last line behind them. -/
theorem supplies_ofList_lastLine (ts : List Token) :
    ∃ last, (ofList ts).Supplies (ts ++ [.endOfInput (TokenList.ofList ts).lastLine]) last := by
  suffices h : ∀ (ahead : List Token) asked line,
      ∃ last, (list ⟨ahead, asked, line⟩).Supplies (ahead ++ [.endOfInput line]) last by
    exact h ts 0 _
  intro ahead
  induction ahead with
  | nil => exact fun asked line => ⟨_, _, rfl, rfl⟩
  | cons t ahead ih =>
    intro asked line
    obtain ⟨last, h⟩ := ih (asked + 1) line
    exact ⟨last, _, rfl, h⟩

theorem supplies_ofList (ts : List Token) :
    ∃ line last, (ofList ts).Supplies (ts ++ [.endOfInput line]) last :=
  ⟨_, supplies_ofList_lastLine ts⟩

end TokenSource

/-! ## End tokens -/

section EndTokens

variable {g : Goal} {gs : List Goal} {frames : List Frame}

/-- No goal takes an end token. -/
theorem Goal.move_endOfInput (h : g.IsSound) (name : String) (line : Int) :
    ∃ r, g.move name (.endOfInput line) = .error r ∧ ¬ r.isLate := by
  have hmode : Analysis.modeOfWord? (Token.endOfInput line).lexeme = none := by
    show Analysis.modeOfWord? "EOF" = none
    decide
  cases g with
  | token k =>
    have hk : Kind.endOfInput ≠ k := by
      rintro rfl
      simp [IsSound, fixedKinds] at h
    exact ⟨_, Move.onKind_eq_error _ hk, by decide⟩
  | group =>
    rw [move, hmode]
    exact ⟨_, rfl, by decide⟩
  | closingName =>
    rw [move]
    split
    · exact ⟨_, rfl, by decide⟩
    · exact ⟨_, rfl, by decide⟩
  | _ => exact ⟨_, rfl, by decide⟩

theorem moveOf_endOfInput (h : ∀ g ∈ gs, g.IsSound) (name : String) (line : Int) :
    ∃ r, moveOf name (.endOfInput line) gs = .error r ∧ ¬ r.isLate := by
  induction gs with
  | nil => exact ⟨_, rfl, by decide⟩
  | cons g gs ih =>
    obtain ⟨hg, hgs⟩ := List.forall_mem_cons.mp h
    by_cases hpass : g.passesOn (Token.endOfInput line).kind = true
    · rw [moveOf_cons_of_passesOn hpass]
      exact ih hgs
    · obtain ⟨r, hmove, hlate⟩ := Goal.move_endOfInput hg name line
      refine ⟨r, ?_, hlate⟩
      rw [moveOf_cons (by simpa using hpass), hmove]
      rfl

/-- Where no goal of the innermost procedure asks for the end, an end token is refused when it is
looked at. -/
theorem take_endOfInput_of_isSound (h : ∀ f rest, frames = f :: rest → ∀ g ∈ f.goals, g.IsSound)
    (outer : List String) (line : Int) :
    ∃ r, take outer frames (.endOfInput line) = .error r ∧ ¬ r.isLate := by
  cases frames with
  | nil => exact ⟨_, rfl, by decide⟩
  | cons f rest =>
    obtain ⟨r, hmove, hlate⟩ := moveOf_endOfInput (h f rest rfl) f.name line
    exact ⟨r, take_of_refused hmove, hlate⟩

theorem Goal.Apart.isSound (h : Goal.Apart gs) : ∀ g ∈ gs, g.IsSound := by
  induction gs with
  | nil => exact fun _ hm => absurd hm List.not_mem_nil
  | cons g gs ih => exact List.forall_mem_cons.mpr ⟨h.1, ih h.2.2⟩

theorem AllSound.goal_isSound {f : Frame} {rest : List Frame} (h : AllSound (f :: rest)) :
    ∀ g ∈ f.goals, g.IsSound := by
  cases h with
  | @base names goals hgoals =>
    intro g hg
    have hmem := hgoals.subset hg
    simp only [List.mem_cons, List.not_mem_nil, or_false] at hmem
    rcases hmem with rfl | rfl
    · simp [Goal.IsSound, fixedKinds]
    · trivial
  | inside hf => exact hf.apart.isSound

theorem AllSound.take_endOfInput (h : AllSound frames) (outer : List String) (line : Int) :
    ∃ r, ProcLang.take outer frames (.endOfInput line) = .error r ∧ ¬ r.isLate := by
  refine take_endOfInput_of_isSound ?_ outer line
  rintro f rest rfl
  exact h.goal_isSound

end EndTokens

namespace Outcome

/-- The tokens before the offending one, and the offending one: the token looked at, or the one just
taken if it was found wrong after that. -/
def offence? (o : Outcome) : Option (List Token × Token) :=
  match o.failure with
  | none => none
  | some (.diagnostic (.duplicate _ _)) | some (.fault (.numeral _)) =>
    o.state.matched.head?.map fun t => (o.state.matched.tail.reverse, t)
  | some _ => o.state.current.map fun t => (o.state.matched.reverse, t)

variable {o : Outcome} {before : List Token} {t : Token}

theorem offence?_of_current {d : Diagnostic} (hf : o.failure = some (.diagnostic d))
    (hd : ∀ y line, d ≠ .duplicate y line) (hm : o.state.matched = before.reverse)
    (ht : o.state.current = some t) : o.offence? = some (before, t) := by
  unfold offence?
  rw [hf]
  cases d with
  | duplicate y line => exact absurd rfl (hd y line)
  | _ => simp [hm, ht]

theorem offence?_of_matched (hf : (∃ y line, o.failure = some (.diagnostic (.duplicate y line))) ∨
      ∃ e, o.failure = some (.fault (.numeral e))) (hm : o.state.matched = t :: before.reverse) :
    o.offence? = some (before, t) := by
  unfold offence?
  rcases hf with ⟨y, line, hf⟩ | ⟨e, hf⟩
  · rw [hf]
    simp [hm]
  · rw [hf]
    simp [hm]

end Outcome

namespace Analysis

/-! ## What is reported -/

/-- The failure with which a run stops where the frames refuse the token. -/
inductive Reports (frames : List Frame) (t : Token) : Failure → Prop
  /-- Each expected kind is welcome. -/
  | unexpected {expected : Expectation} : take [] frames t = .error .unexpected →
    (∀ k ∈ expected.kinds, Welcomes [] frames k) →
    Reports frames t (.diagnostic (.unexpected expected t))
  | undefined : take [] frames t = .error .undefined →
    Reports frames t (.diagnostic (.undefined t.lexeme t.line))
  | otherClosingName {f : Frame} {rest : List Frame} : frames = f :: rest →
    take [] frames t = .error .otherClosingName →
    Reports frames t (.diagnostic (.otherClosingName f.name t.line))
  | duplicate : take [] frames t = .error .duplicate →
    Reports frames t (.diagnostic (.duplicate t.lexeme t.line))
  | numeral {err : Numeral.NumeralError} : take [] frames t = .error .noValue →
    Numeral.Value.parse t.lexeme = .error err → Reports frames t (.fault (.numeral err))
  /-- Nothing may follow the outermost procedure but the end. -/
  | unconsumed {names : List String} : frames = [⟨"", names, []⟩] → t.kind ≠ .endOfInput →
    Reports frames t (.diagnostic (.unconsumed t))

theorem exists_mem_kinds (x : Expectation) : ∃ k, k ∈ x.kinds := by
  cases x <;> exact ⟨_, List.mem_cons_self⟩

/-- The token is refused. -/
theorem Reports.refused {frames : List Frame} {t : Token} {e : Failure} (h : Reports frames t e) :
    ∃ r, take [] frames t = .error r := by
  cases h with
  | unexpected h | undefined h | otherClosingName _ h | duplicate h | numeral h => exact ⟨_, h⟩
  | unconsumed h => exact ⟨.unexpected, by rw [h]; rfl⟩

/-- A run that stops at a token that the frames refuse: the tokens before it have been taken. -/
structure StopsAt (ts : List Token) (o : Outcome) (before : List Token) (t : Token)
    (frames : List Frame) (e : Failure) : Prop where
  split : ∃ behind, ts = before ++ t :: behind
  taken : takeAll [] [.base []] before = .ok frames
  reports : Reports frames t e
  failure : o.failure = some e
  offence : o.offence? = some (before, t)

section Verdict

variable {source last : TokenSource} {tracing : Bool} {ts taken : List Token} {line : Int}
  {b s : State} {f : Frame} {rest frames : List Frame} {t : Token}

/-- What a run has taken, and the token looked at, are the first of the tokens of its source. -/
theorem exists_eq_append_of_taken (hs : source.Supplies (ts ++ [.endOfInput line]) last)
    (hts : ∀ t ∈ ts, t.IsInner) {source' : TokenSource}
    (h : source.Supplies (taken ++ [t]) source')
    (htaken : takeAll [] [.base []] taken = .ok frames) :
    ∃ behind, ts ++ [.endOfInput line] = taken ++ t :: behind := by
  rcases h.prefix_or hs with ⟨behind, heq⟩ | hprefix
  · exact ⟨behind, by simpa using heq.symm⟩
  rcases List.prefix_concat_iff.mp hprefix with heq | ⟨more, rfl⟩
  · exact ⟨[], heq⟩
  · -- the end token is not taken
    rw [List.append_assoc] at htaken
    obtain ⟨frames₁, frames₂, hframes, hend⟩ := exists_take_of_takeAll htaken
    obtain ⟨r, hr, -⟩ :=
      ((AllSound.base List.suffix_rfl).takeAll hts hframes).take_endOfInput [] line
    cases hend.symm.trans hr

/-- All tokens before the end token have been taken where an end token is looked at. -/
theorem eq_of_taken (hs : source.Supplies (ts ++ [.endOfInput line]) last)
    (hts : ∀ t ∈ ts, t.IsInner) {source' : TokenSource}
    (h : source.Supplies (taken ++ [t]) source')
    (htaken : takeAll [] [.base []] taken = .ok frames) (hk : t.kind = .endOfInput) :
    taken = ts := by
  obtain ⟨behind, hsplit⟩ := exists_eq_append_of_taken hs hts h htaken
  rcases List.eq_nil_or_concat behind with rfl | ⟨behind, u, rfl⟩
  · exact (List.append_inj' hsplit rfl).1.symm
  · rw [List.concat_eq_append, ← List.cons_append, ← List.append_assoc] at hsplit
    obtain ⟨rfl, -⟩ := List.append_inj' hsplit rfl
    exact absurd hk (hts _ (by simp)).2

/-- The last token of a list that is taken is taken. -/
theorem exists_take_of_prefix {before : List Token} {next : List Frame}
    (htaken : takeAll [] [.base []] taken = .ok frames)
    (hall : takeAll [] [.base []] before = .ok next) (h : taken ++ [t] <+: before) :
    ∃ frames', take [] frames t = .ok frames' := by
  obtain ⟨behind, rfl⟩ := h
  rw [List.append_assoc] at hall
  obtain ⟨frames₁, frames₂, hframes, ht⟩ := exists_take_of_takeAll hall
  cases htaken.symm.trans hframes
  exact ⟨frames₂, ht⟩

/-- Of two lists that a source supplies, both taken up to the last token, each is the other one or
the last token of one is taken in the other. -/
theorem last_cases {before : List Token} {next : List Frame} {u : Token}
    {source' source'' : TokenSource}
    (hs : source.Supplies (taken ++ [t]) source') (htaken : takeAll [] [.base []] taken = .ok frames)
    (hs' : source.Supplies (before ++ [u]) source'')
    (hbefore : takeAll [] [.base []] before = .ok next) :
    (taken = before ∧ t = u ∧ frames = next) ∨
      (taken ++ [t] <+: before ∧ ∃ frames', take [] frames t = .ok frames') ∨
      before ++ [u] <+: taken ∧ ∃ frames', take [] next u = .ok frames' := by
  have hsame : taken ++ [t] = before ++ [u] → taken = before ∧ t = u ∧ frames = next := by
    intro heq
    obtain ⟨rfl, htu⟩ := List.append_inj' heq rfl
    exact ⟨rfl, List.singleton_inj.mp htu, Except.ok.inj (htaken.symm.trans hbefore)⟩
  rcases hs.prefix_or hs' with hstart | hstart
  · rcases List.prefix_concat_iff.mp hstart with heq | hstart
    · exact Or.inl (hsame heq)
    · exact Or.inr (Or.inl ⟨hstart, exists_take_of_prefix htaken hbefore hstart⟩)
  · rcases List.prefix_concat_iff.mp hstart with heq | hstart
    · exact Or.inl (hsame heq.symm)
    · exact Or.inr (Or.inr ⟨hstart, exists_take_of_prefix hbefore htaken hstart⟩)

theorem ends_analyze_verdict (source : TokenSource) (tracing : Bool) :
    Ends analyze (.ofSource source tracing)
      (fun _ => RunSucceeds (.ofSource source tracing)) (fun e s => ∃ s',
        RunStops (.ofSource source tracing) e s' ∧ s.matched = s'.matched ∧
          s.current = s'.current) :=
  ends_unwinding.mpr ((ends_analysisSteps source tracing).mono (fun _ _ h => h)
    fun _ s' h => ⟨s', h, rfl, rfl⟩)

/-- What every run ends in holds of its outcome. -/
theorem Ends.outcome_ofSource {good : State → Prop} {bad : Failure → State → Prop}
    (h : Ends analyze (.ofSource source tracing) (fun _ => good) bad) :
    ((Outcome.ofSource source tracing).failure = none →
        good (Outcome.ofSource source tracing).state) ∧
      ∀ e, (Outcome.ofSource source tracing).failure = some e →
        bad e (Outcome.ofSource source tracing).state :=
  ends_outcome.mp h

theorem Begun.outer_eq (h : Begun (.ofSource source tracing) b) : outer b = [] :=
  congrArg (fun table => table.byName.keys) h.table

/-- How a run ends: with its failure, the tokens that it has taken, and the one that it looks at. -/
inductive Halts (source : TokenSource) : Option Failure → List Token → Option Token → Prop
  /-- There is no first token. -/
  | noToken {err : ScanError} {source' : TokenSource} : source.next = (.error err, source') →
    Halts source (some (.ofScanError err)) [] none
  /-- The outermost procedure is followed by the end of the input. -/
  | succeeds {taken : List Token} {names : List String} {t : Token} {mid : TokenSource} :
    takeAll [] [.base []] taken = .ok [⟨"", names, []⟩] → source.Supplies (taken ++ [t]) mid →
    t.kind = .endOfInput → Halts source none taken (some t)
  /-- Something is wrong with the token that is looked at. -/
  | looked {taken : List Token} {frames : List Frame} {t : Token} {d : Diagnostic}
      {mid : TokenSource} :
    takeAll [] [.base []] taken = .ok frames → source.Supplies (taken ++ [t]) mid →
    Reports frames t (.diagnostic d) → (∀ r, take [] frames t = .error r → ¬ r.isLate) →
    (∀ y line, d ≠ .duplicate y line) → Halts source (some (.diagnostic d)) taken (some t)
  /-- There is no token behind the last one taken. -/
  | breaks {taken : List Token} {frames : List Frame} {t : Token} {mid source' : TokenSource}
      {err : ScanError} :
    takeAll [] [.base []] taken = .ok frames → source.Supplies (taken ++ [t]) mid →
    (∀ r, take [] frames t = .error r → r.isLate) → mid.next = (.error err, source') →
    Halts source (some (.ofScanError err)) (taken ++ [t]) (some t)
  /-- Something is wrong with the last token taken, and there is one behind it. -/
  | read {taken : List Token} {frames : List Frame} {t u : Token} {e : Failure} {r : Refusal}
      {mid source' : TokenSource} :
    takeAll [] [.base []] taken = .ok frames → source.Supplies (taken ++ [t]) mid →
    mid.next = (.ok u, source') → Reports frames t e → take [] frames t = .error r → r.isLate →
    ((∃ y line, e = .diagnostic (.duplicate y line)) ∨ ∃ err, e = .fault (.numeral err)) →
    Halts source (some e) (taken ++ [t]) (some u)

theorem ends_halts (source : TokenSource) (tracing : Bool) :
    Ends analyze (.ofSource source tracing)
      (fun _ s => Halts source none s.matched.reverse s.current)
      (fun e s => Halts source (some e) s.matched.reverse s.current) := by
  refine (ends_analyze_verdict source tracing).mono ?_ ?_
  · rintro - s ⟨b, names, s₁, t, hbegun, hstands, -, ht, hk, hr⟩
    obtain ⟨taken, hm, hsupply, htaken⟩ := hbegun.exists_taken hstands.reads ht
    rw [hr.matched, hm, List.reverse_reverse, hr.current, ht]
    exact .succeeds htaken hsupply hk
  · rintro e s ⟨s', hstops, hmatched, hcurrent⟩
    rw [hmatched, hcurrent]
    -- the token looked at is refused before it is taken
    have hearly : ∀ {b f rest t d r}, Begun (.ofSource source tracing) b → Stands b f rest s' →
        s'.current = some t → Reports (f :: rest) t (.diagnostic d) →
        take [] (f :: rest) t = .error r → ¬ r.isLate → (∀ y line, d ≠ .duplicate y line) →
        Halts source (some (.diagnostic d)) s'.matched.reverse s'.current := by
      intro b f rest t d r hbegun hstands ht hreports hr hlate hd
      obtain ⟨taken, hm, hsupply, htaken⟩ := hbegun.exists_taken hstands.reads ht
      rw [hm, List.reverse_reverse, ht]
      refine .looked htaken hsupply hreports (fun r' hr' => ?_) hd
      rwa [← Except.error.inj (hr.symm.trans hr')]
    -- the token is refused when it has been taken
    have hlate : ∀ {b f rest s₁ t r}, Begun (.ofSource source tracing) b → Stands b f rest s₁ →
        Takes t s₁ s' → Reports (f :: rest) t e → take [] (f :: rest) t = .error r → r.isLate →
        ((∃ y line, e = .diagnostic (.duplicate y line)) ∨ ∃ err, e = .fault (.numeral err)) →
        Halts source (some e) s'.matched.reverse s'.current := by
      intro b f rest s₁ t r hbegun hstands htakes hreports hr hlate he
      obtain ⟨u, source', ht, hn, rfl⟩ := htakes
      obtain ⟨taken, hm, hsupply, htaken⟩ := hbegun.exists_taken hstands.reads ht
      rw [List.reverse_cons, hm, List.reverse_reverse]
      exact .read htaken hsupply hn hreports hr hlate he
    cases hstops with
    | noToken hn => exact .noToken hn
    | unconsumed hbegun hstands _ ht hk =>
      exact hearly hbegun hstands ht (.unconsumed rfl hk) rfl (by decide) (by simp)
    | stops hbegun hstops =>
      have houter := hbegun.outer_eq
      cases hstops with
      | unexpected hstands _ ht hr hexpected =>
        rw [houter] at hr hexpected
        exact hearly hbegun hstands ht (.unexpected hr hexpected) hr (by decide) (by simp)
      | undefined hstands _ ht hr =>
        rw [houter] at hr
        exact hearly hbegun hstands ht (.undefined hr) hr (by decide) (by simp)
      | otherClosingName hstands _ ht hr =>
        rw [houter] at hr
        exact hearly hbegun hstands ht (.otherClosingName rfl hr) hr (by decide) (by simp)
      | breaks hstands _ hnot hbreaks =>
        obtain ⟨source', ht, hn, rfl⟩ := hbreaks
        obtain ⟨taken, hm, hsupply, htaken⟩ := hbegun.exists_taken hstands.reads ht
        rw [List.reverse_cons, hm, List.reverse_reverse]
        show Halts source _ _ (State.current _)
        rw [ht]
        exact .breaks htaken hsupply (houter ▸ hnot) hn
      | duplicate hstands _ htakes hr =>
        rw [houter] at hr
        exact hlate hbegun hstands htakes (.duplicate hr) hr rfl (Or.inl ⟨_, _, rfl⟩)
      | numeral hstands _ htakes hr hparse =>
        rw [houter] at hr
        exact hlate hbegun hstands htakes (.numeral hr hparse) hr rfl (Or.inr ⟨_, rfl⟩)

/-- Every run ends in one of these ways. -/
theorem halts (source : TokenSource) (tracing : Bool) :
    Halts source (Outcome.ofSource source tracing).failure
      (Outcome.ofSource source tracing).state.matched.reverse
      (Outcome.ofSource source tracing).state.current := by
  obtain ⟨hgood, hbad⟩ := (ends_halts source tracing).outcome_ofSource
  cases hf : (Outcome.ofSource source tracing).failure with
  | none => exact hgood hf
  | some e => exact hbad e hf

/-- A run over tokens of texts that succeeds has taken all of them. -/
theorem matched_of_success (hs : source.Supplies (ts ++ [.endOfInput line]) last)
    (hts : ∀ t ∈ ts, t.IsInner) (h : (Outcome.ofSource source tracing).failure = none) :
    (Outcome.ofSource source tracing).state.matched = ts.reverse := by
  have hhalts := halts source tracing
  rw [h] at hhalts
  generalize hall : (Outcome.ofSource source tracing).state.matched.reverse = all,
    (Outcome.ofSource source tracing).state.current = current at hhalts
  cases hhalts with
  | succeeds htaken hsupply hk =>
    rw [← eq_of_taken hs hts hsupply htaken hk, ← hall, List.reverse_reverse]

/-- A run over tokens of texts succeeds on tokens that can be read as a whole, or it stops at a
token that is refused. -/
theorem run_verdict (tracing : Bool) (hs : source.Supplies (ts ++ [.endOfInput line]) last)
    (hts : ∀ t ∈ ts, t.IsInner) :
    ((Outcome.ofSource source tracing).failure = none ∧ Readable ts) ∨
      ∃ before t frames e,
        StopsAt (ts ++ [.endOfInput line]) (Outcome.ofSource source tracing) before t frames e := by
  have hhalts := halts source tracing
  generalize hf : (Outcome.ofSource source tracing).failure = failure,
    hall : (Outcome.ofSource source tracing).state.matched.reverse = all,
    ht : (Outcome.ofSource source tracing).state.current = current at hhalts
  have hmatched : (Outcome.ofSource source tracing).state.matched = all.reverse := by
    rw [← hall, List.reverse_reverse]
  cases hhalts with
  | noToken hn =>
    obtain ⟨t, more, heq⟩ : ∃ t more, ts ++ [Token.endOfInput line] = t :: more :=
      List.exists_cons_of_ne_nil (by simp)
    have hs : source.Supplies ([] ++ t :: more) last := heq ▸ hs
    obtain ⟨next, hn'⟩ := hs.exists_next rfl
    cases (Prod.mk.inj (hn.symm.trans hn')).1
  | @succeeds _ names _ _ htaken hsupply hk =>
    exact Or.inl ⟨rfl, names, eq_of_taken hs hts hsupply htaken hk ▸ htaken⟩
  | looked htaken hsupply hreports _ hd =>
    have hsplit := exists_eq_append_of_taken hs hts hsupply htaken
    exact Or.inr ⟨_, _, _, _, hsplit, htaken, hreports, hf,
      Outcome.offence?_of_current hf hd hmatched ht⟩
  | breaks htaken hsupply hlate hn =>
    obtain ⟨behind, hsplit⟩ := exists_eq_append_of_taken hs hts hsupply htaken
    cases behind with
    | nil =>
      -- the end token is refused when it is looked at
      obtain ⟨rfl, heq⟩ := List.append_inj' hsplit rfl
      cases heq
      obtain ⟨r, hr, hno⟩ :=
        ((AllSound.base List.suffix_rfl).takeAll hts htaken).take_endOfInput [] line
      exact absurd (hlate r hr) hno
    | cons u more =>
      rw [hsplit, ← List.singleton_append, ← List.append_assoc] at hs
      obtain ⟨next, hn'⟩ := hs.exists_next hsupply
      cases (Prod.mk.inj (hn.symm.trans hn')).1
  | read htaken hsupply _ hreports _ _ he =>
    have hsplit := exists_eq_append_of_taken hs hts hsupply htaken
    refine Or.inr ⟨_, _, _, _, hsplit, htaken, hreports, hf,
      Outcome.offence?_of_matched ?_ (by simpa using hmatched)⟩
    rcases he with ⟨y, l, rfl⟩ | ⟨err, rfl⟩
    · exact Or.inl ⟨y, l, hf⟩
    · exact Or.inr ⟨err, hf⟩

end Verdict

end Analysis

end ProcLang
