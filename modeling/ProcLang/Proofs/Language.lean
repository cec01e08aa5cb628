import ProcLang.Proofs.ProcedurePhrases
import ProcLang.Proofs.Verdict

/-!
# The language that is accepted

A run over tokens of texts succeeds exactly if they are a procedure of the language
(`succeeds_iff_inLanguage`), and where it fails, the tokens before the offending one can be
continued to a procedure of the language, which they cannot with the offending one behind them
(`stops_at_earliest_token`).
-/

namespace ProcLang

/-- The token is a whole number that is too long to be the value of a constant. -/
def Token.IsLongNumber (t : Token) : Prop :=
  t.kind = .number ∧ ¬ Numeral.hasPoint t.lexeme ∧ Numeral.maxIntegerDigits < t.lexeme.length

/-- Of the numerals of texts those without a value are the whole numbers that are too long. -/
theorem Token.IsScanned.isLongNumber_iff {t : Token} (h : t.IsScanned) (hk : t.kind = .number) :
    t.IsLongNumber ↔ ¬ (Numeral.Value.parse t.lexeme).isOk := by
  have hend : t.kind ≠ .endOfInput := by rw [hk]; decide
  rw [(h.plain hend).value hk, not_or, Nat.not_le]
  exact and_iff_right hk

namespace Analysis

variable {source last : TokenSource} {tracing : Bool} {ts before more : List Token} {line : Int}
  {frames : List Frame} {t : Token} {e : Failure} {o : Outcome}

/-! ## Acceptance -/

/-- Nothing is read behind the outermost procedure. -/
theorem take_done {names : List String} (t : Token) :
    take [] [⟨"", names, []⟩] t = .error .unexpected := rfl

/-- Tokens at which a run stops cannot be read as a whole. -/
theorem StopsAt.not_readable (h : StopsAt (ts ++ [.endOfInput line]) o before t frames e) :
    ¬ Readable ts := by
  rintro ⟨names, htaken⟩
  obtain ⟨behind, hsplit⟩ := h.split
  rcases List.eq_nil_or_concat behind with rfl | ⟨behind, u, rfl⟩
  · obtain ⟨rfl, heq⟩ := List.append_inj' hsplit rfl
    cases heq
    cases h.taken.symm.trans htaken
    have hno : ∀ r, take [] [⟨"", names, []⟩] (.endOfInput line) = .error r → r = .unexpected :=
      fun r hr => Except.error.inj (hr.symm.trans (take_done _))
    cases h.reports with
    | unexpected _ hexpected =>
      obtain ⟨k, hk⟩ := exists_mem_kinds _
      obtain ⟨u, frames, -, -, hu⟩ := hexpected k hk
      cases (take_done u).symm.trans hu
    | undefined hr | otherClosingName _ hr | duplicate hr | numeral hr => cases hno _ hr
    | unconsumed _ hk => exact hk rfl
  · rw [List.concat_eq_append, ← List.cons_append, ← List.append_assoc] at hsplit
    obtain ⟨rfl, -⟩ := List.append_inj' hsplit rfl
    obtain ⟨frames₁, frames₂, hbefore, ht⟩ := exists_take_of_takeAll htaken
    cases h.taken.symm.trans hbefore
    obtain ⟨r, hr⟩ := h.reports.refused
    cases ht.symm.trans hr

theorem succeeds_iff_readable (hs : source.Supplies (ts ++ [.endOfInput line]) last)
    (hts : ∀ t ∈ ts, t.IsInner) :
    (Outcome.ofSource source tracing).failure = none ↔ Readable ts := by
  rcases run_verdict tracing hs hts with ⟨hf, hr⟩ | ⟨before, t, frames, e, hstops⟩
  · exact iff_of_true hf hr
  · refine iff_of_false ?_ hstops.not_readable
    rw [hstops.failure]
    exact Option.some_ne_none e

/-- A run over tokens of texts succeeds exactly on the tokens of the language. -/
theorem succeeds_iff_inLanguage (tracing : Bool)
    (hs : source.Supplies (ts ++ [.endOfInput line]) last) (hts : ∀ t ∈ ts, t.IsInner) :
    (Outcome.ofSource source tracing).failure = none ↔ InLanguage ts :=
  (succeeds_iff_readable hs hts).trans (readable_iff fun t ht => (hts t ht).1.plain (hts t ht).2)

/-- A procedure whose closing name is spelt in another case. -/
def closedInUpperCase : List Token :=
  [⟨.procedureWord, "procedure", 1⟩, ⟨.identifier, "p", 1⟩, ⟨.isWord, "is", 1⟩,
   ⟨.beginWord, "begin", 1⟩, ⟨.endWord, "end", 1⟩, ⟨.identifier, "P", 1⟩, ⟨.semicolon, ";", 1⟩]

theorem inLanguage_closedInUpperCase : InLanguage closedInUpperCase := by
  obtain ⟨line, last, hs⟩ := TokenSource.supplies_ofList closedInUpperCase
  have htext : Lexer.tokenize "procedure p is begin end P;" =
      .ok (closedInUpperCase ++ [.endOfInput 1]) := by decide +kernel
  have hkinds : ∀ t ∈ closedInUpperCase, t.kind ≠ .endOfInput := by decide
  refine (succeeds_iff_inLanguage false hs fun t ht => ?_).mp (by decide +kernel)
  exact Token.isInner_of_tokenize htext (List.mem_append_left _ ht) (hkinds t ht)

/-! ## Errors -/

/-- A run does not succeed on tokens of which one is refused, whatever stands behind it. -/
theorem failure_ne_none_of_refused {mid : TokenSource} {r : Refusal}
    (hs : source.Supplies (before ++ [t]) mid) (htaken : takeAll [] [.base []] before = .ok frames)
    (ht : take [] frames t = .error r)
    (hend : ∀ names, frames = [⟨"", names, []⟩] → t.kind ≠ .endOfInput) :
    (Outcome.ofSource source tracing).failure ≠ none := by
  intro hf
  have hhalts := halts source tracing
  rw [hf] at hhalts
  generalize (Outcome.ofSource source tracing).state.matched.reverse = taken,
    (Outcome.ofSource source tracing).state.current = current at hhalts
  cases hhalts with
  | @succeeds _ names u _ hall hsupply hk =>
    rcases last_cases hs htaken hsupply hall with ⟨-, rfl, rfl⟩ | ⟨-, next, hnext⟩ | ⟨-, next, hnext⟩
    · exact hend names rfl hk
    · cases ht.symm.trans hnext
    · cases (take_done u).symm.trans hnext

/-- A run that comes to a token that is taken takes it. -/
theorem prefix_matched_of_take {mid : TokenSource} {next : List Frame} (tracing : Bool)
    (hs : source.Supplies (before ++ [t]) mid) (htaken : takeAll [] [.base []] before = .ok frames)
    (ht : take [] frames t = .ok next) :
    before ++ [t] <+: (Outcome.ofSource source tracing).state.matched.reverse := by
  have hhalts := halts source tracing
  generalize (Outcome.ofSource source tracing).failure = failure,
    (Outcome.ofSource source tracing).state.matched.reverse = all,
    (Outcome.ofSource source tracing).state.current = current at hhalts ⊢
  -- what a refused token is compared with
  have hrefused : ∀ {taken frames' u r mid'}, source.Supplies (taken ++ [u]) mid' →
      takeAll [] [.base []] taken = .ok frames' → take [] frames' u = .error r →
      before ++ [t] <+: taken := by
    intro taken frames' u r mid' hsupply hall hr
    rcases last_cases hs htaken hsupply hall with ⟨-, rfl, rfl⟩ | ⟨hstart, -⟩ | ⟨-, next, hnext⟩
    · cases ht.symm.trans hr
    · exact hstart
    · cases hr.symm.trans hnext
  cases hhalts with
  | noToken hn =>
    have hnone : source.Supplies [] source := rfl
    exact absurd (congrArg Prod.fst hn) (hs.next_ne_error hnone List.nil_prefix)
  | @succeeds _ _ u _ hall hsupply => exact hrefused hsupply hall (take_done u)
  | looked hall hsupply hreports =>
    obtain ⟨r, hr⟩ := hreports.refused
    exact hrefused hsupply hall hr
  | read hall hsupply _ _ hr => exact (hrefused hsupply hall hr).trans (List.prefix_append _ _)
  | breaks hall hsupply _ hn =>
    rcases last_cases hs htaken hsupply hall with ⟨rfl, rfl, -⟩ | ⟨hstart, -⟩ | ⟨hstart, -⟩
    · exact List.prefix_rfl
    · exact hstart.trans (List.prefix_append _ _)
    · exact absurd (congrArg Prod.fst hn) (hs.next_ne_error hsupply hstart)

/-- A run that comes to a token that is refused when it is looked at fails there. -/
theorem reports_of_refused {mid : TokenSource} {r : Refusal} (tracing : Bool)
    (hs : source.Supplies (before ++ [t]) mid) (htaken : takeAll [] [.base []] before = .ok frames)
    (ht : take [] frames t = .error r) (hr : ¬ r.isLate)
    (hend : ∀ names, frames = [⟨"", names, []⟩] → t.kind ≠ .endOfInput) :
    ∃ d, (Outcome.ofSource source tracing).failure = some (.diagnostic d) ∧
      Reports frames t (.diagnostic d) ∧
      (Outcome.ofSource source tracing).state.matched.reverse = before ∧
      (Outcome.ofSource source tracing).state.current = some t := by
  have hhalts := halts source tracing
  generalize (Outcome.ofSource source tracing).failure = failure,
    (Outcome.ofSource source tracing).state.matched.reverse = all,
    (Outcome.ofSource source tracing).state.current = current at hhalts ⊢
  cases hhalts with
  | noToken hn =>
    have hnone : source.Supplies [] source := rfl
    exact absurd (congrArg Prod.fst hn) (hs.next_ne_error hnone List.nil_prefix)
  | @succeeds _ names u _ hall hsupply hk =>
    rcases last_cases hs htaken hsupply hall with ⟨-, rfl, rfl⟩ | ⟨-, next, hnext⟩ | ⟨-, next, hnext⟩
    · exact absurd hk (hend names rfl)
    · cases ht.symm.trans hnext
    · cases (take_done u).symm.trans hnext
  | looked hall hsupply hreports =>
    rcases last_cases hs htaken hsupply hall with ⟨rfl, rfl, rfl⟩ | ⟨-, next, hnext⟩ | ⟨-, next, hnext⟩
    · exact ⟨_, rfl, hreports, rfl, rfl⟩
    · cases ht.symm.trans hnext
    · obtain ⟨r', hr'⟩ := hreports.refused
      cases hr'.symm.trans hnext
  | breaks hall hsupply hlate hn =>
    rcases last_cases hs htaken hsupply hall with ⟨rfl, rfl, rfl⟩ | ⟨-, next, hnext⟩ | ⟨hstart, -⟩
    · exact absurd (hlate r ht) hr
    · cases ht.symm.trans hnext
    · exact absurd (congrArg Prod.fst hn) (hs.next_ne_error hsupply hstart)
  | read hall hsupply _ _ hr' hlate =>
    rcases last_cases hs htaken hsupply hall with ⟨rfl, rfl, rfl⟩ | ⟨-, next, hnext⟩ | ⟨-, next, hnext⟩
    · cases ht.symm.trans hr'
      exact absurd hlate hr
    · cases ht.symm.trans hnext
    · cases hr'.symm.trans hnext

/-- Only where a literal is to be read a numeral must have a value. -/
theorem literal_mem_of_moveOf {name : String} {gs : List Goal}
    (h : moveOf name t gs = .error .noValue) :
    .literal ∈ gs ∧ t.kind = .number ∧ ¬ (Numeral.Value.parse t.lexeme).isOk := by
  induction gs with
  | nil => cases h
  | cons g gs ih =>
    by_cases hpass : g.passesOn t.kind = true
    · rw [moveOf_cons_of_passesOn hpass] at h
      exact (ih h).imp_left (List.mem_cons_of_mem _)
    rw [moveOf_cons (by simpa using hpass)] at h
    cases hmove : g.move name t with
    | ok m =>
      rw [hmove] at h
      cases h
    | error r =>
      rw [hmove] at h
      cases h
      cases g with
      | literal =>
        rw [Goal.move] at hmove
        split at hmove
        · next hk => exact ⟨List.mem_cons_self, hk⟩
        · rw [Move.onKind] at hmove
          split at hmove <;> cases hmove
      | _ =>
        simp only [Goal.move, Move.onKind] at hmove
        repeat' split at hmove
        all_goals cases hmove

/-- No deed asks for a value. -/
theorem moveOf_of_take_noValue {f : Frame} {rest : List Frame}
    (h : take [] (f :: rest) t = .error .noValue) : moveOf f.name t f.goals = .error .noValue := by
  cases hm : moveOf f.name t f.goals with
  | error r => exact congrArg Except.error (Except.error.inj ((take_of_refused hm).symm.trans h))
  | ok m =>
    rw [take_of_move hm] at h
    cases hdeed : m.deed <;> simp only [hdeed, Deed.apply] at h
    all_goals first | cases h | (split at h <;> cases h)

/-- A numeral without a value is a whole number that is too long. -/
theorem isLongNumber_of_take (ht : t.IsScanned) (h : take [] frames t = .error .noValue) :
    t.IsLongNumber := by
  cases frames with
  | nil => cases h
  | cons f rest =>
    obtain ⟨-, hk, hno⟩ := literal_mem_of_moveOf (moveOf_of_take_noValue h)
    exact (ht.isLongNumber_iff hk).mpr hno

/-- Where a run over tokens of texts fails, the tokens before the offending one can be continued to
tokens on which it succeeds. With the offending one behind them they cannot, whatever follows, and
if that is the end token they are all tokens and the run does not succeed on them. -/
theorem stops_at_earliest_token (hts : ∀ t ∈ ts, t.IsInner) (hshort : ∀ t ∈ ts, ¬ t.IsLongNumber)
    (he : (Outcome.ofSource (.ofList ts) tracing).failure = some e) :
    (∃ d, e = .diagnostic d) ∧ ∃ before t,
      (Outcome.ofSource (.ofList ts) tracing).offence? = some (before, t) ∧
        (∃ more, (∀ u ∈ more, u.IsInner) ∧
          (Outcome.ofSource (.ofList (before ++ more)) tracing).failure = none) ∧
        (before ++ [t] <+: ts ∧
            (∀ more, (Outcome.ofSource (.ofList (before ++ t :: more)) tracing).failure ≠ none) ∨
          before = ts ∧ (∃ line, t = .endOfInput line) ∧
            (Outcome.ofSource (.ofList before) tracing).failure ≠ none) := by
  obtain ⟨line, last, hs⟩ := TokenSource.supplies_ofList ts
  rcases run_verdict tracing hs hts with ⟨hf, -⟩ | ⟨before, t, frames, e', hstops⟩
  · rw [hf] at he
    cases he
  cases hstops.failure.symm.trans he
  obtain ⟨behind, hsplit⟩ := hstops.split
  have hcases : before ++ [t] <+: ts ∨ before = ts ∧ t = .endOfInput line := by
    rcases List.eq_nil_or_concat behind with rfl | ⟨behind, u, rfl⟩
    · obtain ⟨rfl, heq⟩ := List.append_inj' hsplit rfl
      exact Or.inr ⟨rfl, (List.singleton_inj.mp heq).symm⟩
    · rw [List.concat_eq_append, ← List.cons_append, ← List.append_assoc] at hsplit
      obtain ⟨rfl, -⟩ := List.append_inj' hsplit rfl
      exact Or.inl ⟨behind, by simp⟩
  have hbefore : ∀ u ∈ before, u.IsInner := by
    rcases hcases with hstart | ⟨rfl, -⟩
    · exact fun u hu => hts u (hstart.subset (List.mem_append_left _ hu))
    · exact hts
  have hcontinues : ∃ more, (∀ u ∈ more, u.IsInner) ∧
      (Outcome.ofSource (.ofList (before ++ more)) tracing).failure = none := by
    obtain ⟨more, hmore, hreadable⟩ := exists_readable_append hbefore hstops.taken
    obtain ⟨line, last, hs⟩ := TokenSource.supplies_ofList (before ++ more)
    refine ⟨more, hmore, (succeeds_iff_readable hs fun u hu => ?_).mpr hreadable⟩
    exact (List.mem_append.mp hu).elim (hbefore u) (hmore u)
  have hdiagnostic : ∃ d, e = .diagnostic d := by
    have hreports := hstops.reports
    cases hreports with
    | numeral hr =>
      exfalso
      rcases hcases with hstart | ⟨-, rfl⟩
      · have hmem : t ∈ ts := hstart.subset (List.mem_append_right _ (List.mem_singleton_self t))
        exact hshort t hmem (isLongNumber_of_take (hts t hmem).1 hr)
      · obtain ⟨r, hr', hearly⟩ :=
          ((AllSound.base List.suffix_rfl).takeAll hbefore hstops.taken).take_endOfInput [] line
        cases hr.symm.trans hr'
        exact hearly rfl
    | _ => exact ⟨_, rfl⟩
  refine ⟨hdiagnostic, before, t, hstops.offence, hcontinues, ?_⟩
  rcases hcases with hstart | ⟨rfl, rfl⟩
  · refine Or.inl ⟨hstart, fun more => ?_⟩
    obtain ⟨line', last', hs'⟩ := TokenSource.supplies_ofList (before ++ t :: more)
    have heq : before ++ t :: more ++ [Token.endOfInput line'] =
        (before ++ [t]) ++ (more ++ [Token.endOfInput line']) := by simp
    rw [heq] at hs'
    obtain ⟨mid, hmid, -⟩ := TokenSource.supplies_append.mp hs'
    obtain ⟨r, hr⟩ := hstops.reports.refused
    refine failure_ne_none_of_refused hmid hstops.taken hr fun _ _ => ?_
    exact (hts t (hstart.subset (List.mem_append_right _ (List.mem_singleton_self t)))).2
  · refine Or.inr ⟨rfl, ⟨line, rfl⟩, ?_⟩
    rw [he]
    exact Option.some_ne_none e

/-- The beginning of a procedure that assigns to a name that is not declared. -/
def assignsUndeclared : List Token :=
  [⟨.procedureWord, "procedure", 1⟩, ⟨.identifier, "p", 1⟩, ⟨.isWord, "is", 1⟩,
   ⟨.beginWord, "begin", 1⟩, ⟨.identifier, "x", 1⟩]

theorem exists_more_assignsUndeclared :
    (Outcome.ofSource (.ofList assignsUndeclared) false).offence? =
        some (assignsUndeclared.take 4, ⟨.identifier, "x", 1⟩) ∧
      ∃ more, (Outcome.ofSource (.ofList (assignsUndeclared.take 4 ++ more)) false).failure =
        none := by
  have htext : Lexer.tokenize "procedure p is begin x" =
      .ok (assignsUndeclared ++ [.endOfInput 1]) := by decide +kernel
  have hplain : ∀ t ∈ assignsUndeclared, t.kind ≠ .endOfInput ∧ t.kind ≠ .number := by decide
  have hoffence : (Outcome.ofSource (.ofList assignsUndeclared) false).offence? =
      some (assignsUndeclared.take 4, ⟨.identifier, "x", 1⟩) := by decide +kernel
  have hfailure : (Outcome.ofSource (.ofList assignsUndeclared) false).failure =
      some (.diagnostic (.undefined "x" 1)) := by decide +kernel
  obtain ⟨-, before, t, hoffence', ⟨more, -, hmore⟩, -⟩ := stops_at_earliest_token
    (fun t ht => Token.isInner_of_tokenize htext (List.mem_append_left _ ht) (hplain t ht).1)
    (fun t ht hlong => (hplain t ht).2 hlong.1) hfailure
  cases hoffence.symm.trans hoffence'
  exact ⟨hoffence, more, hmore⟩

end Analysis

end ProcLang
