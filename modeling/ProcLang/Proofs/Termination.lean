import ProcLang.Proofs.PulledTokens

/-!
# How far an analysis reads

An analysis repeats steps and calls itself without a bound of its own. It comes to an end on every
list of tokens, whatever they are, because each round and each level takes a token
(`Repetition.unfolds`). It has then asked for one token more than it has taken, and it has not taken
the end token behind the list (`Halts.within`), since no goal asks for the end
(`Goal.isSound_of_move`).
-/

namespace ProcLang

/-! ## Goals that any tokens leave behind -/

section AnyTokens

variable {g : Goal} {gs : List Goal} {name : String} {t : Token} {m : Move} {frames : List Frame}
  {ts : List Token}

/-- No token makes the end a goal. -/
theorem Goal.isSound_of_move (hm : g.move name t = .ok m) : ∀ g' ∈ m.goals, g'.IsSound := by
  cases move_eq_ok_iff.mp hm <;> simp [IsSound, fixedKinds, expression, restOfGroup]

theorem isSound_of_moveOf (h : ∀ g ∈ gs, g.IsSound) (hm : moveOf name t gs = .ok m) :
    ∀ g ∈ m.goals, g.IsSound :=
  moveOf_induction (P := fun gs => ∀ g ∈ gs, g.IsSound) (Q := fun m => ∀ g ∈ m.goals, g.IsSound)
    (fun _ _ h _ => (List.forall_mem_cons.mp h).2)
    (fun _ _ _ h hm => List.forall_mem_append.mpr
      ⟨Goal.isSound_of_move hm, (List.forall_mem_cons.mp h).2⟩) h hm

theorem isSound_of_takeAll (h : takeAll [] [.base []] ts = .ok frames) :
    ∀ f ∈ frames, ∀ g ∈ f.goals, g.IsSound :=
  forall_goals_of_takeAll (P := fun gs => ∀ g ∈ gs, g.IsSound)
    (by simp [Goal.procedure, Goal.IsSound, fixedKinds]) isSound_of_moveOf
    (by simp [Frame.base, Goal.IsSound, fixedKinds]) h

/-- Behind any tokens an end token of a source is refused when it is looked at. -/
theorem take_endOfInput_of_takeAll (h : takeAll [] [.base []] ts = .ok frames) (line : Int) :
    ∃ r, take [] frames (.endOfInput line) = .error r ∧ ¬ r.isLate := by
  refine take_endOfInput_of_isSound ?_ [] line
  rintro f rest rfl
  exact isSound_of_takeAll h f List.mem_cons_self

end AnyTokens

namespace Analysis

variable {kind : Kind} {step : Analysis Unit} {ts us taken : List Token} {t : Token}
  {frames : List Frame} {mid : TokenSource} {failure : Option Failure} {current : Option Token}

/-! ## Repetitions -/

/-- The repetitions of an analysis, with the kind of the token that begins a round: those of
`identifierList`, `declarativePart`, `argumentList`, `procedures`, `statements`, `expression` and
`term`. -/
inductive Repetition : Kind → Analysis Unit → Prop
  | names : Repetition .comma do
      expect .comma
      declarePending
  | localGroups (function : String) : Repetition .identifier (localGroup function)
  | parameterGroups (function : String) : Repetition .semicolon do
      expect .semicolon
      parameterGroup function
  | procedures : Repetition .procedureWord procedureSteps
  | statements : Repetition .identifier do
      statement
      expect .semicolon
  | terms : Repetition .additive do
      expect .additive
      term
  | factors : Repetition .multiplicative do
      expect .multiplicative
      factor

/-- No repetition goes on at the end. -/
theorem Repetition.kind_ne (h : Repetition kind step) : kind ≠ .endOfInput := by
  cases h <;> decide

/-- Each round takes a token. -/
theorem Repetition.spends (h : Repetition kind step) : Spends 1 step := by
  cases h with
  | names => exact (spends_expect (by decide)).bind fun _ => spends_declarePending.weaken
  | localGroups function => exact spends_localGroup function
  | parameterGroups function =>
    exact (spends_expect (by decide)).bind fun _ => spends_parameterGroup function
  | procedures => exact fun s => spends_procedureWithin _ s
  | statements => exact spends_statement.bind' fun _ => spends_expect (by decide)
  | terms =>
    exact (spends_expect (by decide)).bind fun _ => spends_separatedBy spends_factor
  | factors => exact (spends_expect (by decide)).bind fun _ => spends_factor

/-- A repetition without a bound ends. -/
theorem Repetition.unfolds (h : Repetition kind step) :
    Unfolds (repeatOver kind step) (whileKind kind step) := fun s n rest hn => by
  rw [whileKind_eq_repeatUpTo]
  exact (approximates_repeatUpTo h.kind_ne h.spends).unfolds s n rest hn

/-! ## What is taken of a list -/

/-- Tokens that a list supplies are taken from it, not from behind it. -/
theorem prefix_of_takeAll (hs : (TokenSource.ofList ts).Supplies us mid)
    (h : takeAll [] [.base []] us = .ok frames) : us <+: ts := by
  obtain ⟨last, hlist⟩ := TokenSource.supplies_ofList_lastLine ts
  have hno : ¬ ts ++ [.endOfInput (TokenList.ofList ts).lastLine] <+: us := by
    rintro ⟨more, rfl⟩
    rw [List.append_assoc] at h
    obtain ⟨frames₁, frames₂, htaken, hend⟩ := exists_take_of_takeAll h
    obtain ⟨r, hr, -⟩ := take_endOfInput_of_takeAll htaken (TokenList.ofList ts).lastLine
    cases hend.symm.trans hr
  rcases hs.prefix_or hlist with hstart | hstart
  · refine (List.prefix_concat_iff.mp hstart).resolve_left fun heq => hno ?_
    rw [heq]
  · exact absurd hstart hno

/-- The token behind those taken is one of the list or the end token behind it. -/
theorem prefix_concat_of_supplies (hs : (TokenSource.ofList ts).Supplies (us ++ [t]) mid)
    (h : us <+: ts) : us ++ [t] <+: ts ++ [.endOfInput (TokenList.ofList ts).lastLine] := by
  obtain ⟨last, hlist⟩ := TokenSource.supplies_ofList_lastLine ts
  rcases hs.prefix_or hlist with hstart | hstart
  · exact hstart
  · have hlength := h.length_le
    rw [hstart.eq_of_length_le (by simpa using hlength)]

/-- However a run over a list ends, it has taken the first tokens of the list, and it looks at the
next one. -/
theorem Halts.within (h : Halts (.ofList ts) failure taken current) :
    ∃ t, current = some t ∧ taken <+: ts ∧
      taken ++ [t] <+: ts ++ [.endOfInput (TokenList.ofList ts).lastLine] ∧
      (failure = none → t.kind = .endOfInput) := by
  -- no error stands behind the tokens of a list
  have hnext : ∀ {us mid err last}, (TokenSource.ofList ts).Supplies us mid →
      mid.next ≠ (.error err, last) := by
    intro us mid err last hs
    obtain ⟨l, rfl, -⟩ := hs.exists_asked
    exact TokenSource.next_list_ne_error
  cases h with
  | noToken hn =>
    have hs : (TokenSource.ofList ts).Supplies [] (.ofList ts) := rfl
    exact absurd hn (hnext hs)
  | breaks _ hs _ hn => exact absurd hn (hnext hs)
  | @succeeds _ _ t _ htaken hs hk =>
    obtain ⟨mid, hall, -⟩ := TokenSource.supplies_append.mp hs
    have hstart := prefix_of_takeAll hall htaken
    exact ⟨t, rfl, hstart, prefix_concat_of_supplies hs hstart, fun _ => hk⟩
  | @looked _ _ t _ _ htaken hs =>
    obtain ⟨mid, hall, -⟩ := TokenSource.supplies_append.mp hs
    have hstart := prefix_of_takeAll hall htaken
    exact ⟨t, rfl, hstart, prefix_concat_of_supplies hs hstart, nofun⟩
  | @read _ _ t u _ _ _ _ htaken hs hn _ hr hlate =>
    obtain ⟨mid, hall, -⟩ := TokenSource.supplies_append.mp hs
    have hstart := prefix_of_takeAll hall htaken
    -- an end token behind the list would not have been taken
    have hinside := (List.prefix_concat_iff.mp (prefix_concat_of_supplies hs hstart)).resolve_left
      fun heq => by
        obtain ⟨rfl, htoken⟩ := List.append_inj' heq rfl
        cases htoken
        obtain ⟨r, hr', hnot⟩ := take_endOfInput_of_takeAll htaken _
        cases hr.symm.trans hr'
        exact hnot hlate
    exact ⟨u, rfl, hinside, prefix_concat_of_supplies (hs.concat hn) hinside, nofun⟩

/-! ## Every run over a list -/

/-- A run over any list of tokens ends: no repetition or recursion of it needs a bound. Where it
asks for a token it has taken those it has been given. In the end it has asked for one more than it
has taken, and has taken the first tokens of the list one by one, but not the end token behind the
list. It looks at the next token, which is an end token if the run succeeds. -/
theorem ends_within_list (ts : List Token) (tracing : Bool) :
    ((∀ kind step, Repetition kind step →
        Unfolds (repeatOver kind step) (whileKind kind step)) ∧
      Unfolds factorOver factor ∧ Unfolds procedureOver procedureSteps) ∧
    (∀ given s, AsksIn (.ofList ts) tracing given s → s.matched = given.reverse) ∧
    ∃ l t, (Outcome.ofSource (.ofList ts) tracing).state.source = .list l ∧
      l.asked = (Outcome.ofSource (.ofList ts) tracing).state.matched.length + 1 ∧
      l.asked ≤ ts.length + 1 ∧
      (Outcome.ofSource (.ofList ts) tracing).state.matched.reverse <+: ts ∧
      (Outcome.ofSource (.ofList ts) tracing).state.current = some t ∧
      (Outcome.ofSource (.ofList ts) tracing).state.matched.reverse ++ [t] <+:
        ts ++ [.endOfInput (TokenList.ofList ts).lastLine] ∧
      ((Outcome.ofSource (.ofList ts) tracing).failure = none → t.kind = .endOfInput) := by
  refine ⟨⟨fun _ _ h => h.unfolds, approximates_factorWithin.unfolds,
    approximates_procedureWithin.unfolds⟩, fun _ _ h => h.openScopes.1, ?_⟩
  obtain ⟨l, hsource, hasked⟩ := exists_asked ts tracing
  obtain ⟨t, hcurrent, hmatched, hnext, hend⟩ := (halts (.ofList ts) tracing).within
  refine ⟨l, t, hsource, hasked, ?_, hmatched, hcurrent, hnext, hend⟩
  have hlength := hmatched.length_le
  rw [List.length_reverse] at hlength
  exact hasked ▸ Nat.succ_le_succ hlength

/-- A procedure with an end token that spells the mode of a parameter, and tokens behind its end. -/
def endTokenAsMode : List Token :=
  [⟨.procedureWord, "procedure", 1⟩, ⟨.identifier, "p", 1⟩, ⟨.leftParen, "(", 1⟩,
    ⟨.endOfInput, "IN", 1⟩, ⟨.identifier, "a", 1⟩, ⟨.colon, ":", 1⟩, ⟨.integerWord, "integer", 1⟩,
    ⟨.rightParen, ")", 1⟩, ⟨.isWord, "is", 1⟩, ⟨.beginWord, "begin", 1⟩, ⟨.endWord, "end", 1⟩,
    ⟨.identifier, "p", 1⟩, ⟨.semicolon, ";", 1⟩, ⟨.endOfInput, "", 2⟩, ⟨.number, "1", 2⟩]

theorem ends_within_list_endTokenAsMode :
    (∃ s, AsksIn (.ofList endTokenAsMode) false [] s ∧ s.matched = []) ∧
      Unfolds (repeatOver .procedureWord procedureSteps)
        (whileKind .procedureWord procedureSteps) ∧
      (Outcome.ofSource (.ofList endTokenAsMode) false).failure = none ∧
      (Outcome.ofSource (.ofList endTokenAsMode) false).state.matched.length = 13 ∧
      ∃ t, (Outcome.ofSource (.ofList endTokenAsMode) false).state.current = some t ∧
        t.kind = .endOfInput := by
  have hsuccess : (Outcome.ofSource (.ofList endTokenAsMode) false).failure = none := by
    decide +kernel
  obtain ⟨⟨hloops, -, -⟩, hgiven, l, t, -, -, -, -, hcurrent, -, hend⟩ :=
    ends_within_list endTokenAsMode false
  have hasks : AsksIn (.ofList endTokenAsMode) false []
      { ({ State.ofSource (breakingOff []) false with listing := #[.begun] } : State) with
        source := .ofList endTokenAsMode } := ⟨_, rfl, rfl, rfl⟩
  exact ⟨⟨_, hasks, hgiven _ _ hasks⟩, hloops _ _ .procedures, hsuccess, by decide +kernel, t,
    hcurrent, hend hsuccess⟩

end Analysis

end ProcLang
