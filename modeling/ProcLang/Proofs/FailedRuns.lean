import ProcLang.Proofs.ClosedProcedures
import ProcLang.Proofs.Expectations
import ProcLang.Proofs.PulledTokens

/-!
# Runs that fail

A run that fails has seen no more than the tokens that it has asked for. Its listing is an honest
beginning: where the tokens come from texts, those before the offending one begin a program whose
listing begins with it, and what it tells of closings is true (`Analysis.failed_run_honest`).
-/

namespace ProcLang

namespace Outcome

variable {o : Outcome} {e : Failure} {before : List Token} {t : Token}

theorem offence?_eq (hf : o.failure = some e) :
    o.offence? = (if e.isLate then o.state.matched.head? else o.state.current).map
      fun t => ((e.before o.state).reverse, t) := by
  unfold offence?
  rw [hf]
  cases e with
  | diagnostic d => cases d <;> rfl
  | fault f => cases f <;> rfl

theorem before_of_offence (h : o.offence? = some (before, t)) (hf : o.failure = some e) :
    e.before o.state = before.reverse := by
  rw [offence?_eq hf] at h
  obtain ⟨u, -, heq⟩ := Option.map_eq_some_iff.mp h
  rw [← (Prod.mk.inj heq).1, List.reverse_reverse]

end Outcome

namespace Analysis

variable {source source' last last' : TokenSource} {tracing : Bool} {as before : List Token}
  {t t' : Token} {e : Failure} {s s' : State}

/-! ## Two runs that part at a token -/

theorem Lengthens.starts {P : Entry → Prop} {l l' : Array Entry} (h : Lengthens P l l') :
    l.toList <+: l'.toList := by
  obtain ⟨more, heq, -⟩ := h
  exact ⟨more, heq.symm⟩

/-- Runs over sources that supply the same first tokens begin level. -/
theorem exists_level_begun (tracing : Bool) (hs : source.Supplies (before ++ [t]) last)
    (hs' : source'.Supplies (before ++ [t']) last') :
    ∃ b b', Begun (.ofSource source tracing) b ∧ Begun (.ofSource source' tracing) b' ∧
      Level before.reverse b b' := by
  cases before with
  | nil =>
    obtain ⟨mid, hn, -⟩ := hs
    obtain ⟨mid', hn', -⟩ := hs'
    exact ⟨_, _, ⟨t, mid, hn, rfl⟩, ⟨t', mid', hn', rfl⟩, rfl, Or.inl rfl⟩
  | cons c rest =>
    obtain ⟨mid, hn, hs⟩ := hs
    obtain ⟨mid', hn', hs'⟩ := hs'
    exact ⟨_, _, ⟨c, mid, hn, rfl⟩, ⟨c, mid', hn', rfl⟩, rfl,
      Or.inr ⟨rest, c, t, t', last, last', List.reverse_cons, rfl, rfl, hs, hs'⟩⟩

/-- The listing of a run that succeeds begins with that of a run that fails, if the tokens before
the offending one are the same. -/
theorem listing_starts_of_fork (hs : source.Supplies (before ++ [t]) last)
    (hs' : source'.Supplies (before ++ [t']) last')
    (hrun : analysisSteps (.ofSource source tracing) = .error e s)
    (hbefore : e.before s = before.reverse)
    (hrun' : analysisSteps (.ofSource source' tracing) = .ok () s') :
    s.listing.toList <+: s'.listing.toList := by
  obtain ⟨b, b', hbegun, hbegun', hlevel⟩ := exists_level_begun tracing hs hs'
  rw [analysisSteps_eq hbegun] at hrun
  rw [analysisSteps_eq hbegun'] at hrun'
  have hparted : Parted (fun _ => True) .takes before.reverse (procedureSteps b) (procedureSteps b') :=
    (Careful.bounded settled_procedureWithin careful_procedureWithin).parted _ _ _ hlevel
  -- the second run comes to its end, and enters no less there than nothing
  obtain ⟨⟨⟩, s₁', hr', hend'⟩ : ∃ a s₁', procedureSteps b' = .ok a s₁' ∧
      conclusion s₁' = .ok () s' := by
    cases hr' : procedureSteps b' with
    | ok a s₁' => exact ⟨a, s₁', rfl, (bind_eq_of_ok hr').symm.trans hrun'⟩
    | error e' s₁' => cases (bind_eq_of_error hr').symm.trans hrun'
  have hmore' : s₁'.listing.toList <+: s'.listing.toList :=
    ((entersLast_conclusion s₁').of_ok hend').starts
  refine List.IsPrefix.trans ?_ hmore'
  rw [hr'] at hparted
  generalize hr : procedureSteps b = r at hparted
  cases hparted with
  | level hl₁ =>
    rw [bind_eq_of_ok hr] at hrun
    obtain ⟨-, hlisting⟩ := (entersLast_conclusion _).of_error hrun
    rw [hlisting, hl₁.eq]
  | @apart _ _ l _ hb hb' =>
    -- the offending token is the one at which the runs part, so nothing was entered behind it
    suffices hlisting : s.listing = l by
      rw [hlisting]
      exact hb'.1.listing.starts
    cases r with
    | error e₁ s₁ =>
      cases (bind_eq_of_error hr).symm.trans hrun
      exact hb.still (by decide) hbefore
    | ok a s₁ =>
      obtain ⟨hgoes, htakes⟩ := hb
      rw [bind_eq_of_ok hr] at hrun
      obtain ⟨hmatched, -⟩ := (entersLast_conclusion s₁).of_error hrun
      rw [hbefore] at hmatched
      exact absurd (suffix_antisymm hgoes.matched hmatched) (htakes rfl)

/-! ## Runs over lists -/

/-- The tokens before the offending one begin a list over which the run succeeds, and whose listing
begins with that of the run that fails. -/
theorem exists_accepted_of_failure (hf : (Outcome.ofSource (.ofList as) tracing).failure = some e)
    (has : ∀ u ∈ as, u.IsInner) :
    ∃ line before t behind more, as ++ [.endOfInput line] = before ++ t :: behind ∧
      (Outcome.ofSource (.ofList as) tracing).offence? = some (before, t) ∧
      (∀ u ∈ more, u.IsInner) ∧
      (Outcome.ofSource (.ofList (before ++ more)) tracing).failure = none ∧
      (Outcome.ofSource (.ofList as) tracing).state.listing.toList <+:
        (Outcome.ofSource (.ofList (before ++ more)) tracing).state.listing.toList := by
  obtain ⟨line, last, hs⟩ := TokenSource.supplies_ofList as
  rcases run_verdict tracing hs has with ⟨hnone, -⟩ | ⟨before, t, frames, e', hstops⟩
  · cases hnone.symm.trans hf
  obtain rfl : e' = e := Option.some.inj (hstops.failure.symm.trans hf)
  obtain ⟨behind, hsplit⟩ := hstops.split
  obtain ⟨more, hmore, hnone⟩ := exists_succeeds_append tracing (hstops.isInner has) hstops.taken
  refine ⟨line, before, t, behind, more, hsplit, hstops.offence, hmore, hnone, ?_⟩
  -- each source supplies the tokens before the offending one, and one more
  obtain ⟨mid, hs⟩ : ∃ mid, (TokenSource.ofList as).Supplies (before ++ [t]) mid := by
    rw [hsplit, ← List.singleton_append, ← List.append_assoc] at hs
    obtain ⟨mid, hs, -⟩ := TokenSource.supplies_append.mp hs
    exact ⟨mid, hs⟩
  obtain ⟨t', mid', hs'⟩ :
      ∃ t' mid', (TokenSource.ofList (before ++ more)).Supplies (before ++ [t']) mid' := by
    obtain ⟨mid', hs'⟩ := TokenSource.exists_supplies_ofList_append before more
    obtain ⟨l, rfl, -⟩ := hs'.exists_asked
    exact ⟨l.next.1, _, hs'.concat rfl⟩
  obtain ⟨s, hrun, hstate⟩ := exists_run_of_failure hf
  have hbefore := Outcome.before_of_offence hstops.offence hf
  rw [hstate] at hbefore ⊢
  have hlisting := listing_starts_of_fork hs hs' hrun hbefore (analysisSteps_of_success hnone)
  exact hlisting

/-- A run over a list that fails has seen no more than the tokens that it has asked for. If they are
in the list, the run over each list that begins with them fails in the same way, and leaves the same
state but for the tokens that are left. And its listing is an honest beginning. If the tokens are
tokens of texts, those before the offending one begin a list over which the run succeeds, with a
listing that begins with it. What it tells of the closing of a scope is true of a procedure that was
read as a whole. -/
theorem failed_run_honest (hf : (Outcome.ofSource (.ofList as) tracing).failure = some e) :
    (∃ l, (Outcome.ofSource (.ofList as) tracing).state.source = .list l ∧
      (l.asked ≤ as.length → ∀ bs : List Token, bs.take l.asked = as.take l.asked →
        (Outcome.ofSource (.ofList bs) tracing).failure = some e ∧
          ∃ l', l'.asked = l.asked ∧ (Outcome.ofSource (.ofList bs) tracing).state =
            { (Outcome.ofSource (.ofList as) tracing).state with source := .list l' })) ∧
    ((∀ u ∈ as, u.IsInner) →
      ∃ line before t behind more, as ++ [.endOfInput line] = before ++ t :: behind ∧
        (Outcome.ofSource (.ofList as) tracing).offence? = some (before, t) ∧
        (∀ u ∈ more, u.IsInner) ∧
        (Outcome.ofSource (.ofList (before ++ more)) tracing).failure = none ∧
        (Outcome.ofSource (.ofList as) tracing).listing <+:
          (Outcome.ofSource (.ofList (before ++ more)) tracing).listing) ∧
    ∀ x ∈ (Outcome.ofSource (.ofList as) tracing).state.listing, x.isClosing →
      ∃ (b b' s : State) (q : Procedure), Begun (.ofSource (.ofList as) tracing) b ∧
        Closes (b.source.bound + 1) b b' q.name s ∧ Took q.terminals b' s ∧
        s.matched <:+ (Outcome.ofSource (.ofList as) tracing).state.matched ∧
        (x = .snapshot ⟨.procedure q.name, s.table.depth, q.scope s.table.depth⟩ ∨
          x = .scopeLeft q.name (s.table.depth - 1)) := by
  refine ⟨?pulled, ?beginning, fun x hx hclosing => exists_closed_of_isClosing hf hx hclosing⟩
  case pulled =>
    obtain ⟨l, hl, -⟩ := exists_asked_of_failure hf
    exact ⟨l, hl, fun hle bs hagree => same_of_agree hf hl hle hagree⟩
  case beginning =>
    intro has
    obtain ⟨line, before, t, behind, more, hsplit, hoffence, hmore, hnone, hentries⟩ :=
      exists_accepted_of_failure hf has
    refine ⟨line, before, t, behind, more, hsplit, hoffence, hmore, hnone, ?_⟩
    unfold Outcome.listing listingLines
    exact hentries.flatMap _

/-- A procedure with a closed one in it, up to a name that is not declared. -/
def usesUndeclared : List Token :=
  [⟨.procedureWord, "procedure", 1⟩, ⟨.identifier, "p", 1⟩, ⟨.isWord, "is", 1⟩,
   ⟨.procedureWord, "procedure", 1⟩, ⟨.identifier, "q", 1⟩, ⟨.isWord, "is", 1⟩,
   ⟨.beginWord, "begin", 1⟩, ⟨.endWord, "end", 1⟩, ⟨.identifier, "q", 1⟩, ⟨.semicolon, ";", 1⟩,
   ⟨.beginWord, "begin", 1⟩, ⟨.identifier, "x", 1⟩]

theorem failed_run_honest_usesUndeclared :
    (∀ more, (Outcome.ofSource (.ofList (usesUndeclared ++ more)) false).failure =
      some (.diagnostic (.undefined "x" 1))) ∧
    (∃ more, (Outcome.ofSource (.ofList (usesUndeclared.take 11 ++ more)) false).failure = none ∧
      (Outcome.ofSource (.ofList usesUndeclared) false).listing <+:
        (Outcome.ofSource (.ofList (usesUndeclared.take 11 ++ more)) false).listing) ∧
    ∃ (b b' s : State) (q : Procedure), q.name = "q" ∧
      Begun (.ofSource (.ofList usesUndeclared) false) b ∧
      Closes (b.source.bound + 1) b b' q.name s ∧ Took q.terminals b' s := by
  have hfailure : (Outcome.ofSource (.ofList usesUndeclared) false).failure =
      some (.diagnostic (.undefined "x" 1)) := by decide +kernel
  have hsource : (Outcome.ofSource (.ofList usesUndeclared) false).state.source =
      .list ⟨[], 12, 1⟩ := by decide +kernel
  have hoffence : (Outcome.ofSource (.ofList usesUndeclared) false).offence? =
      some (usesUndeclared.take 11, ⟨.identifier, "x", 1⟩) := by decide +kernel
  have hleft : Entry.scopeLeft "q" 1 ∈
      (Outcome.ofSource (.ofList usesUndeclared) false).state.listing := by decide +kernel
  have htext : Lexer.tokenize "procedure p is procedure q is begin end q; begin x" =
      .ok (usesUndeclared ++ [.endOfInput 1]) := by decide +kernel
  have hkinds : ∀ t ∈ usesUndeclared, t.kind ≠ .endOfInput := by decide
  obtain ⟨⟨l, hl, hpulled⟩, hbeginning, hclosings⟩ := failed_run_honest hfailure
  cases hsource.symm.trans hl
  refine ⟨fun more => ?_, ?_, ?_⟩
  · exact (hpulled (by decide) (usesUndeclared ++ more) (List.take_append_of_le_length (by decide))).1
  · obtain ⟨line, before, t, behind, more, -, hbefore, -, hnone, hlisting⟩ :=
      hbeginning fun t ht =>
        Token.isInner_of_tokenize htext (List.mem_append_left _ ht) (hkinds t ht)
    cases hoffence.symm.trans hbefore
    exact ⟨more, hnone, hlisting⟩
  · obtain ⟨b, b', s, q, hbegun, hcloses, htook, -, htells⟩ := hclosings _ hleft rfl
    refine ⟨b, b', s, q, ?_, hbegun, hcloses, htook⟩
    rcases htells with hno | heq
    · cases hno
    · exact (Entry.scopeLeft.inj heq).1.symm

end Analysis

end ProcLang
