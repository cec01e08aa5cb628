import ProcLang.Analysis.Run
import ProcLang.Proofs.Procedures

/-!
# Whole runs

A run of an analysis looks at the first token, reads a procedure and stops unless the end of the
input follows. `RunStops` lists the ways in which a run can fail, and `ends_analysisSteps` says that
there are no others.
-/

namespace ProcLang.Analysis

variable {b s s' : State} {source : TokenSource} {tracing : Bool}

/-! ## Outcomes -/

theorem ends_unwinding {α : Type} {step : Analysis α} {ok : α → State → Prop}
    {bad : Failure → State → Prop} :
    Ends (unwinding step) s ok bad ↔
      Ends step s ok fun e s' => bad e { s' with table := s'.table.unwindTo s.table.depth } := by
  unfold Ends unwinding
  cases step s <;> rfl

theorem ends_outcome {step : Analysis Unit} {good : State → Prop} {bad : Failure → State → Prop} :
    Ends step s (fun _ => good) bad ↔
      ((step.outcome s).failure = none → good (step.outcome s).state) ∧
        ∀ e, (step.outcome s).failure = some e → bad e (step.outcome s).state := by
  unfold Ends Analysis.outcome
  cases step s with
  | ok a s' => simp
  | error e s' => simp

/-- What holds where a step ends, be it well or not, holds of its outcome. -/
theorem Ends.outcome {step : Analysis Unit} {P : State → Prop}
    (h : Ends step s (fun _ => P) fun _ => P) : P (step.outcome s).state := by
  obtain ⟨hok, hbad⟩ := ends_outcome.mp h
  cases hf : (step.outcome s).failure with
  | none => exact hok hf
  | some e => exact hbad e hf

/-- The outcome of a run is what its steps end in, with the open scopes closed if it fails. -/
theorem exists_run_of_failure {e : Failure}
    (h : (Outcome.ofSource source tracing).failure = some e) :
    ∃ s, analysisSteps (.ofSource source tracing) = .error e s ∧
      (Outcome.ofSource source tracing).state =
        { s with table := (Outcome.ofSource source tracing).state.table } := by
  unfold Outcome.ofSource outcome analyze unwinding at h ⊢
  cases hr : analysisSteps (.ofSource source tracing) with
  | ok a s => rw [hr] at h; cases h
  | error e' s =>
    rw [hr] at h
    cases h
    exact ⟨s, rfl, rfl⟩

theorem analysisSteps_of_success (h : (Outcome.ofSource source tracing).failure = none) :
    analysisSteps (.ofSource source tracing) = .ok () (Outcome.ofSource source tracing).state := by
  unfold Outcome.ofSource outcome analyze unwinding at h ⊢
  cases hr : analysisSteps (.ofSource source tracing) with
  | ok a s => rfl
  | error e s => rw [hr] at h; cases h

/-- Where an analysis stops it stood at frames, and has taken one more token at most. -/
theorem Stops.stands {e : Failure} (h : Stops b e s) :
    ∃ f rest s₀, Stands b f rest s₀ ∧ Quiet f.goals s₀ ∧ s.table = s₀.table ∧
      s.pending = s₀.pending ∧ (s.matched = s₀.matched ∨ ∃ t, s.matched = t :: s₀.matched) := by
  cases h with
  | breaks hs hq _ ht =>
    obtain ⟨source, -, -, rfl⟩ := ht
    exact ⟨_, _, _, hs, hq, rfl, rfl, Or.inr ⟨_, rfl⟩⟩
  | unexpected hs hq | undefined hs hq | otherClosingName hs hq =>
    exact ⟨_, _, _, hs, hq, rfl, rfl, Or.inl rfl⟩
  | duplicate hs hq ht | numeral hs hq ht =>
    obtain ⟨u, source, -, -, rfl⟩ := ht
    exact ⟨_, _, _, hs, hq, rfl, rfl, Or.inr ⟨_, rfl⟩⟩

/-! ## From the first token to the last -/

/-- The state in which the procedure is read: the first token is looked at. -/
def Begun (s b : State) : Prop :=
  ∃ t source, s.source.next = (.ok t, source) ∧
    b = { s with source := source, current := some t, listing := s.listing.push .begun }

/-- The ways in which a run can fail: there is no first token, the reading of the procedure stops,
or a token follows the procedure. -/
inductive RunStops (s : State) : Failure → State → Prop
  | noToken {err : ScanError} {source : TokenSource} :
    s.source.next = (.error err, source) →
    RunStops s (.ofScanError err) { s with source := source, listing := s.listing.push .begun }
  | stops {b s' : State} {e : Failure} : Begun s b → Stops b e s' → RunStops s e s'
  | unconsumed {b s' : State} {names : List String} {t : Token} :
    Begun s b → Stands b ⟨"", names, []⟩ [] s' → s'.pending = [] → s'.current = some t →
    t.kind ≠ .endOfInput → RunStops s (.diagnostic (.unconsumed t)) s'

/-- A run that succeeds has read the procedure and looks at an end token. -/
def RunSucceeds (s s' : State) : Prop :=
  ∃ b names s₁ t, Begun s b ∧ Stands b ⟨"", names, []⟩ [] s₁ ∧ s₁.pending = [] ∧
    s₁.current = some t ∧ t.kind = .endOfInput ∧ Rewrites b s₁ s'

theorem Begun.isSome (h : Begun s b) : b.current.isSome := by
  obtain ⟨t, source, -, rfl⟩ := h
  rfl

theorem Begun.table (h : Begun s b) : b.table = s.table := by
  obtain ⟨t, source, -, rfl⟩ := h
  rfl

theorem Begun.listing (h : Begun (.ofSource source tracing) b) :
    b.listing = #[.begun] := by
  obtain ⟨t, source', hn, rfl⟩ := h
  rfl

theorem Begun.ready (h : Begun (.ofSource source tracing) b) : Ready b := by
  obtain ⟨t, source', -, rfl⟩ := h
  exact ⟨SymbolTable.WellFormed.empty, fun _ _ h => absurd h List.not_mem_nil, rfl⟩

/-- What has been taken since the first token was looked at. -/
theorem Begun.exists_taken {frames : List Frame} {t : Token}
    (h : Begun (.ofSource source tracing) b) (hr : Reads b frames s) (ht : s.current = some t) :
    ∃ taken, s.matched = taken.reverse ∧ source.Supplies (taken ++ [t]) s.source ∧
      takeAll [] [.base []] taken = .ok frames := by
  obtain ⟨u, source', hn, rfl⟩ := h
  obtain ⟨first, taken, pulled, t', hfirst, ht', hmatched, hall, hsupply, htaken⟩ := hr
  cases hfirst
  cases ht.symm.trans ht'
  refine ⟨taken, hmatched.trans (List.append_nil _), ?_, htaken⟩
  rw [← hall]
  exact ⟨source', hn, hsupply⟩

/-- A run that has no first token tells of its beginning alone. -/
theorem exists_begun_or_error (source : TokenSource) (tracing : Bool) :
    (∃ b, Begun (.ofSource source tracing) b) ∨
      ∃ e s, analysisSteps (.ofSource source tracing) = .error e s ∧ s.listing = #[.begun] := by
  rcases hn : source.next with ⟨answer, source'⟩
  cases answer with
  | ok t => exact Or.inl ⟨_, t, source', hn, rfl⟩
  | error err =>
    refine Or.inr ⟨.ofScanError err,
      { State.ofSource source tracing with source := source', listing := #[.begun] }, ?_, rfl⟩
    show (pull >>= fun _ => _) _ = _
    exact bind_eq_of_error (pull_eq_of_error hn)

/-- What an analysis does behind the procedure. -/
def conclusion : Analysis Unit := do
  checkEnd
  modify fun s => { s with succeeded := true }
  logSnapshot .outermost
  log .completed

/-- Behind the first token a run reads a procedure and comes to its end. -/
theorem analysisSteps_eq (h : Begun (.ofSource source tracing) b) :
    analysisSteps (.ofSource source tracing) = (procedureSteps >>= fun _ => conclusion) b := by
  obtain ⟨t, source', hn, rfl⟩ := h
  show (pull >>= fun _ => procedureSteps >>= fun _ => conclusion) _ = _
  exact bind_eq_of_ok (pull_eq_of_ok hn)

/-- The end of a run: the token behind the procedure must be an end token. -/
theorem ends_conclusion {names : List String} (hbegun : Begun (.ofSource source tracing) b)
    (h : Stands b ⟨"", names, []⟩ [] s) (hp : s.pending = []) :
    Ends conclusion s (fun _ => RunSucceeds (.ofSource source tracing))
      (RunStops (.ofSource source tracing)) := by
  obtain ⟨t, ht⟩ := Option.isSome_iff_exists.mp h.reads.isSome
  unfold conclusion checkEnd
  rw [ends_bind, ends_bind, ends_currentToken ht]
  by_cases hkind : t.kind = .endOfInput
  · rw [if_neg (not_not.mpr hkind), ends_pure, ends_bind, ends_modify, ends_bind]
    have hempty : b.table.symbols.size = 0 := by rw [hbegun.table]; rfl
    refine (ends_logSnapshot (b := b) (s := { s with succeeded := true }) fun h' hm => ?_).mono ?_
      fun _ _ h => h.elim
    · obtain ⟨y, hlisted, -⟩ := h.grown.wellFormed.mem_entriesAt_iff.mp hm
      exact h.waiting.shown y h' hlisted (by rw [hempty]; exact Nat.zero_le _)
    · intro _ s₁ hr
      exact ⟨b, names, s, t, hbegun, h, hp, ht, hkind,
        hr.source, hr.current, hr.matched, hr.pending, hr.table⟩
  · rw [if_pos hkind, ends_report]
    exact .unconsumed hbegun h hp ht hkind

/-- A run from the first token on ends in one of the ways that are listed. -/
theorem ends_analysisSteps (source : TokenSource) (tracing : Bool) :
    Ends analysisSteps (.ofSource source tracing)
      (fun _ => RunSucceeds (.ofSource source tracing)) (RunStops (.ofSource source tracing)) := by
  unfold analysisSteps
  rw [ends_bind, ends_get]
  show Ends (do log .begun; pull; procedureSteps; checkEnd; _) _ _ _
  unfold log
  rw [ends_bind, ends_modify]
  refine (ends_pull _).bind ?_ ?_
  · rintro - b ⟨t, source', hn, rfl⟩
    have hbegun : Begun (.ofSource source tracing)
        { State.ofSource source tracing with
          source := source', current := some t
          listing := (State.ofSource source tracing).listing.push .begun } :=
      ⟨t, source', hn, rfl⟩
    refine (hbegun.ready.ends_procedureSteps rfl).bind ?_ fun e s' h => .stops hbegun h
    rintro - s₁ ⟨⟨names, hs₁⟩, hp₁⟩
    exact ends_conclusion hbegun hs₁ hp₁
  · rintro e s' ⟨err, source', hn, rfl, rfl⟩
    exact .noToken hn

end ProcLang.Analysis
