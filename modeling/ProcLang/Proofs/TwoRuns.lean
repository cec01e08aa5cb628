import ProcLang.Proofs.Pairings

/-!
# One analysis over two sources

The second source gives what the first one gives, and the states differ in nothing but their sources
and in what is traced (`alike`). So a step that depends on no trace leaves it as it is (`Silent`),
and a run without tracing prints nothing.
-/

namespace ProcLang.Analysis

variable {α β : Type}

/-! ## One analysis over two sources -/

/-- Whether a state is traced, and what has been printed. -/
abbrev Trace := Bool × Array Snapshot

/-- The trace with a snapshot, which is printed if there is tracing. -/
def Trace.add (shot : Snapshot) (t : Trace) : Trace := (t.1, if t.1 then t.2.push shot else t.2)

/-- The tracing of a state. -/
def trace (s : State) : Trace := (s.tracing, s.printed)

/-- How one analysis goes over two sources: which sources go together, with which errors of the
first source the first run is lost, and how what is traced goes together. -/
structure Coupling where
  sources : TokenSource → TokenSource → Prop
  lost : ScanError → Prop
  traces : Trace → Trace → Prop

/-- The second source gives the token that the first one gives, and the error too, unless the run is
lost with that. -/
structure SourcesCoupled (c : Coupling) : Prop where
  token : ∀ {a a' b t}, c.sources a b → a.next = (.ok t, a') →
    ∃ b', b.next = (.ok t, b') ∧ c.sources a' b'
  error : ∀ {a a' b e}, c.sources a b → a.next = (.error e, a') →
    c.lost e ∨ ∃ b', b.next = (.error e, b') ∧ c.sources a' b'

/-- Equal sources give the same. -/
theorem SourcesCoupled.of_eq {c : Coupling} (h : c.sources = Eq) : SourcesCoupled c where
  token := by
    rw [h]
    rintro a a' b t rfl hn
    exact ⟨a', hn, rfl⟩
  error := by
    rw [h]
    rintro a a' b e rfl hn
    exact Or.inr ⟨a', hn, rfl⟩

/-- The sources go together, and the same snapshot may be added to both traces. -/
structure Coupled (c : Coupling) : Prop extends SourcesCoupled c where
  snapshot : ∀ {t t'} shot, c.traces t t' → c.traces (t.add shot) (t'.add shot)

/-- States that are alike but for their sources and traces, which go together. -/
structure Alike (c : Coupling) (s s' : State) : Prop where
  sources : c.sources s.source s'.source
  traces : c.traces (trace s) (trace s')
  eq : s' = { s with source := s'.source, tracing := s'.tracing, printed := s'.printed }

/-- One analysis over two sources. -/
def alike (c : Coupling) : Pairing where
  states := Alike c
  failures := Eq
  lost e := ∃ err, c.lost err ∧ e = .ofScanError err

/-- The step does the same in states that are alike. -/
abbrev Follows (c : Coupling) (step : Analysis α) : Prop := Tracks (alike c) Eq step step

section Follows

variable {c : Coupling} {s s' : State} {kind : Kind}

theorem Follows.bind {step : Analysis β} {f : β → Analysis α} (h : Follows c step)
    (hf : ∀ b, Follows c (f b)) : Follows c (step >>= f) :=
  Tracks.bind h fun b _ hb => hb ▸ hf b

/-- Other tokens and tracing, changed alike. -/
theorem Alike.withView {v v' : View} (h : Alike c s s') (hv : v = s.view)
    (hv' : v' = s'.view) (s₁ : State) : Alike c (s₁.withView v) (s₁.withView v') := by
  subst hv hv'
  refine ⟨h.sources, h.traces, ?_⟩
  unfold State.withView State.view
  rw [h.eq]

/-- A step that looks at no token and has nothing to do with tracing. -/
theorem Follows.of_blind {step : Analysis α} (h : Blind step) : Follows c step := by
  intro s s' hs
  have heq : s' = s.withView s'.view := by
    unfold State.withView State.view
    rw [hs.eq]
  have hview := h s s.view
  have hview' := h s s'.view
  rw [State.withView_view] at hview
  rw [← heq] at hview'
  rw [hview']
  cases hr : step s with
  | ok a s₁ =>
    rw [hr] at hview
    refine ⟨a, _, rfl, rfl, ?_⟩
    rw [(EStateM.Result.ok.inj hview).2]
    exact hs.withView rfl rfl s₁
  | error e s₁ =>
    rw [hr] at hview
    refine Or.inr ⟨e, _, rfl, rfl, ?_⟩
    rw [(EStateM.Result.error.inj hview).2]
    exact hs.withView rfl rfl s₁

theorem follows_pull (h : SourcesCoupled c) : Follows c pull := by
  intro s s' hs
  cases hn : s.source.next with
  | mk answer source =>
    cases answer with
    | ok t =>
      obtain ⟨source', hn', hsources'⟩ := h.token hs.sources hn
      rw [pull_eq_of_ok hn, pull_eq_of_ok hn']
      refine ⟨(), _, rfl, rfl, hsources', hs.traces, ?_⟩
      rw [hs.eq]
    | error e =>
      rw [pull_eq_of_error hn]
      refine (h.error hs.sources hn).imp (fun hlost => ⟨e, hlost, rfl⟩) ?_
      rintro ⟨source', hn', hsources'⟩
      refine ⟨_, _, pull_eq_of_error hn', rfl, hsources', hs.traces, ?_⟩
      rw [hs.eq]

theorem named_eq {n n' : String} : Named Eq n n' ↔ n = n' := by
  constructor
  · rintro ⟨t, _, rfl, -, rfl, rfl⟩
    rfl
  · rintro rfl
    exact ⟨⟨.identifier, n, 0⟩, _, rfl, rfl, rfl, rfl⟩

/-- Over two sources the tokens are the same, and what is done behind them looks at no token. -/
theorem primitives_alike (h : SourcesCoupled c) : Primitives (alike c) Eq where
  current {s s'} hs := by
    rw [hs.eq]
    cases s.current <;> constructor
    rfl
  matched {s s' t t'} hs ht := by
    subst ht
    refine ⟨hs.sources, hs.traces, ?_⟩
    rw [hs.eq]
  next := follows_pull h
  kind ht := congrArg Token.kind ht.symm
  number ht _ := congrArg Token.lexeme ht.symm
  minus ht _ := by rw [ht]
  modeWord ht := by rw [ht]
  closing hn ht := by rw [named_eq.mp hn, ht]
  noToken _ := rfl
  unexpected _ ht := by rw [ht]; rfl
  otherName hn ht := by rw [named_eq.mp hn, ht]; rfl
  unconsumed ht := by rw [ht]; rfl
  declare ht _ := ht ▸ Follows.of_blind (blind_declareTaken _)
  use ht _ := ht ▸ Follows.of_blind (blind_checkDefined _)
  value text := Follows.of_blind (blind_constantValue text)
  attributes a := Follows.of_blind (blind_attributePending a)
  marked m hn := named_eq.mp hn ▸ Follows.of_blind (blind_afterMark _ m)
  noneRecorded := Follows.of_blind (.modify fun _ _ => rfl)
  place hn := named_eq.mp hn ▸ Follows.of_blind (blind_placeParameters _)
  noneLocal := Follows.of_blind (.modify fun _ _ => rfl)
  opened ht _ := ht ▸ Tracks.mono (Follows.of_blind (blind_openScope _)) fun _ _ => named_eq.mpr

section Tokens

variable (h : SourcesCoupled c)
include h

theorem follows_reject (x : Expectation) : Follows c (reject x : Analysis α) :=
  tracks_reject (primitives_alike h) x

theorem follows_openProcedure : Follows c openProcedure :=
  (tracks_openProcedure (primitives_alike h)).mono fun _ _ => named_eq.mp

theorem follows_procedureHead (name : String) : Follows c (procedureHead name) :=
  tracks_procedureHead (primitives_alike h) (named_eq.mpr rfl)

theorem follows_procedureBody (name : String) : Follows c (procedureBody name) :=
  tracks_procedureBody (primitives_alike h) (named_eq.mpr rfl)

end Tokens

variable (h : Coupled c)
include h

/-- The snapshot of a scope is the same, whether it is printed or not. -/
theorem follows_logSnapshot (scope : ScopeName) : Follows c (logSnapshot scope) := by
  refine .get_bind fun s s' hs => ?_
  rw [hs.eq]
  refine (Follows.of_blind (.forM blind_needRow _)).bind fun _ =>
    (Follows.of_blind (blind_log _)).bind fun _ => .modify fun s₁ s₁' hs₁ => ?_
  -- the change of a state, as that of its trace
  have htrace : ∀ (s : State) (shot : Snapshot),
      (if s.tracing then { s with printed := s.printed.push shot } else s) =
        { s with printed := ((trace s).add shot).2 } := by
    intro s shot
    unfold Trace.add trace
    split
    · rfl
    · rfl
  rw [htrace, htrace]
  refine ⟨hs₁.sources, h.snapshot _ hs₁.traces, ?_⟩
  rw [hs₁.eq]

theorem allPrimitives_alike : AllPrimitives (alike c) Eq where
  toPrimitives := primitives_alike h.toSourcesCoupled
  closed hn := by
    obtain rfl := named_eq.mp hn
    exact (follows_logSnapshot h _).bind fun _ => .of_blind (blind_leaveScope _)
  depth hs := by rw [hs.eq]
  unwound _ hs := ⟨hs.sources, hs.traces, by rw [hs.eq]⟩
  alreadyRun := rfl
  begun := Follows.of_blind (blind_log _)
  completed := (Follows.of_blind (.modify fun _ _ => rfl)).bind fun _ =>
    (follows_logSnapshot h _).bind fun _ => .of_blind (blind_log _)

/-- The outcomes of two runs over sources that go together are alike unless the first run is
lost. -/
theorem alike_ofSource {source source' : TokenSource} {tracing tracing' : Bool}
    (hsources : c.sources source source') (htraces : c.traces (tracing, #[]) (tracing', #[])) :
    (∃ err, c.lost err ∧ (Outcome.ofSource source tracing).failure = some (.ofScanError err)) ∨
      (Outcome.ofSource source' tracing').failure = (Outcome.ofSource source tracing).failure ∧
        Alike c (Outcome.ofSource source tracing).state
          (Outcome.ofSource source' tracing').state := by
  refine (tracks_ofSource (allPrimitives_alike h) ⟨hsources, htraces, rfl⟩).imp ?_ ?_
  · rintro ⟨_, ⟨err, hlost, rfl⟩, hf⟩
    exact ⟨err, hlost, hf⟩
  · rintro ⟨hfailure, hstate⟩
    refine ⟨?_, hstate⟩
    generalize (Outcome.ofSource source tracing).failure = f,
      (Outcome.ofSource source' tracing').failure = f' at hfailure
    cases hfailure with
    | some he => exact congrArg some he.symm
    | none => rfl

end Follows

/-! ## Steps that print nothing -/

/-- A run goes along with itself, and its trace stays as it is. -/
def keeping (t : Trace) : Coupling where
  sources := Eq
  lost _ := False
  traces t' _ := t' = t

theorem sourcesCoupled_keeping (t : Trace) : SourcesCoupled (keeping t) := .of_eq rfl

/-- The step leaves the trace as it is, whether it succeeds or not. -/
def Silent (step : Analysis α) : Prop :=
  ∀ s, Ends step s (fun _ s' => trace s' = trace s) fun _ s' => trace s' = trace s

theorem Silent.of_follows {step : Analysis α} (h : ∀ c, SourcesCoupled c → Follows c step) :
    Silent step := by
  intro s
  have hanswer := h _ (sourcesCoupled_keeping (trace s)) s s ⟨rfl, rfl, rfl⟩
  unfold Ends
  cases hr : step s with
  | ok a s₁ =>
    rw [hr] at hanswer
    obtain ⟨_, _, _, _, hs₁⟩ := hanswer
    exact hs₁.traces
  | error e s₁ =>
    rw [hr] at hanswer
    obtain ⟨_, hno, _⟩ | ⟨_, _, _, _, hs₁⟩ := hanswer
    · exact hno.elim
    · exact hs₁.traces

/-! ## A run without tracing -/

theorem coupled_untraced : Coupled (keeping (false, #[])) where
  toSourcesCoupled := sourcesCoupled_keeping _
  snapshot := by
    rintro t t' shot rfl
    rfl

/-- Without tracing nothing is printed. -/
theorem printedLines_of_untraced (source : TokenSource) :
    (Outcome.ofSource source false).printedLines = [] := by
  have hsources : (keeping (false, #[])).sources source source := rfl
  have htraces : (keeping (false, #[])).traces (false, #[]) (false, #[]) := rfl
  rcases alike_ofSource coupled_untraced hsources htraces with ⟨err, hno, -⟩ | ⟨-, halike⟩
  · exact hno.elim
  · have hprinted : (Outcome.ofSource source false).state.printed = #[] :=
      congrArg Prod.snd halike.traces
    unfold Outcome.printedLines
    rw [hprinted]
    rfl

end ProcLang.Analysis
