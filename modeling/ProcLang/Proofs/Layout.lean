import ProcLang.Proofs.Rendering

/-!
# The layout of the procedures of a run

Whenever the scope of a procedure is about to be closed (`Analysis.Closes`), its parameters and
local names lie in the activation record as the signature of the procedure tells it
(`Analysis.laidOut_of_closes`). This holds for the nested procedures too, and whether the analysis
succeeds in the end or not.
-/

namespace ProcLang.Analysis

variable {s s' b b' : State} {name : String} {n : Nat}

/-! ## What is reached in a procedure -/

/-- Some rounds of a repetition have been made. -/
inductive Rounds (kind : Kind) (step : Analysis Unit) : State → State → Prop
  | none (s : State) : Rounds kind step s s
  | more {s s₁ s₂ : State} {t : Token} :
    Rounds kind step s s₁ → s₁.current = some t → t.kind = kind → step s₁ = .ok () s₂ →
      Rounds kind step s s₂

/-- A relation that holds over each round holds over all of them, whether the last one succeeds or
not. -/
theorem ends_whileKind_of_relation {kind : Kind} {step : Analysis Unit}
    {rel : State → State → Prop} (hrefl : rel s s)
    (htrans : ∀ s₁ s₂, rel s s₁ → rel s₁ s₂ → rel s s₂)
    (hround : ∀ s₁, Rounds kind step s s₁ → Ends step s₁ (fun _ => rel s₁) fun _ => rel s₁) :
    Ends (whileKind kind step) s (fun _ => rel s) fun _ => rel s := by
  have hrounds : Ends (whileKind kind step) s
      (fun _ s₁ => Rounds kind step s s₁ ∧ rel s s₁) fun _ => rel s := by
    refine ends_whileKind_of_rounds (fun _ _ h => h.2) (fun s₁ t h ht hk => ?_) ⟨.none s, hrefl⟩
    refine (hround s₁ h.1).with_eq.mono ?_ fun _ s₂ h₂ => htrans s₁ s₂ h.2 h₂
    rintro ⟨⟩ s₂ ⟨hr, h₂⟩
    exact ⟨.more h.1 ht hk hr, htrans s₁ s₂ h.2 h₂⟩
  exact hrounds.mono (fun _ _ h => h.2) fun _ _ h => h

/-- In the reading of a procedure from `s` on, with at most `n` procedures nested in one another, a
procedure begins in `b`, and with `body` behind those nested in it, it is read up to `s'`. It is the
procedure itself or one that is nested in it. -/
inductive Reaches (body : String → Analysis Unit) : Nat → State → State → String → State → Prop
  | own {n : Nat} {s s' : State} {name : String} :
    procedureUpTo body n s = .ok name s' → Reaches body (n + 1) s s name s'
  | nested {n : Nat} {s s₁ s₂ b s' : State} {name : String} :
    (do let outer ← openProcedure; procedureHead outer) s = .ok () s₁ →
      Rounds .procedureWord (procedureWithin n) s₁ s₂ → Reaches body n s₂ b name s' →
      Reaches body (n + 1) s b name s'

/-- In the reading of a procedure from `s` on a procedure begins in `b`, and its scope is about to be
closed in `s'`. -/
abbrev Closes (n : Nat) (s b : State) (name : String) (s' : State) : Prop :=
  Reaches procedureBody n s b name s'

theorem yields_openProcedure_head (h : Ready s) :
    Yields (do let name ← openProcedure; procedureHead name) s fun _ s' => Ready s' := by
  refine (yields_openProcedure h).bind ?_
  rintro name s₁ ⟨-, -, h₁⟩
  refine (h₁.yields_procedureHead h.wellFormed h.bounded).mono ?_
  rintro - s₂ ⟨parameters, locals, recorded, offset, -, h₂⟩
  exact ⟨h₂.wellFormed h.wellFormed, h₂.bounded h.bounded, h₂.pending⟩

theorem Rounds.ready (h : Rounds .procedureWord (procedureWithin n) s s') (hs : Ready s) :
    Ready s' := by
  induction h with
  | none => exact hs
  | more _ _ _ hstep ih =>
    obtain ⟨q, -, hadds⟩ := (yields_procedureWithin n ih).of_ok hstep
    exact hadds.ready

/-- By induction on the nesting. -/
theorem Closes.exists_filled (h : Closes n s b name s') (hs : Ready s) :
    ∃ q : Procedure, q.name = name ∧ Filled b q s' := by
  induction h with
  | own hown =>
    exact (yields_procedureToClose (fun s hs => yields_procedureWithin _ hs) hs).of_ok hown
  | nested hhead hrounds _ ih =>
    exact ih (hrounds.ready ((yields_openProcedure_head hs).of_ok hhead))

/-- The first token is taken, and from there on the outermost procedure is read with `body`. Gives
its name and the token behind it. -/
def outermostUpTo (body : String → Analysis Unit) : Analysis (String × Option Token) := do
  log .begun
  pull
  let name ← bounded fun n => procedureUpTo body (n - 1)
  return (name, (← get).current)

/-- If the outermost procedure can be read with `body`, the state behind it is reached. -/
theorem exists_reaches {body : String → Analysis Unit} {source : TokenSource} {tracing : Bool}
    {t? : Option Token}
    (h : EStateM.run' (outermostUpTo body) (.ofSource source tracing) = some (name, t?)) :
    ∃ b s, Begun (.ofSource source tracing) b ∧ Reaches body (b.source.bound + 1) b b name s ∧
      s.current = t? := by
  have hends : Ends (outermostUpTo body) (.ofSource source tracing) (fun y s =>
      ∃ b, Begun (.ofSource source tracing) b ∧ Reaches body (b.source.bound + 1) b b y.1 s ∧
        s.current = y.2) fun _ _ => True := by
    refine ends_bind.mpr ((ends_pull _).bind ?_ fun _ _ _ => trivial)
    rintro - b hb
    have hbegun : Begun (.ofSource source tracing) b := hb
    refine ends_bind.mpr ?_
    show Ends (procedureUpTo body b.source.bound) b _ _
    unfold Ends
    split
    · next y s hs => exact ⟨b, hbegun, .own hs, rfl⟩
    · trivial
  unfold EStateM.run' EStateM.run at h
  split at h
  · next y s hs =>
    cases h
    obtain ⟨b, hb⟩ := hends.of_ok hs
    exact ⟨b, s, hb⟩
  · cases h

/-! ## Layout -/

/-- Where a scope is about to be closed, it holds the parameters, the local names and the nested
procedures of its procedure, in the order of their declaration. The parameters and local names lie
in the activation record as the signature in the symbol of the procedure tells it. -/
theorem laidOut_of_closes {source : TokenSource} {tracing : Bool}
    (hbegun : Begun (.ofSource source tracing) b)
    (h : Closes (b.source.bound + 1) b b' name s) :
    ∃ (parameters : List ParameterGroup) (locals : List Group) (nested : List Procedure)
      (body : List Assignment) (closing : String) (f : Handle),
      Took (Procedure.mk name parameters locals nested body closing).terminals b' s ∧
      s.table.symbolsOf (s.table.entriesAt s.table.depth) =
        (parametersOf parameters ++ localsOf locals).map (·.symbol s.table.depth) ++
          nested.map (·.symbol s.table.depth) ∧
      s.table.lookupAt? name (s.table.depth - 1) = some f ∧
      s.table.symbol f =
        ⟨name, s.table.depth - 1, .func (signatureOf parameters locals)⟩ ∧
      LaidOut ((parametersOf parameters).map Datum.storage)
        ((localsOf locals).map Datum.storage) (signatureOf parameters locals) := by
  obtain ⟨⟨_, parameters, locals, nested, body, closing⟩, rfl, hfilled⟩ :=
    h.exists_filled hbegun.ready
  obtain ⟨f, hf, hsymbol⟩ := hfilled.own
  have hdepth : s.table.depth - 1 = b'.table.depth := by
    rw [hfilled.depth]
    omega
  refine ⟨parameters, locals, nested, body, closing, f, hfilled.took, ?_, ?_, ?_, laidOut_of ..⟩
  · rw [hfilled.scope, hfilled.depth]
    rfl
  · rw [hdepth]
    exact hf
  · rw [hdepth]
    exact hsymbol

/-- The layout of a procedure in which another one is nested. -/
theorem laidOut_of_closes_outermost : ∃ b b' s,
    Begun (.ofSource (.ofText
      "procedure p(a, b : float) is c : char; procedure q is begin end q; begin end p;") false) b ∧
    Closes (b.source.bound + 1) b b' "p" s ∧
    ∃ (parameters : List ParameterGroup) (locals : List Group) (nested : List Procedure)
      (body : List Assignment) (closing : String) (f : Handle),
      Took (Procedure.mk "p" parameters locals nested body closing).terminals b' s ∧
      s.table.symbolsOf (s.table.entriesAt s.table.depth) =
        (parametersOf parameters ++ localsOf locals).map (·.symbol s.table.depth) ++
          nested.map (·.symbol s.table.depth) ∧
      s.table.lookupAt? "p" (s.table.depth - 1) = some f ∧
      s.table.symbol f =
        ⟨"p", s.table.depth - 1, .func (signatureOf parameters locals)⟩ ∧
      LaidOut ((parametersOf parameters).map Datum.storage)
        ((localsOf locals).map Datum.storage) (signatureOf parameters locals) := by
  have hread : EStateM.run' (outermostUpTo procedureBody) (.ofSource (.ofText
      "procedure p(a, b : float) is c : char; procedure q is begin end q; begin end p;") false) =
        some ("p", some (.endOfInput 1)) := by decide +kernel
  obtain ⟨b, s, hbegun, hcloses, -⟩ := exists_reaches hread
  exact ⟨b, b, s, hbegun, hcloses, laidOut_of_closes hbegun hcloses⟩

end ProcLang.Analysis
