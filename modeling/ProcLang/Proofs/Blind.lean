import ProcLang.Analysis.Procedure

/-!
# Steps that look at no token

Much of an analysis works on symbols and notes alone. Such a step does the same whatever the source
and the tokens are, and whether the analysis is traced or not, and it leaves all of these as they
are (`Blind`). The snapshot of a scope is no such step, since it is printed where the analysis is
traced.
-/

namespace ProcLang

/-- What of a state belongs to its tokens and to tracing. -/
structure View where
  source : TokenSource
  current : Option Token
  matched : List Token
  tracing : Bool
  printed : Array Snapshot

namespace State

/-- The tokens and the tracing of a state. -/
def view (s : State) : View := ⟨s.source, s.current, s.matched, s.tracing, s.printed⟩

/-- The state with other tokens and tracing. -/
def withView (s : State) (v : View) : State :=
  { s with
    source := v.source, current := v.current, matched := v.matched
    tracing := v.tracing, printed := v.printed }

@[simp] theorem withView_view (s : State) : s.withView s.view = s := rfl

end State

namespace Analysis

variable {α β : Type}

/-- The step looks at no token and leaves the tokens as they are; nor has it to do with tracing. -/
def Blind (step : Analysis α) : Prop :=
  ∀ s v, step (s.withView v) = match step s with
    | .ok a s' => .ok a (s'.withView v)
    | .error e s' => .error e (s'.withView v)

namespace Blind

theorem pure (a : α) : Blind (pure a) := fun _ _ => rfl

theorem throw (e : Failure) : Blind (throw e : Analysis α) := fun _ _ => rfl

theorem bind {step : Analysis β} {f : β → Analysis α} (h : Blind step) (hf : ∀ b, Blind (f b)) :
    Blind (step >>= f) := by
  intro s v
  change EStateM.bind step f _ = match EStateM.bind step f s with | .ok .. => _ | .error .. => _
  unfold EStateM.bind
  rw [h s v]
  cases step s with
  | ok b s₁ => exact hf b s₁ v
  | error e s₁ => rfl

/-- The state may be read if its tokens and tracing do not count. -/
theorem get_bind {f : State → Analysis α} (hf : ∀ s v, f (s.withView v) = f s)
    (h : ∀ s, Blind (f s)) : Blind (get >>= f) := by
  intro s v
  show f (s.withView v) (s.withView v) = _
  rw [hf]
  exact h s s v

theorem modify {f : State → State} (hf : ∀ s v, f (s.withView v) = (f s).withView v) :
    Blind (modify f) := fun s v => congrArg (EStateM.Result.ok ()) (hf s v)

theorem ite {p : Prop} [Decidable p] {step step' : Analysis α} (h : Blind step)
    (h' : Blind step') : Blind (if p then step else step') := by
  split
  · exact h
  · exact h'

theorem forM {β : Type} {each : β → Analysis Unit} (h : ∀ x, Blind (each x)) (xs : List β) :
    Blind (xs.forM each) := by
  induction xs with
  | nil => exact pure _
  | cons x rest ih => exact (h x).bind fun _ => ih

theorem foldlM {each : α → β → Analysis α} (h : ∀ a x, Blind (each a x)) (xs : List β) (a : α) :
    Blind (xs.foldlM each a) := by
  induction xs generalizing a with
  | nil => exact pure _
  | cons x rest ih =>
    rw [List.foldlM_cons]
    exact (h a x).bind fun a' => ih a'

/-- The tokens and the tracing are left as they were. -/
theorem view_eq {step : Analysis α} (h : Blind step) {s s' : State} {a : α}
    (hs : step s = .ok a s') : s'.view = s.view := by
  have hview := h s s.view
  rw [State.withView_view, hs] at hview
  have hsame : s' = s'.withView s.view := (EStateM.Result.ok.inj hview).2
  rw [hsame]
  rfl

end Blind

/-! ## Symbols and listing -/

theorem blind_report (d : Diagnostic) : Blind (report d : Analysis α) := .throw _

theorem blind_fail (f : Fault) : Blind (fail f : Analysis α) := .throw _

theorem blind_liftSymbol (r : Except SymbolError α) : Blind (liftSymbol r) := by
  cases r with
  | ok a => exact .pure a
  | error e => exact blind_fail _

theorem blind_symbol (h : Handle) : Blind (symbol h) :=
  .get_bind (fun _ _ => rfl) fun _ => .pure _

theorem blind_modifyTable (f : SymbolTable → SymbolTable) : Blind (modifyTable f) :=
  .modify fun _ _ => rfl

theorem blind_updateSymbol (h : Handle) (f : Symbol → Except SymbolError Symbol) :
    Blind (updateSymbol h f) :=
  (blind_symbol h).bind fun _ => (blind_liftSymbol _).bind fun _ => blind_modifyTable _

theorem blind_log (e : Entry) : Blind (log e) := .modify fun _ _ => rfl

theorem blind_needRow (s : Symbol) : Blind (needRow s) := .ite (.pure _) (blind_fail _)

theorem blind_logDeclared (h : Handle) : Blind (logDeclared h) :=
  (blind_symbol h).bind fun _ => (blind_liftSymbol _).bind fun _ => (blind_needRow _).bind fun _ =>
    blind_log _

/-! ## Names -/

theorem blind_checkNew (name : Token) : Blind (checkNew name) :=
  .get_bind (fun _ _ => rfl) fun _ => .ite (blind_report _) (.pure _)

theorem blind_checkDefined (name : Token) : Blind (checkDefined name) :=
  .get_bind (fun _ _ => rfl) fun _ => .ite (blind_report _) (.pure _)

theorem blind_declareName (name : String) : Blind (declareName name) := fun _ _ => rfl

theorem blind_functionNamed (name : String) : Blind (functionNamed name) :=
  .get_bind (fun _ _ => rfl) fun _ => by
    split
    · exact .pure _
    · exact blind_fail _

/-! ## Attributes and places -/

theorem blind_constantValue (text : String) : Blind (constantValue text) := by
  unfold constantValue
  split
  · exact .pure _
  · exact blind_fail _

theorem blind_attributePending (attributes : Attributes) : Blind (attributePending attributes) :=
  .modify fun _ _ => rfl

theorem blind_recordParameters (function : Handle) (mode : Mode) :
    Blind (recordParameters function mode) := by
  have hone : ∀ h, Blind (recordParameter function mode h) := fun h => by
    refine (blind_symbol h).bind fun s => ?_
    split
    · exact (blind_updateSymbol _ _).bind fun _ => blind_updateSymbol _ _
    · exact blind_fail _
  exact .get_bind (fun _ _ => rfl) fun s => (Blind.forM hone _).bind fun _ =>
    .modify fun _ _ => rfl

theorem blind_placeLocal (h : Handle) : Blind (placeLocal h) :=
  .get_bind (fun _ _ => rfl) fun _ => (blind_updateSymbol _ _).bind fun _ =>
    (blind_symbol h).bind fun _ => (blind_liftSymbol _).bind fun _ =>
      (Blind.modify fun _ _ => rfl).bind fun _ => blind_logDeclared h

theorem blind_clearPending : Blind clearPending := .modify fun _ _ => rfl

theorem blind_placeLocals (function : Handle) : Blind (placeLocals function) :=
  .get_bind (fun _ _ => rfl) fun _ => (Blind.forM blind_placeLocal _).bind fun _ =>
    .get_bind (fun _ _ => rfl) fun _ => (blind_updateSymbol _ _).bind fun _ => blind_clearPending

theorem blind_placeParameters (function : String) : Blind (placeParameters function) := by
  have hone : ∀ offset h, Blind (placeParameter offset h) := fun offset h =>
    (blind_updateSymbol _ _).bind fun _ => (blind_symbol h).bind fun _ =>
      (blind_liftSymbol _).bind fun _ => .pure _
  exact .get_bind (fun _ _ => rfl) fun _ => (Blind.foldlM hone _ _).bind fun _ =>
    (blind_functionNamed function).bind fun _ => (blind_updateSymbol _ _).bind fun _ =>
      (Blind.forM blind_logDeclared _).bind fun _ => blind_clearPending

/-! ## What is done behind a token -/

/-- Declaring the name that was taken. -/
def declareTaken (name : Token) : Analysis Unit := do
  checkNew name
  let h ← declareName name.lexeme
  modify fun s => { s with pending := s.pending ++ [h] }

theorem blind_declareTaken (name : Token) : Blind (declareTaken name) :=
  (blind_checkNew name).bind fun _ => (blind_declareName _).bind fun _ => .modify fun _ _ => rfl

/-- Entering the parameters or placing the local names, behind a type mark. -/
def afterMark (function : String) (mode : Option Mode) : Analysis Unit := do
  let h ← functionNamed function
  match mode with
  | some mode => recordParameters h mode
  | none => placeLocals h

theorem blind_afterMark (function : String) (mode : Option Mode) : Blind (afterMark function mode) :=
  (blind_functionNamed function).bind fun h => by
    split
    · exact blind_recordParameters h _
    · exact blind_placeLocals h

/-- Declaring the name that was taken behind the word of a procedure, and opening its scope. -/
def openScope (name : Token) : Analysis String := do
  checkNew name
  let h ← declareName name.lexeme
  updateSymbol h (·.setKind .func)
  let depth := (← get).table.depth
  log (.procedureDeclared name.lexeme depth)
  modifyTable SymbolTable.enter
  log (.scopeEntered name.lexeme (depth + 1))
  return name.lexeme

theorem blind_openScope (name : Token) : Blind (openScope name) :=
  (blind_checkNew name).bind fun _ => (blind_declareName _).bind fun _ =>
    (blind_updateSymbol _ _).bind fun _ => .get_bind (fun _ _ => rfl) fun _ =>
      (blind_log _).bind fun _ => (blind_modifyTable _).bind fun _ => (blind_log _).bind fun _ =>
        .pure _

/-- Leaving a scope. -/
theorem blind_leaveScope (name : String) : Blind (do
    modifyTable SymbolTable.leave
    log (.scopeLeft name (← get).table.depth)) :=
  (blind_modifyTable _).bind fun _ => .get_bind (fun _ _ => rfl) fun _ => blind_log _

end Analysis

end ProcLang
