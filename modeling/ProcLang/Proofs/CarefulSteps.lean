import ProcLang.Proofs.Forks
import ProcLang.Proofs.Run

/-!
# The steps of an analysis are careful

No step of an analysis that looks at tokens makes an entry before it has taken one. Up to the closing
of a scope the entries are those for declared names and opened scopes (`Careful NotClosing`).
-/

namespace ProcLang.Analysis

variable {α : Type} {P : Entry → Prop}

/-- The entry does not tell that a scope is closed. -/
abbrev NotClosing (x : Entry) : Prop := x.isClosing = false

/-! ## Symbols and names -/

theorem enters_log {x : Entry} (h : P x) : Enters P (log x) := fun _ => Lengthens.push h

theorem enters_liftSymbol (r : Except SymbolError α) : Enters P (liftSymbol r) := by
  cases r with
  | ok a => exact .pure a
  | error e => exact .throw rfl

theorem enters_symbol (h : Handle) : Enters P (symbol h) := .get_bind fun _ => .pure _

theorem enters_modifyTable (f : SymbolTable → SymbolTable) : Enters P (modifyTable f) :=
  .modify fun _ => rfl

theorem enters_updateSymbol (h : Handle) (f : Symbol → Except SymbolError Symbol) :
    Enters P (updateSymbol h f) :=
  (enters_symbol h).bind fun _ => (enters_liftSymbol _).bind fun _ => enters_modifyTable _

theorem enters_needRow (s : Symbol) : Enters P (needRow s) := .ite (.pure _) (.throw rfl)

theorem enters_logDeclared (h : Handle) : Enters NotClosing (logDeclared h) :=
  (enters_symbol h).bind fun _ => (enters_liftSymbol _).bind fun _ => (enters_needRow _).bind fun _ =>
    enters_log rfl

theorem enters_checkDefined (name : Token) : Enters P (checkDefined name) :=
  .get_bind fun _ => .ite (.throw rfl) (.pure _)

theorem enters_declareName (name : String) : Enters P (declareName name) :=
  fun s => .refl s.listing

theorem enters_functionNamed (name : String) : Enters P (functionNamed name) :=
  .get_bind fun _ => by
    split
    · exact .pure _
    · exact .throw rfl

/-! ## Attributes and places -/

theorem enters_attributePending (attributes : Attributes) :
    Enters P (attributePending attributes) := .modify fun _ => rfl

theorem enters_recordParameters (function : Handle) (mode : Mode) :
    Enters P (recordParameters function mode) := by
  have hone : ∀ h, Enters P (recordParameter function mode h) := fun h => by
    refine (enters_symbol h).bind fun s => ?_
    split
    · exact (enters_updateSymbol _ _).bind fun _ => enters_updateSymbol _ _
    · exact .throw rfl
  exact .get_bind fun s => (Enters.forM hone _).bind fun _ => .modify fun _ => rfl

theorem enters_placeLocals (function : Handle) : Enters NotClosing (placeLocals function) := by
  have hone : ∀ h, Enters NotClosing (placeLocal h) := fun h =>
    .get_bind fun _ => (enters_updateSymbol _ _).bind fun _ => (enters_symbol h).bind fun _ =>
      (enters_liftSymbol _).bind fun _ => Enters.bind (.modify fun _ => rfl) fun _ =>
        enters_logDeclared h
  exact .get_bind fun _ => (Enters.forM hone _).bind fun _ => .get_bind fun _ =>
    (enters_updateSymbol _ _).bind fun _ => .modify fun _ => rfl

theorem enters_placeParameters (function : String) :
    Enters NotClosing (placeParameters function) := by
  have hone : ∀ offset h, Enters NotClosing (placeParameter offset h) := fun offset h =>
    (enters_updateSymbol _ _).bind fun _ => (enters_symbol h).bind fun _ =>
      (enters_liftSymbol _).bind fun _ => .pure _
  exact .get_bind fun _ => (Enters.foldlM hone _ _).bind fun _ =>
    (enters_functionNamed function).bind fun _ => (enters_updateSymbol _ _).bind fun _ =>
      (Enters.forM enters_logDeclared _).bind fun _ => .modify fun _ => rfl

/-! ## Declarations -/

/-- A name that is declared already is no reason for an entry. -/
theorem listing_checkNew (name : Token) (s : State) :
    Ends (checkNew name) s (fun _ s' => s'.listing = s.listing) fun _ s' =>
      s'.listing = s.listing := by
  show Ends (if _ then _ else _) s _ _
  split <;> rfl

theorem careful_declarePending : Careful P .takes declarePending := by
  refine (careful_currentToken .kind).bind_takes fun name => ?_
  rw [← bind_assoc]
  refine (careful_expect_then (blind_checkNew name) (listing_checkNew name) _).bind_notes fun _ => ?_
  exact .of_enters ((enters_declareName _).bind fun _ => .modify fun _ => rfl)
    ((blind_declareName _).bind fun _ => .modify fun _ _ => rfl)

theorem careful_identifierList : Careful P .waits identifierList :=
  .separatedBy (by decide) careful_declarePending.waits spends_declarePending.weaken

theorem careful_constantMark : Careful P .takes constantMark := by
  have hcheck : ∀ text s, Ends (constantValue text) s (fun _ s' => s'.listing = s.listing)
      fun _ s' => s'.listing = s.listing := by
    intro text s
    unfold constantValue
    split <;> rfl
  -- the numeral and the check of its value are one step
  have hvalue : Careful P .takes (numeral >>= constantValue) := by
    unfold numeral
    simp only [bind_assoc, pure_bind]
    exact (careful_currentToken .lexeme).bind_takes fun token =>
      careful_expect_then (blind_constantValue token.lexeme) (hcheck token.lexeme) _
  refine (careful_expect _).waits.bind_takes fun _ => (careful_expect _).waits.bind_takes fun _ => ?_
  rw [← bind_assoc]
  exact hvalue.bind_notes fun _ => .of_enters (enters_attributePending _) (blind_attributePending _)

theorem careful_mark : Careful P .takes mark := by
  refine (careful_currentToken .kind).bind_takes fun token => ?_
  split
  · exact (Careful.of_no_entry (enters_attributePending _) (blind_attributePending _)).bind_takes
      fun _ => careful_expect _
  · exact .ite careful_constantMark (careful_reject _)

theorem careful_typeMark (function : String) (mode : Option Mode) :
    Careful NotClosing .takes (typeMark function mode) := by
  refine careful_mark.bind_notes fun _ => .of_enters ?_ (blind_afterMark function mode)
  refine (enters_functionNamed function).bind fun h => ?_
  split
  · exact enters_recordParameters h _
  · exact enters_placeLocals h

theorem careful_declarativePart (function : String) :
    Careful NotClosing .waits (declarativePart function) :=
  .whileKind (by decide)
    (careful_identifierList.bind fun _ => (careful_expect _).waits.bind fun _ =>
      (careful_typeMark function none).waits.bind fun _ => (careful_expect _).waits)
    (spends_localGroup function)

theorem careful_parameterGroup (function : String) :
    Careful NotClosing .takes (parameterGroup function) := by
  have hmode : Careful NotClosing .waits mode := by
    refine (careful_currentToken .lexeme).bind fun token => ?_
    split
    · exact (careful_expect _).waits.bind fun _ => .pure (by decide) _
    · exact .pure (by decide) _
  exact hmode.bind_takes fun _ => careful_identifierList.bind_takes fun _ =>
    (careful_expect _).waits.bind_takes fun _ => careful_typeMark function _

theorem careful_arguments (function : String) :
    Careful NotClosing .waits (arguments function) := by
  have hlist : Careful NotClosing .waits (argumentList function) :=
    .separatedBy (by decide) (careful_parameterGroup function).waits
      (spends_parameterGroup function)
  have hplaced : Careful NotClosing .takes (do expect .rightParen; placeParameters function) :=
    (careful_expect _).bind_notes fun _ =>
      .of_enters (enters_placeParameters function) (blind_placeParameters function)
  exact (careful_atKind _).bind fun _ => .ite
    ((careful_expect _).waits.bind fun _ =>
      Careful.bind (.of_no_entry (.modify fun _ => rfl) (.modify fun _ _ => rfl)) fun _ =>
        hlist.bind fun _ => hplaced.waits)
    (.pure (by decide) _)

/-! ## Statements -/

theorem careful_checkDefined (name : Token) : Careful P .waits (checkDefined name) :=
  .of_no_entry (enters_checkDefined name) (blind_checkDefined name)

theorem careful_factorWithin (n : Nat) : Careful P .takes (factorWithin n) := by
  induction n with
  | zero => exact careful_reject _
  | succ n ih =>
    have hterms : Careful P .waits
        (separatedBy .additive (separatedBy .multiplicative (factorWithin n))) :=
      .separatedBy (by decide) (.separatedBy (by decide) ih.waits (spends_factorWithin n))
        (spends_separatedBy (spends_factorWithin n))
    unfold factorWithin
    refine (careful_currentToken .kind).bind_takes fun token => ?_
    split
    · exact (careful_checkDefined token).bind_takes fun _ => careful_expect _
    · exact careful_expect _
    · exact (careful_expect _).waits.bind_takes fun _ => hterms.bind_takes fun _ => careful_expect _
    · exact (careful_expect _).waits.bind_takes fun _ => ih
    · exact .ite ((careful_expect _).waits.bind_takes fun _ => ih) (careful_reject _)
    · exact careful_reject _

theorem careful_expression : Careful P .waits expression :=
  .separatedBy (by decide)
    (.separatedBy (by decide) (.bounded settled_factorWithin fun n => (careful_factorWithin n).waits)
      spends_factor)
    (spends_separatedBy spends_factor)

theorem careful_statements : Careful P .waits statements := by
  have hassignment : Careful P .waits assignment :=
    (careful_currentToken .lexeme).bind fun target => (careful_checkDefined target).bind fun _ =>
      (careful_expect _).waits.bind fun _ => (careful_expect _).waits.bind fun _ =>
        careful_expression
  have hstatement : Careful P .waits statement :=
    (careful_atKind _).bind fun _ => .ite hassignment (.pure (by decide) _)
  exact .whileKind (by decide) (hstatement.bind fun _ => (careful_expect _).waits)
    (spends_statement.bind' fun _ => spends_expect (by decide))

/-! ## Procedures -/

theorem careful_openProcedure : Careful NotClosing .takes openProcedure := by
  refine (careful_expect _).waits.bind_takes fun _ => ?_
  refine (careful_currentToken .kind).bind_takes fun name => ?_
  rw [← bind_assoc]
  refine (careful_expect_then (blind_checkNew name) (listing_checkNew name) _).bind_notes fun _ => ?_
  refine .of_enters ?_ ?_
  · have hlog : ∀ x, NotClosing x → Enters NotClosing (log x) := fun _ => enters_log
    exact (enters_declareName _).bind fun _ => (enters_updateSymbol _ _).bind fun _ =>
      .get_bind fun _ => (hlog _ rfl).bind fun _ => (enters_modifyTable _).bind fun _ =>
        (hlog _ rfl).bind fun _ => .pure _
  · exact (blind_declareName _).bind fun _ => (blind_updateSymbol _ _).bind fun _ =>
      .get_bind (fun _ _ => rfl) fun _ => (blind_log _).bind fun _ => (blind_modifyTable _).bind fun _ =>
        (blind_log _).bind fun _ => .pure _

theorem careful_procedureHead (name : String) :
    Careful NotClosing .waits (procedureHead name) :=
  (careful_arguments name).bind fun _ => (careful_expect _).waits.bind fun _ =>
    Careful.bind (.of_no_entry (.modify fun _ => rfl) (.modify fun _ _ => rfl)) fun _ =>
      careful_declarativePart name

theorem careful_procedureBody (name : String) : Careful P .takes (procedureBody name) := by
  have hclosing : Careful P .waits (checkClosingName name) :=
    (careful_currentToken .lexeme).bind fun _ => .ite (.throw rfl) (.pure (by decide) _)
  exact (careful_expect _).waits.bind_takes fun _ => careful_statements.bind_takes fun _ =>
    (careful_expect _).waits.bind_takes fun _ => hclosing.bind_takes fun _ =>
      (careful_expect _).waits.bind_takes fun _ => careful_expect _

/-- A snapshot that is printed is no entry. -/
theorem careful_print (shot : Snapshot) : Careful P .notes
    (modify fun s => if s.tracing then { s with printed := s.printed.push shot } else s) := by
  refine ⟨fun s => ?_, fun edge s s' hl => ?_⟩
  · show Goes P .notes _ _ (ite _ _ _ : State).matched (ite _ _ _ : State).listing ∧ _
    split <;> exact ⟨.refl _ _ _, nofun⟩
  · show Parted P .notes edge (.ok () (if s.tracing then _ else s)) (.ok () (if s'.tracing then _ else s'))
    rw [show s'.tracing = s.tracing by rw [hl.eq]]
    split
    · refine .level ⟨?_, hl.place⟩
      rw [hl.eq]
    · exact .level hl

theorem careful_logSnapshot (scope : ScopeName) :
    Careful (fun _ => True) .notes (logSnapshot scope) := by
  refine .get_bind (fun _ _ _ => rfl) fun s => ?_
  refine .join .notes (.of_enters (.forM enters_needRow _) (.forM blind_needRow _)) fun _ => ?_
  refine .join .notes (.of_enters (enters_log trivial) (blind_log _)) fun _ => ?_
  exact careful_print _

theorem careful_closeProcedure (name : String) :
    Careful (fun _ => True) .notes (closeProcedure name) :=
  .join .notes (careful_logSnapshot _) fun _ => .of_enters
    ((enters_modifyTable _).bind fun _ => .get_bind fun _ => enters_log trivial)
    (blind_leaveScope name)

theorem careful_procedureWithin (n : Nat) : Careful (fun _ => True) .takes (procedureWithin n) := by
  induction n with
  | zero => exact careful_reject _
  | succ n ih =>
    have hany : ∀ x, NotClosing x → True := fun _ _ => trivial
    exact (careful_openProcedure.mono hany).waits.bind_takes fun name =>
      ((careful_procedureHead name).mono hany).bind_takes fun _ =>
        (Careful.whileKind (by decide) ih.waits (spends_procedureWithin n)).bind_takes fun _ =>
          (careful_procedureBody name).bind_notes fun _ => careful_closeProcedure name

/-! ## Runs -/

/-- The step makes its entries at the end: if it fails it has made none. -/
def EntersLast (step : Analysis α) : Prop :=
  ∀ s, Ends step s (fun _ s' => Lengthens (fun _ => True) s.listing s'.listing)
    fun e s' => s.matched <:+ e.before s' ∧ s'.listing = s.listing

theorem Careful.ends_of_no_entry {step : Analysis α} (h : Careful (fun _ => False) .waits step)
    (s : State) : Ends step s (fun _ s' => s.matched <:+ s'.matched ∧ s'.listing = s.listing)
      fun e s' => s.matched <:+ e.before s' ∧ s'.listing = s.listing := by
  refine (h.ends s).mono ?_ fun _ _ hgoes => ⟨hgoes.matched, hgoes.listing.eq_of_false⟩
  rintro a s' ⟨hgoes, -⟩
  exact ⟨hgoes.matched, hgoes.listing.eq_of_false⟩

theorem EntersLast.bind {β : Type} {step : Analysis β} {f : β → Analysis α}
    (h : Careful (fun _ => False) .waits step) (hf : ∀ a, EntersLast (f a)) :
    EntersLast (step >>= f) := by
  refine fun s => (h.ends_of_no_entry s).andThen ?_
  rintro a s₁ ⟨hmatched, hlisting⟩
  rw [← hlisting]
  exact (hf a s₁).mono (fun _ _ h => h) fun e s₂ h => ⟨hmatched.trans h.1, h.2⟩

/-- What cannot fail may enter something behind that. -/
theorem EntersLast.bind_sure {β : Type} {step : Analysis β} {f : β → Analysis α}
    (h : EntersLast step) (hf : ∀ a s, Ends (f a) s
      (fun _ s' => Lengthens (fun _ => True) s.listing s'.listing) fun _ _ => False) :
    EntersLast (step >>= f) := by
  refine fun s => (h s).bind (fun a s₁ h₁ => ?_) fun _ _ h => h
  exact (hf a s₁).mono (fun _ _ => h₁.trans) fun _ _ h => h.elim

theorem entersLast_logSnapshot (scope : ScopeName) : EntersLast (logSnapshot scope) := by
  intro s
  show Ends (do (s.table.symbolsOf (s.table.entriesAt s.table.depth)).forM needRow; _) s _ _
  refine EntersLast.bind (.of_no_entry (.forM enters_needRow _) (.forM blind_needRow _))
    (fun _ s₁ => ?_) s
  show Lengthens _ s₁.listing (ite _ _ _ : State).listing
  split
  · exact .push trivial
  · exact .push trivial

theorem entersLast_conclusion : EntersLast conclusion := by
  have hcheck : Careful (fun _ => False) .waits checkEnd :=
    (careful_currentToken .kind).bind fun _ => .ite (.throw rfl) (.pure (by decide) _)
  exact .bind hcheck fun _ =>
    .bind (.of_no_entry (.modify fun _ => rfl) (.modify fun _ _ => rfl)) fun _ =>
      (entersLast_logSnapshot _).bind_sure fun _ _ => Lengthens.push trivial

end ProcLang.Analysis
