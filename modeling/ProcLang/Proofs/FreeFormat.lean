import ProcLang.Proofs.OnDemand
import ProcLang.Proofs.Spellings

/-!
# Free format

How a text is laid out and how its reserved words and operators are spelt does not matter. Two texts
whose tokens are the same words (`SameWord`) are analysed alike: only the line of a diagnostic and the
lexeme of the token it found may differ.
-/

namespace ProcLang

/-- The tokens are the same word: they are of one kind, a name or numeral is spelt the same, and an
operator for addition is a minus in both or in neither. -/
structure SameWord (t t' : Token) : Prop where
  kind : t'.kind = t.kind
  lexeme : t.kind = .identifier ∨ t.kind = .number → t'.lexeme = t.lexeme
  minus : t.kind = .additive → (t'.lexeme = "-" ↔ t.lexeme = "-")

instance (t t' : Token) : Decidable (SameWord t t') :=
  decidable_of_iff (t'.kind = t.kind ∧
      (t.kind = .identifier ∨ t.kind = .number → t'.lexeme = t.lexeme) ∧
      (t.kind = .additive → (t'.lexeme = "-" ↔ t.lexeme = "-")))
    ⟨fun ⟨hkind, hlexeme, hminus⟩ => ⟨hkind, hlexeme, hminus⟩,
      fun h => ⟨h.kind, h.lexeme, h.minus⟩⟩

theorem sameWord_endOfInput (line line' : Int) :
    SameWord (.endOfInput line) (.endOfInput line') :=
  ⟨rfl, fun _ => rfl, fun _ => Iff.rfl⟩

/-- The diagnostic without its line and without the lexeme of the token that was found. -/
def Diagnostic.bare : Diagnostic → Diagnostic
  | unknownCharacter char _ => .unknownCharacter char 0
  | unexpected expected found => .unexpected expected ⟨found.kind, "", 0⟩
  | duplicate name _ => .duplicate name 0
  | undefined name _ => .undefined name 0
  | otherClosingName name _ => .otherClosingName name 0
  | unconsumed found => .unconsumed ⟨found.kind, "", 0⟩

/-- The failure without the line and the lexeme of its diagnostic. -/
def Failure.bare : Failure → Failure
  | diagnostic d => .diagnostic d.bare
  | fault f => .fault f

namespace Analysis

/-! ## Runs over the same words -/

/-- The same words, with the same names. -/
def words : Likeness := ⟨id, fun t t' => SameWord t t' ∧ t.IsRead ∧ t'.IsRead⟩

theorem lawful_words : words.Lawful where
  fits := ⟨Function.injective_id, rfl⟩
  kind h := h.1.kind
  identifier h hk := h.1.lexeme (Or.inl hk)
  number h hk := h.1.lexeme (Or.inr hk)
  minus h hk := h.1.minus hk
  modeWord h := h.2.1.modeOfWord?_eq h.2.2 h.1.kind
  closing {t t' u u'} ht hu hk := by
    have hname := hu.2.1.isIdentifier hk
    -- a token that spells a name is spelt the same in both runs
    have hsame : t.kind = .identifier ∨ t.kind = .endOfInput → t'.lexeme = t.lexeme := by
      rintro (hkind | hkind)
      · exact ht.1.lexeme (Or.inl hkind)
      · rw [ht.2.1.lexeme_eq hkind, ht.2.2.lexeme_eq (ht.1.kind.trans hkind)]
    rw [hu.1.lexeme (Or.inl hk)]
    constructor
    · intro hlower
      have hkind := (ht.2.2.kind_of_lower_eq hname hlower).imp_right And.left
      rw [ht.1.kind] at hkind
      rwa [← hsame hkind]
    · intro hlower
      have hkind := (ht.2.1.kind_of_lower_eq hname hlower).imp_right And.left
      rwa [hsame hkind]

/-- Failures of runs over the same words differ in no more than a line and a lexeme. -/
theorem FailsAs.bare {e e' : Failure} (h : FailsAs words e e') : e'.bare = e.bare := by
  cases h with
  | unexpected x ht => simp only [Failure.bare, Diagnostic.bare, ht.1.kind]
  | duplicate ht hk | undefined ht hk =>
    simp only [Failure.bare, Diagnostic.bare, ht.1.lexeme (Or.inl hk)]
  | otherClosingName hn _ =>
    obtain ⟨u, u', hu, hk, rfl, rfl⟩ := hn
    simp only [Failure.bare, Diagnostic.bare, hu.1.lexeme (Or.inl hk)]
  | unconsumed ht => simp only [Failure.bare, Diagnostic.bare, ht.1.kind]
  | fault f => rw [words, Fault.rename_id]

/-! ## Two texts of the same words -/

variable {text text' : String} {ts ts' : List Token}

theorem forall₂_words (h : List.Forall₂ SameWord ts ts') (hts : ∀ t ∈ ts, t.IsRead)
    (hts' : ∀ t ∈ ts', t.IsRead) : List.Forall₂ words.tokens ts ts' := by
  induction h with
  | nil => exact .nil
  | cons hword _ ih =>
    obtain ⟨ht, hrest⟩ := List.forall_mem_cons.mp hts
    obtain ⟨ht', hrest'⟩ := List.forall_mem_cons.mp hts'
    exact .cons ⟨hword, ht, ht'⟩ (ih hrest hrest')

/-- Texts of the same words are analysed alike. Both analyses succeed, or both fail with diagnostics
or faults that are the same but for a line and a lexeme. They leave the same table, the same pending
names and the same listing. -/
theorem free_format (hts : Lexer.tokenize text = .ok ts) (hts' : Lexer.tokenize text' = .ok ts')
    (hwords : List.Forall₂ SameWord ts ts') (tracing : Bool) :
    (Outcome.ofSource (.ofText text') tracing).failure.map Failure.bare =
        (Outcome.ofSource (.ofText text) tracing).failure.map Failure.bare ∧
      (Outcome.ofSource (.ofText text') tracing).state =
        { (Outcome.ofSource (.ofText text) tracing).state with
          source := (Outcome.ofSource (.ofText text') tracing).state.source
          current := (Outcome.ofSource (.ofText text') tracing).state.current
          matched := (Outcome.ofSource (.ofText text') tracing).state.matched } ∧
      (Outcome.ofSource (.ofText text') tracing).entries =
        (Outcome.ofSource (.ofText text) tracing).entries ∧
      (Outcome.ofSource (.ofText text') tracing).listing =
        (Outcome.ofSource (.ofText text) tracing).listing := by
  have hread : List.Forall₂ words.tokens ts ts' :=
    forall₂_words hwords (fun _ ht => (Lexer.isScanned_of_tokenize hts ht).isRead)
      fun _ ht => (Lexer.isScanned_of_tokenize hts' ht).isRead
  obtain ⟨hfailure, hstate⟩ := likens_ofSource lawful_words hread
    ⟨sameWord_endOfInput _ _, Token.isRead_endOfInput _, Token.isRead_endOfInput _⟩ tracing
  obtain ⟨hlist, hlistState⟩ := ofText_eq_ofList hts tracing
  obtain ⟨hlist', hlistState'⟩ := ofText_eq_ofList hts' tracing
  have heq : (Outcome.ofSource (.ofText text') tracing).state =
      { (Outcome.ofSource (.ofText text) tracing).state with
        source := (Outcome.ofSource (.ofText text') tracing).state.source
        current := (Outcome.ofSource (.ofText text') tracing).state.current
        matched := (Outcome.ofSource (.ofText text') tracing).state.matched } := by
    rw [hlistState', hlistState, hstate.eq, words, State.rename_id]
  refine ⟨?_, heq, ?_, ?_⟩
  · rw [hlist, hlist']
    generalize (Outcome.ofSource (.ofList ts) tracing).failure = f,
      (Outcome.ofSource (.ofList ts') tracing).failure = f' at hfailure
    cases hfailure with
    | some he => exact congrArg some he.bare
    | none => rfl
  · unfold Outcome.entries
    rw [heq]
  · unfold Outcome.listing
    rw [heq]

/-- Another layout, another spelling of a constant and other operators. -/
theorem free_format_operators :
    (Outcome.ofSource
      (.ofText "Procedure p IS\n k:CONSTANT:=2; -- two\nBEGIN k:=k mod k+k; END p ;") false).failure =
        none ∧
      (Outcome.ofSource
        (.ofText "Procedure p IS\n k:CONSTANT:=2; -- two\nBEGIN k:=k mod k+k; END p ;")
          false).listing =
        (Outcome.ofSource
          (.ofText "procedure p is k:const:=2;begin k:=k*k or k;end p;") false).listing := by
  have hts : Lexer.tokenize "procedure p is k:const:=2;begin k:=k*k or k;end p;" =
      .ok ((Lexer.tokenize "procedure p is k:const:=2;begin k:=k*k or k;end p;").toOption.getD
        []) := by decide +kernel
  have hts' : Lexer.tokenize "Procedure p IS\n k:CONSTANT:=2; -- two\nBEGIN k:=k mod k+k; END p ;" =
      .ok ((Lexer.tokenize
        "Procedure p IS\n k:CONSTANT:=2; -- two\nBEGIN k:=k mod k+k; END p ;").toOption.getD
          []) := by decide +kernel
  obtain ⟨hfailure, -, -, hlisting⟩ := free_format hts hts' (by decide +kernel) false
  have hnone : (Outcome.ofSource
      (.ofText "procedure p is k:const:=2;begin k:=k*k or k;end p;") false).failure = none := by
    decide +kernel
  rw [hnone] at hfailure
  exact ⟨Option.map_eq_none_iff.mp hfailure, hlisting⟩

end Analysis

end ProcLang
