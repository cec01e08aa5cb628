import ProcLang.Proofs.Spellings

/-!
# Other names

An analysis does not depend on how names are spelt. If the identifiers of a list of tokens are
renamed, different names being given different ones and names that differ in case only such ones
again, the run over the list does the same with the other names.
-/

namespace ProcLang

/-- A name that can be an identifier. -/
abbrev Identifier := { y : String // IsIdentifier y }

/-- A renaming of identifiers. It keeps names apart, and it respects that upper and lower case are
the same. -/
structure Renaming where
  map : Identifier → Identifier
  injective : Function.Injective map
  lower_iff : ∀ x y, Text.lower (map x).1 = Text.lower (map y).1 ↔ Text.lower x.1 = Text.lower y.1

namespace Renaming

variable (ρ : Renaming) {y : String}

/-- The other name of a name. What cannot be an identifier stays as it is. -/
def name (y : String) : String := if h : IsIdentifier y then (ρ.map ⟨y, h⟩).1 else y

variable {ρ}

theorem name_of_isIdentifier (h : IsIdentifier y) : ρ.name y = (ρ.map ⟨y, h⟩).1 := dif_pos h

theorem name_of_not (h : ¬ IsIdentifier y) : ρ.name y = y := dif_neg h

theorem isIdentifier_name (h : IsIdentifier y) : IsIdentifier (ρ.name y) := by
  rw [name_of_isIdentifier h]
  exact (ρ.map ⟨y, h⟩).2

theorem lower_name_iff {x : String} (hx : IsIdentifier x) (hy : IsIdentifier y) :
    Text.lower (ρ.name x) = Text.lower (ρ.name y) ↔ Text.lower x = Text.lower y := by
  rw [name_of_isIdentifier hx, name_of_isIdentifier hy]
  exact ρ.lower_iff ⟨x, hx⟩ ⟨y, hy⟩

theorem injective_name : Function.Injective ρ.name := by
  intro x y h
  by_cases hx : IsIdentifier x <;> by_cases hy : IsIdentifier y
  · rw [name_of_isIdentifier hx, name_of_isIdentifier hy] at h
    exact congrArg Subtype.val (ρ.injective (Subtype.ext h))
  · rw [name_of_not hy] at h
    exact absurd (h ▸ isIdentifier_name hx) hy
  · rw [name_of_not hx] at h
    exact absurd (h ▸ isIdentifier_name hy) hx
  · rwa [name_of_not hx, name_of_not hy] at h

theorem fits_name : SymbolTable.Fits ρ.name where
  injective := injective_name
  empty := name_of_not (by decide)

end Renaming

/-! ## Renamed tokens -/

/-- The token is no name that reads like an end token, in upper or lower case. -/
def Token.IsNoEnd (t : Token) : Prop := t.kind = .identifier → Text.lower t.lexeme ≠ "eof"

instance (t : Token) : Decidable t.IsNoEnd := inferInstanceAs (Decidable (_ → _))

/-- The tokens that are left, with other names. -/
def TokenList.rename (f : String → String) (l : TokenList) : TokenList :=
  { l with ahead := l.ahead.map (Token.rename f) }

namespace Token

variable {t : Token} {f : String → String}

theorem kind_rename : (t.rename f).kind = t.kind := by
  unfold rename
  split <;> rfl

theorem line_rename : (t.rename f).line = t.line := by
  unfold rename
  split <;> rfl

theorem rename_of_identifier (hk : t.kind = .identifier) :
    t.rename f = { t with lexeme := f t.lexeme } := if_pos hk

theorem rename_of_ne (hk : t.kind ≠ .identifier) : t.rename f = t := if_neg hk

end Token

namespace Analysis

variable {ρ : Renaming}

/-- Renamed tokens. -/
def renamedBy (ρ : Renaming) : Likeness :=
  ⟨ρ.name, fun t t' => t' = t.rename ρ.name ∧ t.IsRead ∧ t.IsNoEnd ∧ (t.rename ρ.name).IsNoEnd⟩

theorem lawful_renamedBy : (renamedBy ρ).Lawful where
  fits := Renaming.fits_name
  kind := by
    rintro t _ ⟨rfl, -⟩
    exact Token.kind_rename
  identifier := by
    rintro t _ ⟨rfl, -⟩ hk
    rw [Token.rename_of_identifier hk]
    rfl
  number := by
    rintro t _ ⟨rfl, -⟩ hk
    rw [Token.rename_of_ne (by rw [hk]; decide)]
  minus := by
    rintro t _ ⟨rfl, -⟩ hk
    rw [Token.rename_of_ne (by rw [hk]; decide)]
  modeWord := by
    rintro t _ ⟨rfl, hread, -⟩
    by_cases hk : t.kind = .identifier
    · have hname := hread.isIdentifier hk
      rw [Token.rename_of_identifier hk, hname.modeOfWord?_eq_none]
      exact (Renaming.isIdentifier_name hname).modeOfWord?_eq_none
    · rw [Token.rename_of_ne hk]
  closing := by
    rintro t _ u _ ⟨rfl, ht, -⟩ ⟨rfl, hu, hno, hno'⟩ hk
    have hname := hu.isIdentifier hk
    have hno := hno hk
    have hno' := hno' (Token.kind_rename.trans hk)
    rw [Token.rename_of_identifier hk] at hno' ⊢
    by_cases htk : t.kind = .identifier
    · rw [Token.rename_of_identifier htk]
      exact Renaming.lower_name_iff (ht.isIdentifier htk) hname
    · -- another token spells neither of the two names
      have hother : ∀ {y}, IsIdentifier y → Text.lower y ≠ "eof" →
          Text.lower t.lexeme ≠ Text.lower y := by
        intro y hy hend hlower
        rcases ht.kind_of_lower_eq hy hlower with hkind | ⟨-, hlower⟩
        · exact htk hkind
        · exact hend hlower
      rw [Token.rename_of_ne htk]
      exact iff_of_false (hother (Renaming.isIdentifier_name hname) hno') (hother hname hno)

/-- Failures over renamed tokens are renamed. -/
theorem FailsAs.eq_rename {e e' : Failure} (h : FailsAs (renamedBy ρ) e e') :
    e' = e.rename ρ.name := by
  cases h with
  | unexpected x ht | unconsumed ht =>
    rw [ht.1]
    rfl
  | duplicate ht hk | undefined ht hk =>
    rw [ht.1, Token.line_rename, Token.rename_of_identifier hk]
    rfl
  | otherClosingName hn ht =>
    rw [named_likening lawful_renamedBy hn, ht.1, Token.line_rename]
    rfl
  | fault f => rfl

theorem eq_map_of_forall₂ {ts ts' : List Token} (h : List.Forall₂ (renamedBy ρ).tokens ts ts') :
    ts' = ts.map (Token.rename ρ.name) := by
  induction h with
  | nil => rfl
  | cons ht _ ih => rw [ht.1, ih, List.map_cons]

theorem forall₂_map {ts : List Token} (hts : ∀ t ∈ ts, t.IsScanned)
    (hends : ∀ t ∈ ts, t.IsNoEnd ∧ (t.rename ρ.name).IsNoEnd) :
    List.Forall₂ (renamedBy ρ).tokens ts (ts.map (Token.rename ρ.name)) := by
  induction ts with
  | nil => exact .nil
  | cons t rest ih =>
    obtain ⟨ht, hrest⟩ := List.forall_mem_cons.mp hts
    obtain ⟨⟨hno, hno'⟩, hends⟩ := List.forall_mem_cons.mp hends
    exact .cons ⟨rfl, ht.isRead, hno, hno'⟩ (ih hrest hends)

theorem eq_rename_of_sources {a b : TokenSource} (h : (renamedBy ρ).Sources a b) :
    ∃ l, a = .list l ∧ b = .list (l.rename ρ.name) := by
  cases a with
  | list l =>
    cases b with
    | list l' =>
      obtain ⟨ahead, asked, line⟩ := l'
      obtain rfl : ahead = l.ahead.map (Token.rename ρ.name) := eq_map_of_forall₂ h.1
      obtain rfl : asked = l.asked := h.2.1
      obtain rfl : line = l.lastLine := congrArg Token.line h.2.2.1
      exact ⟨l, rfl, rfl⟩
    | _ => exact h.elim
  | _ => exact h.elim

/-! ## Renamed runs -/

/-- A run over renamed tokens is the renamed run. It succeeds or fails as the other does, with the
failure at the same line and about the same kinds, after the same number of tokens. The names in the
failure, in the table and in the listing are the other ones, and nothing else differs. -/
theorem rename_commutes (ρ : Renaming) {ts : List Token} (hts : ∀ t ∈ ts, t.IsScanned)
    (hends : ∀ t ∈ ts, t.IsNoEnd ∧ (t.rename ρ.name).IsNoEnd) (tracing : Bool) :
    (Outcome.ofSource (.ofList (ts.map (Token.rename ρ.name))) tracing).failure =
        (Outcome.ofSource (.ofList ts) tracing).failure.map (Failure.rename ρ.name) ∧
      ∃ l, (Outcome.ofSource (.ofList ts) tracing).state.source = .list l ∧
        (Outcome.ofSource (.ofList (ts.map (Token.rename ρ.name))) tracing).state =
          { (Outcome.ofSource (.ofList ts) tracing).state.rename ρ.name with
            source := .list (l.rename ρ.name)
            current :=
              (Outcome.ofSource (.ofList ts) tracing).state.current.map (Token.rename ρ.name)
            matched :=
              (Outcome.ofSource (.ofList ts) tracing).state.matched.map (Token.rename ρ.name) } := by
  have hline : (TokenList.ofList (ts.map (Token.rename ρ.name))).lastLine =
      (TokenList.ofList ts).lastLine := by
    simp [TokenList.ofList, List.getLast?_map, Option.map_map, Function.comp_def, Token.line_rename]
  have hend : (renamedBy ρ).tokens (.endOfInput (TokenList.ofList ts).lastLine)
      (.endOfInput (TokenList.ofList (ts.map (Token.rename ρ.name))).lastLine) := by
    rw [hline]
    exact ⟨rfl, Token.isRead_endOfInput _, nofun, nofun⟩
  obtain ⟨hfailure, hstate⟩ := likens_ofSource lawful_renamedBy (forall₂_map hts hends) hend tracing
  generalize Outcome.ofSource (.ofList ts) tracing = o,
    Outcome.ofSource (.ofList (ts.map (Token.rename ρ.name))) tracing = o' at hfailure hstate ⊢
  obtain ⟨failure, s⟩ := o
  obtain ⟨failure', s'⟩ := o'
  have hcurrent : s'.current = s.current.map (Token.rename ρ.name) := by
    have hrel := hstate.current
    generalize s.current = c, s'.current = c' at hrel
    cases hrel with
    | some ht => exact congrArg some ht.1
    | none => rfl
  refine ⟨?_, ?_⟩
  · cases hfailure with
    | some he => exact congrArg some he.eq_rename
    | none => rfl
  · obtain ⟨l, hl, hl'⟩ := eq_rename_of_sources hstate.source
    refine ⟨l, hl, ?_⟩
    rw [← hl', ← hcurrent, ← eq_map_of_forall₂ hstate.matched]
    exact hstate.eq

end Analysis

/-! ## A mark in front of all names -/

namespace Renaming

/-- The name with a letter and an underscore in front. -/
def mark (y : String) : String := String.ofList ('x' :: '_' :: y.toList)

theorem mark_injective : Function.Injective mark := by
  intro y z h
  have hlist := congrArg String.toList h
  simp only [mark, String.toList_ofList, List.cons.injEq, true_and] at hlist
  exact String.toList_injective hlist

theorem isName_mark {y : String} (h : IsName y.toList) : IsName (mark y).toList := by
  obtain ⟨c, rest, hy, hc, hrest⟩ := h
  refine ⟨'x', '_' :: c :: rest, by rw [mark, hy, String.toList_ofList], rfl, ?_⟩
  have hname : Lexer.isNameChar c := by simp [Lexer.isNameChar, Char.isAlphanum, hc]
  exact List.forall_mem_cons.mpr ⟨rfl, List.forall_mem_cons.mpr ⟨hname, hrest⟩⟩

theorem lower_of_isName {y : String} (h : IsName y.toList) :
    Text.lower y = String.ofList (y.toList.map Char.toLower) := by
  rw [← Text.lower_ofList h.toNat_lt, String.ofList_toList]

theorem lower_mark {y : String} (h : IsName y.toList) :
    Text.lower (mark y) = mark (Text.lower y) := by
  rw [lower_of_isName (isName_mark h), lower_of_isName h]
  simp only [mark, String.toList_ofList, List.map_cons]
  rfl

/-- No reserved word has the mark. -/
theorem isIdentifier_mark {y : String} (h : IsName y.toList) : IsIdentifier (mark y) := by
  refine ⟨isName_mark h, fun w hw hlower => ?_⟩
  rw [lower_mark h] at hlower
  have hsecond : w.1.toList[1]? = some '_' := by
    rw [hlower, mark, String.toList_ofList]
    rfl
  have hall : ∀ w ∈ reservedWords, w.1.toList[1]? ≠ some '_' := by decide
  exact hall w hw hsecond

/-- Every name gets the mark. -/
def marking : Renaming where
  map y := ⟨mark y.1, isIdentifier_mark y.2.1⟩
  injective _ _ h := Subtype.ext (mark_injective (congrArg Subtype.val h))
  lower_iff x y := by rw [lower_mark x.2.1, lower_mark y.2.1, mark_injective.eq_iff]

end Renaming

/-- The second of two parameters of one name, with the mark. -/
theorem Analysis.rename_commutes_duplicate :
    (Outcome.ofSource (.ofList ([⟨.procedureWord, "procedure", 1⟩, ⟨.identifier, "p", 1⟩,
      ⟨.leftParen, "(", 1⟩, ⟨.identifier, "y", 1⟩, ⟨.comma, ",", 1⟩, ⟨.identifier, "y", 2⟩,
      .endOfInput 2].map (Token.rename Renaming.marking.name))) false).failure =
        some (.diagnostic (.duplicate "x_y" 2)) := by
  have hts : Lexer.tokenize "procedure p(y,\ny" = .ok [⟨.procedureWord, "procedure", 1⟩,
      ⟨.identifier, "p", 1⟩, ⟨.leftParen, "(", 1⟩, ⟨.identifier, "y", 1⟩, ⟨.comma, ",", 1⟩,
      ⟨.identifier, "y", 2⟩, .endOfInput 2] := by decide +kernel
  have hfailure : (Outcome.ofSource (.ofList [⟨.procedureWord, "procedure", 1⟩,
      ⟨.identifier, "p", 1⟩, ⟨.leftParen, "(", 1⟩, ⟨.identifier, "y", 1⟩, ⟨.comma, ",", 1⟩,
      ⟨.identifier, "y", 2⟩, .endOfInput 2]) false).failure =
        some (.diagnostic (.duplicate "y" 2)) := by decide +kernel
  have hends : ∀ t ∈ [⟨.procedureWord, "procedure", 1⟩, ⟨.identifier, "p", 1⟩,
      ⟨.leftParen, "(", 1⟩, ⟨.identifier, "y", 1⟩, ⟨.comma, ",", 1⟩, ⟨.identifier, "y", 2⟩,
      Token.endOfInput 2], t.IsNoEnd ∧ (t.rename Renaming.marking.name).IsNoEnd := by
    decide +kernel
  rw [(rename_commutes Renaming.marking (fun _ => Lexer.isScanned_of_tokenize hts) hends false).1,
    hfailure]
  have hname : Renaming.marking.name "y" = "x_y" := by decide +kernel
  simp only [Option.map_some, Failure.rename, Diagnostic.rename, hname]

end ProcLang
