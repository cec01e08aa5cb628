import ProcLang.Proofs.ClosingNames
import ProcLang.Proofs.RenamedRuns

/-!
# What is asked about a lexeme

Besides its kind, the analysis asks whether a token spells a mode and whether it spells the name of
the procedure that ends. Of a token that is read from a text the kind tells whether it spells a mode,
and no token but a name spells a name, except that an end token reads like one.
-/

namespace ProcLang

/-! ## Identifiers -/

instance (cs : List Char) : Decidable (IsName cs) :=
  match cs with
  | [] => isFalse (by rintro ⟨c, rest, h, -⟩; cases h)
  | c :: rest => decidable_of_iff (c.isAlpha ∧ rest.all Lexer.isNameChar) <| by
    rw [List.all_eq_true]
    constructor
    · exact fun ⟨hc, hrest⟩ => ⟨c, rest, rfl, hc, hrest⟩
    · rintro ⟨_, _, h, hc, hrest⟩
      cases h
      exact ⟨hc, hrest⟩

/-- The text is a name and no reserved word. -/
def IsIdentifier (y : String) : Prop :=
  IsName y.toList ∧ ∀ w ∈ reservedWords, w.1 ≠ Text.lower y

instance (y : String) : Decidable (IsIdentifier y) := inferInstanceAs (Decidable (_ ∧ _))

variable {y : String}

theorem isIdentifier_iff : IsIdentifier y ↔ HasKind y.toList .identifier := by
  constructor
  · rintro ⟨hname, hno⟩
    refine .pattern hname fun _ => ?_
    rwa [String.ofList_toList]
  · intro h
    refine ⟨?_, ?_⟩
    · cases h with
      | reserved hname => exact hname
      | pattern hname => exact hname
    · have hno := h.not_reserved
      rwa [String.ofList_toList] at hno

/-- No identifier spells a mode. -/
theorem IsIdentifier.modeOfWord?_eq_none (h : IsIdentifier y) :
    Analysis.modeOfWord? y = none := by
  refine Option.eq_none_iff_forall_ne_some.mpr fun m hm => ?_
  have hall : ∀ m ∈ Mode.all, ∃ w ∈ reservedWords, w.1 = m.word := by decide
  obtain ⟨w, hw, hword⟩ := hall m (by cases m <;> decide)
  exact h.2 w hw (hword.trans (modeOfWord?_eq_some_iff.mp hm).symm)

/-! ## Tokens -/

/-- The token is one of a text or stands for the end of the input. -/
def Token.IsRead (t : Token) : Prop := t.IsInner ∨ ∃ line, t = .endOfInput line

namespace Token

variable {t u : Token}

theorem IsScanned.isRead (h : t.IsScanned) : t.IsRead := by
  by_cases hk : t.kind = .endOfInput
  · exact Or.inr (h.eq_endOfInput hk)
  · exact Or.inl ⟨h, hk⟩

theorem isRead_endOfInput (line : Int) : (endOfInput line).IsRead := Or.inr ⟨line, rfl⟩

theorem IsRead.lexeme_eq (h : t.IsRead) (hk : t.kind = .endOfInput) : t.lexeme = "EOF" := by
  rcases h with h | ⟨line, rfl⟩
  · exact absurd hk h.2
  · rfl

open Analysis (modeOfWord?)

theorem IsRead.modeOfWord?_eq_some_iff (h : t.IsRead) (m : Mode) :
    modeOfWord? t.lexeme = some m ↔ t.kind = m.kind := by
  rcases h with h | ⟨line, rfl⟩
  · exact (h.1.plain h.2).mode m
  · have hnone : modeOfWord? (endOfInput line).lexeme = none := by
      show modeOfWord? "EOF" = none
      decide
    rw [hnone]
    cases m <;> exact iff_of_false nofun nofun

/-- Tokens of one kind spell the same mode, or none. -/
theorem IsRead.modeOfWord?_eq (ht : t.IsRead) (hu : u.IsRead) (hk : u.kind = t.kind) :
    modeOfWord? u.lexeme = modeOfWord? t.lexeme :=
  Option.ext fun m => by rw [hu.modeOfWord?_eq_some_iff, ht.modeOfWord?_eq_some_iff, hk]

theorem IsRead.hasKind (h : t.IsRead) :
    (∃ line, t = .endOfInput line) ∨ HasKind t.lexeme.toList t.kind := by
  rcases h with h | h
  · exact h.1.hasKind
  · exact Or.inl h

theorem IsRead.isIdentifier (h : t.IsRead) (hk : t.kind = .identifier) :
    IsIdentifier t.lexeme := by
  rcases h.hasKind with ⟨line, rfl⟩ | hkind
  · cases hk
  · exact isIdentifier_iff.mpr (hk ▸ hkind)

/-- A token that spells an identifier is one, or it is the end token. -/
theorem IsRead.kind_of_lower_eq (h : t.IsRead) (hy : IsIdentifier y)
    (hlower : Text.lower t.lexeme = Text.lower y) :
    t.kind = .identifier ∨ t.kind = .endOfInput ∧ Text.lower y = "eof" := by
  rcases h.hasKind with ⟨line, rfl⟩ | hkind
  · exact Or.inr ⟨rfl, hlower.symm.trans lower_endOfInput⟩
  · refine Or.inl (hkind.eq_identifier (isIdentifier_iff.mp hy) ?_)
    rwa [String.ofList_toList, String.ofList_toList]

end Token

end ProcLang
