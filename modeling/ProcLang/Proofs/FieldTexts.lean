import ProcLang.Proofs.Patterns
import ProcLang.SymbolTable.Row

/-!
# Texts of fields

Names, numbers, the values of constants and the words for kinds, types and modes are written with
letters, digits and four more characters (`Text.IsFieldText`). So nothing that separates them where they
are shown, be it a blank, a bar, a comma or a line feed, can come from one of them.
-/

namespace ProcLang

namespace Text

/-- Whether a character may stand in the text of a field. -/
def isFieldChar (c : Char) : Bool := c.isAlphanum || c == '_' || c == '-' || c == '+' || c == '.'

/-- All characters are those of fields. -/
def AllField (cs : List Char) : Prop := ∀ c ∈ cs, isFieldChar c

/-- The text can be that of a field. -/
def IsFieldText (s : String) : Prop := AllField s.toList

instance (cs : List Char) : Decidable (AllField cs) :=
  decidable_of_iff (cs.all isFieldChar) List.all_eq_true

instance (s : String) : Decidable (IsFieldText s) := inferInstanceAs (Decidable (AllField s.toList))

variable {cs ds : List Char} {s : String} {c : Char}

theorem isFieldChar_of_isDigit (h : c.isDigit) : isFieldChar c := by
  simp [isFieldChar, Char.isAlphanum, h]

theorem isFieldChar_of_isNameChar (h : Lexer.isNameChar c) : isFieldChar c := by
  rw [Lexer.isNameChar, Bool.or_eq_true, beq_iff_eq] at h
  rcases h with h | rfl
  · simp [isFieldChar, h]
  · decide

/-- What no field has in it is not in this one. -/
theorem IsFieldText.not_mem (h : IsFieldText s) (hc : isFieldChar c = false) : c ∉ s.toList := fun hm =>
  Bool.noConfusion (hc.symm.trans (h c hm))

/-! ## Lists of characters -/

theorem AllField.append (h : AllField cs) (h' : AllField ds) : AllField (cs ++ ds) :=
  List.forall_mem_append.mpr ⟨h, h'⟩

theorem AllField.cons (hc : isFieldChar c) (h : AllField cs) : AllField (c :: cs) :=
  List.forall_mem_cons.mpr ⟨hc, h⟩

theorem AllField.take (h : AllField cs) (n : Nat) : AllField (cs.take n) := fun c hm =>
  h c (List.mem_of_mem_take hm)

theorem AllField.drop (h : AllField cs) (n : Nat) : AllField (cs.drop n) := fun c hm =>
  h c (List.mem_of_mem_drop hm)

theorem allField_toDigits (n : Nat) : AllField (Nat.toDigits 10 n) := fun _ hm =>
  isFieldChar_of_isDigit (Nat.isDigit_of_mem_toDigits (by decide) (by decide) hm)

theorem allField_zeros (n : Nat) : AllField (Numeral.zeros n) := fun c hm => by
  rw [List.eq_of_mem_replicate hm]
  decide

end Text

open Text (AllField IsFieldText allField_toDigits allField_zeros)

/-! ## Names and numbers -/

theorem IsName.isFieldText {y : String} (h : IsName y.toList) : IsFieldText y := by
  obtain ⟨c, rest, hy, hc, hrest⟩ := h
  rw [IsFieldText, hy]
  refine .cons (Text.isFieldChar_of_isNameChar ?_) fun d hd =>
    Text.isFieldChar_of_isNameChar (hrest d hd)
  simp [Lexer.isNameChar, Char.isAlphanum, hc]

theorem isFieldText_natRepr (n : Nat) : IsFieldText n.repr := by
  rw [IsFieldText, Nat.toList_repr]
  exact allField_toDigits n

theorem isFieldText_toString (n : Int) : IsFieldText (toString n) := by
  cases n with
  | ofNat n => exact isFieldText_natRepr n
  | negSucc n =>
    show AllField ("-" ++ (n + 1).repr).toList
    rw [String.toList_append]
    exact AllField.append (by decide) (isFieldText_natRepr (n + 1))

/-! ## Values -/

namespace Numeral

theorem allField_positional {digits : List Char} (h : AllField digits) (first : Int) :
    AllField (positional digits first) := by
  have hpoint : AllField ['.'] := by decide
  have hend : AllField ['.', '0'] := by decide
  have hstart : AllField ['0', '.'] := by decide
  unfold positional
  split
  · exact (hstart.append (allField_zeros _)).append h
  · dsimp only
    split
    · exact (h.append (allField_zeros _)).append hend
    · exact (h.take _).append (hpoint.append (h.drop _))

theorem allField_scientific {digits : List Char} (h : AllField digits) (first : Int) :
    AllField (scientific digits first) := by
  have hpoint : AllField ['.'] := by decide
  have hfraction : AllField (if digits.length ≤ 1 then [] else '.' :: digits.drop 1) := by
    split
    · exact fun _ hm => nomatch hm
    · exact hpoint.append (h.drop 1)
  have hsign : AllField ['e', if first < 0 then '-' else '+'] := by
    split <;> decide
  exact ((((h.take 1).append hfraction).append hsign).append (allField_zeros _)).append
    (allField_toDigits _)

theorem Decimal.allField_text (d : Decimal) : AllField d.text := by
  have hdigits := allField_toDigits d.digits
  unfold text
  dsimp only
  split
  · exact allField_positional hdigits _
  · exact allField_scientific hdigits _

theorem Binary64.isFieldText_text (x : Binary64) : IsFieldText x.text := by
  have hminus : AllField ['-'] := by decide
  cases x with
  | finite negative steps power =>
    have hsize : AllField (if steps = 0 then ['0', '.', '0'] else (shortest steps power).text) := by
      split
      · decide
      · exact Decimal.allField_text _
    rw [IsFieldText, text, String.toList_ofList]
    cases negative with
    | true => exact hminus.append hsize
    | false => exact hsize
  | infinite negative => cases negative <;> decide

theorem Value.isFieldText_text (v : Value) : IsFieldText v.text := by
  cases v with
  | integer n => exact isFieldText_toString n
  | real x => exact x.isFieldText_text

end Numeral

/-! ## Words -/

theorem isFieldText_kindWord (kind : Option SymbolKind) : IsFieldText (kindWord kind) := by
  cases kind with
  | none => decide
  | some kind => cases kind <;> decide

theorem ValueType.isFieldText_word (type : ValueType) : IsFieldText type.word := by
  cases type <;> decide

theorem Mode.isFieldText_word (mode : Mode) : IsFieldText mode.word := by
  cases mode <;> decide

end ProcLang
