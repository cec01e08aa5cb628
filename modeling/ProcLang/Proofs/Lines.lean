import ProcLang.Proofs.Appending
import ProcLang.Proofs.RowContents

/-!
# Lines

A line has no line feed in it (`Text.IsLine`). Lines that are written one behind the other can be
split again (`Text.splitLines_endLines`). The rows of the table, the texts of tokens and the
diagnostics are lines if the names and lexemes in them are, and the lexemes that are read from a text
are.
-/

namespace ProcLang

open Text (padRight IsFieldText)

/-! ## Texts -/

namespace Text

/-- The text has no line feed in it. -/
def IsLine (s : String) : Prop := '\n' ∉ s.toList

instance (s : String) : Decidable (IsLine s) := inferInstanceAs (Decidable ('\n' ∉ s.toList))

/-- The pieces of a text between its line feeds. -/
def splitLines (text : String) : List String := (text.toList.splitOn '\n').map String.ofList

variable {s t : String} {lines : List String}

theorem isLine_append : IsLine (s ++ t) ↔ IsLine s ∧ IsLine t := by
  rw [IsLine, String.toList_append, List.mem_append, not_or]
  rfl

theorem IsFieldText.isLine (h : IsFieldText s) : IsLine s := h.not_mem (by decide)

theorem isLine_toString (n : Int) : IsLine (toString n) := (isFieldText_toString n).isLine

theorem toString_self (s : String) : toString s = s := rfl

theorem isLine_natToString (n : Nat) : IsLine (toString n) := (isFieldText_natRepr n).isLine

/-- A line with a name and a number in it. -/
theorem IsLine.named {name front middle : String} (h : IsLine name) (hfront : IsLine front)
    (hmiddle : IsLine middle) (n : Int) : IsLine (front ++ name ++ middle ++ toString n) := by
  simp only [isLine_append]
  exact ⟨⟨⟨hfront, h⟩, hmiddle⟩, isLine_toString n⟩

theorem IsLine.padRight (h : IsLine s) (width : Nat) : IsLine (padRight width s) := by
  rw [Text.padRight, isLine_append]
  refine ⟨h, fun hm => ?_⟩
  rw [String.toList_ofList] at hm
  cases List.eq_of_mem_replicate hm

/-- Lines that are each ended by a line feed are found again between the line feeds. -/
theorem splitLines_endLines (h : ∀ line ∈ lines, IsLine line) :
    splitLines (endLines lines) = lines ++ [""] := by
  induction lines with
  | nil => rfl
  | cons line lines ih =>
    obtain ⟨hline, hlines⟩ := List.forall_mem_cons.mp h
    have hcons : (endLines (line :: lines)).toList =
        line.toList ++ '\n' :: (endLines lines).toList := by
      rw [endLines, List.map_cons, String.join_cons, String.toList_append, String.toList_append,
        List.append_assoc]
      rfl
    rw [splitLines, hcons, List.splitOn_append_cons_self_of_not_mem hline, List.map_cons,
      String.ofList_toList, List.cons_append, ← ih hlines]
    rfl

/-! ### Quoted characters -/

theorem lineFeed_not_mem_hexDigits (width n : Nat) : '\n' ∉ hexDigits width n := by
  have hdigit : ∀ d < 16, Nat.digitChar d ≠ '\n' := by decide
  induction width generalizing n with
  | zero => exact List.not_mem_nil
  | succ width ih =>
    rw [hexDigits, List.mem_append, not_or]
    exact ⟨ih _, fun hm => hdigit _ (Nat.mod_lt _ (by decide)) (List.mem_singleton.mp hm).symm⟩

theorem lineFeed_not_mem_escapeChar {mark : Char} (hmark : mark ≠ '\n') (c : Char) :
    '\n' ∉ escapeChar mark c := by
  have hescape : ∀ letter digits, letter ≠ '\n' → '\n' ∉ digits →
      '\n' ∉ ['\\', letter] ++ digits := by
    intro letter digits hletter hdigits hm
    rcases List.mem_append.mp hm with hm | hm
    · simp only [List.mem_cons, List.not_mem_nil, or_false] at hm
      exact hm.elim (by decide) fun h => hletter h.symm
    · exact hdigits hm
  unfold escapeChar
  split
  · next hc =>
    refine hescape c [] ?_ List.not_mem_nil
    rcases hc with rfl | rfl
    · exact hmark
    · decide
  split
  · decide
  next hfeed =>
  split
  · decide
  split
  · decide
  split
  · exact fun hm => hfeed (List.mem_singleton.mp hm).symm
  · unfold numericEscape
    split
    · exact hescape 'x' _ (by decide) (lineFeed_not_mem_hexDigits _ _)
    split
    · exact hescape 'u' _ (by decide) (lineFeed_not_mem_hexDigits _ _)
    · exact hescape 'U' _ (by decide) (lineFeed_not_mem_hexDigits _ _)

/-- Whatever a character is, it is quoted in one line. -/
theorem isLine_quoteChar (c : Char) : IsLine (quoteChar c) := by
  have hmark : quoteMark [c] ≠ '\n' := by
    unfold quoteMark
    split <;> decide
  rw [IsLine, quoteChar, String.toList_ofList, quoteList, List.flatMap_singleton]
  intro hm
  rcases List.mem_append.mp hm with hm | hm
  · rcases List.mem_cons.mp hm with hm | hm
    · exact hmark hm.symm
    · exact lineFeed_not_mem_escapeChar hmark c hm
  · exact hmark (List.mem_singleton.mp hm).symm

end Text

open Text (IsLine isLine_append isLine_toString isLine_natToString toString_self)

/-! ## Rows -/

theorem isLine_kindWord (kind : Option SymbolKind) : IsLine (kindWord kind) :=
  (isFieldText_kindWord kind).isLine

theorem isLine_cellsText {cells : List Cell} {last : String} (h : ∀ c ∈ cells, IsLine c.text)
    (hlast : IsLine last) : IsLine (cellsText cells last) := by
  induction cells with
  | nil => exact hlast
  | cons cell cells ih =>
    obtain ⟨hcell, hcells⟩ := List.forall_mem_cons.mp h
    rw [cellsText, isLine_append, isLine_append]
    exact ⟨hcell.padRight _, by decide, ih hcells⟩

theorem Attributes.isLine_details (attributes : Attributes) : IsLine attributes.details := fun hm =>
  absurd (attributes.isDetailChar_of_mem _ hm) (by decide)

/-- The row of a symbol is a line if its name is. -/
theorem Symbol.isLine_row {s : Symbol} (h : IsLine s.name) : IsLine s.row := by
  by_cases hk : s.kind? = none
  · have htype : s.valueType? = none := by
      unfold valueType?
      rw [kind?_eq_none.mp hk]
    simp only [row, rowStart, kind?_eq_none.mp hk, htype, isLine_append]
    have hword : ∀ {t : String}, IsLine t → ∀ width, IsLine (padRight width t) :=
      fun ht => ht.padRight
    exact ⟨⟨⟨⟨⟨⟨⟨⟨h.padRight _, by decide⟩, (isLine_kindWord _).padRight _⟩, by decide⟩,
      hword (by decide) _⟩, by decide⟩, (isLine_toString _).padRight _⟩, by decide⟩, by decide⟩
  · rw [row_eq_cellsText hk]
    refine isLine_cellsText (List.forall_mem_cons.mpr ⟨h, fun c hc => ?_⟩)
      s.attributes.isLine_details
    exact (s.isFieldText_tail_cells c hc).isLine

theorem Symbol.isLine_role (s : Symbol) : IsLine s.role := by
  unfold role
  split
  · decide
  · exact isLine_kindWord _

/-! ## Tokens and diagnostics -/

theorem Kind.isLine_label (k : Kind) : IsLine k.label := by
  cases k <;> decide

/-- A lexeme that is read from a text is a line, for it has no blanks in it. -/
theorem Token.IsScanned.isLine_lexeme {t : Token} (h : t.IsScanned) : IsLine t.lexeme := by
  have hfits : ∀ {k : Kind}, k.Fits t.lexeme.toList → IsLine t.lexeme := fun hf hm =>
    absurd (Lexer.isBlank_of_fits hf hm) (by decide)
  rcases h.hasKind with ⟨line, rfl⟩ | hkind
  · exact (by decide : IsLine "EOF")
  · cases hkind with
    | reserved hf _ => exact hfits hf
    | pattern hf _ => exact hfits hf

theorem Token.isLine_text {t : Token} (h : IsLine t.lexeme) : IsLine t.text := by
  unfold text
  simp only [toString_self, isLine_append]
  exact ⟨⟨⟨⟨by decide, t.kind.isLine_label⟩, by decide⟩, h⟩, by decide⟩

theorem ScanError.isLine_message (e : ScanError) : IsLine e.message := by
  unfold message
  cases e with
  | unknownCharacter char line =>
    simp only [toString_self, isLine_append]
    exact ⟨⟨by decide, Text.isLine_quoteChar char⟩, by decide, isLine_natToString line⟩
  | spent => decide

theorem Expectation.isLine_label (x : Expectation) : IsLine x.label := by
  cases x with
  | kind k => exact k.isLine_label
  | _ => decide

namespace Diagnostic

/-- The names and lexemes in a diagnostic are lines. -/
def NamesLines : Diagnostic → Prop
  | unknownCharacter _ _ => True
  | unexpected _ found => IsLine found.lexeme
  | duplicate name _ => IsLine name
  | undefined name _ => IsLine name
  | otherClosingName name _ => IsLine name
  | unconsumed found => IsLine found.lexeme

/-- Then its message is one. -/
theorem NamesLines.isLine_message {d : Diagnostic} (h : d.NamesLines) : IsLine d.message := by
  unfold message
  cases d with
  | unknownCharacter char line => exact (ScanError.unknownCharacter char line).isLine_message
  | unexpected expected found =>
    simp only [toString_self, isLine_append]
    exact ⟨⟨⟨⟨⟨by decide, isLine_toString _⟩, by decide⟩, expected.isLine_label⟩, by decide⟩,
      ⟨⟨by decide, found.kind.isLine_label⟩, by decide⟩, h⟩
  | duplicate name line => exact IsLine.named h (by decide) (by decide) line
  | undefined name line => exact IsLine.named h (by decide) (by decide) line
  | otherClosingName name line =>
    simp only [isLine_append]
    exact ⟨⟨by decide, h⟩, by decide⟩
  | unconsumed found =>
    simp only [toString_self, isLine_append]
    exact ⟨⟨⟨⟨⟨⟨⟨by decide, isLine_toString _⟩, by decide⟩, found.kind.isLine_label⟩, by decide⟩, h⟩,
      by decide⟩, by decide⟩

end Diagnostic

/-! ## Entries of the listing -/

/-- All lines of the entry are lines. -/
def Entry.IsLines (e : Entry) : Prop := ∀ line ∈ e.lines, IsLine line

namespace Entry

variable {name : String} {depth : Int}

theorem isLines_of_line {e : Entry} {line : String} (he : e.lines = [line]) (h : IsLine line) :
    e.IsLines := by
  rw [IsLines, he]
  exact List.forall_mem_singleton.mpr h

theorem isLines_procedureDeclared (h : IsLine name) : (procedureDeclared name depth).IsLines :=
  isLines_of_line rfl (isLine_append.mpr ⟨h.named (by decide) (by decide) depth, by decide⟩)

theorem isLines_scopeEntered (h : IsLine name) : (scopeEntered name depth).IsLines :=
  isLines_of_line rfl (isLine_append.mpr ⟨h.named (by decide) (by decide) depth, by decide⟩)

theorem isLines_scopeLeft (h : IsLine name) : (scopeLeft name depth).IsLines :=
  isLines_of_line rfl (isLine_append.mpr ⟨h.named (by decide) (by decide) depth, by decide⟩)

theorem isLines_declared {s : Symbol} (h : IsLine s.name) : (declared s).IsLines := by
  refine isLines_of_line rfl ?_
  simp only [toString_self, isLine_append]
  exact ⟨⟨⟨by decide, s.isLine_role⟩, by decide⟩, s.isLine_row h⟩

theorem isLines_stopped {d : Diagnostic} (h : d.NamesLines) : (stopped d).IsLines := by
  refine isLines_of_line rfl ?_
  simp only [toString_self, isLine_append]
  exact ⟨by decide, h.isLine_message⟩

theorem isLine_title_procedure (h : IsLine name) : IsLine (ScopeName.procedure name).title := by
  unfold ScopeName.title
  simp only [toString_self, isLine_append]
  exact ⟨by decide, h⟩

theorem isLines_snapshot {x : Snapshot} (htitle : IsLine x.scope.title)
    (hsymbols : ∀ s ∈ x.symbols, IsLine s.name) : (snapshot x).IsLines := by
  have hrows : ∀ row ∈ if x.symbols.isEmpty then ["<empty>"] else x.symbols.map Symbol.row,
      IsLine row := by
    split
    · exact List.forall_mem_singleton.mpr (by decide)
    · exact List.forall_mem_map.mpr fun s hs => s.isLine_row (hsymbols s hs)
  unfold IsLines lines Snapshot.lines
  simp only [List.forall_mem_append, List.forall_mem_singleton, List.forall_mem_map,
    toString_self, isLine_append]
  exact ⟨⟨⟨⟨⟨⟨by decide, htitle⟩, by decide⟩, isLine_toString _⟩, by decide⟩,
    fun row hm => ⟨by decide, hrows row hm⟩⟩, ⟨by decide, htitle⟩, by decide⟩

end Entry

end ProcLang
