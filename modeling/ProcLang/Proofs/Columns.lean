import ProcLang.Proofs.RowContents

/-!
# Columns of the table

The bars between the columns of a line stand where the extents of its cells put them
(`separators_cellsText`). In the rows of symbols that fit, the extents are the widths of the columns.
The heading of the depth is one letter longer than its column, so behind it the bars of the header
stand one place to the right of those of the rows (`separators_of_fits`).
-/

namespace ProcLang

open Text (padRight IsFieldText)

/-! ## Places of bars -/

namespace Text

variable {cs rest : List Char} {place : Nat}

/-- The places at which a bar stands between two spaces, in a text that begins at a place. -/
def barsFrom : Nat → List Char → List Nat
  | _, [] => []
  | place, c :: cs =>
    if [' ', '|', ' '].isPrefixOf (c :: cs) then place :: barsFrom (place + 1) cs
    else barsFrom (place + 1) cs

theorem barsFrom_bar (rest : List Char) (place : Nat) :
    barsFrom place (' ' :: '|' :: ' ' :: rest) = place :: barsFrom (place + 2) (' ' :: rest) := by
  simp [barsFrom]

/-- A bar stands behind any text. -/
theorem exists_barsFrom_append (cs rest : List Char) (place : Nat) :
    ∃ front, barsFrom place (cs ++ ' ' :: '|' :: ' ' :: rest) =
      front ++ (place + cs.length) :: barsFrom (place + cs.length + 2) (' ' :: rest) := by
  induction cs generalizing place with
  | nil => exact ⟨[], barsFrom_bar rest place⟩
  | cons c cs ih =>
    obtain ⟨front, hfront⟩ := ih (place + 1)
    rw [List.cons_append, barsFrom, hfront, List.length_cons, Nat.add_right_comm place 1,
      Nat.add_assoc place]
    split
    · exact ⟨place :: front, rfl⟩
    · exact ⟨front, rfl⟩

theorem isPrefixOf_eq_false (h : cs.head? ≠ some '|') (c : Char) :
    [' ', '|', ' '].isPrefixOf (c :: cs) = false := by
  cases cs with
  | nil => simp [List.isPrefixOf]
  | cons d cs =>
    have hd : '|' ≠ d := fun heq => h (heq ▸ rfl)
    simp [List.isPrefixOf, hd]

/-- A text without bars adds none to those behind it. -/
theorem barsFrom_append (h : '|' ∉ cs) (hrest : rest.head? ≠ some '|') (place : Nat) :
    barsFrom place (cs ++ rest) = barsFrom (place + cs.length) rest := by
  induction cs generalizing place with
  | nil => rfl
  | cons c cs ih =>
    have hcs := List.not_mem_of_not_mem_cons h
    have hhead : (cs ++ rest).head? ≠ some '|' := by
      cases cs with
      | nil => exact hrest
      | cons d cs => exact fun heq => hcs (Option.some.inj heq ▸ List.mem_cons_self)
    rw [List.cons_append, barsFrom, isPrefixOf_eq_false hhead, if_neg Bool.false_ne_true, ih hcs,
      List.length_cons, Nat.add_right_comm, Nat.add_assoc]

theorem barsFrom_of_not_mem (h : '|' ∉ cs) (place : Nat) : barsFrom place cs = [] := by
  have hends : barsFrom place (cs ++ []) = barsFrom (place + cs.length) [] :=
    barsFrom_append h (by simp) place
  rwa [List.append_nil] at hends

theorem length_padRight (width : Nat) (s : String) :
    (padRight width s).length = max width s.length := by
  rw [padRight, String.length_append, String.length_ofList, List.length_replicate]
  omega

theorem not_mem_padRight {c : Char} {s : String} (h : c ∉ s.toList) (hc : c ≠ ' ') (width : Nat) :
    c ∉ (padRight width s).toList := by
  rw [padRight, String.toList_append, String.toList_ofList, List.mem_append, not_or]
  exact ⟨h, fun hm => hc (List.eq_of_mem_replicate hm)⟩

end Text

/-- The places of the separators between the seven columns of a line: the last six bars, since a name
may have bars as well. -/
def separators (line : String) : List Nat := (Text.barsFrom 0 line.toList).rtake 6

/-! ## Lines of cells -/

/-- The number of characters that a cell takes. -/
def Cell.extent (cell : Cell) : Nat := max cell.width cell.text.length

/-- The places behind fields of given extents, with three characters between any two of them. -/
def columnEnds : Nat → List Nat → List Nat
  | _, [] => []
  | place, extent :: extents => (place + extent) :: columnEnds (place + extent + 3) extents

theorem length_columnEnds (place : Nat) (extents : List Nat) :
    (columnEnds place extents).length = extents.length := by
  induction extents generalizing place with
  | nil => rfl
  | cons extent extents ih => rw [columnEnds, List.length_cons, ih, List.length_cons]

variable {cells : List Cell} {last : String}

theorem toList_cellsText_cons (cell : Cell) (cells : List Cell) (last : String) :
    (cellsText (cell :: cells) last).toList =
      (padRight cell.width cell.text).toList ++ ' ' :: '|' :: ' ' :: (cellsText cells last).toList := by
  rw [cellsText, String.toList_append, String.toList_append]
  rfl

theorem barsFrom_cellsText (hcells : ∀ c ∈ cells, '|' ∉ c.text.toList) (hlast : '|' ∉ last.toList)
    (place : Nat) : Text.barsFrom place (' ' :: (cellsText cells last).toList) =
      columnEnds (place + 1) (cells.map Cell.extent) := by
  induction cells generalizing place with
  | nil => exact Text.barsFrom_of_not_mem (List.not_mem_cons_of_ne_of_not_mem (by decide) hlast) _
  | cons cell cells ih =>
    obtain ⟨hcell, hcells⟩ := List.forall_mem_cons.mp hcells
    have htext : '|' ∉ ' ' :: (padRight cell.width cell.text).toList :=
      List.not_mem_cons_of_ne_of_not_mem (by decide)
        (Text.not_mem_padRight hcell (by decide) cell.width)
    have hlength : (' ' :: (padRight cell.width cell.text).toList).length = 1 + cell.extent := by
      rw [List.length_cons, String.length_toList, Text.length_padRight, Nat.add_comm, Cell.extent]
    rw [toList_cellsText_cons, ← List.cons_append, Text.barsFrom_append htext (by simp),
      Text.barsFrom_bar, ih hcells, hlength, List.map_cons, columnEnds, Nat.add_assoc place 1]

/-- The separators of a line of six cells are the ends of the cells. -/
theorem separators_cellsText {first : Cell} (hcells : ∀ c ∈ cells, '|' ∉ c.text.toList)
    (hlast : '|' ∉ last.toList) (hlength : cells.length = 5) :
    separators (cellsText (first :: cells) last) =
      columnEnds 0 ((first :: cells).map Cell.extent) := by
  obtain ⟨front, hfront⟩ := Text.exists_barsFrom_append
    (padRight first.width first.text).toList (cellsText cells last).toList 0
  rw [String.length_toList, Text.length_padRight, barsFrom_cellsText hcells hlast] at hfront
  have hends : (columnEnds 0 ((first :: cells).map Cell.extent)).length = 6 := by
    rw [length_columnEnds, List.length_map, List.length_cons, hlength]
  rw [separators, toList_cellsText_cons, hfront]
  show (front ++ columnEnds 0 ((first :: cells).map Cell.extent)).rtake 6 = _
  rw [List.rtake, List.length_append, hends, Nat.add_sub_cancel, List.drop_left]

/-! ## Rows and the header -/

namespace Symbol

variable {s : Symbol}

/-- The separators of the row of any symbol with a kind. -/
theorem separators_row (h : s.kind? ≠ none) :
    separators s.row = columnEnds 0 (s.cells.map Cell.extent) := by
  rw [row_eq_cellsText h]
  refine separators_cellsText (fun c hc => ?_) (fun hm => ?_) rfl
  · exact (s.isFieldText_tail_cells c hc).not_mem (by decide)
  · exact absurd (s.attributes.isDetailChar_of_mem _ hm) (by decide)

/-- The symbol can be shown, and its fields fit into their columns. -/
structure Fits (s : Symbol) : Prop where
  attributed : s.kind? ≠ none
  showable : s.isShowable
  name : s.name.length ≤ nameWidth
  depth_nonneg : 0 ≤ s.depth
  depth_le : s.depth ≤ 999
  offset : s.attributes.place.1.length ≤ offsetWidth
  size : s.attributes.place.2.length ≤ sizeWidth

theorem Fits.length_depth (h : s.Fits) : ("D" ++ toString s.depth).length ≤ depthWidth + 1 := by
  obtain ⟨n, hn⟩ := Int.eq_ofNat_of_zero_le h.depth_nonneg
  have hle := h.depth_le
  have hdigits : n.repr.length ≤ 3 := (Nat.length_repr_le_iff (by decide)).mpr (by omega)
  have hlength : (toString s.depth).length = n.repr.length := by rw [hn]; rfl
  rw [String.length_append, hlength, depthWidth, Nat.add_comm]
  exact Nat.add_le_add_right hdigits 1

theorem length_kindWord_le (kind : Option SymbolKind) : (kindWord kind).length ≤ kindWidth := by
  rcases kind with _ | _ | _ | _ <;> decide

theorem length_typeText_le (type : Option ValueType) :
    ((type.map ValueType.word).getD "").length ≤ typeWidth := by
  rcases type with _ | _ | _ | _ <;> decide

/-- The cells of a symbol that fits have the widths of the columns. -/
theorem Fits.extents (h : s.Fits) : s.cells.map Cell.extent =
    [nameWidth, kindWidth, typeWidth, depthWidth + 1, offsetWidth, sizeWidth] := by
  simp only [cells, List.map_cons, List.map_nil, Cell.extent, Nat.max_eq_left h.name,
    Nat.max_eq_left (length_kindWord_le _), Nat.max_eq_left (length_typeText_le _),
    Nat.max_eq_left h.length_depth, Nat.max_eq_left h.offset, Nat.max_eq_left h.size]

end Symbol

/-- The headings with the widths of their columns. -/
def headings : List Cell :=
  [⟨nameWidth, "Name"⟩, ⟨kindWidth, "Kind"⟩, ⟨typeWidth, "Type"⟩, ⟨depthWidth + 1, "Depth"⟩,
   ⟨offsetWidth, "Offset"⟩, ⟨sizeWidth, "Size"⟩]

theorem tableHeader_eq_cellsText : tableHeader = cellsText headings "Details" := by
  have hlast : " | Details" = " | " ++ "Details" := by decide +kernel
  simp only [tableHeader, headings, cellsText, hlast, String.append_assoc]

theorem separators_tableHeader : separators tableHeader = [15, 27, 39, 47, 56, 63] := by
  rw [tableHeader_eq_cellsText]
  exact (separators_cellsText (by decide) (by decide) rfl).trans (by decide)

/-- In a table of symbols that fit, the first three separators of each row stand below those of the
header, and the three others one place further left. -/
theorem separators_of_fits (symbols : List Symbol) (hfits : ∀ s ∈ symbols, s.Fits) :
    ∃ rule rows, tableText symbols = Text.joinLines (tableHeader :: rule :: rows) ∧
      rows = symbols.map Symbol.row ∧ (separators tableHeader).length = 6 ∧
      ∀ row ∈ rows, (separators row).take 3 = (separators tableHeader).take 3 ∧
        ((separators row).drop 3).map (· + 1) = (separators tableHeader).drop 3 := by
  refine ⟨_, _, rfl, rfl, by rw [separators_tableHeader]; rfl, fun row hrow => ?_⟩
  obtain ⟨s, hs, rfl⟩ := List.mem_map.mp hrow
  have hfit := hfits s hs
  rw [Symbol.separators_row hfit.attributed, hfit.extents, separators_tableHeader]
  decide

theorem separators_of_fits_three :
    let symbols : List Symbol :=
      [⟨"name_of_columns", 0, .func ⟨[.integer], [.inout], 1, 2, 0⟩⟩,
       ⟨"x", 999, .var ⟨some .character, 1, -12345, true⟩⟩,
       ⟨"c", 1, .const ⟨some .float, 4, 2, false⟩ (.integer 10)⟩]
    (∀ s ∈ symbols, s.Fits) ∧ ∃ rule rows,
      tableText symbols = Text.joinLines (tableHeader :: rule :: rows) ∧
      rows = symbols.map Symbol.row ∧ (separators tableHeader).length = 6 ∧
      ∀ row ∈ rows, (separators row).take 3 = (separators tableHeader).take 3 ∧
        ((separators row).drop 3).map (· + 1) = (separators tableHeader).drop 3 := by
  intro symbols
  have hfits : ∀ s ∈ symbols, s.Fits := by
    simp only [symbols, List.forall_mem_cons]
    exact ⟨⟨by decide, by decide, by decide, by decide, by decide, by decide, by decide⟩,
      ⟨by decide, by decide, by decide, by decide, by decide, by decide, by decide⟩,
      ⟨by decide, by decide, by decide, by decide, by decide, by decide, by decide⟩,
      fun s hs => nomatch hs⟩
  exact ⟨hfits, separators_of_fits symbols hfits⟩

/-- The separators of the row of an integer variable do not all stand below those of the header. -/
theorem separators_ne_of_header :
    let s : Symbol := ⟨"x", 1, .var ⟨some .integer, 2, 2, false⟩⟩
    s.Fits ∧ separators s.row ≠ separators tableHeader := by
  intro s
  have hfits : s.Fits :=
    ⟨by decide, by decide, by decide, by decide, by decide, by decide, by decide⟩
  refine ⟨hfits, ?_⟩
  rw [Symbol.separators_row hfits.attributed, hfits.extents, separators_tableHeader]
  decide

end ProcLang
