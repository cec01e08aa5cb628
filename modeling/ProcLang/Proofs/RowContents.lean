import ProcLang.Proofs.FieldTexts
import ProcLang.Proofs.Growth

/-!
# What a row tells

The row of a symbol with a kind is a line of cells (`cellsText`). What stands in a cell has no space
in it, so it ends where the first space stands, even if it is longer than its column. So a row
determines everything that is shown in it (`Symbol.row_eq_iff`).
-/

namespace ProcLang

open Text (padRight IsFieldText AllField)

/-! ## Texts one behind the other -/

namespace Text

variable {p : Char → Bool} {front front' rest rest' : List Char} {s s' more more' : String}
  {width : Nat}

/-- A text ends where the first character stands that it cannot have. -/
theorem split_unique (hfront : ∀ c ∈ front, p c) (hfront' : ∀ c ∈ front', p c)
    (hrest : ∀ c ∈ rest.head?, p c = false) (hrest' : ∀ c ∈ rest'.head?, p c = false)
    (h : front ++ rest = front' ++ rest') : front = front' ∧ rest = rest' := by
  have hnone : ∀ {cs : List Char}, (∀ c ∈ cs.head?, p c = false) → cs.takeWhile p = [] := by
    intro cs hcs
    cases cs with
    | nil => rfl
    | cons c cs => rw [List.takeWhile_cons, hcs c rfl, if_neg Bool.false_ne_true]
  have htake := congrArg (List.takeWhile p) h
  rw [List.takeWhile_append_of_pos hfront, List.takeWhile_append_of_pos hfront', hnone hrest,
    hnone hrest', List.append_nil, List.append_nil] at htake
  exact ⟨htake, List.append_cancel_left (htake ▸ h)⟩

/-- A text without a character ends where that one stands. -/
theorem split_before {stop : Char} (hfront : stop ∉ front) (hfront' : stop ∉ front')
    (hrest : ∀ c ∈ rest.head?, c = stop) (hrest' : ∀ c ∈ rest'.head?, c = stop)
    (h : front ++ rest = front' ++ rest') : front = front' ∧ rest = rest' := by
  have hother : ∀ {cs : List Char}, stop ∉ cs → ∀ c ∈ cs, (c != stop) = true := fun hcs c hc =>
    bne_iff_ne.mpr fun heq => hcs (heq ▸ hc)
  have hstop : ∀ {cs : List Char}, (∀ c ∈ cs.head?, c = stop) →
      ∀ c ∈ cs.head?, (c != stop) = false := fun hcs c hc => bne_eq_false_iff_eq.mpr (hcs c hc)
  exact split_unique (hother hfront) (hother hfront') (hstop hrest) (hstop hrest') h

/-- The text does not go on as a field does. -/
def EndsField (s : String) : Prop := ∀ c ∈ s.toList.head?, isFieldChar c = false

theorem endsField_of_head? {c : Char} (h : s.toList.head? = some c) (hc : isFieldChar c = false) :
    EndsField s := fun d hd => by
  cases h.symm.trans hd
  exact hc

theorem EndsField.append {c : Char} (h : s.toList.head? = some c) (hc : isFieldChar c = false)
    (t : String) : EndsField (s ++ t) := by
  refine endsField_of_head? ?_ hc
  rw [String.toList_append, List.head?_append, h, Option.some_or]

/-- A field ends where the text goes on with another character. -/
theorem IsFieldText.append_inj (hs : IsFieldText s) (hs' : IsFieldText s') (hmore : EndsField more)
    (hmore' : EndsField more') (h : s ++ more = s' ++ more') : s = s' ∧ more = more' := by
  have hlist := congrArg String.toList h
  rw [String.toList_append, String.toList_append] at hlist
  obtain ⟨hfield, hrest⟩ := split_unique hs hs' hmore hmore' hlist
  exact ⟨String.toList_inj.mp hfield, String.toList_inj.mp hrest⟩

/-- So does a field that is padded with spaces. -/
theorem IsFieldText.padRight_append_inj (hs : IsFieldText s) (hs' : IsFieldText s')
    (hmore : more.toList.head? = some ' ') (hmore' : more'.toList.head? = some ' ')
    (h : padRight width s ++ more = padRight width s' ++ more') : s = s' ∧ more = more' := by
  have hends : ∀ {t : String} {n : Nat}, t.toList.head? = some ' ' →
      EndsField (String.ofList (List.replicate n ' ') ++ t) := by
    intro t n ht
    refine endsField_of_head? (c := ' ') ?_ (by decide)
    cases n with
    | zero => simpa using ht
    | succ n => simp [List.replicate_succ]
  rw [padRight, padRight, String.append_assoc, String.append_assoc] at h
  obtain ⟨rfl, hrest⟩ := hs.append_inj hs' (hends hmore) (hends hmore') h
  exact ⟨rfl, (String.append_right_inj _).mp hrest⟩

section Pieces

variable {stop : Char} {sep : List Char} {xs ys : List (List Char)}

/-- Pieces with a separator in front of each of them can be told apart, if the separator begins with
a character that no piece has. -/
theorem flatMap_inj (hxs : ∀ x ∈ xs, stop ∉ x) (hys : ∀ y ∈ ys, stop ∉ y)
    (h : xs.flatMap (stop :: sep ++ ·) = ys.flatMap (stop :: sep ++ ·)) : xs = ys := by
  have hstop : ∀ zs : List (List Char), ∀ c ∈ (zs.flatMap (stop :: sep ++ ·)).head?, c = stop := by
    intro zs c hc
    cases zs with
    | nil => cases hc
    | cons z zs =>
      cases hc
      rfl
  induction xs generalizing ys with
  | nil =>
    cases ys with
    | nil => rfl
    | cons y ys => cases h
  | cons x xs ih =>
    cases ys with
    | nil => cases h
    | cons y ys =>
      obtain ⟨hx, hxs'⟩ := List.forall_mem_cons.mp hxs
      obtain ⟨hy, hys'⟩ := List.forall_mem_cons.mp hys
      rw [List.flatMap_cons, List.flatMap_cons, List.append_assoc, List.append_assoc] at h
      obtain ⟨rfl, hrest⟩ := split_before hx hy (hstop xs) (hstop ys) (List.append_cancel_left h)
      rw [ih hxs' hys' hrest]

theorem append_intercalate (sep : List Char) (hxs : xs ≠ []) :
    sep ++ sep.intercalate xs = xs.flatMap (sep ++ ·) := by
  obtain ⟨x, xs, rfl⟩ := List.exists_cons_of_ne_nil hxs
  induction xs generalizing x with
  | nil => simp
  | cons y ys ih =>
    rw [List.intercalate_cons_cons, List.append_assoc, ih y (List.cons_ne_nil y ys)]
    simp

theorem intercalate_eq_nil_iff (hxs : ∀ x ∈ xs, x ≠ []) : sep.intercalate xs = [] ↔ xs = [] := by
  refine ⟨fun h => ?_, fun h => h ▸ rfl⟩
  cases xs with
  | nil => rfl
  | cons x xs =>
    have hall := congrArg (sep ++ ·) h
    rw [append_intercalate sep (List.cons_ne_nil x xs), List.append_nil, List.flatMap_cons] at hall
    have hlength := congrArg List.length hall
    have hpos := List.length_pos_iff.mpr (hxs x List.mem_cons_self)
    simp only [List.length_append] at hlength
    omega

/-- So can they with a separator between any two of them, if no piece is empty. -/
theorem intercalate_inj (hxs : ∀ x ∈ xs, x ≠ [] ∧ stop ∉ x) (hys : ∀ y ∈ ys, y ≠ [] ∧ stop ∉ y)
    (h : (stop :: sep).intercalate xs = (stop :: sep).intercalate ys) : xs = ys := by
  have hnil : (stop :: sep).intercalate xs = [] ↔ xs = [] :=
    intercalate_eq_nil_iff fun x hx => (hxs x hx).1
  have hnil' : (stop :: sep).intercalate ys = [] ↔ ys = [] :=
    intercalate_eq_nil_iff fun y hy => (hys y hy).1
  by_cases hx : xs = []
  · rw [hx, hnil'.mp (h ▸ hnil.mpr hx)]
  · have hy : ys ≠ [] := fun hy => hx (hnil.mp (h ▸ hnil'.mpr hy))
    have hflat : xs.flatMap (stop :: sep ++ ·) = ys.flatMap (stop :: sep ++ ·) := by
      rw [← append_intercalate _ hx, ← append_intercalate _ hy, h]
    exact flatMap_inj (fun x hx => (hxs x hx).2) (fun y hy => (hys y hy).2) hflat

end Pieces

end Text

/-! ## Cells -/

/-- A field with the width of its column. -/
structure Cell where
  width : Nat
  text : String
  deriving DecidableEq, Repr

/-- The cells of a line with bars behind them, and what stands behind the last one. -/
def cellsText : List Cell → String → String
  | [], last => last
  | cell :: cells, last => padRight cell.width cell.text ++ (" | " ++ cellsText cells last)

/-- Two lines with columns of the same widths have the same cells if they are the same. -/
theorem cellsText_inj {cells cells' : List Cell} {last last' : String}
    (hcells : ∀ c ∈ cells, IsFieldText c.text) (hcells' : ∀ c ∈ cells', IsFieldText c.text)
    (hwidth : cells.map Cell.width = cells'.map Cell.width)
    (h : cellsText cells last = cellsText cells' last') : cells = cells' ∧ last = last' := by
  induction cells generalizing cells' with
  | nil =>
    obtain rfl := List.map_eq_nil_iff.mp hwidth.symm
    exact ⟨rfl, h⟩
  | cons cell cells ih =>
    cases cells' with
    | nil => cases hwidth
    | cons cell' cells' =>
      obtain ⟨width, text⟩ := cell
      obtain ⟨_, text'⟩ := cell'
      obtain ⟨rfl, hwidths⟩ := List.cons.inj hwidth
      obtain ⟨htext, hrest⟩ := List.forall_mem_cons.mp hcells
      obtain ⟨htext', hrest'⟩ := List.forall_mem_cons.mp hcells'
      have hbar : ∀ t : String, (" | " ++ t).toList.head? = some ' ' := fun t => by
        rw [String.toList_append]
        rfl
      obtain ⟨rfl, hmore⟩ := htext.padRight_append_inj htext' (hbar _) (hbar _) h
      obtain ⟨rfl, hlast⟩ := ih hrest hrest' hwidths ((String.append_right_inj _).mp hmore)
      exact ⟨rfl, hlast⟩

/-! ## Rows -/

namespace Attributes

/-- The texts for the offset and the size. A function has none. -/
def place : Attributes → String × String
  | var storage => (toString storage.offset, toString storage.size)
  | const storage _ => (toString storage.offset, toString storage.size)
  | _ => ("", "")

/-- The text behind the last column. -/
def details : Attributes → String
  | unset => ""
  | var storage => storage.details
  | const storage value => constantDetails storage value
  | func signature => signature.details

end Attributes

namespace Symbol

variable {a b : Symbol}

/-- The fields of a row, with the widths of their columns. -/
def cells (s : Symbol) : List Cell :=
  [⟨nameWidth, s.name⟩, ⟨kindWidth, kindWord s.kind?⟩,
   ⟨typeWidth, (s.valueType?.map ValueType.word).getD ""⟩,
   ⟨depthWidth + 1, "D" ++ toString s.depth⟩, ⟨offsetWidth, s.attributes.place.1⟩,
   ⟨sizeWidth, s.attributes.place.2⟩]

theorem append_padRight (width : Nat) (s : String) :
    "D" ++ padRight width s = padRight (width + 1) ("D" ++ s) := by
  have hlength : ("D" ++ s).length = s.length + 1 := by
    rw [String.length_append, Nat.add_comm]
    rfl
  rw [padRight, padRight, hlength, Nat.add_sub_add_right, String.append_assoc]

/-- A symbol with a kind has a row of cells. -/
theorem row_eq_cellsText (h : a.kind? ≠ none) :
    a.row = cellsText a.cells a.attributes.details := by
  have hdepth : " | D" = " | " ++ "D" := by decide +kernel
  have hplace : ∀ t : String, " |" ++ (" " ++ t) = " | " ++ t := fun t => by
    rw [← String.append_assoc]
    rfl
  unfold row rowStart cells
  cases ha : a.attributes with
  | unset => exact absurd (kind?_eq_none.mpr ha) h
  | _ =>
    simp only [cellsText, storageRowEnd, rowEnd, Attributes.place, Attributes.details, hdepth,
      ← append_padRight, String.append_assoc, hplace]

end Symbol

/-! ## Details -/

section Details

variable {p q : Mode × ValueType} {ps qs : List (Mode × ValueType)} {storage storage' : Storage}
  {value value' : Numeral.Value} {g g' : Signature}

theorem kindWord_injective : Function.Injective kindWord := by
  intro kind kind'
  rcases kind with _ | _ | _ | _ <;> rcases kind' with _ | _ | _ | _ <;> decide +kernel

theorem ValueType.word_injective : Function.Injective ValueType.word := by
  intro type type'
  cases type <;> cases type' <;> decide +kernel

theorem Mode.word_injective : Function.Injective Mode.word := by
  intro mode mode'
  cases mode <;> cases mode' <;> decide +kernel

/-- The text of a parameter of a function: its mode and its type. -/
def parameterText (p : Mode × ValueType) : String := p.1.word ++ " " ++ p.2.word

theorem parameterText_injective : Function.Injective parameterText := by
  intro p q h
  have hends : ∀ t : String, Text.EndsField (" " ++ t) := .append rfl (by decide)
  rw [parameterText, parameterText, String.append_assoc, String.append_assoc] at h
  obtain ⟨hmode, hrest⟩ := p.1.isFieldText_word.append_inj q.1.isFieldText_word (hends _) (hends _) h
  exact Prod.ext (Mode.word_injective hmode)
    (ValueType.word_injective ((String.append_right_inj _).mp hrest))

theorem mem_parameterText {c : Char} (h : c ∈ (parameterText p).toList) :
    c = ' ' ∨ Text.isFieldChar c := by
  simp only [parameterText, String.toList_append, List.mem_append] at h
  rcases h with (h | h) | h
  · exact Or.inr (p.1.isFieldText_word c h)
  · exact Or.inl (List.mem_singleton.mp h)
  · exact Or.inr (p.2.isFieldText_word c h)

theorem parameterText_ne_nil (p : Mode × ValueType) : (parameterText p).toList ≠ [] := by
  simp [parameterText]

/-- The parameters in a row, with commas between them. -/
def parametersText (ps : List (Mode × ValueType)) : String :=
  ", ".intercalate (ps.map parameterText)

theorem toList_parametersText (ps : List (Mode × ValueType)) :
    (parametersText ps).toList = [',', ' '].intercalate (ps.map fun p => (parameterText p).toList) := by
  rw [parametersText, String.toList_intercalate, List.map_map]
  rfl

theorem parametersText_injective : Function.Injective parametersText := by
  intro ps qs h
  have hpiece : ∀ (rs : List (Mode × ValueType)), ∀ x ∈ rs.map fun p => (parameterText p).toList,
      x ≠ [] ∧ ',' ∉ x := by
    intro rs x hx
    obtain ⟨r, -, rfl⟩ := List.mem_map.mp hx
    refine ⟨parameterText_ne_nil r, fun hm => ?_⟩
    rcases mem_parameterText hm with hc | hc <;> exact absurd hc (by decide)
  have hlist := congrArg String.toList h
  rw [toList_parametersText, toList_parametersText] at hlist
  have hpieces := Text.intercalate_inj (hpiece ps) (hpiece qs) hlist
  exact List.map_injective_iff.mpr
    (fun p q hpq => parameterText_injective (String.toList_inj.mp hpq)) hpieces

theorem mem_parametersText {c : Char} (h : c ∈ (parametersText ps).toList) :
    c = ',' ∨ c = ' ' ∨ Text.isFieldChar c := by
  by_cases hps : ps = []
  · subst hps
    cases h
  · have hall : c ∈ [',', ' '] ++ (parametersText ps).toList := List.mem_append_right _ h
    rw [toList_parametersText, Text.append_intercalate _ (by simpa using hps), List.mem_flatMap]
      at hall
    obtain ⟨x, hx, hc⟩ := hall
    obtain ⟨r, -, rfl⟩ := List.mem_map.mp hx
    rcases List.mem_append.mp hc with hc | hc
    · simp only [List.mem_cons, List.not_mem_nil, or_false] at hc
      exact hc.imp_right Or.inl
    · exact Or.inr (mem_parameterText hc)

theorem Signature.details_eq (g : Signature) : g.details =
    "Params(" ++ (parametersText (g.modes.zip g.types) ++ (")" ++ (" params_size=" ++
      (toString g.parametersSize ++ (" locals_size=" ++ toString g.localsSize))))) := by
  have hsizes : s!" params_size={g.parametersSize} locals_size={g.localsSize}" =
      " params_size=" ++ (toString g.parametersSize ++
        (" locals_size=" ++ toString g.localsSize)) := by
    simp only [String.append_assoc, toString]
  unfold details
  rw [hsizes, String.append_assoc, String.append_assoc]
  rfl

theorem toString_injective {m n : Int} (h : toString m = toString n) : m = n := Int.repr_inj.mp h

/-- The details of a function tell its parameters and its two sizes. -/
theorem Signature.details_eq_iff : g.details = g'.details ↔
    g.modes.zip g.types = g'.modes.zip g'.types ∧ g.parametersSize = g'.parametersSize ∧
      g.localsSize = g'.localsSize := by
  constructor
  · intro h
    rw [g.details_eq, g'.details_eq] at h
    have hother : ∀ ps, ')' ∉ (parametersText ps).toList := by
      rintro ps hc
      rcases mem_parametersText hc with hc | hc | hc <;> exact absurd hc (by decide)
    have hclosing : ∀ t : String, ∀ c ∈ (")" ++ t).toList.head?, c = ')' := by
      intro t c hc
      rw [String.toList_append] at hc
      cases hc
      rfl
    have hlist := congrArg String.toList ((String.append_right_inj _).mp h)
    rw [String.toList_append, @String.toList_append (parametersText _)] at hlist
    obtain ⟨hparameters, hrest⟩ := Text.split_before (hother _) (hother _) (hclosing _)
      (hclosing _) hlist
    have hsizes := (String.append_right_inj _).mp
      ((String.append_right_inj _).mp (String.toList_inj.mp hrest))
    have hends : ∀ t : String, Text.EndsField (" locals_size=" ++ t) := .append rfl (by decide)
    obtain ⟨hsize, hlocals⟩ := (isFieldText_toString _).append_inj (isFieldText_toString _)
      (hends _) (hends _) hsizes
    exact ⟨parametersText_injective (String.toList_inj.mp hparameters), toString_injective hsize,
      toString_injective ((String.append_right_inj _).mp hlocals)⟩
  · rintro ⟨hparameters, hsize, hlocals⟩
    rw [g.details_eq, g'.details_eq, hparameters, hsize, hlocals]

theorem Storage.details_eq_iff :
    storage.details = storage'.details ↔ storage.isParameter = storage'.isParameter := by
  unfold details
  cases storage.isParameter <;> cases storage'.isParameter <;> decide +kernel

theorem constantDetails_eq_iff : constantDetails storage value = constantDetails storage' value' ↔
    value.text = value'.text ∧ storage.isParameter = storage'.isParameter := by
  unfold constantDetails
  constructor
  · intro h
    have hends : ∀ flag : Bool, Text.EndsField (if flag then " param" else "") := by
      intro flag
      cases flag with
      | true => exact Text.endsField_of_head? rfl (by decide)
      | false => exact fun c hc => nomatch hc
    rw [String.append_assoc, String.append_assoc] at h
    obtain ⟨hvalue, hflag⟩ := value.isFieldText_text.append_inj value'.isFieldText_text (hends _)
      (hends _) ((String.append_right_inj _).mp h)
    refine ⟨hvalue, ?_⟩
    revert hflag
    cases storage.isParameter <;> cases storage'.isParameter <;> decide +kernel
  · rintro ⟨hvalue, hflag⟩
    rw [hvalue, hflag]

end Details

/-- Whether a character may stand in the text behind the last column. -/
def Text.isDetailChar (c : Char) : Bool :=
  isFieldChar c || c == ' ' || c == ',' || c == '(' || c == ')' || c == '='

theorem Text.isDetailChar_of_isFieldChar {c : Char} (h : isFieldChar c) : isDetailChar c := by
  simp [isDetailChar, h]

theorem Attributes.isDetailChar_of_mem (attributes : Attributes) :
    ∀ c ∈ attributes.details.toList, Text.isDetailChar c := by
  have hfield : ∀ {t : String}, IsFieldText t → ∀ c ∈ t.toList, Text.isDetailChar c :=
    fun ht c hc => Text.isDetailChar_of_isFieldChar (ht c hc)
  have hword : ∀ {t : String}, t.toList.all Text.isDetailChar → ∀ c ∈ t.toList,
      Text.isDetailChar c := fun ht => List.all_eq_true.mp ht
  cases attributes with
  | unset => exact hword (by decide)
  | var storage =>
    rw [details, Storage.details]
    split <;> exact hword (by decide)
  | const storage value =>
    have hflag : ∀ c ∈ (if storage.isParameter then " param" else "").toList,
        Text.isDetailChar c := by
      split <;> exact hword (by decide)
    simp only [details, constantDetails, String.toList_append, List.forall_mem_append]
    exact ⟨⟨hword (by decide), hfield value.isFieldText_text⟩, hflag⟩
  | func signature =>
    have hparameters : ∀ c ∈ (parametersText (signature.modes.zip signature.types)).toList,
        Text.isDetailChar c := by
      intro c hc
      rcases mem_parametersText hc with rfl | rfl | hc
      · decide
      · decide
      · exact Text.isDetailChar_of_isFieldChar hc
    simp only [details, Signature.details_eq, String.toList_append, List.forall_mem_append]
    exact ⟨hword (by decide), hparameters, hword (by decide), hword (by decide),
      hfield (isFieldText_toString _), hword (by decide), hfield (isFieldText_toString _)⟩

/-! ## The contents of a row -/

/-- The attributes are complete: a variable or constant has its type, and a function has as many
modes as types. -/
def Attributes.IsComplete : Attributes → Prop
  | unset => False
  | var storage => storage.type.isSome
  | const storage _ => storage.type.isSome
  | func signature => signature.modes.length = signature.types.length

/-- What a row shows of attributes: all of a storage, the text of a value, and the parameters and
sizes of a function. -/
inductive RowContent where
  | unset
  | var (storage : Storage)
  | const (storage : Storage) (value : String)
  | func (modes : List Mode) (types : List ValueType) (parametersSize localsSize : Int)
  deriving DecidableEq, Repr

/-- What a row shows of the attributes. -/
def Attributes.shown : Attributes → RowContent
  | unset => .unset
  | var storage => .var storage
  | const storage value => .const storage value.text
  | func signature =>
    .func signature.modes signature.types signature.parametersSize signature.localsSize

theorem zip_inj {ms ms' : List Mode} {ts ts' : List ValueType} (h : ms.length = ts.length)
    (h' : ms'.length = ts'.length) : ms.zip ts = ms'.zip ts' ↔ ms = ms' ∧ ts = ts' := by
  refine ⟨fun heq => ?_, fun ⟨hmodes, htypes⟩ => by rw [hmodes, htypes]⟩
  have hmodes := congrArg (List.map Prod.fst) heq
  have htypes := congrArg (List.map Prod.snd) heq
  rw [List.map_fst_zip h.le, List.map_fst_zip h'.le] at hmodes
  rw [List.map_snd_zip h.ge, List.map_snd_zip h'.ge] at htypes
  exact ⟨hmodes, htypes⟩

namespace Symbol

variable {a b : Symbol}

/-- The symbol is named like an identifier, and its attributes are complete. -/
structure IsAttributed (s : Symbol) : Prop where
  name : IsName s.name.toList
  complete : s.attributes.IsComplete

theorem IsAttributed.kind?_ne_none (h : a.IsAttributed) : a.kind? ≠ none := fun hk => by
  have hcomplete := h.complete
  rw [kind?_eq_none.mp hk] at hcomplete
  exact hcomplete

/-- Whatever the name is, the other fields have the characters of fields. -/
theorem isFieldText_tail_cells (s : Symbol) : ∀ c ∈ s.cells.tail, IsFieldText c.text := by
  have htype : IsFieldText ((s.valueType?.map ValueType.word).getD "") := by
    cases s.valueType? with
    | none => decide
    | some type => exact type.isFieldText_word
  have hdepth : IsFieldText ("D" ++ toString s.depth) := by
    rw [IsFieldText, String.toList_append]
    exact AllField.append (by decide) (isFieldText_toString s.depth)
  have hplace : IsFieldText s.attributes.place.1 ∧ IsFieldText s.attributes.place.2 := by
    have hnone : IsFieldText "" := by decide
    cases s.attributes with
    | unset => exact ⟨hnone, hnone⟩
    | var storage => exact ⟨isFieldText_toString _, isFieldText_toString _⟩
    | const storage value => exact ⟨isFieldText_toString _, isFieldText_toString _⟩
    | func _ => exact ⟨hnone, hnone⟩
  simp only [cells, List.tail_cons, List.forall_mem_cons]
  exact ⟨isFieldText_kindWord _, htype, hdepth, hplace.1, hplace.2, List.forall_mem_nil _⟩

theorem isFieldText_cells (h : IsName a.name.toList) : ∀ c ∈ a.cells, IsFieldText c.text :=
  List.forall_mem_cons.mpr ⟨h.isFieldText, a.isFieldText_tail_cells⟩

theorem cells_eq_iff : a.cells = b.cells ↔ a.name = b.name ∧ a.kind? = b.kind? ∧
    a.valueType? = b.valueType? ∧ a.depth = b.depth ∧
      a.attributes.place = b.attributes.place := by
  have htype : (a.valueType?.map ValueType.word).getD "" = (b.valueType?.map ValueType.word).getD ""
      ↔ a.valueType? = b.valueType? := by
    rcases a.valueType? with _ | _ | _ | _ <;> rcases b.valueType? with _ | _ | _ | _ <;>
      decide +kernel
  have hdepth : "D" ++ toString a.depth = "D" ++ toString b.depth ↔ a.depth = b.depth :=
    ⟨fun h => toString_injective ((String.append_right_inj _).mp h), fun h => by rw [h]⟩
  simp only [cells, List.cons.injEq, Cell.mk.injEq, true_and, and_true, htype, hdepth,
    kindWord_injective.eq_iff, Prod.ext_iff]

/-- What is shown of the attributes is what stands in their columns and behind them. -/
theorem shown_eq_iff (ha : a.attributes.IsComplete) (hb : b.attributes.IsComplete)
    (hkind : a.kind? = b.kind?) : a.attributes.shown = b.attributes.shown ↔
      a.valueType? = b.valueType? ∧ a.attributes.place = b.attributes.place ∧
        a.attributes.details = b.attributes.details := by
  have hstorage : ∀ s t : Storage, s = t ↔ s.type = t.type ∧
      (toString s.offset = toString t.offset ∧ toString s.size = toString t.size) ∧
        s.isParameter = t.isParameter := by
    rintro ⟨_, _, _, _⟩ ⟨_, _, _, _⟩
    simp only [Storage.mk.injEq, toString, Int.repr_inj]
    tauto
  obtain ⟨name, depth, attributes⟩ := a
  obtain ⟨name', depth', attributes'⟩ := b
  cases attributes with
  | unset => exact ha.elim
  | var storage =>
    cases attributes' <;> try cases hkind
    rename_i storage'
    simp only [Attributes.shown, RowContent.var.injEq, hstorage storage storage', valueType?,
      Attributes.place, Prod.mk.injEq, Attributes.details, Storage.details_eq_iff]
  | const storage value =>
    cases attributes' <;> try cases hkind
    rename_i storage' value'
    simp only [Attributes.shown, RowContent.const.injEq, hstorage storage storage', valueType?,
      Attributes.place, Prod.mk.injEq, Attributes.details, constantDetails_eq_iff]
    tauto
  | func signature =>
    cases attributes' <;> try cases hkind
    simp only [Attributes.shown, RowContent.func.injEq, valueType?, Attributes.place,
      Attributes.details, Signature.details_eq_iff, zip_inj ha hb, and_assoc, true_and]

/-- The rows of two attributed symbols are the same exactly if all that is shown of them is. -/
theorem row_eq_iff (ha : a.IsAttributed) (hb : b.IsAttributed) :
    a.row = b.row ↔ a.name = b.name ∧ a.kind? = b.kind? ∧ a.depth = b.depth ∧
      a.attributes.shown = b.attributes.shown := by
  rw [row_eq_cellsText ha.kind?_ne_none, row_eq_cellsText hb.kind?_ne_none]
  constructor
  · intro h
    obtain ⟨hcells, hdetails⟩ := cellsText_inj (isFieldText_cells ha.name)
      (isFieldText_cells hb.name) rfl h
    obtain ⟨hname, hkind, htype, hdepth, hplace⟩ := cells_eq_iff.mp hcells
    exact ⟨hname, hkind, hdepth,
      (shown_eq_iff ha.complete hb.complete hkind).mpr ⟨htype, hplace, hdetails⟩⟩
  · rintro ⟨hname, hkind, hdepth, hshown⟩
    obtain ⟨htype, hplace, hdetails⟩ := (shown_eq_iff ha.complete hb.complete hkind).mp hshown
    rw [cells_eq_iff.mpr ⟨hname, hkind, htype, hdepth, hplace⟩, hdetails]

/-- Two variables whose offsets and sizes together have the same digits, with names, depths and offsets
that are longer than their columns. -/
theorem row_ne_of_overflow :
    let place (offset size : Int) : Attributes := .var ⟨some .integer, size, offset, false⟩
    let a : Symbol := ⟨"name_of_many_letters", 1000, place 12345678 9⟩
    let b : Symbol := ⟨"name_of_many_letters", 1000, place 1234567 89⟩
    a.IsAttributed ∧ b.IsAttributed ∧ a.row ≠ b.row := by
  intro place a b
  have hname : IsName "name_of_many_letters".toList :=
    ⟨'n', "ame_of_many_letters".toList, rfl, by decide, List.all_eq_true.mp (by decide)⟩
  have ha : a.IsAttributed := ⟨hname, rfl⟩
  have hb : b.IsAttributed := ⟨hname, rfl⟩
  exact ⟨ha, hb, fun h => absurd ((row_eq_iff ha hb).mp h).2.2.2 (by decide)⟩

end Symbol

end ProcLang
