import ProcLang.Proofs.Names
import ProcLang.Proofs.Progress

/-!
# What the head of a procedure comes to

Each step in the head of a procedure that succeeds has taken the tokens of a part of the tree and
made the progress that the part asks for. In the end the progress is that of the trees of all groups
(`Progress.Holds.yields_procedureHead`).
-/

namespace ProcLang

open Numeral (Value)

/-! ## Attributes of marks -/

namespace Mark

/-- The attributes that a mark gives. -/
def attributes (m : Mark) : Attributes := (m.datum "").attributes

theorem symbol_datum (m : Mark) (y : String) (depth : Int) :
    (m.datum y).symbol depth = ⟨y, depth, m.attributes⟩ := rfl

/-- The word for a type is a mark. -/
theorem exists_of_primitiveType? {k : Kind} {type : ValueType}
    (h : Analysis.primitiveType? k = some type) :
    ∃ m : Mark, m.terminals = [.kind k] ∧ m.attributes = .var (.ofType type) ∧ ¬ k.IsMode := by
  unfold Analysis.primitiveType? at h
  split at h
  · cases h
    exact ⟨integer, rfl, rfl, by decide⟩
  · cases h
    exact ⟨float, rfl, rfl, by decide⟩
  · cases h
    exact ⟨character, rfl, rfl, by decide⟩
  · cases h

/-- The type of a constant can be told from its numeral as well as from its value. -/
theorem attributes_constant {numeral : String} {value : Value}
    (h : Value.parse numeral = .ok value) : (constant numeral).attributes =
      .const (.ofType (Analysis.constantType value)) value := by
  have htype : (constant numeral).type = Analysis.constantType value := by
    show (if Numeral.hasPoint numeral then _ else _) = _
    unfold Value.parse at h
    split at h
    · next hpoint =>
      rw [if_pos hpoint]
      cases hr : Numeral.parseReal numeral with
      | ok x =>
        rw [hr] at h
        cases h
        rfl
      | error e =>
        rw [hr] at h
        cases h
    · next hpoint =>
      rw [if_neg hpoint]
      cases hr : Numeral.parseInteger numeral with
      | ok x =>
        rw [hr] at h
        cases h
        rfl
      | error e =>
        rw [hr] at h
        cases h
  have hvalue : (constant numeral).value? = some value := by
    show (Value.parse numeral).toOption = _
    rw [h]
    rfl
  unfold attributes Datum.attributes datum
  rw [hvalue, htype]

end Mark

theorem recordedSignature_concat (groups : List ParameterGroup) (g : ParameterGroup) :
    recordedSignature (groups ++ [g]) =
      (recordedSignature groups).addParameters (g.names.map fun _ => g.mark.type) g.mode := by
  simp [recordedSignature, Signature.addParameters]

/-! ## Lines of a head -/

/-- The lines on the declarations of parameters. -/
theorem map_line_parametersOf (groups : List ParameterGroup) (depth : Int) :
    (parametersOf groups).map (fun p => declaredLine "parameter" (p.symbol depth)) =
      (parametersOf groups).map (·.line depth) := by
  refine List.map_congr_left fun p hp => ?_
  have hparameter : p.storage.isParameter = true := by
    obtain ⟨v, hv, offset, rfl⟩ := Datum.exists_of_mem_placeFrom (List.mem_reverse.mp hp)
    obtain ⟨g, -, hv⟩ := List.mem_flatMap.mp (List.mem_reverse.mp hv)
    obtain ⟨w, -, rfl⟩ := List.mem_map.mp hv
    rfl
  unfold Datum.line
  rw [if_pos hparameter]

/-- The lines on the declarations of local names. -/
theorem map_line_localsOf (groups : List Group) (depth : Int) :
    (localsOf groups).map (fun v => declaredLine v.role (v.symbol depth)) =
      (localsOf groups).map (·.line depth) := by
  refine List.map_congr_left fun v hv => ?_
  have hlocal : v.storage.isParameter = false := by
    obtain ⟨w, hw, offset, rfl⟩ := Datum.exists_of_mem_placeFrom hv
    obtain ⟨g, -, hw⟩ := List.mem_flatMap.mp hw
    obtain ⟨y, -, rfl⟩ := List.mem_map.mp hw
    rfl
  unfold Datum.line
  rw [hlocal]
  rfl

namespace Progress.Holds

open Analysis

variable {b : SymbolTable} {name : String} {p : Progress} {s : State}

/-! ## Names and marks -/

section Declaring

variable (hw : b.WellFormed) (hb : b.Bounded)
include hw hb

theorem yields_declarePending (h : p.Holds b name s) :
    Yields declarePending s fun _ s' => ∃ y, Took [.name y] s s' ∧
      Holds b name { p with fresh := p.fresh ++ [y] } s' := by
  unfold declarePending
  refine yields_bind.mpr (.currentToken fun t ht => ?_)
  refine (yields_expect_word ht).bind ?_
  rintro - s₁ ⟨honly, htook⟩
  have h₁ := h.onlyTokens honly
  have hwt : s₁.table.WellFormed := by
    rw [h₁.table]
    exact hw.scopeTable
  have hnames : s₁.table.namesAt.get s₁.table.depth = p.names := by
    rw [h₁.depth, h₁.table, SymbolTable.namesAt_scopeTable hw hb fun x => depth_of_mem_symbols,
      map_name_symbols]
  refine yields_bind.mpr ((ends_checkNew hwt).mpr ?_)
  rw [hnames]
  split
  · trivial
  · next hnew =>
    refine ⟨t.lexeme, htook, ?_⟩
    constructor
    · show (s₁.table.insert t.lexeme s₁.table.depth).2 = _
      rw [SymbolTable.insert_snd, symbols_fresh_concat, SymbolTable.scopeTable_concat, h₁.depth,
        h₁.table]
    · show s₁.pending ++ [s₁.table.symbols.size] = _
      have hsize : s₁.table.symbols.size = p.handle b 0 + (p.waiting.length + p.fresh.length) := by
        rw [h₁.table, SymbolTable.size_scopeTable, length_symbols]
        unfold handle
        omega
      rw [List.length_append, ← Nat.add_assoc, List.length_singleton, List.range'_1_concat,
        h₁.pending, hsize]
      rfl
    · exact h₁.recorded
    · exact h₁.nextOffset
    · exact h₁.lines
    · have hsplit : names { p with fresh := p.fresh ++ [t.lexeme] } = p.names ++ [t.lexeme] :=
        (List.append_assoc ..).symm
      rw [hsplit]
      exact List.nodup_append.mpr ⟨h₁.nodup, List.nodup_singleton _, fun y hy z hz heq =>
        hnew (List.mem_singleton.mp hz ▸ heq ▸ hy)⟩

theorem yields_identifierList (h : p.Holds b name s) :
    Yields identifierList s fun _ s' => ∃ first more,
      Took (.name first :: more.flatMap fun y => [.kind .comma, .name y]) s s' ∧
        Holds b name { p with fresh := p.fresh ++ first :: more } s' := by
  refine yields_separatedBy (fun y => [.name y])
    (fun ys => Holds b name { p with fresh := p.fresh ++ ys }) (by decide)
    (fun ys s₁ s₂ h₁ honly => h₁.onlyTokens honly) (fun ys s₁ h₁ => ?_) ?_
  · refine (yields_declarePending hw hb h₁).mono ?_
    rintro - s₂ ⟨y, htook, h₂⟩
    refine ⟨y, htook, ?_⟩
    rw [← List.append_assoc]
    exact h₂
  · rw [List.append_nil]
    exact h

end Declaring

/-- The names without attributes get them, and the others keep theirs. -/
theorem attributed (h : p.Holds b name s) (m : Mark) :
    Holds b name { p with waiting := p.waiting ++ p.fresh.map m.datum, fresh := [] }
      { s with
        table := s.pending.foldl
          (fun t h => t.set h ((t.symbol h).giveAttributes m.attributes)) s.table } where
  table := by
    have hsplit : p.symbols (b.depth + 1) = p.placed.map (·.symbol (b.depth + 1)) ++
        (p.waiting.map (·.symbol (b.depth + 1)) ++
          p.fresh.map (⟨·, b.depth + 1, .unset⟩)) := by
      simp [symbols]
    have hset := @SymbolTable.foldl_set_scopeTable b name p.signature
      (·.giveAttributes m.attributes)
      (fun x => by unfold Symbol.giveAttributes; split <;> rfl)
      (fun x => by unfold Symbol.giveAttributes; split <;> rfl)
      (p.placed.map (·.symbol (b.depth + 1))) (p.waiting.map (·.symbol (b.depth + 1)) ++
          p.fresh.map (⟨·, b.depth + 1, .unset⟩))
    rw [List.length_map, List.length_append, List.length_map, List.length_map] at hset
    have hunset : ∀ y, (⟨y, b.depth + 1, .unset⟩ : Symbol).giveAttributes m.attributes =
        ⟨y, b.depth + 1, m.attributes⟩ := fun _ => rfl
    show s.pending.foldl _ s.table = _
    rw [h.pending, h.table, hsplit]
    refine hset.trans ?_
    simp [symbols, Datum.giveAttributes_symbol, hunset, Mark.symbol_datum, Function.comp_def]
  pending := by
    rw [h.pending, List.length_append, List.length_map]
    rfl
  recorded := h.recorded
  nextOffset := h.nextOffset
  lines := h.lines
  nodup := by
    have hsame : names { p with waiting := p.waiting ++ p.fresh.map m.datum, fresh := [] } =
        p.names := by
      simp [names, Mark.datum, Function.comp_def]
    rw [hsame]
    exact h.nodup

theorem yields_constantMark (h : p.Holds b name s) :
    Yields constantMark s fun _ s' => ∃ m : Mark, Took m.terminals s s' ∧
      Holds b name { p with waiting := p.waiting ++ p.fresh.map m.datum, fresh := [] } s' := by
  refine (yields_expect_kind (by decide) s).bind fun _ s₁ h₁ => ?_
  refine (yields_expect_kind (by decide) s₁).bind fun _ s₂ h₂ => ?_
  refine yields_bind.mpr (yields_bind.mpr (.currentToken fun t ht => ?_))
  refine (yields_expect_word ht).bind fun _ s₃ h₃ => ?_
  obtain ⟨honly, htook⟩ := (h₁.trans h₂).trans h₃
  refine yields_bind.mpr ?_
  unfold constantValue
  cases hvalue : Value.parse t.lexeme with
  | error e => trivial
  | ok value =>
    have hdone := (h.onlyTokens honly).attributed (.constant t.lexeme)
    rw [Mark.attributes_constant hvalue] at hdone
    exact ⟨.constant t.lexeme, htook, hdone⟩

theorem yields_mark (h : p.Holds b name s) :
    Yields mark s fun _ s' => ∃ m : Mark, Took m.terminals s s' ∧
      Holds b name { p with waiting := p.waiting ++ p.fresh.map m.datum, fresh := [] } s' := by
  refine yields_bind.mpr (.currentToken fun t ht => ?_)
  cases htype : primitiveType? t.kind with
  | some type =>
    obtain ⟨m, hterminals, hattributes, hmode⟩ := Mark.exists_of_primitiveType? htype
    have hdone := h.attributed m
    rw [hattributes] at hdone
    refine yields_bind.mpr ((yields_expect_kind hmode _).mono fun _ s' ⟨honly, htook⟩ => ?_)
    refine ⟨m, ?_, hdone.onlyTokens honly⟩
    rw [hterminals]
    exact htook
  | none => exact .ite (fun _ => h.yields_constantMark) fun _ => yields_reject

/-! ## Groups -/

section Groups

variable (hw : b.WellFormed) (hb : b.Bounded)
include hw hb

theorem yields_localGroup (h : p.Holds b name s) (hwaiting : p.waiting = [])
    (hfresh : p.fresh = []) :
    Yields (localGroup name) s fun _ s' => ∃ g : Group,
      Took (g.terminals ++ [.kind .semicolon]) s s' ∧ Holds b name { p with
        signature := { p.signature with
          localsSize := p.nextOffset + Datum.totalSize g.data - localBase }
        placed := p.placed ++ Datum.placeFrom p.nextOffset g.data
        nextOffset := p.nextOffset + Datum.totalSize g.data
        lines := p.lines ++
          (Datum.placeFrom p.nextOffset g.data).map (·.line (b.depth + 1)) } s' := by
  refine (h.yields_identifierList hw hb).bind ?_
  rintro - s₁ ⟨first, more, htook₁, h₁⟩
  refine (yields_expect_kind (by decide) s₁).bind ?_
  rintro - s₂ ⟨honly₂, htook₂⟩
  refine yields_bind.mpr ((h₁.onlyTokens honly₂).yields_mark.bind ?_)
  rintro - s₃ ⟨m, htook₃, h₃⟩
  rw [hwaiting, hfresh, List.nil_append, List.nil_append] at h₃
  refine (h₃.yields_functionNamed hw).bind ?_
  rintro _ _ ⟨rfl, rfl⟩
  refine (h₃.yields_placeLocals rfl).mono ?_
  rintro - s₄ ⟨hmatched₄, h₄⟩
  refine (yields_expect_kind (by decide) s₄).mono ?_
  rintro - s₅ ⟨honly₅, htook₅⟩
  refine ⟨⟨first, more, m⟩, ?_, ?_⟩
  · exact ((htook₁.trans (htook₂.trans htook₃)).stay hmatched₄).trans htook₅
  · rw [hwaiting, hfresh]
    exact h₄.onlyTokens honly₅

omit hw hb in
/-- The mode of a group may be left out. -/
theorem yields_mode (s : State) :
    Yields mode s fun m s' => ∃ m? : Option Mode, m = m?.getD .input ∧
      Consumes ((m?.map fun m => .kind m.kind).toList) s s' := by
  refine yields_bind.mpr (.currentToken fun t ht => ?_)
  cases hm : modeOfWord? t.lexeme with
  | none => exact ⟨none, rfl, .refl s⟩
  | some m =>
    refine yields_bind.mpr ((yields_expect_of_current ht).mono ?_)
    rintro - s' ⟨-, htakes⟩
    exact ⟨some m, rfl, htakes.consumes (Or.inl ⟨m, rfl, hm⟩)⟩

theorem yields_parameterGroup (h : p.Holds b name s) (hfresh : p.fresh = [])
    (hrecorded : p.recorded = p.waiting.length) :
    Yields (parameterGroup name) s fun _ s' => ∃ g : ParameterGroup,
      Took g.terminals s s' ∧ Holds b name { p with
        signature := p.signature.addParameters (g.names.map fun _ => g.mark.type) g.mode
        waiting := p.waiting ++ g.data
        recorded := p.waiting.length + g.names.length } s' := by
  refine (yields_mode s).bind ?_
  rintro _ s₁ ⟨m?, rfl, honly₁, htook₁⟩
  refine ((h.onlyTokens honly₁).yields_identifierList hw hb).bind ?_
  rintro - s₂ ⟨first, more, htook₂, h₂⟩
  refine (yields_expect_kind (by decide) s₂).bind ?_
  rintro - s₃ ⟨honly₃, htook₃⟩
  refine yields_bind.mpr ((h₂.onlyTokens honly₃).yields_mark.mono ?_)
  rintro - s₄ ⟨m, htook₄, h₄⟩
  rw [hfresh, List.nil_append] at h₄
  refine (h₄.yields_functionNamed hw).bind ?_
  rintro _ _ ⟨rfl, rfl⟩
  have hnew : ∀ v ∈ (first :: more).map m.datum, v.storage.type = some m.type := by
    intro v hv
    obtain ⟨y, -, rfl⟩ := List.mem_map.mp hv
    rfl
  refine (h₄.yields_recordParameters rfl rfl hrecorded hnew).mono ?_
  rintro - s₅ ⟨hmatched₅, h₅⟩
  refine ⟨⟨⟨first, more, m⟩, m?⟩, ?_, ?_⟩
  · exact (htook₁.trans (htook₂.trans (htook₃.trans htook₄))).stay hmatched₅
  · rw [hfresh]
    rw [List.map_map, List.length_map] at h₅
    exact h₅

theorem yields_argumentList (h : p.Holds b name s) (hsignature : p.signature = {})
    (hwaiting : p.waiting = []) (hfresh : p.fresh = []) (hrecorded : p.recorded = 0) :
    Yields (argumentList name) s fun _ s' => ∃ first more,
      Took (first.terminals ++ more.flatMap fun g => .kind .semicolon :: g.terminals) s s' ∧
        Holds b name { p with
          signature := recordedSignature (first :: more)
          waiting := (first :: more).flatMap ParameterGroup.data
          recorded := ((first :: more).flatMap ParameterGroup.data).length } s' := by
  refine yields_separatedBy ParameterGroup.terminals
    (fun groups => Holds b name { p with
      signature := recordedSignature groups
      waiting := groups.flatMap ParameterGroup.data
      recorded := (groups.flatMap ParameterGroup.data).length }) (by decide)
    (fun groups s₁ s₂ h₁ honly => h₁.onlyTokens honly) (fun groups s₁ h₁ => ?_) ?_
  · refine (h₁.yields_parameterGroup hw hb hfresh rfl).mono ?_
    rintro - s₂ ⟨g, htook, h₂⟩
    refine ⟨g, htook, ?_⟩
    rw [recordedSignature_concat, List.flatMap_append, List.flatMap_singleton, List.length_append,
      ParameterGroup.length_data]
    exact h₂
  · show Holds b name { p with signature := {}, waiting := [], recorded := 0 } s
    rw [← hsignature, ← hwaiting, ← hrecorded]
    exact h

/-- The parameters of a procedure are read. -/
theorem yields_arguments {recorded : Nat} {offset : Int} {lines : List String}
    (h : Holds b name ⟨{}, [], [], [], recorded, offset, lines⟩ s) :
    Yields (arguments name) s fun _ s' => ∃ groups recorded,
      Took (parameterTerminals groups) s s' ∧
        Holds b name ⟨signatureOf groups [], parametersOf groups, [], [], recorded, offset,
          lines ++ (parametersOf groups).map (·.line (b.depth + 1))⟩ s' := by
  refine yields_bind.mpr (.atKind fun t ht => ?_)
  refine .ite (fun _ => ?_) fun _ => ⟨[], recorded, took_nil rfl, ?_⟩
  · refine (yields_expect_kind (by decide) s).bind ?_
    rintro - s₁ ⟨honly₁, htook₁⟩
    refine yields_bind.mpr ?_
    have h₁ := h.onlyTokens honly₁
    have h₁ : Holds b name ⟨{}, [], [], [], 0, offset, lines⟩ { s₁ with recorded := 0 } :=
      ⟨h₁.table, h₁.pending, rfl, h₁.nextOffset, h₁.lines, h₁.nodup⟩
    refine (h₁.yields_argumentList hw hb rfl rfl rfl rfl).bind ?_
    rintro - s₂ ⟨first, more, htook₂, h₂⟩
    refine (yields_expect_kind (by decide) s₂).bind ?_
    rintro - s₃ ⟨honly₃, htook₃⟩
    refine ((h₂.onlyTokens honly₃).yields_placeParameters hw rfl).mono ?_
    rintro - s₄ ⟨hmatched₄, h₄⟩
    have htook₂ : Took _ s₁ s₂ := htook₂
    exact ⟨first :: more, _, ((htook₁.trans htook₂).trans htook₃).stay hmatched₄, h₄⟩
  · show Holds b name ⟨{}, [], [], [], recorded, offset, lines ++ []⟩ s
    rw [List.append_nil]
    exact h

/-- The local names of a procedure are read. -/
theorem yields_declarativePart {groups : List ParameterGroup} {recorded : Nat}
    {lines : List String}
    (h : Holds b name ⟨signatureOf groups [], parametersOf groups, [], [], recorded, localBase,
      lines⟩ s) :
    Yields (declarativePart name) s fun _ s' => ∃ locals offset,
      Took (locals.flatMap fun g => g.terminals ++ [.kind .semicolon]) s s' ∧
        Holds b name ⟨signatureOf groups locals, parametersOf groups ++ localsOf locals, [], [],
          recorded, offset, lines ++ (localsOf locals).map (·.line (b.depth + 1))⟩ s' := by
  refine (yields_many (fun g : Group => g.terminals ++ [.kind .semicolon])
    (fun locals => Holds b name ⟨signatureOf groups locals, parametersOf groups ++ localsOf locals,
      [], [], recorded, localBase + Datum.totalSize (locals.flatMap Group.data),
      lines ++ (localsOf locals).map (·.line (b.depth + 1))⟩)
    (fun locals s₁ t h₁ _ _ => ?_) [] ?_).mono ?_
  · refine (h₁.yields_localGroup hw hb rfl rfl).mono ?_
    rintro - s₂ ⟨g, htook, h₂⟩
    refine ⟨g, htook, ?_⟩
    have hsize : localBase + Datum.totalSize (locals.flatMap Group.data) + Datum.totalSize g.data -
        localBase = Datum.totalSize ((locals ++ [g]).flatMap Group.data) := by
      rw [List.flatMap_append, List.flatMap_singleton, Datum.totalSize_append]
      omega
    have hsignature : signatureOf groups (locals ++ [g]) = { signatureOf groups locals with
        localsSize := localBase + Datum.totalSize (locals.flatMap Group.data) +
          Datum.totalSize g.data - localBase } := by
      rw [hsize]
      rfl
    rw [hsignature, localsOf_concat, List.map_append, List.flatMap_append, List.flatMap_singleton,
      Datum.totalSize_append, ← Int.add_assoc, ← List.append_assoc, ← List.append_assoc]
    exact h₂
  · show Holds b name ⟨_, parametersOf groups ++ [], [], [], recorded, localBase, lines ++ []⟩ s
    rw [List.append_nil, List.append_nil]
    exact h
  · rintro - s' ⟨locals, htook, h'⟩
    exact ⟨locals, _, htook, h'⟩

/-- The head of a procedure comes to what its trees say. -/
theorem yields_procedureHead {recorded : Nat} {offset : Int} {lines : List String}
    (h : Holds b name ⟨{}, [], [], [], recorded, offset, lines⟩ s) :
    Yields (procedureHead name) s fun _ s' => ∃ parameters locals recorded offset,
      Took (parameterTerminals parameters ++ .kind .isWord ::
        locals.flatMap fun g => g.terminals ++ [.kind .semicolon]) s s' ∧
        Holds b name ⟨signatureOf parameters locals, parametersOf parameters ++ localsOf locals,
          [], [], recorded, offset, lines ++ headLines (b.depth + 1) parameters locals⟩ s' := by
  refine (h.yields_arguments hw hb).bind ?_
  rintro - s₁ ⟨parameters, recorded, htook₁, h₁⟩
  refine (yields_expect_kind (by decide) s₁).bind ?_
  rintro - s₂ ⟨honly₂, htook₂⟩
  refine yields_bind.mpr ?_
  have h₂ := h₁.onlyTokens honly₂
  have h₂ : Holds b name ⟨signatureOf parameters [], parametersOf parameters, [], [], recorded,
      localBase, _⟩ { s₂ with nextOffset := localBase } :=
    ⟨h₂.table, h₂.pending, h₂.recorded, rfl, h₂.lines, h₂.nodup⟩
  refine (h₂.yields_declarativePart hw hb).mono ?_
  rintro - s₃ ⟨locals, offset, htook₃, h₃⟩
  have htook₃ : Took _ s₂ s₃ := htook₃
  refine ⟨parameters, locals, recorded, offset, htook₁.trans (htook₂.trans htook₃), ?_⟩
  rw [headLines, map_line_parametersOf, map_line_localsOf, ← List.append_assoc]
  exact h₃

end Groups

end Progress.Holds

end ProcLang
