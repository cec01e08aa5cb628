import ProcLang.Analysis.Listing
import ProcLang.Analysis.State
import ProcLang.Proofs.ActivationRecord
import ProcLang.Proofs.Grammar

/-!
# What a procedure comes to

The tree of a procedure determines the symbols that it declares, with all their attributes
(`parametersOf`, `localsOf`, `Procedure.symbol`), and the lines on it in a listing
(`Procedure.render`). Both are said here without the steps of an analysis.
-/

namespace ProcLang

open Numeral (Value)

/-! ## Variables and constants -/

/-- A variable or constant: its name, how it is stored, and its value if it is a constant. -/
structure Datum where
  name : String
  storage : Storage
  value? : Option Value
  deriving DecidableEq, Repr

namespace Datum

/-- The attributes of a variable or constant. -/
def attributes (v : Datum) : Attributes :=
  match v.value? with
  | none => .var v.storage
  | some value => .const v.storage value

/-- The symbol of a variable or constant that is declared at a depth. -/
def symbol (v : Datum) (depth : Int) : Symbol := ⟨v.name, depth, v.attributes⟩

/-- What a local name is called in a listing. -/
def role (v : Datum) : String := if v.value?.isSome then "constant" else "variable"

/-- The variable or constant as a parameter. -/
def asParameter (v : Datum) : Datum := { v with storage := { v.storage with isParameter := true } }

/-- The variable or constant at an offset. -/
def placedAt (v : Datum) (offset : Int) : Datum :=
  { v with storage := { v.storage with offset := offset } }

/-- Variables and constants placed one behind the other from an offset on. -/
def placeFrom : Int → List Datum → List Datum
  | _, [] => []
  | offset, v :: rest => v.placedAt offset :: placeFrom (offset + v.storage.size) rest

/-- The size of variables and constants together. -/
def totalSize (vs : List Datum) : Int := Storage.totalSize (vs.map storage)

variable {vs ws : List Datum} {offset : Int}

theorem map_storage_placeFrom :
    (placeFrom offset vs).map storage = Storage.placeFrom offset (vs.map storage) := by
  induction vs generalizing offset with
  | nil => rfl
  | cons v rest ih =>
    rw [placeFrom, List.map_cons, List.map_cons, Storage.placeFrom, ih]
    rfl

/-- To be placed changes nothing but the offset. -/
theorem exists_of_mem_placeFrom {v : Datum} (h : v ∈ placeFrom offset vs) :
    ∃ w ∈ vs, ∃ offset', v = w.placedAt offset' := by
  induction vs generalizing offset with
  | nil => exact absurd h List.not_mem_nil
  | cons w rest ih =>
    rcases List.mem_cons.mp h with rfl | h
    · exact ⟨w, List.mem_cons_self, offset, rfl⟩
    · obtain ⟨w', hm, hv⟩ := ih h
      exact ⟨w', List.mem_cons_of_mem _ hm, hv⟩

theorem placeFrom_append :
    placeFrom offset (vs ++ ws) = placeFrom offset vs ++ placeFrom (offset + totalSize vs) ws := by
  induction vs generalizing offset with
  | nil => simp [placeFrom, totalSize, Storage.totalSize]
  | cons v rest ih =>
    rw [List.cons_append, placeFrom, ih, placeFrom, List.cons_append, totalSize, totalSize,
      List.map_cons, Storage.totalSize_cons, Int.add_assoc]

theorem totalSize_append : totalSize (vs ++ ws) = totalSize vs + totalSize ws := by
  rw [totalSize, List.map_append, Storage.totalSize_append]
  rfl

theorem length_placeFrom : (placeFrom offset vs).length = vs.length := by
  rw [← List.length_map storage, map_storage_placeFrom, Storage.length_placeFrom, List.length_map]

theorem totalSize_nil : totalSize [] = 0 := rfl

theorem totalSize_cons (v : Datum) : totalSize (v :: vs) = v.storage.size + totalSize vs :=
  Storage.totalSize_cons ..

end Datum

/-! ## Declarations -/

namespace Mark

/-- The type that a mark gives. A constant is a float if its numeral has a point. -/
def type : Mark → ValueType
  | integer => .integer
  | float => .float
  | character => .character
  | constant numeral => if Numeral.hasPoint numeral then .float else .integer

/-- The value that a mark gives, if it is that of constants. -/
def value? : Mark → Option Value
  | constant numeral => (Value.parse numeral).toOption
  | _ => none

/-- What a mark makes of a name. -/
def datum (m : Mark) (y : String) : Datum := ⟨y, .ofType m.type, m.value?⟩

end Mark

/-- What a group declares. -/
def Group.data (g : Group) : List Datum := g.names.map g.mark.datum

/-- What a group of parameters declares. -/
def ParameterGroup.data (g : ParameterGroup) : List Datum := g.toGroup.data.map .asParameter

theorem ParameterGroup.length_data (g : ParameterGroup) : g.data.length = g.names.length := by
  unfold data Group.data
  rw [List.length_map, List.length_map]

/-- The mode of a group, which is `in` if it is left out. -/
def ParameterGroup.mode (g : ParameterGroup) : Mode := g.mode?.getD .input

/-- The parameters of a procedure, placed above the header, the last one lowest. -/
def parametersOf (groups : List ParameterGroup) : List Datum :=
  (Datum.placeFrom headerSize (groups.flatMap ParameterGroup.data).reverse).reverse

/-- The local names of a procedure, placed one behind the other. -/
def localsOf (groups : List Group) : List Datum :=
  Datum.placeFrom localBase (groups.flatMap Group.data)

/-- The part of a signature that is known from the groups of parameters one by one. -/
def recordedSignature (groups : List ParameterGroup) : Signature where
  types := groups.flatMap fun g => g.names.map fun _ => g.mark.type
  modes := groups.flatMap fun g => g.names.map fun _ => g.mode

/-- The signature of a procedure. -/
def signatureOf (parameters : List ParameterGroup) (locals : List Group) : Signature :=
  { recordedSignature parameters with
    parameterCount := (parameters.flatMap ParameterGroup.data).length
    parametersSize := Datum.totalSize (parameters.flatMap ParameterGroup.data)
    localsSize := Datum.totalSize (locals.flatMap Group.data) }

theorem localsOf_concat (groups : List Group) (g : Group) : localsOf (groups ++ [g]) =
    localsOf groups ++
      Datum.placeFrom (localBase + Datum.totalSize (groups.flatMap Group.data)) g.data := by
  unfold localsOf
  rw [List.flatMap_append, List.flatMap_singleton, Datum.placeFrom_append]

/-- Parameters and local names lie in the activation record as the signature says. -/
theorem laidOut_of (parameters : List ParameterGroup) (locals : List Group) :
    LaidOut ((parametersOf parameters).map Datum.storage) ((localsOf locals).map Datum.storage)
      (signatureOf parameters locals) := by
  have hps : ∀ p ∈ (parameters.flatMap ParameterGroup.data).map Datum.storage, p.IsSized := by
    intro p hp
    obtain ⟨v, hv, rfl⟩ := List.mem_map.mp hp
    obtain ⟨g, -, hv⟩ := List.mem_flatMap.mp hv
    obtain ⟨w, hw, rfl⟩ := List.mem_map.mp hv
    obtain ⟨y, -, rfl⟩ := List.mem_map.mp hw
    exact ⟨g.mark.type, rfl, rfl⟩
  have hvs : ∀ v ∈ (locals.flatMap Group.data).map Datum.storage, v.IsSized := by
    intro p hp
    obtain ⟨v, hv, rfl⟩ := List.mem_map.mp hp
    obtain ⟨g, -, hv⟩ := List.mem_flatMap.mp hv
    obtain ⟨y, -, rfl⟩ := List.mem_map.mp hv
    exact ⟨g.mark.type, rfl, rfl⟩
  have hlaid := laidOut_placeFrom (g := signatureOf parameters locals) hps hvs
    (by rw [List.length_map]; rfl) rfl rfl
  unfold parametersOf localsOf
  rw [List.map_reverse, Datum.map_storage_placeFrom, List.map_reverse,
    Datum.map_storage_placeFrom]
  exact hlaid

/-! ## Lines -/

/-- The line on a declaration. -/
def declaredLine (role : String) (s : Symbol) : String := s!"  Declared {role}: {s.row}"

/-- The lines on the declarations of a head. -/
def headLines (depth : Int) (parameters : List ParameterGroup) (locals : List Group) :
    List String :=
  (parametersOf parameters).map (fun p => declaredLine "parameter" (p.symbol depth)) ++
    (localsOf locals).map fun v => declaredLine v.role (v.symbol depth)

/-- The lines on the declarations of a scope, when it is about to be left. -/
def scopeLines (title : String) (depth : Int) (symbols : List Symbol) : List String :=
  [s!"--- {title} (depth {depth}) ---"] ++
    (if symbols = [] then ["  <empty>"] else symbols.map fun s => "  " ++ s.row) ++
    [s!"--- End of {title} ---"]

namespace Procedure

/-- The symbol of a procedure that is declared at a depth. -/
def symbol (depth : Int) : Procedure → Symbol
  | mk name parameters locals _ _ _ => ⟨name, depth, .func (signatureOf parameters locals)⟩

/-- What the scope of a procedure holds in the end, in the order of the declarations: parameters,
local names and nested procedures. -/
def scope (depth : Int) : Procedure → List Symbol
  | mk _ parameters locals nested _ _ =>
    (parametersOf parameters ++ localsOf locals).map (·.symbol depth) ++ nested.map (symbol depth)

mutual

/-- The lines on a procedure that is declared at a depth. -/
def render (depth : Int) : Procedure → List String
  | mk name parameters locals nested body closing =>
    [s!"Declared procedure: {name} (depth {depth})",
      s!"Entering procedure '{name}' scope (depth {depth + 1})"] ++
    headLines (depth + 1) parameters locals ++ renderAll (depth + 1) nested ++
    scopeLines s!"Procedure {name}" (depth + 1)
      (scope (depth + 1) (mk name parameters locals nested body closing)) ++
    [s!"Leaving procedure '{name}' scope (back to depth {depth})"]

/-- The lines on procedures, one behind the other. -/
def renderAll (depth : Int) : List Procedure → List String
  | [] => []
  | p :: ps => p.render depth ++ renderAll depth ps

end

/-- The listing of a program. -/
def listing (p : Procedure) : List String :=
  ["--- Begin analysis ---"] ++ p.render 0 ++ scopeLines "Global scope" 0 [p.symbol 0] ++
    ["--- Analysis completed without errors ---"]

/-- The lines on a procedure before its scope is closed. -/
def linesWithin (depth : Int) : Procedure → List String
  | mk name parameters locals nested _ _ =>
    [s!"Declared procedure: {name} (depth {depth})",
      s!"Entering procedure '{name}' scope (depth {depth + 1})"] ++
    headLines (depth + 1) parameters locals ++ renderAll (depth + 1) nested

theorem render_eq (depth : Int) (p : Procedure) :
    p.render depth = p.linesWithin depth ++
      scopeLines s!"Procedure {p.name}" (depth + 1) (p.scope (depth + 1)) ++
      [s!"Leaving procedure '{p.name}' scope (back to depth {depth})"] := by
  cases p
  rw [render]
  rfl

theorem terminalsOfAll_eq (ps : List Procedure) : terminalsOfAll ps = ps.flatMap terminals := by
  induction ps with
  | nil => rfl
  | cons p ps ih => rw [terminalsOfAll, ih, List.flatMap_cons]

/-- The terminals of a procedure behind the word `is`. -/
def innerTerminals (locals : List Group) (nested : List Procedure) (body : List Assignment)
    (closing : String) : List Terminal :=
  locals.flatMap (fun g => g.terminals ++ [Terminal.kind .semicolon]) ++
    (nested.flatMap terminals ++ Terminal.kind .beginWord ::
      (body.flatMap Assignment.terminals ++
        [Terminal.kind .endWord, Terminal.name closing, Terminal.kind .semicolon]))

theorem terminals_eq_inner (name : String) (parameters : List ParameterGroup)
    (locals : List Group) (nested : List Procedure) (body : List Assignment) (closing : String) :
    (mk name parameters locals nested body closing).terminals =
      .kind .procedureWord :: .name name :: (parameterTerminals parameters ++
        .kind .isWord :: innerTerminals locals nested body closing) := by
  simp [terminals, innerTerminals, terminalsOfAll_eq]

theorem renderAll_append (depth : Int) (ps qs : List Procedure) :
    renderAll depth (ps ++ qs) = renderAll depth ps ++ renderAll depth qs := by
  induction ps with
  | nil => rfl
  | cons p ps ih => rw [List.cons_append, renderAll, ih, renderAll, List.append_assoc]

theorem renderAll_singleton (depth : Int) (p : Procedure) :
    renderAll depth [p] = p.render depth := by
  rw [renderAll, renderAll, List.append_nil]

end Procedure

end ProcLang
