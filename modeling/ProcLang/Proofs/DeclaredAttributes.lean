import ProcLang.Proofs.Closings
import ProcLang.Proofs.Faults
import ProcLang.Proofs.Patterns

/-!
# What declarations say

The symbol of a declared name has the attributes that its own group says (`Mark.Gives`). In a scope
that is about to be closed there are such symbols for the parameters and the local names, in the
order of their declaration, and the signature of the procedure has the types and modes of the
parameters (`DeclaredAs`, `Analysis.declared_as_written`).
-/

namespace ProcLang

open Numeral (Value IsNumeral)

/-- The number that a numeral without a point denotes in base ten. -/
def baseTen (numeral : String) : Nat :=
  Nat.ofDigits 10 (numeral.toList.reverse.map fun c => c.toNat - '0'.toNat)

/-- The attributes that a mark gives to a name, which is a parameter or a local name. Where it lies in
the activation record is left open. -/
inductive Mark.Gives (isParameter : Bool) : Mark → Attributes → Prop
  | integer {offset : Int} :
    Gives isParameter .integer (.var ⟨some .integer, 2, offset, isParameter⟩)
  | float {offset : Int} : Gives isParameter .float (.var ⟨some .float, 4, offset, isParameter⟩)
  | character {offset : Int} :
    Gives isParameter .character (.var ⟨some .character, 1, offset, isParameter⟩)
  | whole {numeral : String} {offset : Int} : '.' ∉ numeral.toList →
    Gives isParameter (.constant numeral)
      (.const ⟨some .integer, 2, offset, isParameter⟩ (.integer (baseTen numeral)))
  | real {numeral : String} {offset : Int} {x : Numeral.Binary64} : '.' ∈ numeral.toList →
    Numeral.parseReal numeral = .ok x →
    Gives isParameter (.constant numeral) (.const ⟨some .float, 4, offset, isParameter⟩ (.real x))

/-- The names of a group with its mark. -/
def Group.declared (g : Group) : List (String × Mark) := g.names.map (·, g.mark)

/-- The symbol is of the name and has the attributes that its mark gives. -/
def Declares (isParameter : Bool) (d : String × Mark) (x : Symbol) : Prop :=
  x.name = d.1 ∧ d.2.Gives isParameter x.attributes

/-- The symbols of a scope are those of the parameters, of the local names and of the nested
procedures, and the signature of the procedure says of its parameters what they are. -/
structure DeclaredAs (groups : List ParameterGroup) (localGroups : List Group)
    (procedures : List Procedure) (ps ls fs : List Symbol) (g : Signature) : Prop where
  parameters : List.Forall₂ (Declares true) (groups.flatMap fun g => g.declared) ps
  locals : List.Forall₂ (Declares false) (localGroups.flatMap Group.declared) ls
  nested : fs.map Symbol.name = procedures.map Procedure.name
  distinct : ((ps ++ ls ++ fs).map Symbol.name).Nodup
  set : ∀ x ∈ ps ++ ls ++ fs, x.kind? ≠ none
  flag : ∀ x ∈ ps ++ ls ++ fs,
    x.isParameter = .ok true ↔ x.name ∈ groups.flatMap fun g => g.names
  types : g.types.map some = ps.map Symbol.valueType?
  /-- The modes are those written before the groups, and `in` where none is written. -/
  modes : g.modes = groups.flatMap fun g => g.names.map fun _ => g.mode?.getD .input
  count : g.parameterCount = ps.length ∧ g.types.length = ps.length ∧ g.modes.length = ps.length

/-! ## Marks with a value -/

namespace Mark

variable {m : Mark} {isParameter : Bool} {y : String} {offset : Int}

/-- If the mark is that of constants, its numeral is one of a text and has a value. -/
def IsEvaluated (m : Mark) : Prop :=
  ∀ numeral, m = .constant numeral → IsNumeral numeral.toList ∧ (Value.parse numeral).isOk

/-- The attributes of a constant with a numeral of a text. -/
theorem gives_constant {numeral : String} (h : IsEvaluated (.constant numeral)) :
    Gives isParameter (.constant numeral)
      (Datum.attributes ⟨y, ⟨some (constant numeral).type, (constant numeral).type.size, offset,
        isParameter⟩, (constant numeral).value?⟩) := by
  obtain ⟨hnumeral, hok⟩ := h numeral rfl
  obtain ⟨value, hvalue⟩ : ∃ value, Value.parse numeral = .ok value := by
    cases hp : Value.parse numeral with
    | ok value => exact ⟨value, rfl⟩
    | error e =>
      rw [hp] at hok
      cases hok
  have hsome : (constant numeral).value? = some value := congrArg Except.toOption hvalue
  rw [hsome]
  by_cases hpoint : '.' ∈ numeral.toList
  · have hhas : Numeral.hasPoint numeral = true := List.contains_iff_mem.mpr hpoint
    have htype : (constant numeral).type = .float := if_pos hhas
    unfold Value.parse at hvalue
    rw [if_pos hhas] at hvalue
    cases hx : Numeral.parseReal numeral with
    | error e =>
      rw [hx] at hvalue
      cases hvalue
    | ok x =>
      rw [hx] at hvalue
      cases hvalue
      rw [htype]
      exact .real hpoint hx
  · have hhas : Numeral.hasPoint numeral = false := by
      rw [Bool.eq_false_iff, Ne, Numeral.hasPoint, List.contains_iff_mem]
      exact hpoint
    have htype : (constant numeral).type = .integer := if_neg (by simp [hhas])
    have hdigits : numeral.toList ≠ [] ∧ ∀ c ∈ numeral.toList, c.isDigit := by
      obtain ⟨whole, fraction, hne, hwhole, -, hs | ⟨-, hs⟩⟩ := hnumeral
      · rw [hs]
        exact ⟨hne, hwhole⟩
      · exact absurd (hs ▸ List.mem_append_right _ List.mem_cons_self) hpoint
    unfold Value.parse at hvalue
    rw [if_neg (by simp [hhas])] at hvalue
    rw [Numeral.parseInteger_of_isDigit hdigits.1 hdigits.2] at hvalue
    split at hvalue
    · cases hvalue
    · cases hvalue
      rw [htype, Numeral.ofDigits_eq]
      exact .whole hpoint

theorem gives_datum (h : m.IsEvaluated) : m.Gives isParameter
    (Datum.attributes ⟨y, ⟨some m.type, m.type.size, offset, isParameter⟩, m.value?⟩) := by
  cases m with
  | integer => exact .integer
  | float => exact .float
  | character => exact .character
  | constant numeral => exact gives_constant h

end Mark

/-! ## Symbols of a head -/

section Head

variable {groups : List ParameterGroup} {localGroups : List Group} {depth offset : Int}

/-- Names with marks, placed one behind the other. -/
theorem forall₂_placeFrom {isParameter : Bool} {ds : List (String × Mark)} {vs : List Datum}
    (hds : ∀ d ∈ ds, d.2.IsEvaluated)
    (hvs : vs = ds.map fun d => ⟨d.1, { Storage.ofType d.2.type with isParameter }, d.2.value?⟩) :
    List.Forall₂ (Declares isParameter) ds ((Datum.placeFrom offset vs).map (·.symbol depth)) := by
  subst hvs
  induction ds generalizing offset with
  | nil => exact .nil
  | cons d ds ih =>
    obtain ⟨hd, hds⟩ := List.forall_mem_cons.mp hds
    exact .cons ⟨rfl, Mark.gives_datum hd⟩ (ih hds)

theorem flatMap_declared {groups : List Group} {isParameter : Bool} :
    (groups.flatMap fun g => g.names.map fun y =>
        (⟨y, { Storage.ofType g.mark.type with isParameter }, g.mark.value?⟩ : Datum)) =
      (groups.flatMap Group.declared).map fun d =>
        ⟨d.1, { Storage.ofType d.2.type with isParameter }, d.2.value?⟩ := by
  rw [List.map_flatMap]
  refine List.flatMap_congr fun g _ => ?_
  rw [Group.declared, List.map_map]
  rfl

theorem forall₂_localsOf (h : ∀ g ∈ localGroups, g.mark.IsEvaluated) :
    List.Forall₂ (Declares false) (localGroups.flatMap Group.declared)
      ((localsOf localGroups).map (·.symbol depth)) := by
  refine forall₂_placeFrom ?_ ?_
  · intro d hd
    obtain ⟨g, hg, hd⟩ := List.mem_flatMap.mp hd
    obtain ⟨y, -, rfl⟩ := List.mem_map.mp hd
    exact h g hg
  · rw [← flatMap_declared]
    rfl

/-- Parameters are placed from the last one on. -/
theorem forall₂_parametersOf (h : ∀ g ∈ groups, g.mark.IsEvaluated) :
    List.Forall₂ (Declares true) (groups.flatMap fun g => g.declared)
      ((parametersOf groups).map (·.symbol depth)) := by
  unfold parametersOf
  rw [List.map_reverse, ← List.forall₂_reverse_iff, List.reverse_reverse]
  refine forall₂_placeFrom ?_ ?_
  · intro d hd
    obtain ⟨g, hg, hd⟩ := List.mem_flatMap.mp (List.mem_reverse.mp hd)
    obtain ⟨y, -, rfl⟩ := List.mem_map.mp hd
    exact h g hg
  · rw [List.map_reverse]
    congr 1
    rw [List.map_flatMap]
    refine List.flatMap_congr fun g _ => ?_
    simp only [ParameterGroup.data, Group.data, Group.declared, List.map_map]
    rfl

theorem map_name_of_declares {isParameter : Bool} {ds : List (String × Mark)} {xs : List Symbol}
    (h : List.Forall₂ (Declares isParameter) ds xs) : xs.map Symbol.name = ds.map Prod.fst := by
  induction h with
  | nil => rfl
  | cons hd _ ih => rw [List.map_cons, List.map_cons, ih, hd.1]

/-- What a mark gives is set, and it is a parameter or not as it should be. -/
theorem of_declares {isParameter : Bool} {ds : List (String × Mark)} {xs : List Symbol}
    (h : List.Forall₂ (Declares isParameter) ds xs) {x : Symbol} (hx : x ∈ xs) :
    x.kind? ≠ none ∧ x.isParameter = .ok isParameter := by
  induction h with
  | nil => exact absurd hx List.not_mem_nil
  | @cons d x' ds xs hd _ ih =>
    rcases List.mem_cons.mp hx with rfl | hx
    · obtain ⟨name, depth, attributes⟩ := x
      obtain ⟨y, m⟩ := d
      obtain ⟨-, hgives⟩ := hd
      cases hgives <;> exact ⟨nofun, rfl⟩
    · exact ih hx

/-- The types of a signature are those of the parameters. -/
theorem map_type_parametersOf (groups : List ParameterGroup) (depth : Int) :
    (recordedSignature groups).types.map some =
      ((parametersOf groups).map (·.symbol depth)).map Symbol.valueType? := by
  have hplaced : ∀ (vs : List Datum) (offset : Int),
      (Datum.placeFrom offset vs).map (·.storage.type) = vs.map (·.storage.type) := by
    intro vs offset
    induction vs generalizing offset with
    | nil => rfl
    | cons v vs ih => rw [Datum.placeFrom, List.map_cons, List.map_cons, ih]; rfl
  have hsymbol : (Symbol.valueType? ∘ fun v : Datum => v.symbol depth) = (·.storage.type) :=
    funext fun v => v.valueType?_symbol depth
  rw [List.map_map, hsymbol, parametersOf, List.map_reverse, hplaced, List.map_reverse,
    List.reverse_reverse, recordedSignature, List.map_flatMap, List.map_flatMap]
  refine List.flatMap_congr fun g _ => ?_
  rw [ParameterGroup.data, Group.data, List.map_map, List.map_map, List.map_map]
  rfl

theorem Procedure.symbol_attributes (depth : Int) (q : Procedure) :
    ∃ g, (q.symbol depth).name = q.name ∧ (q.symbol depth).attributes = .func g := by
  obtain ⟨_, _, _, _, _, _⟩ := q
  exact ⟨_, rfl, rfl⟩

/-- The symbols of a tree are as its declarations say. -/
theorem declaredAs {procedures : List Procedure}
    (hgroups : ∀ g ∈ groups, g.mark.IsEvaluated) (hlocals : ∀ g ∈ localGroups, g.mark.IsEvaluated)
    (hdistinct : (((parametersOf groups).map (·.symbol depth) ++
      (localsOf localGroups).map (·.symbol depth) ++
      procedures.map (·.symbol depth)).map Symbol.name).Nodup) :
    DeclaredAs groups localGroups procedures ((parametersOf groups).map (·.symbol depth))
      ((localsOf localGroups).map (·.symbol depth)) (procedures.map (·.symbol depth))
      (signatureOf groups localGroups) := by
  have hps : List.Forall₂ (Declares true) _ ((parametersOf groups).map (·.symbol depth)) :=
    forall₂_parametersOf hgroups
  have hls : List.Forall₂ (Declares false) _ ((localsOf localGroups).map (·.symbol depth)) :=
    forall₂_localsOf hlocals
  have hfs : ∀ x ∈ procedures.map (·.symbol depth), ∃ g, x.attributes = .func g := by
    intro x hx
    obtain ⟨q, -, rfl⟩ := List.mem_map.mp hx
    obtain ⟨g, -, hg⟩ := q.symbol_attributes depth
    exact ⟨g, hg⟩
  have hnames : (groups.flatMap fun g => g.declared).map Prod.fst =
      groups.flatMap fun g => g.names := by
    rw [List.map_flatMap]
    exact List.flatMap_congr fun g _ => by simp [Group.declared, Function.comp_def]
  have hlength : (parametersOf groups).length = (groups.flatMap ParameterGroup.data).length := by
    rw [parametersOf, List.length_reverse, Datum.length_placeFrom, List.length_reverse]
  refine ⟨hps, hls, ?_, hdistinct, ?_, ?_, ?_, rfl, ?_⟩
  · rw [List.map_map]
    refine List.map_congr_left fun q _ => ?_
    obtain ⟨g, hname, -⟩ := q.symbol_attributes depth
    exact hname
  · intro x hx
    rcases List.mem_append.mp hx with hx | hx
    · rcases List.mem_append.mp hx with hx | hx
      · exact (of_declares hps hx).1
      · exact (of_declares hls hx).1
    · obtain ⟨g, hg⟩ := hfs x hx
      rw [Symbol.kind?, hg]
      exact nofun
  · intro x hx
    rw [← hnames, ← map_name_of_declares hps]
    rw [List.append_assoc, List.map_append, List.nodup_append] at hdistinct
    -- no other symbol has the name of a parameter
    have hother : x ∈ (localsOf localGroups).map (·.symbol depth) ++
        procedures.map (·.symbol depth) →
        x.name ∉ ((parametersOf groups).map (·.symbol depth)).map Symbol.name :=
      fun hx hm => hdistinct.2.2 _ hm _ (List.mem_map_of_mem hx) rfl
    rw [List.append_assoc] at hx
    rcases List.mem_append.mp hx with hx | hx
    · exact iff_of_true (of_declares hps hx).2 (List.mem_map_of_mem hx)
    · refine iff_of_false ?_ (hother hx)
      rcases List.mem_append.mp hx with hx | hx
      · rw [(of_declares hls hx).2]
        exact nofun
      · obtain ⟨g, hg⟩ := hfs x hx
        rw [Symbol.isParameter, if_pos (by rw [Symbol.kind?, hg]; rfl)]
        exact nofun
  · exact map_type_parametersOf groups depth
  · have hdata : ∀ {α : Type} (f : ParameterGroup → α),
        (groups.flatMap fun g => g.names.map fun _ => f g).length =
          (groups.flatMap ParameterGroup.data).length := by
      intro α f
      rw [List.length_flatMap, List.length_flatMap]
      exact congrArg List.sum (List.map_congr_left fun g _ => by
        rw [List.length_map, ParameterGroup.length_data])
    rw [List.length_map, hlength]
    exact ⟨rfl, hdata _, hdata _⟩

end Head

/-! ## Marks in the terminals of a tree -/

section Marks

variable {parameters : List ParameterGroup} {locals : List Group} {nested : List Procedure}
  {body : List Assignment} {name closing : String} {ws : List Terminal} {ts : List Token}

theorem Group.infix_terminals (g : Group) : g.mark.terminals <:+: g.terminals :=
  ⟨.name g.first :: g.more.flatMap (fun y => [.kind .comma, .name y]) ++ [.kind .colon], [],
    by simp [terminals]⟩

theorem ParameterGroup.infix_terminals (g : ParameterGroup) :
    g.mark.terminals <:+: g.terminals :=
  g.toGroup.infix_terminals.trans (List.suffix_append _ _).isInfix

theorem infix_parameterTerminals {g : ParameterGroup} (hg : g ∈ parameters) :
    g.mark.terminals <:+: parameterTerminals parameters := by
  cases parameters with
  | nil => exact absurd hg List.not_mem_nil
  | cons first more =>
    rcases List.mem_cons.mp hg with rfl | hg
    · refine g.infix_terminals.trans ⟨[.kind .leftParen],
        more.flatMap (fun g => .kind .semicolon :: g.terminals) ++ [.kind .rightParen], ?_⟩
      simp [parameterTerminals]
    · have hmore : .kind .semicolon :: g.terminals <:+:
          more.flatMap fun g => .kind .semicolon :: g.terminals :=
        List.infix_of_mem_flatten (List.mem_map_of_mem hg)
      refine (g.infix_terminals.trans (List.suffix_cons _ _).isInfix).trans (hmore.trans
        ⟨.kind .leftParen :: first.terminals, [.kind .rightParen], ?_⟩)
      simp [parameterTerminals]

theorem infix_of_parameter {g : ParameterGroup} (hg : g ∈ parameters) : g.mark.terminals <:+:
    (Procedure.mk name parameters locals nested body closing).terminals := by
  rw [Procedure.terminals_eq_inner]
  exact (infix_parameterTerminals hg).trans ⟨[.kind .procedureWord, .name name],
    .kind .isWord :: Procedure.innerTerminals locals nested body closing, by simp⟩

theorem infix_of_local {g : Group} (hg : g ∈ locals) : g.mark.terminals <:+:
    (Procedure.mk name parameters locals nested body closing).terminals := by
  have hgroups : g.terminals ++ [.kind .semicolon] <:+:
      locals.flatMap fun g => g.terminals ++ [.kind .semicolon] :=
    List.infix_of_mem_flatten (List.mem_map_of_mem hg)
  have hinner : g.mark.terminals <:+: Procedure.innerTerminals locals nested body closing :=
    (g.infix_terminals.trans (List.prefix_append _ _).isInfix).trans
      (hgroups.trans (List.prefix_append _ _).isInfix)
  rw [Procedure.terminals_eq_inner]
  exact hinner.trans ⟨.kind .procedureWord :: .name name ::
    (parameterTerminals parameters ++ [.kind .isWord]), [], by simp⟩

theorem exists_readAll_of_infix {vs : List Terminal} (h : ReadAll ws ts) (hvs : vs <:+: ws) :
    ∃ before us behind, ts = before ++ us ++ behind ∧ ReadAll vs us := by
  obtain ⟨u, v, rfl⟩ := hvs
  have hleft := List.forall₂_take_append ts (u ++ vs) v h.flip
  have hmid := List.forall₂_drop_append _ u vs hleft
  refine ⟨(ts.take (u ++ vs).length).take u.length, (ts.take (u ++ vs).length).drop u.length,
    ts.drop (u ++ vs).length, ?_, hmid.flip⟩
  rw [List.take_append_drop, List.take_append_drop]

/-- The numerals of constants have been taken, so they have values. -/
theorem isEvaluated_of_infix {m : Mark} {before : List Token} {frames : List Frame}
    (hscanned : ∀ t ∈ before ++ ts, t.IsScanned)
    (htaken : takeAll [] [.base []] (before ++ ts) = .ok frames) (hread : ReadAll ws ts)
    (hm : m.terminals <:+: ws) : m.IsEvaluated := by
  rintro numeral rfl
  obtain ⟨before', us, behind, rfl, hus⟩ := exists_readAll_of_infix hread hm
  obtain ⟨c, us₁, hc, hus₁, rfl⟩ := List.forall₂_cons_left_iff.mp hus
  obtain ⟨a, us₂, ha, hus₂, rfl⟩ := List.forall₂_cons_left_iff.mp hus₁
  obtain ⟨n, us₃, ⟨hn, rfl⟩, hus₃, rfl⟩ := List.forall₂_cons_left_iff.mp hus₂
  obtain rfl := List.forall₂_nil_left_iff.mp hus₃
  have hc := (Token.readAs_kind_iff (by decide) c).mp hc
  have ha := (Token.readAs_kind_iff (by decide) a).mp ha
  rw [show before ++ (before' ++ [c, a, n] ++ behind) =
    (before ++ before' ++ [c, a]) ++ n :: behind by simp] at hscanned htaken
  have hscannedN := hscanned n (by simp)
  obtain ⟨frames₁, frames₂, hframes, htake⟩ := exists_take_of_takeAll htaken
  obtain ⟨f, rest, gs, rfl, hf⟩ := exists_literal_of_takeAll
    (fun t ht => hscanned t (List.mem_append_left _ ht)) hc ha hframes
  refine ⟨?_, ?_⟩
  · rcases hscannedN.hasKind with ⟨line, rfl⟩ | hkind
    · cases hn
    · exact (hn ▸ hkind).isNumeral
  by_contra hno
  rw [Analysis.take_literal hf hscannedN ((hscannedN.isLongNumber_iff hn).mpr hno)] at htake
  cases htake

end Marks

namespace Analysis

variable {b b' s : State} {name : String} {source : TokenSource} {tracing : Bool}

/-- Where a scope is about to be closed in the analysis of tokens of texts, its symbols and the
signature of its procedure are as the tree that was read declares them. -/
theorem declared_as_written
    (hsource : ∀ ts last, source.Supplies ts last → ∀ t ∈ ts, t.IsScanned)
    (hbegun : Begun (.ofSource source tracing) b)
    (h : Closes (b.source.bound + 1) b b' name s) :
    ∃ (parameters : List ParameterGroup) (locals : List Group) (nested : List Procedure)
      (body : List Assignment) (closing : String) (ps ls fs : List Symbol) (f : Handle)
      (g : Signature),
      Took (Procedure.mk name parameters locals nested body closing).terminals b' s ∧
      s.table.symbolsOf (s.table.entriesAt s.table.depth) = ps ++ ls ++ fs ∧
      s.table.lookupAt? name (s.table.depth - 1) = some f ∧
      s.table.symbol f = ⟨name, s.table.depth - 1, .func g⟩ ∧
      DeclaredAs parameters locals nested ps ls fs g := by
  have hdistinct := h.nodup hbegun
  obtain ⟨ts, mid, frames, hmatched, hsupply, htaken⟩ := h.exists_taken hbegun
  obtain ⟨⟨y, parameters, locals, nested, body, closing⟩, rfl, hfilled⟩ :=
    h.exists_filled hbegun.ready
  have hdepth : s.table.depth - 1 = b'.table.depth := by
    rw [hfilled.depth]
    omega
  have hscope : s.table.symbolsOf (s.table.entriesAt s.table.depth) =
      (parametersOf parameters).map (·.symbol (b'.table.depth + 1)) ++
        (localsOf locals).map (·.symbol (b'.table.depth + 1)) ++
        nested.map (·.symbol (b'.table.depth + 1)) := by
    rw [hfilled.scope, Procedure.scope, List.map_append]
  rw [hscope] at hdistinct
  obtain ⟨us, hus, hread⟩ := hfilled.took
  have hall : ts = b'.matched.reverse ++ us := by
    rw [← List.reverse_reverse ts, ← hmatched, hus, List.reverse_append, List.reverse_reverse]
  rw [hall] at hsupply htaken
  have hmarks : ∀ m : Mark, m.terminals <:+:
      (Procedure.mk y parameters locals nested body closing).terminals → m.IsEvaluated :=
    fun m hm => isEvaluated_of_infix (hsource _ _ hsupply) htaken hread hm
  obtain ⟨f, hf, hsymbol⟩ := hfilled.own
  exact ⟨parameters, locals, nested, body, closing, _, _, _, f, _, hfilled.took, hscope, hdepth ▸ hf,
    hsymbol.trans (by rw [hdepth]; rfl),
    declaredAs (fun g hg => hmarks _ (infix_of_parameter hg))
      (fun g hg => hmarks _ (infix_of_local hg)) hdistinct⟩

/-- A procedure with parameters of two groups and a constant. -/
theorem declared_as_written_outermost : ∃ b s,
    Begun (.ofSource (.ofText
      "procedure p(a : float; out b : integer) is c : const := 12; begin end p;") false) b ∧
    Closes (b.source.bound + 1) b b "p" s ∧
    ∃ (parameters : List ParameterGroup) (locals : List Group) (nested : List Procedure)
      (body : List Assignment) (closing : String) (ps ls fs : List Symbol) (f : Handle)
      (g : Signature),
      Took (Procedure.mk "p" parameters locals nested body closing).terminals b s ∧
      s.table.symbolsOf (s.table.entriesAt s.table.depth) = ps ++ ls ++ fs ∧
      s.table.lookupAt? "p" (s.table.depth - 1) = some f ∧
      s.table.symbol f = ⟨"p", s.table.depth - 1, .func g⟩ ∧
      DeclaredAs parameters locals nested ps ls fs g := by
  have hread : EStateM.run' (outermostUpTo procedureBody) (.ofSource (.ofText
      "procedure p(a : float; out b : integer) is c : const := 12; begin end p;") false) =
        some ("p", some (.endOfInput 1)) := by decide +kernel
  obtain ⟨b, s, hbegun, hcloses, -⟩ := exists_reaches hread
  exact ⟨b, s, hbegun, hcloses,
    declared_as_written (fun ts last hs => (hs.of_text rfl).2) hbegun hcloses⟩

end Analysis

end ProcLang
