import ProcLang.Proofs.Language
import ProcLang.Proofs.Rendering
import ProcLang.Proofs.Unambiguity
import ProcLang.Proofs.Unwinding

/-!
# Groups of declarations

Names can be declared in groups or one by one. A procedure whose groups are split (`ungrouped`)
obeys the rules exactly if the procedure does, and it has the same symbols and lines. A run over
tokens of texts that succeeds ends as the tree of its tokens says (`Analysis.ends_as_program`), so
it ends in the same way over the tokens with the groups split (`Analysis.grouping_irrelevant`).
-/

namespace ProcLang

/-! ## Split groups -/

/-- Groups of one name each. -/
def Group.split (g : Group) : List Group := g.names.map fun y => ⟨y, [], g.mark⟩

/-- Groups of one name each, with the mode of the group. -/
def ParameterGroup.split (g : ParameterGroup) : List ParameterGroup :=
  g.toGroup.split.map fun h => ⟨h, g.mode?⟩

section Split

variable {α : Type} {parameters : List ParameterGroup} {locals : List Group}

/-- What is made of the names one by one is not changed by splitting. -/
theorem Group.flatMap_split {f : Group → List α} (item : Mark → String → α)
    (hf : ∀ g, f g = g.names.map (item g.mark)) :
    (locals.flatMap split).flatMap f = locals.flatMap f := by
  rw [List.flatMap_assoc]
  refine List.flatMap_congr fun g _ => ?_
  rw [split, List.flatMap_map, hf g, List.map_eq_flatMap]
  exact List.flatMap_congr fun y _ => hf _

theorem ParameterGroup.flatMap_split {f : ParameterGroup → List α}
    (item : Option Mode → Mark → String → α)
    (hf : ∀ g : ParameterGroup, f g = g.names.map (item g.mode? g.mark)) :
    (parameters.flatMap split).flatMap f = parameters.flatMap f := by
  rw [List.flatMap_assoc]
  refine List.flatMap_congr fun g _ => ?_
  rw [split, Group.split, List.map_map, List.flatMap_map, hf g, List.map_eq_flatMap]
  exact List.flatMap_congr fun y _ => hf _

theorem Group.flatMap_data_split : (locals.flatMap split).flatMap data = locals.flatMap data :=
  flatMap_split (fun m y => m.datum y) fun _ => rfl

theorem ParameterGroup.flatMap_data_split :
    (parameters.flatMap split).flatMap data = parameters.flatMap data := by
  refine flatMap_split (fun _ m y => (m.datum y).asParameter) fun g => ?_
  unfold data Group.data
  rw [List.map_map]
  rfl

theorem headNames_split :
    Procedure.headNames (parameters.flatMap ParameterGroup.split) (locals.flatMap Group.split) =
      Procedure.headNames parameters locals := by
  unfold Procedure.headNames
  rw [ParameterGroup.flatMap_split (fun _ _ y => y) fun g => (List.map_id' g.names).symm,
    Group.flatMap_split (fun _ y => y) fun g => (List.map_id' g.names).symm]

theorem recordedSignature_split :
    recordedSignature (parameters.flatMap ParameterGroup.split) =
      recordedSignature parameters := by
  unfold recordedSignature
  rw [ParameterGroup.flatMap_split (f := fun g => g.names.map fun _ => g.mark.type)
      (fun _ m _ => m.type) fun _ => rfl,
    ParameterGroup.flatMap_split (f := fun g => g.names.map fun _ => g.mode)
      (fun mode? _ _ => mode?.getD .input) fun _ => rfl]

theorem signatureOf_split :
    signatureOf (parameters.flatMap ParameterGroup.split) (locals.flatMap Group.split) =
      signatureOf parameters locals := by
  unfold signatureOf
  rw [recordedSignature_split, ParameterGroup.flatMap_data_split, Group.flatMap_data_split]

theorem parametersOf_split :
    parametersOf (parameters.flatMap ParameterGroup.split) = parametersOf parameters := by
  unfold parametersOf
  rw [ParameterGroup.flatMap_data_split]

theorem localsOf_split : localsOf (locals.flatMap Group.split) = localsOf locals := by
  unfold localsOf
  rw [Group.flatMap_data_split]

/-- The same marks occur. -/
theorem Group.forall_mark_split {P : Mark → Prop} :
    (∀ g ∈ locals.flatMap split, P g.mark) ↔ ∀ g ∈ locals, P g.mark := by
  constructor
  · intro h g hg
    exact h ⟨g.first, [], g.mark⟩
      (List.mem_flatMap.mpr ⟨g, hg, List.mem_map_of_mem List.mem_cons_self⟩)
  · intro h g hg
    obtain ⟨g', hg', hg⟩ := List.mem_flatMap.mp hg
    obtain ⟨y, -, rfl⟩ := List.mem_map.mp hg
    exact h g' hg'

theorem ParameterGroup.forall_mark_split {P : Mark → Prop} :
    (∀ g ∈ parameters.flatMap split, P g.mark) ↔ ∀ g ∈ parameters, P g.mark := by
  have htoGroup : ∀ gs : List ParameterGroup,
      (∀ g ∈ gs, P g.mark) ↔ ∀ g ∈ gs.map toGroup, P g.mark :=
    fun gs => (List.forall_mem_map (P := fun g : Group => P g.mark)).symm
  have hsplit : (parameters.flatMap split).map toGroup =
      (parameters.map toGroup).flatMap Group.split := by
    rw [List.map_flatMap, List.flatMap_map]
    refine List.flatMap_congr fun g _ => ?_
    rw [split, List.map_map]
    exact List.map_id _
  rw [htoGroup, hsplit, Group.forall_mark_split, htoGroup]

end Split

/-! ## Split procedures -/

namespace Procedure

mutual

/-- The procedure with all its groups split, those of the procedures nested in it too. -/
def ungrouped : Procedure → Procedure
  | mk name parameters locals nested body closing =>
    mk name (parameters.flatMap ParameterGroup.split) (locals.flatMap Group.split)
      (ungroupedAll nested) body closing

/-- Procedures with all their groups split. -/
def ungroupedAll : List Procedure → List Procedure
  | [] => []
  | p :: ps => p.ungrouped :: ungroupedAll ps

end

theorem ungroupedAll_eq_map (ps : List Procedure) : ungroupedAll ps = ps.map ungrouped := by
  induction ps with
  | nil => rfl
  | cons p ps ih => rw [ungroupedAll, ih, List.map_cons]

theorem name_ungrouped (p : Procedure) : p.ungrouped.name = p.name := by
  cases p
  rw [ungrouped]
  rfl

theorem map_name_ungroupedAll (ps : List Procedure) : (ungroupedAll ps).map name = ps.map name := by
  rw [ungroupedAll_eq_map, List.map_map]
  exact List.map_congr_left fun p _ => p.name_ungrouped

theorem symbol_ungrouped (p : Procedure) (depth : Int) :
    p.ungrouped.symbol depth = p.symbol depth := by
  cases p
  rw [ungrouped, symbol, symbol, signatureOf_split]

theorem scope_ungrouped (p : Procedure) (depth : Int) :
    p.ungrouped.scope depth = p.scope depth := by
  cases p
  rw [ungrouped, scope, scope, parametersOf_split, localsOf_split, ungroupedAll_eq_map,
    List.map_map]
  congr 1
  exact List.map_congr_left fun q _ => q.symbol_ungrouped _

mutual

theorem render_ungrouped (depth : Int) : ∀ p : Procedure,
    p.ungrouped.render depth = p.render depth
  | mk name parameters locals nested body closing => by
    have hscope := (mk name parameters locals nested body closing).scope_ungrouped (depth + 1)
    rw [ungrouped] at hscope ⊢
    rw [render, render, hscope, renderAll_ungroupedAll (depth + 1) nested, headLines, headLines,
      parametersOf_split, localsOf_split]

theorem renderAll_ungroupedAll (depth : Int) : ∀ ps : List Procedure,
    renderAll depth (ungroupedAll ps) = renderAll depth ps
  | [] => rfl
  | p :: ps => by
    rw [ungroupedAll, renderAll, renderAll, render_ungrouped depth p,
      renderAll_ungroupedAll depth ps]

end

theorem listing_ungrouped (p : Procedure) : p.ungrouped.listing = p.listing := by
  rw [listing, listing, render_ungrouped, symbol_ungrouped]

mutual

/-- The rules do not depend on the groups. -/
theorem obeys_ungrouped (around : String → Prop) : ∀ p : Procedure,
    p.ungrouped.Obeys around ↔ p.Obeys around
  | mk name parameters locals nested body closing => by
    rw [ungrouped, Obeys, Obeys, headNames_split, map_name_ungroupedAll,
      ParameterGroup.forall_mark_split (P := Mark.HasValue),
      Group.forall_mark_split (P := Mark.HasValue), allObey_ungroupedAll _ nested]

theorem allObey_ungroupedAll (around : String → Prop) : ∀ ps : List Procedure,
    AllObey around (ungroupedAll ps) ↔ AllObey around ps
  | [] => Iff.rfl
  | p :: ps => by
    rw [ungroupedAll, AllObey, AllObey, obeys_ungrouped around p, name_ungrouped,
      allObey_ungroupedAll _ ps]

end

end Procedure

/-! ## Tables with one procedure -/

/-- A table that extends the empty one by some symbols of the outermost scope has no others. -/
theorem SymbolTable.Extends.symbolsOf_entries {t : SymbolTable} {new : List Symbol}
    (h : Extends .empty t new) : t.symbolsOf t.entries = new := by
  obtain ⟨hs, hentries, hsymbols⟩ := h.entries
  have hall : ∀ d, t.namesAt.get d ≠ [] → d ∈ [outermostDepth] := by
    intro d hd
    obtain ⟨y, hy⟩ := List.exists_mem_of_ne_nil _ hd
    obtain ⟨x, hx, hdepth⟩ := h.wellFormed.filed.mp hy
    have hle : d ≤ outermostDepth := hdepth ▸ Int.le_trans (h.bounded y x hx) (Int.le_of_eq h.depth)
    rcases Int.lt_or_eq_of_le hle with hlt | rfl
    · have hmem : x ∈ t.entriesAt d := h.wellFormed.mem_entriesAt_iff.mpr ⟨y, hx, hdepth⟩
      rw [h.around d hlt] at hmem
      exact absurd hmem List.not_mem_nil
    · exact List.mem_singleton_self _
  rw [h.wellFormed.entries_eq (List.pairwise_singleton _ _) hall, List.flatMap_singleton,
    ← hsymbols]
  exact congrArg t.symbolsOf hentries

/-- The tokens of a text, the end token left out. -/
def Lexer.innerTokens (text : String) : List Token :=
  ((tokenize text).toOption.getD []).filter fun t => t.kind ≠ .endOfInput

theorem Lexer.isInner_of_mem_innerTokens {text : String} {t : Token} (h : t ∈ innerTokens text) :
    t.IsInner := by
  obtain ⟨ht, hk⟩ := List.mem_filter.mp h
  cases hts : tokenize text with
  | error e =>
    rw [hts] at ht
    exact absurd ht List.not_mem_nil
  | ok ts =>
    rw [hts] at ht
    exact Token.isInner_of_tokenize hts ht (by simpa using hk)

namespace Analysis

variable {source source' last last' : TokenSource} {ts ts' : List Token} {line line' : Int}
  {p : Procedure}

/-! ## Runs -/

/-- A run that succeeds over tokens of a procedure leaves the symbol of the procedure, and its
listing is that of the procedure. -/
theorem ends_as_program {tracing : Bool} (hp : Spells ts p.terminals) (hts : ∀ t ∈ ts, t.IsInner)
    (hs : source.Supplies (ts ++ [.endOfInput line]) last)
    (h : (Outcome.ofSource source tracing).failure = none) :
    (Outcome.ofSource source tracing).entries = [p.symbol 0] ∧
      (Outcome.ofSource source tracing).listing = p.listing := by
  obtain ⟨q, ⟨us, hmatched, hread⟩, htable, hlines⟩ :=
    (yields_program source tracing).of_ok (analysisSteps_of_success h)
  obtain rfl : us = ts := by
    rw [matched_of_success hs hts h] at hmatched
    exact (List.reverse_injective (hmatched.trans (List.append_nil _))).symm
  obtain rfl : q = p := Procedure.eq_of_spells
    ((readAll_iff_spells fun t ht => (hts t ht).1.plain (hts t ht).2).mp hread) hp
  exact ⟨htable.symbolsOf_entries, hlines⟩

/-- A run over tokens of a procedure succeeds exactly if the procedure obeys the rules. -/
theorem succeeds_iff_obeys {tracing : Bool} (hp : Spells ts p.terminals)
    (hts : ∀ t ∈ ts, t.IsInner) (hs : source.Supplies (ts ++ [.endOfInput line]) last) :
    (Outcome.ofSource source tracing).failure = none ↔ p.Obeys fun _ => False := by
  rw [succeeds_iff_readable hs hts, readable_iff fun t ht => (hts t ht).1.plain (hts t ht).2]
  constructor
  · rintro ⟨q, hobeys, hq⟩
    rwa [Procedure.eq_of_spells hp hq]
  · exact fun hobeys => ⟨p, hobeys, hp⟩

/-- It does not matter whether names are declared in groups or one by one. A run over tokens of a
procedure succeeds exactly if it does over tokens of the procedure with its groups split, and then
the declarations that are left and the listing are the same. -/
theorem grouping_irrelevant (tracing : Bool) (hp : Spells ts p.terminals)
    (hts : ∀ t ∈ ts, t.IsInner) (hs : source.Supplies (ts ++ [.endOfInput line]) last)
    (hp' : Spells ts' p.ungrouped.terminals) (hts' : ∀ t ∈ ts', t.IsInner)
    (hs' : source'.Supplies (ts' ++ [.endOfInput line']) last') :
    ((Outcome.ofSource source' tracing).failure = none ↔
      (Outcome.ofSource source tracing).failure = none) ∧
    ((Outcome.ofSource source tracing).failure = none →
      (Outcome.ofSource source' tracing).entries = (Outcome.ofSource source tracing).entries ∧
      (Outcome.ofSource source' tracing).listing = (Outcome.ofSource source tracing).listing) := by
  have hiff : (Outcome.ofSource source' tracing).failure = none ↔
      (Outcome.ofSource source tracing).failure = none := by
    rw [succeeds_iff_obeys hp' hts' hs', succeeds_iff_obeys hp hts hs, Procedure.obeys_ungrouped]
  refine ⟨hiff, fun h => ?_⟩
  obtain ⟨hentries, hlisting⟩ := ends_as_program hp hts hs h
  obtain ⟨hentries', hlisting'⟩ := ends_as_program hp' hts' hs' (hiff.mpr h)
  rw [hentries, hlisting, hentries', hlisting', Procedure.symbol_ungrouped,
    Procedure.listing_ungrouped]
  exact ⟨rfl, rfl⟩

/-- Two parameters and two constants. -/
def pairs : Procedure :=
  .mk "p" [⟨⟨"a", ["b"], .float⟩, some .inout⟩] [⟨"c", ["d"], .constant "2"⟩] [] [] "p"

theorem grouping_irrelevant_pairs :
    (Outcome.ofSource (.ofList (Lexer.innerTokens
        "procedure p(inout a: float; inout b: float) is c: const:= 2; d: const:= 2; begin end p;"))
          false).failure = none ∧
      (Outcome.ofSource (.ofList (Lexer.innerTokens
        "procedure p(inout a: float; inout b: float) is c: const:= 2; d: const:= 2; begin end p;"))
          false).entries =
        (Outcome.ofSource (.ofList (Lexer.innerTokens
          "procedure p(inout a, b: float) is c, d: const:= 2; begin end p;")) false).entries ∧
      (Outcome.ofSource (.ofList (Lexer.innerTokens
        "procedure p(inout a: float; inout b: float) is c: const:= 2; d: const:= 2; begin end p;"))
          false).listing =
        (Outcome.ofSource (.ofList (Lexer.innerTokens
          "procedure p(inout a, b: float) is c, d: const:= 2; begin end p;")) false).listing := by
  obtain ⟨line, last, hs⟩ := TokenSource.supplies_ofList (Lexer.innerTokens
    "procedure p(inout a, b: float) is c, d: const:= 2; begin end p;")
  obtain ⟨line', last', hs'⟩ := TokenSource.supplies_ofList (Lexer.innerTokens
    "procedure p(inout a: float; inout b: float) is c: const:= 2; d: const:= 2; begin end p;")
  have hp : Spells (Lexer.innerTokens
      "procedure p(inout a, b: float) is c, d: const:= 2; begin end p;") pairs.terminals := by
    decide +kernel
  have hp' : Spells (Lexer.innerTokens
      "procedure p(inout a: float; inout b: float) is c: const:= 2; d: const:= 2; begin end p;")
      pairs.ungrouped.terminals := by
    decide +kernel
  obtain ⟨hiff, hsame⟩ := grouping_irrelevant false hp (fun _ => Lexer.isInner_of_mem_innerTokens)
    hs hp' (fun _ => Lexer.isInner_of_mem_innerTokens) hs'
  have hnone : (Outcome.ofSource (.ofList (Lexer.innerTokens
      "procedure p(inout a, b: float) is c, d: const:= 2; begin end p;")) false).failure =
        none := by decide +kernel
  exact ⟨hiff.mpr hnone, hsame hnone⟩

end Analysis

end ProcLang
