import ProcLang.Proofs.Additions
import ProcLang.Proofs.Attributing
import ProcLang.Proofs.Consuming
import ProcLang.Proofs.ProgramTree

/-!
# Progress in the head of a procedure

While the head of a procedure is read its names are declared, attributed and placed, and lines are
entered into the listing. How far this has come is a `Progress`, which says what the state holds
(`Progress.Holds`). Here are the steps that take no tokens: each of them makes the progress that its
name says.
-/

namespace ProcLang

/-! ## Operations on the symbol of a variable or constant -/

namespace Datum

variable (v : Datum) (depth offset : Int)

theorem setOffset_symbol :
    (v.symbol depth).setOffset offset = .ok ((v.placedAt offset).symbol depth) := by
  obtain ⟨name, storage, value?⟩ := v
  cases value? <;> rfl

theorem setParameter_symbol :
    (v.symbol depth).setParameter true = .ok (v.asParameter.symbol depth) := by
  obtain ⟨name, storage, value?⟩ := v
  cases value? <;> rfl

theorem size_symbol : (v.symbol depth).size = .ok v.storage.size := by
  obtain ⟨name, storage, value?⟩ := v
  cases value? <;> rfl

theorem isParameter_symbol : (v.symbol depth).isParameter = .ok v.storage.isParameter := by
  obtain ⟨name, storage, value?⟩ := v
  cases value? <;> rfl

theorem valueType?_symbol : (v.symbol depth).valueType? = v.storage.type := by
  obtain ⟨name, storage, value?⟩ := v
  cases value? <;> rfl

theorem kind?_symbol : (v.symbol depth).kind? ≠ some .func := by
  obtain ⟨name, storage, value?⟩ := v
  cases value? <;> exact fun h => by cases h

theorem giveAttributes_symbol (attributes : Attributes) :
    (v.symbol depth).giveAttributes attributes = v.symbol depth := by
  obtain ⟨name, storage, value?⟩ := v
  cases value? <;> rfl

/-- The line on the declaration of a variable or constant. -/
def line : String :=
  declaredLine (if v.storage.isParameter then "parameter" else v.role) (v.symbol depth)

theorem role_symbol :
    (v.symbol depth).role = if v.storage.isParameter then "parameter" else v.role := by
  obtain ⟨name, ⟨type, size, offset, _ | _⟩, value?⟩ := v <;> cases value? <;> rfl

end Datum

/-! ## Signatures and listings -/

/-- A signature with parameters of the types added, all of the mode. -/
def Signature.addParameters (g : Signature) (types : List ValueType) (mode : Mode) : Signature :=
  { g with types := g.types ++ types, modes := g.modes ++ types.map fun _ => mode }

@[simp] theorem Signature.addParameters_nil (g : Signature) (mode : Mode) :
    g.addParameters [] mode = g := by
  simp [addParameters]

theorem Signature.addParameters_cons (g : Signature) (type : ValueType) (types : List ValueType)
    (mode : Mode) :
    g.addParameters (type :: types) mode = (g.addParameter type mode).addParameters types mode := by
  simp [addParameters, addParameter]

theorem listingLines_push (entries : Array Entry) (e : Entry) :
    listingLines (entries.push e).toList = listingLines entries.toList ++ e.lines := by
  unfold listingLines
  rw [Array.toList_push, List.flatMap_append, List.flatMap_singleton]

/-! ## Progress -/

/-- How far the head of a procedure has been read: what its signature holds, which variables and
constants have been placed, which have their attributes and are still pending, and which names have
no attributes yet. -/
structure Progress where
  signature : Signature
  placed : List Datum
  waiting : List Datum
  fresh : List String
  recorded : Nat
  nextOffset : Int
  lines : List String

namespace Progress

/-- The names that have been declared. -/
def names (p : Progress) : List String :=
  (p.placed ++ p.waiting).map Datum.name ++ p.fresh

/-- The symbols that have been declared. -/
def symbols (p : Progress) (depth : Int) : List Symbol :=
  (p.placed ++ p.waiting).map (·.symbol depth) ++ p.fresh.map (⟨·, depth, .unset⟩)

/-- The handle of the `i`-th pending name, in a scope that was opened in the table `b`. -/
def handle (b : SymbolTable) (p : Progress) (i : Nat) : Handle :=
  b.symbols.size + 1 + p.placed.length + i

/-- In a scope that was opened in the table `b` for a procedure of the name, the state has come as
far as the progress says. -/
structure Holds (b : SymbolTable) (name : String) (p : Progress) (s : State) : Prop where
  table : s.table = b.scopeTable name p.signature (p.symbols (b.depth + 1))
  pending : s.pending = List.range' (p.handle b 0) (p.waiting.length + p.fresh.length)
  recorded : s.recorded = p.recorded
  nextOffset : s.nextOffset = p.nextOffset
  lines : listingLines s.listing.toList = p.lines
  nodup : p.names.Nodup

variable {b : SymbolTable} {name : String} {p : Progress} {s s' : State}

theorem map_name_symbols (p : Progress) (depth : Int) :
    (p.symbols depth).map Symbol.name = p.names := by
  unfold symbols names
  rw [List.map_append, List.map_map, List.map_map]
  exact congrArg _ (List.map_id _)

theorem depth_of_mem_symbols {depth : Int} {x : Symbol} (h : x ∈ p.symbols depth) :
    x.depth = depth := by
  rcases List.mem_append.mp h with h | h
  · obtain ⟨v, -, rfl⟩ := List.mem_map.mp h
    rfl
  · obtain ⟨y, -, rfl⟩ := List.mem_map.mp h
    rfl

theorem kind?_of_mem_symbols {depth : Int} {x : Symbol} (h : x ∈ p.symbols depth) :
    x.kind? ≠ some .func := by
  rcases List.mem_append.mp h with h | h
  · obtain ⟨v, -, rfl⟩ := List.mem_map.mp h
    exact v.kind?_symbol depth
  · obtain ⟨y, -, rfl⟩ := List.mem_map.mp h
    exact fun h => by cases h

theorem length_symbols (depth : Int) :
    (p.symbols depth).length = p.placed.length + p.waiting.length + p.fresh.length := by
  unfold symbols
  rw [List.length_append, List.length_map, List.length_map, List.length_append]

theorem symbols_fresh_concat (p : Progress) (depth : Int) (y : String) :
    symbols { p with fresh := p.fresh ++ [y] } depth =
      p.symbols depth ++ [⟨y, depth, .unset⟩] := by
  simp [symbols]

namespace Holds

theorem onlyTokens (h : p.Holds b name s) (ht : Analysis.OnlyTokens s s') : p.Holds b name s' := by
  obtain ⟨source, current, matched, rfl⟩ := ht
  exact ⟨h.table, h.pending, h.recorded, h.nextOffset, h.lines, h.nodup⟩

theorem depth (h : p.Holds b name s) : s.table.depth = b.depth + 1 := by
  rw [h.table, SymbolTable.depth_scopeTable]

open Analysis

/-! ### Single symbols -/

section Single

variable {old rest : List Datum} {v v' : Datum}

theorem symbols_eq (hp : p.waiting = old ++ v :: rest) (depth : Int) :
    p.symbols depth = (p.placed ++ old).map (·.symbol depth) ++ v.symbol depth ::
      (rest.map (·.symbol depth) ++ p.fresh.map (⟨·, depth, .unset⟩)) := by
  simp [symbols, hp]

theorem symbol_handle (h : p.Holds b name s) (hp : p.waiting = old ++ v :: rest) :
    s.table.symbol (p.handle b old.length) = v.symbol (b.depth + 1) := by
  have hsymbol := @SymbolTable.symbol_scopeTable_append b name p.signature
    ((p.placed ++ old).map (·.symbol (b.depth + 1))) (v.symbol (b.depth + 1))
    (rest.map (·.symbol (b.depth + 1)) ++ p.fresh.map (⟨·, b.depth + 1, .unset⟩))
  rw [List.length_map, List.length_append, ← Nat.add_assoc] at hsymbol
  rw [h.table, symbols_eq hp]
  exact hsymbol

theorem size_handle (h : p.Holds b name s) (hp : p.waiting = old ++ v :: rest) :
    (s.table.symbol (p.handle b old.length)).size = .ok v.storage.size := by
  rw [h.symbol_handle hp, v.size_symbol]

/-- A pending symbol is replaced by one of the same name. -/
theorem set (h : p.Holds b name s) (hp : p.waiting = old ++ v :: rest) (hn : v'.name = v.name) :
    Holds b name { p with waiting := old ++ v' :: rest }
      { s with table := s.table.set (p.handle b old.length) (v'.symbol (b.depth + 1)) } where
  table := by
    have hset := @SymbolTable.set_scopeTable b name p.signature (v.symbol (b.depth + 1))
      (v'.symbol (b.depth + 1)) ((p.placed ++ old).map (·.symbol (b.depth + 1)))
      (rest.map (·.symbol (b.depth + 1)) ++ p.fresh.map (⟨·, b.depth + 1, .unset⟩)) hn rfl
    rw [List.length_map, List.length_append, ← Nat.add_assoc] at hset
    rw [h.table, symbols_eq hp,
      symbols_eq (p := { p with waiting := old ++ v' :: rest }) rfl]
    exact hset
  pending := by
    rw [h.pending, hp]
    simp [handle]
  recorded := h.recorded
  nextOffset := h.nextOffset
  lines := h.lines
  nodup := by
    have hsame : names { p with waiting := old ++ v' :: rest } = p.names := by
      simp [names, hp, hn]
    rw [hsame]
    exact h.nodup

/-- What a change to a pending symbol comes to. -/
theorem yields_update {change : Symbol → Except SymbolError Symbol} (h : p.Holds b name s)
    (hp : p.waiting = old ++ v :: rest)
    (hc : change (v.symbol (b.depth + 1)) = .ok (v'.symbol (b.depth + 1)))
    (hn : v'.name = v.name) :
    Yields (updateSymbol (p.handle b old.length) change) s fun _ s' =>
      s'.matched = s.matched ∧ Holds b name { p with waiting := old ++ v' :: rest } s' := by
  rw [← h.symbol_handle hp] at hc
  exact yields_symbol.mpr (.liftSymbol hc ⟨rfl, h.set hp hn⟩)

/-- What a change to the signature comes to. -/
theorem yields_updateOwn (h : p.Holds b name s) (f : Signature → Signature) :
    Yields (updateSymbol b.symbols.size (·.modifyFunction f)) s fun _ s' =>
      s'.matched = s.matched ∧ Holds b name { p with signature := f p.signature } s' := by
  have hown : (s.table.symbol b.symbols.size).modifyFunction f =
      .ok ⟨name, b.depth, .func (f p.signature)⟩ := by
    rw [h.table, SymbolTable.symbol_scopeTable_own]
    rfl
  refine yields_symbol.mpr (.liftSymbol hown ⟨rfl, ?_⟩)
  refine ⟨?_, h.pending, h.recorded, h.nextOffset, h.lines, h.nodup⟩
  show s.table.set _ _ = _
  rw [h.table, SymbolTable.set_scopeTable_own]
  rfl

theorem yields_functionNamed (hw : b.WellFormed) (h : p.Holds b name s) :
    Yields (functionNamed name) s fun f s' => f = b.symbols.size ∧ s' = s := by
  have hfound : s.table.lookupKind? name .func = some b.symbols.size := by
    rw [h.table]
    exact SymbolTable.lookupKind?_scopeTable hw fun x => kind?_of_mem_symbols
  unfold functionNamed
  rw [yields_bind, yields_get, hfound]
  exact ⟨rfl, rfl⟩

/-- The line on a declaration is entered. -/
theorem yields_logDeclared (h : p.Holds b name s) (hp : p.waiting = old ++ v :: rest) :
    Yields (logDeclared (p.handle b old.length)) s fun _ s' => s'.matched = s.matched ∧
      Holds b name { p with lines := p.lines ++ [v.line (b.depth + 1)] } s' := by
  have hparameter := v.isParameter_symbol (b.depth + 1)
  rw [← h.symbol_handle hp] at hparameter
  refine yields_symbol.mpr (.liftSymbol hparameter (yields_bind.mpr ?_))
  refine .ite (fun _ => ?_) fun _ => trivial
  refine ⟨rfl, h.table, h.pending, h.recorded, h.nextOffset, ?_, h.nodup⟩
  have hline : Entry.lines (.declared (v.symbol (b.depth + 1))) = [v.line (b.depth + 1)] := by
    show [declaredLine (v.symbol (b.depth + 1)).role (v.symbol (b.depth + 1))] = _
    rw [v.role_symbol]
    rfl
  show listingLines (s.listing.push _).toList = _
  rw [listingLines_push, h.symbol_handle hp, h.lines, hline]

/-- Names that are pending no longer have their places. -/
theorem cleared (h : p.Holds b name s) (hp : p.fresh = []) :
    Holds b name { p with placed := p.placed ++ p.waiting, waiting := [] }
      { s with pending := [] } where
  table := by
    have hsame : symbols { p with placed := p.placed ++ p.waiting, waiting := [] } (b.depth + 1) =
        p.symbols (b.depth + 1) := by simp [symbols]
    rw [hsame]
    exact h.table
  pending := by
    rw [hp]
    rfl
  recorded := h.recorded
  nextOffset := h.nextOffset
  lines := h.lines
  nodup := by
    have hsame : names { p with placed := p.placed ++ p.waiting, waiting := [] } = p.names := by
      simp [names]
    rw [hsame]
    exact h.nodup

end Single

/-! ### Parameters -/

section Parameters

variable {old rest new : List Datum} {v : Datum} {type : ValueType} {mode : Mode} {offset : Int}

theorem yields_recordParameter (h : p.Holds b name s) (hp : p.waiting = old ++ v :: rest)
    (htype : v.storage.type = some type) :
    Yields (recordParameter b.symbols.size mode (p.handle b old.length)) s fun _ s' =>
      s'.matched = s.matched ∧ Holds b name { p with
        signature := p.signature.addParameter type mode
        waiting := old ++ v.asParameter :: rest } s' := by
  refine yields_symbol.mpr ?_
  rw [h.symbol_handle hp, v.valueType?_symbol, htype]
  refine (h.yields_updateOwn fun g => g.addParameter type mode).bind ?_
  rintro - s₁ ⟨hmatched, h₁⟩
  refine (h₁.yields_update hp (v.setParameter_symbol _) (by rfl)).mono ?_
  rintro - s₂ ⟨hmatched', h₂⟩
  exact ⟨hmatched'.trans hmatched, h₂⟩

/-- By induction on the pending names that are not recorded yet. -/
theorem yields_recordAll (h : p.Holds b name s) (hp : p.waiting = old ++ new)
    (hnew : ∀ v ∈ new, v.storage.type = some type) :
    Yields ((List.range' (p.handle b old.length) new.length).forM
        (recordParameter b.symbols.size mode)) s fun _ s' =>
      s'.matched = s.matched ∧ Holds b name { p with
        signature := p.signature.addParameters (new.map fun _ => type) mode
        waiting := old ++ new.map .asParameter } s' := by
  induction new generalizing p old s with
  | nil =>
    refine ⟨rfl, ?_⟩
    rw [List.map_nil, List.map_nil, Signature.addParameters_nil, ← hp]
    exact h
  | cons v new ih =>
    obtain ⟨htype, hnew⟩ := List.forall_mem_cons.mp hnew
    rw [List.length_cons, List.range'_succ]
    show Yields (recordParameter _ _ _ >>= fun _ => List.forM _ _) s _
    refine (h.yields_recordParameter hp htype).bind ?_
    rintro - s₁ ⟨hmatched, h₁⟩
    have hrest := ih h₁ (List.append_cons old v.asParameter new) hnew
    rw [List.length_append] at hrest
    refine hrest.mono ?_
    rintro - s₂ ⟨hmatched', h₂⟩
    refine ⟨hmatched'.trans hmatched, ?_⟩
    rw [List.map_cons, List.map_cons, Signature.addParameters_cons, List.append_cons]
    exact h₂

theorem yields_recordParameters (h : p.Holds b name s) (hp : p.waiting = old ++ new)
    (hfresh : p.fresh = []) (hrecorded : p.recorded = old.length)
    (hnew : ∀ v ∈ new, v.storage.type = some type) :
    Yields (recordParameters b.symbols.size mode) s fun _ s' =>
      s'.matched = s.matched ∧ Holds b name { p with
        signature := p.signature.addParameters (new.map fun _ => type) mode
        waiting := old ++ new.map .asParameter
        recorded := old.length + new.length } s' := by
  have hdrop : s.pending.drop s.recorded = List.range' (p.handle b old.length) new.length := by
    rw [h.pending, h.recorded, hp, hfresh, hrecorded]
    simp [List.drop_range', handle]
  refine yields_bind.mpr ?_
  show Yields (do (s.pending.drop s.recorded).forM _; _) s _
  rw [hdrop]
  refine (h.yields_recordAll hp hnew).bind ?_
  rintro - s₁ ⟨hmatched, h₁⟩
  refine ⟨hmatched, h₁.table, h₁.pending, ?_, h₁.nextOffset, h₁.lines, h₁.nodup⟩
  show s₁.pending.length = _
  rw [h₁.pending]
  simp [hfresh]

theorem yields_placeParameter (h : p.Holds b name s) (hp : p.waiting = old ++ v :: rest) :
    Yields (placeParameter offset (p.handle b old.length)) s fun top s' =>
      top = offset + v.storage.size ∧ s'.matched = s.matched ∧
        Holds b name { p with waiting := old ++ v.placedAt offset :: rest } s' := by
  refine (h.yields_update hp (v.setOffset_symbol _ _) (by rfl)).bind ?_
  rintro - s₁ ⟨hmatched, h₁⟩
  exact yields_symbol.mpr (.liftSymbol (h₁.size_handle rfl) ⟨rfl, hmatched, h₁⟩)

/-- By induction on the pending names from the last one on. -/
theorem yields_placeUp (h : p.Holds b name s) (hp : p.waiting = old ++ rest) :
    Yields ((List.range' (p.handle b 0) old.length).reverse.foldlM placeParameter offset) s
      fun top s' => top = offset + Datum.totalSize old ∧ s'.matched = s.matched ∧ Holds b name
        { p with waiting := (Datum.placeFrom offset old.reverse).reverse ++ rest } s' := by
  induction old using List.reverseRecOn generalizing p offset rest s with
  | nil =>
    refine ⟨(Int.add_zero offset).symm, rfl, ?_⟩
    show Holds b name { p with waiting := rest } s
    rw [← List.nil_append rest, ← hp]
    exact h
  | append_singleton old v ih =>
    rw [List.append_assoc, List.singleton_append] at hp
    rw [List.length_append, List.length_singleton, List.range'_1_concat, List.reverse_append,
      List.reverse_singleton, List.singleton_append, List.foldlM_cons]
    refine (h.yields_placeParameter hp).bind ?_
    rintro _ s₁ ⟨rfl, hmatched, h₁⟩
    refine (ih h₁ rfl).mono ?_
    rintro top s₂ ⟨rfl, hmatched', h₂⟩
    refine ⟨?_, hmatched'.trans hmatched, ?_⟩
    · rw [Datum.totalSize_append, Datum.totalSize_cons, Datum.totalSize_nil]
      omega
    · rw [List.reverse_append, List.reverse_singleton, List.singleton_append, Datum.placeFrom,
        List.reverse_cons, List.append_assoc, List.singleton_append]
      exact h₂

theorem yields_logAll (h : p.Holds b name s) (hp : p.waiting = old ++ rest) :
    Yields ((List.range' (p.handle b old.length) rest.length).forM logDeclared) s fun _ s' =>
      s'.matched = s.matched ∧
        Holds b name { p with lines := p.lines ++ rest.map (·.line (b.depth + 1)) } s' := by
  induction rest generalizing p old s with
  | nil =>
    refine ⟨rfl, ?_⟩
    rw [List.map_nil, List.append_nil]
    exact h
  | cons v rest ih =>
    rw [List.length_cons, List.range'_succ]
    show Yields (logDeclared _ >>= fun _ => List.forM _ _) s _
    refine (h.yields_logDeclared hp).bind ?_
    rintro - s₁ ⟨hmatched, h₁⟩
    have hrest := ih h₁ (hp.trans (List.append_cons old v rest))
    rw [List.length_append] at hrest
    refine hrest.mono ?_
    rintro - s₂ ⟨hmatched', h₂⟩
    refine ⟨hmatched'.trans hmatched, ?_⟩
    rw [List.map_cons, List.append_cons]
    exact h₂

theorem yields_placeParameters (hw : b.WellFormed) (h : p.Holds b name s) (hfresh : p.fresh = []) :
    Yields (placeParameters name) s fun _ s' =>
      s'.matched = s.matched ∧ Holds b name { p with
        signature := { p.signature with
          parameterCount := p.waiting.length, parametersSize := Datum.totalSize p.waiting }
        placed := p.placed ++ (Datum.placeFrom headerSize p.waiting.reverse).reverse
        waiting := []
        lines := p.lines ++ (Datum.placeFrom headerSize p.waiting.reverse).reverse.map
          (·.line (b.depth + 1)) } s' := by
  have hpending : s.pending = List.range' (p.handle b 0) p.waiting.length := by
    rw [h.pending, hfresh]
    rfl
  refine yields_bind.mpr ?_
  show Yields (do let top ← s.pending.reverse.foldlM placeParameter headerSize; _) s _
  rw [hpending]
  refine (h.yields_placeUp (List.append_nil _).symm).bind ?_
  rintro _ s₁ ⟨rfl, hmatched₁, h₁⟩
  rw [List.append_nil] at h₁
  refine (h₁.yields_functionNamed hw).bind ?_
  rintro _ _ ⟨rfl, rfl⟩
  have hsize : headerSize + Datum.totalSize p.waiting - headerSize = Datum.totalSize p.waiting := by
    omega
  rw [List.length_range', hsize]
  refine (h₁.yields_updateOwn _).bind ?_
  rintro - s₂ ⟨hmatched₂, h₂⟩
  have hlog := h₂.yields_logAll (List.nil_append _).symm
  rw [List.length_reverse, Datum.length_placeFrom, List.length_reverse] at hlog
  refine hlog.bind ?_
  rintro - s₃ ⟨hmatched₃, h₃⟩
  exact ⟨(hmatched₃.trans hmatched₂).trans hmatched₁, h₃.cleared hfresh⟩

end Parameters

/-! ### Local names -/

section Locals

variable {old rest : List Datum} {v : Datum}

theorem yields_placeLocal (h : p.Holds b name s) (hp : p.waiting = old ++ v :: rest) :
    Yields (placeLocal (p.handle b old.length)) s fun _ s' => s'.matched = s.matched ∧
      Holds b name { p with
        waiting := old ++ v.placedAt p.nextOffset :: rest
        nextOffset := p.nextOffset + v.storage.size
        lines := p.lines ++ [(v.placedAt p.nextOffset).line (b.depth + 1)] } s' := by
  refine yields_bind.mpr ?_
  show Yields (do updateSymbol (p.handle b old.length) (·.setOffset s.nextOffset); _) s _
  rw [h.nextOffset]
  refine (h.yields_update hp (v.setOffset_symbol _ _) (by rfl)).bind ?_
  rintro - s₁ ⟨hmatched, h₁⟩
  refine yields_symbol.mpr (.liftSymbol (h₁.size_handle rfl) (yields_bind.mpr ?_))
  have h₂ : Holds b name { p with
      waiting := old ++ v.placedAt p.nextOffset :: rest
      nextOffset := s.nextOffset + v.storage.size }
      { s₁ with nextOffset := s.nextOffset + v.storage.size } :=
    ⟨h₁.table, h₁.pending, h₁.recorded, rfl, h₁.lines, h₁.nodup⟩
  rw [h.nextOffset] at h₂
  refine (h₂.yields_logDeclared rfl).mono ?_
  rintro - s₂ ⟨hmatched', h₂⟩
  exact ⟨hmatched'.trans hmatched, h₂⟩

/-- By induction on the pending names that have no place yet. -/
theorem yields_placeAll (h : p.Holds b name s) (hp : p.waiting = old ++ rest) :
    Yields ((List.range' (p.handle b old.length) rest.length).forM placeLocal) s fun _ s' =>
      s'.matched = s.matched ∧ Holds b name { p with
        waiting := old ++ Datum.placeFrom p.nextOffset rest
        nextOffset := p.nextOffset + Datum.totalSize rest
        lines := p.lines ++ (Datum.placeFrom p.nextOffset rest).map (·.line (b.depth + 1)) } s' := by
  induction rest generalizing p old s with
  | nil =>
    refine ⟨rfl, ?_⟩
    rw [Datum.totalSize_nil, Int.add_zero, Datum.placeFrom, List.map_nil, List.append_nil p.lines,
      ← hp]
    exact h
  | cons v rest ih =>
    rw [List.length_cons, List.range'_succ]
    show Yields (placeLocal _ >>= fun _ => List.forM _ _) s _
    refine (h.yields_placeLocal hp).bind ?_
    rintro - s₁ ⟨hmatched, h₁⟩
    have hrest := ih h₁ (List.append_cons old (v.placedAt p.nextOffset) rest)
    rw [List.length_append] at hrest
    refine hrest.mono ?_
    rintro - s₂ ⟨hmatched', h₂⟩
    refine ⟨hmatched'.trans hmatched, ?_⟩
    rw [Datum.placeFrom, Datum.totalSize_cons, List.map_cons, List.append_cons,
      List.append_cons p.lines, ← Int.add_assoc]
    exact h₂

theorem yields_placeLocals (h : p.Holds b name s) (hfresh : p.fresh = []) :
    Yields (placeLocals b.symbols.size) s fun _ s' =>
      s'.matched = s.matched ∧ Holds b name { p with
        signature := { p.signature with
          localsSize := p.nextOffset + Datum.totalSize p.waiting - localBase }
        placed := p.placed ++ Datum.placeFrom p.nextOffset p.waiting
        waiting := []
        nextOffset := p.nextOffset + Datum.totalSize p.waiting
        lines := p.lines ++
          (Datum.placeFrom p.nextOffset p.waiting).map (·.line (b.depth + 1)) } s' := by
  have hpending : s.pending = List.range' (p.handle b 0) p.waiting.length := by
    rw [h.pending, hfresh]
    rfl
  refine yields_bind.mpr ?_
  show Yields (do s.pending.forM placeLocal; _) s _
  rw [hpending]
  refine (h.yields_placeAll (List.nil_append _).symm).bind ?_
  rintro - s₁ ⟨hmatched, h₁⟩
  refine yields_bind.mpr ?_
  show Yields (do updateSymbol b.symbols.size (·.modifyFunction fun g =>
    { g with localsSize := s₁.nextOffset - localBase }); _) s₁ _
  rw [h₁.nextOffset]
  refine (h₁.yields_updateOwn _).bind ?_
  rintro - s₂ ⟨hmatched', h₂⟩
  exact ⟨hmatched'.trans hmatched, h₂.cleared hfresh⟩

end Locals

/-! ### The scope behind the head -/

section Behind

variable {t : SymbolTable} {new : List Symbol} (hw : b.WellFormed) (hb : b.Bounded)
  (hname : name ∉ b.namesAt.get b.depth) (h : p.Holds b name s)
include hw hb h

omit hb in
theorem wellFormed : s.table.WellFormed := by
  rw [h.table]
  exact hw.scopeTable

omit hw in
theorem bounded : s.table.Bounded := by
  rw [h.table]
  exact hb.scopeTable fun x => depth_of_mem_symbols

variable (ht : SymbolTable.Extends s.table t new)
include hname ht

/-- The symbols of the head come first in the scope. -/
theorem symbolsOf_entriesAt :
    t.symbolsOf (t.entriesAt t.depth) = p.symbols (b.depth + 1) ++ new := by
  rw [h.table] at ht
  exact ht.symbolsOf_entriesAt hw hb hname (fun x => depth_of_mem_symbols)
    (by rw [map_name_symbols]; exact h.nodup)

/-- The function of the procedure is found in the scope around it. -/
theorem lookupAt?_own : t.lookupAt? name b.depth = some b.symbols.size ∧
    t.symbol b.symbols.size = ⟨name, b.depth, .func p.signature⟩ := by
  rw [h.table] at ht
  exact ht.lookupAt?_own hw hb hname (fun x => depth_of_mem_symbols)
    (by rw [map_name_symbols]; exact h.nodup)

/-- The function of the procedure is left in the scope around it. -/
theorem leave : SymbolTable.Extends b t.leave [⟨name, b.depth, .func p.signature⟩] := by
  rw [h.table] at ht
  exact ht.leave hw hb hname (fun x => depth_of_mem_symbols)
    (by rw [map_name_symbols]; exact h.nodup)

end Behind

end Holds

end Progress

end ProcLang
