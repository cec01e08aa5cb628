import ProcLang.Proofs.Pairings
import ProcLang.Proofs.RenamedTable

/-!
# Runs over like tokens

Two lists of tokens are alike if they differ in what no decision depends on (`Likeness`): the kinds
are the same, identifiers correspond by a map of names, and what the analysis asks about a lexeme has
the same answer. Then the runs over the two lists correspond at every step (`Likens`): they end in
the same way, and what they leave differs by the map of names only.
-/

namespace ProcLang

/-! ## Other names -/

/-- The token with another name, if it is one. -/
def Token.rename (f : String → String) (t : Token) : Token :=
  if t.kind = .identifier then { t with lexeme := f t.lexeme } else t

/-- The diagnostic with other names. -/
def Diagnostic.rename (f : String → String) : Diagnostic → Diagnostic
  | unknownCharacter char line => .unknownCharacter char line
  | unexpected expected found => .unexpected expected (found.rename f)
  | duplicate name line => .duplicate (f name) line
  | undefined name line => .undefined (f name) line
  | otherClosingName name line => .otherClosingName (f name) line
  | unconsumed found => .unconsumed (found.rename f)

/-- The fault with other names. -/
def Fault.rename (f : String → String) : Fault → Fault
  | unknownFunction name => .unknownFunction (f name)
  | symbol error => .symbol (error.rename f)
  | untyped name => .untyped (f name)
  | alreadyRun => .alreadyRun
  | sourceSpent => .sourceSpent
  | numeral error => .numeral error
  | noToken wanted => .noToken wanted

/-- The failure with other names. -/
def Failure.rename (f : String → String) : Failure → Failure
  | diagnostic d => .diagnostic (d.rename f)
  | fault e => .fault (e.rename f)

/-- The scope with another name. -/
def ScopeName.rename (f : String → String) : ScopeName → ScopeName
  | outermost => .outermost
  | procedure name => .procedure (f name)

/-- The snapshot with other names. -/
def Snapshot.rename (f : String → String) (x : Snapshot) : Snapshot :=
  ⟨x.scope.rename f, x.depth, x.symbols.map (Symbol.rename f)⟩

/-- The entry with other names. -/
def Entry.rename (f : String → String) : Entry → Entry
  | begun => .begun
  | procedureDeclared name depth => .procedureDeclared (f name) depth
  | scopeEntered name depth => .scopeEntered (f name) depth
  | declared symbol => .declared (symbol.rename f)
  | snapshot x => .snapshot (x.rename f)
  | scopeLeft name depth => .scopeLeft (f name) depth
  | completed => .completed
  | stopped d => .stopped (d.rename f)

/-- The state with other names in its table and in what has been noted. Its tokens are as they
were. -/
def State.rename (f : String → String) (s : State) : State :=
  { s with
    table := s.table.rename f
    listing := s.listing.map (Entry.rename f)
    printed := s.printed.map (Snapshot.rename f) }

/-! ### The same names -/

theorem Token.rename_id (t : Token) : t.rename id = t := by
  unfold rename
  split <;> rfl

theorem Diagnostic.rename_id (d : Diagnostic) : d.rename id = d := by
  cases d <;> simp [rename, Token.rename_id]

theorem Fault.rename_id (f : Fault) : f.rename id = f := by
  cases f with
  | symbol e => cases e <;> rfl
  | _ => rfl

theorem Snapshot.rename_id (x : Snapshot) : x.rename id = x := by
  obtain ⟨scope, depth, symbols⟩ := x
  have hsymbols : Symbol.rename id = id := rfl
  cases scope <;> simp [rename, ScopeName.rename, hsymbols]

theorem Entry.rename_id (e : Entry) : e.rename id = e := by
  cases e <;> simp [rename, Symbol.rename_id, Snapshot.rename_id, Diagnostic.rename_id]

theorem State.rename_id (s : State) : s.rename id = s := by
  have hentries : Entry.rename id = id := funext Entry.rename_id
  have hsnapshots : Snapshot.rename id = id := funext Snapshot.rename_id
  simp [rename, SymbolTable.rename_id, hentries, hsnapshots]

namespace Analysis

variable {α β : Type}

/-! ## Like tokens and like states -/

/-- How the tokens of one run correspond to those of another, and their names. -/
structure Likeness where
  name : String → String
  tokens : Token → Token → Prop

/-- What no decision of an analysis depends on may differ, and no more. -/
structure Likeness.Lawful (k : Likeness) : Prop where
  fits : SymbolTable.Fits k.name
  kind {t t'} : k.tokens t t' → t'.kind = t.kind
  identifier {t t'} : k.tokens t t' → t.kind = .identifier → t'.lexeme = k.name t.lexeme
  number {t t'} : k.tokens t t' → t.kind = .number → t'.lexeme = t.lexeme
  minus {t t'} : k.tokens t t' → t.kind = .additive → (t'.lexeme = "-" ↔ t.lexeme = "-")
  modeWord {t t'} : k.tokens t t' → modeOfWord? t'.lexeme = modeOfWord? t.lexeme
  closing {t t' u u'} : k.tokens t t' → k.tokens u u' → u.kind = .identifier →
    (Text.lower t'.lexeme = Text.lower u'.lexeme ↔ Text.lower t.lexeme = Text.lower u.lexeme)

/-- Two lists that are alike in what is left of them, of which the same number of tokens has been
asked for. -/
def Likeness.Sources (k : Likeness) : TokenSource → TokenSource → Prop
  | .list l, .list l' =>
    List.Forall₂ k.tokens l.ahead l'.ahead ∧ l'.asked = l.asked ∧
      k.tokens (.endOfInput l.lastLine) (.endOfInput l'.lastLine)
  | _, _ => False

/-- The next tokens of like lists are alike, and no list fails. -/
theorem Likeness.Sources.exists_next {k : Likeness} {a b : TokenSource} (h : k.Sources a b) :
    ∃ t t' a' b', a.next = (.ok t, a') ∧ b.next = (.ok t', b') ∧ k.tokens t t' ∧ k.Sources a' b' := by
  cases a with
  | list l =>
    cases b with
    | list l' =>
      obtain ⟨ahead, asked, line⟩ := l
      obtain ⟨ahead', _, line'⟩ := l'
      obtain ⟨hahead, rfl, hend⟩ := h
      cases hahead with
      | nil => exact ⟨_, _, _, _, rfl, rfl, hend, .nil, rfl, hend⟩
      | cons ht hrest => exact ⟨_, _, _, _, rfl, rfl, ht, hrest, rfl, hend⟩
    | _ => exact h.elim
  | _ => exact h.elim

/-- The states have like tokens, and differ by the map of names in all else. -/
structure Likens (k : Likeness) (s s' : State) : Prop where
  source : k.Sources s.source s'.source
  current : Option.Rel k.tokens s.current s'.current
  matched : List.Forall₂ k.tokens s.matched s'.matched
  eq : s' = { s.rename k.name with
    source := s'.source, current := s'.current, matched := s'.matched }

/-- The failures are the same but for the tokens and names in them, which correspond. -/
inductive FailsAs (k : Likeness) : Failure → Failure → Prop
  | unexpected (x : Expectation) {t t' : Token} : k.tokens t t' →
    FailsAs k (.diagnostic (.unexpected x t)) (.diagnostic (.unexpected x t'))
  | duplicate {t t' : Token} : k.tokens t t' → t.kind = .identifier →
    FailsAs k (.diagnostic (.duplicate t.lexeme t.line))
      (.diagnostic (.duplicate t'.lexeme t'.line))
  | undefined {t t' : Token} : k.tokens t t' → t.kind = .identifier →
    FailsAs k (.diagnostic (.undefined t.lexeme t.line))
      (.diagnostic (.undefined t'.lexeme t'.line))
  | otherClosingName {n n' : String} {t t' : Token} : Named k.tokens n n' → k.tokens t t' →
    FailsAs k (.diagnostic (.otherClosingName n t.line))
      (.diagnostic (.otherClosingName n' t'.line))
  | unconsumed {t t' : Token} : k.tokens t t' →
    FailsAs k (.diagnostic (.unconsumed t)) (.diagnostic (.unconsumed t'))
  | fault (f : Fault) : FailsAs k (.fault f) (.fault (f.rename k.name))

/-- Runs over like tokens. -/
def likening (k : Likeness) : Pairing := ⟨Likens k, FailsAs k, fun _ => False⟩

section Steps

variable {k : Likeness} {s s' : State}

namespace Likens

theorem table (h : Likens k s s') : s'.table = s.table.rename k.name := by
  rw [h.eq]
  rfl

theorem pending (h : Likens k s s') : s'.pending = s.pending := by
  rw [h.eq]
  rfl

theorem recorded (h : Likens k s s') : s'.recorded = s.recorded := by
  rw [h.eq]
  rfl

theorem nextOffset (h : Likens k s s') : s'.nextOffset = s.nextOffset := by
  rw [h.eq]
  rfl

theorem withTable (h : Likens k s s') {t t' : SymbolTable} (ht : t' = t.rename k.name) :
    Likens k { s with table := t } { s' with table := t' } :=
  ⟨h.source, h.current, h.matched, by rw [h.eq, ht]; rfl⟩

end Likens

/-! ### Symbols -/

theorem likens_modifyTable {g g' : SymbolTable → SymbolTable}
    (hg : ∀ t, g' (t.rename k.name) = (g t).rename k.name) :
    Tracks (likening k) Eq (modifyTable g) (modifyTable g') :=
  .modify fun s s' hs => hs.withTable (by rw [hs.table, hg])

theorem likens_liftSymbol {g : α → α} (r : Except SymbolError α) :
    Tracks (likening k) (fun a b => b = g a) (liftSymbol r)
      (liftSymbol (Symbol.renamed k.name g r)) := by
  cases r with
  | ok a => exact .pure rfl
  | error e => exact .throw (.fault _)

theorem likens_fail {results : α → β → Prop} (f : Fault) :
    Tracks (likening k) results (fail f) (fail (f.rename k.name)) := .throw (.fault f)

theorem likens_log (e : Entry) : Tracks (likening k) Eq (log e) (log (e.rename k.name)) := by
  refine .modify fun s s' hs => ⟨hs.source, hs.current, hs.matched, ?_⟩
  rw [hs.eq]
  simp only [State.rename, Array.map_push]

theorem likens_needRow (x : Symbol) :
    Tracks (likening k) Eq (needRow x) (needRow (x.rename k.name)) := by
  unfold needRow
  rw [Symbol.isShowable_rename]
  exact .ite (.pure rfl) (likens_fail (.untyped x.name))

theorem likens_pull : Tracks (likening k) Eq pull pull := by
  intro s s' hs
  obtain ⟨t, t', source, source', hn, hn', ht, hsource⟩ := hs.source.exists_next
  rw [pull_eq_of_ok hn, pull_eq_of_ok hn']
  exact ⟨(), _, rfl, rfl, hsource, .some ht, hs.matched, by rw [hs.eq]; rfl⟩

section Lawful

variable (h : k.Lawful)

include h

theorem likens_symbol (x : Handle) :
    Tracks (likening k) (fun a b => b = a.rename k.name) (symbol x) (symbol x) :=
  .get_bind fun s s' hs => .pure (by rw [hs.table, SymbolTable.symbol_rename _ h.fits])

theorem likens_updateSymbol (x : Handle) {g : Symbol → Except SymbolError Symbol}
    (hg : ∀ a, g (a.rename k.name) = Symbol.renamed k.name (Symbol.rename k.name) (g a)) :
    Tracks (likening k) Eq (updateSymbol x g) (updateSymbol x g) := by
  refine (likens_symbol h x).bind ?_
  rintro a _ rfl
  rw [hg]
  refine (likens_liftSymbol (g a)).bind ?_
  rintro changed _ rfl
  exact likens_modifyTable fun t => SymbolTable.set_rename t x changed

theorem likens_logDeclared (x : Handle) :
    Tracks (likening k) Eq (logDeclared x) (logDeclared x) := by
  refine (likens_symbol h x).bind ?_
  rintro a _ rfl
  rw [Symbol.isParameter_rename]
  exact (likens_liftSymbol a.isParameter).bind fun _ _ _ => (likens_needRow a).bind fun _ _ _ =>
    likens_log (.declared a)

/-- The size of a symbol is the same. -/
theorem likens_size (x : Handle) {f f' : Int → Analysis α}
    (hf : ∀ size, Tracks (likening k) Eq (f size) (f' size)) :
    Tracks (likening k) Eq (symbol x >>= fun a => liftSymbol a.size >>= f)
      (symbol x >>= fun a => liftSymbol a.size >>= f') := by
  refine (likens_symbol h x).bind ?_
  rintro a _ rfl
  rw [Symbol.size_rename]
  refine (likens_liftSymbol a.size).bind ?_
  rintro size _ rfl
  exact hf _

theorem likens_logSnapshot (scope : ScopeName) :
    Tracks (likening k) Eq (logSnapshot scope) (logSnapshot (scope.rename k.name)) := by
  have hrows : ∀ symbols : List Symbol, Tracks (likening k) Eq (symbols.forM needRow)
      ((symbols.map (Symbol.rename k.name)).forM needRow) := by
    intro symbols
    induction symbols with
    | nil => exact .pure rfl
    | cons x rest ih => exact (likens_needRow x).bind fun _ _ _ => ih
  refine .get_bind fun s s' hs => ?_
  have hdepth : s'.table.depth = s.table.depth := by
    rw [hs.table]
    rfl
  have hsymbols : s'.table.symbolsOf (s'.table.entriesAt s'.table.depth) =
      (s.table.symbolsOf (s.table.entriesAt s.table.depth)).map (Symbol.rename k.name) := by
    rw [hdepth, hs.table, SymbolTable.entriesAt_rename _ h.fits,
      SymbolTable.symbolsOf_rename _ h.fits]
  dsimp only
  rw [hsymbols, hdepth]
  generalize s.table.symbolsOf (s.table.entriesAt s.table.depth) = symbols
  refine (hrows symbols).bind fun _ _ _ =>
    (likens_log (.snapshot ⟨scope, s.table.depth, symbols⟩)).bind fun _ _ _ =>
      .modify fun s₁ s₁' hs₁ => ?_
  have htracing : s₁'.tracing = s₁.tracing := by
    rw [hs₁.eq]
    rfl
  rw [htracing]
  split
  · refine ⟨hs₁.source, hs₁.current, hs₁.matched, ?_⟩
    rw [hs₁.eq]
    simp only [State.rename, Array.map_push]
    rfl
  · exact hs₁

/-! ### Names -/

variable {t t' : Token} {n n' : String}

theorem likens_checkNew (ht : k.tokens t t') (hk : t.kind = .identifier) :
    Tracks (likening k) Eq (checkNew t) (checkNew t') := by
  refine .get_bind fun s s' hs => ?_
  have hlookup : s'.table.lookupAt? t'.lexeme s'.table.depth =
      s.table.lookupAt? t.lexeme s.table.depth := by
    rw [hs.table, h.identifier ht hk]
    exact SymbolTable.lookupAt?_rename _ h.fits _ _
  dsimp only
  rw [hlookup]
  exact .ite (.throw (.duplicate ht hk)) (.pure rfl)

theorem likens_checkDefined (ht : k.tokens t t') (hk : t.kind = .identifier) :
    Tracks (likening k) Eq (checkDefined t) (checkDefined t') := by
  refine .get_bind fun s s' hs => ?_
  have hvisible : ((s'.table.lookup? t'.lexeme).any fun x =>
      (s'.table.symbol x).depth ≤ s'.table.depth) =
      (s.table.lookup? t.lexeme).any fun x => (s.table.symbol x).depth ≤ s.table.depth := by
    simp only [hs.table, h.identifier ht hk, SymbolTable.lookup?_rename _ h.fits,
      SymbolTable.symbol_rename _ h.fits, Symbol.rename_depth]
    rfl
  dsimp only
  rw [hvisible]
  exact .ite (.throw (.undefined ht hk)) (.pure rfl)

theorem likens_declareName (name : String) :
    Tracks (likening k) Eq (declareName name) (declareName (k.name name)) := by
  intro s s' hs
  have hinsert : s'.table.insert (k.name name) s'.table.depth =
      ((s.table.insert name s.table.depth).1,
        (s.table.insert name s.table.depth).2.rename k.name) := by
    rw [hs.table]
    exact SymbolTable.insert_rename _ h.fits _ _
  refine ⟨(s'.table.insert (k.name name) s'.table.depth).1,
    { s' with table := (s'.table.insert (k.name name) s'.table.depth).2 }, rfl, ?_, ?_⟩
  · rw [hinsert]
    rfl
  · exact hs.withTable (congrArg Prod.snd hinsert)

theorem likens_functionNamed (name : String) :
    Tracks (likening k) Eq (functionNamed name) (functionNamed (k.name name)) := by
  refine .get_bind fun s s' hs => ?_
  rw [hs.table, SymbolTable.lookupKind?_rename _ h.fits]
  cases s.table.lookupKind? name .func with
  | some x => exact .pure rfl
  | none => exact likens_fail (.unknownFunction name)

/-! ### Attributes and places -/

theorem likens_attributePending (attributes : Attributes) :
    Tracks (likening k) Eq (attributePending attributes) (attributePending attributes) := by
  refine .modify fun s s' hs => hs.withTable ?_
  rw [hs.table, hs.pending]
  generalize s.table = t
  induction s.pending generalizing t with
  | nil => rfl
  | cons x rest ih =>
    rw [List.foldl_cons, List.foldl_cons, SymbolTable.symbol_rename _ h.fits,
      Symbol.giveAttributes_rename, SymbolTable.set_rename, ih]

theorem likens_recordParameters (function : Handle) (mode : Mode) :
    Tracks (likening k) Eq (recordParameters function mode) (recordParameters function mode) := by
  have hone : ∀ x, Tracks (likening k) Eq (recordParameter function mode x)
      (recordParameter function mode x) := by
    intro x
    refine (likens_symbol h x).bind ?_
    rintro a _ rfl
    rw [Symbol.valueType?_rename]
    cases a.valueType? with
    | some type =>
      exact (likens_updateSymbol h function fun _ => Symbol.modifyFunction_rename ..).bind
        fun _ _ _ => likens_updateSymbol h x fun _ => Symbol.modifyStorage_rename ..
    | none => exact likens_fail (.untyped a.name)
  refine .get_bind fun s s' hs => ?_
  rw [hs.pending, hs.recorded]
  refine (Tracks.forM hone _).bind fun _ _ _ => .modify fun s₁ s₁' hs₁ => ?_
  exact ⟨hs₁.source, hs₁.current, hs₁.matched, by rw [hs₁.eq]; rfl⟩

theorem likens_placeLocals (function : Handle) :
    Tracks (likening k) Eq (placeLocals function) (placeLocals function) := by
  have hone : ∀ x, Tracks (likening k) Eq (placeLocal x) (placeLocal x) := by
    intro x
    refine .get_bind fun s s' hs => ?_
    rw [hs.nextOffset]
    refine (likens_updateSymbol h x fun _ => Symbol.modifyStorage_rename ..).bind fun _ _ _ =>
      likens_size h x fun size => Tracks.bind (.modify fun s₁ s₁' hs₁ => ?_) fun _ _ _ =>
        likens_logDeclared h x
    exact ⟨hs₁.source, hs₁.current, hs₁.matched, by rw [hs₁.eq]; rfl⟩
  refine .get_bind fun s s' hs => ?_
  rw [hs.pending]
  refine (Tracks.forM hone _).bind fun _ _ _ => .get_bind fun s₁ s₁' hs₁ => ?_
  rw [hs₁.nextOffset]
  refine (likens_updateSymbol h function fun _ => Symbol.modifyFunction_rename ..).bind
    fun _ _ _ => .modify fun s₂ s₂' hs₂ => ?_
  exact ⟨hs₂.source, hs₂.current, hs₂.matched, by rw [hs₂.eq]; rfl⟩

theorem likens_placeParameters (name : String) :
    Tracks (likening k) Eq (placeParameters name) (placeParameters (k.name name)) := by
  have hone : ∀ offset x, Tracks (likening k) Eq (placeParameter offset x)
      (placeParameter offset x) := fun offset x =>
    (likens_updateSymbol h x fun _ => Symbol.modifyStorage_rename ..).bind fun _ _ _ =>
      likens_size h x fun _ => .pure rfl
  refine .get_bind fun s s' hs => ?_
  rw [hs.pending]
  refine (Tracks.foldlM hone _ _).bind ?_
  rintro top _ rfl
  refine (likens_functionNamed h name).bind ?_
  rintro function _ rfl
  refine (likens_updateSymbol h function fun _ => Symbol.modifyFunction_rename ..).bind
    fun _ _ _ => (Tracks.forM (likens_logDeclared h) _).bind fun _ _ _ =>
      .modify fun s₁ s₁' hs₁ => ?_
  exact ⟨hs₁.source, hs₁.current, hs₁.matched, by rw [hs₁.eq]; rfl⟩

theorem likens_afterMark (name : String) (mode : Option Mode) :
    Tracks (likening k) Eq (afterMark name mode) (afterMark (k.name name) mode) := by
  refine (likens_functionNamed h name).bind ?_
  rintro function _ rfl
  cases mode with
  | some mode => exact likens_recordParameters h function mode
  | none => exact likens_placeLocals h function

/-! ### Scopes -/

theorem likens_declareTaken (ht : k.tokens t t') (hk : t.kind = .identifier) :
    Tracks (likening k) Eq (declareTaken t) (declareTaken t') := by
  refine (likens_checkNew h ht hk).bind fun _ _ _ => ?_
  rw [h.identifier ht hk]
  refine (likens_declareName h t.lexeme).bind ?_
  rintro x _ rfl
  exact .modify fun s s' hs => ⟨hs.source, hs.current, hs.matched, by rw [hs.eq]; rfl⟩

theorem likens_openScope (ht : k.tokens t t') (hk : t.kind = .identifier) :
    Tracks (likening k) (Named k.tokens) (openScope t) (openScope t') := by
  refine (likens_checkNew h ht hk).bind fun _ _ _ => ?_
  have hnamed : Named k.tokens t.lexeme t'.lexeme := ⟨t, t', ht, hk, rfl, rfl⟩
  rw [h.identifier ht hk] at hnamed ⊢
  refine (likens_declareName h t.lexeme).bind ?_
  rintro x _ rfl
  refine (likens_updateSymbol h x fun _ => Symbol.setKind_rename ..).bind fun _ _ _ =>
    .get_bind fun s s' hs => ?_
  have hdepth : s'.table.depth = s.table.depth := by
    rw [hs.table]
    rfl
  dsimp only
  rw [hdepth]
  exact (likens_log (.procedureDeclared t.lexeme _)).bind fun _ _ _ =>
    (likens_modifyTable SymbolTable.enter_rename).bind fun _ _ _ =>
      (likens_log (.scopeEntered t.lexeme _)).bind fun _ _ _ => .pure hnamed

theorem likens_closeProcedure (name : String) :
    Tracks (likening k) Eq (closeProcedure name) (closeProcedure (k.name name)) := by
  refine (likens_logSnapshot h (.procedure name)).bind fun _ _ _ =>
    (likens_modifyTable fun t => SymbolTable.leave_rename t h.fits).bind fun _ _ _ =>
      .get_bind fun s s' hs => ?_
  have hdepth : s'.table.depth = s.table.depth := by
    rw [hs.table]
    rfl
  rw [hdepth]
  exact likens_log (.scopeLeft name _)

theorem named_likening (hn : Named k.tokens n n') : n' = k.name n := by
  obtain ⟨t, t', ht, hk, rfl, rfl⟩ := hn
  exact h.identifier ht hk

theorem allPrimitives_likening : AllPrimitives (likening k) k.tokens where
  current hs := hs.current
  matched hs ht := ⟨hs.source, hs.current, .cons ht hs.matched, by rw [hs.eq]; rfl⟩
  next := likens_pull
  kind := h.kind
  number := h.number
  minus := h.minus
  modeWord := h.modeWord
  closing hn ht := by
    obtain ⟨u, u', hu, hk, rfl, rfl⟩ := hn
    exact h.closing ht hu hk
  noToken wanted := .fault (.noToken wanted)
  unexpected x ht := .unexpected x ht
  otherName hn ht := .otherClosingName hn ht
  unconsumed ht := .unconsumed ht
  declare ht hk := likens_declareTaken h ht hk
  use ht hk := likens_checkDefined h ht hk
  value text := by
    unfold constantValue
    split
    · exact .pure rfl
    · exact likens_fail (.numeral _)
  attributes a := likens_attributePending h a
  marked m hn := named_likening h hn ▸ likens_afterMark h _ m
  noneRecorded := .modify fun s s' hs => ⟨hs.source, hs.current, hs.matched, by rw [hs.eq]; rfl⟩
  place hn := named_likening h hn ▸ likens_placeParameters h _
  noneLocal := .modify fun s s' hs => ⟨hs.source, hs.current, hs.matched, by rw [hs.eq]; rfl⟩
  opened ht hk := likens_openScope h ht hk
  closed hn := named_likening h hn ▸ likens_closeProcedure h _
  depth hs := by
    rw [hs.table]
    rfl
  unwound depth hs := hs.withTable (by rw [hs.table, SymbolTable.unwindTo_rename _ h.fits])
  alreadyRun := .fault .alreadyRun
  begun := likens_log .begun
  completed := by
    refine Tracks.bind (.modify fun s s' hs => ?_) fun _ _ _ =>
      (likens_logSnapshot h .outermost).bind fun _ _ _ => likens_log .completed
    exact ⟨hs.source, hs.current, hs.matched, by rw [hs.eq]; rfl⟩

/-- Runs over like lists end alike. -/
theorem likens_ofSource {ts ts' : List Token} (hts : List.Forall₂ k.tokens ts ts')
    (hend : k.tokens (.endOfInput (TokenList.ofList ts).lastLine)
      (.endOfInput (TokenList.ofList ts').lastLine)) (tracing : Bool) :
    Option.Rel (FailsAs k) (Outcome.ofSource (.ofList ts) tracing).failure
        (Outcome.ofSource (.ofList ts') tracing).failure ∧
      Likens k (Outcome.ofSource (.ofList ts) tracing).state
        (Outcome.ofSource (.ofList ts') tracing).state := by
  have hstart : Likens k (.ofSource (.ofList ts) tracing) (.ofSource (.ofList ts') tracing) :=
    ⟨⟨hts, rfl, hend⟩, .none, .nil, by simp [State.rename, State.ofSource]⟩
  rcases tracks_ofSource (allPrimitives_likening h) hstart with ⟨e, hno, -⟩ | hends
  · exact hno.elim
  · exact hends

end Lawful

end Steps

end Analysis

end ProcLang
