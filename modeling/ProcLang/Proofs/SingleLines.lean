import ProcLang.Proofs.FrontEnds
import ProcLang.Proofs.Lines
import ProcLang.Proofs.Pairings
import ProcLang.Proofs.Tracing

/-!
# Single lines

A run over a text looks at no lexeme with a line feed in it, so no name with one gets into its table,
its listing or its diagnostics (`HoldsLines`). Hence whatever the text is, a diagnostic is printed as
one line, tokens are printed one in a line, and a written listing can be read back line for line
(`single_lines`).
-/

namespace ProcLang

open Text (IsLine)

/-! ## Names of symbols -/

namespace Symbol

variable {s s' : Symbol}

theorem name_of_setKind {kind : SymbolKind} (h : s.setKind kind = .ok s') : s'.name = s.name := by
  unfold setKind at h
  split at h <;> cases h
  rfl

theorem name_of_modifyStorage {f : Storage → Storage} (h : s.modifyStorage f = .ok s') :
    s'.name = s.name := by
  unfold modifyStorage at h
  split at h <;> cases h <;> rfl

theorem name_of_modifyFunction {f : Signature → Signature} (h : s.modifyFunction f = .ok s') :
    s'.name = s.name := by
  unfold modifyFunction asFunction at h
  split at h <;> cases h
  rfl

theorem name_giveAttributes (s : Symbol) (attributes : Attributes) :
    (s.giveAttributes attributes).name = s.name := by
  unfold giveAttributes
  split <;> rfl

end Symbol

/-- The names of all symbols are lines. -/
def SymbolTable.NamesLines (t : SymbolTable) : Prop := ∀ h, IsLine (t.symbol h).name

namespace SymbolTable.NamesLines

variable {t : SymbolTable}

theorem set (ht : t.NamesLines) {s : Symbol} (hs : IsLine s.name) (h : Handle) :
    (t.set h s).NamesLines := by
  intro h'
  rw [symbol_set]
  split
  · exact hs
  · exact ht h'

theorem insert (ht : t.NamesLines) {name : String} (hname : IsLine name) (depth : Int) :
    (t.insert name depth).2.NamesLines := by
  intro h'
  rw [symbol_insert]
  split
  · exact hname
  · exact ht h'

theorem leaveScopes (ht : t.NamesLines) (n : Nat) : (t.leaveScopes n).NamesLines := fun h => by
  rw [symbol_leaveScopes]
  exact ht h

end SymbolTable.NamesLines

namespace Analysis

variable {α β : Type}

/-! ## States without line feeds -/

/-- The state reads a text, and no name or lexeme that it knows has a line feed in it. -/
structure HoldsLines (s : State) : Prop where
  source : ∃ l, s.source = .text l
  current : ∀ t ∈ s.current, IsLine t.lexeme
  table : s.table.NamesLines
  listing : ∀ e ∈ s.listing.toList, e.IsLines

/-- If the failure is a diagnostic, no name or lexeme in it has a line feed in it. -/
def FailsInLine (e : Failure) : Prop := ∀ d, e = .diagnostic d → d.NamesLines

theorem failsInLine_diagnostic {d : Diagnostic} (h : d.NamesLines) : FailsInLine (.diagnostic d) :=
  fun _ heq => Failure.diagnostic.inj heq ▸ h

theorem failsInLine_fault (f : Fault) : FailsInLine (.fault f) := fun _ heq => nomatch heq

/-- A run beside itself. -/
def lining : Pairing where
  states s s' := s' = s ∧ HoldsLines s
  failures e e' := e' = e ∧ FailsInLine e
  lost _ := False

/-- The token is the same one, and its lexeme is a line. -/
def InLine (t t' : Token) : Prop := t' = t ∧ IsLine t.lexeme

/-- The result is the same one, and has the property. -/
def Same (p : α → Prop) (a a' : α) : Prop := a' = a ∧ p a

section Steps

variable {s : State}

theorem HoldsLines.withTable (h : HoldsLines s) {t : SymbolTable} (ht : t.NamesLines) :
    HoldsLines { s with table := t } := ⟨h.source, h.current, ht, h.listing⟩

theorem lines_modify {f : State → State} (hf : ∀ s, HoldsLines s → HoldsLines (f s)) :
    Tracks lining Eq (modify f) (modify f) := by
  refine .modify ?_
  rintro _ s ⟨rfl, hs⟩
  exact ⟨rfl, hf s hs⟩

theorem lines_get {results : α → β → Prop} {f : State → Analysis α} {f' : State → Analysis β}
    (h : ∀ s, HoldsLines s → Tracks lining results (f s) (f' s)) :
    Tracks lining results (get >>= f) (get >>= f') := by
  refine .get_bind ?_
  rintro _ s ⟨rfl, hs⟩
  exact h s hs

theorem lines_fail {results : α → β → Prop} (f : Fault) :
    Tracks lining results (fail f) (fail f) := .throw ⟨rfl, failsInLine_fault f⟩

theorem lines_report {results : α → β → Prop} {d : Diagnostic} (h : d.NamesLines) :
    Tracks lining results (report d) (report d) := .throw ⟨rfl, failsInLine_diagnostic h⟩

/-! ### Symbols -/

theorem lines_modifyTable {g : SymbolTable → SymbolTable}
    (hg : ∀ t, t.NamesLines → (g t).NamesLines) :
    Tracks lining Eq (modifyTable g) (modifyTable g) :=
  lines_modify fun _ hs => hs.withTable (hg _ hs.table)

theorem lines_liftSymbol {p : α → Prop} {r : Except SymbolError α} (hr : ∀ a, r = .ok a → p a) :
    Tracks lining (Same p) (liftSymbol r) (liftSymbol r) := by
  cases r with
  | ok a => exact .pure ⟨rfl, hr a rfl⟩
  | error e => exact lines_fail _

theorem lines_log {e : Entry} (he : e.IsLines) : Tracks lining Eq (log e) (log e) := by
  refine lines_modify fun s hs => ⟨hs.source, hs.current, hs.table, ?_⟩
  rw [Array.toList_push, List.forall_mem_append]
  exact ⟨hs.listing, List.forall_mem_singleton.mpr he⟩

theorem lines_needRow (x : Symbol) : Tracks lining Eq (needRow x) (needRow x) :=
  .ite (.pure rfl) (lines_fail _)

theorem lines_symbol (h : Handle) :
    Tracks lining (Same fun a => IsLine a.name) (symbol h) (symbol h) :=
  lines_get fun _ hs => .pure ⟨rfl, hs.table h⟩

theorem lines_updateSymbol (h : Handle) {g : Symbol → Except SymbolError Symbol}
    (hg : ∀ a b, g a = .ok b → b.name = a.name) :
    Tracks lining Eq (updateSymbol h g) (updateSymbol h g) := by
  refine (lines_symbol h).bind ?_
  rintro _ a ⟨rfl, ha⟩
  refine (lines_liftSymbol (p := fun b => IsLine b.name) fun b hb => by rwa [hg a b hb]).bind ?_
  rintro _ b ⟨rfl, hb⟩
  exact lines_modifyTable fun t ht => ht.set hb h

theorem lines_logDeclared (h : Handle) : Tracks lining Eq (logDeclared h) (logDeclared h) := by
  refine (lines_symbol h).bind ?_
  rintro _ a ⟨rfl, ha⟩
  exact (lines_liftSymbol (p := fun _ => True) fun _ _ => trivial).bind fun _ _ _ =>
    (lines_needRow a).bind fun _ _ _ => lines_log (Entry.isLines_declared ha)

theorem lines_size (h : Handle) {f : Int → Analysis α}
    (hf : ∀ size, Tracks lining Eq (f size) (f size)) :
    Tracks lining Eq (symbol h >>= fun a => liftSymbol a.size >>= f)
      (symbol h >>= fun a => liftSymbol a.size >>= f) := by
  refine (lines_symbol h).bind ?_
  rintro _ a ⟨rfl, -⟩
  refine (lines_liftSymbol (p := fun _ => True) fun _ _ => trivial).bind ?_
  rintro _ size ⟨rfl, -⟩
  exact hf size

theorem lines_logSnapshot {scope : ScopeName} (hscope : IsLine scope.title) :
    Tracks lining Eq (logSnapshot scope) (logSnapshot scope) := by
  refine lines_get fun s hs => ?_
  refine (Tracks.forM lines_needRow _).bind fun _ _ _ =>
    (lines_log (Entry.isLines_snapshot hscope fun x hx => ?_)).bind fun _ _ _ =>
      lines_modify fun s₁ hs₁ => ?_
  · obtain ⟨h, -, rfl⟩ := List.mem_map.mp hx
    exact hs.table h
  · split
    · exact ⟨hs₁.source, hs₁.current, hs₁.table, hs₁.listing⟩
    · exact hs₁

/-! ### Names -/

variable {t t' : Token} {name : String}

theorem lines_checkNew (ht : IsLine t.lexeme) : Tracks lining Eq (checkNew t) (checkNew t) :=
  lines_get fun _ _ => .ite (lines_report ht) (.pure rfl)

theorem lines_checkDefined (ht : IsLine t.lexeme) :
    Tracks lining Eq (checkDefined t) (checkDefined t) :=
  lines_get fun _ _ => .ite (lines_report ht) (.pure rfl)

theorem lines_declareName (hname : IsLine name) :
    Tracks lining Eq (declareName name) (declareName name) := by
  rintro _ s ⟨rfl, hs⟩
  exact ⟨_, _, rfl, rfl, rfl, hs.withTable (hs.table.insert hname _)⟩

theorem lines_functionNamed (name : String) :
    Tracks lining Eq (functionNamed name) (functionNamed name) := by
  refine lines_get fun s _ => ?_
  split
  · exact .pure rfl
  · exact lines_fail _

/-! ### Attributes and places -/

theorem lines_attributePending (attributes : Attributes) :
    Tracks lining Eq (attributePending attributes) (attributePending attributes) := by
  refine lines_modify fun s hs => hs.withTable ?_
  have htable := hs.table
  generalize s.table = t at htable
  induction s.pending generalizing t with
  | nil => exact htable
  | cons h rest ih =>
    refine ih _ (htable.set ?_ h)
    rw [Symbol.name_giveAttributes]
    exact htable h

theorem lines_recordParameters (function : Handle) (mode : Mode) :
    Tracks lining Eq (recordParameters function mode) (recordParameters function mode) := by
  have hone : ∀ h, Tracks lining Eq (recordParameter function mode h)
      (recordParameter function mode h) := by
    intro h
    refine (lines_symbol h).bind ?_
    rintro _ a ⟨rfl, -⟩
    split
    · exact (lines_updateSymbol function fun _ _ => Symbol.name_of_modifyFunction).bind
        fun _ _ _ => lines_updateSymbol h fun _ _ => Symbol.name_of_modifyStorage
    · exact lines_fail _
  exact lines_get fun s _ => (Tracks.forM hone _).bind fun _ _ _ =>
    lines_modify fun s hs => ⟨hs.source, hs.current, hs.table, hs.listing⟩

theorem lines_clearPending : Tracks lining Eq clearPending clearPending :=
  lines_modify fun _ hs => ⟨hs.source, hs.current, hs.table, hs.listing⟩

theorem lines_placeLocals (function : Handle) :
    Tracks lining Eq (placeLocals function) (placeLocals function) := by
  have hone : ∀ h, Tracks lining Eq (placeLocal h) (placeLocal h) := by
    refine fun h => lines_get fun s _ =>
      (lines_updateSymbol h fun _ _ => Symbol.name_of_modifyStorage).bind fun _ _ _ =>
        lines_size h fun size => Tracks.bind (lines_modify fun _ hs => ?_) fun _ _ _ =>
          lines_logDeclared h
    exact ⟨hs.source, hs.current, hs.table, hs.listing⟩
  exact lines_get fun s _ => (Tracks.forM hone _).bind fun _ _ _ => lines_get fun s _ =>
    (lines_updateSymbol function fun _ _ => Symbol.name_of_modifyFunction).bind fun _ _ _ =>
      lines_clearPending

theorem lines_placeParameters (name : String) :
    Tracks lining Eq (placeParameters name) (placeParameters name) := by
  have hone : ∀ offset h, Tracks lining Eq (placeParameter offset h) (placeParameter offset h) :=
    fun offset h => (lines_updateSymbol h fun _ _ => Symbol.name_of_modifyStorage).bind
      fun _ _ _ => lines_size h fun _ => .pure rfl
  refine lines_get fun s _ => (Tracks.foldlM hone _ _).bind ?_
  rintro top _ rfl
  refine (lines_functionNamed name).bind ?_
  rintro function _ rfl
  exact (lines_updateSymbol function fun _ _ => Symbol.name_of_modifyFunction).bind fun _ _ _ =>
    (Tracks.forM lines_logDeclared _).bind fun _ _ _ => lines_clearPending

theorem lines_afterMark (name : String) (mode : Option Mode) :
    Tracks lining Eq (afterMark name mode) (afterMark name mode) := by
  refine (lines_functionNamed name).bind ?_
  rintro function _ rfl
  cases mode with
  | some mode => exact lines_recordParameters function mode
  | none => exact lines_placeLocals function

/-! ### Scopes -/

theorem lines_declareTaken (ht : IsLine t.lexeme) :
    Tracks lining Eq (declareTaken t) (declareTaken t) := by
  refine (lines_checkNew ht).bind fun _ _ _ => (lines_declareName ht).bind ?_
  rintro h _ rfl
  exact lines_modify fun _ hs => ⟨hs.source, hs.current, hs.table, hs.listing⟩

theorem lines_openScope (ht : IsLine t.lexeme) (hk : t.kind = .identifier) :
    Tracks lining (Named InLine) (openScope t) (openScope t) := by
  refine (lines_checkNew ht).bind fun _ _ _ => (lines_declareName ht).bind ?_
  rintro h _ rfl
  have henter : Tracks lining Eq (modifyTable .enter) (modifyTable .enter) :=
    lines_modifyTable fun _ ht => ht
  exact (lines_updateSymbol h fun _ _ => Symbol.name_of_setKind).bind fun _ _ _ =>
    lines_get fun s _ => (lines_log (Entry.isLines_procedureDeclared ht)).bind fun _ _ _ =>
      henter.bind fun _ _ _ => (lines_log (Entry.isLines_scopeEntered ht)).bind fun _ _ _ =>
        .pure ⟨t, t, ⟨rfl, ht⟩, hk, rfl, rfl⟩

theorem lines_closeProcedure (hname : IsLine name) :
    Tracks lining Eq (closeProcedure name) (closeProcedure name) :=
  (lines_logSnapshot (Entry.isLine_title_procedure hname)).bind fun _ _ _ =>
    (lines_modifyTable fun _ ht => ht.leaveScopes 1).bind fun _ _ _ =>
      lines_get fun _ _ => lines_log (Entry.isLines_scopeLeft hname)

/-! ### Tokens -/

/-- A token that is read from the text is a line. -/
theorem lines_pull : Tracks lining Eq pull pull := by
  rintro _ s ⟨rfl, hs⟩
  obtain ⟨l, hl⟩ := hs.source
  have hnext : s.source.next = (l.next.1, .text l.next.2) := by rw [hl]; rfl
  cases hr : l.next.1 with
  | ok t =>
    have hscanned : t.IsScanned := ⟨l, l.next.2, Prod.ext hr rfl⟩
    rw [hr] at hnext
    rw [pull_eq_of_ok hnext]
    refine ⟨(), _, rfl, rfl, rfl, ⟨_, rfl⟩, fun u hu => ?_, hs.table, hs.listing⟩
    cases hu
    exact hscanned.isLine_lexeme
  | error e =>
    rw [hr] at hnext
    rw [pull_eq_of_error hnext]
    refine Or.inr ⟨_, _, rfl, ⟨rfl, ?_⟩, rfl, ⟨_, rfl⟩, hs.current, hs.table, hs.listing⟩
    cases e with
    | unknownCharacter char line => exact failsInLine_diagnostic trivial
    | spent => exact failsInLine_fault _

theorem lines_named {n n' : String} (h : Named InLine n n') : n' = n ∧ IsLine n := by
  obtain ⟨t, _, ⟨rfl, ht⟩, -, rfl, rfl⟩ := h
  exact ⟨rfl, ht⟩

theorem allPrimitives_lining : AllPrimitives lining InLine where
  current := by
    rintro _ s ⟨rfl, hs⟩
    cases hc : s.current with
    | none => exact .none
    | some t => exact .some ⟨rfl, hs.current t hc⟩
  matched := by
    rintro _ s _ t ⟨rfl, hs⟩ ⟨rfl, -⟩
    exact ⟨rfl, hs.source, hs.current, hs.table, hs.listing⟩
  next := lines_pull
  kind ht := by rw [ht.1]
  number ht _ := by rw [ht.1]
  minus ht _ := by rw [ht.1]
  modeWord ht := by rw [ht.1]
  closing hn ht := by rw [(lines_named hn).1, ht.1]
  noToken wanted := ⟨rfl, failsInLine_fault _⟩
  unexpected x ht := ⟨by rw [ht.1], failsInLine_diagnostic ht.2⟩
  otherName hn ht := ⟨by rw [(lines_named hn).1, ht.1], failsInLine_diagnostic (lines_named hn).2⟩
  unconsumed ht := ⟨by rw [ht.1], failsInLine_diagnostic ht.2⟩
  declare ht _ := by
    obtain ⟨rfl, ht⟩ := ht
    exact lines_declareTaken ht
  use ht _ := by
    obtain ⟨rfl, ht⟩ := ht
    exact lines_checkDefined ht
  value text := by
    unfold constantValue
    split
    · exact .pure rfl
    · exact lines_fail _
  attributes := lines_attributePending
  marked m hn := (lines_named hn).1 ▸ lines_afterMark _ m
  noneRecorded := lines_modify fun _ hs => ⟨hs.source, hs.current, hs.table, hs.listing⟩
  place hn := (lines_named hn).1 ▸ lines_placeParameters _
  noneLocal := lines_modify fun _ hs => ⟨hs.source, hs.current, hs.table, hs.listing⟩
  opened ht hk := by
    obtain ⟨rfl, ht⟩ := ht
    exact lines_openScope ht hk
  closed hn := by
    obtain ⟨rfl, hn⟩ := lines_named hn
    exact lines_closeProcedure hn
  depth hs := by rw [hs.1]
  unwound depth hs := by
    obtain ⟨rfl, hs⟩ := hs
    exact ⟨rfl, hs.withTable (hs.table.leaveScopes _)⟩
  alreadyRun := ⟨rfl, failsInLine_fault _⟩
  begun := lines_log (Entry.isLines_of_line rfl (by decide))
  completed := by
    refine Tracks.bind (lines_modify fun _ hs => ?_) fun _ _ _ =>
      (lines_logSnapshot (by decide)).bind fun _ _ _ =>
        lines_log (Entry.isLines_of_line rfl (by decide))
    exact ⟨hs.source, hs.current, hs.table, hs.listing⟩

/-- A run over a text, however it ends, leaves no line feed in what it has noted. -/
theorem lines_ofText (source : String) (tracing : Bool) :
    (∀ e, (Outcome.ofSource (.ofText source) tracing).failure = some e → FailsInLine e) ∧
      HoldsLines (Outcome.ofSource (.ofText source) tracing).state := by
  have hstart : HoldsLines (.ofSource (.ofText source) tracing) :=
    ⟨⟨_, rfl⟩, fun t ht => absurd ht (Option.not_mem_none t), fun _ => (by decide : IsLine ""),
      fun _ he => absurd he List.not_mem_nil⟩
  have hstates : lining.states (.ofSource (.ofText source) tracing)
      (.ofSource (.ofText source) tracing) := ⟨rfl, hstart⟩
  rcases tracks_ofSource allPrimitives_lining hstates with ⟨_, hno, -⟩ | ⟨hfailure, -, hstate⟩
  · exact hno.elim
  · refine ⟨fun e he => ?_, hstate⟩
    rw [he] at hfailure
    cases hfailure with
    | some h => exact h.2

end Steps

end Analysis

/-! ## What is shown -/

section Shown

variable {source line : String} {d : Diagnostic} {r : Report}

theorem namesLines_of_failure
    (h : (Outcome.ofSource (.ofText source) false).failure = some (.diagnostic d)) :
    d.NamesLines :=
  (Analysis.lines_ofText source false).1 _ h d rfl

theorem isLine_of_mem_listing (h : line ∈ (Outcome.ofSource (.ofText source) false).listing) :
    IsLine line := by
  obtain ⟨e, he, hm⟩ := List.mem_flatMap.mp h
  exact (Analysis.lines_ofText source false).2.listing e he line hm

/-- The outcome line and the listing of a report are lines. -/
theorem Report.isLines (h : Report.ofText source = .ok r) :
    IsLine r.message ∧ ∀ line ∈ r.listing, IsLine line := by
  cases hf : (Outcome.ofSource (.ofText source) false).failure with
  | none =>
    cases (ofOutcome_of_none hf).symm.trans h
    refine ⟨(by decide : IsLine noErrors), fun line hm => ?_⟩
    rw [Outcome.closedListing, Option.map_none, Option.getD_none, List.append_nil] at hm
    exact isLine_of_mem_listing hm
  | some e =>
    cases e with
    | diagnostic d =>
      cases (ofOutcome_of_diagnostic hf).symm.trans h
      have hd := namesLines_of_failure hf
      refine ⟨hd.isLine_message, fun line hm => ?_⟩
      rcases List.mem_append.mp hm with hm | hm
      · exact isLine_of_mem_listing hm
      · exact Entry.isLines_stopped hd line hm
    | fault f =>
      rw [Report.ofText, Report.ofOutcome, Outcome.verdict, hf] at h
      cases h

theorem isLine_text_of_tokenize {ts : List Token} (h : Lexer.tokenize source = .ok ts) :
    ∀ text ∈ ts.map Token.text, IsLine text :=
  List.forall_mem_map.mpr fun _ hm => Token.isLine_text (Lexer.isScanned_of_tokenize h hm).isLine_lexeme

/-- The tokens of a text end with the only end token. -/
theorem exists_of_tokenize {ts : List Token} (h : Lexer.tokenize source = .ok ts) :
    ∃ (front : List Token) (last : Int), ts = front ++ [Token.endOfInput last] ∧
      ∀ t ∈ front, t.kind ≠ .endOfInput := by
  obtain ⟨front, consumed, rest, -, hmunches, hverdict⟩ := Lexer.exists_tokenize source
  cases rest with
  | nil => exact ⟨front, _, Except.ok.inj (h.symm.trans hverdict),
      fun t hm => (hmunches.forall_mem t hm).1⟩
  | cons c more => cases h.symm.trans hverdict

end Shown

namespace CommandLine

open Text (splitLines endLines splitLines_endLines endLines_singleton)

/-- What is printed and written about a text falls into lines as it was put together: a failure is one
line, to which the listing is added only if it goes to the standard output itself; a written listing
can be read back; and each token has its line. -/
structure ShowsLines (σ : Settings) (source : String) (f : Finished) : Prop where
  failure : σ.tokens = false → σ.trace = false → f.status = .ok 1 →
    ∃ r, Report.ofText source = .ok r ∧ IsLine r.message ∧ f.err = "" ∧
      f.out = r.message ++ "\n" ++ if σ.listing = some .standard then endLines r.listing else ""
  listing {place : Place} {status : Nat} : σ.tokens = false → σ.listing = some (.file place) →
    f.status = .ok status → ∃ r text, Report.ofText source = .ok r ∧
      f.files.read? place = some text ∧ splitLines text = r.listing ++ [""]
  tokens {ts : List Token} : σ.tokens = true → Lexer.tokenize source = .ok ts →
    f.status = .ok 0 ∧ f.err = "" ∧ splitLines f.out = ts.map Token.text ++ [""]
  scanError {e : ScanError} : σ.tokens = true → Lexer.tokenize source = .error e →
    f.status = .ok 1 ∧ f.err = "" ∧ f.out = e.message ++ "\n"

variable {σ : Settings} {source : String}

theorem showsLines_printTokens (h : σ.tokens = true) :
    ShowsLines σ source (σ.printTokens source) where
  failure hno := nomatch h.symm.trans hno
  listing hno := nomatch h.symm.trans hno
  tokens {ts} _ hts := by
    rw [Settings.printTokens, hts]
    exact ⟨rfl, rfl, splitLines_endLines (isLine_text_of_tokenize hts)⟩
  scanError {e} _ he := by
    rw [Settings.printTokens, he]
    exact ⟨rfl, rfl, endLines_singleton e.message⟩

/-- Tracing does not change the report. -/
theorem ofOutcome_of_trace (source : String) (tracing : Bool) :
    Report.ofOutcome (.ofSource (.ofText source) tracing) = Report.ofText source := by
  cases tracing with
  | false => rfl
  | true =>
    obtain ⟨hfailure, hstate⟩ := Analysis.traced_alike (.ofText source)
    have hoften : ∀ o o' : Outcome, o.failure = o'.failure → o.table = o'.table →
        o.listing = o'.listing → Report.ofOutcome o = Report.ofOutcome o' := by
      intro o o' hf ht hl
      unfold Report.ofOutcome Outcome.verdict Outcome.closedListing
      rw [hf, ht, hl]
    exact hoften _ _ hfailure (by rw [Outcome.table, Outcome.entries, hstate]; rfl)
      (by rw [Outcome.listing, hstate]; rfl)

theorem status_writeListing (lines : List String) (f : Finished) :
    (σ.writeListing lines f).status = f.status := by
  unfold Settings.writeListing
  split <;> rfl

/-- An analysis that ends without a fault writes the listing of its report. -/
theorem exists_report {n : Nat} (h : (σ.printAnalysis source).status = .ok n) :
    ∃ r out, Report.ofText source = .ok r ∧
      σ.printAnalysis source = σ.writeListing r.listing ⟨.ok n, out, "", σ.files⟩ := by
  rw [← ofOutcome_of_trace source σ.trace]
  unfold Settings.printAnalysis at h ⊢
  dsimp only at h ⊢
  rw [Report.ofOutcome]
  cases hv : (Outcome.ofSource (.ofText source) σ.trace).verdict with
  | error fault =>
    rw [hv] at h
    cases h
  | ok verdict =>
    rw [hv] at h
    cases verdict with
    | none =>
      rw [status_writeListing] at h
      cases h
      exact ⟨_, _, rfl, rfl⟩
    | some d =>
      rw [status_writeListing] at h
      cases h
      exact ⟨_, _, rfl, rfl⟩

theorem showsLines_printAnalysis (h : σ.tokens = false) :
    ShowsLines σ source (σ.printAnalysis source) where
  failure _ htrace hstatus := by
    obtain ⟨r, -, hr, -⟩ := exists_report hstatus
    have hfinished := Settings.printAnalysis_of_report htrace hr
    have hmessage : r.message ≠ noErrors := by
      intro heq
      rw [hfinished, status_writeListing, if_pos heq] at hstatus
      cases hstatus
    rw [hfinished, if_neg hmessage, if_neg hmessage]
    refine ⟨r, hr, (Report.isLines hr).1, ?_⟩
    unfold Settings.writeListing
    cases hlisting : σ.listing with
    | none => exact ⟨rfl, (String.append_empty).symm⟩
    | some target =>
      cases target with
      | standard => exact ⟨rfl, rfl⟩
      | file place => exact ⟨rfl, (String.append_empty).symm⟩
  listing {place _} _ hlisting hstatus := by
    obtain ⟨r, out, hr, hfinished⟩ := exists_report hstatus
    refine ⟨r, endLines r.listing, hr, ?_, splitLines_endLines (Report.isLines hr).2⟩
    rw [hfinished, Settings.writeListing, hlisting]
    exact (Files.read?_write ..).trans (if_pos rfl)
  tokens hyes := nomatch h.symm.trans hyes
  scanError hyes := nomatch h.symm.trans hyes

theorem showsLines_execute (σ : Settings) (input : String) :
    ShowsLines σ (σ.sourceText input) (σ.execute input) := by
  have hexecute : σ.execute input = if σ.tokens then σ.printTokens (σ.sourceText input)
      else σ.printAnalysis (σ.sourceText input) := rfl
  rw [hexecute]
  split
  · next h => exact showsLines_printTokens h
  · next h => exact showsLines_printAnalysis (Bool.eq_false_of_not_eq_true h)

end CommandLine

/-- Whatever a text is, its diagnostics and the entries of its listing are single lines, and so they
are shown by the command. -/
theorem single_lines (source : String) :
    (∀ e, Lexer.tokenize source = .error e → IsLine e.message) ∧
    (∀ tracing d, (Outcome.ofSource (.ofText source) tracing).failure = some (.diagnostic d) →
      IsLine d.message) ∧
    (∀ r, Report.ofText source = .ok r → IsLine r.message ∧ ∀ line ∈ r.listing, IsLine line) ∧
    (∀ ts, Lexer.tokenize source = .ok ts → (∀ t ∈ ts, IsLine t.text) ∧
      ∃ (front : List Token) (last : Int), ts = front ++ [Token.endOfInput last] ∧
        ∀ t ∈ front, t.kind ≠ .endOfInput) ∧
    ∀ (arguments : List String) (input : String) (files : CommandLine.Files)
      (σ : CommandLine.Settings), CommandLine.Settings.ofPlan files (.ofArguments arguments) = .ok σ →
      σ.sourceText input = source →
      CommandLine.ShowsLines σ source (CommandLine.run arguments input files) := by
  refine ⟨fun e _ => e.isLine_message, fun tracing d hd => ?_, fun r => Report.isLines,
    fun ts hts => ⟨?_, exists_of_tokenize hts⟩, ?_⟩
  · exact ((Analysis.lines_ofText source tracing).1 _ hd d rfl).isLine_message
  · exact List.forall_mem_map.mp (isLine_text_of_tokenize hts)
  · rintro arguments input files σ hσ rfl
    rw [CommandLine.run_of_settings hσ]
    exact CommandLine.showsLines_execute σ input

/-- A text with an unknown character, on the standard input, with a listing. -/
theorem single_lines_unknownCharacter : ∃ r text,
    Report.ofText "a\n#" = .ok r ∧ IsLine r.message ∧
      (CommandLine.run ["--listing", "list"] "a\n#" (.ofList [])).out = r.message ++ "\n" ∧
      (CommandLine.run ["--listing", "list"] "a\n#" (.ofList [])).files.read?
        (CommandLine.Files.scratch.child "list") = some text ∧
      Text.splitLines text = r.listing ++ [""] := by
  have hlisting : CommandLine.IsPlain "list" := ⟨by decide +kernel, by decide +kernel⟩
  have hinvocation : CommandLine.Invocation "a\n#" (.ofList []) ["--listing", "list"] "a\n#"
      (some (CommandLine.Files.scratch.child "list")) := .standardListed hlisting rfl
  obtain ⟨σ, hσ, hanalyzes, htarget⟩ := hinvocation.exists_settings
  have hshows := (single_lines "a\n#").2.2.2.2 _ _ _ σ hσ (hanalyzes.sourceText (by decide))
  have hstatus : (CommandLine.run ["--listing", "list"] "a\n#" (.ofList [])).status = .ok 1 := by
    decide +kernel
  obtain ⟨r, hr, hline, -, hout⟩ := hshows.failure hanalyzes.tokens hanalyzes.trace hstatus
  obtain ⟨r', text, hr', hread, hsplit⟩ := hshows.listing hanalyzes.tokens htarget hstatus
  obtain rfl : r = r' := Except.ok.inj (hr.symm.trans hr')
  rw [htarget, if_neg (by simp), String.append_empty] at hout
  exact ⟨r, text, hr, hline, hout, hread, hsplit⟩

end ProcLang
