import ProcLang.Proofs.Heads
import ProcLang.Proofs.Run

/-!
# Listings of programs

A procedure that is read adds its function to the scope around it and the lines of its tree to the
listing, and leaves nothing else behind (`Analysis.Adds`). So the listing of an analysis that
succeeds is the rendering of the tree of its program (`Analysis.exists_program_listing`).
-/

namespace ProcLang

open SymbolTable (Extends)

/-! ## Snapshots -/

theorem Snapshot.lines_eq (scope : ScopeName) (depth : Int) (symbols : List Symbol) :
    Snapshot.lines ⟨scope, depth, symbols⟩ = scopeLines scope.title depth symbols := by
  unfold Snapshot.lines scopeLines
  cases symbols with
  | nil => rfl
  | cons s rest => simp [Function.comp_def]

/-- The snapshot of the present scope. -/
def State.snapshot (scope : ScopeName) (s : State) : Snapshot :=
  ⟨scope, s.table.depth, s.table.symbolsOf (s.table.entriesAt s.table.depth)⟩

/-- The state with a snapshot that is entered, and printed where there is tracing. -/
def State.withShot (s : State) (shot : Snapshot) : State :=
  { s with
    listing := s.listing.push (.snapshot shot)
    printed := if s.tracing then s.printed.push shot else s.printed }

namespace Analysis

variable {s s' s'' : State}

/-! ## What procedures add -/

/-- Between the states the procedures have been declared and their lines entered. -/
structure Adds (qs : List Procedure) (s s' : State) : Prop where
  table : Extends s.table s'.table (qs.map (·.symbol s.table.depth))
  pending : s'.pending = []
  lines : listingLines s'.listing.toList =
    listingLines s.listing.toList ++ Procedure.renderAll s.table.depth qs

namespace Adds

theorem refl (h : Ready s) : Adds [] s s :=
  ⟨.refl h.wellFormed h.bounded, h.pending, (List.append_nil _).symm⟩

theorem ready {qs : List Procedure} (h : Adds qs s s') : Ready s' :=
  ⟨h.table.wellFormed, h.table.bounded, h.pending⟩

theorem trans {qs rs : List Procedure} (h : Adds qs s s') (h' : Adds rs s' s'') :
    Adds (qs ++ rs) s s'' where
  table := by
    have htable := h'.table
    rw [h.table.depth] at htable
    rw [List.map_append]
    exact h.table.trans htable
  pending := h'.pending
  lines := by
    rw [h'.lines, h.lines, h.table.depth, Procedure.renderAll_append, List.append_assoc]

end Adds

/-! ## Single steps -/

theorem ends_forM_needRow_any (symbols : List Symbol) (s : State) :
    Ends (symbols.forM needRow) s (fun _ s' => s' = s) fun _ s' => s' = s := by
  induction symbols with
  | nil => rfl
  | cons symbol rest ih =>
    refine ends_bind.mpr ?_
    unfold needRow
    split
    · exact ih
    · rfl

theorem ends_logSnapshot_any (scope : ScopeName) (s : State) :
    Ends (logSnapshot scope) s (fun _ s' => s' = s.withShot (s.snapshot scope))
      fun _ s' => s' = s := by
  show Ends (do (s.table.symbolsOf (s.table.entriesAt s.table.depth)).forM needRow; _) s _ _
  refine (ends_forM_needRow_any _ s).andThen ?_
  rintro - _ rfl
  refine ends_bind.mpr ?_
  show (ite _ _ _ : State) = _
  unfold State.withShot
  split
  · rfl
  · rfl

theorem yields_logSnapshot (scope : ScopeName) (s : State) :
    Yields (logSnapshot scope) s fun _ s' =>
      s'.table = s.table ∧ s'.pending = s.pending ∧ s'.matched = s.matched ∧
        listingLines s'.listing.toList = listingLines s.listing.toList ++
          scopeLines scope.title s.table.depth
            (s.table.symbolsOf (s.table.entriesAt s.table.depth)) := by
  refine (ends_logSnapshot_any scope s).mono ?_ fun _ _ _ => trivial
  rintro - _ rfl
  have hlines := listingLines_push s.listing (.snapshot (s.snapshot scope))
  rw [Entry.lines, State.snapshot, Snapshot.lines_eq] at hlines
  exact ⟨rfl, rfl, rfl, hlines⟩

/-- Procedures are read one behind the other. -/
theorem yields_nested {step : Analysis Unit}
    (hstep : ∀ s, Ready s → Yields step s fun _ s' =>
      ∃ q : Procedure, Took q.terminals s s' ∧ Adds [q] s s') (h : Ready s) :
    Yields (whileKind .procedureWord step) s fun _ s' =>
      ∃ qs : List Procedure, Took (qs.flatMap Procedure.terminals) s s' ∧ Adds qs s s' := by
  refine yields_many Procedure.terminals (fun qs => Adds qs s) (fun qs s₁ t h₁ _ _ => ?_) []
    (.refl h)
  refine (hstep s₁ h₁.ready).mono ?_
  rintro - s₂ ⟨q, htook, h₂⟩
  exact ⟨q, htook, h₁.trans h₂⟩

/-- The name of a procedure is declared around it and its scope is entered. -/
theorem yields_openProcedure (h : Ready s) :
    Yields openProcedure s fun name s' => name ∉ s.table.namesAt.get s.table.depth ∧
      Took [.kind .procedureWord, .name name] s s' ∧
      Progress.Holds s.table name ⟨{}, [], [], [], s'.recorded, s'.nextOffset,
        listingLines s.listing.toList ++ [s!"Declared procedure: {name} (depth {s.table.depth})",
          s!"Entering procedure '{name}' scope (depth {s.table.depth + 1})"]⟩ s' := by
  refine (yields_expect_kind (by decide) s).bind ?_
  rintro - s₁ ⟨honly₁, htook₁⟩
  refine yields_bind.mpr (.currentToken fun t ht => ?_)
  refine (yields_expect_word ht).bind ?_
  rintro - s₂ ⟨honly₂, htook₂⟩
  obtain ⟨source, current, matched, rfl⟩ := honly₁.trans honly₂
  have hw : SymbolTable.WellFormed { s with source, current, matched }.table := h.wellFormed
  refine yields_bind.mpr ((ends_checkNew hw).mpr ?_)
  split
  · trivial
  · next hnew =>
    refine ends_declareFunction.mpr ⟨hnew, htook₁.trans htook₂, ?_⟩
    constructor
    · exact SymbolTable.enter_withFunction s.table t.lexeme
    · exact h.pending
    · rfl
    · rfl
    · show listingLines ((s.listing.push _).push _).toList = _
      rw [listingLines_push, listingLines_push, List.append_assoc]
      rfl
    · exact List.nodup_nil

/-- The scope of a procedure is left, with the lines on what it holds. -/
theorem yields_closeProcedure (name : String) (s : State) :
    Yields (closeProcedure name) s fun _ s' =>
      s'.table = s.table.leave ∧ s'.pending = s.pending ∧ s'.matched = s.matched ∧
        listingLines s'.listing.toList = listingLines s.listing.toList ++
          scopeLines s!"Procedure {name}" s.table.depth
            (s.table.symbolsOf (s.table.entriesAt s.table.depth)) ++
          [s!"Leaving procedure '{name}' scope (back to depth {s.table.depth - 1})"] := by
  refine (yields_logSnapshot (.procedure name) s).bind ?_
  rintro - s₁ ⟨htable, hpending, hmatched, hlines⟩
  refine ⟨congrArg SymbolTable.leave htable, hpending, hmatched, ?_⟩
  show listingLines (s₁.listing.push _).toList = _
  rw [listingLines_push, hlines]
  congr 1
  show [s!"Leaving procedure '{name}' scope (back to depth {s₁.table.depth - 1})"] = _
  rw [htable]

/-! ## Procedures -/

/-- A procedure of which `body` reads what is behind the procedures nested in it. Gives its name. -/
def procedureUpTo (body : String → Analysis Unit) (n : Nat) : Analysis String := do
  let name ← openProcedure
  procedureHead name
  whileKind .procedureWord (procedureWithin n)
  body name
  return name

/-- A procedure up to the closing of its scope. -/
abbrev procedureToClose : Nat → Analysis String := procedureUpTo procedureBody

theorem procedureWithin_succ (n : Nat) :
    procedureWithin (n + 1) = procedureToClose n >>= closeProcedure := by
  simp [procedureUpTo, procedureWithin]

/-- The procedure has been read from `b` on, and in `s` its scope is about to be closed. -/
structure Filled (b : State) (q : Procedure) (s : State) : Prop where
  took : Took q.terminals b s
  pending : s.pending = []
  depth : s.table.depth = b.table.depth + 1
  scope : s.table.symbolsOf (s.table.entriesAt s.table.depth) = q.scope (b.table.depth + 1)
  own : ∃ f, s.table.lookupAt? q.name b.table.depth = some f ∧
    s.table.symbol f = q.symbol b.table.depth
  leave : Extends b.table s.table.leave [q.symbol b.table.depth]
  lines : listingLines s.listing.toList =
    listingLines b.listing.toList ++ q.linesWithin b.table.depth

theorem yields_procedureToClose {n : Nat} (hn : ∀ s, Ready s → Yields (procedureWithin n) s
      fun _ s' => ∃ q : Procedure, Took q.terminals s s' ∧ Adds [q] s s') (h : Ready s) :
    Yields (procedureToClose n) s fun name s' =>
      ∃ q : Procedure, q.name = name ∧ Filled s q s' := by
  refine (yields_openProcedure h).bind ?_
  rintro name s₁ ⟨hname, htook₁, h₁⟩
  refine (h₁.yields_procedureHead h.wellFormed h.bounded).bind ?_
  rintro - s₂ ⟨parameters, locals, recorded, offset, htook₂, h₂⟩
  have hready : Ready s₂ := ⟨h₂.wellFormed h.wellFormed, h₂.bounded h.bounded, h₂.pending⟩
  refine (yields_nested hn hready).bind ?_
  rintro - s₃ ⟨nested, htook₃, h₃⟩
  refine (reading_procedureBody name s₃).bind ?_
  rintro - s₄ ⟨⟨body, closing⟩, honly₄, htook₄⟩
  have hsymbols := h₂.symbolsOf_entriesAt h.wellFormed h.bounded hname h₃.table
  have hown := h₂.lookupAt?_own h.wellFormed h.bounded hname h₃.table
  have hleave := h₂.leave h.wellFormed h.bounded hname h₃.table
  rw [← honly₄.table] at hsymbols hown hleave
  refine ⟨.mk name parameters locals nested body closing, rfl, ?_⟩
  constructor
  · have hterminals : (Procedure.mk name parameters locals nested body closing).terminals = _ :=
      Procedure.terminals.eq_1 ..
    have htook := htook₁.trans (htook₂.trans (htook₃.trans htook₄))
    rw [hterminals, Procedure.terminalsOfAll_eq]
    simpa using htook
  · exact honly₄.pending.trans h₃.pending
  · rw [honly₄.table, h₃.table.depth, h₂.depth]
  · rw [hsymbols, h₂.depth]
    simp [Progress.symbols, Procedure.scope]
  · exact ⟨_, hown⟩
  · exact hleave
  · rw [honly₄.listing, h₃.lines, h₂.lines, h₂.depth, Procedure.linesWithin, List.append_assoc,
      List.append_assoc, List.append_assoc]

/-- A procedure that is read adds what its tree says, with all procedures nested in it. By induction
on the bound of the nesting. -/
theorem yields_procedureWithin (n : Nat) (h : Ready s) :
    Yields (procedureWithin n) s fun _ s' =>
      ∃ q : Procedure, Took q.terminals s s' ∧ Adds [q] s s' := by
  induction n generalizing s with
  | zero => exact yields_reject
  | succ n ih =>
    rw [procedureWithin_succ]
    refine (yields_procedureToClose (fun s hs => ih hs) h).bind ?_
    rintro _ s₁ ⟨q, rfl, h₁⟩
    refine (yields_closeProcedure q.name s₁).mono ?_
    rintro - s₂ ⟨htable, hpending, hmatched, hlines⟩
    refine ⟨q, h₁.took.stay hmatched, ?_, hpending.trans h₁.pending, ?_⟩
    · rw [htable]
      exact h₁.leave
    · rw [hlines, h₁.lines, h₁.scope, h₁.depth, Int.add_sub_cancel, Procedure.renderAll_singleton,
        Procedure.render_eq, List.append_assoc, List.append_assoc, List.append_assoc]

/-! ## Runs -/

theorem yields_checkEnd (s : State) : Yields checkEnd s fun _ s' => s' = s := by
  refine yields_bind.mpr (.currentToken fun t ht => ?_)
  exact .ite (fun _ => trivial) fun _ => rfl

/-- The end of a run: the outermost scope holds the procedure alone. -/
theorem yields_conclusion {b : State} {q : Procedure} (h : Adds [q] b s)
    (htable : b.table = .empty)
    (hlines : listingLines b.listing.toList = ["--- Begin analysis ---"]) :
    Yields conclusion s fun _ s' => s'.table = s.table ∧
      s'.matched = s.matched ∧ listingLines s'.listing.toList = q.listing := by
  have hdepth : b.table.depth = 0 := by rw [htable]; rfl
  obtain ⟨hs, hentries, hsymbols⟩ := h.table.entries
  have hscope : s.table.symbolsOf (s.table.entriesAt s.table.depth) = [q.symbol 0] := by
    rw [h.table.depth, hentries, htable]
    rw [hdepth] at hsymbols
    exact hsymbols
  refine (yields_checkEnd s).bind ?_
  rintro - s rfl
  refine yields_bind.mpr ((yields_logSnapshot .outermost _).bind ?_)
  rintro - s₁ ⟨hkept, -, hmatched, hlines₁⟩
  refine ⟨hkept, hmatched, ?_⟩
  show listingLines (s₁.listing.push _).toList = _
  rw [listingLines_push, hlines₁]
  show listingLines s.listing.toList ++
    scopeLines "Global scope" s.table.depth
      (s.table.symbolsOf (s.table.entriesAt s.table.depth)) ++ _ = _
  rw [hscope, h.table.depth, h.lines, hlines, hdepth, Procedure.renderAll_singleton]
  rfl

/-- A run that succeeds adds the procedure that it reads to the empty table. -/
theorem yields_program (source : TokenSource) (tracing : Bool) :
    Yields analysisSteps (.ofSource source tracing) fun _ s' => ∃ q : Procedure,
      Took q.terminals (.ofSource source tracing) s' ∧ Extends .empty s'.table [q.symbol 0] ∧
        listingLines s'.listing.toList = q.listing := by
  refine yields_bind.mpr ?_
  show Yields (do log .begun; pull; procedureSteps; checkEnd; _) (.ofSource source tracing) _
  have hpull : Yields pull { State.ofSource source tracing with listing := #[.begun] } _ :=
    (ends_pull _).mono (fun _ _ h => h) fun _ _ _ => trivial
  refine yields_bind.mpr (hpull.bind ?_)
  rintro - b ⟨t, source', hnext, rfl⟩
  have hbegun : Begun (.ofSource source tracing) _ := ⟨t, source', hnext, rfl⟩
  refine Yields.bind (yields_procedureWithin _ hbegun.ready) ?_
  rintro - s₁ ⟨q, htook, h₁⟩
  refine (yields_conclusion h₁ rfl rfl).mono ?_
  rintro - s₂ ⟨htable, hmatched, hlines⟩
  exact ⟨q, htook.stay hmatched, htable ▸ h₁.table, hlines⟩

theorem yields_analysisSteps (source : TokenSource) (tracing : Bool) :
    Yields analysisSteps (.ofSource source tracing) fun _ s' => ∃ q : Procedure,
      Took q.terminals (.ofSource source tracing) s' ∧
        listingLines s'.listing.toList = q.listing :=
  (yields_program source tracing).mono fun _ _ ⟨q, htook, _, hlines⟩ => ⟨q, htook, hlines⟩

/-- The listing of an analysis that succeeds is that of a program, whose terminals are read from the
tokens of the source up to the end of the input. -/
theorem exists_program_listing (source : TokenSource) (tracing : Bool)
    (h : (Outcome.ofSource source tracing).failure = none) :
    ∃ (q : Procedure) (ts : List Token) (t : Token) (last : TokenSource),
      source.Supplies (ts ++ [t]) last ∧ t.kind = .endOfInput ∧ ReadAll q.terminals ts ∧
        (Outcome.ofSource source tracing).listing = q.listing := by
  have hends : Ends analyze (.ofSource source tracing) (fun _ s' =>
      RunSucceeds (.ofSource source tracing) s' ∧ ∃ q : Procedure,
        Took q.terminals (.ofSource source tracing) s' ∧
          listingLines s'.listing.toList = q.listing) fun _ _ => True :=
    ends_unwinding.mpr (((ends_analysisSteps source tracing).and
      (yields_analysisSteps source tracing)).mono (fun _ _ h => h) fun _ _ _ => trivial)
  obtain ⟨⟨b, names, s₁, t, hbegun, hstands, -, ht, hkind, hr⟩, q, ⟨ts, hmatched, hread⟩, hlines⟩ :=
    (ends_outcome.mp hends).1 h
  obtain ⟨taken, htaken, hsupplies, -⟩ := hbegun.exists_taken hstands.reads ht
  rw [hr.matched, htaken] at hmatched
  obtain rfl : taken = ts := List.reverse_injective (hmatched.trans (List.append_nil _))
  exact ⟨q, taken, t, s₁.source, hsupplies, hkind, hread, hlines⟩

/-- A program with a parameter and a nested procedure. -/
theorem exists_program_listing_nested :
    (Outcome.ofSource (.ofText
      "procedure p(a : float) is procedure q is begin end q; begin end p;") false).failure = none ∧
    ∃ (q : Procedure) (ts : List Token) (t : Token) (last : TokenSource),
      (TokenSource.ofText
        "procedure p(a : float) is procedure q is begin end q; begin end p;").Supplies
          (ts ++ [t]) last ∧
      t.kind = .endOfInput ∧ ReadAll q.terminals ts ∧
      (Outcome.ofSource (.ofText
        "procedure p(a : float) is procedure q is begin end q; begin end p;") false).listing =
          q.listing :=
  ⟨by decide +kernel, exists_program_listing _ false (by decide +kernel)⟩

example : (Procedure.mk "p" [⟨⟨"a", [], .integer⟩, some .output⟩] []
    [.mk "q" [] [⟨"b", [], .constant "25"⟩] [] [] "q"] [] "p").listing =
    ["--- Begin analysis ---", "Declared procedure: p (depth 0)",
      "Entering procedure 'p' scope (depth 1)",
      "  Declared parameter: "
        ++ "a               | variable  | integer   | D1   | 4      | 2    | param",
      "Declared procedure: q (depth 1)", "Entering procedure 'q' scope (depth 2)",
      "  Declared constant: "
        ++ "b               | constant  | integer   | D2   | 2      | 2    | value=25",
      "--- Procedure q (depth 2) ---",
      "  b               | constant  | integer   | D2   | 2      | 2    | value=25",
      "--- End of Procedure q ---", "Leaving procedure 'q' scope (back to depth 1)",
      "--- Procedure p (depth 1) ---",
      "  a               | variable  | integer   | D1   | 4      | 2    | param",
      "  q               | function  |           | D1   |        |      | "
        ++ "Params() params_size=0 locals_size=2",
      "--- End of Procedure p ---", "Leaving procedure 'p' scope (back to depth 0)",
      "--- Global scope (depth 0) ---",
      "  p               | function  |           | D0   |        |      | "
        ++ "Params(out integer) params_size=2 locals_size=0",
      "--- End of Global scope ---", "--- Analysis completed without errors ---"] := by
  decide +kernel

end Analysis

end ProcLang
