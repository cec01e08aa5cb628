import ProcLang.Proofs.ClosedScopes

/-!
# Tracing

Tracing changes nothing but what is printed, and what it prints can be read off the listing: it is
the blocks of lines from the first line of a snapshot to the last one (`snapshotBlocks`). There is
one for each scope that is closed, in the order in which they are closed, and one for the outermost
scope if the analysis succeeds (`Analysis.tracing_shows_snapshots`).
-/

namespace ProcLang

/-! ## Blocks of lines -/

/-- Whether a line begins a snapshot: `--- title (depth d) ---`. -/
def opensBlock (line : String) : Bool :=
  "--- ".toList.isPrefixOf line.toList && ") ---".toList.isSuffixOf line.toList

/-- Whether a line ends a snapshot: `--- End of title ---`. -/
def endsBlock (line : String) : Bool := "--- End of ".toList.isPrefixOf line.toList

/-- The snapshots among lines, the first of which may belong to a block that has begun. -/
def blocksFrom : Option (List String) → List String → List (List String)
  | _, [] => []
  | none, line :: rest => blocksFrom (if opensBlock line then some [line] else none) rest
  | some block, line :: rest =>
    if endsBlock line then (block ++ [line]) :: blocksFrom none rest
    else blocksFrom (some (block ++ [line])) rest

/-- The snapshots among the lines of a listing, each from its first line to its last one. -/
def snapshotBlocks (lines : List String) : List (List String) := blocksFrom none lines

section Blocks

variable {lines rows rest block : List String} {line : String}

theorem blocksFrom_none_append (h : ∀ line ∈ lines, opensBlock line = false) :
    blocksFrom none (lines ++ rest) = blocksFrom none rest := by
  induction lines with
  | nil => rfl
  | cons line lines ih =>
    obtain ⟨hline, hlines⟩ := List.forall_mem_cons.mp h
    rw [List.cons_append, blocksFrom, hline]
    exact ih hlines

theorem blocksFrom_some_append (h : ∀ line ∈ rows, endsBlock line = false) :
    blocksFrom (some block) (rows ++ rest) = blocksFrom (some (block ++ rows)) rest := by
  induction rows generalizing block with
  | nil => rw [List.nil_append, List.append_nil]
  | cons row rows ih =>
    obtain ⟨hrow, hrows⟩ := List.forall_mem_cons.mp h
    rw [List.cons_append, blocksFrom, hrow, if_neg Bool.false_ne_true, ih hrows, List.append_assoc]
    rfl

theorem endsBlock_indented (row : String) : endsBlock ("  " ++ row) = false := by
  rw [endsBlock, String.toList_append]
  rfl

theorem opensBlock_title (title : String) (depth : Int) :
    opensBlock s!"--- {title} (depth {depth}) ---" = true := by
  rw [opensBlock, Bool.and_eq_true, List.isPrefixOf_iff_prefix, List.isSuffixOf_iff_suffix]
  constructor
  · exact ⟨_, by simp only [String.toList_append, List.append_assoc]; rfl⟩
  · exact ⟨_, by simp only [String.toList_append]; rfl⟩

theorem endsBlock_title (title : String) : endsBlock s!"--- End of {title} ---" = true := by
  rw [endsBlock, List.isPrefixOf_iff_prefix]
  exact ⟨_, by simp only [String.toList_append, List.append_assoc]; rfl⟩

theorem blocksFrom_block {first last : String} (hfirst : opensBlock first = true)
    (hrows : ∀ row ∈ rows, endsBlock row = false) (hlast : endsBlock last = true) :
    blocksFrom none (first :: (rows ++ last :: rest)) =
      (first :: (rows ++ [last])) :: blocksFrom none rest := by
  rw [blocksFrom, hfirst, if_pos rfl, blocksFrom_some_append hrows, blocksFrom, hlast, if_pos rfl]
  rfl

/-- The lines of a snapshot are one block. -/
theorem blocksFrom_snapshot (shot : Snapshot) :
    blocksFrom none (shot.lines ++ rest) = shot.lines :: blocksFrom none rest := by
  have hrows : ∀ rows : List String, ∀ row ∈ rows.map ("  " ++ ·), endsBlock row = false := by
    intro rows _ hrow
    obtain ⟨row, -, rfl⟩ := List.mem_map.mp hrow
    exact endsBlock_indented row
  unfold Snapshot.lines
  simp only [List.cons_append, List.append_assoc]
  exact blocksFrom_block (opensBlock_title _ _) (hrows _) (endsBlock_title _)

/-- What does not begin with a dash begins no block. -/
theorem opensBlock_eq_false (h : line.toList.head? ≠ some '-') : opensBlock line = false := by
  rw [opensBlock, Bool.and_eq_false_iff]
  refine Or.inl (Bool.eq_false_iff.mpr fun hp => h ?_)
  obtain ⟨cs, hcs⟩ := List.isPrefixOf_iff_prefix.mp hp
  rw [← hcs]
  rfl

end Blocks

theorem Entry.opensBlock_eq_false {x : Entry} (h : x.snapshot? = none) :
    ∀ line ∈ x.lines, opensBlock line = false := by
  cases x with
  | snapshot shot => cases h
  | begun | completed => decide
  | procedureDeclared | scopeEntered | declared | scopeLeft | stopped =>
    refine List.forall_mem_singleton.mpr (ProcLang.opensBlock_eq_false fun hdash => ?_)
    simp only [String.toList_append, List.append_assoc] at hdash
    exact absurd (Option.some.inj hdash) (by decide)

/-- The blocks of a listing are its snapshots. -/
theorem snapshotBlocks_listingLines (entries : List Entry) :
    snapshotBlocks (listingLines entries) =
      (entries.filterMap Entry.snapshot?).map Snapshot.lines := by
  induction entries with
  | nil => rfl
  | cons x entries ih =>
    show blocksFrom none (x.lines ++ listingLines entries) = _
    cases hx : x.snapshot? with
    | none =>
      rw [blocksFrom_none_append (Entry.opensBlock_eq_false hx), List.filterMap_cons_none hx]
      exact ih
    | some shot =>
      obtain rfl : x = .snapshot shot := by
        cases x <;> cases hx
        rfl
      rw [List.filterMap_cons_some hx, List.map_cons, ← ih]
      exact blocksFrom_snapshot shot

example : snapshotBlocks ["--- Begin analysis ---", "--- Procedure p (depth 1) ---", "  <empty>",
    "--- End of Procedure p ---", "Leaving procedure 'p' scope (back to depth 0)"] =
    [["--- Procedure p (depth 1) ---", "  <empty>", "--- End of Procedure p ---"]] := by
  decide +kernel

/-! ## Runs -/

namespace Analysis

variable {s : State}

/-- These snapshots have been entered into the listing, and no others, and where there is tracing
they have been printed. -/
def Shown (shots : List Snapshot) (s : State) : Prop :=
  s.listing.toList.filterMap Entry.snapshot? = shots ∧ (s.tracing = true → s.printed.toList = shots)

/-- A run begins in one way. -/
theorem Begun.unique {b b' : State} (h : Begun s b) (h' : Begun s b') : b = b' := by
  obtain ⟨t, mid, hn, rfl⟩ := h
  obtain ⟨t', mid', hn', rfl⟩ := h'
  cases hn.symm.trans hn'
  rfl

theorem ends_conclusion_shown {shots : List Snapshot} (h : Shown shots s) :
    Ends conclusion s (fun _ s' => Shown (shots ++ [s'.snapshot .outermost]) s')
      fun _ s' => Shown shots s' := by
  have hcheck : Ends checkEnd s (fun _ s' => s' = s) fun _ s' => s' = s := by
    refine ends_bind.mpr ?_
    cases ht : s.current with
    | none => exact (ends_currentToken_of_none ht).mpr rfl
    | some t =>
      rw [ends_currentToken ht]
      split <;> rfl
  refine hcheck.bind ?_ ?_
  · rintro - s rfl
    refine ends_bind.mpr ((ends_logSnapshot_any .outermost _).bind ?_ ?_)
    · rintro - _ rfl
      obtain ⟨hentered, hprinted⟩ := h
      constructor
      · show ((s.listing.push (.snapshot (s.snapshot .outermost))).push .completed).toList.filterMap
          Entry.snapshot? = shots ++ [s.snapshot .outermost]
        rw [Array.toList_push, Array.toList_push, List.filterMap_append, List.filterMap_append,
          hentered, List.append_assoc]
        rfl
      · intro ht
        have htraced : s.tracing = true := ht
        show (if s.tracing then s.printed.push (s.snapshot .outermost) else s.printed).toList =
          shots ++ [s.snapshot .outermost]
        rw [if_pos htraced, Array.toList_push, hprinted htraced]
    · rintro - _ rfl
      exact h
  · rintro - _ rfl
    exact h

/-- Exactly the scopes that are closed in the run have been shown, one behind the other, and then
what is last. -/
def RunShown (source : TokenSource) (tracing : Bool) (last : List Snapshot) (s : State) : Prop :=
  ∃ closed : List Closing, (∀ c, c ∈ closed ↔ c.IsInRun source tracing) ∧
    closed.Pairwise Closing.Before ∧ Shown (closed.map Closing.snapshot ++ last) s

/-- A run shows the outermost scope last if it succeeds. -/
theorem ends_analysisSteps_shown (source : TokenSource) (tracing : Bool) :
    Ends analysisSteps (.ofSource source tracing)
      (fun _ s => RunShown source tracing [s.snapshot .outermost] s)
      fun _ => RunShown source tracing [] := by
  show Ends (do log .begun; pull; procedureSteps; conclusion) (.ofSource source tracing) _ _
  refine ends_bind.mpr ((ends_pull _).bind ?_ ?_)
  · rintro - b hb
    have hbegun : Begun (.ofSource source tracing) b := hb
    have hrun : ∀ c : Closing, c.IsInRun source tracing ↔ c.IsIn (b.source.bound + 1) b := by
      refine fun c => ⟨?_, fun hin => ⟨b, hbegun, hin⟩⟩
      rintro ⟨b', hbegun', hin⟩
      rwa [hbegun.unique hbegun']
    have hsteps : Traces (fun c => c.IsInRun source tracing) procedureSteps b :=
      Ends.mono (traces_procedureWithin _ b) (fun _ s ⟨closed, h⟩ => ⟨closed, h.congr hrun⟩)
        fun _ s ⟨closed, h⟩ => ⟨closed, h.congr hrun⟩
    have hshown : ∀ {s closed}, Logged (fun c => c.IsInRun source tracing) closed b s →
        Shown (closed.map Closing.snapshot ++ []) s := by
      obtain ⟨t, source', -, rfl⟩ := hbegun
      intro s closed h
      rw [List.append_nil]
      exact ⟨h.entered, fun ht => h.printed (h.tracing.symm.trans ht)⟩
    refine Ends.bind hsteps ?_ fun _ s ⟨closed, h⟩ => ⟨closed, h.mem_iff, h.order, hshown h⟩
    rintro - s ⟨closed, h⟩
    have hlast := ends_conclusion_shown (hshown h)
    rw [List.append_nil] at hlast
    refine hlast.mono (fun _ _ h' => ⟨closed, h.mem_iff, h.order, h'⟩) fun _ _ h' => ?_
    exact ⟨closed, h.mem_iff, h.order, by rwa [List.append_nil]⟩
  · rintro e s ⟨err, source', hn, rfl, rfl⟩
    refine ⟨[], fun c => iff_of_false List.not_mem_nil ?_, .nil, rfl, fun _ => rfl⟩
    rintro ⟨b, ⟨t, source'', hn', -⟩, -⟩
    cases hn.symm.trans hn'

/-! ## The traced run and the other one -/

/-- A run without tracing goes along with the same run with tracing. -/
def tracedAlong : Coupling where
  sources := Eq
  lost _ := False
  traces t t' := t.1 = false ∧ t'.1 = true

theorem coupled_tracedAlong : Coupled tracedAlong where
  toSourcesCoupled := .of_eq rfl
  snapshot _ h := h

/-- With tracing a run ends as it does without, and in the same state but for what is printed. -/
theorem traced_alike (source : TokenSource) :
    (Outcome.ofSource source true).failure = (Outcome.ofSource source false).failure ∧
      (Outcome.ofSource source true).state = { (Outcome.ofSource source false).state with
        tracing := true, printed := (Outcome.ofSource source true).state.printed } := by
  have hsources : tracedAlong.sources source source := rfl
  rcases alike_ofSource coupled_tracedAlong hsources ⟨rfl, rfl⟩ with ⟨err, hno, -⟩ | ⟨hfailure, hs⟩
  · exact hno.elim
  · refine ⟨hfailure, ?_⟩
    have hsource : (Outcome.ofSource source false).state.source =
        (Outcome.ofSource source true).state.source := hs.sources
    have htracing : (Outcome.ofSource source true).state.tracing = true := hs.traces.2
    refine hs.eq.trans ?_
    rw [← hsource, htracing]

/-- Tracing changes nothing but what is printed. Without it nothing is printed, and with it exactly
the blocks of snapshots in the listing, each line ended. There is one block for each scope that is
closed, in the order in which they are closed, the inner ones first, and one for the outermost scope
if the analysis succeeds. -/
theorem tracing_shows_snapshots (source : TokenSource) :
    (Outcome.ofSource source true).failure = (Outcome.ofSource source false).failure ∧
    (Outcome.ofSource source true).state = { (Outcome.ofSource source false).state with
      tracing := true, printed := (Outcome.ofSource source true).state.printed } ∧
    (Outcome.ofSource source false).printedLines = [] ∧
    (Outcome.ofSource source true).printedLines =
      (snapshotBlocks (Outcome.ofSource source true).listing).flatten ∧
    Text.endLines (Outcome.ofSource source true).printedLines = String.join
      ((snapshotBlocks (Outcome.ofSource source true).listing).flatten.map (· ++ "\n")) ∧
    ∃ closed : List Closing, (∀ c, c ∈ closed ↔ c.IsInRun source true) ∧
      closed.Pairwise Closing.Before ∧ (∀ c c' : Closing, c.Inside c' → c.Before c') ∧
      snapshotBlocks (Outcome.ofSource source true).listing =
        closed.map (fun c => c.snapshot.lines) ++
          if (Outcome.ofSource source true).failure = none then
            [((Outcome.ofSource source true).state.snapshot .outermost).lines]
          else [] := by
  obtain ⟨hfailure, hstate⟩ := traced_alike source
  have htraced : (Outcome.ofSource source true).state.tracing = true := by rw [hstate]
  -- the scopes that a failed run has left open are ended without being shown
  have hrun : Ends analyze (.ofSource source true)
      (fun _ s => RunShown source true [s.snapshot .outermost] s)
      fun _ => RunShown source true [] := ends_unwinding.mpr (ends_analysisSteps_shown source true)
  obtain ⟨closed, hmem, horder, hentered, hprinted⟩ : RunShown source true
      (if (Outcome.ofSource source true).failure = none then
        [(Outcome.ofSource source true).state.snapshot .outermost] else [])
      (Outcome.ofSource source true).state := by
    cases hf : (Outcome.ofSource source true).failure with
    | none => exact (ends_outcome.mp hrun).1 hf
    | some e => exact (ends_outcome.mp hrun).2 e hf
  have hblocks : snapshotBlocks (Outcome.ofSource source true).listing = _ :=
    (snapshotBlocks_listingLines _).trans (congrArg (List.map Snapshot.lines) hentered)
  have hlines : (Outcome.ofSource source true).printedLines =
      (snapshotBlocks (Outcome.ofSource source true).listing).flatten := by
    rw [hblocks, Outcome.printedLines, hprinted htraced]
    rfl
  refine ⟨hfailure, hstate, printedLines_of_untraced source, hlines, ?_, closed, hmem, horder,
    fun _ _ => before_of_inside, ?_⟩
  · rw [Text.endLines, hlines]
  · rw [hblocks, List.map_append, List.map_map]
    congr 1
    split <;> rfl

end Analysis

end ProcLang
