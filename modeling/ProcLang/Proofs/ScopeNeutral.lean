import ProcLang.Proofs.Run
import ProcLang.Proofs.Unwinding

/-!
# A procedure is neutral for the scopes

Whatever way the reading of a procedure ends, the scopes it has opened are closed, and of what it
has declared only its own function is left (`procedure_scope_neutral`). A failed reading leaves the
function as it was when the reading stopped.
-/

namespace ProcLang

theorem Mirrors.namesAt_base {b t : SymbolTable} {d : Int} (inner : List Frame) {g : Frame}
    (h : Mirrors b t d (inner ++ [g])) : t.namesAt.get b.depth = g.names := by
  induction inner generalizing d with
  | nil =>
    have hd : d - 1 = b.depth - 1 := h.2
    have hd : d = b.depth := by omega
    rw [← hd]
    exact h.1
  | cons f rest ih => exact ih h.2

namespace SymbolTable

theorem unwindTo_self {t : SymbolTable} {d : Int} (h : t.depth = d) : t.unwindTo d = t := by
  unfold unwindTo
  rw [h, Int.sub_self]
  rfl

/-- Where a declaration is left, it was before the scopes were ended. -/
theorem WellFormed.mem_of_mem_unwindTo {t : SymbolTable} (ht : t.WellFormed) {d : Int} {y : String}
    {h : Handle} (hm : h ∈ (t.unwindTo d).byName.get y) : h ∈ t.byName.get y :=
  ht.mem_of_mem_leaveScopes hm

end SymbolTable

namespace Analysis

open SymbolTable (AddsOnly)

variable {b s s' : State} {f : Frame} {rest : List Frame} {source : TokenSource}
  {tracing : Bool}

/-- The handle is that of the procedure that was read from `b` on: a new function, declared in the
scope of `b` under the name that was taken behind the first token. -/
structure OwnFunction (b s : State) (h : Handle) : Prop where
  new : b.table.symbols.size ≤ h
  kind : (s.table.symbol h).kind? = some .func
  depth : (s.table.symbol h).depth = b.table.depth
  name : ∃ word name more, s.matched = more ++ name :: word :: b.matched ∧
    (s.table.symbol h).name = name.lexeme

/-- At most the function of the procedure has been added to the declarations of `b`. -/
def AddsFunction (b s : State) (added : List Handle) : Prop :=
  AddsOnly b.table s.table added ∧ added.length ≤ 1 ∧ ∀ h ∈ added, OwnFunction b s h

variable (s') in
/-- What is left of a state at frames when the scopes of the procedure are ended. -/
theorem Stands.addsFunction (hs : Stands b f rest s)
    (hs' : s'.table = s.table.unwindTo b.table.depth)
    (hmatched : ∃ more, s'.matched = more ++ s.matched) :
    ∃ added, AddsFunction b s' added ∧ (f.goals = [] ∧ rest = [] → added.length = 1) := by
  have hg := hs.grown.unwindTo
  have hdepth := hs.grown.depth_unwindTo
  have hsymbol : ∀ h, s'.table.symbol h = s.table.symbol h := fun h => by
    rw [hs']
    exact SymbolTable.symbol_leaveScopes _ _ h
  rw [← hs'] at hg hdepth
  have hnamesAt := hs.grown.namesAt_unwindTo
  rw [← hs'] at hnamesAt
  obtain ⟨first, taken, pulled, t, -, -, htaken, -, -, hall⟩ := hs.reads
  obtain ⟨more', hmore'⟩ := hmatched
  rcases base_of_takeAll hall with ⟨goals, hgoals, hframes⟩ |
    ⟨word, name, more, inner, rfl, hnew, hframes⟩
  · have hmirrors := hs.mirrors
    rw [hframes] at hmirrors
    have hbase := Mirrors.namesAt_base [] hmirrors
    obtain ⟨added, hadds, hnames, -⟩ := hg.addsOnly hdepth none
      (by rw [hnamesAt, hbase]; simp) (by simp)
    have hnil : added = [] := List.map_eq_nil_iff.mp hnames
    subst hnil
    refine ⟨[], ⟨hadds, Nat.zero_le 1, fun _ h => absurd h List.not_mem_nil⟩, fun hdone => ?_⟩
    obtain ⟨hf, -⟩ := List.cons.inj hframes
    rw [hf] at hdone
    exact absurd hdone.1 hgoals
  · have hmirrors := hs.mirrors
    rw [hframes] at hmirrors
    have hbase := Mirrors.namesAt_base _ hmirrors
    obtain ⟨added, hadds, hnames, hadded⟩ := hg.addsOnly hdepth (some name.lexeme)
      (by rw [hnamesAt, hbase]; rfl) (by simpa using hnew)
    have hlength : added.length = 1 := by
      have h := congrArg List.length hnames
      rwa [List.length_map] at h
    refine ⟨added, ⟨hadds, Nat.le_of_eq hlength, fun h hm => ?_⟩, fun _ => hlength⟩
    obtain ⟨hsize, hlisted, hd⟩ := hadded h hm
    have hwas : h ∈ s.table.byName.get (s'.table.symbol h).name := by
      refine hs.grown.wellFormed.mem_of_mem_unwindTo (d := b.table.depth) ?_
      rw [← hs']
      exact hlisted
    refine ⟨hsize, ?_, hd, word, name, more' ++ more.reverse, ?_, ?_⟩
    · rw [hsymbol]
      exact hs.waiting.base _ h hwas hsize (by rw [← hsymbol, hd])
    · rw [hmore', htaken]
      simp
    · have hmem := List.mem_map_of_mem (f := fun h => (s'.table.symbol h).name) hm
      rw [hnames] at hmem
      exact List.mem_singleton.mp hmem

theorem exists_append {ts us : List Token} (h : ts = us ∨ ∃ t, ts = t :: us) :
    ∃ more, ts = more ++ us := by
  rcases h with rfl | ⟨t, rfl⟩
  · exact ⟨[], rfl⟩
  · exact ⟨[t], rfl⟩

/-- Without a token to look at nothing is done. -/
theorem ends_procedureSteps_of_none (h : s.current = none) :
    Ends procedureSteps s (fun _ _ => False) (fun _ s' => s' = s) := by
  show Ends (procedureWithin (s.source.bound + 1)) s _ _
  unfold procedureWithin openProcedure expect currentToken
  rw [ends_bind, ends_bind, ends_bind, ends_bind, ends_get, h]
  exact rfl

theorem Ready.ends_procedure (h : Ready b) :
    Ends procedure b
      (fun _ s => ∃ added, AddsFunction b s added ∧ added.length = 1 ∧ s.pending = [])
      (fun _ s => ∃ added, AddsFunction b s added) := by
  rw [procedure, ends_unwinding]
  by_cases ht : b.current = none
  · refine (ends_procedureSteps_of_none ht).mono (fun _ _ h => h.elim) ?_
    rintro - s' rfl
    refine ⟨[], ?_, Nat.zero_le 1, fun _ h => absurd h List.not_mem_nil⟩
    show AddsOnly s'.table (s'.table.unwindTo s'.table.depth) []
    rw [SymbolTable.unwindTo_self rfl]
    exact .refl _
  · obtain ⟨t, ht⟩ := Option.ne_none_iff_exists'.mp ht
    refine (h.ends_procedureSteps ht).mono ?_ ?_
    · rintro - s ⟨⟨names, hs⟩, hp⟩
      have hdepth : s.table.depth = b.table.depth := by
        have hd := hs.mirrors.depth_eq
        rw [List.length_singleton] at hd
        omega
      obtain ⟨added, hadds, hone⟩ := hs.addsFunction s
        (SymbolTable.unwindTo_self hdepth).symm ⟨[], rfl⟩
      exact ⟨added, hadds, hone ⟨rfl, rfl⟩, hp⟩
    · intro e s hstops
      obtain ⟨f, rest, s₀, hs, -, htable, -, hmatched⟩ := hstops.stands
      obtain ⟨added, hadds, -⟩ := hs.addsFunction
        { s with table := s.table.unwindTo b.table.depth }
        (congrArg (·.unwindTo b.table.depth) htable) (exists_append hmatched)
      exact ⟨added, hadds⟩

theorem Begun.addsFunction {s₀ : State} {added : List Handle} (hb : Begun s₀ b)
    (h : AddsFunction b s added) : AddsFunction s₀ s added := by
  obtain ⟨t, source, -, rfl⟩ := hb
  exact ⟨h.1, h.2.1, fun h' hm =>
    ⟨(h.2.2 h' hm).new, (h.2.2 h' hm).kind, (h.2.2 h' hm).depth, (h.2.2 h' hm).name⟩⟩

/-- A run adds at most the outermost procedure to the empty table. -/
theorem ends_analyze (source : TokenSource) (tracing : Bool) :
    Ends analyze (.ofSource source tracing)
      (fun _ s => ∃ added, AddsFunction (.ofSource source tracing) s added)
      (fun _ s => ∃ added, AddsFunction (.ofSource source tracing) s added) := by
  rw [analyze, ends_unwinding]
  refine (ends_analysisSteps source tracing).mono ?_ ?_
  · rintro - s ⟨b, names, s₁, t, hbegun, hs₁, -, -, -, hr⟩
    have hs := hs₁.rewrites hr
    have hdepth : s.table.depth = b.table.depth := by
      have hd := hs.mirrors.depth_eq
      rw [List.length_singleton] at hd
      omega
    obtain ⟨added, hadds, -⟩ := hs.addsFunction s
      (SymbolTable.unwindTo_self hdepth).symm ⟨[], rfl⟩
    exact ⟨added, hbegun.addsFunction hadds⟩
  · intro e s hstops
    cases hstops with
    | noToken =>
      refine ⟨[], ?_, Nat.zero_le 1, fun _ h => absurd h List.not_mem_nil⟩
      exact AddsOnly.refl SymbolTable.empty
    | stops hbegun hstops =>
      obtain ⟨f, rest, s₀, hs, -, htable, -, hmatched⟩ := hstops.stands
      obtain ⟨added, hadds, -⟩ := hs.addsFunction
        { s with table := s.table.unwindTo outermostDepth }
        (by rw [hbegun.table]; exact congrArg (·.unwindTo outermostDepth) htable)
        (exists_append hmatched)
      exact ⟨added, hbegun.addsFunction hadds⟩
    | unconsumed hbegun hs =>
      obtain ⟨added, hadds, -⟩ := hs.addsFunction
        { s with table := s.table.unwindTo outermostDepth }
        (by rw [hbegun.table]; rfl) ⟨[], rfl⟩
      exact ⟨added, hbegun.addsFunction hadds⟩

theorem entries_ofSource : (State.ofSource source tracing).table.entries = [] := by
  show SymbolTable.empty.entries = []
  simp [SymbolTable.entries, SymbolTable.empty, Index.keys, Index.empty]

/-- What a run leaves of its declarations is at most the outermost procedure. -/
theorem exists_addsFunction (source : TokenSource) (tracing : Bool) :
    ∃ added, AddsFunction (.ofSource source tracing) (Outcome.ofSource source tracing).state added ∧
      (Outcome.ofSource source tracing).state.table.entries = added := by
  obtain ⟨added, hadds⟩ : ∃ added,
      AddsFunction (.ofSource source tracing) (Outcome.ofSource source tracing).state added :=
    (ends_analyze source tracing).outcome
  exact ⟨added, hadds, hadds.1.entries.trans (by rw [entries_ofSource]; rfl)⟩

/-- From any state in which no name is pending and nothing is declared deeper than the present
scope, the reading of a procedure, also one that fails, leaves the depth and all declarations as
they were and adds at most the function of the procedure; when it succeeds it has added that one,
and no name is pending. So a run leaves the outermost depth and at most the outermost procedure. -/
theorem procedure_scope_neutral :
    (∀ s : State, s.table.Reachable →
      (∀ h ∈ s.table.entries, (s.table.symbol h).depth ≤ s.table.depth) → s.pending = [] →
      ∃ added, AddsFunction s (procedure.outcome s).state added ∧
        ((procedure.outcome s).failure = none →
          added.length = 1 ∧ (procedure.outcome s).state.pending = [])) ∧
    ∀ source tracing, ∃ added,
      AddsFunction (.ofSource source tracing) (Outcome.ofSource source tracing).state added ∧
      (Outcome.ofSource source tracing).state.table.depth = outermostDepth ∧
      (Outcome.ofSource source tracing).state.table.entries = added := by
  refine ⟨fun s hr hd hp => ?_, fun source tracing => ?_⟩
  · have hready : Ready s :=
      ⟨hr.wellFormed, fun y h hm => hd h (hr.wellFormed.mem_entries_iff.mpr ⟨y, hm⟩), hp⟩
    obtain ⟨hok, hbad⟩ := ends_outcome.mp hready.ends_procedure
    cases hf : (procedure.outcome s).failure with
    | none =>
      obtain ⟨added, hadds, hone, hpending⟩ := hok hf
      exact ⟨added, hadds, fun _ => ⟨hone, hpending⟩⟩
    | some e =>
      obtain ⟨added, hadds⟩ := hbad e hf
      exact ⟨added, hadds, fun hn => by cases hn⟩
  · obtain ⟨hok, hbad⟩ := ends_outcome.mp (ends_analyze source tracing)
    have hadds : ∃ added,
        AddsFunction (.ofSource source tracing) (Outcome.ofSource source tracing).state added := by
      cases hf : (Outcome.ofSource source tracing).failure with
      | none => exact hok hf
      | some e => exact hbad e hf
    obtain ⟨added, hadds⟩ := hadds
    exact ⟨added, hadds, hadds.1.depth, hadds.1.entries.trans (by rw [entries_ofSource]; rfl)⟩

/-- A state inside a procedure `p` with a local name that stands before a procedure `q`. -/
def beforeNested : State :=
  let outerTable := SymbolTable.empty.withFunction "p"
  let table := outerTable.enter.insert "x" 1
  { State.ofSource (.ofList [⟨.identifier, "q", 2⟩, ⟨.isWord, "is", 2⟩, ⟨.beginWord, "begin", 2⟩,
      ⟨.endWord, "end", 2⟩, ⟨.identifier, "Q", 2⟩, ⟨.semicolon, ";", 2⟩]) false with
    current := some ⟨.procedureWord, "procedure", 2⟩
    table := table.2.set table.1 ⟨"x", 1, .var (.ofType .integer)⟩ }

theorem procedure_scope_neutral_beforeNested :
    (procedure.outcome beforeNested).failure = none ∧
      ∃ added, AddsFunction beforeNested (procedure.outcome beforeNested).state added ∧
        added.length = 1 := by
  have hok : (procedure.outcome beforeNested).failure = none := by decide +kernel
  have hr : beforeNested.table.Reachable :=
    .setAttributes (t := (_ : SymbolTable)) 1 (.var (.ofType .integer))
      (.insert "x" 1 (.setDepth 1 (.setAttributes 0 (.func {}) (.insert "p" 0 .empty))))
  have hd : ∀ h ∈ beforeNested.table.entries,
      (beforeNested.table.symbol h).depth ≤ beforeNested.table.depth := by
    intro h hm
    obtain ⟨y, hlisted⟩ := hr.wellFormed.mem_entries_iff.mp hm
    have hlt : h < 2 := hr.wellFormed.handle_lt hlisted
    match h, hlt with
    | 0, _ => decide
    | 1, _ => decide
  obtain ⟨added, hadds, hone⟩ := procedure_scope_neutral.1 beforeNested hr hd rfl
  exact ⟨hok, added, hadds, (hone hok).1⟩

end Analysis

end ProcLang
