import ProcLang.Analysis.Procedure

/-!
# Running an analysis

An analysis reads one procedure and nothing behind it. It can run once on a state.
-/

namespace ProcLang

namespace Analysis

/-- Stops unless the token looked at is the end of the input. -/
def checkEnd : Analysis Unit := do
  let token ← currentToken .kind
  if token.kind ≠ .endOfInput then report (.unconsumed token)

/-- The steps of an analysis, without the closing of scopes after a failure. -/
def analysisSteps : Analysis Unit := do
  if (← get).current.isSome then fail .alreadyRun
  log .begun
  pull
  procedureSteps
  checkEnd
  modify fun s => { s with succeeded := true }
  logSnapshot .outermost
  log .completed

/-- Analyses the source of the state. -/
def analyze : Analysis Unit := unwinding analysisSteps

end Analysis

/-- The end of an analysis: its failure, if it failed, and its last state. -/
structure Outcome where
  failure : Option Failure
  state : State

/-- Runs a step of an analysis. -/
def Analysis.outcome (step : Analysis Unit) (s : State) : Outcome :=
  match step s with
  | .ok _ s' => ⟨none, s'⟩
  | .error e s' => ⟨some e, s'⟩

namespace Outcome

/-- The outcome of the analysis of a source. -/
def ofSource (source : TokenSource) (tracing : Bool) : Outcome :=
  Analysis.analyze.outcome (.ofSource source tracing)

/-- The declarations that are left. -/
def entries (o : Outcome) : List Symbol := o.state.table.symbolsOf o.state.table.entries

/-- The listing as lines. -/
def listing (o : Outcome) : List String := listingLines o.state.listing.toList

/-- The lines that tracing printed. -/
def printedLines (o : Outcome) : List String := o.state.printed.toList.flatMap Snapshot.lines

end Outcome

end ProcLang
