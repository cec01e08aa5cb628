import ProcLang.Analysis.Run

/-!
# Reports

A report is what a front end shows of the analysis of a text: the table of the declarations that are
left, a line on the outcome, and the listing. A fault gives no report.
-/

namespace ProcLang

/-- The outcome line of an analysis without errors. -/
def noErrors : String := "No errors reported."

/-- What stands in place of the table after an error. -/
def noTable : String := "No symbol table (analysis failed)."

namespace Outcome

/-- Whether an analysis ended without errors or with a diagnostic. -/
def verdict (o : Outcome) : Except Fault (Option Diagnostic) :=
  match o.failure with
  | none => .ok none
  | some (.diagnostic d) => .ok (some d)
  | some (.fault f) => .error f

/-- The listing with a last line on the diagnostic, if there is one. -/
def closedListing (o : Outcome) (diagnostic : Option Diagnostic) : List String :=
  o.listing ++ (diagnostic.map fun d => (Entry.stopped d).lines).getD []

/-- The table of the declarations that are left. -/
def table (o : Outcome) : String := tableText o.entries

end Outcome

/-- What is shown of an analysis. -/
structure Report where
  table : String
  message : String
  listing : List String
  deriving DecidableEq, Repr

namespace Report

/-- The report on an outcome. -/
def ofOutcome (o : Outcome) : Except Fault Report :=
  o.verdict.map fun
    | none => ⟨o.table, noErrors, o.closedListing none⟩
    | some d => ⟨noTable, d.message, o.closedListing (some d)⟩

/-- The report on a text. -/
def ofText (source : String) : Except Fault Report :=
  ofOutcome (.ofSource (.ofText source) false)

end Report

end ProcLang
