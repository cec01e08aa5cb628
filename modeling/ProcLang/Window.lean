import ProcLang.Report

/-!
# The window

The window has a source pane, two output panes for the symbol table and the report, a check box for
the listing, a status line, and a button for each of its two uses. A button shows its result in the
output panes and the status line. It shows a warning, and nothing else, where the source pane is
blank.
-/

namespace ProcLang

/-- A pane with text. Only an editable pane accepts a new text. -/
structure Pane where
  text : String
  editable : Bool
  deriving DecidableEq, Repr

namespace Pane

/-- Replaces the text where the pane accepts one. -/
def replace (p : Pane) (text : String) : Pane := if p.editable then { p with text := text } else p

/-- Shows a text in a pane that is not meant for typing. -/
def present (p : Pane) (text : String) : Pane :=
  { ({ p with editable := true } : Pane).replace text with editable := false }

/-- The text as it is read from a pane, with a line feed at its end. -/
def contents (p : Pane) : String := p.text ++ "\n"

end Pane

/-- What a button shows: the texts of the output panes and of the status line. -/
structure Display where
  table : String
  report : String
  status : String
  deriving DecidableEq, Repr

/-- The line of a token, with its line number. -/
def tokenLine (t : Token) : String :=
  "line " ++ Text.padRight 4 (toString t.line) ++ " " ++ t.text

/-- One token per line. -/
def tokenListing (source : String) : String :=
  match Lexer.tokenize source with
  | .ok tokens =>
    Text.joinLines (tokens.map tokenLine)
  | .error e => "Lexical error:\n" ++ e.message

/-- The tokens of a text, as they are shown. -/
def Display.ofTokens (source : String) : Display := ⟨"", tokenListing source, "Token stream"⟩

/-- The lines of a listing below a report. -/
def listingBlock (lines : List String) : String :=
  "\n\n--- Listing ---\n" ++ Text.joinLines lines

/-- The analysis of a text, as it is shown. -/
def Display.ofAnalysis (source : String) (showListing : Bool) : Except Fault Display :=
  if Text.strip source = "" then .ok ⟨"", "Please enter source code.", "No source"⟩
  else
    (Report.ofText source).map fun r =>
      let report := r.message ++ if showListing then listingBlock r.listing else ""
      if r.message = noErrors then ⟨r.table, report, "Analysis succeeded"⟩
      else ⟨"", report, "Analysis failed"⟩

/-- A message box. -/
structure Warning where
  title : String
  text : String
  deriving DecidableEq, Repr

/-- The warning on a blank source pane. -/
def blankWarning : Warning :=
  ⟨"Empty input", "Enter a procedure before running the analysis."⟩

/-- The buttons of the window. -/
inductive Button where
  | tokens
  | analyze
  deriving DecidableEq, Repr

namespace Button

/-- All buttons, from left to right. -/
def all : List Button := [tokens, analyze]

/-- The label on a button. -/
def label : Button → String
  | tokens => "Tokens"
  | analyze => "Analyze"

end Button

/-- The state of the window. -/
structure Window where
  source : Pane
  showListing : Bool
  table : Pane
  report : Pane
  status : String
  deriving DecidableEq, Repr

namespace Window

/-- The title of the window. -/
def title : String := "Procedure Analyzer"

/-- The window as it is opened. -/
def opened : Window := ⟨⟨"", true⟩, false, ⟨"", false⟩, ⟨"", false⟩, "Ready"⟩

/-- Replaces the text of the source pane. -/
def type (w : Window) (text : String) : Window := { w with source := w.source.replace text }

/-- Sets the check box. -/
def check (w : Window) (flag : Bool) : Window := { w with showListing := flag }

/-- Shows a result in the output panes and the status line. -/
def display (w : Window) (d : Display) : Window :=
  { w with
    table := w.table.present d.table
    report := w.report.present d.report
    status := d.status }

/-- What a button shows for a text. -/
def result (w : Window) (source : String) : Button → Except Fault Display
  | .tokens => .ok (.ofTokens source)
  | .analyze => Display.ofAnalysis source w.showListing

/-- What happens on an event: the window afterwards, the warnings that are shown, and the fault
that stopped it. -/
structure Reaction where
  window : Window
  warnings : List Warning
  fault : Option Fault

/-- Presses a button. A fault leaves the window as it was. -/
def press (w : Window) (b : Button) : Reaction :=
  let source := Text.strip w.source.contents
  if source = "" then ⟨w, [blankWarning], none⟩
  else
    match w.result source b with
    | .ok d => ⟨w.display d, [], none⟩
    | .error f => ⟨w, [], some f⟩

/-- What the user can do to the window. -/
inductive Event where
  | typed (text : String)
  | checked (flag : Bool)
  | pressed (button : Button)
  deriving DecidableEq, Repr

/-- The reaction of the window to an event. -/
def react (w : Window) : Event → Reaction
  | .typed text => ⟨w.type text, [], none⟩
  | .checked flag => ⟨w.check flag, [], none⟩
  | .pressed button => w.press button

end Window

end ProcLang
