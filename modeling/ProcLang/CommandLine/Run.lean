import ProcLang.CommandLine.Arguments
import ProcLang.CommandLine.Files
import ProcLang.Report

/-!
# Running a command

A command reads a text and prints its tokens, or the outcome of its analysis. The listing of the
analysis may be written to a file. Files are opened in the order of the arguments and before
anything is read.
-/

namespace ProcLang.CommandLine

/-- What a command leaves behind: its exit status, or the fault that stopped it, the two printed
texts, and the files. -/
structure Finished where
  status : Except Fault Nat
  out : String
  err : String
  files : Files

/-- The line that shows how the command is used. -/
def usage : String := "usage: adaparse [-h] [-t] [-l LISTING] [--tokens] [source]\n"

/-- The help text. -/
def helpText : String :=
  usage ++ Text.endLines
    ["",
     "Parse a procedure source file and build its symbol table.",
     "",
     "positional arguments:",
     "  source",
     "",
     "options:",
     "  -h, --help            show this help message and exit",
     "  -t, --trace           print symbol table snapshots while analysing",
     "  -l LISTING, --listing LISTING",
     "                        write the analysis listing to this file",
     "  --tokens              print the token stream instead of analysing"]

/-- The end of a command whose arguments cannot be used. -/
def Finished.ofUsageError (files : Files) (e : UsageError) : Finished :=
  ⟨.ok 2, "", usage ++ s!"adaparse: error: {e.message}\n", files⟩

/-- Where a text comes from or goes to. -/
inductive Channel where
  | standard
  | file (place : Place)
  deriving DecidableEq, Repr

/-- The settings of a command, and the files as the opening of files leaves them. -/
structure Settings where
  files : Files
  trace : Bool := false
  tokens : Bool := false
  listing : Option Channel := none
  source : Channel := .standard

/-- The outcome of opening the file of an argument. No file has a name with a null character. -/
def opened {α : Type} (argument : FileArgument) (path : String) (outcome : Except OpenError α) :
    Except UsageError α :=
  if path.toList.contains '\x00' then .error (.invalidName argument path)
  else outcome.mapError (.cannotOpen argument path)

namespace Settings

/-- The settings with a source. -/
def withSource (s : Settings) (path : String) : Except UsageError Settings :=
  if path = "-" then .ok { s with source := .standard }
  else (opened .source path (s.files.openText path)).map fun p => { s with source := .file p }

/-- The settings with a file for the listing. -/
def withListing (s : Settings) (path : String) : Except UsageError Settings :=
  if path = "-" then .ok { s with listing := some .standard }
  else
    (opened .listing path (s.files.create path)).map fun r =>
      { s with listing := some (.file r.1), files := r.2 }

/-- Carries out actions on the settings, one after the other. Help and errors end the command. -/
def perform (s : Settings) : List Action → Except Finished Settings
  | [] => .ok s
  | .help :: _ => .error ⟨.ok 0, helpText, "", s.files⟩
  | .trace :: rest => perform { s with trace := true } rest
  | .tokens :: rest => perform { s with tokens := true } rest
  | .listing path :: rest =>
    match s.withListing path with
    | .ok s => perform s rest
    | .error e => .error (.ofUsageError s.files e)
  | .noListing :: rest => perform { s with listing := none } rest
  | .source path :: rest =>
    match s.withSource path with
    | .ok s => perform s rest
    | .error e => .error (.ofUsageError s.files e)

/-- The settings that arguments give. -/
def ofPlan (files : Files) (plan : Plan) : Except Finished Settings := do
  let s ← perform { files := files } plan.actions
  match plan.error with
  | some e => .error (.ofUsageError s.files e)
  | none =>
    if plan.unrecognized.isEmpty then .ok s
    else .error (.ofUsageError s.files (.unrecognized plan.unrecognized))

/-- The text of the source, with line feeds as its line ends. -/
def sourceText (s : Settings) (input : String) : String :=
  let text :=
    match s.source with
    | .standard => input
    | .file place => (s.files.read? place).getD ""
  String.ofList (Text.unifyLineEnds text.toList)

/-- Prints the tokens of a text. -/
def printTokens (s : Settings) (source : String) : Finished :=
  match Lexer.tokenize source with
  | .ok tokens => ⟨.ok 0, Text.endLines (tokens.map Token.text), "", s.files⟩
  | .error e => ⟨.ok 1, Text.endLines [e.message], "", s.files⟩

/-- Writes the listing. -/
def writeListing (s : Settings) (lines : List String) (f : Finished) : Finished :=
  match s.listing with
  | none => f
  | some .standard => { f with out := f.out ++ Text.endLines lines }
  | some (.file place) => { f with files := f.files.write place (Text.endLines lines) }

/-- Analyses a text, prints the outcome and writes the listing. -/
def printAnalysis (s : Settings) (source : String) : Finished :=
  let outcome := Outcome.ofSource (.ofText source) s.trace
  let traced := Text.endLines outcome.printedLines
  match outcome.verdict with
  | .error fault => ⟨.error fault, traced, "", s.files⟩
  | .ok none =>
    s.writeListing (outcome.closedListing none)
      ⟨.ok 0, traced ++ Text.endLines [outcome.table], "", s.files⟩
  | .ok (some d) =>
    s.writeListing (outcome.closedListing (some d))
      ⟨.ok 1, traced ++ Text.endLines [d.message], "", s.files⟩

/-- Does what the settings ask for. -/
def execute (s : Settings) (input : String) : Finished :=
  let source := s.sourceText input
  if s.tokens then s.printTokens source else s.printAnalysis source

end Settings

/-- Runs the command with its arguments on the standard input and the files of its directory. -/
def run (arguments : List String) (input : String) (files : Files) : Finished :=
  match Settings.ofPlan files (.ofArguments arguments) with
  | .ok s => s.execute input
  | .error f => f

end ProcLang.CommandLine
