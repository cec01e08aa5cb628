import ProcLang.SymbolTable.Row
import ProcLang.Analysis.Failure

/-!
# The listing of an analysis

The listing tells what the analysis did: which procedures and names were declared, with their final
attributes, and which scopes were entered and left, with a snapshot of each scope as it was left.
-/

namespace ProcLang

/-- A scope by its name: the outermost one, or that of a procedure. -/
inductive ScopeName where
  | outermost
  | procedure (name : String)
  deriving DecidableEq, Repr

/-- The title of a scope's snapshot. -/
def ScopeName.title : ScopeName → String
  | outermost => "Global scope"
  | procedure name => s!"Procedure {name}"

/-- The declarations of a scope at one moment. -/
structure Snapshot where
  scope : ScopeName
  depth : Int
  symbols : List Symbol
  deriving DecidableEq, Repr

/-- The lines of a snapshot. -/
def Snapshot.lines (s : Snapshot) : List String :=
  let rows := if s.symbols.isEmpty then ["<empty>"] else s.symbols.map Symbol.row
  [s!"--- {s.scope.title} (depth {s.depth}) ---"] ++ rows.map ("  " ++ ·)
    ++ [s!"--- End of {s.scope.title} ---"]

/-- What is entered into the listing. -/
inductive Entry where
  /-- The analysis begins. -/
  | begun
  /-- A procedure is declared at a depth. -/
  | procedureDeclared (name : String) (depth : Int)
  /-- The scope of a procedure is opened at a depth. -/
  | scopeEntered (name : String) (depth : Int)
  /-- A parameter or local name has got its attributes. -/
  | declared (symbol : Symbol)
  /-- A scope is about to be left. -/
  | snapshot (snapshot : Snapshot)
  /-- The scope of a procedure was closed; the depth is the one around it. -/
  | scopeLeft (name : String) (depth : Int)
  /-- The analysis ended without errors. -/
  | completed
  /-- The analysis ended with a diagnostic. -/
  | stopped (diagnostic : Diagnostic)
  deriving DecidableEq, Repr

/-- What a declared name is called in the listing. -/
def Symbol.role (s : Symbol) : String :=
  match s.isParameter with
  | .ok true => "parameter"
  | _ => kindWord s.kind?

/-- The lines of an entry. -/
def Entry.lines : Entry → List String
  | begun => ["--- Begin analysis ---"]
  | procedureDeclared name depth => [s!"Declared procedure: {name} (depth {depth})"]
  | scopeEntered name depth => [s!"Entering procedure '{name}' scope (depth {depth})"]
  | declared symbol => [s!"  Declared {symbol.role}: {symbol.row}"]
  | snapshot s => s.lines
  | scopeLeft name depth => [s!"Leaving procedure '{name}' scope (back to depth {depth})"]
  | completed => ["--- Analysis completed without errors ---"]
  | stopped d => [s!"Analysis stopped: {d.message}"]

/-- The lines of a listing. -/
def listingLines (entries : List Entry) : List String := entries.flatMap Entry.lines

end ProcLang
