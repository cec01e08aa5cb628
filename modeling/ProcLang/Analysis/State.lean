import ProcLang.Analysis.Listing
import ProcLang.SymbolTable.Basic
import ProcLang.Token.Source

/-!
# The state of an analysis

An analysis looks at one token at a time. Its state survives a failure, so that what was done before
can be looked at. All reading of tokens goes through `pull`, and after the first token through
`expect`, which takes a token of a given kind.
-/

namespace ProcLang

/-- The offset of the first parameter, above the fixed part of an activation record. -/
def headerSize : Int := 4

/-- The offset of the first local variable. -/
def localBase : Int := 2

/-- The state of an analysis. `current` is the token looked at, `matched` the tokens before it, the
last one first. `pending` are the declared names whose type mark has not been read, `recorded` the
number of them that are in their function's signature already. -/
structure State where
  source : TokenSource
  current : Option Token := none
  matched : List Token := []
  table : SymbolTable := .empty
  pending : List Handle := []
  recorded : Nat := 0
  nextOffset : Int := localBase
  listing : Array Entry := #[]
  tracing : Bool := false
  printed : Array Snapshot := #[]
  succeeded : Bool := false

/-- The state before an analysis of a source. -/
def State.ofSource (source : TokenSource) (tracing : Bool) : State :=
  { source := source, tracing := tracing }

/-- A step of an analysis. -/
abbrev Analysis (α : Type) := EStateM Failure State α

namespace Analysis

/-! ## Failing -/

/-- Stops with a diagnostic. -/
def report {α : Type} (d : Diagnostic) : Analysis α := throw (.diagnostic d)

/-- Stops with a fault. -/
def fail {α : Type} (f : Fault) : Analysis α := throw (.fault f)

/-! ## Tokens -/

/-- The token looked at, of which a part is wanted. -/
def currentToken (wanted : TokenPart) : Analysis Token := do
  match (← get).current with
  | some t => pure t
  | none => fail (.noToken wanted)

/-- Stops because the token looked at is not the expected one. -/
def reject {α : Type} (expected : Expectation) : Analysis α := do
  report (.unexpected expected (← currentToken .kind))

/-- Looks at the next token. If there is none the present one stays. -/
def pull : Analysis Unit := fun s =>
  match s.source.next with
  | (.ok t, source) => .ok () { s with source := source, current := some t }
  | (.error e, source) => .error (.ofScanError e) { s with source := source }

/-- Takes the token looked at, which must be of the kind, and looks at the next one. -/
def expect (kind : Kind) : Analysis Unit := do
  let token ← currentToken .kind
  if token.kind = kind then
    modify fun s => { s with matched := token :: s.matched }
    pull
  else reject (.kind kind)

/-- Whether the token looked at is of the kind. -/
def atKind (kind : Kind) : Analysis Bool := do
  return (← currentToken .kind).kind = kind

/-! ## Repetition -/

/-- Passes a bound on the number of tokens that are left, the one looked at included. -/
def bounded {α : Type} (f : Nat → Analysis α) : Analysis α := fun s => f (s.source.bound + 1) s

/-- Repeats a step as long as the token looked at is of the kind, at most `n` times. -/
def repeatUpTo (kind : Kind) (step : Analysis Unit) : Nat → Analysis Unit
  | 0 => pure ()
  | n + 1 => do
    if ← atKind kind then
      step
      repeatUpTo kind step n

/-- Repeats a step that takes a token as long as the token looked at is of the kind. -/
def whileKind (kind : Kind) (step : Analysis Unit) : Analysis Unit := do
  if ← atKind kind then bounded (repeatUpTo kind step)

/-- One or more items, with a token of the kind between any two of them. -/
def separatedBy (separator : Kind) (item : Analysis Unit) : Analysis Unit := do
  item
  whileKind separator do
    expect separator
    item

/-! ## Symbols and listing -/

/-- Changes the symbol table. -/
def modifyTable (f : SymbolTable → SymbolTable) : Analysis Unit :=
  modify fun s => { s with table := f s.table }

/-- Makes the result of an operation on symbols that of a step. -/
def liftSymbol {α : Type} : Except SymbolError α → Analysis α
  | .ok a => pure a
  | .error e => fail (.symbol e)

/-- The symbol that a handle stands for. -/
def symbol (h : Handle) : Analysis Symbol := do return (← get).table.symbol h

/-- Changes the symbol that a handle stands for. -/
def updateSymbol (h : Handle) (f : Symbol → Except SymbolError Symbol) : Analysis Unit := do
  let changed ← liftSymbol (f (← symbol h))
  modifyTable (·.set h changed)

/-- Enters something into the listing. -/
def log (e : Entry) : Analysis Unit :=
  modify fun s => { s with listing := s.listing.push e }

/-- Stops unless the symbol has a row. -/
def needRow (s : Symbol) : Analysis Unit :=
  if s.isShowable then pure () else fail (.untyped s.name)

/-- Enters a declared name into the listing. -/
def logDeclared (h : Handle) : Analysis Unit := do
  let s ← symbol h
  let _ ← liftSymbol s.isParameter
  needRow s
  log (.declared s)

/-- Enters a snapshot of the present scope into the listing, and prints it where the analysis is
traced. -/
def logSnapshot (scope : ScopeName) : Analysis Unit := do
  let table := (← get).table
  let symbols := table.symbolsOf (table.entriesAt table.depth)
  symbols.forM needRow
  let shot : Snapshot := ⟨scope, table.depth, symbols⟩
  log (.snapshot shot)
  modify fun s => if s.tracing then { s with printed := s.printed.push shot } else s

end Analysis

end ProcLang
