import ProcLang.Analysis.Declarations
import ProcLang.Analysis.Statements

/-!
# Procedures

A procedure has a head with its name and parameters, its local names, the procedures nested in it,
and its statements. Its name belongs to the scope around it; its own scope is opened behind the name
and closed behind its last token.

The scopes that a failed analysis left open are closed afterwards, as a whole, by `unwinding`.

Procedures may be nested in one another to any depth, and so may the parts of expressions: an
interpreter's limit on the depth of its recursion is no part of the analysis and is left out.
-/

namespace ProcLang.Analysis

/-- The opening of a procedure. Gives its name. -/
def openProcedure : Analysis String := do
  expect .procedureWord
  let name ← currentToken .kind
  expect .identifier
  checkNew name
  let h ← declareName name.lexeme
  updateSymbol h (·.setKind .func)
  let depth := (← get).table.depth
  log (.procedureDeclared name.lexeme depth)
  modifyTable SymbolTable.enter
  log (.scopeEntered name.lexeme (depth + 1))
  return name.lexeme

/-- Parameters and local names of a procedure. -/
def procedureHead (name : String) : Analysis Unit := do
  arguments name
  expect .isWord
  modify fun s => { s with nextOffset := localBase }
  declarativePart name

/-- Stops unless the token looked at spells the name, upper and lower case being the same. -/
def checkClosingName (name : String) : Analysis Unit := do
  let token ← currentToken .lexeme
  if Text.lower token.lexeme ≠ Text.lower name then
    report (.otherClosingName name token.line)

/-- Statements and end of a procedure. -/
def procedureBody (name : String) : Analysis Unit := do
  expect .beginWord
  statements
  expect .endWord
  checkClosingName name
  expect .identifier
  expect .semicolon

/-- The closing of a procedure's scope. -/
def closeProcedure (name : String) : Analysis Unit := do
  logSnapshot (.procedure name)
  modifyTable SymbolTable.leave
  log (.scopeLeft name (← get).table.depth)

/-- A procedure with at most `n` procedures nested in one another, itself included. -/
def procedureWithin : Nat → Analysis Unit
  | 0 => reject (.kind .procedureWord)
  | n + 1 => do
    let name ← openProcedure
    procedureHead name
    whileKind .procedureWord (procedureWithin n)
    procedureBody name
    closeProcedure name

/-- After a failure, ends the scopes that the step has opened. -/
def unwinding {α : Type} (step : Analysis α) : Analysis α := fun s =>
  match step s with
  | .ok a s' => .ok a s'
  | .error e s' => .error e { s' with table := s'.table.unwindTo s.table.depth }

/-- A procedure. Each level of nesting takes a token, so the tokens left bound them. -/
def procedureSteps : Analysis Unit := bounded procedureWithin

/-- A procedure. -/
def procedure : Analysis Unit := unwinding procedureSteps

/-- The procedures nested in a procedure. -/
def procedures : Analysis Unit := unwinding (whileKind .procedureWord procedureSteps)

end ProcLang.Analysis
