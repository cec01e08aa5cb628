import ProcLang.Analysis.State

/-!
# Declaring and using names

A name may be declared once in a scope. It may be used where it was declared before, in the same
scope or in one around it.
-/

namespace ProcLang.Analysis

/-- Stops if the name is declared in the present scope. -/
def checkNew (name : Token) : Analysis Unit := do
  let table := (← get).table
  if (table.lookupAt? name.lexeme table.depth).isSome then
    report (.duplicate name.lexeme name.line)

/-- Stops unless the name is declared, and not in a deeper scope. -/
def checkDefined (name : Token) : Analysis Unit := do
  let table := (← get).table
  let isVisible := (table.lookup? name.lexeme).any fun h => (table.symbol h).depth ≤ table.depth
  if !isVisible then report (.undefined name.lexeme name.line)

/-- Declares a name in the present scope. -/
def declareName (name : String) : Analysis Handle :=
  modifyGet fun s =>
    let (h, table) := s.table.insert name s.table.depth
    (h, { s with table := table })

/-- Declares the name looked at, to be attributed by the type mark that follows. -/
def declarePending : Analysis Unit := do
  let name ← currentToken .kind
  expect .identifier
  checkNew name
  let h ← declareName name.lexeme
  modify fun s => { s with pending := s.pending ++ [h] }

/-- The innermost function of a name. -/
def functionNamed (name : String) : Analysis Handle := do
  match (← get).table.lookupKind? name .func with
  | some h => pure h
  | none => fail (.unknownFunction name)

end ProcLang.Analysis
