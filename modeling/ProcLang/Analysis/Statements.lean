import ProcLang.Analysis.Names

/-!
# Statements

The only statements are assignments of an expression to a name. Expressions are made of factors,
multiplied within terms, and of terms that are added up. Nothing but tokens is read and nothing but
the tokens changes.
-/

namespace ProcLang.Analysis

/-- A factor with at most `n` parentheses and signs around its innermost part: a name, a numeral,
an expression in parentheses, or a negated factor. -/
def factorWithin : Nat → Analysis Unit
  | 0 => reject .factor
  | n + 1 => do
    let token ← currentToken .kind
    match token.kind with
    | .identifier =>
      checkDefined token
      expect .identifier
    | .number => expect .number
    | .leftParen =>
      expect .leftParen
      separatedBy .additive (separatedBy .multiplicative (factorWithin n))
      expect .rightParen
    | .notWord =>
      expect .notWord
      factorWithin n
    | .additive =>
      if token.lexeme = "-" then
        expect .additive
        factorWithin n
      else reject .factor
    | _ => reject .factor

/-- A factor. Each of its parentheses and signs takes a token, so the tokens left bound them. -/
def factor : Analysis Unit := bounded factorWithin

/-- One or more factors that are multiplied. -/
def term : Analysis Unit := separatedBy .multiplicative factor

/-- One or more terms that are added. -/
def expression : Analysis Unit := separatedBy .additive term

/-- An assignment to a name that is declared. -/
def assignment : Analysis Unit := do
  let target ← currentToken .lexeme
  checkDefined target
  expect .identifier
  expect .assign
  expression

/-- A statement, which may be empty. -/
def statement : Analysis Unit := do
  if ← atKind .identifier then assignment

/-- Statements, each ended by a semicolon. -/
def statements : Analysis Unit :=
  whileKind .identifier do
    statement
    expect .semicolon

end ProcLang.Analysis
