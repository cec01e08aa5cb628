import ProcLang.SymbolTable.Symbol
import ProcLang.Lexer.Basic

/-!
# Failures of an analysis

A diagnostic says what is wrong with the analysed text; the front ends show its message. A fault is
a failure of another kind: a numeral that is no number, or an operation that was used where it
cannot be.
-/

namespace ProcLang

/-- What the analysis expected where it found another token. -/
inductive Expectation where
  /-- A token of a kind. -/
  | kind (kind : Kind)
  /-- The first token of a factor. -/
  | factor
  /-- The first token of a type mark. -/
  | typeMark
  deriving DecidableEq, Repr

/-- The text for what was expected. -/
def Expectation.label : Expectation → String
  | kind k => k.label
  | factor => "factor"
  | typeMark => "integer/float/char/const"

/-- What is wrong with an analysed text. -/
inductive Diagnostic where
  /-- No lexeme starts with the character. -/
  | unknownCharacter (char : Char) (line : Nat)
  /-- The token is not the expected one. -/
  | unexpected (expected : Expectation) (found : Token)
  /-- The name is declared in the same scope already. -/
  | duplicate (name : String) (line : Int)
  /-- The name is not declared where it is used. -/
  | undefined (name : String) (line : Int)
  /-- The token behind the last `end` of the procedure does not spell its name. -/
  | otherClosingName (name : String) (line : Int)
  /-- The token stands behind the outermost procedure. -/
  | unconsumed (found : Token)
  deriving DecidableEq, Repr

namespace Diagnostic

/-- The line that a diagnostic points at. -/
def line : Diagnostic → Int
  | unknownCharacter _ line => line
  | unexpected _ found => found.line
  | duplicate _ line => line
  | undefined _ line => line
  | otherClosingName _ line => line
  | unconsumed found => found.line

/-- The diagnostic text. -/
def message : Diagnostic → String
  | unknownCharacter char line => (ScanError.unknownCharacter char line).message
  | unexpected expected found =>
    s!"At line number {found.line}, expecting {expected.label} token, "
      ++ s!"but found {found.kind.label} token with lexeme {found.lexeme}"
  | duplicate name line => s!"Error: Duplicate symbol: '{name}' at line number {line}"
  | undefined name line => s!"Error: Undefined identifier {name} at line number {line}"
  | otherClosingName name _ => "Error : Missing statement \x22END " ++ name ++ ";\x22"
  | unconsumed found =>
    s!"At line number {found.line} unused token({found.kind.label}, {found.lexeme}) found. "
      ++ "Expecting End of File token."

end Diagnostic

/-- The parts of a token. -/
inductive TokenPart where
  | kind
  | lexeme
  deriving DecidableEq, Repr

/-- Failures that are no diagnostics. -/
inductive Fault where
  /-- The analysis has been run before. -/
  | alreadyRun
  /-- The source failed before and gives no more tokens. -/
  | sourceSpent
  /-- The numeral of a constant is no number. -/
  | numeral (error : Numeral.NumeralError)
  /-- The name is no known function. -/
  | unknownFunction (name : String)
  /-- No token has been read yet. -/
  | noToken (wanted : TokenPart)
  /-- The attributes of a symbol cannot be set, read or written. -/
  | symbol (error : SymbolError)
  /-- The symbol has no row because its type is missing. -/
  | untyped (name : String)
  deriving DecidableEq, Repr

/-- The ways in which an analysis can fail. -/
inductive Failure where
  | diagnostic (d : Diagnostic)
  | fault (f : Fault)
  deriving DecidableEq, Repr

/-- The failure of an analysis whose source gave no token. -/
def Failure.ofScanError : ScanError → Failure
  | .unknownCharacter char line => .diagnostic (.unknownCharacter char line)
  | .spent => .fault .sourceSpent

end ProcLang
