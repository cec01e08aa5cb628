import ProcLang.Analysis.Names
import ProcLang.Text.LowerCase

/-!
# Declarations

A group of declarations is a list of names with a type mark: a type, or a constant with its value.
Groups of parameters have a mode and stand in parentheses behind the name of a procedure; groups of
local names follow the head of the procedure. The names of a group are pending until their type mark
has been read.

Parameters are placed above the header of the activation record, the last one lowest. Local names
are placed one behind the other from `localBase`.
-/

namespace ProcLang.Analysis

open Numeral (Value)

/-- One or more names with commas between them. -/
def identifierList : Analysis Unit := separatedBy .comma declarePending

/-! ## Type marks -/

/-- The type that a word denotes. -/
def primitiveType? : Kind → Option ValueType
  | .integerWord => some .integer
  | .floatWord => some .float
  | .charWord => some .character
  | _ => none

/-- Takes a numeral and gives its text. -/
def numeral : Analysis String := do
  let token ← currentToken .lexeme
  expect .number
  return token.lexeme

/-- The type of a constant with the value. -/
def constantType : Value → ValueType
  | .integer _ => .integer
  | .real _ => .float

/-- The value that the text of a numeral denotes. -/
def constantValue (text : String) : Analysis Value :=
  match Value.parse text with
  | .ok value => pure value
  | .error e => fail (.numeral e)

/-- Attributes the pending names that have no attributes yet. -/
def attributePending (attributes : Attributes) : Analysis Unit :=
  modify fun s =>
    let attributed := s.pending.foldl
      (fun t h => t.set h ((t.symbol h).giveAttributes attributes)) s.table
    { s with table := attributed }

/-- A constant with its value. -/
def constantMark : Analysis Unit := do
  expect .constantWord
  expect .assign
  let value ← constantValue (← numeral)
  attributePending (.const (.ofType (constantType value)) value)

/-- A type or a constant. The pending names are attributed accordingly. -/
def mark : Analysis Unit := do
  let token ← currentToken .kind
  match primitiveType? token.kind with
  | some type =>
    attributePending (.var (.ofType type))
    expect token.kind
  | none => if token.kind = .constantWord then constantMark else reject .typeMark

/-! ## Parameters and local names -/

/-- Enters a parameter into the signature of its function, and marks it as one. -/
def recordParameter (function : Handle) (mode : Mode) (h : Handle) : Analysis Unit := do
  let s ← symbol h
  match s.valueType? with
  | some type =>
    updateSymbol function (·.modifyFunction fun g => g.addParameter type mode)
    updateSymbol h (·.setParameter true)
  | none => fail (.untyped s.name)

/-- Enters the pending names that are not recorded yet as parameters. They stay pending until all
groups have been read. -/
def recordParameters (function : Handle) (mode : Mode) : Analysis Unit := do
  let s ← get
  (s.pending.drop s.recorded).forM (recordParameter function mode)
  modify fun s => { s with recorded := s.pending.length }

/-- Places a local name behind the last one. -/
def placeLocal (h : Handle) : Analysis Unit := do
  let offset := (← get).nextOffset
  updateSymbol h (·.setOffset offset)
  let size ← liftSymbol (← symbol h).size
  modify fun s => { s with nextOffset := offset + size }
  logDeclared h

/-- Forgets the pending names. -/
def clearPending : Analysis Unit := modify fun s => { s with pending := [] }

/-- Places the pending names as local names. -/
def placeLocals (function : Handle) : Analysis Unit := do
  (← get).pending.forM placeLocal
  let size := (← get).nextOffset - localBase
  updateSymbol function (·.modifyFunction fun g => { g with localsSize := size })
  clearPending

/-- A type mark, with which the pending names become parameters if a mode is given, else local
names of the function. -/
def typeMark (function : String) (mode : Option Mode) : Analysis Unit := do
  mark
  let h ← functionNamed function
  match mode with
  | some mode => recordParameters h mode
  | none => placeLocals h

/-- A group of local names. -/
def localGroup (function : String) : Analysis Unit := do
  identifierList
  expect .colon
  typeMark function none
  expect .semicolon

/-- The groups of local names of a function. -/
def declarativePart (function : String) : Analysis Unit :=
  whileKind .identifier (localGroup function)

/-! ## Parameter lists -/

/-- The mode that a word denotes. -/
def modeOfWord? (word : String) : Option Mode :=
  Mode.all.find? fun m => m.word = Text.lower word

/-- The mode of a group of parameters. A token that spells a mode is taken, whatever its kind. -/
def mode : Analysis Mode := do
  let token ← currentToken .lexeme
  match modeOfWord? token.lexeme with
  | some m =>
    expect token.kind
    return m
  | none => return .input

/-- A group of parameters. -/
def parameterGroup (function : String) : Analysis Unit := do
  let m ← mode
  identifierList
  expect .colon
  typeMark function (some m)

/-- One or more groups of parameters. -/
def argumentList (function : String) : Analysis Unit :=
  separatedBy .semicolon (parameterGroup function)

/-- Places a parameter at an offset and gives the offset above it. -/
def placeParameter (offset : Int) (h : Handle) : Analysis Int := do
  updateSymbol h (·.setOffset offset)
  let size ← liftSymbol (← symbol h).size
  return offset + size

/-- Places the pending names as parameters, the last one lowest. -/
def placeParameters (function : String) : Analysis Unit := do
  let pending := (← get).pending
  let top ← pending.reverse.foldlM placeParameter headerSize
  let h ← functionNamed function
  updateSymbol h (·.modifyFunction fun g =>
    { g with parameterCount := pending.length, parametersSize := top - headerSize })
  pending.forM logDeclared
  clearPending

/-- The parameters of a function, if it has any. -/
def arguments (function : String) : Analysis Unit := do
  if ← atKind .leftParen then
    expect .leftParen
    modify fun s => { s with recorded := 0 }
    argumentList function
    expect .rightParen
    placeParameters function

end ProcLang.Analysis
