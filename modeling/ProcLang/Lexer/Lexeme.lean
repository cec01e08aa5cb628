import ProcLang.Token.Basic

/-!
# Lexemes

Each class of lexemes is given by the length of its longest member at the start of a text. A
lexeme of the first class with a member there is taken.
-/

namespace ProcLang.Lexer

/-- The number of digits at the start of a text. -/
def digitsLength (cs : List Char) : Nat := (cs.takeWhile Char.isDigit).length

/-- The length of the longest numeral at the start of a text: digits, with a fraction if digits
follow the point. -/
def numberLength (cs : List Char) : Nat :=
  let whole := digitsLength cs
  if whole = 0 then 0
  else
    match cs.drop whole with
    | '.' :: rest => if digitsLength rest = 0 then whole else whole + 1 + digitsLength rest
    | _ => whole

/-- Whether a character may stand in a name behind its first letter. -/
def isNameChar (c : Char) : Bool := c.isAlphanum || c == '_'

/-- The length of the longest name at the start of a text. -/
def nameLength : List Char → Nat
  | c :: rest => if c.isAlpha then (rest.takeWhile isNameChar).length + 1 else 0
  | [] => 0

/-- The length of the first of the symbols that stands at the start of a text. -/
def symbolLength (symbols : List String) (cs : List Char) : Nat :=
  ((symbols.find? fun s => s.toList.isPrefixOf cs).map String.length).getD 0

/-- A class of lexemes: its kind, and the length of its longest member at the start of a text, zero
where there is none. -/
structure LexemeClass where
  kind : Kind
  longest : List Char → Nat

/-- The classes in the order in which they are tried. An operator comes before those that begin
it. -/
def lexemeClasses : List LexemeClass :=
  [⟨.number, numberLength⟩,
   ⟨.identifier, nameLength⟩,
   ⟨.assign, symbolLength [":="]⟩,
   ⟨.relational, symbolLength ["<=", ">=", "/=", "<", ">", "="]⟩,
   ⟨.colon, symbolLength [":"]⟩,
   ⟨.additive, symbolLength ["+", "-"]⟩,
   ⟨.multiplicative, symbolLength ["*", "/"]⟩,
   ⟨.leftParen, symbolLength ["("]⟩,
   ⟨.rightParen, symbolLength [")"]⟩,
   ⟨.semicolon, symbolLength [";"]⟩,
   ⟨.comma, symbolLength [","]⟩]

/-- The kind of a lexeme of a class: a word may be reserved. -/
def lexemeKind (kind : Kind) (lexeme : List Char) : Kind :=
  if kind = .identifier then wordKind lexeme else kind

/-- The lexeme at the start of a text, with its kind. -/
def lexeme? (cs : List Char) : Option (Kind × List Char) :=
  (lexemeClasses.find? fun k => k.longest cs != 0).map fun k =>
    let lexeme := cs.take (k.longest cs)
    (lexemeKind k.kind lexeme, lexeme)

end ProcLang.Lexer
