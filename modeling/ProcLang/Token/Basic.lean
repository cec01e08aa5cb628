import ProcLang.Text.Quoted

/-!
# Tokens

A token is a kind with its lexeme and the number of its line. This module holds the kinds, their
labels, the reserved words, and the two texts of a token. A word that is spelt like a name, in any
mixture of upper and lower case, is a token of its own kind when it is reserved.
-/

namespace ProcLang

/-- The kinds of tokens: one for each reserved word or family of words, names, numerals, operators,
punctuation, and the end of the input. -/
inductive Kind where
  | procedureWord
  | isWord
  | beginWord
  | endWord
  | integerWord
  | floatWord
  | charWord
  | constantWord
  | inWord
  | outWord
  | inoutWord
  | notWord
  | identifier
  | number
  | assign
  | additive
  | multiplicative
  | relational
  | leftParen
  | rightParen
  | semicolon
  | colon
  | comma
  | endOfInput
  deriving DecidableEq, Repr

namespace Kind

/-- All kinds, in the order of their definition. -/
def all : List Kind :=
  [procedureWord, isWord, beginWord, endWord, integerWord, floatWord, charWord, constantWord,
   inWord, outWord, inoutWord, notWord, identifier, number, assign, additive, multiplicative,
   relational, leftParen, rightParen, semicolon, colon, comma, endOfInput]

theorem mem_all (k : Kind) : k ∈ all := by
  cases k <;> decide

/-- The label of a kind in token texts and diagnostics. -/
def label : Kind → String
  | procedureWord => "PROCEDURE"
  | isWord => "IS"
  | beginWord => "BEGIN"
  | endWord => "END"
  | integerWord => "INTEGER"
  | floatWord => "FLOAT"
  | charWord => "CHAR"
  | constantWord => "CONSTANT"
  | inWord => "IN"
  | outWord => "OUT"
  | inoutWord => "INOUT"
  | notWord => "NOT"
  | identifier => "id"
  | number => "num"
  | assign => "assignop"
  | additive => "addop"
  | multiplicative => "mulop"
  | relational => "relop"
  | leftParen => "lparen"
  | rightParen => "rparen"
  | semicolon => "semicolon"
  | colon => "colon"
  | comma => "comma"
  | endOfInput => "eof"

/-- How a kind is spelt, or what it stands for where it has no one spelling. -/
def spelling : Kind → String
  | procedureWord => "procedure"
  | isWord => "is"
  | beginWord => "begin"
  | endWord => "end"
  | integerWord => "integer"
  | floatWord => "float"
  | charWord => "char"
  | constantWord => "const"
  | inWord => "in"
  | outWord => "out"
  | inoutWord => "inout"
  | notWord => "not"
  | identifier => "identifier"
  | number => "number"
  | assign => ":="
  | additive => "addop"
  | multiplicative => "mulop"
  | relational => "relop"
  | leftParen => "("
  | rightParen => ")"
  | semicolon => ";"
  | colon => ":"
  | comma => ","
  | endOfInput => "end of file"

end Kind

/-- The reserved words with their kinds. -/
def reservedWords : List (String × Kind) :=
  [("procedure", .procedureWord), ("is", .isWord), ("begin", .beginWord), ("end", .endWord),
   ("integer", .integerWord), ("float", .floatWord), ("char", .charWord),
   ("const", .constantWord), ("constant", .constantWord), ("in", .inWord), ("out", .outWord),
   ("inout", .inoutWord), ("not", .notWord), ("or", .additive), ("and", .multiplicative),
   ("mod", .multiplicative), ("rem", .multiplicative)]

/-- The kind of a word: that of the reserved word it spells, else a name. -/
def wordKind (word : List Char) : Kind :=
  (reservedWords.lookup (String.ofList (word.map Char.toLower))).getD .identifier

/-- A token of the language. Line numbers of tokens that were not read from a text can be any
integers. -/
structure Token where
  kind : Kind
  lexeme : String
  line : Int
  deriving DecidableEq, Repr

namespace Token

/-- The token that stands for the end of the input. -/
def endOfInput (line : Int) : Token := ⟨.endOfInput, "EOF", line⟩

/-- The text of a token: its label and lexeme. -/
def text (t : Token) : String := s!"({t.kind.label}, {t.lexeme})"

/-- The full text of a token, with its lexeme quoted and its line. -/
def fullText (t : Token) : String :=
  s!"Token({t.kind.label}, " ++ Text.quote t.lexeme ++ s!", line={t.line})"

end Token

end ProcLang
