import ProcLang.Lexer.Gap
import ProcLang.Lexer.Lexeme

/-!
# Reading tokens from a text

A lexer holds the part of a text that is not read yet, with the position and line where it starts.
Tokens are read one at a time. At the end of the text the end token is given again and again; after
an unknown character nothing more can be read.
-/

namespace ProcLang

/-- A lexer. Positions count characters from zero, lines count line feeds from one. -/
structure Lexer where
  rest : List Char
  position : Nat
  line : Nat
  stopped : Bool
  deriving DecidableEq, Repr

/-- Why no token can be read: an unknown character, or an earlier unknown character. -/
inductive ScanError where
  | unknownCharacter (char : Char) (line : Nat)
  | spent
  deriving DecidableEq, Repr

/-- The text on a failed reading. -/
def ScanError.message : ScanError → String
  | unknownCharacter char line =>
    "Lexical error: unknown character " ++ Text.quoteChar char ++ s!" at line number {line}"
  | spent => "Nothing can be read after an unknown character"

namespace Lexer

/-- A lexer at the start of a text. -/
def ofText (source : String) : Lexer := ⟨source.toList, 0, 1, false⟩

/-- The lexer behind the next `n` characters. -/
def advance (l : Lexer) (n : Nat) : Lexer :=
  { l with
    rest := l.rest.drop n
    position := l.position + n
    line := l.line + lineFeeds (l.rest.take n) }

/-- The lexer behind the blanks and comments at its place. -/
def skipGap (l : Lexer) : Lexer := l.advance (gapLength false l.rest)

/-- Reads the lexeme at the lexer's place, where no gap stands. -/
def scan (l : Lexer) : Except ScanError Token × Lexer :=
  match l.rest with
  | [] => (.ok (.endOfInput l.line), l)
  | c :: _ =>
    match lexeme? l.rest with
    | some (kind, lexeme) => (.ok ⟨kind, String.ofList lexeme, l.line⟩, l.advance lexeme.length)
    | none => (.error (.unknownCharacter c l.line), { l with stopped := true })

/-- Reads the next token. -/
def next (l : Lexer) : Except ScanError Token × Lexer :=
  if l.stopped then (.error .spent, l) else l.skipGap.scan

/-- Reads up to `n` tokens, as far as the end token. -/
def readUpTo : Nat → Lexer → Except ScanError (List Token) × Lexer
  | 0, l => (.ok [], l)
  | n + 1, l =>
    match l.next with
    | (.error e, l) => (.error e, l)
    | (.ok t, l) =>
      if t.kind = .endOfInput then (.ok [t], l)
      else
        match readUpTo n l with
        | (.ok ts, l) => (.ok (t :: ts), l)
        | (.error e, l) => (.error e, l)

/-- Reads all tokens that are left, the end token included. Each of them but the last takes a
character at least. -/
def readAll (l : Lexer) : Except ScanError (List Token) × Lexer :=
  readUpTo (l.rest.length + 1) l

/-- The tokens of a text. -/
def tokenize (source : String) : Except ScanError (List Token) := (readAll (ofText source)).1

end Lexer

end ProcLang
