import ProcLang.Numeral.Shortest
import ProcLang.Text.Quoted

/-!
# Values of constants

The value of a constant is a whole number or a floating-point number; a point in its numeral makes
it the latter. Numerals may have a sign, single underscores between digits, and blanks around
them, and their digits may be those of any script. A whole number has at most 4300 digits.
-/

namespace ProcLang.Numeral

/-- The value of a constant. -/
inductive Value where
  | integer (n : Int)
  | real (x : Binary64)
  deriving DecidableEq, Repr

/-- The text of a value in rows and messages. -/
def Value.text : Value → String
  | .integer n => toString n
  | .real x => x.text

/-- Why a text is no numeral. -/
inductive NumeralError where
  /-- A whole number with more digits than are read. -/
  | tooLong (digits : Nat)
  /-- A text without a point that is no whole number. -/
  | notInteger (text : String)
  /-- A text with a point that is no number. -/
  | notReal (text : String)
  deriving DecidableEq, Repr

/-- The most digits of a whole number. -/
def maxIntegerDigits : Nat := 4300

/-- The most characters of a quoted text in the message on a whole number. -/
def maxQuotedLength : Nat := 200

/-- The diagnostic text of a numeral error. -/
def NumeralError.message : NumeralError → String
  | tooLong digits =>
    s!"Exceeds the limit ({maxIntegerDigits} digits) for integer string conversion: "
      ++ s!"value has {digits} digits; use sys.set_int_max_str_digits() to increase the limit"
  | notInteger text =>
    "invalid literal for int() with base 10: "
      ++ String.ofList ((Text.quoteList text.toList).take maxQuotedLength)
  | notReal text => s!"could not convert string to float: {Text.quote text}"

/-- Digits of every script as ASCII digits, and blanks as spaces. The information separators are
no blanks here. -/
def plainChar (c : Char) : Char :=
  match Text.digitValue? c with
  | some d => Nat.digitChar d
  | none =>
    if Text.isBlank c ∧ ¬ (0x1C ≤ c.toNat ∧ c.toNat ≤ 0x1F) then ' ' else c

/-- The plain characters of a numeral, without the blanks around it. -/
def plainText (s : String) : List Char :=
  ((s.toList.map plainChar).dropWhile (· == ' ')).reverse.dropWhile (· == ' ') |>.reverse

/-- The number that a list of ASCII digits denotes. -/
def ofDigits (digits : List Char) : Nat :=
  digits.foldl (fun n c => 10 * n + (c.toNat - '0'.toNat)) 0

/-- Whether every underscore stands between two digits. `previous` tells whether a digit stands in
front. -/
def underscoresFit (previous : Bool) : List Char → Bool
  | [] => true
  | '_' :: c :: rest => previous && c.isDigit && underscoresFit false (c :: rest)
  | ['_'] => false
  | c :: rest => underscoresFit c.isDigit rest

/-- The sign in front of a numeral, and what follows it. -/
def splitSign : List Char → Bool × List Char
  | '-' :: rest => (true, rest)
  | '+' :: rest => (false, rest)
  | cs => (false, cs)

/-- Reads a whole number. The limit on the digits is looked at before what follows them. -/
def parseInteger (s : String) : Except NumeralError Int :=
  let (negative, body) := splitSign (plainText s)
  let run := body.takeWhile fun c => c.isDigit || c == '_'
  let digits := run.filter (· != '_')
  if !underscoresFit false run || digits.isEmpty then .error (.notInteger s)
  else if digits.length > maxIntegerDigits then .error (.tooLong digits.length)
  else if run.length < body.length then .error (.notInteger s)
  else .ok (if negative then -(ofDigits digits : Int) else ofDigits digits)

/-- The exponent at the end of a numeral with a point; zero where there is none. -/
def parseExponent? : List Char → Option Int
  | [] => some 0
  | c :: rest =>
    let (negative, digits) := splitSign rest
    if (c == 'e' || c == 'E') && !digits.isEmpty && digits.all Char.isDigit then
      some (if negative then -(ofDigits digits : Int) else ofDigits digits)
    else none

/-- Reads a number with a point, underscores left out. -/
def parseReal? (cs : List Char) : Option Binary64 := do
  let (negative, body) := splitSign cs
  let whole := body.takeWhile Char.isDigit
  let afterWhole := body.dropWhile Char.isDigit
  let (fraction, tail) :=
    match afterWhole with
    | '.' :: rest => (rest.takeWhile Char.isDigit, rest.dropWhile Char.isDigit)
    | rest => ([], rest)
  if whole.isEmpty && fraction.isEmpty then none
  else
    let exponent ← parseExponent? tail
    let digits := (whole ++ fraction).dropWhile (· == '0')
    some (.ofDecimal negative (ofDigits digits) digits.length (exponent - fraction.length))

/-- Reads a number with a point. -/
def parseReal (s : String) : Except NumeralError Binary64 :=
  let cs := plainText s
  match if underscoresFit false cs then parseReal? (cs.filter (· != '_')) else none with
  | some x => .ok x
  | none => .error (.notReal s)

/-- Whether a numeral denotes a floating-point number. -/
def hasPoint (s : String) : Bool := s.toList.contains '.'

/-- The value that a numeral denotes. -/
def Value.parse (s : String) : Except NumeralError Value :=
  if hasPoint s then (parseReal s).map .real else (parseInteger s).map .integer

end ProcLang.Numeral
