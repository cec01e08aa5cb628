import ProcLang.Lexer.Basic

/-!
# Sources of tokens

The analysis takes its tokens one at a time, from a text that is read on demand, from a list that
stands ready, or from any other stream. A list that is used up gives an end token with the line of
its last token; a stream ends with an end token of its own, or breaks off.
-/

namespace ProcLang

/-- A list of tokens. `ahead` are those that have not been taken, `asked` is the number of times
that a token was asked for, and `lastLine` the line of the end token. -/
structure TokenList where
  ahead : List Token
  asked : Nat
  lastLine : Int
  deriving DecidableEq, Repr

namespace TokenList

/-- The tokens of a list, none of them taken. -/
def ofList (tokens : List Token) : TokenList :=
  ⟨tokens, 0, (tokens.getLast?.map Token.line).getD 1⟩

/-- Takes the next token. -/
def next (l : TokenList) : Token × TokenList :=
  match l.ahead with
  | t :: rest => (t, { l with ahead := rest, asked := l.asked + 1 })
  | [] => (.endOfInput l.lastLine, { l with asked := l.asked + 1 })

end TokenList

/-- What stands behind the tokens of a stream: end tokens with a line, or an error. -/
inductive StreamEnd where
  | endOfInput (line : Int)
  | failure (error : ScanError)
  deriving DecidableEq, Repr

/-- What is taken behind the tokens of a stream. -/
def StreamEnd.answer : StreamEnd → Except ScanError Token
  | endOfInput line => .ok (.endOfInput line)
  | failure error => .error error

/-- A source of tokens. -/
inductive TokenSource where
  /-- A text, read token by token. -/
  | text (lexer : Lexer)
  /-- A list of tokens. -/
  | list (tokens : TokenList)
  /-- Tokens that come from elsewhere, with what stands behind them. -/
  | stream (ahead : List Token) (last : StreamEnd)
  deriving DecidableEq, Repr

namespace TokenSource

/-- The source that reads a text. -/
def ofText (source : String) : TokenSource := .text (.ofText source)

/-- The source that gives the tokens of a list. -/
def ofList (tokens : List Token) : TokenSource := .list (.ofList tokens)

/-- Takes the next token. -/
def next : TokenSource → Except ScanError Token × TokenSource
  | text lexer => let (result, lexer) := lexer.next; (result, .text lexer)
  | list tokens => let (token, tokens) := tokens.next; (.ok token, .list tokens)
  | stream (t :: rest) last => (.ok t, .stream rest last)
  | stream [] last => (last.answer, .stream [] last)

/-- A bound on the number of tokens before the end token. -/
def bound : TokenSource → Nat
  | text lexer => lexer.rest.length
  | list tokens => tokens.ahead.length
  | stream ahead _ => ahead.length

end TokenSource

end ProcLang
