import ProcLang.SymbolTable.Symbol
import ProcLang.Text.Basic

/-!
# Rows of the symbol table

A symbol is shown as a row of columns: name, kind, type, depth, offset, size and details. A field
that is longer than its column pushes the following ones to the right.
-/

namespace ProcLang

open Text (padRight)

/-- The width of the column for names. -/
def nameWidth : Nat := 15

/-- The width of the column for kinds. -/
def kindWidth : Nat := 9

/-- The width of the column for types. -/
def typeWidth : Nat := 9

/-- The width of the column for depths, less the letter in front of a depth. -/
def depthWidth : Nat := 3

/-- The width of the column for offsets. -/
def offsetWidth : Nat := 6

/-- The width of the column for sizes. -/
def sizeWidth : Nat := 4

/-- Details of a variable: whether it is a parameter. -/
def Storage.details (s : Storage) : String := if s.isParameter then "param" else ""

/-- Details of a constant: its value, and whether it is a parameter. -/
def constantDetails (s : Storage) (value : Numeral.Value) : String :=
  "value=" ++ value.text ++ if s.isParameter then " param" else ""

/-- Details of a function: the modes and types of its parameters, and its two sizes. -/
def Signature.details (g : Signature) : String :=
  let parameters := (g.modes.zip g.types).map fun p => p.1.word ++ " " ++ p.2.word
  "Params(" ++ ", ".intercalate parameters ++ ")"
    ++ s!" params_size={g.parametersSize} locals_size={g.localsSize}"

namespace Symbol

/-- The columns that all rows share, up to the depth. -/
def rowStart (s : Symbol) (type : String) : String :=
  padRight nameWidth s.name ++ " | " ++ padRight kindWidth (kindWord s.kind?) ++ " | "
    ++ padRight typeWidth type ++ " | D" ++ padRight depthWidth (toString s.depth) ++ " |"

/-- The columns behind the depth. -/
def rowEnd (offset size details : String) : String :=
  " " ++ padRight offsetWidth offset ++ " | " ++ padRight sizeWidth size ++ " | " ++ details

/-- The columns of a stored value behind the depth. -/
def storageRowEnd (s : Storage) (details : String) : String :=
  rowEnd (toString s.offset) (toString s.size) details

/-- The row of a symbol. A symbol whose attributes are unset has no columns behind its depth, and
a function none for type, offset and size. -/
def row (s : Symbol) : String :=
  let type := (s.valueType?.map ValueType.word).getD ""
  s.rowStart type ++
    match s.attributes with
    | .unset => ""
    | .func signature => rowEnd "" "" signature.details
    | .var storage => storageRowEnd storage storage.details
    | .const storage value => storageRowEnd storage (constantDetails storage value)

/-- Whether a row can be shown: a variable or constant must have its type. -/
def isShowable (s : Symbol) : Bool :=
  match s.attributes with
  | .var storage => storage.type.isSome
  | .const storage _ => storage.type.isSome
  | _ => true

/-- The full text of a symbol, with its name quoted. -/
def fullText (s : Symbol) : String :=
  "Symbol(" ++ Text.quote s.name ++ s!", depth={s.depth}, kind=" ++ kindWord s.kind? ++ ")"

end Symbol

/-- The line above the rows. -/
def tableHeader : String :=
  padRight nameWidth "Name" ++ " | " ++ padRight kindWidth "Kind" ++ " | "
    ++ padRight typeWidth "Type" ++ " | " ++ padRight (depthWidth + 1) "Depth" ++ " | "
    ++ padRight offsetWidth "Offset" ++ " | " ++ padRight sizeWidth "Size" ++ " | Details"

/-- The rows of symbols under the header and a line of hyphens. -/
def tableText (symbols : List Symbol) : String :=
  let rule := String.ofList (List.replicate tableHeader.length '-')
  Text.joinLines (tableHeader :: rule :: symbols.map Symbol.row)

end ProcLang
