import ProcLang.Numeral.Value

/-!
# Symbols

A symbol is a declared name with its depth and attributes. A name is entered before it is known
what it stands for, so its attributes start unset; they are then set once, to those of a variable,
a constant or a function, and only the attributes of that kind can be read or written.
-/

namespace ProcLang

open Numeral (Value)

/-- The types of variables and constants. -/
inductive ValueType where
  | integer
  | float
  | character
  deriving DecidableEq, Repr

namespace ValueType

/-- All types, in the order of their definition. -/
def all : List ValueType := [integer, float, character]

/-- The word for a type. -/
def word : ValueType → String
  | integer => "integer"
  | float => "float"
  | character => "character"

/-- The number of bytes that a value takes. -/
def size : ValueType → Int
  | integer => 2
  | float => 4
  | character => 1

end ValueType

/-- The ways in which a parameter is passed. -/
inductive Mode where
  | input
  | output
  | inout
  deriving DecidableEq, Repr

namespace Mode

/-- All modes, in the order of their definition. -/
def all : List Mode := [input, output, inout]

/-- The word for a mode. -/
def word : Mode → String
  | input => "in"
  | output => "out"
  | inout => "inout"

end Mode

/-- What a symbol can stand for. -/
inductive SymbolKind where
  | var
  | const
  | func
  deriving DecidableEq, Repr

namespace SymbolKind

/-- All kinds, in the order of their definition. -/
def all : List SymbolKind := [var, const, func]

/-- The word for a kind. -/
def word : SymbolKind → String
  | var => "variable"
  | const => "constant"
  | func => "function"

end SymbolKind

/-- How a variable or constant is stored: its type and size, its offset in the activation record,
and whether it is a parameter. -/
structure Storage where
  type : Option ValueType := none
  size : Int := 0
  offset : Int := 0
  isParameter : Bool := false
  deriving DecidableEq, Repr

/-- Storage for a value of a type, with no place yet. -/
def Storage.ofType (type : ValueType) : Storage := { type := some type, size := type.size }

/-- What is known of a function: the types and modes of its parameters, their number, and the sizes
of its parameters and of its local variables. -/
structure Signature where
  types : List ValueType := []
  modes : List Mode := []
  parameterCount : Int := 0
  parametersSize : Int := 0
  localsSize : Int := 0
  deriving DecidableEq, Repr

/-- The signature with one more parameter. -/
def Signature.addParameter (g : Signature) (type : ValueType) (mode : Mode) : Signature :=
  { g with types := g.types ++ [type], modes := g.modes ++ [mode] }

/-- The attributes of a symbol, by its kind. -/
inductive Attributes where
  | unset
  | var (storage : Storage)
  | const (storage : Storage) (value : Value)
  | func (signature : Signature)
  deriving DecidableEq, Repr

namespace Attributes

/-- The kind that the attributes belong to. -/
def kind? : Attributes → Option SymbolKind
  | unset => none
  | var _ => some .var
  | const _ _ => some .const
  | func _ => some .func

/-- The first attributes of a symbol of a kind. -/
def ofKind : SymbolKind → Attributes
  | .var => var {}
  | .const => const {} (.integer 0)
  | .func => func {}

end Attributes

/-- A declared name. -/
structure Symbol where
  name : String
  depth : Int
  attributes : Attributes := .unset
  deriving DecidableEq, Repr

/-- Why attributes cannot be set, or not be read or written. -/
inductive SymbolError where
  /-- The kind is to be set and has been set before. -/
  | alreadySet (name : String) (kind : SymbolKind)
  /-- The attributes of another kind, or of none, are there. -/
  | otherKind (name : String) (found : Option SymbolKind) (wanted : SymbolKind)
  deriving DecidableEq, Repr

/-- The word for the kind of a symbol whose attributes may be unset. -/
def kindWord (kind : Option SymbolKind) : String := (kind.map SymbolKind.word).getD "unset"

/-- The diagnostic text of a symbol error. -/
def SymbolError.message : SymbolError → String
  | alreadySet name kind => s!"symbol '{name}' is already a {kind.word}"
  | otherKind name found wanted =>
    s!"symbol '{name}' is " ++ kindWord found ++ s!", not {wanted.word}"

namespace Symbol

/-- The kind of a symbol, if it is set. -/
def kind? (s : Symbol) : Option SymbolKind := s.attributes.kind?

/-- Sets the kind of a symbol, which can be done once. -/
def setKind (s : Symbol) (kind : SymbolKind) : Except SymbolError Symbol :=
  match s.kind? with
  | some old => .error (.alreadySet s.name old)
  | none => .ok { s with attributes := .ofKind kind }

/-- The error of a symbol that is not of the wanted kind. -/
def refuse (s : Symbol) (wanted : SymbolKind) : SymbolError := .otherKind s.name s.kind? wanted

/-! ## Attributes of one kind -/

/-- The storage of a variable. -/
def asVariable (s : Symbol) : Except SymbolError Storage :=
  match s.attributes with
  | .var storage => .ok storage
  | _ => .error (s.refuse .var)

/-- The storage and value of a constant. -/
def asConstant (s : Symbol) : Except SymbolError (Storage × Value) :=
  match s.attributes with
  | .const storage value => .ok (storage, value)
  | _ => .error (s.refuse .const)

/-- The signature of a function. -/
def asFunction (s : Symbol) : Except SymbolError Signature :=
  match s.attributes with
  | .func signature => .ok signature
  | _ => .error (s.refuse .func)

/-- Changes the storage of a variable. -/
def modifyVariable (s : Symbol) (f : Storage → Storage) : Except SymbolError Symbol :=
  s.asVariable.map fun storage => { s with attributes := .var (f storage) }

/-- Changes the storage and value of a constant. -/
def modifyConstant (s : Symbol) (f : Storage × Value → Storage × Value) :
    Except SymbolError Symbol :=
  s.asConstant.map fun c => { s with attributes := .const (f c).1 (f c).2 }

/-- Changes the signature of a function. -/
def modifyFunction (s : Symbol) (f : Signature → Signature) : Except SymbolError Symbol :=
  s.asFunction.map fun signature => { s with attributes := .func (f signature) }

/-! ## Attributes of variables and constants alike -/

/-- The storage of a variable or constant. -/
def storage (s : Symbol) : Except SymbolError Storage :=
  match s.attributes with
  | .var storage => .ok storage
  | .const storage _ => .ok storage
  | _ => .error (s.refuse .const)

/-- Changes the storage of a variable or constant. -/
def modifyStorage (s : Symbol) (f : Storage → Storage) : Except SymbolError Symbol :=
  match s.attributes with
  | .var storage => .ok { s with attributes := .var (f storage) }
  | .const storage value => .ok { s with attributes := .const (f storage) value }
  | _ => .error (s.refuse .const)

/-- The size of a variable or constant. -/
def size (s : Symbol) : Except SymbolError Int := s.storage.map Storage.size

/-- The offset of a variable or constant. -/
def offset (s : Symbol) : Except SymbolError Int := s.storage.map Storage.offset

/-- Sets the offset of a variable or constant. -/
def setOffset (s : Symbol) (offset : Int) : Except SymbolError Symbol :=
  s.modifyStorage fun storage => { storage with offset := offset }

/-- Whether the symbol is a parameter. A function never is. -/
def isParameter (s : Symbol) : Except SymbolError Bool :=
  if s.kind? = some .func then .ok false else s.storage.map Storage.isParameter

/-- Sets whether a variable or constant is a parameter. -/
def setParameter (s : Symbol) (flag : Bool) : Except SymbolError Symbol :=
  s.modifyStorage fun storage => { storage with isParameter := flag }

/-- The type of a variable or constant, where it has one. -/
def valueType? (s : Symbol) : Option ValueType :=
  match s.attributes with
  | .var storage => storage.type
  | .const storage _ => storage.type
  | _ => none

/-- Gives a symbol attributes if it has none yet. -/
def giveAttributes (s : Symbol) (attributes : Attributes) : Symbol :=
  if s.attributes = .unset then { s with attributes := attributes } else s

end Symbol

end ProcLang
