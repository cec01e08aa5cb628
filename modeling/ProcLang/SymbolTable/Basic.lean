import ProcLang.SymbolTable.Index
import ProcLang.SymbolTable.Symbol

/-!
# The symbol table

The table holds the declarations of all open scopes. A scope is given by its depth: what is
declared there is found by name, the last declaration first, and is removed as a whole when the
scope ends.
Symbols are referred to by handles, which stay good after a symbol has left the table.
-/

namespace ProcLang

/-- A handle on a symbol: the number of symbols that were made before it. -/
abbrev Handle := Nat

/-- A table of declarations. `symbols` holds all symbols that were ever made, `byName` the handles
of the declarations of each name, and `namesAt` the names declared at each depth. -/
structure SymbolTable where
  symbols : Array Symbol
  byName : Index String Handle
  namesAt : Index Int String
  depth : Int
  deriving DecidableEq, Repr

/-- The depth outside all scopes. -/
def outermostDepth : Int := 0

namespace SymbolTable

/-- A table without declarations. -/
def empty : SymbolTable := ⟨#[], .empty, .empty, outermostDepth⟩

/-- The symbol that a handle stands for. -/
def symbol (t : SymbolTable) (h : Handle) : Symbol := t.symbols.getD h ⟨"", outermostDepth, .unset⟩

/-- The symbols that a list of handles stands for. -/
def symbolsOf (t : SymbolTable) (hs : List Handle) : List Symbol := hs.map t.symbol

/-- Replaces the symbol that a handle stands for. -/
def set (t : SymbolTable) (h : Handle) (s : Symbol) : SymbolTable :=
  { t with symbols := t.symbols.setIfInBounds h s }

/-- Makes a symbol that is in no scope. -/
def create (t : SymbolTable) (name : String) (depth : Int) : Handle × SymbolTable :=
  (t.symbols.size, { t with symbols := t.symbols.push ⟨name, depth, .unset⟩ })

/-- Declares a name at a depth. -/
def insert (t : SymbolTable) (name : String) (depth : Int) : Handle × SymbolTable :=
  let (h, t) := t.create name depth
  (h, { t with byName := t.byName.push name h, namesAt := t.namesAt.push depth name })

/-- The last declaration of a name that passes a test. -/
def findLast? (t : SymbolTable) (name : String) (test : Symbol → Bool) : Option Handle :=
  (t.byName.get name).reverse.find? fun h => test (t.symbol h)

/-- The last declaration of a name. -/
def lookup? (t : SymbolTable) (name : String) : Option Handle := t.findLast? name fun _ => true

/-- The last declaration of a name as a symbol of a kind. -/
def lookupKind? (t : SymbolTable) (name : String) (kind : SymbolKind) : Option Handle :=
  t.findLast? name fun s => s.kind? = some kind

/-- The last declaration of a name at a depth. -/
def lookupAt? (t : SymbolTable) (name : String) (depth : Int) : Option Handle :=
  t.findLast? name fun s => s.depth = depth

/-- Whether a name is declared. -/
def contains (t : SymbolTable) (name : String) : Bool := !(t.byName.get name).isEmpty

/-- The number of declarations. -/
def size (t : SymbolTable) : Nat := t.byName.pairs.foldl (fun n p => n + p.2.length) 0

/-- Removes the declarations of one name at a depth. -/
def removeName (depth : Int) (t : SymbolTable) (name : String) : SymbolTable :=
  { t with byName := t.byName.filterAt name fun h => (t.symbol h).depth ≠ depth }

/-- Removes all declarations at a depth. -/
def deleteDepth (t : SymbolTable) (depth : Int) : SymbolTable :=
  (t.namesAt.get depth).foldl (removeName depth) { t with namesAt := t.namesAt.erase depth }

/-- Opens a scope one deeper than the present one. -/
def enter (t : SymbolTable) : SymbolTable := { t with depth := t.depth + 1 }

/-- Ends the present scope. -/
def leave (t : SymbolTable) : SymbolTable :=
  { t.deleteDepth t.depth with depth := t.depth - 1 }

/-- Ends the innermost `n` scopes. -/
def leaveScopes : Nat → SymbolTable → SymbolTable
  | 0, t => t
  | n + 1, t => leaveScopes n t.leave

/-- Ends all scopes deeper than a depth. -/
def unwindTo (t : SymbolTable) (depth : Int) : SymbolTable :=
  t.leaveScopes (t.depth - depth).toNat

/-- The declarations at a depth, ordered by the first declaration of their name. -/
def entriesAt (t : SymbolTable) (depth : Int) : List Handle :=
  (t.namesAt.get depth).eraseDups.flatMap fun name =>
    (t.byName.get name).filter fun h => (t.symbol h).depth = depth

/-- All declarations, by increasing depth. -/
def entries (t : SymbolTable) : List Handle :=
  (t.namesAt.keys.mergeSort fun a b => a ≤ b).flatMap t.entriesAt

end SymbolTable

end ProcLang
