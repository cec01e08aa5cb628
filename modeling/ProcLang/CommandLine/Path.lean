/-!
# Paths

A place in the file system is given by the names on the way to it. A path is a text whose parts,
between slashes, lead from place to place.
-/

namespace ProcLang.CommandLine

/-- Why a path cannot be opened. -/
inductive OpenError where
  /-- Nothing is there. -/
  | missing
  /-- A file is there, and a directory is needed. -/
  | notDirectory
  /-- A directory is there, and a file is needed. -/
  | isDirectory
  /-- The path or a part of it has too many bytes. -/
  | tooLong
  deriving DecidableEq, Repr

/-- The reason in messages: the number of the system error and its text. -/
def OpenError.reason : OpenError → String
  | missing => "[Errno 2] No such file or directory"
  | notDirectory => "[Errno 20] Not a directory"
  | isDirectory => "[Errno 21] Is a directory"
  | tooLong => "[Errno 36] File name too long"

/-! ## Places -/

/-- A place of the file system: the names on the way down from the root, the last one first. -/
structure Place where
  names : List String
  deriving DecidableEq, Repr

namespace Place

/-- The directory that all others are in. -/
def root : Place := ⟨[]⟩

/-- The place with a name in a directory. -/
def child (p : Place) (name : String) : Place := ⟨name :: p.names⟩

/-- The directory around a place. The root is its own. -/
def parent (p : Place) : Place := ⟨p.names.tail⟩

@[simp] theorem parent_child (p : Place) (name : String) : (p.child name).parent = p := rfl

@[simp] theorem parent_root : root.parent = root := rfl

/-- The name of a place in a directory, if it is there. -/
def nameIn? (directory : Place) : Place → Option String
  | ⟨[]⟩ => none
  | ⟨name :: names⟩ => if names = directory.names then some name else none

@[simp] theorem nameIn?_child (p : Place) (name : String) : nameIn? p (p.child name) = some name :=
  if_pos rfl

/-- The path that leads to a place from the root. -/
def path (p : Place) : String := "/" ++ "/".intercalate p.names.reverse

end Place

/-! ## Paths -/

/-- The parts of a text between slashes. -/
def splitSlashes : List Char → List (List Char)
  | [] => [[]]
  | c :: rest =>
    if c = '/' then [] :: splitSlashes rest
    else
      match splitSlashes rest with
      | part :: parts => (c :: part) :: parts
      | [] => [[c]]

/-- A path by its parts. -/
structure Path where
  /-- Whether it begins with a slash, and so in the root. -/
  absolute : Bool
  /-- What stands between its slashes, without empty parts. -/
  parts : List String
  /-- Whether it ends with a slash. -/
  closed : Bool
  deriving DecidableEq, Repr

namespace Path

/-- The number of bytes that a path may have. -/
def maxSize : Nat := 4095

/-- The number of bytes that a part of a path may have. -/
def maxPartSize : Nat := 255

/-- The path that a text gives. -/
def ofText (text : String) : Except OpenError Path :=
  let cs := text.toList
  if cs.isEmpty then .error .missing
  else if text.utf8ByteSize > maxSize then .error .tooLong
  else
    .ok
      { absolute := cs.head? = some '/'
        parts := ((splitSlashes cs).filter fun part => !part.isEmpty).map String.ofList
        closed := cs.getLast? = some '/' }

/-- The directory that a path begins in. -/
def start (path : Path) (working : Place) : Place := if path.absolute then .root else working

/-- The named places that parts of a path lead to in turn. -/
def placesFrom (p : Place) : List String → List Place
  | [] => []
  | part :: rest =>
    if part = "." then placesFrom p rest
    else if part = ".." then placesFrom p.parent rest
    else p.child part :: placesFrom (p.child part) rest

/-- The named places that a path leads to in turn. -/
def places (path : Path) (working : Place) : List Place :=
  placesFrom (path.start working) path.parts

end Path

end ProcLang.CommandLine
