import ProcLang.CommandLine.Path

/-!
# Files

The files that a command works on, with their texts, and the directories around them. Paths are
followed part by part, so that a path through a file, or through a directory that is not there,
cannot be opened even if it comes back.
-/

namespace ProcLang.CommandLine

/-- Files with their texts, each place once, and the directories that are known besides the working
directory and the root. -/
structure Files where
  working : Place
  entries : List (Place × String)
  directories : List Place
  deriving DecidableEq, Repr

/-- What is in a place. -/
inductive Node where
  | directory
  | file (text : String)
  deriving DecidableEq, Repr

namespace Files

/-- The text of a file. -/
def read? (files : Files) (p : Place) : Option String := files.entries.lookup p

/-- The pairs with a new text for a file. -/
def writePairs (p : Place) (text : String) : List (Place × String) → List (Place × String)
  | [] => [(p, text)]
  | (other, old) :: rest =>
    if other = p then (p, text) :: rest else (other, old) :: writePairs p text rest

/-- Writes a text to a file, in the place of the text that it had. -/
def write (files : Files) (p : Place) (text : String) : Files :=
  { files with entries := writePairs p text files.entries }

theorem read?_write (files : Files) (p other : Place) (text : String) :
    (files.write p text).read? other = if other = p then some text else files.read? other := by
  obtain ⟨working, entries, directories⟩ := files
  simp only [read?, write]
  induction entries with
  | nil =>
    by_cases h : other = p
    · simp [writePairs, h]
    · have h' : (other == p) = false := by simpa using h
      simp [writePairs, h, List.lookup_cons, h']
  | cons entry rest ih =>
    obtain ⟨head, old⟩ := entry
    by_cases hk : head = p
    · by_cases h : other = p
      · simp [writePairs, hk, h]
      · have h' : (other == p) = false := by simpa using h
        simp [writePairs, hk, h, List.lookup_cons, h']
    · by_cases h : other = head
      · subst h
        simp [writePairs, hk]
      · have h' : (other == head) = false := by simpa using h
        simp only [writePairs, hk, if_false, List.lookup_cons, h']
        exact ih

/-! ## The working directory -/

/-- The directories of every system: those in the root, each with those in it. -/
def systemTree : List (String × List String) :=
  [("bin", []), ("boot", []), ("dev", ["pts", "shm"]), ("etc", []), ("home", []), ("lib", []),
   ("lib64", []), ("media", []), ("mnt", []), ("opt", []), ("proc", []), ("root", []), ("run", []),
   ("sbin", []), ("srv", []), ("sys", []), ("tmp", []),
   ("usr", ["bin", "lib", "local", "sbin", "share"]), ("var", ["cache", "lib", "log", "tmp"])]

/-- The places of the system's directories. -/
def systemDirectories : List Place :=
  systemTree.flatMap fun branch =>
    let p := Place.root.child branch.1
    p :: branch.2.map p.child

/-- The file that is always empty. -/
def nullDevice : Place := (Place.root.child "dev").child "null"

/-- A directory for temporary files. Its own name is not known, and stands as the empty one, which
is no part of any path. -/
def scratch : Place := (Place.root.child "tmp").child ""

/-- The files of a scratch directory to work in, in a file system without other files. -/
def ofList (texts : List (String × String)) : Files :=
  ⟨scratch, texts.map (fun t => (scratch.child t.1, t.2)) ++ [(nullDevice, "")], systemDirectories⟩

/-- The files of the working directory: names with texts. -/
def toList (files : Files) : List (String × String) :=
  files.entries.filterMap fun entry =>
    (Place.nameIn? files.working entry.1).map fun name => (name, entry.2)

@[simp] theorem toList_ofList (texts : List (String × String)) : (ofList texts).toList = texts := by
  induction texts with
  | nil => rfl
  | cons t rest ih => exact congrArg (t :: ·) ih

/-! ## Following paths -/

/-- What a name in a directory stands for. -/
def look (files : Files) (p : Place) (name : String) : Except OpenError Node :=
  if name.utf8ByteSize > Path.maxPartSize then .error .tooLong
  else if p.child name ∈ files.directories then .ok .directory
  else
    match files.read? (p.child name) with
    | some text => .ok (.file text)
    | none => .error .missing

/-- The directory that a part of a path leads to from another one. -/
def enter (files : Files) (p : Place) (part : String) : Except OpenError Place :=
  if part = "." then .ok p
  else if part = ".." then .ok p.parent
  else
    match files.look p part with
    | .ok .directory => .ok (p.child part)
    | .ok (.file _) => .error .notDirectory
    | .error e => .error e

/-- The directory and the name that a path ends with. Some paths lead to a directory without naming
it at their end. -/
def ending? (files : Files) (path : Path) : Except OpenError (Option (Place × String)) :=
  match path.parts.dropLast.foldlM files.enter (path.start files.working) with
  | .error e => .error e
  | .ok p =>
    match path.parts.getLast? with
    | none => .ok none
    | some name => .ok (if name = "." ∨ name = ".." then none else some (p, name))

/-- Opens a file for reading. -/
def openText (files : Files) (text : String) : Except OpenError Place := do
  let path ← Path.ofText text
  match ← files.ending? path with
  | none => .error .isDirectory
  | some (p, name) =>
    match files.look p name with
    | .ok (.file _) => if path.closed then .error .notDirectory else .ok (p.child name)
    | .ok .directory => .error .isDirectory
    | .error e => .error e

/-- Opens a file for writing, which empties it. A path that ends with a slash can only be one of a
directory. -/
def create (files : Files) (text : String) : Except OpenError (Place × Files) := do
  let path ← Path.ofText text
  match ← files.ending? path with
  | none => .error .isDirectory
  | some (p, name) =>
    if path.closed then .error .isDirectory
    else
      match files.look p name with
      | .ok (.file _) | .error .missing => .ok (p.child name, files.write (p.child name) "")
      | .ok .directory => .error .isDirectory
      | .error e => .error e

end Files

end ProcLang.CommandLine
