import ProcLang.CommandLine.Run

/-!
# The command

The outer layer: it hands the arguments, the standard input and the named files to
`CommandLine.run`, and carries out what comes back.
-/

namespace ProcLang.CommandLine

/-- The places that the files of a plan lead to. -/
def namedPlaces (plan : Plan) (working : Place) : List Place :=
  plan.actions.flatMap fun
    | .listing file | .source file =>
      match Path.ofText file with
      | .ok path => path.places working
      | .error _ => []
    | _ => []

/-- The place that a path without `.` and `..` leads to from the root. -/
def placeOf (path : String) : Place :=
  match Path.ofText path with
  | .ok path => ⟨path.parts.reverse⟩
  | .error _ => .root

/-- Adds what is in a place to the files. What is there but has the wrong type for reading is a
directory, or is below a file, where no path leads. -/
def explore (files : Files) (p : Place) : IO Files := do
  try
    return files.write p (← IO.FS.readFile p.path)
  catch
    | .inappropriateType .. => return { files with directories := p :: files.directories }
    | _ => return files

/-- Runs the command on the files of the working directory. -/
def runInDirectory (arguments : List String) : IO UInt32 := do
  let plan := Plan.ofArguments arguments
  let working := placeOf (← IO.currentDir).toString
  let before ← (namedPlaces plan working).foldlM explore ⟨working, [], []⟩
  let input ←
    if plan.error.isNone ∧ plan.actions.contains (.source "-") then (← IO.getStdin).readToEnd
    else pure ""
  let finished := run arguments input before
  for (place, text) in finished.files.entries do
    if before.read? place ≠ some text then IO.FS.writeFile place.path text
  IO.print finished.out
  IO.eprint finished.err
  match finished.status with
  | .ok status => return status.toUInt32
  | .error (.numeral e) =>
    IO.eprintln e.message
    return 1
  | .error _ => return 1

end ProcLang.CommandLine

/-- The entry point. -/
def main (arguments : List String) : IO UInt32 :=
  ProcLang.CommandLine.runInDirectory arguments
