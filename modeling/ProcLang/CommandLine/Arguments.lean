import ProcLang.CommandLine.Path
import ProcLang.Text.Quoted

/-!
# Arguments of the command line

The arguments are told apart first, as switches and plain words, and then turned into the list of
what is to be done, in their order. Long switches may be shortened as long as they stay unambiguous,
short switches may be joined into one argument, and everything behind `--` is a plain word.
-/

namespace ProcLang.CommandLine

/-- The switches of the command line. -/
inductive Switch where
  | help
  | trace
  | listing
  | tokens
  deriving DecidableEq, Repr

namespace Switch

/-- How switches are spelt. -/
def spellings : List (String × Switch) :=
  [("-h", help), ("--help", help), ("-t", trace), ("--trace", trace), ("-l", listing),
   ("--listing", listing), ("--tokens", tokens)]

/-- The name of a switch in messages. -/
def name : Switch → String
  | help => "-h/--help"
  | trace => "-t/--trace"
  | listing => "-l/--listing"
  | tokens => "--tokens"

/-- Whether a switch is followed by the name of a file. -/
def takesFile : Switch → Bool
  | listing => true
  | _ => false

/-- The switch with a spelling. -/
def ofSpelling? (spelling : String) : Option Switch := spellings.lookup spelling

/-- The switch of one letter. -/
def ofLetter? (letter : Char) : Option Switch := ofSpelling? (String.ofList ['-', letter])

end Switch

/-- The arguments that name files. -/
inductive FileArgument where
  /-- The file with the text to read. -/
  | source
  /-- The file to write the listing to. -/
  | listing
  deriving DecidableEq, Repr

namespace FileArgument

/-- The name of an argument in messages. -/
def name : FileArgument → String
  | source => "source"
  | listing => Switch.listing.name

/-- The letter for what is done to the file. -/
def access : FileArgument → String
  | source => "r"
  | listing => "w"

end FileArgument

/-- Why arguments cannot be used. -/
inductive UsageError where
  /-- A shortened switch could be several ones. -/
  | ambiguous (argument : String) (candidates : List String)
  /-- No file follows the switch. -/
  | missingFile (switch : Switch)
  /-- A text is joined to a switch that takes none. -/
  | ignoredText (switch : Switch) (text : String)
  /-- Arguments are left over. -/
  | unrecognized (arguments : List String)
  /-- The file of an argument has a name that no file can have. -/
  | invalidName (argument : FileArgument) (file : String)
  /-- The file of an argument cannot be opened. -/
  | cannotOpen (argument : FileArgument) (file : String) (error : OpenError)
  deriving DecidableEq, Repr

/-- The message on a usage error. -/
def UsageError.message : UsageError → String
  | ambiguous argument candidates =>
    s!"ambiguous option: {argument} could match " ++ ", ".intercalate candidates
  | missingFile switch => s!"argument {switch.name}: expected one argument"
  | ignoredText switch text =>
    s!"argument {switch.name}: ignored explicit argument " ++ Text.quote text
  | unrecognized arguments => "unrecognized arguments: " ++ " ".intercalate arguments
  | invalidName argument file =>
    s!"argument {argument.name}: invalid FileType('{argument.access}') value: " ++ Text.quote file
  | cannotOpen argument file error =>
    s!"argument {argument.name}: can't open '{file}': {error.reason}: " ++ Text.quote file

/-! ## Telling arguments apart -/

/-- An argument by its form. -/
inductive Word where
  /-- A file, or anything behind the separator. -/
  | plain (text : String)
  /-- The first `--`. -/
  | separator
  /-- A switch of one letter, and the text joined to it. -/
  | short (switch : Switch) (joined : Option (List Char))
  /-- A switch of one word, perhaps shortened, and the text joined to it. -/
  | long (switch : Switch) (joined : Option (List Char))
  /-- An argument that looks like a switch and is none. -/
  | unknown (text : String)
  deriving DecidableEq, Repr

/-- The part of a text before its first equals sign, and the part behind it. -/
def splitEquals (cs : List Char) : List Char × Option (List Char) :=
  match cs.dropWhile (· != '=') with
  | _ :: rest => (cs.takeWhile (· != '='), some rest)
  | [] => (cs, none)

/-- Whether a text has the form of a negative number: digits, or a point with digits behind it and
perhaps before it. A line feed may end it. -/
def isNegativeNumber (cs : List Char) : Bool :=
  let isDigit (c : Char) := (Text.digitValue? c).isSome
  match if cs.getLast? = some '\n' then cs.dropLast else cs with
  | '-' :: body =>
    let whole := body.takeWhile isDigit
    match body.dropWhile isDigit with
    | [] => !whole.isEmpty
    | '.' :: fraction => !fraction.isEmpty && fraction.all isDigit
    | _ => false
  | _ => false

/-- A word that starts with a hyphen and is no switch. -/
def otherWord (argument : String) : Word :=
  let cs := argument.toList
  if isNegativeNumber cs || cs.contains ' ' then .plain argument else .unknown argument

/-- A word that starts with two hyphens and is not a full switch. -/
def longWord (argument : String) : Except UsageError Word :=
  let (start, rest) := splitEquals argument.toList
  match Switch.spellings.filter fun s => start.isPrefixOf s.1.toList with
  | [] => .ok (otherWord argument)
  | [(_, switch)] => .ok (.long switch rest)
  | several => .error (.ambiguous argument (several.map Prod.fst))

/-- A word that starts with one hyphen and is not a full switch. -/
def shortWord (argument : String) (letter : Char) (rest : List Char) : Word :=
  match Switch.ofLetter? letter with
  | some switch => .short switch (some rest)
  | none => otherWord argument

/-- The word of a switch. -/
def switchWord (spelling : List Char) (switch : Switch) (joined : Option (List Char)) : Word :=
  if ['-', '-'].isPrefixOf spelling then .long switch joined else .short switch joined

/-- A full switch, alone or with an equals sign and a text. -/
def fullSwitch? (cs : List Char) : Option Word :=
  match Switch.ofSpelling? (String.ofList cs) with
  | some switch => some (switchWord cs switch none)
  | none =>
    match splitEquals cs with
    | (start, some text) =>
      (Switch.ofSpelling? (String.ofList start)).map fun switch =>
        switchWord start switch (some text)
    | (_, none) => none

/-- The form of an argument in front of any separator. -/
def Word.ofArgument (argument : String) : Except UsageError Word :=
  match fullSwitch? argument.toList with
  | some word => .ok word
  | none =>
    match argument.toList with
    | '-' :: '-' :: _ => longWord argument
    | '-' :: letter :: rest => .ok (shortWord argument letter rest)
    | _ => .ok (.plain argument)

/-- The forms of the arguments. Everything behind a separator is plain. -/
def Word.ofArguments : List String → Except UsageError (List Word)
  | [] => .ok []
  | argument :: rest =>
    if argument = "--" then .ok (.separator :: rest.map .plain)
    else do
      let word ← ofArgument argument
      let words ← ofArguments rest
      return word :: words

/-! ## What is to be done -/

/-- Something that an argument asks for. -/
inductive Action where
  /-- Show the help text and end. -/
  | help
  /-- Print the snapshots of the analysis. -/
  | trace
  /-- Print the tokens in place of an analysis. -/
  | tokens
  /-- Write the listing to a file, or to the standard output. -/
  | listing (file : String)
  /-- Write no listing, even if one was asked for before. -/
  | noListing
  /-- Read a file, or the standard input. -/
  | source (file : String)
  deriving DecidableEq, Repr

/-- What is to be done, as far as the arguments can be used. -/
structure Plan where
  actions : List Action
  unrecognized : List String
  error : Option UsageError
  deriving DecidableEq, Repr

namespace Plan

/-- Nothing to do. -/
def nothing : Plan := ⟨[], [], none⟩

/-- Nothing to do because of an error. -/
def stopped (error : UsageError) : Plan := ⟨[], [], some error⟩

/-- Does something first. -/
def after (actions : List Action) (p : Plan) : Plan := { p with actions := actions ++ p.actions }

/-- Sets an argument aside that is not recognized. -/
def setAside (argument : String) (p : Plan) : Plan :=
  { p with unrecognized := argument :: p.unrecognized }

end Plan

/-- What a switch without a file asks for. -/
def Switch.action : Switch → List Action
  | help => [.help]
  | trace => [.trace]
  | tokens => [.tokens]
  | listing => []

/-- What joined switches ask for. -/
inductive Cluster where
  /-- Actions and nothing more. -/
  | complete (actions : List Action)
  /-- Actions, and a switch whose file is the next word. -/
  | needsFile (actions : List Action) (switch : Switch)
  /-- An error in place of all actions. -/
  | wrong (error : UsageError)
  deriving DecidableEq, Repr

namespace Cluster

/-- Does something before what joined switches ask for. -/
def after (first : List Action) : Cluster → Cluster
  | complete actions => complete (first ++ actions)
  | needsFile actions switch => needsFile (first ++ actions) switch
  | wrong error => wrong error

/-- A switch on its own. -/
def ofSwitch (switch : Switch) : Cluster :=
  if switch.takesFile then needsFile [] switch else complete switch.action

/-- A switch with a text joined to it that holds no switches. The separator is no file, so that it
takes the file of the switch away. -/
def ofJoined (switch : Switch) (text : List Char) : Cluster :=
  if switch.takesFile then
    complete [if text = ['-', '-'] then .noListing else .listing (String.ofList text)]
  else wrong (.ignoredText switch (String.ofList text))

/-- A switch of one letter, with the letters of further switches behind it. Behind a switch that
takes a file stands the file, and behind the last letter nothing. -/
def ofLetters (switch : Switch) : List Char → Cluster
  | [] => ofSwitch switch
  | c :: rest =>
    if switch.takesFile then ofJoined switch (c :: rest)
    else
      match Switch.ofLetter? c with
      | some next => (ofLetters next rest).after switch.action
      | none => ofJoined switch (c :: rest)

end Cluster

/-- What a switch asks for. -/
def Word.cluster? : Word → Option Cluster
  | short switch none | long switch none => some (.ofSwitch switch)
  | short switch (some []) => some (.ofJoined switch [])
  | short switch (some (c :: rest)) => some (.ofLetters switch (c :: rest))
  | long switch (some text) => some (.ofJoined switch text)
  | _ => none

/-- Turns words into what is to be done. The first plain word that no switch takes is the source,
and takes a separator around it along; without one the standard input is. -/
def Plan.ofWords (sourceGiven : Bool) : List Word → Plan
  | [] => if sourceGiven then nothing else ⟨[.source "-"], [], none⟩
  | .plain text :: .separator :: rest =>
    if sourceGiven then setAside text (setAside "--" (ofWords true rest))
    else after [.source text] (ofWords true rest)
  | .plain text :: rest =>
    if sourceGiven then setAside text (ofWords true rest)
    else after [.source text] (ofWords true rest)
  | .separator :: rest =>
    if sourceGiven then setAside "--" (ofWords true rest) else ofWords false rest
  | .unknown text :: rest => setAside text (ofWords sourceGiven rest)
  | word :: rest =>
    match word.cluster? with
    | none => ofWords sourceGiven rest
    | some (.complete actions) => after actions (ofWords sourceGiven rest)
    | some (.wrong error) => stopped error
    | some (.needsFile actions switch) =>
      match rest with
      | .plain file :: rest => after (actions ++ [.listing file]) (ofWords sourceGiven rest)
      | _ => stopped (.missingFile switch)

/-- What the arguments ask for. -/
def Plan.ofArguments (arguments : List String) : Plan :=
  match Word.ofArguments arguments with
  | .ok words => ofWords false words
  | .error e => stopped e

end ProcLang.CommandLine
