import ProcLang.CommandLine.Run
import ProcLang.Proofs.Faults
import ProcLang.Proofs.TwoRuns
import ProcLang.Window

/-!
# The front ends agree

The report on a text, the command that reads the text and the window with it show one outcome. The
command reads line ends anew and prints what is traced, but a text without carriage returns is read
as it is, and without tracing nothing is printed during the analysis.
-/

namespace ProcLang

/-! ## Texts -/

namespace Text

theorem unifyLineEnds_of_not_mem {cs : List Char} (h : '\r' ∉ cs) : unifyLineEnds cs = cs := by
  induction cs with
  | nil => rfl
  | cons c cs ih =>
    obtain ⟨hc, hcs⟩ := not_or.mp (List.mem_cons.not.mp h)
    rw [unifyLineEnds]
    · rw [ih hcs]
    · rintro rest rfl -
      exact hc rfl
    · rintro rfl
      exact hc rfl

theorem endLines_singleton (line : String) : endLines [line] = line ++ "\n" := by
  simp [endLines, String.join]

theorem stripList_eq_nil_iff {cs : List Char} : stripList cs = [] ↔ ∀ c ∈ cs, isBlank c = true := by
  unfold stripList
  rw [List.reverse_eq_nil_iff, List.dropWhile_eq_nil_iff]
  constructor
  · intro h
    -- what is left after the blanks in front would begin with no blank
    have hnil : cs.dropWhile isBlank = [] := by
      cases hrest : cs.dropWhile isBlank with
      | nil => rfl
      | cons c rest =>
        have hc := List.head?_dropWhile_not isBlank cs
        rw [hrest] at hc h
        have := h c (by simp)
        simp_all
    exact List.dropWhile_eq_nil_iff.mp hnil
  · intro h
    rw [List.dropWhile_eq_nil_iff.mpr h]
    simp

theorem strip_ne_empty {s : String} (h : ∃ c ∈ s.toList, isBlank c = false) : strip s ≠ "" := by
  obtain ⟨c, hc, hblank⟩ := h
  intro hs
  have hnil : stripList s.toList = [] := by
    have := congrArg String.toList hs
    simpa [strip] using this
  exact Bool.noConfusion (hblank.symm.trans (stripList_eq_nil_iff.mp hnil c hc))

end Text

/-! ## Reports -/

theorem append_ne_noErrors {first rest : String} (h : first.toList.head?.any (· != 'N')) :
    first ++ rest ≠ noErrors := by
  intro heq
  have hhead : (first ++ rest).toList.head? = some 'N' := by
    rw [heq]
    decide +kernel
  rw [String.toList_append, List.head?_append] at hhead
  cases hfirst : first.toList.head? with
  | none => simp [hfirst] at h
  | some c => simp_all

/-- No diagnostic reads as the outcome line of an analysis without errors. -/
theorem Diagnostic.message_ne_noErrors (d : Diagnostic) : d.message ≠ noErrors := by
  unfold message ScanError.message
  -- each message begins with a fixed text, and none of these with the letter of that line
  cases d <;> simp only [String.append_assoc] <;> exact append_ne_noErrors (by decide +kernel)

namespace Report

variable {o : Outcome} {r : Report}

theorem ofOutcome_of_none (h : o.failure = none) :
    ofOutcome o = .ok ⟨o.table, noErrors, o.closedListing none⟩ := by
  rw [ofOutcome, Outcome.verdict, h]
  rfl

theorem ofOutcome_of_diagnostic {d : Diagnostic} (h : o.failure = some (.diagnostic d)) :
    ofOutcome o = .ok ⟨noTable, d.message, o.closedListing (some d)⟩ := by
  rw [ofOutcome, Outcome.verdict, h]
  rfl

/-- The outcome line of a report tells whether the analysis succeeded. -/
theorem message_eq_noErrors_iff (h : ofOutcome o = .ok r) :
    r.message = noErrors ↔ o.failure = none := by
  cases hf : o.failure with
  | none =>
    cases (ofOutcome_of_none hf).symm.trans h
    exact iff_of_true rfl rfl
  | some e =>
    cases e with
    | diagnostic d =>
      cases (ofOutcome_of_diagnostic hf).symm.trans h
      exact iff_of_false d.message_ne_noErrors (Option.some_ne_none _)
    | fault f =>
      rw [ofOutcome, Outcome.verdict, hf] at h
      cases h

end Report

/-! ## The command -/

namespace CommandLine

namespace Settings

variable {σ : Settings} {input s : String} {r : Report}

/-- The settings ask for an analysis without tracing, of a text on the standard input or in a file
that reads so when all files are opened. -/
structure Analyzes (σ : Settings) (input s : String) : Prop where
  trace : σ.trace = false
  tokens : σ.tokens = false
  text : (σ.source = .standard ∧ input = s) ∨
    ∃ place, σ.source = .file place ∧ σ.files.read? place = some s

theorem Analyzes.sourceText (h : σ.Analyzes input s) (hs : '\r' ∉ s.toList) :
    σ.sourceText input = s := by
  have htext : String.ofList (Text.unifyLineEnds s.toList) = s := by
    rw [Text.unifyLineEnds_of_not_mem hs, String.ofList_toList]
  unfold Settings.sourceText
  rcases h.text with ⟨hsource, rfl⟩ | ⟨place, hsource, hread⟩
  · rw [hsource]
    exact htext
  · rw [hsource]
    simp only [hread, Option.getD_some]
    exact htext

theorem printAnalysis_of_report (htrace : σ.trace = false) (hr : Report.ofText s = .ok r) :
    σ.printAnalysis s =
      σ.writeListing r.listing
        ⟨.ok (if r.message = noErrors then 0 else 1),
          (if r.message = noErrors then r.table else r.message) ++ "\n", "", σ.files⟩ := by
  have htraced : Text.endLines [] = "" := rfl
  simp only [printAnalysis, htrace, Analysis.printedLines_of_untraced, htraced, String.empty_append,
    Text.endLines_singleton]
  cases hf : (Outcome.ofSource (.ofText s) false).failure with
  | none =>
    cases (Report.ofOutcome_of_none hf).symm.trans hr
    simp only [Outcome.verdict, hf, if_true]
  | some e =>
    cases e with
    | diagnostic d =>
      cases (Report.ofOutcome_of_diagnostic hf).symm.trans hr
      simp only [Outcome.verdict, hf, if_neg d.message_ne_noErrors]
    | fault f =>
      rw [Report.ofText, Report.ofOutcome, Outcome.verdict, hf] at hr
      cases hr

/-- The settings show the report on the text, and write its listing. -/
theorem Analyzes.execute (h : σ.Analyzes input s) (hs : '\r' ∉ s.toList)
    (hr : Report.ofText s = .ok r) :
    σ.execute input =
      σ.writeListing r.listing
        ⟨.ok (if r.message = noErrors then 0 else 1),
          (if r.message = noErrors then r.table else r.message) ++ "\n", "", σ.files⟩ := by
  rw [Settings.execute, h.sourceText hs, h.tokens]
  exact printAnalysis_of_report h.trace hr

end Settings

/-! ### Files -/

namespace Files

variable {files : Files} {p q target : Place} {part text : String}

/-- Creating a file empties it and leaves the others as they are. -/
theorem eq_write_of_create {files' : Files} (h : files.create text = .ok (target, files')) :
    files' = files.write target "" := by
  obtain ⟨path, -, h⟩ := bind_eq_ok.mp h
  obtain ⟨ending, -, h⟩ := bind_eq_ok.mp h
  split at h
  · cases h
  · split at h
    · cases h
    · split at h <;> cases h <;> rfl

/-- What is a directory or a file stays so when a file is written. -/
theorem look_write_of_ok {node : Node} (h : files.look p part = .ok node) :
    (files.write target text).look p part = .ok node ∨
      ∃ old, node = .file old ∧ (files.write target text).look p part = .ok (.file text) := by
  unfold look at h ⊢
  have hdirectories : (files.write target text).directories = files.directories := rfl
  rw [read?_write, hdirectories]
  split at h
  · cases h
  · next hsize =>
    rw [if_neg hsize]
    split at h
    · next hdir =>
      cases h
      exact Or.inl (if_pos hdir)
    · next hdir =>
      rw [if_neg hdir]
      by_cases htarget : p.child part = target
      · rw [if_pos htarget]
        split at h
        · next old _ =>
          cases h
          exact Or.inr ⟨old, rfl, rfl⟩
        · cases h
      · rw [if_neg htarget]
        exact Or.inl h

theorem enter_write (h : files.enter p part = .ok q) :
    (files.write target text).enter p part = .ok q := by
  unfold enter at h ⊢
  split at h
  · next hdot =>
    rw [if_pos hdot]
    exact h
  · next hdot =>
    rw [if_neg hdot]
    split at h
    · next hparent =>
      rw [if_pos hparent]
      exact h
    · next hparent =>
      rw [if_neg hparent]
      split at h
      · next hlook =>
        rcases look_write_of_ok hlook with hlook' | ⟨old, hfile, -⟩
        · rw [hlook']
          exact h
        · cases hfile
      · cases h
      · cases h

theorem foldlM_enter_write {parts : List String} (h : parts.foldlM files.enter p = .ok q) :
    parts.foldlM (files.write target text).enter p = .ok q := by
  induction parts generalizing p with
  | nil => exact h
  | cons part parts ih =>
    rw [List.foldlM_cons] at h ⊢
    obtain ⟨mid, hmid, hrest⟩ := bind_eq_ok.mp h
    rw [bind_eq_ok]
    exact ⟨mid, enter_write hmid, ih hrest⟩

/-- A file that can be opened still can be when a file is written. -/
theorem openText_write {name : String} (h : files.openText name = .ok p) :
    (files.write target text).openText name = .ok p := by
  obtain ⟨path, hpath, h⟩ := bind_eq_ok.mp h
  obtain ⟨ending, hending, h⟩ := bind_eq_ok.mp h
  have hending' : (files.write target text).ending? path = .ok ending := by
    unfold ending? at hending ⊢
    split at hending
    · cases hending
    · next hparts =>
      have hworking : (files.write target text).working = files.working := rfl
      rw [hworking, foldlM_enter_write hparts]
      exact hending
  unfold openText
  rw [bind_eq_ok]
  refine ⟨path, hpath, ?_⟩
  rw [bind_eq_ok]
  refine ⟨ending, hending', ?_⟩
  split at h
  · cases h
  · split at h
    · next hlook =>
      rcases look_write_of_ok hlook with hlook' | ⟨old, -, hlook'⟩
      · rw [hlook']
        exact h
      · rw [hlook']
        exact h
    · cases h
    · cases h

end Files

/-! ### Commands with plain paths -/

/-- A path that is neither a switch nor the name of the standard input or output, and that files
can have. -/
structure IsPlain (path : String) : Prop where
  head : path.toList.head? ≠ some '-'
  noNull : '\x00' ∉ path.toList

theorem ofSpelling?_eq_none {cs : List Char} (h : cs.head? ≠ some '-') :
    Switch.ofSpelling? (String.ofList cs) = none := by
  unfold Switch.ofSpelling?
  rw [List.lookup_eq_none_iff]
  intro entry hentry
  rw [bne_iff_ne]
  intro heq
  have hspelling : ∀ entry ∈ Switch.spellings, entry.1.toList.head? = some '-' := by decide +kernel
  have hhead := hspelling entry hentry
  rw [← heq, String.toList_ofList] at hhead
  exact h hhead

theorem head?_splitEquals {cs : List Char} (h : cs.head? ≠ some '-') :
    (splitEquals cs).1.head? ≠ some '-' := by
  have hfirst : (splitEquals cs).1 = cs.takeWhile (· != '=') ∨ (splitEquals cs).1 = cs := by
    unfold splitEquals
    split
    · exact Or.inl rfl
    · exact Or.inr rfl
  rcases hfirst with hfirst | hfirst
  · rw [hfirst, List.head?_takeWhile]
    intro hsome
    exact h (Option.filter_eq_some_iff.mp hsome).1
  · rw [hfirst]
    exact h

theorem IsPlain.ofArgument {path : String} (h : IsPlain path) :
    Word.ofArgument path = .ok (.plain path) := by
  have hfull : fullSwitch? path.toList = none := by
    unfold fullSwitch?
    rw [ofSpelling?_eq_none h.head]
    cases hsplit : splitEquals path.toList with
    | mk start rest =>
      have hstart := head?_splitEquals h.head
      rw [hsplit] at hstart
      cases rest with
      | none => rfl
      | some text => simp only [ofSpelling?_eq_none hstart, Option.map_none]
  have hhead := h.head
  unfold Word.ofArgument
  rw [hfull]
  dsimp only
  split
  · next hcs => exact absurd (congrArg List.head? hcs) hhead
  · next hcs => exact absurd (congrArg List.head? hcs) hhead
  · rfl

theorem IsPlain.opened {α : Type} {path : String} (h : IsPlain path) (argument : FileArgument)
    {outcome : Except OpenError α} {a : α} (ha : outcome = .ok a) :
    opened argument path outcome = .ok a := by
  unfold CommandLine.opened
  rw [if_neg (by simpa using h.noNull), ha]
  rfl

theorem IsPlain.ne_standard {path : String} (h : IsPlain path) : path ≠ "-" := by
  rintro rfl
  exact h.head (by decide +kernel)

/-- A command that reads a text on the standard input or in a file, and writes the listing to
another file if one is named. -/
inductive Invocation (s : String) (files : Files) : List String → String → Option Place → Prop
  | standard : Invocation s files [] s none
  | file {path input : String} {place : Place} (hpath : IsPlain path)
      (hopen : files.openText path = .ok place) (hread : files.read? place = some s) :
      Invocation s files [path] input none
  | standardListed {listing : String} {target : Place} {files' : Files} (hlisting : IsPlain listing)
      (hcreate : files.create listing = .ok (target, files')) :
      Invocation s files ["--listing", listing] s (some target)
  | fileListed {path listing input : String} {place target : Place} {files' : Files}
      (hlisting : IsPlain listing) (hcreate : files.create listing = .ok (target, files'))
      (hpath : IsPlain path) (hopen : files.openText path = .ok place)
      (hread : files.read? place = some s) (hne : place ≠ target) :
      Invocation s files ["--listing", listing, path] input (some target)

section Arguments

variable {path listing : String} {rest : List String} {words : List Word}

theorem IsPlain.ofArguments_cons (h : IsPlain path) (hrest : Word.ofArguments rest = .ok words) :
    Word.ofArguments (path :: rest) = .ok (.plain path :: words) := by
  have hne : path ≠ "--" := by
    rintro rfl
    exact h.head (by decide +kernel)
  rw [Word.ofArguments, if_neg hne, h.ofArgument, hrest]
  rfl

theorem ofArguments_listing_cons (hrest : Word.ofArguments rest = .ok words) :
    Word.ofArguments ("--listing" :: rest) = .ok (.long .listing none :: words) := by
  have hword : Word.ofArgument "--listing" = .ok (.long .listing none) := by decide +kernel
  rw [Word.ofArguments, if_neg (by decide), hword, hrest]
  rfl

/-- Alone, a plain path is the source. -/
theorem plan_source (hpath : IsPlain path) :
    Plan.ofArguments [path] = ⟨[.source path], [], none⟩ := by
  rw [Plan.ofArguments, hpath.ofArguments_cons rfl]
  rfl

theorem plan_listing (hlisting : IsPlain listing) :
    Plan.ofArguments ["--listing", listing] = ⟨[.listing listing, .source "-"], [], none⟩ := by
  rw [Plan.ofArguments, ofArguments_listing_cons (hlisting.ofArguments_cons rfl)]
  rfl

theorem plan_listing_source (hlisting : IsPlain listing) (hpath : IsPlain path) :
    Plan.ofArguments ["--listing", listing, path] =
      ⟨[.listing listing, .source path], [], none⟩ := by
  rw [Plan.ofArguments,
    ofArguments_listing_cons (hlisting.ofArguments_cons (hpath.ofArguments_cons rfl))]
  rfl

end Arguments

section Settings

variable {s path listing : String} {files files' : Files} {place target : Place}

theorem withSource_of_openText {σ : Settings} (hpath : IsPlain path)
    (hopen : σ.files.openText path = .ok place) :
    σ.withSource path = .ok { σ with source := .file place } := by
  unfold Settings.withSource
  rw [if_neg hpath.ne_standard, hpath.opened .source hopen]
  rfl

theorem withListing_of_create {σ : Settings} (hlisting : IsPlain listing)
    (hcreate : σ.files.create listing = .ok (target, files')) :
    σ.withListing listing = .ok { σ with listing := some (.file target), files := files' } := by
  unfold Settings.withListing
  rw [if_neg hlisting.ne_standard, hlisting.opened .listing hcreate]
  rfl

/-- Such a command is to analyse the text. -/
theorem Invocation.exists_settings {input : String} {arguments : List String}
    {target : Option Place} (h : Invocation s files arguments input target) :
    ∃ σ, Settings.ofPlan files (.ofArguments arguments) = .ok σ ∧ σ.Analyzes input s ∧
      σ.listing = target.map .file := by
  cases h with
  | standard =>
    exact ⟨{ files := files }, rfl, ⟨rfl, rfl, Or.inl ⟨rfl, rfl⟩⟩, rfl⟩
  | @file path _ place hpath hopen hread =>
    refine ⟨{ files := files, source := .file place }, ?_,
      ⟨rfl, rfl, Or.inr ⟨place, rfl, hread⟩⟩, rfl⟩
    have hsource := @withSource_of_openText _ _ { files := files } hpath hopen
    rw [plan_source hpath, Settings.ofPlan, Settings.perform, hsource]
    rfl
  | @standardListed listing target files' hlisting hcreate =>
    refine ⟨{ files := files', listing := some (.file target) }, ?_,
      ⟨rfl, rfl, Or.inl ⟨rfl, rfl⟩⟩, rfl⟩
    have hlisted := @withListing_of_create _ _ _ { files := files } hlisting hcreate
    rw [plan_listing hlisting, Settings.ofPlan, Settings.perform, hlisted]
    rfl
  | @fileListed path listing _ place target files' hlisting hcreate hpath hopen hread hne =>
    -- the file to read is still there after the one for the listing has been emptied
    obtain rfl := Files.eq_write_of_create hcreate
    have hread' : (files.write target "").read? place = some s := by
      rw [Files.read?_write, if_neg hne, hread]
    refine ⟨{ files := files.write target "", listing := some (.file target),
              source := .file place }, ?_, ⟨rfl, rfl, Or.inr ⟨place, rfl, hread'⟩⟩, rfl⟩
    have hlisted := @withListing_of_create _ _ _ { files := files } hlisting hcreate
    have hsource := @withSource_of_openText _ _
      { files := files.write target "", listing := some (.file target) } hpath
      (Files.openText_write hopen)
    rw [plan_listing_source hlisting hpath, Settings.ofPlan, Settings.perform, hlisted]
    simp only [Settings.perform, hsource]
    rfl

end Settings

/-- The command has shown a report: it has printed the table and nothing else, or the outcome line
after an error, and the file for the listing holds its lines. -/
structure Finished.Shows (f : Finished) (r : Report) (target : Option Place) : Prop where
  status : f.status = .ok (if r.message = "No errors reported." then 0 else 1)
  out : f.out = (if r.message = "No errors reported." then r.table else r.message) ++ "\n"
  err : f.err = ""
  listing : ∀ place ∈ target,
    f.files.read? place = some (String.join (r.listing.map fun line => line ++ "\n"))

theorem Settings.Analyzes.shows {σ : Settings} {input s : String} {r : Report}
    {target : Option Place} (h : σ.Analyzes input s) (hs : '\r' ∉ s.toList)
    (hr : Report.ofText s = .ok r) (htarget : σ.listing = target.map .file) :
    (σ.execute input).Shows r target := by
  rw [h.execute hs hr, Settings.writeListing, htarget]
  cases target with
  | none => exact ⟨rfl, rfl, rfl, fun _ hm => nomatch hm⟩
  | some place =>
    refine ⟨rfl, rfl, rfl, fun other hm => ?_⟩
    cases hm
    exact (Files.read?_write ..).trans (if_pos rfl)

theorem run_of_settings {σ : Settings} {arguments : List String} {input : String} {files : Files}
    (h : Settings.ofPlan files (.ofArguments arguments) = .ok σ) :
    run arguments input files = σ.execute input := by
  rw [run, h]

end CommandLine

/-! ## Agreement -/

open CommandLine

/-- The window shows the report on a text that is not blank. -/
theorem Display.ofAnalysis_of_report {s : String} {r : Report}
    (hblank : ∃ c ∈ s.toList, Text.isBlank c = false) (hr : Report.ofText s = .ok r)
    (showListing : Bool) :
    Display.ofAnalysis s showListing = .ok
      ⟨if r.message = "No errors reported." then r.table else "",
        r.message ++ if showListing then
          "\n\n--- Listing ---\n" ++ String.intercalate "\n" r.listing else "",
        if r.message = "No errors reported." then "Analysis succeeded" else "Analysis failed"⟩ := by
  have hnone : "No errors reported." = noErrors := rfl
  rw [hnone, Display.ofAnalysis, if_neg (Text.strip_ne_empty hblank), hr, Except.map]
  dsimp only
  split
  · rfl
  · rfl

/-- There is a report on every text whose analysis finds no numeral that is no number. -/
theorem Report.exists_ofText {s : String}
    (hnumeral : ∀ e, (Outcome.ofSource (.ofText s) false).failure ≠ some (.fault (.numeral e))) :
    ∃ r, Report.ofText s = .ok r := by
  cases hf : (Outcome.ofSource (.ofText s) false).failure with
  | none => exact ⟨_, Report.ofOutcome_of_none hf⟩
  | some e =>
    have hfails := (Analysis.ends_fails (.ofText s) false).outcome_ofSource.2 e hf
    rcases hfails.cases_of_text with ⟨d, rfl⟩ | ⟨err, rfl⟩
    · exact ⟨_, Report.ofOutcome_of_diagnostic hf⟩
    · exact absurd hf (hnumeral err)

/-- The front ends show one report on a text that is not blank and has no carriage returns, if the
analysis finds no numeral that is no number. Its outcome line tells whether the analysis succeeded.
Every command that is to analyse the text shows the report, whether the text comes from the standard
input or from a file, and so does the window, with the lines of the listing below the outcome line if
the check box is set. -/
theorem front_ends_agree (s : String) (hreturn : '\r' ∉ s.toList)
    (hblank : ∃ c ∈ s.toList, Text.isBlank c = false)
    (hnumeral : ∀ e, (Outcome.ofSource (.ofText s) false).failure ≠ some (.fault (.numeral e))) :
    ∃ r, Report.ofText s = .ok r ∧
      (r.message = "No errors reported." ↔ (Outcome.ofSource (.ofText s) false).failure = none) ∧
      (∀ arguments input files σ target,
        Settings.ofPlan files (.ofArguments arguments) = .ok σ → σ.Analyzes input s →
          σ.listing = target.map .file → (run arguments input files).Shows r target) ∧
      (∀ arguments input files target, Invocation s files arguments input target →
        (run arguments input files).Shows r target) ∧
      ∀ showListing, Display.ofAnalysis s showListing = .ok
        ⟨if r.message = "No errors reported." then r.table else "",
          r.message ++ if showListing then
            "\n\n--- Listing ---\n" ++ String.intercalate "\n" r.listing else "",
          if r.message = "No errors reported." then "Analysis succeeded"
            else "Analysis failed"⟩ := by
  obtain ⟨r, hr⟩ := Report.exists_ofText hnumeral
  have hcommand : ∀ arguments input files σ target,
      Settings.ofPlan files (.ofArguments arguments) = .ok σ → σ.Analyzes input s →
        σ.listing = target.map .file → (run arguments input files).Shows r target := by
    intro arguments input files σ target hσ hanalyzes htarget
    rw [run_of_settings hσ]
    exact hanalyzes.shows hreturn hr htarget
  refine ⟨r, hr, Report.message_eq_noErrors_iff hr, hcommand, ?_,
    Display.ofAnalysis_of_report hblank hr⟩
  intro arguments input files target hinvocation
  obtain ⟨σ, hσ, hanalyzes, htarget⟩ := hinvocation.exists_settings
  exact hcommand arguments input files σ target hσ hanalyzes htarget

/-- A text with a name that is declared twice, in a file, with a listing in another file, and in the
window with the check box set. -/
theorem front_ends_agree_duplicate :
    (run ["--listing", "list", "source"] ""
      (Files.ofList [("source", "procedure p(x, x : integer)")])).Shows
        ⟨"No symbol table (analysis failed).", "Error: Duplicate symbol: 'x' at line number 1",
          ["--- Begin analysis ---", "Declared procedure: p (depth 0)",
            "Entering procedure 'p' scope (depth 1)",
            "Analysis stopped: Error: Duplicate symbol: 'x' at line number 1"]⟩
        (some (Files.scratch.child "list")) ∧
      Display.ofAnalysis "procedure p(x, x : integer)" true =
        .ok ⟨"", "Error: Duplicate symbol: 'x' at line number 1" ++
          "\n\n--- Listing ---" ++
          "\n--- Begin analysis ---" ++
          "\nDeclared procedure: p (depth 0)" ++
          "\nEntering procedure 'p' scope (depth 1)" ++
          "\nAnalysis stopped: Error: Duplicate symbol: 'x' at line number 1",
          "Analysis failed"⟩ := by
  have hfailure : (Outcome.ofSource (.ofText "procedure p(x, x : integer)") false).failure =
      some (.diagnostic (.duplicate "x" 1)) := by decide +kernel
  have hreport : Report.ofText "procedure p(x, x : integer)" = .ok
      ⟨"No symbol table (analysis failed).", "Error: Duplicate symbol: 'x' at line number 1",
        ["--- Begin analysis ---", "Declared procedure: p (depth 0)",
          "Entering procedure 'p' scope (depth 1)",
          "Analysis stopped: Error: Duplicate symbol: 'x' at line number 1"]⟩ := by decide +kernel
  obtain ⟨r, hr, -, -, hcommand, hwindow⟩ :=
    front_ends_agree "procedure p(x, x : integer)" (by decide +kernel)
      ⟨'p', by decide +kernel, by decide +kernel⟩ (by rw [hfailure]; exact fun e he => nomatch he)
  cases hreport.symm.trans hr
  have hlisting : IsPlain "list" := ⟨by decide +kernel, by decide +kernel⟩
  have hpath : IsPlain "source" := ⟨by decide +kernel, by decide +kernel⟩
  refine ⟨hcommand _ _ _ _ ?_, (hwindow true).trans ?_⟩
  · exact .fileListed hlisting rfl hpath rfl rfl (by decide +kernel)
  · decide +kernel

end ProcLang
