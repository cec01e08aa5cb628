import ProcLang.Proofs.FrontEnds

/-!
# Runs of the window

However the window is used, its output panes and its status line show one result as a whole, that of
the last press that was completed. A press on a blank source pane and one that ends with a fault are
not completed.
-/

namespace ProcLang

/-! ## What a press is made of -/

namespace Text

/-- Blanks behind a text are cut off with the others. -/
theorem stripList_append_of_blank {cs behind : List Char} (h : ∀ c ∈ behind, isBlank c = true) :
    stripList (cs ++ behind) = stripList cs := by
  unfold stripList
  rw [List.dropWhile_append]
  cases hrest : cs.dropWhile isBlank with
  | nil => simp [List.dropWhile_eq_nil_iff.mpr h]
  | cons c rest =>
    have hbehind : ∀ c ∈ behind.reverse, isBlank c = true :=
      fun c hc => h c (List.mem_reverse.mp hc)
    rw [if_neg (by simp), List.reverse_append, List.dropWhile_append_of_pos hbehind]

theorem strip_eq_empty_iff {s : String} : strip s = "" ↔ ∀ c ∈ s.toList, isBlank c = true := by
  rw [strip, ← stripList_eq_nil_iff]
  constructor
  · intro h
    simpa using congrArg String.toList h
  · intro h
    rw [h]

end Text

theorem Pane.strip_contents (p : Pane) : Text.strip p.contents = Text.strip p.text := by
  have hend : ∀ c ∈ ['\n'], Text.isBlank c = true := List.forall_mem_singleton.mpr (by decide)
  rw [Text.strip, Text.strip, Pane.contents, String.toList_append]
  exact congrArg String.ofList (Text.stripList_append_of_blank hend)

/-- An analysis is shown unless it reads a whole number that is too long as the value of a
constant. -/
theorem Display.readsLongConstant_of_ofAnalysis {s : String} {showListing : Bool} {f : Fault}
    (h : Display.ofAnalysis s showListing = .error f) :
    (∃ err, f = .numeral err) ∧
      Analysis.ReadsLongConstant (.ofText s) (.ofSource (.ofText s) false) := by
  by_cases hblank : Text.strip s = ""
  · rw [Display.ofAnalysis, if_pos hblank] at h
    cases h
  · rw [Display.ofAnalysis, if_neg hblank] at h
    by_cases hnumeral : ∃ err, (Outcome.ofSource (.ofText s) false).failure =
        some (.fault (.numeral err))
    · obtain ⟨err, hf⟩ := hnumeral
      have hfails := (Analysis.ends_fails (.ofText s) false).outcome_ofSource.2 _ hf
      rw [Report.ofText, Report.ofOutcome, Outcome.verdict, hf] at h
      cases h
      exact ⟨⟨err, rfl⟩, hfails.readsLongConstant⟩
    · obtain ⟨r, hr⟩ := Report.exists_ofText (not_exists.mp hnumeral)
      rw [hr] at h
      cases h

namespace Window

/-- What the output panes and the status line show. -/
def shown (w : Window) : Display := ⟨w.table.text, w.report.text, w.status⟩

/-- The user can type into the source pane and into no other. -/
structure IsLocked (w : Window) : Prop where
  source : w.source.editable = true
  table : w.table.editable = false
  report : w.report.editable = false

/-- A press that shows a result: the source pane is not blank, and there is no fault. -/
structure Completes (w : Window) (b : Button) (d : Display) : Prop where
  notBlank : ∃ c ∈ w.source.text.toList, Text.isBlank c = false
  result : w.result (Text.strip w.source.text) b = .ok d

/-- The window with other texts in its output panes and in its status line. -/
def showing (w : Window) (d : Display) : Window :=
  { w with table := ⟨d.table, false⟩, report := ⟨d.report, false⟩, status := d.status }

variable {w : Window} {b : Button} {d : Display} {e : Event}

theorem shown_showing : (w.showing d).shown = d := rfl

theorem isLocked_opened : opened.IsLocked := ⟨rfl, rfl, rfl⟩

theorem IsLocked.showing (h : w.IsLocked) : (w.showing d).IsLocked := ⟨h.source, rfl, rfl⟩

/-! ## One event -/

theorem IsLocked.react_typed (h : w.IsLocked) (text : String) :
    w.react (.typed text) = ⟨{ w with source := ⟨text, true⟩ }, [], none⟩ := by
  obtain ⟨⟨old, editable⟩, showListing, table, report, status⟩ := w
  obtain rfl : editable = true := h.source
  rfl

theorem react_pressed_of_blank (hblank : ∀ c ∈ w.source.text.toList, Text.isBlank c = true)
    (b : Button) : w.react (.pressed b) = ⟨w, [blankWarning], none⟩ := by
  rw [react, press, Pane.strip_contents]
  exact if_pos (Text.strip_eq_empty_iff.mpr hblank)

theorem Completes.react (h : w.Completes b d) :
    w.react (.pressed b) = ⟨w.showing d, [], none⟩ := by
  rw [Window.react, press, Pane.strip_contents, if_neg (Text.strip_ne_empty h.notBlank), h.result]
  rfl

theorem react_pressed_of_fault {f : Fault}
    (hsource : ∃ c ∈ w.source.text.toList, Text.isBlank c = false)
    (hf : w.result (Text.strip w.source.text) b = .error f) :
    w.react (.pressed b) = ⟨w, [], some f⟩ := by
  rw [react, press, Pane.strip_contents, if_neg (Text.strip_ne_empty hsource), hf]

/-- What the window does on each event. Typing and setting the check box change nothing that is
shown. A press on a blank source pane shows one warning and changes nothing. On another text the
tokens are always shown, and so is the analysis unless it reads a whole number that is too long,
which changes nothing. -/
structure Responds (w : Window) : Prop where
  typed (text : String) :
    w.react (.typed text) = ⟨{ w with source := ⟨text, true⟩ }, [], none⟩
  checked (flag : Bool) : w.react (.checked flag) = ⟨{ w with showListing := flag }, [], none⟩
  blank (hblank : ∀ c ∈ w.source.text.toList, Text.isBlank c = true) (b : Button) :
    w.react (.pressed b) = ⟨w, [blankWarning], none⟩
  tokens (hsource : ∃ c ∈ w.source.text.toList, Text.isBlank c = false) :
    w.react (.pressed .tokens) =
      ⟨w.showing ⟨"", tokenListing (Text.strip w.source.text), "Token stream"⟩, [], none⟩
  analysis (hsource : ∃ c ∈ w.source.text.toList, Text.isBlank c = false) {d : Display}
    (hd : Display.ofAnalysis (Text.strip w.source.text) w.showListing = .ok d) :
    w.react (.pressed .analyze) = ⟨w.showing d, [], none⟩
  fault (hsource : ∃ c ∈ w.source.text.toList, Text.isBlank c = false) {f : Fault}
    (hf : Display.ofAnalysis (Text.strip w.source.text) w.showListing = .error f) :
    w.react (.pressed .analyze) = ⟨w, [], some f⟩ ∧ (∃ err, f = .numeral err) ∧
      Analysis.ReadsLongConstant (.ofText (Text.strip w.source.text))
        (.ofSource (.ofText (Text.strip w.source.text)) false)

theorem IsLocked.responds (h : w.IsLocked) : w.Responds where
  typed := h.react_typed
  checked _ := rfl
  blank hblank := react_pressed_of_blank hblank
  tokens hsource := Completes.react ⟨hsource, rfl⟩
  analysis hsource _ hd := Completes.react ⟨hsource, hd⟩
  fault hsource _ hf :=
    ⟨react_pressed_of_fault hsource hf, Display.readsLongConstant_of_ofAnalysis hf⟩

/-- A press that is not completed leaves the window as it was. -/
theorem window_react_pressed (h : ∀ d, ¬ w.Completes b d) : (w.react (.pressed b)).window = w := by
  by_cases hblank : ∀ c ∈ w.source.text.toList, Text.isBlank c = true
  · rw [react_pressed_of_blank hblank]
  · obtain ⟨c, hblank⟩ := not_forall.mp hblank
    obtain ⟨hc, hblank⟩ := Classical.not_imp.mp hblank
    have hsource : ∃ c ∈ w.source.text.toList, Text.isBlank c = false :=
      ⟨c, hc, Bool.eq_false_iff.mpr hblank⟩
    cases hresult : w.result (Text.strip w.source.text) b with
    | ok d => exact absurd ⟨hsource, hresult⟩ (h d)
    | error f => rw [react_pressed_of_fault hsource hresult]

/-- An event changes what is shown only if it is a press that is completed. -/
theorem shown_react (h : w.IsLocked) (e : Event) :
    (w.react e).window.IsLocked ∧
      ((∃ b d, e = .pressed b ∧ w.Completes b d ∧ (w.react e).window.shown = d) ∨
        (∀ b d, e = .pressed b → ¬ w.Completes b d) ∧ (w.react e).window.shown = w.shown) := by
  cases e with
  | typed text =>
    rw [h.react_typed]
    exact ⟨⟨rfl, h.table, h.report⟩, Or.inr ⟨nofun, rfl⟩⟩
  | checked flag => exact ⟨⟨h.source, h.table, h.report⟩, Or.inr ⟨nofun, rfl⟩⟩
  | pressed b =>
    by_cases hcompletes : ∃ d, w.Completes b d
    · obtain ⟨d, hd⟩ := hcompletes
      rw [hd.react]
      exact ⟨h.showing, Or.inl ⟨b, d, rfl, hd, shown_showing⟩⟩
    · have hnone := not_exists.mp hcompletes
      rw [window_react_pressed hnone]
      refine ⟨h, Or.inr ⟨?_, rfl⟩⟩
      intro b' d hb
      cases hb
      exact hnone d

/-! ## Many events -/

/-- The window after some events. -/
def after (events : List Event) : Window :=
  events.foldl (fun w e => (w.react e).window) opened

/-- Behind some events, no press is completed among those that follow. -/
def Idle (earlier later : List Event) : Prop :=
  ∀ mid b behind d, later = mid ++ .pressed b :: behind → ¬ (after (earlier ++ mid)).Completes b d

/-- What is shown is that of the last press that was completed, or what was shown at the start. -/
inductive ShowsLast (events : List Event) : Prop
  | start (hidle : Idle [] events) (hshown : (after events).shown = opened.shown)
  | press {earlier later : List Event} {b : Button} {d : Display}
      (hevents : events = earlier ++ .pressed b :: later)
      (hcompletes : (after earlier).Completes b d)
      (hidle : Idle (earlier ++ [.pressed b]) later) (hshown : (after events).shown = d)

variable {events earlier later : List Event}

theorem after_append_singleton :
    after (events ++ [e]) = ((after events).react e).window := by
  rw [after, List.foldl_append]
  rfl

theorem idle_nil : Idle earlier [] := by
  rintro mid b behind d hmid
  simp at hmid

theorem Idle.append_singleton (h : Idle earlier later)
    (he : ∀ b d, e = .pressed b → ¬ (after (earlier ++ later)).Completes b d) :
    Idle earlier (later ++ [e]) := by
  intro mid b behind d hmid
  rcases List.eq_nil_or_concat behind with rfl | ⟨front, last, rfl⟩
  · obtain ⟨rfl, hpress⟩ := List.append_inj' hmid rfl
    exact he b d (List.singleton_inj.mp hpress)
  · rw [List.concat_eq_append, ← List.cons_append, ← List.append_assoc] at hmid
    exact h mid b front d (List.append_inj' hmid rfl).1

theorem ShowsLast.react (hlocked : (after events).IsLocked) (h : ShowsLast events) (e : Event) :
    ShowsLast (events ++ [e]) := by
  obtain ⟨-, ⟨b, d, rfl, hcompletes, hshown⟩ | ⟨hnone, hshown⟩⟩ := shown_react hlocked e
  · rw [← after_append_singleton] at hshown
    exact .press rfl hcompletes idle_nil hshown
  · rw [← after_append_singleton] at hshown
    cases h with
    | start hidle hstart => exact .start (hidle.append_singleton hnone) (hshown.trans hstart)
    | @press earlier later b d hevents hcompletes hidle hlast =>
      subst hevents
      have hidle' : Idle (earlier ++ [.pressed b]) (later ++ [e]) :=
        hidle.append_singleton (by simpa using hnone)
      exact .press (by simp) hcompletes hidle' (hshown.trans hlast)

/-- However the window has been used, its panes are locked as they should be, and it shows the last
result. -/
theorem isLocked_and_showsLast (events : List Event) :
    (after events).IsLocked ∧ ShowsLast events := by
  induction events using List.reverseRecOn with
  | nil => exact ⟨isLocked_opened, .start idle_nil rfl⟩
  | append_singleton events e ih =>
    refine ⟨?_, ih.2.react ih.1 e⟩
    rw [after_append_singleton]
    exact (shown_react ih.1 e).1

/-- After any events, the user can type into the source pane and into no other pane, the window
responds to the next event as it should, and what it shows belongs to one press, the last one that
was completed. -/
theorem shows_last_completed_press (events : List Event) :
    (after events).IsLocked ∧ (after events).Responds ∧ ShowsLast events := by
  obtain ⟨hlocked, hlast⟩ := isLocked_and_showsLast events
  exact ⟨hlocked, hlocked.responds, hlast⟩

end Window

end ProcLang
