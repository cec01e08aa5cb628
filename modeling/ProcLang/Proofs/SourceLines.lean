import ProcLang.Proofs.Appending
import ProcLang.Proofs.PulledTokens
import ProcLang.Proofs.RenamedRuns
import ProcLang.Proofs.WindowRuns

/-!
# Lines of the source pane

The window cuts the blanks off the two ends of its source pane and reads what is left. So everything
it shows is the same as for the whole text but for the lines, which are too low by the line feeds cut
off in front (`Window.lines_of_source`).
-/

namespace ProcLang

/-- The diagnostic as it is a number of lines further down. -/
def Diagnostic.moved (n : Int) : Diagnostic → Diagnostic
  | unknownCharacter char line => .unknownCharacter char (line + n).toNat
  | unexpected expected found => .unexpected expected (found.moved n)
  | duplicate name line => .duplicate name (line + n)
  | undefined name line => .undefined name (line + n)
  | otherClosingName name line => .otherClosingName name (line + n)
  | unconsumed found => .unconsumed (found.moved n)

/-- The diagnostic shows no end token. -/
def Diagnostic.IsInside : Diagnostic → Prop
  | unexpected _ found => found.kind ≠ .endOfInput
  | unconsumed found => found.kind ≠ .endOfInput
  | _ => True

/-! ## Blanks around a text -/

/-- Two texts end alike: with the end of the input, or at the same unknown character. -/
inductive Lexer.EndsAlike (n : Nat) : Except ScanError Token → Except ScanError Token → Prop
  | endOfInput {line line' : Nat} : EndsAlike n (.ok (.endOfInput line)) (.ok (.endOfInput line'))
  | unknown {c : Char} {line : Nat} :
    EndsAlike n (.error (.unknownCharacter c line)) (.error (.unknownCharacter c (line + n)))

namespace Lexer

variable {behind lead trail : List Char} {n : Nat} {l l' m : Lexer} {ts : List Token}

/-- With blanks behind it a text has the same tokens. -/
theorem Continues.exists_supplies (h : Continues behind n l l')
    (hbehind : ∀ c ∈ behind, Text.isBlank c) : ∃ ts m m',
    (TokenSource.text l).Supplies ts (.text m) ∧
      (TokenSource.text l').Supplies (ts.map (Token.moved n)) (.text m') ∧
      (∀ t ∈ ts, t.kind ≠ .endOfInput) ∧ EndsAlike n m.next.1 m'.next.1 := by
  have hdetached : Detached behind := fun c hc => hbehind c (List.mem_of_mem_head? hc)
  obtain ⟨ts, m, m', hs, hs', hts, ⟨c, line, hm, hm'⟩ | ⟨hmid, heq⟩⟩ :=
    h.exists_supplies_upTo hdetached
  · refine ⟨ts, m, m', hs, hs', hts, ?_⟩
    rw [hm, hm']
    exact .unknown
  · -- what is left of both texts is a gap
    obtain ⟨inComment, hgap⟩ := exists_gapLength_append heq
    have heq' : gapLength false m'.rest = m'.rest.length := by
      rw [hmid.rest, hgap, gapLength_of_blank hbehind, List.length_append]
    refine ⟨ts, m, m', hs, hs', hts, ?_⟩
    rw [next_of_gapLength hmid.ready heq, next_of_gapLength hmid.ready' heq']
    exact .endOfInput

/-- Blanks around a text do not change its tokens but for their lines. -/
theorem exists_supplies_of_blanks (core : List Char)
    (hlead : ∀ c ∈ lead, Text.isBlank c) (htrail : ∀ c ∈ trail, Text.isBlank c) : ∃ ts m m',
    (TokenSource.ofText (String.ofList core)).Supplies ts (.text m) ∧
      (TokenSource.ofText (String.ofList (lead ++ (core ++ trail)))).Supplies
        (ts.map (Token.moved (lineFeeds lead))) (.text m') ∧
      (∀ t ∈ ts, t.kind ≠ .endOfInput) ∧ EndsAlike (lineFeeds lead) m.next.1 m'.next.1 := by
  have hrest : (ofText (String.ofList (lead ++ (core ++ trail)))).rest = lead ++ (core ++ trail) :=
    String.toList_ofList
  have hnext := next_of_isClosedGap rfl hrest (isClosedGap_of_blank hlead)
  have hcontinues : Continues trail (lineFeeds lead) (ofText (String.ofList core))
      ((ofText (String.ofList (lead ++ (core ++ trail)))).advance lead.length) := by
    refine ⟨rfl, rfl, ?_, ?_⟩
    · show List.drop lead.length _ = (String.ofList core).toList ++ trail
      rw [hrest, List.drop_left, String.toList_ofList]
    · rw [Lexer.advance, hrest, List.take_left]
      rfl
  obtain ⟨ts, m, m', hs, hs', hts, hend⟩ := hcontinues.exists_supplies htrail
  obtain ⟨m₁, hs₁, hnext₁⟩ := exists_supplies_of_next hnext hs'
  exact ⟨ts, m, m₁, hs, hs₁, hts, hnext₁ ▸ hend⟩

end Lexer

/-! ## Runs over tokens further down -/

theorem moveOf_moved (n : Int) (name : String) (t : Token) (gs : List Goal) :
    moveOf name (t.moved n) gs = moveOf name t gs := by
  induction gs with
  | nil => rfl
  | cons g gs ih =>
    have hmove : g.move name (t.moved n) = g.move name t := by cases g <;> rfl
    rw [moveOf, moveOf, hmove, ih]
    rfl

theorem take_moved (n : Int) (outer : List String) (frames : List Frame) (t : Token) :
    take outer frames (t.moved n) = take outer frames t := by
  cases frames with
  | nil => rfl
  | cons f rest =>
    rw [take, take, moveOf_moved]
    rfl

theorem takeAll_map_moved (n : Int) (outer : List String) (frames : List Frame) (ts : List Token) :
    takeAll outer frames (ts.map (Token.moved n)) = takeAll outer frames ts := by
  unfold takeAll
  rw [List.foldlM_map]
  simp only [take_moved]

namespace Analysis

variable {source source' mid mid' : TokenSource} {tracing : Bool} {ts : List Token} {n : Nat}
  {e : Failure} {d : Diagnostic}

/-- A token behind those supplied is asked for exactly if these are taken up to the last one, which is
not refused when it is looked at. -/
theorem exists_asksIn_iff_last (hs : source.Supplies ts mid) :
    (∃ s, AsksIn source tracing ts s) ↔
      ts = [] ∨ ∃ taken t frames, ts = taken ++ [t] ∧ takeAll [] [.base []] taken = .ok frames ∧
        ∀ r, take [] frames t = .error r → r.isLate := by
  refine ⟨fun h => exists_last_of_breaks ((exists_asksIn_iff hs).mp h), ?_⟩
  rintro (rfl | ⟨taken, t, frames, rfl, htaken, hlate⟩)
  · exact (Taken.of_takeAll hs takeAll_nil).exists_asks
  · exact (Taken.concat hs htaken hlate).exists_asks

/-- A run that does not ask for a token behind those supplied fails as the run over their list. -/
theorem failure_eq_ofList (hs : source.Supplies ts mid) (h : ¬ ∃ s, AsksIn source tracing ts s) :
    (Outcome.ofSource source tracing).failure = (Outcome.ofSource (.ofList ts) tracing).failure := by
  obtain ⟨last, hlist⟩ := TokenSource.exists_supplies_ofList_append ts []
  rw [List.append_nil] at hlist
  have hno := h
  rw [exists_asksIn_iff hs, ← exists_asksIn_iff hlist] at hno
  rw [failure_eq_of_not_asks hs h, failure_eq_of_not_asks hlist hno]

/-- Whether a token is asked for does not depend on the lines of those in front of it. -/
theorem exists_asksIn_map_moved (hs : source.Supplies ts mid)
    (hs' : source'.Supplies (ts.map (Token.moved n)) mid') :
    (∃ s, AsksIn source' tracing (ts.map (Token.moved n)) s) ↔ ∃ s, AsksIn source tracing ts s := by
  rw [exists_asksIn_iff_last hs, exists_asksIn_iff_last hs', List.map_eq_nil_iff]
  refine or_congr_right ⟨?_, ?_⟩
  · rintro ⟨taken, t, frames, heq, htaken, hlate⟩
    obtain ⟨us, vs, rfl, rfl, hvs⟩ := List.map_eq_append_iff.mp heq
    obtain ⟨u, rfl, rfl⟩ := List.map_eq_singleton_iff.mp hvs
    rw [takeAll_map_moved] at htaken
    simp only [take_moved] at hlate
    exact ⟨us, u, frames, rfl, htaken, hlate⟩
  · rintro ⟨taken, t, frames, rfl, htaken, hlate⟩
    refine ⟨taken.map (Token.moved n), t.moved n, frames, List.map_append, ?_, ?_⟩
    · rwa [takeAll_map_moved]
    · simpa only [take_moved] using hlate

/-- Tokens a number of lines further down. The lines of end tokens do not matter. -/
def furtherDown (n : Nat) : Likeness :=
  ⟨id, fun t t' => t' = t.moved n ∨ ∃ line line', t = .endOfInput line ∧ t' = .endOfInput line'⟩

/-- No decision of an analysis depends on a line. -/
theorem lawful_furtherDown (n : Nat) : (furtherDown n).Lawful := by
  have hsame : ∀ {t t'}, (furtherDown n).tokens t t' → t'.kind = t.kind ∧ t'.lexeme = t.lexeme := by
    rintro t t' (rfl | ⟨line, line', rfl, rfl⟩) <;> exact ⟨rfl, rfl⟩
  refine ⟨⟨Function.injective_id, rfl⟩, ?_, ?_, ?_, ?_, ?_, ?_⟩
  · exact fun h => (hsame h).1
  · exact fun h _ => (hsame h).2
  · exact fun h _ => (hsame h).2
  · exact fun h _ => by rw [(hsame h).2]
  · exact fun h => by rw [(hsame h).2]
  · exact fun h h' _ => by rw [(hsame h).2, (hsame h').2]

/-- The diagnostics of two such runs differ in no more than the line. -/
theorem FailsAs.exists_message (h : FailsAs (furtherDown n) e (.diagnostic d)) (hd : d.IsInside) :
    ∃ d', e = .diagnostic d' ∧ d'.message = (d.moved (-n)).message := by
  have hback : ∀ t : Token, (t.moved n).moved (-n) = t := fun t => by
    rw [Token.moved_moved, Int.add_right_neg, Token.moved_zero]
  have hinside : ∀ {t t' : Token}, (furtherDown n).tokens t t' → t'.kind ≠ .endOfInput →
      t = t'.moved (-n) := by
    rintro t t' (rfl | ⟨line, line', -, rfl⟩) hk
    · exact (hback t).symm
    · exact absurd rfl hk
  cases h with
  | unexpected x ht => exact ⟨_, rfl, by rw [hinside ht hd]; rfl⟩
  | unconsumed ht => exact ⟨_, rfl, by rw [hinside ht hd]; rfl⟩
  | duplicate ht hk | undefined ht hk =>
    have hk' := (lawful_furtherDown n).kind ht
    rw [hinside ht (by rw [hk', hk]; decide)]
    exact ⟨_, rfl, rfl⟩
  | otherClosingName hn ht =>
    -- the text does not show the line
    rw [named_likening (lawful_furtherDown n) hn]
    exact ⟨_, rfl, rfl⟩

/-- The runs over two lists, the second one further down but for its end token. -/
theorem exists_failure_furtherDown {ts ts' : List Token}
    (hts : List.Forall₂ (furtherDown n).tokens ts ts')
    (hfailure : (Outcome.ofSource (.ofList ts') tracing).failure = some (.diagnostic d))
    (hd : d.IsInside) : ∃ d', (Outcome.ofSource (.ofList ts) tracing).failure =
        some (.diagnostic d') ∧ d'.message = (d.moved (-n)).message := by
  obtain ⟨hfails, -⟩ :=
    likens_ofSource (lawful_furtherDown n) hts (Or.inr ⟨_, _, rfl, rfl⟩) tracing
  rw [hfailure] at hfails
  generalize (Outcome.ofSource (.ofList ts) tracing).failure = failure at hfails
  cases hfails with
  | some he =>
    obtain ⟨d', rfl, hmessage⟩ := he.exists_message hd
    exact ⟨d', rfl, hmessage⟩

theorem forall₂_map_moved (n : Nat) (ts : List Token) :
    List.Forall₂ (furtherDown n).tokens ts (ts.map (Token.moved n)) := by
  rw [List.forall₂_map_right_iff]
  exact List.forall₂_same.mpr fun _ _ => Or.inl rfl

/-- Blanks in front of a text and behind it change no more of a diagnostic than its line. -/
theorem exists_failure_of_blanks {lead core trail : List Char}
    (hlead : ∀ c ∈ lead, Text.isBlank c) (htrail : ∀ c ∈ trail, Text.isBlank c)
    (hfailure :
      (Outcome.ofSource (.ofText (String.ofList (lead ++ (core ++ trail)))) tracing).failure =
        some (.diagnostic d))
    (hd : d.IsInside) :
    ∃ d', (Outcome.ofSource (.ofText (String.ofList core)) tracing).failure =
        some (.diagnostic d') ∧ d'.message = (d.moved (-(Lexer.lineFeeds lead : Nat))).message := by
  obtain ⟨ts, m, m', hs, hs', hts, hend⟩ :=
    Lexer.exists_supplies_of_blanks core hlead htrail
  have hts' : ∀ t ∈ ts.map (Token.moved (Lexer.lineFeeds lead)), t.kind ≠ .endOfInput :=
    List.forall_mem_map.mpr hts
  generalize hcore : m.next.1 = last, hsource : m'.next.1 = last' at hend
  cases hend with
  | endOfInput =>
    have hread := Lexer.tokenize_of_supplies hts hs hcore
    have hread' := Lexer.tokenize_of_supplies hts' hs' hsource
    rw [(ofText_eq_ofList hread' tracing).1] at hfailure
    rw [(ofText_eq_ofList hread tracing).1]
    refine exists_failure_furtherDown ?_ hfailure hd
    exact List.rel_append (forall₂_map_moved _ ts) (.cons (Or.inr ⟨_, _, rfl, rfl⟩) .nil)
  | @unknown c line =>
    have hn : (TokenSource.text m).next = (.error (.unknownCharacter c line), .text m.next.2) := by
      rw [TokenSource.next, ← hcore]
    have hn' : (TokenSource.text m').next =
        (.error (.unknownCharacter c (line + Lexer.lineFeeds lead)), .text m'.next.2) := by
      rw [TokenSource.next, ← hsource]
    have hspent : ∀ line, ScanError.unknownCharacter c line ≠ .spent :=
      fun _ => ScanError.noConfusion
    by_cases hasks : ∃ s, AsksIn (.ofText (String.ofList core)) tracing ts s
    · have hasks' := (exists_asksIn_map_moved hs hs').mpr hasks
      rw [(failure_eq_error_iff hs' hn' (hspent _)).mpr hasks'] at hfailure
      refine ⟨_, (failure_eq_error_iff hs hn (hspent _)).mpr hasks, ?_⟩
      cases hfailure
      simp [Diagnostic.moved]
    · have hasks' := (exists_asksIn_map_moved hs hs').not.mpr hasks
      -- neither run gets to the unknown character, so both end as over the tokens in front of it
      rw [failure_eq_ofList hs' hasks'] at hfailure
      rw [failure_eq_ofList hs hasks]
      exact exists_failure_furtherDown (forall₂_map_moved _ ts) hfailure hd

end Analysis

/-! ## What the window shows -/

namespace Text

/-- The blanks at the two ends of a text. -/
theorem exists_eq_append_stripList (cs : List Char) : ∃ trail,
    cs = cs.takeWhile isBlank ++ (stripList cs ++ trail) ∧ ∀ c ∈ trail, isBlank c := by
  refine ⟨((cs.dropWhile isBlank).reverse.takeWhile isBlank).reverse, ?_, ?_⟩
  · rw [stripList, ← List.reverse_append, List.takeWhile_append_dropWhile, List.reverse_reverse,
      List.takeWhile_append_dropWhile]
  · intro c hc
    exact List.mem_takeWhile_imp (List.mem_reverse.mp hc)

end Text

/-- The number of lines in front of the first character of a text that is no blank. -/
def leadingLines (source : String) : Nat := Lexer.lineFeeds (source.toList.takeWhile Text.isBlank)

/-- A text is what is left of it without the blanks at its ends, with blanks around it. -/
theorem exists_blanks (source : String) : ∃ lead core trail : List Char,
    source = String.ofList (lead ++ (core ++ trail)) ∧ Text.strip source = String.ofList core ∧
      Lexer.lineFeeds lead = leadingLines source ∧ (∀ c ∈ lead, Text.isBlank c) ∧
      ∀ c ∈ trail, Text.isBlank c := by
  obtain ⟨trail, heq, htrail⟩ := Text.exists_eq_append_stripList source.toList
  refine ⟨_, _, trail, ?_, rfl, rfl, fun c hc => List.mem_takeWhile_imp hc, htrail⟩
  rw [← heq, String.ofList_toList]

/-- The tokens of a text without the blanks at its ends are those of the text, with lower lines. -/
theorem Lexer.tokenize_strip {source : String} {ts : List Token} {last : Int}
    (h : tokenize source = .ok (ts ++ [.endOfInput last])) :
    tokenize (Text.strip source) = .ok (ts.map (Token.moved (-(leadingLines source : Int))) ++
      [.endOfInput (1 + lineFeeds (Text.strip source).toList : Nat)]) := by
  obtain ⟨lead, core, trail, hsource, hcore, hlines, hlead, htrail⟩ := exists_blanks source
  obtain ⟨us, m, m', hs, hs', hus, hend⟩ := exists_supplies_of_blanks core hlead htrail
  rw [← hsource] at hs'
  rw [← hcore] at hs
  have hus' : ∀ t ∈ us.map (Token.moved (lineFeeds lead)), t.kind ≠ .endOfInput :=
    List.forall_mem_map.mpr hus
  generalize hm : m.next.1 = end₁, hm' : m'.next.1 = end₂ at hend
  cases hend with
  | endOfInput =>
    have hread := (tokenize_of_supplies hus' hs' hm').symm.trans h
    obtain ⟨rfl, -⟩ := List.append_inj' (Except.ok.inj hread) rfl
    rw [tokenize_of_supplies hus hs hm, ← hlines, List.map_map]
    have hback : Token.moved (-(lineFeeds lead : Int)) ∘ Token.moved (lineFeeds lead) = id :=
      funext fun t => by
        rw [Function.comp_apply, Token.moved_moved, Int.add_right_neg, Token.moved_zero, id]
    rw [hback, List.map_id]
  | unknown => cases (tokenize_of_supplies_error hus' hs' hm').symm.trans h

/-- The line of a token has its line number first, padded to four characters. -/
theorem tokenLine_eq (t : Token) :
    tokenLine t = "line " ++ toString t.line ++
      String.ofList (List.replicate (4 - (toString t.line).length) ' ') ++
      " (" ++ t.kind.label ++ ", " ++ t.lexeme ++ ")" := by
  have hopening : " (" = " " ++ "(" := rfl
  rw [hopening, tokenLine, Text.padRight, Token.text]
  simp only [String.append_assoc]
  rfl

namespace Window

/-- The window reads its source pane without the blanks at the two ends. So a diagnostic that is not
about the end of the input is shown with a line that is too low by the line feeds among the blanks in
front, and so are the tokens; all else is as it is for the whole text. The lines are those of the
pane if there is no line feed among the blanks in front. -/
theorem lines_of_source (w : Window) (hsource : ∃ c ∈ w.source.text.toList, Text.isBlank c = false) :
    (∀ d, (Outcome.ofSource (.ofText w.source.text) false).failure = some (.diagnostic d) →
      d.IsInside → w.showListing = false →
        w.react (.pressed .analyze) = ⟨w.showing
          ⟨"", (d.moved (-(leadingLines w.source.text : Int))).message, "Analysis failed"⟩, [],
          none⟩) ∧
    ∀ ts last, Lexer.tokenize w.source.text = .ok (ts ++ [.endOfInput last]) →
      w.react (.pressed .tokens) = ⟨w.showing
        ⟨"", String.intercalate "\n"
          ((ts.map (Token.moved (-(leadingLines w.source.text : Int))) ++
            [.endOfInput (1 + Lexer.lineFeeds (Text.strip w.source.text).toList : Nat)]).map
              fun t => "line " ++ toString t.line ++
                String.ofList (List.replicate (4 - (toString t.line).length) ' ') ++
                " (" ++ t.kind.label ++ ", " ++ t.lexeme ++ ")"),
          "Token stream"⟩, [], none⟩ := by
  constructor
  · intro d hfailure hd hlisting
    obtain ⟨lead, core, trail, htext, hcore, hlines, hlead, htrail⟩ := exists_blanks w.source.text
    rw [htext] at hfailure
    obtain ⟨d', hfailure', hmessage⟩ :=
      Analysis.exists_failure_of_blanks hlead htrail hfailure hd
    rw [← hcore] at hfailure'
    rw [hlines] at hmessage
    have hblank : ∃ c ∈ (Text.strip w.source.text).toList, Text.isBlank c = false := by
      obtain ⟨c, hc, hblank⟩ := hsource
      rw [htext, String.toList_ofList, List.mem_append, List.mem_append] at hc
      refine ⟨c, ?_, hblank⟩
      rw [hcore, String.toList_ofList]
      rcases hc with hc | hc | hc
      · exact absurd (hlead c hc) (by simp [hblank])
      · exact hc
      · exact absurd (htrail c hc) (by simp [hblank])
    have hreport : Report.ofText (Text.strip w.source.text) = _ :=
      Report.ofOutcome_of_diagnostic hfailure'
    refine Completes.react ⟨hsource, ?_⟩
    have hother : d'.message ≠ "No errors reported." := Diagnostic.message_ne_noErrors d'
    rw [result, hlisting, Display.ofAnalysis_of_report hblank hreport]
    simp only [← hmessage, if_neg hother, Bool.false_eq_true, if_false, String.append_empty]
  · intro ts last hread
    refine Completes.react ⟨hsource, ?_⟩
    rw [result, Display.ofTokens, tokenListing, Lexer.tokenize_strip hread]
    simp only [← tokenLine_eq]
    rfl

/-- A window with an assignment in the third line of its source pane. -/
def assignmentInThirdLine : Window := opened.type "\n \nx := 1\n"

theorem lines_of_source_assignment :
    (Outcome.ofSource (.ofText assignmentInThirdLine.source.text) false).failure =
        some (.diagnostic (.unexpected (.kind .procedureWord) ⟨.identifier, "x", 3⟩)) ∧
      assignmentInThirdLine.react (.pressed .analyze) = ⟨assignmentInThirdLine.showing ⟨"",
        "At line number 1, expecting PROCEDURE token, but found id token with lexeme x",
          "Analysis failed"⟩, [], none⟩ ∧
      Lexer.tokenize assignmentInThirdLine.source.text = .ok ([⟨.identifier, "x", 3⟩,
        ⟨.assign, ":=", 3⟩, ⟨.number, "1", 3⟩] ++ [.endOfInput 4]) ∧
      assignmentInThirdLine.react (.pressed .tokens) = ⟨assignmentInThirdLine.showing ⟨"",
        "line 1    (id, x)\nline 1    (assignop, :=)\nline 1    (num, 1)\nline 1    (eof, EOF)",
          "Token stream"⟩, [], none⟩ := by
  have hfailure : (Outcome.ofSource (.ofText assignmentInThirdLine.source.text) false).failure =
      some (.diagnostic (.unexpected (.kind .procedureWord) ⟨.identifier, "x", 3⟩)) := by
    decide +kernel
  have hread : Lexer.tokenize assignmentInThirdLine.source.text = .ok ([⟨.identifier, "x", 3⟩,
      ⟨.assign, ":=", 3⟩, ⟨.number, "1", 3⟩] ++ [.endOfInput 4]) := by decide +kernel
  have hsource : ∃ c ∈ assignmentInThirdLine.source.text.toList, Text.isBlank c = false :=
    ⟨'x', by decide +kernel, by decide⟩
  obtain ⟨hanalyze, htokens⟩ := lines_of_source assignmentInThirdLine hsource
  refine ⟨hfailure, (hanalyze _ hfailure nofun rfl).trans ?_, hread, (htokens _ _ hread).trans ?_⟩
  · have hmessage : ((Diagnostic.unexpected (.kind .procedureWord) ⟨.identifier, "x", 3⟩).moved
        (-(leadingLines assignmentInThirdLine.source.text : Int))).message =
        "At line number 1, expecting PROCEDURE token, but found id token with lexeme x" := by
      decide +kernel
    rw [hmessage]
  · rfl

/-- The line that is shown for an unknown character is not its line in the source pane, and neither
is that of a token. -/
theorem lines_of_source_lower :
    (Outcome.ofSource (.ofText "\n\n#") false).failure =
        some (.diagnostic (.unknownCharacter '#' 3)) ∧
      (Diagnostic.unknownCharacter '#' 3).message =
        "Lexical error: unknown character '#' at line number 3" ∧
      ((opened.type "\n\n#").react (.pressed .analyze)).window.report.text =
        "Lexical error: unknown character '#' at line number 1" ∧
      Lexer.tokenize "\nx" = .ok [⟨.identifier, "x", 2⟩, .endOfInput 2] ∧
      ((opened.type "\nx").react (.pressed .tokens)).window.report.text =
        "line 1    (id, x)\nline 1    (eof, EOF)" := by
  decide +kernel

end Window

end ProcLang
