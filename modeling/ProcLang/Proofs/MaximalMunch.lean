import ProcLang.Proofs.Patterns

/-!
# Maximal munch

A text falls into gaps and lexemes (`Lexer.Munches`): each gap is as long as it can be, and behind
it stands the longest lexeme there is, up to the end of the text or to a place where there is none.
The tokens of the text are the lexemes with their kinds and their lines, and the reading fails if
the text does not end where the last gap ends (`Lexer.tokenize_munches`).
-/

namespace ProcLang

namespace Lexer

variable {cs gap rest before text body lexeme : List Char} {k : Kind} {c : Char} {ts : List Token}

/-! ## Gaps -/

/-- The first text is a run of blanks and comments, with the second one behind it. A comment takes
everything up to the next line feed. -/
inductive IsGap : List Char → List Char → Prop
  | nil {rest : List Char} : IsGap [] rest
  | blank {c : Char} {gap rest : List Char} : Text.isBlank c → IsGap gap rest →
    IsGap (c :: gap) rest
  | comment {body gap rest : List Char} : '\n' ∉ body → (∀ c ∈ (gap ++ rest).head?, c = '\n') →
    IsGap gap rest → IsGap ('-' :: '-' :: (body ++ gap)) rest

/-- The gap is the longest one at the start of the two texts together. -/
structure IsLongestGap (gap rest : List Char) : Prop where
  isGap : IsGap gap rest
  longest : ∀ gap' rest', gap' ++ rest' = gap ++ rest → IsGap gap' rest' →
    gap'.length ≤ gap.length

theorem gapLength_blank (hc : Text.isBlank c) :
    gapLength false (c :: rest) = gapLength false rest + 1 := by
  rw [gapLength, if_neg Bool.false_ne_true, if_pos hc]

theorem isBlank_lineFeed : Text.isBlank '\n' := by decide

/-- A comment ends before the next line feed. -/
theorem gapLength_body (hbody : '\n' ∉ body) (hrest : ∀ c ∈ rest.head?, c = '\n') :
    gapLength true (body ++ rest) = body.length + gapLength false rest := by
  induction body with
  | nil =>
    cases rest with
    | nil => rfl
    | cons c rest =>
      obtain rfl := hrest c rfl
      rw [gapLength_blank isBlank_lineFeed, List.nil_append, gapLength, if_pos rfl,
        List.length_nil, Nat.zero_add]
      rfl
  | cons c body ih =>
    obtain ⟨hc, hbody⟩ := not_or.mp (mt List.mem_cons.mpr hbody)
    have hinside : (c != '\n') = true := bne_iff_ne.mpr (Ne.symm hc)
    rw [List.cons_append, gapLength, if_pos rfl, hinside, ih hbody, List.length_cons]
    omega

theorem gapLength_comment :
    gapLength false ('-' :: '-' :: rest) = gapLength true rest + 2 := by
  have hblank : Text.isBlank '-' = false := by decide
  have hinside : ('-' != '\n') = true := by decide
  rw [gapLength, if_neg Bool.false_ne_true, if_neg (by simp [hblank]), if_pos ⟨rfl, rfl⟩, gapLength,
    if_pos rfl, hinside]

theorem IsGap.length_le (h : IsGap gap rest) : gap.length ≤ gapLength false (gap ++ rest) := by
  induction h with
  | nil => exact Nat.zero_le _
  | blank hc _ ih =>
    rw [List.cons_append, gapLength_blank hc]
    exact Nat.succ_le_succ ih
  | comment hbody hend _ ih =>
    rw [List.cons_append, List.cons_append, gapLength_comment, List.append_assoc,
      gapLength_body hbody hend]
    simp only [List.length_cons, List.length_append]
    omega

/-- What is skipped is a gap, behind the rest of a comment if it starts inside one. -/
theorem exists_gap (inComment : Bool) (cs : List Char) : ∃ body gap rest,
    cs = body ++ (gap ++ rest) ∧ (body ++ gap).length = gapLength inComment cs ∧
      '\n' ∉ body ∧ (inComment = false → body = []) ∧
      (inComment → ∀ c ∈ (gap ++ rest).head?, c = '\n') ∧ IsGap gap rest := by
  induction cs generalizing inComment with
  | nil =>
    exact ⟨[], [], [], rfl, rfl, List.not_mem_nil, fun _ => rfl, fun _ c hc => (by cases hc),
      IsGap.nil⟩
  | cons c cs ih =>
    cases inComment with
    | true =>
      by_cases hc : c = '\n'
      · -- the line feed ends the comment, and is a blank of the gap behind it
        subst hc
        obtain ⟨body, gap, rest, rfl, hlength, -, hbody, -, hgap⟩ := ih false
        obtain rfl := hbody rfl
        refine ⟨[], '\n' :: gap, rest, rfl, ?_, List.not_mem_nil,
          fun hin => Bool.noConfusion hin, ?_, IsGap.blank isBlank_lineFeed hgap⟩
        · rw [gapLength, if_pos rfl]
          exact congrArg (· + 1) hlength
        · rintro - c ⟨⟩
          rfl
      · obtain ⟨body, gap, rest, rfl, hlength, hbody, -, hend, hgap⟩ := ih true
        have hinside : (c != '\n') = true := bne_iff_ne.mpr hc
        refine ⟨c :: body, gap, rest, rfl, ?_, ?_, fun hin => Bool.noConfusion hin, hend, hgap⟩
        · rw [gapLength, if_pos rfl, hinside, ← hlength]
          rfl
        · exact fun hm => (List.mem_cons.mp hm).elim (fun heq => hc heq.symm) hbody
    | false =>
      by_cases hblank : Text.isBlank c
      · obtain ⟨body, gap, rest, rfl, hlength, -, hbody, -, hgap⟩ := ih false
        obtain rfl := hbody rfl
        refine ⟨[], c :: gap, rest, rfl, ?_, List.not_mem_nil, fun _ => rfl,
          fun hin => Bool.noConfusion hin, IsGap.blank hblank hgap⟩
        rw [gapLength_blank hblank]
        exact congrArg (· + 1) hlength
      · by_cases hcomment : c = '-' ∧ cs.head? = some '-'
        · obtain ⟨rfl, hhead⟩ := hcomment
          obtain ⟨more, rfl⟩ := List.head?_eq_some_iff.mp hhead
          obtain ⟨body, gap, rest, heq, hlength, hbody, -, hend, hgap⟩ := ih true
          cases body with
          | nil =>
            -- the second hyphen belongs to the comment
            have hno := hend rfl '-' (by rw [← List.nil_append (gap ++ rest), ← heq]; rfl)
            exact absurd hno (by decide)
          | cons d body =>
            obtain ⟨rfl, rfl⟩ := List.cons.inj heq
            refine ⟨[], '-' :: '-' :: (body ++ gap), rest, by simp, ?_, List.not_mem_nil,
              fun _ => rfl, fun hin => Bool.noConfusion hin,
              IsGap.comment (fun hm => hbody (List.mem_cons_of_mem _ hm)) (hend rfl) hgap⟩
            rw [gapLength, if_neg Bool.false_ne_true, if_neg hblank, if_pos ⟨rfl, rfl⟩, ← hlength]
            rfl
        · refine ⟨[], [], c :: cs, rfl, ?_, List.not_mem_nil, fun _ => rfl,
            fun hin => Bool.noConfusion hin, IsGap.nil⟩
          rw [gapLength, if_neg Bool.false_ne_true, if_neg hblank, if_neg hcomment]
          rfl

/-- The gap that is skipped is the longest one. -/
theorem isLongestGap_take (cs : List Char) :
    IsLongestGap (cs.take (gapLength false cs)) (cs.drop (gapLength false cs)) := by
  obtain ⟨body, gap, rest, rfl, hlength, -, hbody, -, hgap⟩ := exists_gap false cs
  obtain rfl := hbody rfl
  have hlength : gap.length = gapLength false (gap ++ rest) := hlength
  rw [List.nil_append, ← hlength, List.take_left, List.drop_left]
  refine ⟨hgap, fun gap' rest' heq hgap' => ?_⟩
  rw [hlength, ← heq]
  exact hgap'.length_le

/-! ## Lexemes and gaps -/

/-- The second text, which stands behind the first one, falls into the lexemes of the tokens with
longest gaps before and behind them, and a rest that begins with no lexeme. -/
inductive Munches : List Char → List Char → List Token → List Char → Prop
  | done {before gap rest : List Char} : IsLongestGap gap rest →
    (∀ p, p <+: rest → ¬ IsLexeme p) → Munches before (gap ++ rest) [] rest
  | token {before gap lexeme text rest : List Char} {k : Kind} {ts : List Token} :
    IsLongestGap gap (lexeme ++ text) → IsLongestLexeme lexeme (lexeme ++ text) →
    HasKind lexeme k → Munches (before ++ gap ++ lexeme) text ts rest →
    Munches before (gap ++ (lexeme ++ text))
      (⟨k, String.ofList lexeme, (1 + lineFeeds (before ++ gap) : Nat)⟩ :: ts) rest

/-- What is read where the text is left with a rest: all tokens if nothing is left. -/
def verdict (ts : List Token) (line : Nat) : List Char → Except ScanError (List Token)
  | [] => .ok (ts ++ [.endOfInput line])
  | c :: _ => .error (.unknownCharacter c line)

theorem lineFeeds_append (cs ds : List Char) : lineFeeds (cs ++ ds) = lineFeeds cs + lineFeeds ds :=
  List.count_append

/-- One token behind the tokens before it. -/
theorem readUpTo_succ {n : Nat} {l l' : Lexer} {t : Token} {line : Nat}
    (hnext : l.next = (.ok t, l')) (hk : t.kind ≠ .endOfInput)
    (hread : (readUpTo n l').1 = verdict ts line rest) :
    (readUpTo (n + 1) l).1 = verdict (t :: ts) line rest := by
  rw [readUpTo, hnext]
  simp only [if_neg hk]
  cases hl : readUpTo n l' with
  | mk result l'' =>
    rw [hl] at hread
    subst hread
    cases rest <;> rfl

/-- A reading that is the last one, with the end token or without a token. -/
theorem readUpTo_of_last {n : Nat} {l : Lexer} {line : Nat}
    (h : l.next.1.map (fun t => [t]) = verdict [] line rest) :
    (readUpTo (n + 1) l).1 = verdict [] line rest := by
  rw [← h, readUpTo]
  cases hl : l.next with
  | mk result l' =>
    rw [hl] at h
    cases result with
    | error e => rfl
    | ok t =>
      cases rest with
      | nil =>
        obtain rfl : t = .endOfInput line := List.singleton_inj.mp (Except.ok.inj h)
        rfl
      | cons => cases h

theorem not_isLexeme_of_prefix_nil {p : List Char} (h : p <+: []) : ¬ IsLexeme p := by
  rintro ⟨k, hk⟩
  exact ne_nil_of_fits hk (List.prefix_nil.mp h)

/-- What one reading does, for a lexer that has read the first text: it skips the longest gap and
reads the longest lexeme behind it, if there is one. -/
inductive Reads (before : List Char) (l : Lexer) : Prop
  | finished {gap : List Char} : l.rest = gap ++ [] → IsLongestGap gap [] →
    l.next.1 = .ok (.endOfInput (1 + lineFeeds (before ++ gap) : Nat)) → Reads before l
  | token {gap lexeme text : List Char} {k : Kind} {l' : Lexer} :
    l.rest = gap ++ (lexeme ++ text) → IsLongestGap gap (lexeme ++ text) →
    IsLongestLexeme lexeme (lexeme ++ text) → HasKind lexeme k →
    l.next = (.ok ⟨k, String.ofList lexeme, (1 + lineFeeds (before ++ gap) : Nat)⟩, l') →
    l'.stopped = false → l'.rest = text → l'.line = 1 + lineFeeds (before ++ gap ++ lexeme) →
    Reads before l
  | unknown {gap more : List Char} {c : Char} : l.rest = gap ++ c :: more →
    IsLongestGap gap (c :: more) → (∀ p, p <+: c :: more → ¬ IsLexeme p) →
    l.next.1 = .error (.unknownCharacter c (1 + lineFeeds (before ++ gap))) → Reads before l

theorem reads_of_line {l : Lexer} (hready : l.stopped = false)
    (hline : l.line = 1 + lineFeeds before) : Reads before l := by
  have hnext : l.next = l.skipGap.scan := if_neg (by rw [hready]; exact Bool.false_ne_true)
  have hgap := isLongestGap_take l.rest
  have hsplit := (List.take_append_drop (gapLength false l.rest) l.rest).symm
  have hline' : l.skipGap.line =
      1 + lineFeeds (before ++ l.rest.take (gapLength false l.rest)) := by
    rw [lineFeeds_append, ← Nat.add_assoc, ← hline]
    rfl
  have hrest : l.rest.drop (gapLength false l.rest) = l.skipGap.rest := rfl
  have hready' : l.skipGap.stopped = false := hready
  generalize l.rest.take (gapLength false l.rest) = gap at hgap hsplit hline'
  rw [hrest] at hgap hsplit
  generalize l.skipGap = l' at hnext hgap hsplit hline' hready'
  unfold scan at hnext
  split at hnext
  · next hnil =>
    rw [hnil] at hgap hsplit
    exact Reads.finished hsplit hgap (by rw [hnext, hline'])
  · next c more hcons =>
    split at hnext
    · next k lexeme hlexeme =>
      obtain ⟨hlongest, hkind⟩ := longest_of_lexeme? hlexeme
      obtain ⟨text, htext⟩ := hlongest.start
      rw [hline'] at hnext
      rw [← htext] at hgap hlongest hsplit
      refine Reads.token hsplit hgap hlongest hkind hnext hready' ?_ ?_
      · rw [advance, ← htext, List.drop_left]
      · rw [advance, ← htext, List.take_left, lineFeeds_append _ lexeme, ← Nat.add_assoc, ← hline']
    · next hnone =>
      rw [hcons] at hgap hsplit hnone
      exact Reads.unknown hsplit hgap (fun p => not_isLexeme_of_lexeme? hnone)
        (by rw [hnext, hline'])

/-- Reading a text that stands behind another one, by induction on the number of tokens that may be
read: each takes a character at least. -/
theorem exists_munches {n : Nat} {l : Lexer} (hready : l.stopped = false)
    (hn : l.rest.length < n) (hline : l.line = 1 + lineFeeds before) :
    ∃ ts consumed rest, l.rest = consumed ++ rest ∧ Munches before l.rest ts rest ∧
      (readUpTo n l).1 = verdict ts (1 + lineFeeds (before ++ consumed)) rest := by
  induction n generalizing l before with
  | zero => exact absurd hn (Nat.not_lt_zero _)
  | succ n ih =>
    cases reads_of_line hready hline with
    | @finished gap hsplit hgap hnext =>
      refine ⟨[], gap, [], hsplit, ?_, readUpTo_of_last (congrArg _ hnext)⟩
      rw [hsplit]
      exact Munches.done hgap fun p hp => not_isLexeme_of_prefix_nil hp
    | @token gap lexeme text k l' hsplit hgap hlongest hkind hnext hready' hrest hline' =>
      have hshort : l'.rest.length < n := by
        have hpos := hlongest.length_pos
        rw [hsplit, List.length_append, List.length_append] at hn
        rw [hrest]
        omega
      obtain ⟨ts, consumed, rest, hsplit', hmunches, hread⟩ := ih hready' hshort hline'
      rw [hrest] at hsplit' hmunches
      refine ⟨_, gap ++ (lexeme ++ consumed), rest, ?_, hsplit ▸ Munches.token hgap hlongest hkind
        hmunches, readUpTo_succ hnext hkind.ne_endOfInput ?_⟩
      · rw [hsplit, hsplit', List.append_assoc, List.append_assoc]
      · rw [hread, List.append_assoc, List.append_assoc]
    | @unknown gap more c hsplit hgap hno hnext =>
      refine ⟨[], gap, c :: more, hsplit, ?_, readUpTo_of_last (congrArg _ hnext)⟩
      rw [hsplit]
      exact Munches.done hgap hno

/-- No lexeme begins at what is left. -/
theorem Munches.not_isLexeme (h : Munches before text ts rest) :
    ∀ p, p <+: rest → ¬ IsLexeme p := by
  induction h with
  | done _ hno => exact hno
  | token _ _ _ _ ih => exact ih

/-- The tokens of a text are no end tokens, and its names spell no reserved words. -/
theorem Munches.forall_mem (h : Munches before text ts rest) : ∀ t ∈ ts,
    t.kind ≠ .endOfInput ∧
      (t.kind = .identifier → ∀ w ∈ reservedWords, w.1 ≠ Text.lower t.lexeme) := by
  induction h with
  | done => exact fun t hm => absurd hm List.not_mem_nil
  | token _ _ hkind _ ih =>
    refine List.forall_mem_cons.mpr ⟨⟨hkind.ne_endOfInput, ?_⟩, ih⟩
    rintro rfl
    exact hkind.not_reserved

/-- What is left of a text decides how the reading of it ends. -/
theorem exists_tokenize (source : String) : ∃ ts consumed rest,
    source.toList = consumed ++ rest ∧ Munches [] source.toList ts rest ∧
      tokenize source = verdict ts (1 + lineFeeds consumed) rest :=
  exists_munches (l := ofText source) rfl (Nat.lt_succ_self _) rfl

/-- A text is read by maximal munch: it falls into longest gaps and longest lexemes, whose tokens
are read. Nothing is left of it and an end token stands behind them, or the first character of what
is left, where no lexeme begins, is reported with its line. -/
theorem tokenize_munches (source : String) : ∃ ts consumed rest,
    source.toList = consumed ++ rest ∧ Munches [] source.toList ts rest ∧
      (∀ t ∈ ts, t.kind ≠ .endOfInput ∧
        (t.kind = .identifier → ∀ w ∈ reservedWords, w.1 ≠ Text.lower t.lexeme)) ∧
      (rest = [] → tokenize source =
        .ok (ts ++ [.endOfInput (1 + lineFeeds source.toList : Nat)])) ∧
      ∀ c more, rest = c :: more → (∀ p, p <+: rest → ¬ IsLexeme p) ∧
        tokenize source = .error (.unknownCharacter c (1 + lineFeeds consumed)) := by
  have hline : (ofText source).line = 1 + lineFeeds [] := rfl
  obtain ⟨ts, consumed, rest, hsplit, hmunches, hread⟩ :=
    exists_munches (l := ofText source) rfl (Nat.lt_succ_self _) hline
  refine ⟨ts, consumed, rest, hsplit, hmunches, hmunches.forall_mem, ?_, ?_⟩
  · rintro rfl
    have hall : source.toList = consumed := by
      rw [← List.append_nil consumed]
      exact hsplit
    rw [hall]
    exact hread
  · rintro c more rfl
    exact ⟨hmunches.not_isLexeme, hread⟩

end Lexer

end ProcLang
