import ProcLang.Proofs.Appending

/-!
# Printing tokens

Lexemes are printed one behind the other, with a gap between any two of them that begins with a
blank. A text that is printed so is read as the lexemes it was made of, however long they and the
gaps are (`Lexer.tokenize_printed`).
-/

namespace ProcLang

namespace Lexer

/-- The text alone is read as one token, which is of the kind. -/
def StandsAlone (k : Kind) (lexeme : String) : Prop :=
  tokenize lexeme = .ok [⟨k, lexeme, 1⟩, .endOfInput 1]

instance (k : Kind) (lexeme : String) : Decidable (StandsAlone k lexeme) :=
  inferInstanceAs (Decidable (tokenize lexeme = _))

/-- A lexeme as it is printed, with the gap in front of it. -/
structure Piece where
  gap : List Char
  kind : Kind
  lexeme : String
  closed : IsClosedGap gap
  alone : StandsAlone kind lexeme

namespace Piece

/-- The text of a piece. -/
def text (p : Piece) : List Char := p.gap ++ p.lexeme.toList

/-- What is printed for some pieces. -/
def print (pieces : List Piece) : List Char := pieces.flatMap text

/-- The tokens of some pieces that are printed behind a text. The line of a token counts the line
feeds in front of it. -/
def tokens : List Char → List Piece → List Token
  | _, [] => []
  | before, p :: rest =>
    ⟨p.kind, p.lexeme, (1 + lineFeeds (before ++ p.gap) : Nat)⟩ :: tokens (before ++ p.text) rest

end Piece

/-- The text begins with a blank. -/
def BeginsBlank (cs : List Char) : Prop := ∃ c rest, cs = c :: rest ∧ Text.isBlank c

variable {k : Kind} {lexeme : String} {rest last before : List Char} {l : Lexer} {p : Piece}
  {pieces : List Piece}

theorem BeginsBlank.detached {cs : List Char} (h : BeginsBlank cs) (rest : List Char) :
    Detached (cs ++ rest) := by
  obtain ⟨c, cs, rfl, hc⟩ := h
  rintro d ⟨⟩
  exact hc

/-! ## One piece -/

/-- The first reading gives the token, which is no end token. -/
theorem StandsAlone.next (h : StandsAlone k lexeme) :
    (ofText lexeme).next.1 = .ok ⟨k, lexeme, 1⟩ ∧ k ≠ .endOfInput := by
  unfold StandsAlone tokenize readAll readUpTo at h
  cases hnext : (ofText lexeme).next with
  | mk result l =>
    rw [hnext] at h
    cases result with
    | error e => cases h
    | ok t =>
      dsimp only at h
      split at h
      · cases h
      · next hk =>
        split at h
        · cases h
          exact ⟨rfl, hk⟩
        · cases h

/-- No gap stands in front of the lexeme, and it is taken as a whole. -/
theorem StandsAlone.lexeme? (h : StandsAlone k lexeme) :
    gapLength false lexeme.toList = 0 ∧ lexeme.toList ≠ [] ∧
      Lexer.lexeme? lexeme.toList = some (k, lexeme.toList) := by
  obtain ⟨hnext, hk⟩ := h.next
  have hlt : gapLength false lexeme.toList < lexeme.toList.length := by
    refine (gapLength_le false lexeme.toList).lt_of_ne fun heq => ?_
    rw [next_of_gapLength rfl heq] at hnext
    cases hnext
    exact hk rfl
  have hrest : (ofText lexeme).skipGap.rest =
      lexeme.toList.drop (gapLength false lexeme.toList) := rfl
  rw [next_of_ready rfl] at hnext
  unfold scan at hnext
  rw [hrest] at hnext
  split at hnext
  · next hnil =>
    rw [List.drop_eq_nil_iff] at hnil
    omega
  · split at hnext
    · next k' taken htaken =>
      obtain ⟨rfl, hlexeme, -⟩ := Token.mk.inj (Except.ok.inj hnext)
      obtain rfl : taken = lexeme.toList := by rw [← hlexeme, String.toList_ofList]
      have hlength := (longest_of_lexeme? htaken).1.start.length_le
      rw [List.length_drop] at hlength
      have hzero : gapLength false lexeme.toList = 0 := by omega
      rw [hzero, List.drop_zero] at htaken
      refine ⟨hzero, ?_, htaken⟩
      rintro hnil
      rw [hnil] at hlt
      cases hlt
    · cases hnext

/-- A piece in front of a blank, or at the end of the text, is read as its token. -/
theorem next_of_piece (hready : l.stopped = false) (hline : l.line = 1 + lineFeeds before)
    (hrest : l.rest = p.text ++ rest) (hbehind : Detached rest) :
    ∃ m, l.next = (.ok ⟨p.kind, p.lexeme, (1 + lineFeeds (before ++ p.gap) : Nat)⟩, m) ∧
      m.stopped = false ∧ m.line = 1 + lineFeeds (before ++ p.text) ∧ m.rest = rest := by
  obtain ⟨hgap, hne, hlexeme⟩ := p.alone.lexeme?
  rw [Piece.text, List.append_assoc] at hrest
  rw [next_of_isClosedGap hready hrest p.closed]
  have hline' : (l.advance p.gap.length).line = 1 + lineFeeds (before ++ p.gap) := by
    rw [advance, hrest, List.take_left, hline, lineFeeds_append, Nat.add_assoc]
  have hrest' : (l.advance p.gap.length).rest = p.lexeme.toList ++ rest := by
    rw [advance, hrest, List.drop_left]
  have hready' : (l.advance p.gap.length).stopped = false := hready
  generalize l.advance p.gap.length = l' at hline' hrest' hready'
  have hskip : l'.skipGap = l' := by
    have hlt : gapLength false p.lexeme.toList < p.lexeme.toList.length := by
      rw [hgap]
      exact List.length_pos_iff.mpr hne
    rw [skipGap, hrest', gapLength_append_of_lt hbehind hlt, hgap]
    rfl
  refine ⟨l'.advance p.lexeme.toList.length, ?_, hready', ?_, ?_⟩
  · have hne' : l'.rest ≠ [] := by
      rw [hrest']
      exact List.append_ne_nil_of_left_ne_nil hne _
    rw [← lexeme?_append hbehind, ← hrest'] at hlexeme
    rw [next_of_ready hready', hskip, scan_eq_of_lexeme? hne' hlexeme, hline',
      String.ofList_toList]
  · rw [advance, hrest', List.take_left, hline', lineFeeds_append before, Piece.text,
      ← List.append_assoc, lineFeeds_append _ p.lexeme.toList, lineFeeds_append before,
      Nat.add_assoc, Nat.add_assoc]
  · rw [advance, hrest', List.drop_left]

/-! ## All pieces -/

/-- The pieces in front of a text are read one after the other. -/
theorem supplies_tokens (hready : l.stopped = false) (hline : l.line = 1 + lineFeeds before)
    (hrest : l.rest = Piece.print pieces ++ last) (hsep : ∀ p ∈ pieces.tail, BeginsBlank p.gap)
    (hlast : pieces ≠ [] → Detached last) :
    ∃ m, (TokenSource.text l).Supplies (Piece.tokens before pieces) (.text m) ∧
      m.stopped = false ∧ m.line = 1 + lineFeeds (before ++ Piece.print pieces) ∧
      m.rest = last := by
  induction pieces generalizing l before with
  | nil => exact ⟨l, rfl, hready, by rw [hline, Piece.print, List.flatMap_nil, List.append_nil], hrest⟩
  | cons p pieces ih =>
    have hprint : Piece.print (p :: pieces) = p.text ++ Piece.print pieces := List.flatMap_cons
    rw [hprint, List.append_assoc] at hrest
    have hbehind : Detached (Piece.print pieces ++ last) := by
      cases pieces with
      | nil => exact hlast (List.cons_ne_nil _ _)
      | cons q pieces =>
        have hq := (hsep q List.mem_cons_self).detached
        rw [Piece.print, List.flatMap_cons, Piece.text, List.append_assoc, List.append_assoc]
        exact hq _
    obtain ⟨m, hnext, hready', hline', hrest'⟩ := next_of_piece hready hline hrest hbehind
    have hsep' : ∀ q ∈ pieces.tail, BeginsBlank q.gap := fun q hq => hsep q (List.mem_of_mem_tail hq)
    obtain ⟨m', hs, hend⟩ := ih hready' hline' hrest' hsep' fun _ => hlast (List.cons_ne_nil _ _)
    refine ⟨m', ⟨.text m, by rw [TokenSource.next, hnext], hs⟩, ?_⟩
    rwa [hprint, ← List.append_assoc]

theorem kind_ne_endOfInput_of_mem_tokens {t : Token} (h : t ∈ Piece.tokens before pieces) :
    t.kind ≠ .endOfInput := by
  induction pieces generalizing before with
  | nil => exact absurd h List.not_mem_nil
  | cons p pieces ih =>
    rcases List.mem_cons.mp h with rfl | h
    · exact p.alone.next.2
    · exact ih h

/-- Printing tokens and reading them again gives the same tokens. In front of the first lexeme may
stand blanks and comments that are ended. Between two lexemes stands a gap of this kind that begins
with a blank. Behind the last lexeme may stand a gap that begins with a blank and in which the last
comment need not be ended. Each token has the line in which its lexeme is printed, and the end token
has the last one. -/
theorem tokenize_printed (pieces : List Piece) (last : List Char)
    (hsep : ∀ p ∈ pieces.tail, BeginsBlank p.gap) (hgap : IsGap last [])
    (hlast : pieces ≠ [] → last = [] ∨ BeginsBlank last) :
    tokenize (String.ofList (Piece.print pieces ++ last)) =
      .ok (Piece.tokens [] pieces ++
        [.endOfInput (1 + lineFeeds (Piece.print pieces ++ last) : Nat)]) := by
  have hdetached : pieces ≠ [] → Detached last := by
    intro hne
    rcases hlast hne with rfl | hblank
    · exact nofun
    · rw [← List.append_nil last]
      exact hblank.detached []
  have hline : (ofText (String.ofList (Piece.print pieces ++ last))).line = 1 + lineFeeds [] := rfl
  obtain ⟨m, hs, hready, -, hrest⟩ :=
    supplies_tokens rfl hline String.toList_ofList hsep hdetached
  have hwhole : gapLength false m.rest = m.rest.length := by
    refine (gapLength_le false m.rest).antisymm ?_
    rw [hrest]
    simpa only [List.append_nil] using hgap.length_le
  have hall := tokenize_of_supplies (fun _ => kind_ne_endOfInput_of_mem_tokens) hs
    (next_of_gapLength hready hwhole)
  rwa [String.toList_ofList] at hall

/-- An assignment behind a comment. -/
def printedAssignment : List Piece :=
  have comment : '\n' ∉ [' ', 'a'] := by decide
  [⟨"-- a\n".toList, .identifier, "x", .comment comment .nil, by decide +kernel⟩,
    ⟨[' '], .assign, ":=", .blank (by decide) .nil, by decide +kernel⟩,
    ⟨['\n'], .number, "1.5", .blank (by decide) .nil, by decide +kernel⟩]

theorem tokenize_printed_assignment :
    (∀ p ∈ printedAssignment.tail, BeginsBlank p.gap) ∧ IsGap " -- b".toList [] ∧
      BeginsBlank " -- b".toList ∧
      tokenize "-- a\nx :=\n1.5 -- b" = .ok [⟨.identifier, "x", 2⟩, ⟨.assign, ":=", 2⟩,
        ⟨.number, "1.5", 3⟩, .endOfInput 3] := by
  have hsep : ∀ p ∈ printedAssignment.tail, BeginsBlank p.gap :=
    List.forall_mem_cons.mpr ⟨⟨_, _, rfl, by decide⟩,
      List.forall_mem_singleton.mpr ⟨_, _, rfl, by decide⟩⟩
  have hcomment : IsGap ('-' :: '-' :: ([' ', 'b'] ++ [])) [] := .comment (by decide) nofun .nil
  have hgap : IsGap " -- b".toList [] := .blank (by decide) hcomment
  have hblank : BeginsBlank " -- b".toList := ⟨_, _, rfl, by decide⟩
  refine ⟨hsep, hgap, hblank, ?_⟩
  exact tokenize_printed printedAssignment " -- b".toList hsep hgap fun _ => Or.inr hblank

end Lexer

end ProcLang
