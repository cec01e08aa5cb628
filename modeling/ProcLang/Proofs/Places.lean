import ProcLang.Proofs.Appending

/-!
# Places in a text

A lexer stands behind the part of a text that it has read (`Lexer.HasRead`): its position is the
length of this part, and its line counts the line feeds there. One reading takes it behind the next
lexeme, to the end of the text, or to a character where no lexeme begins (`Lexer.meets`).
-/

namespace ProcLang

namespace Lexer

variable {text read lexeme : List Char} {l m : Lexer} {ts : List Token}
  {n : Nat} {k : Kind}

/-- The lexer stands behind the second text, which is the first part of the first one. -/
structure HasRead (text read : List Char) (l : Lexer) : Prop where
  split : read ++ l.rest = text
  position : l.position = read.length
  line : l.line = 1 + lineFeeds read

namespace HasRead

theorem ofText (source : String) : HasRead source.toList [] (ofText source) := ⟨rfl, rfl, rfl⟩

theorem advance (h : HasRead text read l) (hn : n ≤ l.rest.length) :
    HasRead text (read ++ l.rest.take n) (l.advance n) where
  split := by rw [List.append_assoc, Lexer.advance, List.take_append_drop, h.split]
  position := by
    rw [List.length_append, List.length_take_of_le hn, ← h.position]
    rfl
  line := by
    rw [lineFeeds_append, ← Nat.add_assoc, ← h.line]
    rfl

theorem skipGap (h : HasRead text read l) :
    HasRead text (read ++ l.rest.take (gapLength false l.rest)) l.skipGap :=
  h.advance (gapLength_le false l.rest)

theorem stop (h : HasRead text read l) (stopped : Bool) :
    HasRead text read { l with stopped := stopped } :=
  ⟨h.split, h.position, h.line⟩

theorem position_le (h : HasRead text read l) : l.position ≤ text.length := by
  rw [h.position, ← h.split, List.length_append]
  exact Nat.le_add_right _ _

/-- The line of the last character of a text. -/
theorem line_add (h : HasRead text read l) : l.line + lineFeeds l.rest = 1 + lineFeeds text := by
  rw [h.line, ← h.split, lineFeeds_append, Nat.add_assoc]

/-- Where nothing is left the whole text has been read. -/
theorem eq_text (h : HasRead text read l) (hrest : l.rest = []) : read = text := by
  rw [← h.split, hrest, List.append_nil]

end HasRead

/-! ## One reading -/

/-- What one reading meets behind the part of a text that has been read: a token with the longest
lexeme behind the longest gap, the end of the text, or a character where no lexeme begins. -/
inductive Meets (text read : List Char) (l : Lexer) : Prop
  | token {gap : List Char} {t : Token} {l' : Lexer} :
    l.rest = gap ++ (t.lexeme.toList ++ l'.rest) →
    IsLongestGap gap (t.lexeme.toList ++ l'.rest) →
    IsLongestLexeme t.lexeme.toList (t.lexeme.toList ++ l'.rest) →
    HasKind t.lexeme.toList t.kind → t.line = (1 + lineFeeds (read ++ gap) : Nat) →
    l.next = (.ok t, l') → l'.stopped = false →
    HasRead text (read ++ gap ++ t.lexeme.toList) l' → Meets text read l
  | endOfInput {gap : List Char} {l' : Lexer} :
    l.rest = gap → IsLongestGap gap [] →
    l.next = (.ok (.endOfInput (1 + lineFeeds text : Nat)), l') → l'.stopped = false →
    HasRead text text l' → Meets text read l
  | unknown {gap more : List Char} {c : Char} {l' : Lexer} :
    l.rest = gap ++ c :: more → IsLongestGap gap (c :: more) →
    (∀ p, p <+: c :: more → ¬ IsLexeme p) →
    l.next = (.error (.unknownCharacter c (1 + lineFeeds (read ++ gap))), l') → l'.stopped →
    HasRead text (read ++ gap) l' → Meets text read l

theorem exists_token_of_lexeme? (hne : m.rest ≠ []) (h : lexeme? m.rest = some (k, lexeme)) :
    ∃ t : Token, m.scan = (.ok t, m.advance t.lexeme.toList.length) ∧ t.line = m.line ∧
      IsLongestLexeme t.lexeme.toList m.rest ∧ HasKind t.lexeme.toList t.kind := by
  obtain ⟨hlongest, hkind⟩ := longest_of_lexeme? h
  have hlexeme : (String.ofList lexeme).toList = lexeme := String.toList_ofList
  refine ⟨⟨k, String.ofList lexeme, m.line⟩, ?_, rfl, ?_, ?_⟩ <;> dsimp only <;> rw [hlexeme]
  · exact scan_eq_of_lexeme? hne h
  · exact hlongest
  · exact hkind

theorem meets (h : HasRead text read l) (hready : l.stopped = false) : Meets text read l := by
  have hnext := next_of_ready hready
  have hskip := h.skipGap
  have hgap := isLongestGap_take l.rest
  have hsplit := (List.take_append_drop (gapLength false l.rest) l.rest).symm
  have hrest : l.rest.drop (gapLength false l.rest) = l.skipGap.rest := rfl
  have hready' : l.skipGap.stopped = false := hready
  generalize l.rest.take (gapLength false l.rest) = gap at hskip hgap hsplit
  rw [hrest] at hgap hsplit
  generalize l.skipGap = m at hnext hskip hgap hsplit hready'
  by_cases hm : m.rest = []
  · have hend : m.scan = (.ok (.endOfInput m.line), m) := by rw [scan, hm]
    obtain rfl : read ++ gap = text := hskip.eq_text hm
    rw [hend, hskip.line] at hnext
    rw [hm] at hgap hsplit
    exact .endOfInput (hsplit.trans (List.append_nil gap)) hgap hnext hready' hskip
  cases hl : lexeme? m.rest with
  | none =>
    obtain ⟨c, more, hcons⟩ := List.exists_cons_of_ne_nil hm
    have hnext' : l.next = (.error (.unknownCharacter c (1 + lineFeeds (read ++ gap))),
        { m with stopped := true }) := by rw [hnext, scan_eq_of_none hcons hl, hskip.line]
    rw [hcons] at hgap hsplit hl
    exact .unknown hsplit hgap (fun p => not_isLexeme_of_lexeme? hl) hnext' rfl (hskip.stop true)
  | some pair =>
    obtain ⟨t, hscan, hline, hlongest, hkind⟩ := exists_token_of_lexeme? hm hl
    have hread := hskip.advance hlongest.start.length_le
    have hbehind : t.lexeme.toList ++ (m.advance t.lexeme.toList.length).rest = m.rest := by
      obtain ⟨behind, hbehind⟩ := hlongest.start
      rw [Lexer.advance, ← hbehind, List.drop_left]
    rw [← List.prefix_iff_eq_take.mp hlongest.start] at hread
    rw [← hbehind] at hgap hlongest hsplit
    rw [hscan] at hnext
    rw [hskip.line] at hline
    exact .token hsplit hgap hlongest hkind hline hnext hready' hread

/-- A reading goes on behind what has been read. -/
theorem HasRead.next (h : HasRead text read l) : ∃ more, HasRead text (read ++ more) l.next.2 := by
  by_cases hstopped : l.stopped
  · rw [Lexer.next, if_pos hstopped]
    exact ⟨[], by rwa [List.append_nil]⟩
  · cases meets h (Bool.eq_false_iff.mpr hstopped) with
    | token _ _ _ _ _ hnext _ hread =>
      rw [hnext]
      rw [List.append_assoc] at hread
      exact ⟨_, hread⟩
    | endOfInput _ _ hnext _ hread =>
      rw [hnext]
      exact ⟨l.rest, by rwa [h.split]⟩
    | unknown _ _ _ hnext _ hread =>
      rw [hnext]
      exact ⟨_, hread⟩

/-- A lexer that has supplied tokens stands at a place of the same text. -/
theorem HasRead.supplies (h : HasRead text read l)
    (hs : (TokenSource.text l).Supplies ts (.text m)) : ∃ read', HasRead text read' m := by
  induction ts generalizing l read with
  | nil =>
    obtain rfl : m = l := TokenSource.text.inj hs
    exact ⟨read, h⟩
  | cons t ts ih =>
    obtain ⟨mid, hn, hs⟩ := hs
    obtain ⟨-, rfl⟩ := Prod.mk.inj hn
    obtain ⟨more, hnext⟩ := h.next
    exact ih hnext hs

end Lexer

end ProcLang
