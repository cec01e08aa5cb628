import ProcLang.Proofs.Faults
import ProcLang.Proofs.MaximalMunch

/-!
# Texts that go on

A lexeme has no blank in it, so a text that goes on with a blank is read like its first part as long
as something of this is left (`Lexer.Continues.next`). Tokens that stand further down in a text are
the same but for their lines (`Token.moved`).
-/

namespace ProcLang

/-- The token as it is a number of lines further down. -/
def Token.moved (n : Int) (t : Token) : Token := { t with line := t.line + n }

theorem Token.moved_moved (n m : Int) (t : Token) : (t.moved n).moved m = t.moved (n + m) := by
  simp only [moved, Int.add_assoc]

theorem Token.moved_zero (t : Token) : t.moved 0 = t := by
  simp only [moved, Int.add_zero]

namespace Lexer

variable {cs gap rest behind p lexeme body : List Char} {k : Kind} {c : Char} {l l' m : Lexer}
  {t : Token} {ts : List Token} {n : Nat}

/-! ## Blanks in lexemes -/

theorem isBlank_eq_false (hlow : 0x21 ≤ c.toNat) (hhigh : c.toNat < 0x80) :
    Text.isBlank c = false := by
  rw [Bool.eq_false_iff]
  intro h
  obtain ⟨r, hr, hfrom, hto⟩ := Text.inRanges_eq_true_iff.mp h
  have hall : ∀ r ∈ Text.blankRanges, r.2 < 0x21 ∨ 0x80 ≤ r.1 := by decide
  have hr := hall r hr
  omega

theorem isBlank_of_isDigit (h : c.isDigit) : Text.isBlank c = false := by
  have hlow : 48 ≤ c.toNat ∧ c.toNat ≤ 57 := by
    simpa using toNat_of_begins (k := .number) h
  exact isBlank_eq_false (by omega) (toNat_lt_of_isDigit h)

theorem isBlank_of_isAlpha (h : c.isAlpha) : Text.isBlank c = false := by
  have hlow : 65 ≤ c.toNat := by
    simpa using toNat_of_begins (k := .identifier) h
  exact isBlank_eq_false (by omega) (toNat_lt_of_isAlpha h)

theorem isBlank_of_isNameChar (h : isNameChar c) : Text.isBlank c = false := by
  unfold isNameChar Char.isAlphanum at h
  rw [Bool.or_eq_true, Bool.or_eq_true, beq_iff_eq] at h
  rcases h with (h | h) | rfl
  · exact isBlank_of_isAlpha h
  · exact isBlank_of_isDigit h
  · decide

theorem isBlank_of_mem_symbols {s : String} (hs : s ∈ k.symbols) (hc : c ∈ s.toList) :
    Text.isBlank c = false := by
  have hall : ∀ k ∈ Kind.all, ∀ s ∈ k.symbols, s.toList.all (Text.isBlank · == false) := by
    decide +kernel
  exact beq_iff_eq.mp (List.all_eq_true.mp (hall k k.mem_all s hs) c hc)

/-- A lexeme has no blank in it. -/
theorem isBlank_of_fits (h : k.Fits p) (hc : c ∈ p) : Text.isBlank c = false := by
  cases k
  case identifier =>
    obtain ⟨d, rest, rfl, hd, hrest⟩ := h
    rcases List.mem_cons.mp hc with rfl | hc
    · exact isBlank_of_isAlpha hd
    · exact isBlank_of_isNameChar (hrest c hc)
  case number =>
    obtain ⟨whole, fraction, -, hwhole, hfraction, rfl | ⟨-, rfl⟩⟩ := h
    · exact isBlank_of_isDigit (hwhole c hc)
    · rcases List.mem_append.mp hc with hc | hc
      · exact isBlank_of_isDigit (hwhole c hc)
      · rcases List.mem_cons.mp hc with rfl | hc
        · decide
        · exact isBlank_of_isDigit (hfraction c hc)
  all_goals
    obtain ⟨s, hs, rfl⟩ := h
    exact isBlank_of_mem_symbols hs hc

/-! ## Lexemes in front of a blank -/

/-- What stands behind a text is nothing or begins with a blank. -/
def Detached (behind : List Char) : Prop := ∀ c ∈ behind.head?, Text.isBlank c

/-- A lexeme does not reach across a blank. -/
theorem prefix_of_detached (hbehind : Detached behind) (hfits : k.Fits p) (h : p <+: cs ++ behind) :
    p <+: cs := by
  rcases List.prefix_or_prefix_of_prefix h (List.prefix_append cs behind) with h' | ⟨more, rfl⟩
  · exact h'
  cases more with
  | nil => rw [List.append_nil]
  | cons c more =>
    obtain ⟨rest, rfl⟩ := (List.prefix_append_right_inj cs).mp h
    have hblank := hbehind c rfl
    rw [isBlank_of_fits hfits (List.mem_append_right _ List.mem_cons_self)] at hblank
    cases hblank

/-- The longest text of a kind is the same. -/
theorem take_eq_of_isLongest {n' : Nat} (hbehind : Detached behind) (h : IsLongest k cs n)
    (h' : IsLongest k (cs ++ behind) n') :
    (n' = 0 ↔ n = 0) ∧ (cs ++ behind).take n' = cs.take n := by
  have hle : n ≠ 0 → (cs.take n).length ≤ n' ∧ cs.take n ≠ [] := fun hn =>
    ⟨h'.longest _ ((List.take_prefix n cs).trans (List.prefix_append _ _)) (h.fits hn),
      ne_nil_of_fits (h.fits hn)⟩
  have hle' : n' ≠ 0 → ((cs ++ behind).take n').length ≤ n ∧
      (cs ++ behind).take n' <+: cs ∧ (cs ++ behind).take n' ≠ [] := fun hn =>
    have hstart := prefix_of_detached hbehind (h'.fits hn) (List.take_prefix n' _)
    ⟨h.longest _ hstart (h'.fits hn), hstart, ne_nil_of_fits (h'.fits hn)⟩
  by_cases hn : n = 0
  · have hn' : n' = 0 := by
      by_contra hn'
      obtain ⟨hshort, -, hne⟩ := hle' hn'
      rw [hn, Nat.le_zero, List.length_eq_zero_iff] at hshort
      exact hne hshort
    subst hn hn'
    exact ⟨Iff.rfl, rfl⟩
  · obtain ⟨hlong, hne⟩ := hle hn
    have hn' : n' ≠ 0 := by
      rintro rfl
      rw [Nat.le_zero, List.length_eq_zero_iff] at hlong
      exact hne hlong
    obtain ⟨hshort, hstart, -⟩ := hle' hn'
    refine ⟨iff_of_false hn' hn, ?_⟩
    -- both are the start of one text, and neither is longer than the other
    have heq : (cs ++ behind).take n' = cs.take ((cs ++ behind).take n').length :=
      List.prefix_iff_eq_take.mp hstart
    have hlength := hstart.length_le
    rw [List.length_take] at hlong hshort hlength heq
    rw [heq, List.take_eq_take_iff]
    rw [List.length_append] at *
    omega

/-- A text is taken apart in the same way when it goes on with a blank. -/
theorem lexeme?_append (hbehind : Detached behind) (cs : List Char) :
    lexeme? (cs ++ behind) = lexeme? cs := by
  have hgroup : ∀ group ∈ lexemeClasses,
      (group.longest (cs ++ behind) = 0 ↔ group.longest cs = 0) ∧
        (cs ++ behind).take (group.longest (cs ++ behind)) = cs.take (group.longest cs) :=
    fun _ hgroup =>
      take_eq_of_isLongest hbehind (isLongest_of_mem hgroup _) (isLongest_of_mem hgroup _)
  have hfind : lexemeClasses.find? (fun group => group.longest (cs ++ behind) != 0) =
      lexemeClasses.find? fun group => group.longest cs != 0 :=
    List.find?_congr fun group hm => by
      rw [Bool.eq_iff_iff, bne_iff_ne, bne_iff_ne]
      exact (hgroup group hm).1.not
  unfold lexeme?
  rw [hfind]
  cases h : lexemeClasses.find? fun group => group.longest cs != 0 with
  | none => rfl
  | some group =>
    simp only [Option.map_some, (hgroup group (List.mem_of_find?_eq_some h)).2]

/-! ## Gaps in front of a blank -/

/-- A gap that ends before the text does ends at the same place when the text goes on with a
blank. -/
theorem gapLength_append_of_lt (hbehind : Detached behind) {inComment : Bool}
    (h : gapLength inComment cs < cs.length) :
    gapLength inComment (cs ++ behind) = gapLength inComment cs := by
  induction cs generalizing inComment with
  | nil => cases h
  | cons c cs ih =>
    have hrest : ∀ inComment, gapLength inComment cs + 1 < (c :: cs).length →
        gapLength inComment (cs ++ behind) = gapLength inComment cs := fun _ h =>
      ih (Nat.lt_of_succ_lt_succ h)
    simp only [List.cons_append, gapLength] at h ⊢
    by_cases hin : inComment
    · rw [if_pos hin] at h
      rw [if_pos hin, if_pos hin, hrest _ h]
    rw [if_neg hin] at h
    rw [if_neg hin, if_neg hin]
    by_cases hblank : Text.isBlank c
    · rw [if_pos hblank] at h
      rw [if_pos hblank, if_pos hblank, hrest _ h]
    rw [if_neg hblank] at h
    rw [if_neg hblank, if_neg hblank]
    -- a single hyphen at the end does not begin a comment with what follows
    have hhead : (c = '-' ∧ (cs ++ behind).head? = some '-') ↔ c = '-' ∧ cs.head? = some '-' := by
      refine and_congr_right fun _ => ?_
      cases cs with
      | nil => exact iff_of_false (fun hb => absurd (hbehind _ hb) (by decide)) (by simp)
      | cons d cs => rfl
    by_cases hcomment : c = '-' ∧ cs.head? = some '-'
    · rw [if_pos hcomment] at h
      rw [if_pos (hhead.mpr hcomment), if_pos hcomment, hrest _ h]
    · rw [if_neg (hhead.not.mpr hcomment), if_neg hcomment]

/-- A gap that takes a whole text goes on with what stands behind it, inside a comment or not. -/
theorem exists_gapLength_append {inComment : Bool} (h : gapLength inComment cs = cs.length) :
    ∃ inComment', ∀ behind, gapLength inComment (cs ++ behind) =
      cs.length + gapLength inComment' behind := by
  induction cs generalizing inComment with
  | nil => exact ⟨inComment, fun behind => (Nat.zero_add _).symm⟩
  | cons c cs ih =>
    have hrest : ∀ inComment, gapLength inComment cs + 1 = (c :: cs).length →
        ∃ inComment', ∀ behind, gapLength inComment (cs ++ behind) + 1 =
          (c :: cs).length + gapLength inComment' behind := by
      intro inComment h
      obtain ⟨inComment', h⟩ := ih (Nat.succ.inj h)
      exact ⟨inComment', fun behind => by rw [h, List.length_cons, Nat.add_right_comm]⟩
    simp only [List.cons_append, gapLength] at h ⊢
    by_cases hin : inComment
    · simp only [if_pos hin] at h ⊢
      exact hrest _ h
    simp only [if_neg hin] at h ⊢
    by_cases hblank : Text.isBlank c
    · simp only [if_pos hblank] at h ⊢
      exact hrest _ h
    simp only [if_neg hblank] at h ⊢
    by_cases hcomment : c = '-' ∧ cs.head? = some '-'
    · have hhead : ∀ behind, c = '-' ∧ (cs ++ behind).head? = some '-' := fun behind => by
        rw [List.head?_append, hcomment.2]
        exact ⟨hcomment.1, rfl⟩
      simp only [if_pos hcomment, if_pos (hhead _)] at h ⊢
      exact hrest _ h
    · rw [if_neg hcomment] at h
      cases h

/-- Blanks belong to a gap, inside a comment or not. -/
theorem gapLength_of_blank {inComment : Bool} (h : ∀ c ∈ cs, Text.isBlank c) :
    gapLength inComment cs = cs.length := by
  induction cs generalizing inComment with
  | nil => rfl
  | cons c cs ih =>
    obtain ⟨hc, hcs⟩ := List.forall_mem_cons.mp h
    rw [gapLength, if_pos hc, ih hcs, ih hcs, ite_self, List.length_cons]

/-! ## Reading on -/

theorem next_of_ready (h : l.stopped = false) : l.next = l.skipGap.scan :=
  if_neg (by rw [h]; exact Bool.false_ne_true)

theorem scan_eq_of_lexeme? (hne : l.rest ≠ []) (h : lexeme? l.rest = some (k, lexeme)) :
    l.scan = (.ok ⟨k, String.ofList lexeme, l.line⟩, l.advance lexeme.length) := by
  unfold scan
  split
  · next hnil => exact absurd hnil hne
  · rw [h]

theorem scan_eq_of_none (hrest : l.rest = c :: cs) (h : lexeme? l.rest = none) :
    l.scan = (.error (.unknownCharacter c l.line), { l with stopped := true }) := by
  unfold scan
  rw [h, hrest]

/-- A text that is nothing but a gap is at its end. -/
theorem next_of_gapLength (hready : l.stopped = false)
    (h : gapLength false l.rest = l.rest.length) :
    l.next.1 = .ok (.endOfInput (l.line + lineFeeds l.rest : Nat)) := by
  have hrest : l.skipGap.rest = [] := by rw [skipGap, advance, h, List.drop_length]
  have hline : l.skipGap.line = l.line + lineFeeds l.rest := by
    rw [skipGap, advance, h, List.take_length]
  rw [next_of_ready hready, scan, hrest, hline]

/-- The second lexer reads the text of the first one with another text behind it, a number of lines
further down. -/
structure Continues (behind : List Char) (n : Nat) (l l' : Lexer) : Prop where
  ready : l.stopped = false
  ready' : l'.stopped = false
  rest : l'.rest = l.rest ++ behind
  line : l'.line = l.line + n

/-- The two lexers read the same token, or they meet the same unknown character. -/
inductive ReadsAlike (behind : List Char) (n : Nat) :
    Except ScanError Token × Lexer → Except ScanError Token × Lexer → Prop
  | token {t : Token} {l l' : Lexer} : t.kind ≠ .endOfInput → Continues behind n l l' →
    ReadsAlike behind n (.ok t, l) (.ok (t.moved n), l')
  | unknown {c : Char} {line : Nat} {l l' : Lexer} :
    ReadsAlike behind n (.error (.unknownCharacter c line), l)
      (.error (.unknownCharacter c (line + n)), l')

namespace Continues

theorem advance (h : Continues behind n l l') {d : Nat} (hd : d ≤ l.rest.length) :
    Continues behind n (l.advance d) (l'.advance d) where
  ready := h.ready
  ready' := h.ready'
  rest := by simp only [Lexer.advance, h.rest, List.drop_append_of_le_length hd]
  line := by
    simp only [Lexer.advance, h.rest, List.take_append_of_le_length hd, h.line]
    omega

theorem scan (h : Continues behind n l l') (hbehind : Detached behind) (hne : l.rest ≠ []) :
    ReadsAlike behind n l.scan l'.scan := by
  obtain ⟨c, cs, hcs⟩ := List.exists_cons_of_ne_nil hne
  have hcs' : l'.rest = c :: (cs ++ behind) := by rw [h.rest, hcs, List.cons_append]
  have hlexeme : lexeme? l'.rest = lexeme? l.rest := by rw [h.rest, lexeme?_append hbehind]
  cases hl : lexeme? l.rest with
  | none =>
    rw [scan_eq_of_none hcs hl, scan_eq_of_none hcs' (hlexeme.trans hl), h.line]
    exact .unknown
  | some pair =>
    obtain ⟨k, lexeme⟩ := pair
    have hne' : l'.rest ≠ [] := by
      rw [hcs']
      exact List.cons_ne_nil _ _
    rw [scan_eq_of_lexeme? hne hl, scan_eq_of_lexeme? hne' (hlexeme.trans hl), h.line]
    exact .token (kind_ne_endOfInput_of_lexeme? hl)
      (h.advance (longest_of_lexeme? hl).1.start.length_le)

/-- As long as something but a gap is left of the first text, the same is read of both. -/
theorem next (h : Continues behind n l l') (hbehind : Detached behind)
    (hlt : gapLength false l.rest < l.rest.length) : ReadsAlike behind n l.next l'.next := by
  have hgap : l'.skipGap = l'.advance (gapLength false l.rest) := by
    rw [skipGap, h.rest, gapLength_append_of_lt hbehind hlt]
  have hne : l.skipGap.rest ≠ [] := by
    rw [skipGap, Lexer.advance, Ne, List.drop_eq_nil_iff]
    exact Nat.not_le.mpr hlt
  rw [next_of_ready h.ready, next_of_ready h.ready', hgap]
  exact (h.advance hlt.le).scan hbehind hne

end Continues

/-! ## All tokens of a text -/

/-- As long as something but a gap is left of the first text, the two lexers supply the same tokens,
by induction on what is left of it. Then both meet the same unknown character, or what is left of
the first text is a gap. -/
theorem Continues.exists_supplies_upTo (h : Continues behind n l l') (hbehind : Detached behind) :
    ∃ ts m m', (TokenSource.text l).Supplies ts (.text m) ∧
      (TokenSource.text l').Supplies (ts.map (Token.moved n)) (.text m') ∧
      (∀ t ∈ ts, t.kind ≠ .endOfInput) ∧
      ((∃ c line, m.next.1 = .error (.unknownCharacter c line) ∧
          m'.next.1 = .error (.unknownCharacter c (line + n))) ∨
        Continues behind n m m' ∧ gapLength false m.rest = m.rest.length) := by
  induction hlength : l.rest.length using Nat.strong_induction_on generalizing l l' with
  | _ length ih =>
    subst hlength
    rcases (gapLength_le false l.rest).lt_or_eq with hlt | heq
    · have hreads := h.next hbehind hlt
      cases hnext : l.next with
      | mk result mid =>
        cases hnext' : l'.next with
        | mk result' mid' =>
          rw [hnext, hnext'] at hreads
          cases hreads with
          | @token t _ _ hk hmid =>
            have hshort : mid.rest.length < l.rest.length :=
              (length_rest_next hnext).resolve_right fun hend => hk hend.2
            obtain ⟨ts, m, m', hs, hs', hts, hend⟩ := ih _ hshort hmid rfl
            refine ⟨t :: ts, m, m', ⟨.text mid, by rw [TokenSource.next, hnext], hs⟩,
              ⟨.text mid', by rw [TokenSource.next, hnext'], hs'⟩,
              List.forall_mem_cons.mpr ⟨hk, hts⟩, hend⟩
          | unknown =>
            refine ⟨[], l, l', rfl, rfl, fun _ hm => absurd hm List.not_mem_nil, Or.inl ?_⟩
            rw [hnext, hnext']
            exact ⟨_, _, rfl, rfl⟩
    · exact ⟨[], l, l', rfl, rfl, fun _ hm => absurd hm List.not_mem_nil, Or.inr ⟨h, heq⟩⟩

/-- A lexer that reads on in the same way supplies the same tokens. -/
theorem exists_supplies_of_next (hnext : l.next = l'.next)
    (hs : (TokenSource.text l').Supplies ts (.text m)) :
    ∃ m', (TokenSource.text l).Supplies ts (.text m') ∧ m'.next = m.next := by
  cases ts with
  | nil =>
    obtain rfl : m = l' := TokenSource.text.inj hs
    exact ⟨l, rfl, hnext⟩
  | cons t ts =>
    obtain ⟨mid, hn, hs⟩ := hs
    exact ⟨m, ⟨mid, by rw [← hn, TokenSource.next, TokenSource.next, hnext], hs⟩, rfl⟩

/-- The tokens that are supplied are those that are read. -/
theorem readUpTo_of_supplies {bound line : Nat} (hts : ∀ t ∈ ts, t.kind ≠ .endOfInput)
    (hs : (TokenSource.text l).Supplies ts (.text m)) (hbound : l.rest.length < bound)
    (hend : ∀ bound, (readUpTo (bound + 1) m).1 = verdict [] line rest) :
    (readUpTo bound l).1 = verdict ts line rest := by
  induction ts generalizing l bound with
  | nil =>
    obtain rfl : m = l := TokenSource.text.inj hs
    obtain ⟨bound, rfl⟩ := Nat.exists_eq_succ_of_ne_zero (Nat.ne_zero_of_lt hbound)
    exact hend bound
  | cons t ts ih =>
    obtain ⟨hk, hts⟩ := List.forall_mem_cons.mp hts
    obtain ⟨mid, hn, hs⟩ := hs
    obtain ⟨hok, rfl⟩ := Prod.mk.inj hn
    have hnext : l.next = (.ok t, l.next.2) := Prod.ext hok rfl
    obtain ⟨bound, rfl⟩ := Nat.exists_eq_succ_of_ne_zero (Nat.ne_zero_of_lt hbound)
    have hshort : l.next.2.rest.length < bound := by
      rcases length_rest_next hnext with hlt | ⟨-, hend⟩
      · omega
      · exact absurd hend hk
    exact readUpTo_succ hnext hk (ih hts hs hshort)

/-- A text whose tokens end in the end token. Its line is the last one of the text. -/
theorem tokenize_of_supplies {source : String} {line : Nat}
    (hts : ∀ t ∈ ts, t.kind ≠ .endOfInput)
    (hs : (TokenSource.ofText source).Supplies ts (.text m))
    (hend : m.next.1 = .ok (.endOfInput line)) :
    tokenize source = .ok (ts ++ [.endOfInput (1 + lineFeeds source.toList : Nat)]) := by
  have hread : tokenize source = verdict ts line [] :=
    readUpTo_of_supplies hts hs (Nat.lt_succ_self _) fun _ => readUpTo_of_last (congrArg _ hend)
  obtain ⟨us, consumed, rest, hsplit, -, hverdict⟩ := exists_tokenize source
  cases rest with
  | nil =>
    obtain ⟨rfl, -⟩ := List.append_inj' (Except.ok.inj (hread.symm.trans hverdict)) rfl
    rw [hsplit, List.append_nil]
    exact hverdict
  | cons c more => cases hread.symm.trans hverdict

theorem tokenize_of_supplies_error {source : String} {line : Nat}
    (hts : ∀ t ∈ ts, t.kind ≠ .endOfInput)
    (hs : (TokenSource.ofText source).Supplies ts (.text m))
    (hend : m.next.1 = .error (.unknownCharacter c line)) :
    tokenize source = .error (.unknownCharacter c line) := by
  have hread : tokenize source = verdict ts line [c] :=
    readUpTo_of_supplies hts hs (Nat.lt_succ_self _) fun _ => readUpTo_of_last (congrArg _ hend)
  exact hread

/-! ## Gaps in front of a text -/

/-- Blanks and comments, each of which ends with its line feed. -/
inductive IsClosedGap : List Char → Prop
  | nil : IsClosedGap []
  | blank {c : Char} {gap : List Char} : Text.isBlank c → IsClosedGap gap → IsClosedGap (c :: gap)
  | comment {body gap : List Char} : '\n' ∉ body → IsClosedGap gap →
    IsClosedGap ('-' :: '-' :: (body ++ '\n' :: gap))

theorem isClosedGap_of_blank (h : ∀ c ∈ gap, Text.isBlank c) : IsClosedGap gap := by
  induction gap with
  | nil => exact .nil
  | cons c gap ih =>
    obtain ⟨hc, hgap⟩ := List.forall_mem_cons.mp h
    exact .blank hc (ih hgap)

/-- A gap that is closed goes on with the gap behind it. -/
theorem IsClosedGap.gapLength_append (h : IsClosedGap gap) (rest : List Char) :
    gapLength false (gap ++ rest) = gap.length + gapLength false rest := by
  induction h with
  | nil => exact (Nat.zero_add _).symm
  | blank hc _ ih =>
    rw [List.cons_append, gapLength_blank hc, ih, List.length_cons]
    omega
  | @comment body gap hbody _ ih =>
    have hend : ∀ c ∈ ('\n' :: (gap ++ rest)).head?, c = '\n' := fun c hc =>
      (Option.some.inj hc).symm
    rw [List.cons_append, List.cons_append, List.append_assoc, List.cons_append, gapLength_comment,
      gapLength_body hbody hend, gapLength_blank isBlank_lineFeed, ih]
    simp only [List.length_cons, List.length_append]
    omega

theorem advance_advance (l : Lexer) (d d' : Nat) :
    (l.advance d).advance d' = l.advance (d + d') := by
  simp only [advance, List.drop_drop, List.take_add, lineFeeds_append, Nat.add_assoc]

/-- A closed gap is skipped first. -/
theorem next_of_isClosedGap (hready : l.stopped = false) (hrest : l.rest = gap ++ rest)
    (hgap : IsClosedGap gap) : l.next = (l.advance gap.length).next := by
  have hrest' : (l.advance gap.length).rest = rest := by
    rw [advance, hrest, List.drop_left]
  rw [next_of_ready hready, next_of_ready (l := l.advance gap.length) hready, skipGap, skipGap,
    hrest', advance_advance, hrest, hgap.gapLength_append]

end Lexer

end ProcLang
