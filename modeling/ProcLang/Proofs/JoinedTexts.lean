import ProcLang.Proofs.Places

/-!
# Two texts with a line feed between them

No lexeme and no comment reaches across a line feed. So a text that stands behind another one, on a
line of its own, is read as if it stood alone, but further down (`Lexer.tokenize_joined`).
-/

namespace ProcLang

namespace Lexer

open TokenSource (supplies_append)

variable {behind : List Char} {n : Nat} {l l' m : Lexer} {ts : List Token}

/-- Behind a whole text that is a gap a line feed ends the comment there may be. -/
theorem gapLength_lineFeed {cs : List Char} (h : gapLength false cs = cs.length)
    (behind : List Char) :
    gapLength false (cs ++ '\n' :: behind) = cs.length + 1 + gapLength false behind := by
  obtain ⟨inComment, hgap⟩ := exists_gapLength_append h
  have hone : gapLength inComment ('\n' :: behind) = gapLength false behind + 1 := by
    cases inComment with
    | true => rfl
    | false => exact gapLength_blank isBlank_lineFeed
  rw [hgap, hone]
  omega

/-- Where the first text is left with a gap, the second one is read on, from the next line. -/
theorem Continues.next_of_gap {below : String}
    (h : Continues ('\n' :: below.toList) n l l') (hgap : gapLength false l.rest = l.rest.length) :
    ∃ m, l'.next = m.next ∧ Continues [] (l.line + lineFeeds l.rest + n) (ofText below) m := by
  have hlength : (l.rest ++ ['\n']).length = l.rest.length + 1 := List.length_append
  have hsplit : l'.rest = (l.rest ++ ['\n']) ++ below.toList := by
    rw [h.rest, List.append_assoc, List.singleton_append]
  have hrest : (l'.advance (l.rest.length + 1)).rest = below.toList := by
    rw [Lexer.advance, hsplit, ← hlength, List.drop_left]
  refine ⟨l'.advance (l.rest.length + 1), ?_, rfl, h.ready', ?_, ?_⟩
  · rw [next_of_ready h.ready', next_of_ready (l := l'.advance _) h.ready', skipGap, skipGap, hrest,
      advance_advance, h.rest, gapLength_lineFeed hgap]
  · rw [hrest, List.append_nil]
    rfl
  · rw [Lexer.advance, hsplit, ← hlength, List.take_left, h.line, lineFeeds_append]
    show l.line + n + (lineFeeds l.rest + 1) = 1 + (l.line + lineFeeds l.rest + n)
    omega

/-- A text of which only a gap is left behind its tokens. -/
theorem tokenize_of_gap {source : String} (hts : ∀ t ∈ ts, t.kind ≠ .endOfInput)
    (hs : (TokenSource.ofText source).Supplies ts (.text m)) (hready : m.stopped = false)
    (hgap : gapLength false m.rest = m.rest.length) :
    tokenize source = .ok (ts ++ [.endOfInput (1 + lineFeeds source.toList : Nat)]) :=
  tokenize_of_supplies hts hs (next_of_gapLength hready hgap)

theorem lineFeeds_joined (above below : String) :
    lineFeeds (above ++ "\n" ++ below).toList =
      1 + lineFeeds above.toList + lineFeeds below.toList := by
  have hone : lineFeeds "\n".toList = 1 := by decide
  rw [String.toList_append, String.toList_append, lineFeeds_append, lineFeeds_append, hone,
    Nat.add_comm 1]

/-- A text in front of which another one has been read is read as alone, but further down. -/
theorem tokenize_of_continues {source below : String} {d : Nat}
    (hts : ∀ t ∈ ts, t.kind ≠ .endOfInput)
    (hs : (TokenSource.ofText source).Supplies ts (.text l)) (hnext : l.next = l'.next)
    (hbelow : Continues [] d (ofText below) l')
    (hlines : lineFeeds source.toList = d + lineFeeds below.toList) :
    (∀ us, tokenize below = .ok us → tokenize source = .ok (ts ++ us.map (Token.moved d))) ∧
      ∀ c line, tokenize below = .error (.unknownCharacter c line) →
        tokenize source = .error (.unknownCharacter c (line + d)) := by
  have hdetached : Detached [] := fun _ hc => by cases hc
  obtain ⟨vs, b, b', hb, hb', hvs, hend⟩ := hbelow.exists_supplies_upTo hdetached
  obtain ⟨b'', hb'', hsame⟩ := exists_supplies_of_next hnext hb'
  have hall := supplies_append.mpr ⟨_, hs, hb''⟩
  have hkinds : ∀ t ∈ ts ++ vs.map (Token.moved d), t.kind ≠ .endOfInput :=
    List.forall_mem_append.mpr ⟨hts, List.forall_mem_map.mpr hvs⟩
  rcases hend with ⟨c, line, hunknown, hunknown'⟩ | ⟨hcontinues, hgap⟩
  · have halone := tokenize_of_supplies_error hvs hb hunknown
    have hjoined := tokenize_of_supplies_error hkinds hall (hsame ▸ hunknown')
    refine ⟨fun us hus => ?_, fun c' line' herror => ?_⟩
    · cases halone.symm.trans hus
    · cases halone.symm.trans herror
      exact hjoined
  · have halone := tokenize_of_gap hvs hb hcontinues.ready hgap
    have hgap' : gapLength false b'.rest = b'.rest.length := by
      rw [hcontinues.rest, List.append_nil, hgap]
    have hjoined := tokenize_of_supplies hkinds hall
      (hsame ▸ next_of_gapLength hcontinues.ready' hgap')
    refine ⟨fun us hus => ?_, fun c' line' herror => ?_⟩
    · cases halone.symm.trans hus
      have hlast : (Token.endOfInput (1 + lineFeeds below.toList : Nat)).moved d =
          .endOfInput (1 + lineFeeds source.toList : Nat) := by
        rw [hlines]
        simp only [Token.moved, Token.endOfInput, Token.mk.injEq, true_and]
        omega
      rw [hjoined, List.map_append, List.map_singleton, hlast, List.append_assoc]
    · cases halone.symm.trans herror

/-- Two texts with a line feed between them are read one after the other, the second one as it is
read alone, but further down. What makes the first one fail, or else the second one, makes both fail
together. -/
theorem tokenize_joined (above below : String) :
    (∀ ts line, tokenize above = .ok (ts ++ [.endOfInput line]) →
      (∀ us, tokenize below = .ok us → tokenize (above ++ "\n" ++ below) =
        .ok (ts ++ us.map (Token.moved (1 + lineFeeds above.toList : Nat)))) ∧
      ∀ c l, tokenize below = .error (.unknownCharacter c l) →
        tokenize (above ++ "\n" ++ below) =
          .error (.unknownCharacter c (l + (1 + lineFeeds above.toList)))) ∧
      ∀ e, tokenize above = .error e → tokenize (above ++ "\n" ++ below) = .error e := by
  have hstart : Continues ('\n' :: below.toList) 0 (ofText above)
      (ofText (above ++ "\n" ++ below)) := by
    refine ⟨rfl, rfl, ?_, rfl⟩
    show (above ++ "\n" ++ below).toList = above.toList ++ '\n' :: below.toList
    rw [String.toList_append, String.toList_append, List.append_assoc]
    rfl
  have hdetached : Detached ('\n' :: below.toList) := fun c hc => by
    cases hc
    exact isBlank_lineFeed
  obtain ⟨ts, m, m', hs, hs', hts, hend⟩ := hstart.exists_supplies_upTo hdetached
  have hsame : ts.map (Token.moved (0 : Nat)) = ts := by
    exact (List.map_congr_left fun t _ => Token.moved_zero t).trans (List.map_id ts)
  rw [hsame] at hs'
  rcases hend with ⟨c, line, hunknown, hunknown'⟩ | ⟨hcontinues, hgap⟩
  · have halone := tokenize_of_supplies_error hts hs hunknown
    refine ⟨fun us line' hus => ?_, fun e he => ?_⟩
    · cases halone.symm.trans hus
    · cases halone.symm.trans he
      exact tokenize_of_supplies_error hts hs' hunknown'
  · have halone := tokenize_of_gap hts hs hcontinues.ready hgap
    refine ⟨fun us line' hus => ?_, fun e he => ?_⟩
    · obtain ⟨rfl, -⟩ := List.append_inj' (Except.ok.inj (halone.symm.trans hus)) rfl
      obtain ⟨read, hread⟩ := (HasRead.ofText above).supplies hs
      obtain ⟨l', hnext, hbelow⟩ := hcontinues.next_of_gap hgap
      rw [hread.line_add, Nat.add_zero] at hbelow
      exact tokenize_of_continues hts hs' hnext hbelow (lineFeeds_joined above below)
    · cases halone.symm.trans he

/-- The half of an operator and a comment end with the line. -/
theorem tokenize_joined_colon :
    tokenize "x : -- y" = .ok ([⟨.identifier, "x", 1⟩, ⟨.colon, ":", 1⟩] ++ [.endOfInput 1]) ∧
      tokenize "= 2" = .ok [⟨.relational, "=", 1⟩, ⟨.number, "2", 1⟩, .endOfInput 1] ∧
      tokenize ("x : -- y" ++ "\n" ++ "= 2") =
        .ok ([⟨.identifier, "x", 1⟩, ⟨.colon, ":", 1⟩] ++
          [⟨.relational, "=", 2⟩, ⟨.number, "2", 2⟩, .endOfInput 2]) ∧
      tokenize "= ?" = .error (.unknownCharacter '?' 1) ∧
      tokenize ("x : -- y" ++ "\n" ++ "= ?") = .error (.unknownCharacter '?' 2) ∧
      tokenize ("= ?" ++ "\n" ++ "= 2") = .error (.unknownCharacter '?' 1) := by
  have habove : tokenize "x : -- y" =
      .ok ([⟨.identifier, "x", 1⟩, ⟨.colon, ":", 1⟩] ++ [.endOfInput 1]) := by decide +kernel
  have hbelow : tokenize "= 2" =
      .ok [⟨.relational, "=", 1⟩, ⟨.number, "2", 1⟩, .endOfInput 1] := by decide +kernel
  have herror : tokenize "= ?" = .error (.unknownCharacter '?' 1) := by decide +kernel
  exact ⟨habove, hbelow, ((tokenize_joined _ _).1 _ _ habove).1 _ hbelow, herror,
    ((tokenize_joined _ _).1 _ _ habove).2 _ _ herror, (tokenize_joined _ _).2 _ herror⟩

end Lexer

end ProcLang
