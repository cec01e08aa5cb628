import ProcLang.Proofs.Closings
import ProcLang.Proofs.Faults
import ProcLang.Proofs.Patterns

/-!
# Closing names

Behind the word that ends a procedure stands its name. In a text, a token of any other kind never
spells a name, so if the token there is not the closing name the analysis says so
(`Analysis.wrongClosingName_reported`). There is one exception: the end token has a lexeme of its
own, and for a procedure of that name a missing closing name is reported as an unexpected token
(`Analysis.missingClosingName_eof`).
-/

namespace ProcLang

/-- The token is the closing name of the procedure with the name. -/
def Token.Closes (t : Token) (name : String) : Prop :=
  t.kind = .identifier ∧ Text.lower t.lexeme = Text.lower name

instance (t : Token) (name : String) : Decidable (t.Closes name) :=
  inferInstanceAs (Decidable (_ ∧ _))

/-! ## What spells a name -/

section Spelling

variable {lexeme name : List Char} {k : Kind} {c : Char} {t u : Token}

/-- In lower case a name begins with a small letter. -/
theorem exists_lower_of_isName (h : IsName name) :
    ∃ c rest, (Text.lower (String.ofList name)).toList = c :: rest ∧ c.isLower := by
  have hascii := h.toNat_lt
  obtain ⟨c, rest, rfl, hc, -⟩ := h
  refine ⟨c.toLower, rest.map Char.toLower, ?_, ?_⟩
  · rw [Text.lower_ofList hascii, String.toList_ofList, List.map_cons]
  · have hall : ∀ n < 0x80, (Char.ofNat n).isAlpha → (Char.ofNat n).toLower.isLower := by decide
    have hlower := hall c.toNat (toNat_lt_of_isAlpha hc)
    rw [Char.ofNat_toNat] at hlower
    exact hlower hc

/-- In lower case a numeral begins with a digit. -/
theorem exists_lower_of_isNumeral (h : Numeral.IsNumeral lexeme) :
    ∃ c rest, (Text.lower (String.ofList lexeme)).toList = c :: rest ∧ c.isDigit := by
  obtain ⟨c, rest, rfl, hc⟩ := exists_isDigit_of_isNumeral h
  refine ⟨c.toLower, rest.map Char.toLower, ?_, ?_⟩
  · rw [Text.lower_ofList fun d hd => toNat_lt_of_isNumeral h hd, String.toList_ofList,
      List.map_cons]
  · obtain ⟨d, hd, rfl⟩ := Numeral.eq_digitChar_of_isDigit hc
    have hall : ∀ d < 10, (Nat.digitChar d).toLower.isDigit := by decide
    exact hall d hd

theorem not_isLower_of_symbol {s : String} {rest : List Char} (hk : k ∈ Kind.all)
    (hs : s ∈ k.symbols) (hc : (Text.lower s).toList = c :: rest) : ¬ c.isLower := by
  have hall : ∀ k ∈ Kind.all, ∀ s ∈ k.symbols,
      ¬ (Text.lowerAfter [] s.toList).any Char.isLower := by decide
  rw [Text.lower, String.toList_ofList] at hc
  intro hlower
  exact hall k hk s hs (by rw [hc, List.any_cons, hlower, Bool.true_or])

/-- Only a name spells a name, whether in upper or in lower case. -/
theorem HasKind.eq_identifier (h : HasKind lexeme k) (hname : HasKind name .identifier)
    (hlower : Text.lower (String.ofList lexeme) = Text.lower (String.ofList name)) :
    k = .identifier := by
  have hfits : IsName name := by
    cases hname with
    | reserved hfits => exact hfits
    | pattern hfits => exact hfits
  obtain ⟨c, rest, hc, hsmall⟩ := exists_lower_of_isName hfits
  rw [← hlower] at hc
  cases h with
  | reserved _ hw => exact absurd hlower (hname.not_reserved _ hw)
  | pattern hfits _ =>
    cases k
    case identifier => rfl
    case number =>
      obtain ⟨d, rest', hd, hdigit⟩ := exists_lower_of_isNumeral hfits
      obtain ⟨rfl, -⟩ := List.cons.inj (hc.symm.trans hd)
      have hall : ∀ n < 10, ¬ (Nat.digitChar n).isLower := by decide
      obtain ⟨n, hn, rfl⟩ := Numeral.eq_digitChar_of_isDigit hdigit
      exact absurd hsmall (hall n hn)
    all_goals
      obtain ⟨s, hs, rfl⟩ := hfits
      rw [String.ofList_toList] at hc
      exact absurd hsmall (not_isLower_of_symbol (Kind.mem_all _) hs hc)

theorem lower_endOfInput {line : Int} : Text.lower (Token.endOfInput line).lexeme = "eof" := by
  show Text.lower "EOF" = "eof"
  decide

/-- A token of a text that spells a name is one, or it is the end token. -/
theorem Token.IsScanned.closes_or (h : t.IsScanned) (hu : u.IsInner) (hk : u.kind = .identifier)
    (hlower : Text.lower t.lexeme = Text.lower u.lexeme) :
    t.Closes u.lexeme ∨ t.kind = .endOfInput ∧ Text.lower u.lexeme = "eof" := by
  have hname : HasKind u.lexeme.toList .identifier := by
    rcases hu.1.hasKind with ⟨line, rfl⟩ | hname
    · cases hk
    · exact hk ▸ hname
  rcases h.hasKind with ⟨line, rfl⟩ | hkind
  · exact Or.inr ⟨rfl, hlower.symm.trans lower_endOfInput⟩
  · refine Or.inl ⟨hkind.eq_identifier hname ?_, hlower⟩
    rwa [String.ofList_toList, String.ofList_toList]

end Spelling

namespace Analysis

variable {b b' s s' : State} {f : Frame} {rest : List Frame} {name outerName : String} {gs : List Goal}
  {n : Nat} {t : Token}

/-! ## Where a closing name is awaited -/

/-- The statements of a procedure, up to the word that ends it. -/
def statementPart (_ : String) : Analysis Unit := do
  expect .beginWord
  statements
  expect .endWord

/-- In the reading of a procedure from `s` on a procedure begins in `b`, and the word that ends it has
just been taken in `s'`. -/
abbrev AwaitsName (n : Nat) (s b : State) (name : String) (s' : State) : Prop :=
  Reaches statementPart n s b name s'

theorem AwaitsName.stands (hawaits : AwaitsName n s b' name s') (hn : s.budget ≤ n)
    (h : Before b outerName (.token .procedureWord :: .procedureName :: gs) rest s)
    (hp : s.pending = []) :
    ∃ names rest, Stands b ⟨name, names, [.closingName, .close]⟩ rest s' := by
  have hbody : ∀ name rest s, Before b name (Goal.procedure.drop 4) rest s → s.pending = [] →
      Ends (statementPart name) s
        (fun _ s' => ∃ names rest, Stands b ⟨name, names, [.closingName, .close]⟩ rest s')
        (Stops b) :=
    fun _ rest s h hp => (h.ends_untilClosingName hp).imp fun _ _ ⟨⟨names, h'⟩, _⟩ =>
      ⟨names, rest, h'⟩
  exact hawaits.of_ends hn h hp hbody

/-! ## What is said about it -/

theorem take_closingName {names : List String} :
    take [] (⟨name, names, .closingName :: gs⟩ :: rest) t =
      if Text.lower t.lexeme = Text.lower name then
        if t.kind = .identifier then .ok (⟨name, names, gs⟩ :: rest) else .error .unexpected
      else .error .otherClosingName := by
  have hmove : moveOf name t (.closingName :: gs) = _ := moveOf_cons_of_none rfl
  rw [Goal.move, Move.onKind] at hmove
  split
  · next hlower =>
    rw [if_pos hlower] at hmove
    split
    · next hk =>
      rw [if_pos hk] at hmove
      exact take_of_move (f := ⟨name, names, .closingName :: gs⟩) hmove
    · next hk =>
      rw [if_neg hk] at hmove
      exact take_of_refused hmove
  · next hlower =>
    rw [if_neg hlower] at hmove
    exact take_of_refused hmove

/-- What is reported where the closing name is missing. -/
theorem Reports.eq_of_closingName {names : List String} {d : Diagnostic}
    (h : Reports (⟨name, names, .closingName :: gs⟩ :: rest) t (.diagnostic d)) :
    d = if Text.lower t.lexeme = Text.lower name then .unexpected (.kind .identifier) t
      else .otherClosingName name t.line := by
  have hrefused : ∀ {r}, take [] (⟨name, names, .closingName :: gs⟩ :: rest) t = .error r →
      r = if Text.lower t.lexeme = Text.lower name then .unexpected else .otherClosingName := by
    intro r hr
    rw [take_closingName] at hr
    split at hr
    · next hlower =>
      split at hr
      · cases hr
      · cases hr
        rw [if_pos hlower]
    · next hlower =>
      cases hr
      rw [if_neg hlower]
  cases h with
  | @unexpected expected hr hexpected =>
    have hkinds : ∀ k ∈ expected.kinds, k = .identifier := by
      intro k hk
      obtain ⟨u, frames, rfl, -, hu⟩ := hexpected k hk
      rw [take_closingName] at hu
      split at hu
      · split at hu
        · next hname => exact hname
        · cases hu
      · cases hu
    split
    · cases expected with
      | kind k => rw [hkinds k List.mem_cons_self]
      | factor => cases hkinds .number List.mem_cons_self
      | typeMark => cases hkinds .integerWord List.mem_cons_self
    · next hlower =>
      have hr := hrefused hr
      rw [if_neg hlower] at hr
      cases hr
  | otherClosingName hframes hr =>
    obtain ⟨rfl, rfl⟩ := List.cons.inj hframes
    split
    · next hlower =>
      have hr := hrefused hr
      rw [if_pos hlower] at hr
      cases hr
    · rfl
  | undefined hr | duplicate hr =>
    have hr := hrefused hr
    split at hr <;> cases hr
  | unconsumed hframes => cases (List.cons.inj hframes).1

/-- In the analysis of a text a token behind the end of a procedure is taken as its closing name, or
the closing name is reported as missing there. Only for a procedure that is called like the end
token, and where that is the token, an unexpected token is reported. -/
theorem wrongClosingName_reported {text : String} {tracing : Bool}
    (hbegun : Begun (.ofSource (.ofText text) tracing) b)
    (h : AwaitsName (b.source.bound + 1) b b' name s) (ht : s.current = some t) :
    (t.Closes name →
      t :: s.matched <:+ (Outcome.ofSource (.ofText text) tracing).state.matched) ∧
    (¬ t.Closes name →
      (Outcome.ofSource (.ofText text) tracing).state.matched = s.matched ∧
      (Outcome.ofSource (.ofText text) tracing).state.current = some t ∧
      (Outcome.ofSource (.ofText text) tracing).failure = some (.diagnostic
        (if t.kind = .endOfInput ∧ Text.lower name = "eof" then .unexpected (.kind .identifier) t
          else .otherClosingName name t.line))) := by
  obtain ⟨names, rest, hstands⟩ :=
    h.stands b.budget_le hbegun.before hbegun.ready.pending
  obtain ⟨taken, hmatched, hsupply, htaken⟩ := hbegun.exists_taken hstands.reads ht
  have hscanned := (hsupply.of_text rfl).2
  have hclosing : Text.lower t.lexeme = Text.lower name →
      t.Closes name ∨ t.kind = .endOfInput ∧ Text.lower name = "eof" := by
    intro hlower
    have hsound := AllSound.of_scanned (fun u hu => hscanned u (List.mem_append_left _ hu)) htaken
    cases hsound with
    | base hgoals => rcases suffix_base_cases hgoals with hno | hno | hno <;> cases hno
    | inside hf =>
      obtain ⟨line, hinner⟩ := hf.name
      exact (hscanned t (by simp)).closes_or hinner rfl hlower
  constructor
  · rintro ⟨hk, hlower⟩
    have hstart := prefix_matched_of_take tracing hsupply htaken
      (take_closingName.trans ((if_pos hlower).trans (if_pos hk)))
    rw [hmatched, ← List.reverse_prefix, List.reverse_cons, List.reverse_reverse]
    exact hstart
  · intro hno
    obtain ⟨r, hr, hlate⟩ : ∃ r, take [] (⟨name, names, [.closingName, .close]⟩ :: rest) t =
        .error r ∧ ¬ r.isLate := by
      rw [take_closingName]
      split
      · next hlower => exact ⟨_, if_neg fun hk => hno ⟨hk, hlower⟩, by decide⟩
      · exact ⟨_, rfl, by decide⟩
    obtain ⟨d, hfailure, hreports, hall, hcurrent⟩ :=
      reports_of_refused tracing hsupply htaken hr hlate (by simp)
    refine ⟨?_, hcurrent, ?_⟩
    · rw [hmatched, ← hall, List.reverse_reverse]
    · rw [hfailure, hreports.eq_of_closingName]
      by_cases hlower : Text.lower t.lexeme = Text.lower name
      · rw [if_pos hlower, if_pos ((hclosing hlower).resolve_left hno)]
      · rw [if_neg hlower, if_neg]
        rintro ⟨hk, heof⟩
        obtain ⟨line, rfl⟩ := (hscanned t (by simp)).eq_endOfInput hk
        exact hlower (lower_endOfInput.trans heof.symm)

/-- A nested procedure has its closing name in upper case, and the one around it has that name
too. -/
theorem wrongClosingName_reported_outermost : ∃ b s,
    Begun (.ofSource (.ofText "procedure p is procedure q is begin end Q; begin end q;") false) b ∧
    AwaitsName (b.source.bound + 1) b b "p" s ∧ s.current = some ⟨.identifier, "q", 1⟩ ∧
    (Outcome.ofSource (.ofText "procedure p is procedure q is begin end Q; begin end q;")
      false).state.matched = s.matched ∧
    (Outcome.ofSource (.ofText "procedure p is procedure q is begin end Q; begin end q;")
      false).failure = some (.diagnostic (.otherClosingName "p" 1)) := by
  have hread : EStateM.run' (outermostUpTo statementPart) (.ofSource (.ofText
      "procedure p is procedure q is begin end Q; begin end q;") false) =
        some ("p", some ⟨.identifier, "q", 1⟩) := by decide +kernel
  obtain ⟨b, s, hbegun, hawaits, ht⟩ := exists_reaches hread
  obtain ⟨-, hwrong⟩ := wrongClosingName_reported hbegun hawaits ht
  obtain ⟨hmatched, -, hfailure⟩ := hwrong (by decide)
  exact ⟨b, s, hbegun, hawaits, ht, hmatched, hfailure⟩

/-- The end token is not the closing name of a procedure that is called like it, and still it is not
reported that the closing name is missing. -/
theorem missingClosingName_eof : ∃ b s,
    Begun (.ofSource (.ofText "procedure eof is begin end") false) b ∧
    AwaitsName (b.source.bound + 1) b b "eof" s ∧ s.current = some (.endOfInput 1) ∧
    ¬ (Token.endOfInput 1).Closes "eof" ∧
    (Outcome.ofSource (.ofText "procedure eof is begin end") false).failure ≠
      some (.diagnostic (.otherClosingName "eof" 1)) ∧
    (Outcome.ofSource (.ofText "procedure eof is begin end") false).failure =
      some (.diagnostic (.unexpected (.kind .identifier) (.endOfInput 1))) := by
  have hread : EStateM.run' (outermostUpTo statementPart) (.ofSource (.ofText
      "procedure eof is begin end") false) = some ("eof", some (.endOfInput 1)) := by
    decide +kernel
  obtain ⟨b, s, hbegun, hawaits, ht⟩ := exists_reaches hread
  exact ⟨b, s, hbegun, hawaits, ht, by decide, by decide +kernel, by decide +kernel⟩

end Analysis

end ProcLang
