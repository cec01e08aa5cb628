import ProcLang.Proofs.Language
import ProcLang.Proofs.OpenScopes
import ProcLang.Proofs.ScopeNeutral

/-!
# The faults of an analysis of a text

The only fault of an analysis of a text is a whole number that is too long as the value of a
constant. The value is looked for when the token behind the numeral has been read, so an unknown
character there is reported first.
-/

namespace ProcLang

/-! ## Tokens of a text -/

theorem kind_ne_endOfInput_of_lexeme? {cs lexeme : List Char} {kind : Kind}
    (h : Lexer.lexeme? cs = some (kind, lexeme)) : kind ≠ .endOfInput := by
  rcases Lexer.lexeme?_cases h with ⟨rfl, -⟩ | ⟨rfl, -⟩ | ⟨s, hs, -⟩
  · decide
  · rcases wordKind_cases lexeme with hk | hm
    · rw [hk]
      decide
    · have hall : ∀ w ∈ reservedWords, w.2 ≠ .endOfInput := by decide
      exact hall _ hm
  · have hall : ∀ p ∈ Lexer.symbols, p.1 ≠ .endOfInput := by decide
    exact hall _ hs

/-- Of the tokens of a text only the end tokens are of their kind. -/
theorem Token.IsScanned.eq_endOfInput {t : Token} (h : t.IsScanned) (hk : t.kind = .endOfInput) :
    ∃ line, t = .endOfInput line := by
  obtain ⟨l, l', h⟩ := h
  rcases Lexer.eq_of_next h with hline | ⟨cs, lexeme, hlexeme, -⟩
  · exact hline
  · exact absurd hk (kind_ne_endOfInput_of_lexeme? hlexeme)

/-- A token of a text that is taken is no end token. -/
theorem AllSound.isInner {frames frames' : List Frame} {outer : List String} {t : Token}
    (h : AllSound frames) (ht : t.IsScanned) (htake : ProcLang.take outer frames t = .ok frames') :
    t.IsInner := by
  refine ⟨ht, fun hk => ?_⟩
  obtain ⟨line, rfl⟩ := ht.eq_endOfInput hk
  obtain ⟨r, hr, -⟩ := h.take_endOfInput outer line
  cases htake.symm.trans hr

/-- Tokens of a text that are taken leave sound frames behind. -/
theorem AllSound.of_scanned {ts : List Token} {frames : List Frame} (hts : ∀ t ∈ ts, t.IsScanned)
    (h : ProcLang.takeAll [] [.base []] ts = .ok frames) : AllSound frames :=
  takeAll_invariant (fun hsound ht htake => hsound.take (hsound.isInner ht htake) htake)
    (.base List.suffix_rfl) hts h

namespace Lexer

theorem stopped_of_next {l l' : Lexer} {t : Token} (h : l.next = (.ok t, l')) :
    l'.stopped = false := by
  unfold next at h
  split at h
  · cases (Prod.mk.inj h).1
  · next hstopped =>
    have hskip : l.skipGap.stopped = false := by simpa [skipGap, advance] using hstopped
    unfold scan at h
    split at h
    · cases h
      exact hskip
    · split at h
      · cases h
        exact hskip
      · cases (Prod.mk.inj h).1

/-- A lexer that has not stopped can only find an unknown character. -/
theorem exists_unknownCharacter_of_next {l : Lexer} {e : ScanError} (hl : l.stopped = false)
    (h : l.next.1 = .error e) : ∃ c line, e = .unknownCharacter c line := by
  unfold next at h
  rw [if_neg (by simp [hl])] at h
  unfold scan at h
  split at h
  · cases h
  · split at h
    · cases h
    · cases h
      exact ⟨_, _, rfl⟩

end Lexer

namespace TokenSource

/-- A text supplies scanned tokens, and its lexer has not stopped behind them. -/
theorem Supplies.of_text {l : Lexer} {ts : List Token} {source' : TokenSource}
    (hl : l.stopped = false) (h : (text l).Supplies ts source') :
    (∃ l', source' = .text l' ∧ l'.stopped = false) ∧ ∀ t ∈ ts, t.IsScanned := by
  induction ts generalizing l with
  | nil => exact ⟨⟨l, h, hl⟩, fun _ hm => absurd hm List.not_mem_nil⟩
  | cons t ts ih =>
    obtain ⟨mid, hn, hts⟩ := h
    obtain ⟨hok, rfl⟩ := Prod.mk.inj hn
    have hnext : l.next = (.ok t, l.next.2) := Prod.ext hok rfl
    obtain ⟨hsource, hscanned⟩ := ih (Lexer.stopped_of_next hnext) hts
    exact ⟨hsource, List.forall_mem_cons.mpr ⟨⟨l, _, hnext⟩, hscanned⟩⟩

end TokenSource

/-! ## The place of a literal -/

/-- Where the value of a constant is to be read, its first tokens have just been taken. -/
inductive LiteralPlace : List Token → List Goal → Prop
  | none {taken : List Token} {gs : List Goal} : .literal ∉ gs → LiteralPlace taken gs
  | assign {before : List Token} {c : Token} {gs : List Goal} : c.kind = .constantWord →
    .literal ∉ gs → LiteralPlace (before ++ [c]) (.token .assign :: .literal :: gs)
  | value {before : List Token} {c a : Token} {gs : List Goal} : c.kind = .constantWord →
    a.kind = .assign → .literal ∉ gs → LiteralPlace (before ++ [c, a]) (.literal :: gs)

section Literal

variable {taken : List Token} {gs : List Goal} {name : String} {t : Token} {m : Move} {g : Goal}
  {f : Frame} {rest frames : List Frame}

/-- Only constants leave a literal to be read. -/
theorem Goal.literal_mem_move (h : g.move name t = .ok m) (hm : .literal ∈ m.goals) :
    g = .typeMark ∧ t.kind = .constantWord ∧ m = ⟨.read, [.token .assign, .literal]⟩ := by
  cases move_eq_ok_iff.mp h with
  | constant hk => exact ⟨rfl, hk, rfl⟩
  | _ => exact absurd hm (by decide)

theorem LiteralPlace.moveOf (h : LiteralPlace taken gs) (hm : moveOf name t gs = .ok m) :
    LiteralPlace (taken ++ [t]) m.goals := by
  cases h with
  | none hno =>
    refine moveOf_induction (P := (Goal.literal ∉ ·))
      (Q := fun m => LiteralPlace (taken ++ [t]) m.goals)
      (fun _ _ hno _ hm => hno (List.mem_cons_of_mem _ hm)) ?_ hno hm
    intro g gs m hno hmove
    have hgs : Goal.literal ∉ gs := fun hm => hno (List.mem_cons_of_mem _ hm)
    by_cases hmem : Goal.literal ∈ m.goals
    · obtain ⟨-, hk, rfl⟩ := Goal.literal_mem_move hmove hmem
      exact .assign hk hgs
    · exact .none fun hm => (List.mem_append.mp hm).elim hmem hgs
  | @assign before c gs hc hno =>
    obtain ⟨m, hmove, rfl⟩ := exists_move_of_moveOf (Goal.passesOn_of_none rfl _) hm
    cases Goal.move_eq_ok_iff.mp hmove with
    | token hk =>
      rw [List.append_assoc]
      exact .value hc hk hno
  | @value before c a gs hc ha hno =>
    obtain ⟨m, hmove, rfl⟩ := exists_move_of_moveOf (Goal.passesOn_of_none rfl _) hm
    cases Goal.move_eq_ok_iff.mp hmove with
    | literal => exact .none hno

/-- A token of a name leaves no literal to be read next. -/
theorem LiteralPlace.not_mem_of_identifier (h : LiteralPlace (taken ++ [t]) gs)
    (hk : t.kind = .identifier) : .literal ∉ gs := by
  generalize heq : taken ++ [t] = all at h
  cases h with
  | none hno => exact hno
  | assign hc =>
    obtain ⟨-, h⟩ := List.append_inj' heq rfl
    cases h
    cases hk.symm.trans hc
  | @value before c a gs hc ha =>
    have heq : taken ++ [t] = (before ++ [c]) ++ [a] := by rw [heq, List.append_assoc]; rfl
    obtain ⟨-, h⟩ := List.append_inj' heq rfl
    cases h
    cases hk.symm.trans ha

/-- Outside the innermost procedure no literal is to be read. -/
theorem literalPlace_of_takeAll (h : takeAll [] [.base []] taken = .ok frames) :
    (∀ f rest, frames = f :: rest → LiteralPlace taken f.goals) ∧
      ∀ g ∈ frames.tail, Goal.literal ∉ g.goals := by
  induction taken using List.reverseRecOn generalizing frames with
  | nil =>
    cases h
    refine ⟨?_, fun _ hm => absurd hm List.not_mem_nil⟩
    rintro f rest heq
    cases heq
    exact .none (by simp [Frame.base])
  | append_singleton taken t ih =>
    obtain ⟨frames₁, htaken, htake⟩ := takeAll_append_eq_ok.mp h
    obtain ⟨frames₂, htake, hnil⟩ := takeAll_cons_eq_ok.mp htake
    cases hnil
    obtain ⟨hplace, htail⟩ := ih htaken
    cases frames₁ with
    | nil => cases htake
    | cons f rest =>
      obtain ⟨m, hm, hdeed⟩ := exists_move_of_take htake
      have hnext := (hplace f rest rfl).moveOf hm
      have hrest : ∀ g ∈ rest, Goal.literal ∉ g.goals := htail
      rcases Deed.eq_of_apply hdeed with ⟨-, rfl⟩ | ⟨-, names, rfl⟩ | ⟨henter, names, rfl⟩
      · refine ⟨?_, fun g hg => hrest g (List.mem_of_mem_tail hg)⟩
        rintro f' rest' rfl
        exact .none (hrest f' List.mem_cons_self)
      · refine ⟨?_, hrest⟩
        rintro f' rest' heq
        cases heq
        exact hnext
      · refine ⟨?_, List.forall_mem_cons.mpr ⟨?_, hrest⟩⟩
        · rintro f' rest' heq
          cases heq
          exact .none (by simp [Frame.opened, Goal.procedure])
        · exact hnext.not_mem_of_identifier (kind_of_moveOf hm (Or.inr henter))

/-- The word for constants is taken where a type mark is to be read. -/
theorem exists_literal_of_moveOf (hsound : ∀ g ∈ gs, g.IsSound) (ht : t.IsInner)
    (hk : t.kind = .constantWord) (hm : moveOf name t gs = .ok m) :
    ∃ gs', m = ⟨.read, .token .assign :: .literal :: gs'⟩ := by
  refine moveOf_induction (P := fun gs => ∀ g ∈ gs, g.IsSound)
    (Q := fun m => ∃ gs', m = ⟨.read, .token .assign :: .literal :: gs'⟩)
    (fun _ _ h _ g hg => h g (List.mem_cons_of_mem _ hg)) ?_ hsound hm
  intro g gs m hsound hmove
  have hmode : Analysis.modeOfWord? t.lexeme = none := by
    by_contra hsome
    obtain ⟨mode, hmode⟩ := Option.ne_none_iff_exists'.mp hsome
    have hword := ((ht.1.plain ht.2).mode mode).mp hmode
    rw [hk] at hword
    cases mode <;> cases hword
  cases Goal.move_eq_ok_iff.mp hmove with
  | constant => exact ⟨gs, rfl⟩
  | token h =>
    have hfixed : t.kind ∈ fixedKinds := h ▸ hsound _ List.mem_cons_self
    rw [hk] at hfixed
    exact absurd hfixed (by decide)
  | mode hsome =>
    rw [hmode] at hsome
    cases hsome
  | primitive htype =>
    rw [hk] at htype
    cases htype
  | _ => simp_all

/-- Behind the first tokens of a constant its value is to be read. -/
theorem exists_literal_of_takeAll {before : List Token} {c a : Token}
    (hscanned : ∀ t ∈ before ++ [c, a], t.IsScanned) (hc : c.kind = .constantWord)
    (ha : a.kind = .assign) (h : takeAll [] [.base []] (before ++ [c, a]) = .ok frames) :
    ∃ f rest gs, frames = f :: rest ∧ f.goals = .literal :: gs := by
  obtain ⟨frames₁, hbefore, h⟩ := takeAll_append_eq_ok.mp h
  obtain ⟨frames₂, hc', h⟩ := takeAll_cons_eq_ok.mp h
  obtain ⟨frames₃, ha', h⟩ := takeAll_cons_eq_ok.mp h
  cases h
  have hsound := AllSound.of_scanned (fun t ht => hscanned t (List.mem_append_left _ ht)) hbefore
  have hinner : c.IsInner := hsound.isInner (hscanned c (by simp)) hc'
  cases frames₁ with
  | nil => cases hc'
  | cons f rest =>
    obtain ⟨m, hm, hdeed⟩ := exists_move_of_take hc'
    obtain ⟨gs, rfl⟩ := exists_literal_of_moveOf hsound.goal_isSound hinner hc hm
    cases hdeed
    have hmove : ProcLang.moveOf f.name a (.token .assign :: .literal :: gs) =
        .ok ⟨.read, .literal :: gs⟩ := (Goal.Moves.token ha).moveOf_eq
    cases (take_of_move hmove).symm.trans ha'
    exact ⟨_, rest, gs, rfl, rfl⟩

end Literal

namespace Analysis

variable {source : TokenSource} {tracing : Bool} {taken : List Token} {frames : List Frame}
  {e : Failure} {s : State} {t : Token}

/-! ## What a run has taken when it ends -/

/-- The failure of a run and the tokens that it has taken. -/
inductive Fails (source : TokenSource) : Failure → List Token → Prop
  /-- There is no first token. -/
  | empty {err : ScanError} {source' : TokenSource} : source.next = (.error err, source') →
    Fails source (.ofScanError err) []
  /-- Something is wrong with the token that is looked at. -/
  | looked {taken : List Token} {frames : List Frame} {d : Diagnostic} :
    takeAll [] [.base []] taken = .ok frames → Fails source (.diagnostic d) taken
  /-- There is no token behind the last one taken. -/
  | breaks {taken : List Token} {frames : List Frame} {t : Token} {mid source' : TokenSource}
      {err : ScanError} :
    takeAll [] [.base []] taken = .ok frames → source.Supplies (taken ++ [t]) mid →
    mid.next = (.error err, source') →
    Fails source (.ofScanError err) (taken ++ [t])
  /-- The last token taken is a name that is declared already. -/
  | duplicate {taken : List Token} {frames : List Frame} {t : Token} {d : Diagnostic} :
    takeAll [] [.base []] taken = .ok frames → take [] frames t = .error .duplicate →
    Fails source (.diagnostic d) (taken ++ [t])
  /-- The last token taken is a numeral without a value, and there is a token behind it. -/
  | numeral {taken : List Token} {frames : List Frame} {t u : Token} {source' : TokenSource}
      {err : Numeral.NumeralError} :
    takeAll [] [.base []] taken = .ok frames → take [] frames t = .error .noValue →
    source.Supplies (taken ++ [t, u]) source' → Fails source (.fault (.numeral err)) (taken ++ [t])

theorem ends_fails (source : TokenSource) (tracing : Bool) :
    Ends analyze (.ofSource source tracing)
      (fun _ s => ∃ frames, takeAll [] [.base []] s.matched.reverse = .ok frames)
      (fun e s => Fails source e s.matched.reverse) := by
  refine (ends_halts source tracing).mono ?_ ?_
  · intro _ s h
    generalize s.matched.reverse = taken, s.current = current at h ⊢
    cases h with
    | succeeds htaken => exact ⟨_, htaken⟩
  · intro e s h
    generalize s.matched.reverse = taken, s.current = current at h ⊢
    cases h with
    | noToken hn => exact .empty hn
    | looked htaken => exact .looked htaken
    | breaks htaken hsupply _ hn => exact .breaks htaken hsupply hn
    | @read _ _ t _ _ _ _ _ htaken hsupply hn hreports hr hlate he =>
      cases hreports with
      | duplicate hr => exact .duplicate htaken hr
      | numeral hr =>
        have hboth := hsupply.concat hn
        rw [List.append_assoc] at hboth
        exact .numeral htaken hr hboth
      | _ => simp at he

/-! ## Faults -/

/-- The run has taken the first tokens of a constant with a whole number that is too long, and the
source supplies a token behind it. -/
def ReadsLongConstant (source : TokenSource) (o : Outcome) : Prop :=
  ∃ before c a n u behind source', o.state.matched.reverse = before ++ c :: a :: n :: behind ∧
    c.kind = .constantWord ∧ a.kind = .assign ∧ n.IsLongNumber ∧
    source.Supplies (before ++ [c, a, n, u]) source'

theorem take_literal {f : Frame} {rest : List Frame} {gs : List Goal}
    (hf : f.goals = .literal :: gs)
    (ht : t.IsScanned) (hlong : t.IsLongNumber) : take [] (f :: rest) t = .error .noValue := by
  refine take_of_refused ?_
  rw [hf, moveOf_cons_of_none rfl, Goal.move,
    if_pos ⟨hlong.1, (ht.isLongNumber_iff hlong.1).mp hlong⟩]
  rfl

/-- The value of a constant is asked for behind its first tokens. -/
theorem exists_constant_of_take (htaken : takeAll [] [.base []] taken = .ok frames)
    (ht : take [] frames t = .error .noValue) :
    ∃ before c a, taken = before ++ [c, a] ∧ c.kind = .constantWord ∧ a.kind = .assign := by
  cases frames with
  | nil => cases ht
  | cons f rest =>
    have hmove := moveOf_of_take_noValue ht
    generalize hgoals : f.goals = gs at hmove
    have hplace := (literalPlace_of_takeAll htaken).1 f rest rfl
    rw [hgoals] at hplace
    cases hplace with
    | none hno => exact absurd (literal_mem_of_moveOf hmove).1 hno
    | assign hc hno =>
      rw [moveOf_cons_of_none rfl, Goal.move, Move.onKind] at hmove
      split at hmove <;> cases hmove
    | value hc ha hno => exact ⟨_, _, _, rfl, hc, ha⟩

/-- A text never makes its source fail for another reason than an unknown character. -/
theorem Fails.cases_of_text {text : String} {ts : List Token}
    (h : Fails (.ofText text) e ts) :
    (∃ d, e = .diagnostic d) ∨ ∃ err, e = .fault (.numeral err) := by
  have hscan : ∀ us {mid source' err}, (TokenSource.ofText text).Supplies us mid →
      mid.next = (.error err, source') → ∃ d, Failure.ofScanError err = .diagnostic d := by
    intro us mid source' err hs hn
    obtain ⟨⟨l, rfl, hl⟩, -⟩ := hs.of_text rfl
    obtain ⟨c, line, rfl⟩ := Lexer.exists_unknownCharacter_of_next hl (Prod.mk.inj hn).1
    exact ⟨_, rfl⟩
  cases h with
  | empty hn => exact Or.inl (hscan [] rfl hn)
  | looked | duplicate => exact Or.inl ⟨_, rfl⟩
  | breaks _ hs hn => exact Or.inl (hscan _ hs hn)
  | numeral => exact Or.inr ⟨_, rfl⟩

theorem Fails.readsLongConstant {text : String} {err : Numeral.NumeralError} {o : Outcome}
    (h : Fails (.ofText text) (.fault (.numeral err)) o.state.matched.reverse) :
    ReadsLongConstant (.ofText text) o := by
  generalize he : Failure.fault (.numeral err) = e at h
  generalize hall : o.state.matched.reverse = all at h
  cases h with
  | @empty err' | @breaks _ _ _ _ _ err' => cases err' <;> cases he
  | looked | duplicate => cases he
  | @numeral taken frames t u source' _ htaken ht hs =>
    obtain ⟨before, c, a, rfl, hc, ha⟩ := exists_constant_of_take htaken ht
    have hscanned := (hs.of_text rfl).2 t (by simp)
    refine ⟨before, c, a, t, u, [], source', ?_, hc, ha, isLongNumber_of_take hscanned ht, ?_⟩
    · rw [hall, List.append_assoc]
      rfl
    · rwa [List.append_assoc] at hs

section LongConstant

variable {text : String} {before behind : List Token} {c a n u : Token} {source' : TokenSource}

theorem take_longConstant
    (hs : (TokenSource.ofText text).Supplies (before ++ [c, a, n, u]) source')
    (hc : c.kind = .constantWord) (ha : a.kind = .assign) (hlong : n.IsLongNumber)
    (h : takeAll [] [.base []] (before ++ [c, a]) = .ok frames) :
    take [] frames n = .error .noValue := by
  have hscanned := (hs.of_text rfl).2
  obtain ⟨f, rest, gs, rfl, hf⟩ := exists_literal_of_takeAll
    (fun t ht => hscanned t (by simp at ht ⊢; tauto)) hc ha h
  exact take_literal hf (hscanned n (by simp)) hlong

theorem not_takeAll_of_longConstant
    (hs : (TokenSource.ofText text).Supplies (before ++ [c, a, n, u]) source')
    (hc : c.kind = .constantWord) (ha : a.kind = .assign) (hlong : n.IsLongNumber)
    (behind : List Token) (frames : List Frame) :
    takeAll [] [.base []] (before ++ c :: a :: n :: behind) ≠ .ok frames := by
  intro h
  rw [show before ++ c :: a :: n :: behind = (before ++ [c, a]) ++ n :: behind by simp] at h
  obtain ⟨frames₁, frames₂, htaken, hn⟩ := exists_take_of_takeAll h
  cases (take_longConstant hs hc ha hlong htaken).symm.trans hn

/-- A run that has taken the numeral, and whose source has a token behind it, fails there. -/
theorem Fails.eq_numeral (h : Fails (.ofText text) e (before ++ c :: a :: n :: behind))
    (hs : (TokenSource.ofText text).Supplies (before ++ [c, a, n, u]) source')
    (hc : c.kind = .constantWord) (ha : a.kind = .assign) (hlong : n.IsLongNumber) :
    ∃ err, e = .fault (.numeral err) := by
  have hno := not_takeAll_of_longConstant hs hc ha hlong
  -- nothing has been taken behind the numeral
  have hlast : ∀ {taken frames t}, before ++ c :: a :: n :: behind = taken ++ [t] →
      takeAll [] [.base []] taken = .ok frames → taken = before ++ [c, a] ∧ t = n := by
    intro taken frames t heq htaken
    rcases List.eq_nil_or_concat behind with rfl | ⟨behind, x, rfl⟩
    · rw [show before ++ [c, a, n] = (before ++ [c, a]) ++ [n] by simp] at heq
      obtain ⟨rfl, hn⟩ := List.append_inj' heq rfl
      exact ⟨rfl, (List.singleton_inj.mp hn).symm⟩
    · rw [List.concat_eq_append, ← List.cons_append, ← List.cons_append, ← List.cons_append,
        ← List.append_assoc] at heq
      obtain ⟨rfl, -⟩ := List.append_inj' heq rfl
      exact absurd htaken (hno behind _)
  generalize hall : before ++ c :: a :: n :: behind = all at h
  cases h with
  | empty => cases before <;> cases hall
  | looked htaken => exact absurd (hall ▸ htaken) (hno behind _)
  | breaks htaken hs' hn =>
    obtain ⟨rfl, ht⟩ := hlast hall htaken
    rw [ht] at hs'
    have hmore :
        (TokenSource.ofText text).Supplies ((before ++ [c, a] ++ [n]) ++ u :: []) source' := by
      simpa using hs
    obtain ⟨next, hn'⟩ := hmore.exists_next hs'
    cases (Prod.mk.inj (hn.symm.trans hn')).1
  | duplicate htaken ht =>
    obtain ⟨rfl, rfl⟩ := hlast hall htaken
    cases (take_longConstant hs hc ha hlong htaken).symm.trans ht
  | numeral => exact ⟨_, rfl⟩

end LongConstant

/-- The declarations that a run leaves have rows. -/
theorem isShowable_of_mem_entries {sym : Symbol}
    (h : sym ∈ (Outcome.ofSource source tracing).entries) : sym.isShowable := by
  obtain ⟨added, hadds, hentries⟩ := exists_addsFunction source tracing
  obtain ⟨x, hx, rfl⟩ := List.mem_map.mp h
  rw [hentries] at hx
  exact Symbol.isShowable_of_func (hadds.2.2 x hx).kind

/-- The analysis of a text succeeds, or it gives a diagnostic, or it finds a whole number that is
too long. It does that exactly if it takes such a number as the value of a constant and the text has a
token behind it. The declarations that are left can be shown. -/
theorem failures_of_text (text : String) (tracing : Bool) :
    ((Outcome.ofSource (.ofText text) tracing).failure = none ∨
      (∃ d, (Outcome.ofSource (.ofText text) tracing).failure = some (.diagnostic d)) ∨
      ∃ err, (Outcome.ofSource (.ofText text) tracing).failure = some (.fault (.numeral err))) ∧
    ((∃ err, (Outcome.ofSource (.ofText text) tracing).failure = some (.fault (.numeral err))) ↔
      ReadsLongConstant (.ofText text) (Outcome.ofSource (.ofText text) tracing)) ∧
    ∀ sym ∈ (Outcome.ofSource (.ofText text) tracing).entries, sym.isShowable := by
  obtain ⟨hok, hbad⟩ := (ends_fails (.ofText text) tracing).outcome_ofSource
  refine ⟨?_, ?_, fun _ h => isShowable_of_mem_entries h⟩
  · cases hf : (Outcome.ofSource (.ofText text) tracing).failure with
    | none => exact Or.inl rfl
    | some e =>
      rcases (hbad e hf).cases_of_text with ⟨d, rfl⟩ | ⟨err, rfl⟩
      · exact Or.inr (Or.inl ⟨d, rfl⟩)
      · exact Or.inr (Or.inr ⟨err, rfl⟩)
  constructor
  · rintro ⟨err, hf⟩
    exact (hbad _ hf).readsLongConstant
  · rintro ⟨before, c, a, n, u, behind, source', hmatched, hc, ha, hlong, hsupply⟩
    have hno := not_takeAll_of_longConstant hsupply hc ha hlong
    cases hf : (Outcome.ofSource (.ofText text) tracing).failure with
    | none =>
      obtain ⟨frames, htaken⟩ := hok hf
      rw [hmatched] at htaken
      exact absurd htaken (hno behind frames)
    | some e =>
      have hfails := hbad e hf
      rw [hmatched] at hfails
      obtain ⟨err, rfl⟩ := hfails.eq_numeral hsupply hc ha hlong
      exact ⟨err, rfl⟩

end Analysis

end ProcLang
