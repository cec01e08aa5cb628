import ProcLang.Proofs.Language

/-!
# Honest expectations

A kind that frames welcome is welcome as a token of a text (`AllSound.exists_take_of_welcomes`). So
where a run stops at a token that is unexpected, a token of each kind that it names as expected could
stand there instead, and the run would succeed with some tokens behind it
(`Analysis.expected_can_follow`).
-/

namespace ProcLang

open Analysis (modeOfWord?)

/-! ## Tokens of texts in the place of others -/

namespace Goal

variable {g : Goal} {name : String} {names : List String} {t u : Token} {m m' : Move}

/-- Where the goal makes the move `m` with `u`, it makes `m'` with `t`, which is a token of a text and
of the same kind. If `t` is used it is the same name, and if it is declared it is not yet. -/
structure Replaces (g : Goal) (name : String) (names : List String) (u : Token) (m : Move)
    (t : Token) (m' : Move) : Prop where
  inner : t.IsInner
  kind : t.kind = u.kind
  move : g.move name t = .ok m'
  uses : m'.deed = .use → m.deed = .use ∧ t.lexeme = u.lexeme
  fresh : m'.deed = .declare ∨ m'.deed = .enter → t.lexeme ∉ names

/-- A goal that takes a token takes one of a text. -/
theorem exists_replaces (hsound : g.IsSound) (hmove : g.move name u = .ok m)
    (hplain : u.kind = .identifier ∨ modeOfWord? u.lexeme = none) (names : List String)
    (hname : g = .closingName → ∃ line, Token.IsInner ⟨.identifier, name, line⟩)
    (hused : m.deed = .use → ∃ line, Token.IsInner ⟨.identifier, u.lexeme, line⟩) :
    ∃ t m', g.Replaces name names u m t m' := by
  obtain ⟨n, hn⟩ := exists_longName_not_mem names
  -- any token of the kind is read
  have hread : ∀ {k deed goals}, u.kind = k → k ≠ .endOfInput →
      g.move name (.ofKind k) = .ok ⟨deed, goals⟩ → deed = .read ∨ deed = .leave →
      ∃ t m', g.Replaces name names u m t m' := by
    rintro k deed goals hk hne hmove (rfl | rfl)
    · exact ⟨_, _, isInner_ofKind hne, hk.symm, hmove, by simp, by simp⟩
    · exact ⟨_, _, isInner_ofKind hne, hk.symm, hmove, by simp, by simp⟩
  -- any name is declared that is not yet
  have hfresh : ∀ {deed goals}, u.kind = .identifier →
      g.move name ⟨.identifier, longName n, 1⟩ = .ok ⟨deed, goals⟩ → deed ≠ .use →
      ∃ t m', g.Replaces name names u m t m' :=
    fun hk hmove hdeed => ⟨_, _, isInner_longName n, hk.symm, hmove,
      fun h => absurd h hdeed, fun _ => hn⟩
  -- the name that is used is used
  have huse : ∀ {goals goals'}, m = ⟨.use, goals⟩ → u.kind = .identifier →
      (∀ line, g.move name ⟨.identifier, u.lexeme, line⟩ = .ok ⟨.use, goals'⟩) →
      ∃ t m', g.Replaces name names u m t m' := by
    rintro goals goals' rfl hk hmove
    obtain ⟨line, hinner⟩ := hused rfl
    exact ⟨_, _, hinner, hk.symm, hmove line, fun _ => ⟨rfl, rfl⟩, by simp⟩
  have hnewGroup : Goal.group.Moves name ⟨.identifier, longName n, 1⟩ ⟨.declare, restOfGroup⟩ :=
    .group (modeOfWord?_longName n) rfl
  cases move_eq_ok_iff.mp hmove with
  | @token k hk =>
    have hinner : k ≠ .endOfInput := by
      rintro rfl
      exact absurd hsound (by simp [IsSound, fixedKinds])
    exact hread hk hinner (Move.onKind_eq _ rfl) (Or.inl rfl)
  | procedureName hk | newName hk | locals hk => exact hfresh hk rfl (by decide)
  | arguments hk | moreGroups hk | endArguments hk | moreNames hk | procedures hk | moreFactors hk
  | moreTerms hk | number hk | parens hk | not hk | minus hk | constant hk =>
    exact hread hk (by decide) rfl (Or.inl rfl)
  | close hk => exact hread hk (by decide) rfl (Or.inr rfl)
  | statements hk | name hk => exact huse rfl hk fun _ => rfl
  | mode hmode =>
    have hk : u.kind = .identifier := hplain.resolve_right fun hnone => by simp [hnone] at hmode
    exact hfresh hk (move_eq_ok_iff.mpr hnewGroup) (by decide)
  | group _ hk => exact hfresh hk (move_eq_ok_iff.mpr hnewGroup) (by decide)
  | primitive htype =>
    have hne : u.kind ≠ .endOfInput := fun hk => by
      rw [hk] at htype
      cases htype
    exact hread rfl hne (move_eq_ok_iff.mpr (.primitive htype)) (Or.inl rfl)
  | literal hk =>
    exact hread hk (by decide) (move_eq_ok_iff.mpr (.literal rfl (by decide))) (Or.inl rfl)
  | closingName _ hk =>
    obtain ⟨line, hinner⟩ := hname rfl
    exact ⟨_, _, hinner, hk.symm, move_eq_ok_iff.mpr (.closingName rfl rfl), by simp, by simp⟩

/-- Goals that make a move leave it to one of them, which gets all tokens of the kind. -/
theorem exists_goal_of_moveOf {gs : List Goal} (h : moveOf name u gs = .ok m) :
    ∃ g ∈ gs, ∃ m₁, g.move name u = .ok m₁ ∧ m₁.deed = m.deed ∧
      ∀ t m₂, t.kind = u.kind → g.move name t = .ok m₂ →
        ∃ goals, moveOf name t gs = .ok ⟨m₂.deed, goals⟩ := by
  induction gs with
  | nil => cases h
  | cons g gs ih =>
    by_cases hpass : g.passesOn u.kind = true
    · rw [moveOf_cons_of_passesOn hpass] at h
      obtain ⟨g', hg', m₁, hm₁, hdeed, hall⟩ := ih h
      refine ⟨g', List.mem_cons_of_mem _ hg', m₁, hm₁, hdeed, fun t m₂ hk hm₂ => ?_⟩
      rw [moveOf_cons_of_passesOn (hk ▸ hpass)]
      exact hall t m₂ hk hm₂
    · have hno : g.passesOn u.kind = false := by simpa using hpass
      obtain ⟨m₁, hm, rfl⟩ := exists_move_of_moveOf hno h
      refine ⟨g, List.mem_cons_self, m₁, hm, rfl, fun t m₂ hk hm₂ => ⟨m₂.goals ++ gs, ?_⟩⟩
      rw [moveOf_cons (hk ▸ hno), hm₂]
      rfl

end Goal

/-! ## Frames -/

/-- The names of the frames are names of texts. -/
def AllNamed (frames : List Frame) : Prop :=
  ∀ f ∈ frames, ∀ y ∈ f.names, ∃ line, Token.IsInner ⟨.identifier, y, line⟩

section Frames

variable {frames frames' : List Frame} {t : Token} {ts : List Token} {k : Kind}

/-- A name of the frames is an old one, or it has been declared. -/
theorem Deed.mem_names_of_apply {deed : Deed} {outer : List String} {y z : String} {f g : Frame}
    {rest : List Frame} (h : deed.apply outer y f rest = .ok frames) (hg : g ∈ frames)
    (hz : z ∈ g.names) :
    (∃ f' ∈ f :: rest, z ∈ f'.names) ∨ z = y ∧ (deed = .declare ∨ deed = .enter) := by
  have hnew : ∀ {f' : Frame}, f'.names = f.names ++ [y] → z ∈ f'.names →
      (∃ f' ∈ f :: rest, z ∈ f'.names) ∨ z = y := by
    intro f' heq hz
    rw [heq] at hz
    rcases List.mem_append.mp hz with hz | hz
    · exact Or.inl ⟨f, List.mem_cons_self, hz⟩
    · exact Or.inr (List.mem_singleton.mp hz)
  cases deed with
  | read =>
    cases h
    exact Or.inl ⟨g, hg, hz⟩
  | leave =>
    cases h
    exact Or.inl ⟨g, List.mem_cons_of_mem _ hg, hz⟩
  | use =>
    rw [Deed.apply] at h
    split at h
    · cases h
      exact Or.inl ⟨g, hg, hz⟩
    · cases h
  | declare =>
    rw [Deed.apply] at h
    split at h
    · cases h
    · cases h
      rcases List.mem_cons.mp hg with rfl | hg
      · exact (hnew rfl hz).imp_right fun heq => ⟨heq, Or.inl rfl⟩
      · exact Or.inl ⟨g, List.mem_cons_of_mem _ hg, hz⟩
  | enter =>
    rw [Deed.apply] at h
    split at h
    · cases h
    · cases h
      rcases List.mem_cons.mp hg with rfl | hg
      · exact absurd hz List.not_mem_nil
      rcases List.mem_cons.mp hg with rfl | hg
      · exact (hnew rfl hz).imp_right fun heq => ⟨heq, Or.inr rfl⟩
      · exact Or.inl ⟨g, List.mem_cons_of_mem _ hg, hz⟩

theorem AllNamed.take (h : AllNamed frames) (ht : t.IsInner)
    (htake : take [] frames t = .ok frames') : AllNamed frames' := by
  cases frames with
  | nil => cases htake
  | cons f rest =>
    obtain ⟨m, hm, happly⟩ := exists_move_of_take htake
    intro g hg y hy
    rcases Deed.mem_names_of_apply happly hg hy with ⟨f', hf', hy⟩ | ⟨rfl, hdeed⟩
    · rcases List.mem_cons.mp hf' with rfl | hf'
      · exact h f List.mem_cons_self y hy
      · exact h f' (List.mem_cons_of_mem _ hf') y hy
    · obtain ⟨kind, lexeme, line⟩ := t
      obtain rfl : kind = .identifier := kind_of_moveOf hm hdeed
      exact ⟨line, ht⟩

theorem AllNamed.takeAll (h : AllNamed frames) (hts : ∀ t ∈ ts, t.IsInner)
    (htaken : takeAll [] frames ts = .ok frames') : AllNamed frames' :=
  takeAll_invariant (fun h ht htake => h.take ht htake) h hts htaken

/-- Frames take a token of a text of each kind that they welcome. -/
theorem AllSound.exists_take_of_welcomes (h : AllSound frames) (hnamed : AllNamed frames)
    (hk : Welcomes [] frames k) :
    ∃ t frames', t.IsInner ∧ t.kind = k ∧ ProcLang.take [] frames t = .ok frames' := by
  obtain ⟨u, frames₁, rfl, hplain, htake⟩ := hk
  cases frames with
  | nil => cases htake
  | cons f rest =>
    obtain ⟨m, hm, hdeed⟩ := exists_move_of_take htake
    obtain ⟨g, hg, m₁, hm₁, hdeed₁, hall⟩ := Goal.exists_goal_of_moveOf hm
    have hvisible : m.deed = .use → Visible [] (f :: rest) u.lexeme := by
      intro hd
      rw [hd, Deed.apply] at hdeed
      split at hdeed
      · next hv => exact Analysis.visible_congr (f := ⟨f.name, f.names, m.goals⟩) hv
      · cases hdeed
    -- no name closes the scope around the outermost procedure
    have hclosing : g = .closingName → ∃ line, Token.IsInner ⟨.identifier, f.name, line⟩ := by
      rintro rfl
      cases h with
      | base hgoals =>
        have hmem := hgoals.subset hg
        simp at hmem
      | inside hf => exact hf.name
    have hused : m₁.deed = .use → ∃ line, Token.IsInner ⟨.identifier, u.lexeme, line⟩ := by
      intro hd
      rcases hvisible (hdeed₁ ▸ hd) with hout | ⟨f', hf', hy⟩
      · exact absurd hout List.not_mem_nil
      · exact hnamed f' hf' _ hy
    obtain ⟨t, m₂, ht⟩ :=
      Goal.exists_replaces (h.goal_isSound g hg) hm₁ hplain f.names hclosing hused
    obtain ⟨goals, hmove⟩ := hall t m₂ ht.kind ht.move
    refine ⟨t, ?_⟩
    rw [take_of_move hmove]
    cases hd : m₂.deed with
    | read | leave => exact ⟨_, ht.inner, ht.kind, rfl⟩
    | use =>
      obtain ⟨huse, heq⟩ := ht.uses hd
      have hv := hvisible (hdeed₁ ▸ huse)
      exact ⟨_, ht.inner, ht.kind, if_pos (heq ▸ Analysis.visible_congr hv)⟩
    | declare => exact ⟨_, ht.inner, ht.kind, if_neg (ht.fresh (Or.inl hd))⟩
    | enter => exact ⟨_, ht.inner, ht.kind, if_neg (ht.fresh (Or.inr hd))⟩

end Frames

namespace Analysis

variable {ts before : List Token} {t : Token} {tracing : Bool} {expected : Expectation}
  {frames : List Frame} {o : Outcome} {line : Int} {e : Failure}

/-- The end token is not among the tokens before the one at which a run stops. -/
theorem StopsAt.isInner (h : StopsAt (ts ++ [.endOfInput line]) o before t frames e)
    (hts : ∀ u ∈ ts, u.IsInner) : ∀ u ∈ before, u.IsInner := by
  obtain ⟨behind, hsplit⟩ := h.split
  rcases List.prefix_concat_iff.mp ⟨t :: behind, hsplit.symm⟩ with rfl | hstart
  · simp at hsplit
  · exact fun u hu => hts u (hstart.subset hu)

/-- Tokens of texts that are taken can be continued to tokens on which a run succeeds. -/
theorem exists_succeeds_append (tracing : Bool) (hts : ∀ u ∈ ts, u.IsInner)
    (htaken : takeAll [] [.base []] ts = .ok frames) :
    ∃ more, (∀ u ∈ more, u.IsInner) ∧
      (Outcome.ofSource (.ofList (ts ++ more)) tracing).failure = none := by
  obtain ⟨more, hmore, hreadable⟩ := exists_readable_append hts htaken
  obtain ⟨line, last, hs⟩ := TokenSource.supplies_ofList (ts ++ more)
  refine ⟨more, hmore, (succeeds_iff_readable hs fun u hu => ?_).mpr hreadable⟩
  exact (List.mem_append.mp hu).elim (hts u) (hmore u)

/-- Where a run over tokens of texts stops at an unexpected token, that is the first one that it has
not taken. With a token of any of the expected kinds in its place, and some tokens behind that, the
run succeeds. -/
theorem expected_can_follow (hts : ∀ u ∈ ts, u.IsInner)
    (h : (Outcome.ofSource (.ofList ts) tracing).failure =
      some (.diagnostic (.unexpected expected t))) :
    ∃ line taken behind, ts ++ [.endOfInput line] = taken ++ t :: behind ∧
      (Outcome.ofSource (.ofList ts) tracing).state.matched = taken.reverse ∧
      (Outcome.ofSource (.ofList ts) tracing).state.current = some t ∧
      ∀ k ∈ expected.kinds, ∃ u more, u.IsInner ∧ u.kind = k ∧ (∀ v ∈ more, v.IsInner) ∧
        (Outcome.ofSource (.ofList (taken ++ u :: more)) tracing).failure = none := by
  obtain ⟨line, last, hs⟩ := TokenSource.supplies_ofList ts
  rcases run_verdict tracing hs hts with ⟨hf, -⟩ | ⟨taken, u, frames, e, hstops⟩
  · cases hf.symm.trans h
  obtain rfl : e = .diagnostic (.unexpected expected t) :=
    Option.some.inj (hstops.failure.symm.trans h)
  obtain ⟨behind, hsplit⟩ := hstops.split
  have hinner := hstops.isInner hts
  have hoffence := hstops.offence
  rw [Outcome.offence?, h] at hoffence
  obtain ⟨t', hcurrent, heq⟩ := Option.map_eq_some_iff.mp hoffence
  obtain ⟨htaken, rfl⟩ := Prod.mk.inj heq
  have hmatched : (Outcome.ofSource (.ofList ts) tracing).state.matched = taken.reverse := by
    rw [← htaken, List.reverse_reverse]
  have hbase : AllSound [.base []] := .base List.suffix_rfl
  have hnone : AllNamed [.base []] := by
    intro f hf y hy
    cases List.mem_singleton.mp hf
    exact absurd hy List.not_mem_nil
  have hreports := hstops.reports
  cases hreports with
  | unexpected _ hwelcome =>
    refine ⟨line, taken, behind, hsplit, hmatched, hcurrent, fun k hk => ?_⟩
    obtain ⟨u, frames', hu, hkind, htake⟩ :=
      (hbase.takeAll hinner hstops.taken).exists_take_of_welcomes
        (hnone.takeAll hinner hstops.taken) (hwelcome k hk)
    have hall : ∀ v ∈ taken ++ [u], v.IsInner :=
      List.forall_mem_append.mpr ⟨hinner, List.forall_mem_singleton.mpr hu⟩
    obtain ⟨more, hmore, hnoFailure⟩ :=
      exists_succeeds_append tracing hall ((takeAll_concat hstops.taken).trans htake)
    refine ⟨u, more, hu, hkind, hmore, ?_⟩
    rwa [List.append_assoc] at hnoFailure

/-- The beginning of a procedure that breaks off before the type of its parameter. -/
def lacksTypeMark : List Token :=
  [⟨.procedureWord, "procedure", 1⟩, ⟨.identifier, "p", 1⟩, ⟨.leftParen, "(", 1⟩,
   ⟨.identifier, "a", 1⟩, ⟨.colon, ":", 1⟩]

theorem expected_can_follow_lacksTypeMark :
    (Outcome.ofSource (.ofList lacksTypeMark) false).failure =
        some (.diagnostic (.unexpected .typeMark (.endOfInput 1))) ∧
      ∀ k ∈ [Kind.integerWord, .floatWord, .charWord, .constantWord], ∃ u more, u.kind = k ∧
        (Outcome.ofSource (.ofList (lacksTypeMark ++ u :: more)) false).failure = none := by
  have htext : Lexer.tokenize "procedure p ( a :" =
      .ok (lacksTypeMark ++ [.endOfInput 1]) := by decide +kernel
  have hkinds : ∀ t ∈ lacksTypeMark, t.kind ≠ .endOfInput := by decide
  have hfailure : (Outcome.ofSource (.ofList lacksTypeMark) false).failure =
      some (.diagnostic (.unexpected .typeMark (.endOfInput 1))) := by decide +kernel
  have hmatched : (Outcome.ofSource (.ofList lacksTypeMark) false).state.matched =
      lacksTypeMark.reverse := by decide +kernel
  obtain ⟨-, taken, -, -, htaken, -, hall⟩ := expected_can_follow
    (fun t ht => Token.isInner_of_tokenize htext (List.mem_append_left _ ht) (hkinds t ht)) hfailure
  obtain rfl : taken = lacksTypeMark := List.reverse_injective (htaken.symm.trans hmatched)
  refine ⟨hfailure, fun k hk => ?_⟩
  obtain ⟨u, more, -, hkind, -, hnone⟩ := hall k hk
  exact ⟨u, more, hkind, hnone⟩

end Analysis

end ProcLang
