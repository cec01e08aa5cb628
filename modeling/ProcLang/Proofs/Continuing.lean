import ProcLang.Proofs.Scanning

/-!
# Continuing what was read

Whatever tokens of texts have been taken, something can follow: there is always a token that is
taken next and leaves less to be read (`AllSound.exists_take`). So every list of tokens that is
taken can be continued to a procedure (`exists_readable_append`).
-/

namespace ProcLang

/-! ## Tokens of each kind -/

/-- The tokens can be read from a text, and there is one more behind them. -/
def Token.IsInner (t : Token) : Prop := t.IsScanned ∧ t.kind ≠ .endOfInput

theorem Token.isInner_of_tokenize {source : String} {ts : List Token} {t : Token}
    (h : Lexer.tokenize source = .ok ts) (hm : t ∈ ts) (hk : t.kind ≠ .endOfInput) : t.IsInner :=
  ⟨Lexer.isScanned_of_tokenize h hm, hk⟩

/-- The kinds of the tokens that a procedure without statements is made of, names left out. -/
def fixedKinds : List Kind :=
  [.procedureWord, .isWord, .beginWord, .endWord, .integerWord, .number, .assign, .rightParen,
   .semicolon, .colon]

/-- A text that is a token of the kind. -/
def Kind.sample : Kind → String
  | number => "0"
  | additive => "-"
  | multiplicative => "*"
  | relational => "="
  | k => k.spelling

/-- A token of the kind. -/
def Token.ofKind (k : Kind) : Token := ⟨k, k.sample, 1⟩

theorem isInner_ofKind {k : Kind} (h : k ≠ .endOfInput) : (Token.ofKind k).IsInner := by
  have hall : ∀ k ∈ Kind.all, k ≠ .endOfInput →
      (Lexer.ofText k.sample).next.1 = .ok (Token.ofKind k) := by decide
  exact ⟨⟨_, _, Prod.ext (hall k k.mem_all h) rfl⟩, h⟩

theorem lexeme?_replicate (n : Nat) :
    Lexer.lexeme? (List.replicate (n + 10) 'x') =
      some (.identifier, List.replicate (n + 10) 'x') := by
  have hnumber : Lexer.numberLength (List.replicate (n + 10) 'x') = 0 := rfl
  have hall : ∀ c ∈ List.replicate (n + 9) 'x', Lexer.isNameChar c := by
    intro c hm
    rw [List.eq_of_mem_replicate hm]
    decide
  have hname : Lexer.nameLength (List.replicate (n + 10) 'x') = n + 10 := by
    rw [List.replicate_succ, Lexer.nameLength, if_pos (by decide),
      List.takeWhile_eq_self_iff.mpr hall, List.length_replicate]
  have hword : wordKind (List.replicate (n + 10) 'x') = .identifier := by
    refine (wordKind_cases _).resolve_right fun hm => ?_
    have hshort : ∀ w ∈ reservedWords, w.1.length < 10 := by decide
    have hlt := hshort _ hm
    rw [String.length_ofList, List.length_map, List.length_replicate] at hlt
    omega
  unfold Lexer.lexeme? Lexer.lexemeClasses
  rw [List.find?_cons_of_neg (by simp [hnumber]), List.find?_cons_of_pos (by simp [hname])]
  simp only [Option.map_some, hname, Lexer.lexemeKind, if_true]
  rw [List.take_of_length_le (by simp), hword]

theorem scan_of_lexeme? {l : Lexer} {kind : Kind} {lexeme : List Char} (hne : l.rest ≠ [])
    (h : Lexer.lexeme? l.rest = some (kind, lexeme)) :
    l.scan.1 = .ok ⟨kind, String.ofList lexeme, l.line⟩ := by
  unfold Lexer.scan
  split
  · next hrest => exact absurd hrest hne
  · rw [h]

theorem isInner_longName (n : Nat) : Token.IsInner ⟨.identifier, longName n, 1⟩ := by
  let l : Lexer := ⟨List.replicate (n + 10) 'x', 0, 1, false⟩
  have hskip : l.skipGap = l := rfl
  refine ⟨⟨l, _, Prod.ext ?_ rfl⟩, nofun⟩
  rw [Lexer.next, if_neg Bool.false_ne_true, hskip]
  exact scan_of_lexeme? nofun (lexeme?_replicate n)

/-! ## The next goal -/

namespace Goal

/-- Tokens of fixed kinds only are goals. -/
def IsSound : Goal → Prop
  | token k => k ∈ fixedKinds
  | _ => True

/-- The kind that meets the first of the goals that must not be left out. -/
def lead : List Goal → Option Kind
  | [] => none
  | g :: gs => if g.start?.isSome then lead gs else g.wanted.head?

/-- A goal may be left out only where something must follow, which begins with another kind. -/
def Apart : List Goal → Prop
  | [] => True
  | g :: gs => g.IsSound ∧ (∀ k, g.start? = some k → ∃ k', lead gs = some k' ∧ k' ≠ k) ∧ Apart gs

/-- The number of tokens that the goal takes at least. -/
def weight : Goal → Nat
  | procedureName => 6
  | group => 3
  | g => if g.start?.isSome then 0 else 1

/-- The number of tokens that the goals take at least. -/
def weightOf (gs : List Goal) : Nat := (gs.map weight).sum

variable {g : Goal} {gs gs' : List Goal} {name : String} {t : Token} {k : Kind}

theorem weightOf_cons : weightOf (g :: gs) = g.weight + weightOf gs := List.sum_cons

theorem weightOf_append : weightOf (gs ++ gs') = weightOf gs + weightOf gs' := by
  unfold weightOf
  rw [List.map_append, List.sum_append]

theorem lead_cons_of_none (h : g.start? = none) : lead (g :: gs) = g.wanted.head? := by
  rw [lead, h]
  rfl

theorem lead_cons_of_some (h : g.start? = some k) : lead (g :: gs) = lead gs := by
  rw [lead, h]
  rfl

namespace Apart

theorem lead_mem (h : Apart gs) (hk : lead gs = some k) : k ∈ .identifier :: fixedKinds := by
  induction gs with
  | nil => cases hk
  | cons g gs ih =>
    cases hg : g.start? with
    | some k' =>
      rw [lead_cons_of_some hg] at hk
      exact ih h.2.2 hk
    | none =>
      rw [lead_cons_of_none hg] at hk
      have hsound := h.1
      cases g
      case token k' =>
        cases hk
        exact List.mem_cons_of_mem _ hsound
      all_goals cases hk <;> decide

theorem exists_lead (h : Apart gs) (hne : gs ≠ []) : ∃ k, lead gs = some k := by
  cases gs with
  | nil => exact absurd rfl hne
  | cons g gs =>
    cases hg : g.start? with
    | some k =>
      obtain ⟨k', hk', -⟩ := h.2.1 k hg
      exact ⟨k', (lead_cons_of_some hg).trans hk'⟩
    | none =>
      rw [lead_cons_of_none hg]
      cases g <;> first | exact ⟨_, rfl⟩ | cases hg

/-- A token that meets the first goal that must not be left out is taken by it. -/
theorem exists_first (h : Apart gs) (hk : lead gs = some k) :
    ∃ g gs', g ∈ gs ∧ g.IsSound ∧ g.start? = none ∧ g.wanted.head? = some k ∧
      weightOf (g :: gs') ≤ weightOf gs ∧
      ∀ name t, t.kind = k → moveOf name t gs = moveOf name t (g :: gs') := by
  induction gs with
  | nil => cases hk
  | cons g gs ih =>
    cases hg : g.start? with
    | none =>
      rw [lead_cons_of_none hg] at hk
      exact ⟨g, gs, List.mem_cons_self, h.1, hg, hk, Nat.le_refl _, fun _ _ _ => rfl⟩
    | some k₀ =>
      rw [lead_cons_of_some hg] at hk
      obtain ⟨k', hk', hne⟩ := h.2.1 k₀ hg
      cases hk.symm.trans hk'
      obtain ⟨g', gs', hm, hsound, hstart, hwanted, hweight, hmove⟩ := ih h.2.2 hk
      refine ⟨g', gs', List.mem_cons_of_mem _ hm, hsound, hstart, hwanted, ?_, ?_⟩
      · rw [weightOf_cons (g := g)]
        omega
      · rintro name t rfl
        rw [moveOf_cons_of_passesOn ((passesOn_eq_true hg).mpr hne)]
        exact hmove name t rfl

/-- What a goal leaves to be read is apart where the goal was. -/
theorem move (h : Apart (g :: gs)) {m : Move} (hm : g.move name t = .ok m) :
    Apart (m.goals ++ gs) := by
  obtain ⟨-, hstart, hgs⟩ := h
  have hfactors : ∀ k, g.start? = some k → ∃ k', lead gs = some k' ∧ k' ≠ .multiplicative := by
    intro k hk
    obtain ⟨k', hk', -⟩ := hstart k hk
    refine ⟨k', hk', ?_⟩
    rintro rfl
    exact absurd (hgs.lead_mem hk') (by decide)
  cases move_eq_ok_iff.mp hm <;>
    simp_all [Apart, IsSound, lead, start?, wanted, fixedKinds, restOfGroup, expression]

theorem moveOf (h : Apart gs) {m : Move} (hm : moveOf name t gs = .ok m) : Apart m.goals :=
  moveOf_induction (Q := fun m => Apart m.goals) (fun _ _ h _ => h.2.2)
    (fun _ _ _ h hm => h.move hm) h hm

end Apart

/-- The tokens that a deed leaves to be read beside the goals of its move. -/
def weightOfDeed : Deed → Nat
  | .enter => weightOf Goal.procedure
  | _ => 0

/-- The goal takes the token, which leaves less to be read. If the token is declared its name is
none of those given. -/
structure Proceeds (g : Goal) (name : String) (names : List String) (t : Token) (m : Move) :
    Prop where
  inner : t.IsInner
  wanted : g.wanted.head? = some t.kind
  move : g.move name t = .ok m
  notUse : m.deed ≠ .use
  fresh : m.deed = .declare ∨ m.deed = .enter → t.lexeme ∉ names
  lighter : weightOf m.goals + weightOfDeed m.deed < g.weight

/-- A goal that must not be left out can be met. -/
theorem exists_proceeds (hsound : g.IsSound) (hstart : g.start? = none) (names : List String)
    (hname : g = .closingName → ∃ line, Token.IsInner ⟨.identifier, name, line⟩) :
    ∃ t m, g.Proceeds name names t m := by
  -- a token that is neither used nor declared
  have hread : ∀ {t deed goals}, t.IsInner → g.wanted.head? = some t.kind →
      g.move name t = .ok ⟨deed, goals⟩ → deed = .read ∨ deed = .leave →
      weightOf goals < g.weight → ∃ t m, g.Proceeds name names t m := by
    rintro t deed goals hinner hwanted hmove (rfl | rfl) hlt
    · exact ⟨t, _, hinner, hwanted, hmove, by simp, by simp, hlt⟩
    · exact ⟨t, _, hinner, hwanted, hmove, by simp, by simp, hlt⟩
  obtain ⟨n, hn⟩ := exists_longName_not_mem names
  have hfresh : ∀ {deed goals}, g.wanted.head? = some .identifier →
      g.move name ⟨.identifier, longName n, 1⟩ = .ok ⟨deed, goals⟩ → deed ≠ .use →
      weightOf goals + weightOfDeed deed < g.weight → ∃ t m, g.Proceeds name names t m :=
    fun hwanted hmove hdeed hlt =>
      ⟨_, _, isInner_longName n, hwanted, hmove, hdeed, fun _ => hn, hlt⟩
  cases g with
  | token k =>
    have hk : k ≠ .endOfInput := by
      rintro rfl
      exact absurd hsound (by simp [IsSound, fixedKinds])
    exact hread (isInner_ofKind hk) rfl (Move.onKind_eq _ rfl) (Or.inl rfl) Nat.one_pos
  | endArguments =>
    exact hread (isInner_ofKind (k := .rightParen) (by decide)) rfl rfl (Or.inl rfl) (by decide)
  | typeMark =>
    exact hread (isInner_ofKind (k := .integerWord) (by decide)) rfl rfl (Or.inl rfl) (by decide)
  | literal =>
    have hmove : literal.Moves name (.ofKind .number) ⟨.read, []⟩ := .literal rfl (by decide)
    exact hread (isInner_ofKind (by decide)) rfl (move_eq_ok_iff.mpr hmove) (Or.inl rfl) (by decide)
  | factor =>
    exact hread (isInner_ofKind (k := .number) (by decide)) rfl rfl (Or.inl rfl) (by decide)
  | procedureName => exact hfresh rfl rfl (by decide) (by decide)
  | newName => exact hfresh rfl rfl (by decide) (by decide)
  | group =>
    have hmove : group.Moves name ⟨.identifier, longName n, 1⟩ ⟨.declare, restOfGroup⟩ :=
      .group (modeOfWord?_longName n) rfl
    exact hfresh rfl (move_eq_ok_iff.mpr hmove) (by decide) (by decide)
  | closingName =>
    obtain ⟨line, hinner⟩ := hname rfl
    exact hread hinner rfl (move_eq_ok_iff.mpr (.closingName rfl rfl)) (Or.inl rfl) (by decide)
  | close =>
    exact hread (isInner_ofKind (k := .semicolon) (by decide)) rfl rfl (Or.inr rfl) (by decide)
  | _ => cases hstart

end Goal

/-! ## Sound frames -/

open Goal

/-- An open procedure that can be read to its end. -/
structure Frame.IsSound (f : Frame) : Prop where
  apart : Apart f.goals
  closes : .close ∈ f.goals
  name : ∃ line, Token.IsInner ⟨.identifier, f.name, line⟩

/-- The frames are open procedures, and the scope around the outermost one. -/
inductive AllSound : List Frame → Prop
  | base {names : List String} {goals : List Goal} :
    goals <:+ [.token .procedureWord, .procedureName] → AllSound [⟨"", names, goals⟩]
  | inside {f : Frame} {rest : List Frame} : f.IsSound → AllSound rest → AllSound (f :: rest)

/-- The number of tokens that the frames take at least. -/
def weightOfFrames (frames : List Frame) : Nat := (frames.map fun f => weightOf f.goals).sum

section Sound

variable {f : Frame} {rest frames frames' : List Frame} {t : Token} {ts : List Token}
  {outer : List String} {m : Move} {gs : List Goal} {name : String}

theorem weightOfFrames_cons :
    weightOfFrames (f :: rest) = weightOf f.goals + weightOfFrames rest := List.sum_cons

theorem Frame.isSound_opened {line : Int} (h : Token.IsInner ⟨.identifier, name, line⟩) :
    (Frame.opened name).IsSound where
  apart := by
    simp [Frame.opened, Goal.procedure, Apart, Goal.IsSound, lead, start?, wanted, fixedKinds]
  closes := by simp [Frame.opened, Goal.procedure]
  name := ⟨line, h⟩

/-- Only the end of a procedure is read by the goal for it. -/
theorem close_mem_of_moveOf (h : moveOf name t gs = .ok m) (hm : .close ∈ gs)
    (hdeed : m.deed ≠ .leave) : .close ∈ m.goals := by
  refine moveOf_induction (P := (Goal.close ∈ ·)) (Q := fun m => m.deed ≠ .leave → .close ∈ m.goals)
    ?_ ?_ hm h hdeed
  · intro g gs hm hpass
    rcases List.mem_cons.mp hm with rfl | hm
    · cases hpass
    · exact hm
  · intro g gs m hm hmove hdeed
    rcases List.mem_cons.mp hm with rfl | hm
    · cases move_eq_ok_iff.mp hmove with
      | close => exact absurd rfl hdeed
    · exact List.mem_append_right _ hm

/-- Names are declared, and procedures are named, by names. -/
theorem kind_of_moveOf (h : moveOf name t gs = .ok m) (hdeed : m.deed = .declare ∨ m.deed = .enter) :
    t.kind = .identifier := by
  refine moveOf_induction (P := fun _ => True)
    (Q := fun m => m.deed = .declare ∨ m.deed = .enter → t.kind = .identifier)
    (fun _ _ _ _ => trivial) ?_ trivial h hdeed
  intro g gs m _ hmove hdeed
  cases move_eq_ok_iff.mp hmove <;> first | assumption | simp at hdeed

theorem Frame.IsSound.moveOf (h : f.IsSound) (hm : moveOf f.name t f.goals = .ok m)
    (hdeed : m.deed ≠ .leave) {names : List String} : Frame.IsSound ⟨f.name, names, m.goals⟩ where
  apart := h.apart.moveOf hm
  closes := close_mem_of_moveOf hm h.closes hdeed
  name := h.name

theorem AllSound.opened {names : List String} (h : AllSound (⟨f.name, names, gs⟩ :: rest))
    (ht : t.IsInner) (hk : t.kind = .identifier) :
    AllSound (.opened t.lexeme :: ⟨f.name, names, gs⟩ :: rest) := by
  obtain ⟨k, lexeme, line⟩ := t
  obtain rfl : k = .identifier := hk
  exact .inside (Frame.isSound_opened ht) h

theorem suffix_base_cases (h : gs <:+ [.token .procedureWord, .procedureName]) :
    gs = [.token .procedureWord, .procedureName] ∨ gs = [.procedureName] ∨ gs = [] := by
  simpa only [List.suffix_cons_iff, List.suffix_nil] using h

/-- A token of a text leaves sound frames behind. -/
theorem AllSound.take (h : AllSound frames) (ht : t.IsInner)
    (htake : take outer frames t = .ok frames') : AllSound frames' := by
  cases h with
  | @base names goals hgoals =>
    rcases suffix_base_cases hgoals with rfl | rfl | rfl
    · obtain ⟨-, rfl⟩ := take_base_eq_ok.mp htake
      exact .base (List.suffix_cons _ _)
    · obtain ⟨hk, -, rfl⟩ := take_procedureName_eq_ok.mp htake
      exact AllSound.opened (f := ⟨"", names, []⟩) (.base List.nil_suffix) ht hk
    · cases htake
  | @inside f rest hf hrest =>
    obtain ⟨m, hm, hdeed⟩ := exists_move_of_take htake
    rcases Deed.eq_of_apply hdeed with ⟨-, rfl⟩ | ⟨hne, names, rfl⟩ | ⟨henter, names, rfl⟩
    · exact hrest
    · exact .inside (hf.moveOf hm hne) hrest
    · have hne : m.deed ≠ .leave := by rw [henter]; decide
      exact AllSound.opened (.inside (hf.moveOf hm hne) hrest) ht
        (kind_of_moveOf hm (Or.inr henter))

theorem AllSound.takeAll (h : AllSound frames) (hts : ∀ t ∈ ts, t.IsInner)
    (htaken : takeAll outer frames ts = .ok frames') : AllSound frames' :=
  takeAll_invariant (fun h ht htake => h.take ht htake) h hts htaken

/-! ## A token that can follow -/

/-- A frame in which something is to be read takes a token that leaves less to be read. -/
theorem exists_take_of_apart (hapart : Apart f.goals) (hne : f.goals ≠ [])
    (hname : .closingName ∈ f.goals → ∃ line, Token.IsInner ⟨.identifier, f.name, line⟩) :
    ∃ t frames, t.IsInner ∧ ProcLang.take outer (f :: rest) t = .ok frames ∧
      weightOfFrames frames < weightOfFrames (f :: rest) := by
  obtain ⟨k, hk⟩ := hapart.exists_lead hne
  obtain ⟨g, gs, hg, hsound, hstart, hwanted, hweight, hmoves⟩ := hapart.exists_first hk
  obtain ⟨t, m, h⟩ := exists_proceeds hsound hstart f.names fun heq => hname (heq ▸ hg)
  have hkind : t.kind = k := Option.some.inj (h.wanted.symm.trans hwanted)
  have hmove : ProcLang.moveOf f.name t f.goals = .ok ⟨m.deed, m.goals ++ gs⟩ := by
    rw [hmoves f.name t hkind, moveOf_cons (passesOn_of_none hstart _), h.move]
    rfl
  have hlt := h.lighter
  rw [weightOf_cons] at hweight
  refine ⟨t, ?_⟩
  rw [take_of_move hmove]
  cases hdeed : m.deed with
  | read =>
    refine ⟨_, h.inner, rfl, ?_⟩
    simp only [weightOfFrames_cons, weightOf_append]
    omega
  | use => exact absurd hdeed h.notUse
  | declare =>
    refine ⟨_, h.inner, if_neg (h.fresh (Or.inl hdeed)), ?_⟩
    simp only [weightOfFrames_cons, weightOf_append]
    omega
  | enter =>
    refine ⟨_, h.inner, if_neg (h.fresh (Or.inr hdeed)), ?_⟩
    rw [hdeed] at hlt
    simp only [weightOfFrames_cons, weightOf_append, Frame.opened]
    simp only [weightOfDeed] at hlt
    omega
  | leave =>
    refine ⟨_, h.inner, rfl, ?_⟩
    rw [weightOfFrames_cons]
    omega

/-- As long as something is to be read there is a token that leaves less to be read. -/
theorem AllSound.exists_take (h : AllSound frames) (outer : List String) :
    (∃ names, frames = [⟨"", names, []⟩]) ∨
      ∃ t frames', t.IsInner ∧ ProcLang.take outer frames t = .ok frames' ∧
        weightOfFrames frames' < weightOfFrames frames := by
  cases h with
  | @base names goals hgoals =>
    rcases suffix_base_cases hgoals with rfl | rfl | rfl
    · refine Or.inr (exists_take_of_apart ?_ (List.cons_ne_nil _ _) (by simp))
      simp [Apart, Goal.IsSound, start?, fixedKinds]
    · refine Or.inr (exists_take_of_apart ?_ (List.cons_ne_nil _ _) (by simp))
      simp [Apart, Goal.IsSound, start?]
    · exact Or.inl ⟨names, rfl⟩
  | @inside f rest hf hrest =>
    exact Or.inr (exists_take_of_apart hf.apart (List.ne_nil_of_mem hf.closes) fun _ => hf.name)

/-- The frames can be read to their end. -/
theorem AllSound.exists_takeAll {n : Nat} (h : AllSound frames) (hn : weightOfFrames frames ≤ n) :
    ∃ more names, (∀ t ∈ more, t.IsInner) ∧
      ProcLang.takeAll outer frames more = .ok [⟨"", names, []⟩] := by
  induction n generalizing frames with
  | zero =>
    rcases h.exists_take outer with ⟨names, rfl⟩ | ⟨t, frames', -, -, hlt⟩
    · exact ⟨[], names, fun _ hm => absurd hm List.not_mem_nil, rfl⟩
    · omega
  | succ n ih =>
    rcases h.exists_take outer with ⟨names, rfl⟩ | ⟨t, frames', ht, htake, hlt⟩
    · exact ⟨[], names, fun _ hm => absurd hm List.not_mem_nil, rfl⟩
    · obtain ⟨more, names, hmore, htaken⟩ := ih (h.take ht htake) (by omega)
      exact ⟨t :: more, names, List.forall_mem_cons.mpr ⟨ht, hmore⟩,
        takeAll_cons_eq_ok.mpr ⟨frames', htake, htaken⟩⟩

/-- Tokens of texts that are taken can be continued to a procedure. -/
theorem exists_readable_append (hts : ∀ t ∈ ts, t.IsInner)
    (htaken : ProcLang.takeAll [] [.base []] ts = .ok frames) :
    ∃ more, (∀ t ∈ more, t.IsInner) ∧ Readable (ts ++ more) := by
  have hsound : AllSound frames := (AllSound.base List.suffix_rfl).takeAll hts htaken
  obtain ⟨more, names, hmore, hrest⟩ := hsound.exists_takeAll (Nat.le_refl _)
  exact ⟨more, hmore, names, takeAll_append_eq_ok.mpr ⟨frames, htaken, hrest⟩⟩

end Sound

end ProcLang
