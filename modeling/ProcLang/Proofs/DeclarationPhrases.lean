import ProcLang.Proofs.Phrases

/-!
# Phrases of declarations

The goals of names, type marks, groups, parameters and local names mean the parts of the grammar
with these names. What a phrase asks of its names is that they are new in their scope (`AllNew`).
-/

namespace ProcLang

variable {p : Place} {n : Nat}

/-! ## Names -/

/-- The names are different, and none of them is among those before. -/
def AllNew : List String → List String → Prop
  | _, [] => True
  | names, y :: ys => y ∉ names ∧ AllNew (names ++ [y]) ys

theorem allNew_append {names ys zs : List String} :
    AllNew names (ys ++ zs) ↔ AllNew names ys ∧ AllNew (names ++ ys) zs := by
  induction ys generalizing names with
  | nil => simp [AllNew]
  | cons y ys ih => simp [AllNew, ih, and_assoc]

theorem allNew_iff {names ys : List String} :
    AllNew names ys ↔ ys.Nodup ∧ ∀ y ∈ ys, y ∉ names := by
  induction ys generalizing names with
  | nil => simp [AllNew]
  | cons y ys ih =>
    simp only [AllNew, ih, List.mem_append, List.nodup_cons, List.mem_cons, List.not_mem_nil,
      or_false]
    constructor
    · rintro ⟨hy, hys, hnew⟩
      refine ⟨⟨fun hm => hnew y hm (Or.inr rfl), hys⟩, ?_⟩
      rintro z (rfl | hz)
      · exact hy
      · exact fun hm => hnew z hz (Or.inl hm)
    · rintro ⟨⟨hy, hys⟩, hnew⟩
      refine ⟨hnew y (Or.inl rfl), hys, fun z hz hm => ?_⟩
      rcases hm with hm | rfl
      · exact hnew z (Or.inr hz) hm
      · exact hy hz

namespace Phrase

variable {α : Type} {φ : Phrase α} {names : List String}

/-- Phrases whose names are to be new declare different names when they stand one behind another. -/
theorem allLawful_iff {valid : α → Prop}
    (h : ∀ names x, φ.Lawful names x ↔ AllNew names (φ.declares x) ∧ valid x) {xs : List α} :
    φ.AllLawful names xs ↔ AllNew names (xs.flatMap φ.declares) ∧ ∀ x ∈ xs, valid x := by
  induction xs generalizing names with
  | nil => simp [AllLawful, AllNew]
  | cons x xs ih =>
    rw [AllLawful, ih, h, List.flatMap_cons, allNew_append, List.forall_mem_cons]
    tauto

/-- A comma and a name. -/
def nextName : Phrase (Unit × String) := (kind .comma).both newName

theorem allLawful_nextName {ys : List (Unit × String)} :
    nextName.AllLawful names ys ↔ AllNew names (ys.map Prod.snd) := by
  have hnew : ∀ names y, nextName.Lawful names y ↔ AllNew names (nextName.declares y) ∧ True := by
    intro names y
    show True ∧ y.2 ∉ names ++ [] ↔ (y.2 ∉ names ∧ True) ∧ True
    rw [List.append_nil, true_and, and_true, and_true]
  rw [allLawful_iff hnew, and_iff_left fun _ _ => trivial]
  have hnames : ys.flatMap nextName.declares = ys.map Prod.snd := List.map_eq_flatMap.symm
  rw [hnames]

end Phrase

theorem Place.Means.names : p.Means n [.newName, .moreNames] [.comma]
    (Phrase.newName.both Phrase.nextName.many) :=
  newName.both (many_of_read [.newName] rfl (fun _ ht => Move.onKind_eq _ ht) newName
    fun _ _ _ hk => absurd hk List.not_mem_nil) fun _ _ _ hk => absurd hk List.not_mem_nil

/-! ## Type marks -/

theorem spells_pair {ts : List Token} {w w' : Terminal} :
    Spells ts [w, w'] ↔ ∃ t u, ts = [t, u] ∧ w.Matches t ∧ w'.Matches u := by
  rw [spells_cons]
  simp only [spells_singleton]
  constructor
  · rintro ⟨t, us, rfl, ht, u, rfl, hu⟩
    exact ⟨t, u, rfl, ht, hu⟩
  · rintro ⟨t, u, rfl, ht, hu⟩
    exact ⟨t, [u], rfl, ht, u, rfl, hu⟩

/-- Type marks. -/
def Mark.phrase : Phrase Mark := ⟨terminals, fun _ => [], fun _ => HasValue⟩

/-- The numeral of a constant, the part of a type mark behind its first two tokens. -/
def Phrase.numeral : Phrase String where
  terminals l := [.word .number l]
  declares _ := []
  Lawful _ l := (Mark.constant l).HasValue

theorem Place.Means.literal : p.Means n [.literal] [] .numeral := by
  refine one (w := .word .number) (fun _ => rfl) fun names gs t ts hplain => ?_
  have hdeclares : names ++ Phrase.numeral.declares t.lexeme = names := List.append_nil _
  constructor
  · intro h
    obtain ⟨m, hm⟩ := exists_moves_of_completes rfl h
    cases hm with
    | literal hk hparse =>
      have h := (completes_read (Goal.Moves.literal hk hparse).moveOf_eq).mp h
      exact ⟨t.lexeme, ⟨hk, rfl⟩, (hplain.value hk).mp hparse, hdeclares.symm ▸ h⟩
  · rintro ⟨l, ⟨hk, rfl⟩, hvalue, h⟩
    have hparse := (hplain.value hk).mpr hvalue
    exact (completes_read (Goal.Moves.literal hk hparse).moveOf_eq).mpr (hdeclares ▸ h)

/-- The marks that are one token. -/
theorem exists_mark_of_primitive {k : Kind} (h : (Analysis.primitiveType? k).isSome) :
    ∃ m : Mark, m.terminals = [.kind k] ∧ m.HasValue := by
  cases k with
  | integerWord => exact ⟨.integer, rfl, trivial⟩
  | floatWord => exact ⟨.float, rfl, trivial⟩
  | charWord => exact ⟨.character, rfl, trivial⟩
  | _ => cases h

theorem Mark.eq_of_spells {m : Mark} {us : List Token} (h : Spells us m.terminals) :
    (∃ t, us = [t] ∧ (Analysis.primitiveType? t.kind).isSome) ∨
      ∃ t u v, us = [t, u, v] ∧ t.kind = .constantWord ∧ u.kind = .assign ∧ v.kind = .number ∧
        m = .constant v.lexeme := by
  cases m with
  | constant l =>
    obtain ⟨t, us, rfl, ht, h⟩ := spells_cons.mp h
    obtain ⟨u, v, rfl, hu, hv, rfl⟩ := spells_pair.mp h
    exact Or.inr ⟨t, u, v, rfl, ht, hu, hv, rfl⟩
  | _ =>
    obtain ⟨t, rfl, ht⟩ := spells_singleton.mp h
    have ht : t.kind = _ := ht
    exact Or.inl ⟨t, rfl, by rw [ht]; rfl⟩

theorem Place.Means.typeMark : p.Means n [.typeMark] [] Mark.phrase := by
  refine of_cons fun names gs t ts hts hplain _ => ?_
  have hdeclares : ∀ m, names ++ Mark.phrase.declares m = names := fun _ => List.append_nil _
  simp only [hdeclares]
  have hmore : p.Means n [.token .assign, .literal] [] _ :=
    (token .assign).both literal fun _ _ _ hk => absurd hk List.not_mem_nil
  have hvalue := hmore names gs ts (Nat.le_of_succ_le hts)
    (fun u hu => hplain u (List.mem_cons_of_mem _ hu)) fun _ hk => absurd hk List.not_mem_nil
  constructor
  · intro h
    obtain ⟨m, hm⟩ := exists_moves_of_completes rfl h
    cases hm with
    | primitive htype =>
      obtain ⟨m, hm, hlawful⟩ := exists_mark_of_primitive htype
      refine ⟨m, [t], ts, rfl, ?_, hlawful,
        (completes_read (Goal.Moves.primitive htype).moveOf_eq).mp h⟩
      show Spells [t] m.terminals
      rw [hm]
      exact spells_singleton.mpr ⟨t, rfl, rfl⟩
    | constant hk =>
      obtain ⟨⟨⟨⟩, l⟩, us, vs, rfl, hus, ⟨-, hlawful⟩, hrest⟩ :=
        hvalue.mp ((completes_read (Goal.Moves.constant hk).moveOf_eq).mp h)
      have hus : Spells us [.kind .assign, .word .number l] := hus
      obtain ⟨u, v, rfl, hu, hv⟩ := spells_pair.mp hus
      refine ⟨.constant l, [t, u, v], vs, rfl, ?_, hlawful, ?_⟩
      · exact spells_cons.mpr ⟨t, [u, v], rfl, hk, spells_pair.mpr ⟨u, v, rfl, hu, hv⟩⟩
      · rwa [show Phrase.declares _ _ = [] from rfl, List.append_nil] at hrest
  · rintro ⟨m, us, vs, heq, hus, hlawful, h⟩
    rcases Mark.eq_of_spells hus with ⟨u, rfl, htype⟩ | ⟨u, v, w, rfl, hk, hv, hw, rfl⟩
    · cases heq
      exact (completes_read (Goal.Moves.primitive htype).moveOf_eq).mpr h
    · cases heq
      refine (completes_read (Goal.Moves.constant hk).moveOf_eq).mpr (hvalue.mpr ?_)
      refine ⟨((), w.lexeme), [v, w], vs, rfl, spells_pair.mpr ⟨v, w, rfl, hv, hw, rfl⟩,
        ⟨trivial, hlawful⟩, ?_⟩
      rwa [show Phrase.declares _ _ = [] from rfl, List.append_nil]

/-! ## Groups -/

/-- Names with a type mark. -/
def Group.phrase : Phrase Group where
  terminals := terminals
  declares := names
  Lawful names g := AllNew names g.names ∧ g.mark.HasValue

/-- Groups of parameters. -/
def ParameterGroup.phrase : Phrase ParameterGroup where
  terminals := terminals
  declares g := g.names
  Lawful names g := AllNew names g.names ∧ g.mark.HasValue

theorem Place.Means.restOfGroup : p.Means n (Goal.newName :: Goal.restOfGroup) [] Group.phrase := by
  have hmark := (token (p := p) (n := n) .colon).both typeMark
    fun _ _ _ hk => absurd hk List.not_mem_nil
  have hall := names.both hmark fun gs _ k hk => by
    rw [List.mem_singleton.mp hk]
    exact refuses_token (by decide)
  refine hall.map (f := fun x => ⟨x.1.1, x.1.2.map Prod.snd, x.2.2⟩) ⟨?_, ?_, ?_, ?_⟩
  · rintro ⟨y, ys, m⟩
    exact ⟨((y, ys.map fun z => ((), z)), (), m), by simp [Function.comp_def]⟩
  · rintro ⟨⟨y, ys⟩, ⟨⟩, m⟩
    simp [Group.phrase, Group.terminals, Phrase.both, Phrase.many, Phrase.newName, Phrase.kind,
      Phrase.nextName, Mark.phrase, List.flatMap_map]
  · rintro ⟨⟨y, ys⟩, ⟨⟩, m⟩
    simp [Group.phrase, Group.names, Phrase.both, Phrase.many, Phrase.newName, Phrase.kind,
      Phrase.nextName, Mark.phrase, List.map_eq_flatMap]
  · rintro before ⟨⟨y, ys⟩, ⟨⟩, m⟩
    show (y ∉ before ∧ AllNew (before ++ [y]) (ys.map Prod.snd)) ∧ m.HasValue ↔
      (y ∉ before ∧ Phrase.nextName.AllLawful (before ++ [y]) ys) ∧ True ∧ m.HasValue
    rw [Phrase.allLawful_nextName, true_and]

theorem ParameterGroup.spells_iff {g : ParameterGroup} {us : List Token} :
    Spells us g.terminals ↔ (g.mode? = none ∧ Spells us g.toGroup.terminals) ∨
      ∃ m t vs, g.mode? = some m ∧ us = t :: vs ∧ t.kind = m.kind ∧
        Spells vs g.toGroup.terminals := by
  unfold ParameterGroup.terminals
  cases g.mode? with
  | none => simp
  | some m =>
    have hcons : Spells us (.kind m.kind :: g.toGroup.terminals) ↔ _ := spells_cons
    simp only [Option.map_some, Option.toList_some, List.singleton_append, hcons]
    constructor
    · rintro ⟨t, vs, rfl, ht, h⟩
      exact Or.inr ⟨m, t, vs, rfl, rfl, ht, h⟩
    · rintro (⟨h, -⟩ | ⟨m', t, vs, hm, rfl, ht, h⟩)
      · cases h
      · cases hm
        exact ⟨t, vs, rfl, ht, h⟩

/-- A group begins with a name. -/
theorem Group.head_of_spells {g : Group} {us : List Token} (h : Spells us g.terminals) :
    ∃ t vs, us = t :: vs ∧ t.kind = .identifier := by
  obtain ⟨t, vs, rfl, ht, -⟩ := spells_cons.mp h
  exact ⟨t, vs, rfl, ht.1⟩

theorem Place.Means.group : p.Means n [.group] [] ParameterGroup.phrase := by
  refine of_cons fun names gs t ts hts hplain _ => ?_
  have hmode := (hplain t List.mem_cons_self).mode
  cases hm : Analysis.modeOfWord? t.lexeme with
  | some m =>
    have hk := (hmode m).mp hm
    have hmove : moveOf p.name t ([Goal.group] ++ gs) =
        .ok ⟨.read, Goal.newName :: Goal.restOfGroup ++ gs⟩ :=
      (Goal.Moves.mode (hm ▸ Option.isSome_some)).moveOf_eq
    rw [completes_read hmove]
    refine (restOfGroup (p := p) names gs ts (Nat.le_refl _)
      (fun u hu => hplain u (List.mem_cons_of_mem _ hu))
      fun _ hk => absurd hk List.not_mem_nil).trans ?_
    constructor
    · rintro ⟨g, us, vs, rfl, hus, hg, h⟩
      exact ⟨⟨g, some m⟩, t :: us, vs, rfl,
        ParameterGroup.spells_iff.mpr (Or.inr ⟨m, t, us, rfl, rfl, hk, hus⟩), hg, h⟩
    · rintro ⟨g, us, vs, heq, hus, hg, h⟩
      rcases ParameterGroup.spells_iff.mp hus with ⟨-, hgroup⟩ | ⟨m', u, us, -, rfl, -, hgroup⟩
      · obtain ⟨u, us, rfl, hu⟩ := Group.head_of_spells hgroup
        cases heq
        rw [hk] at hu
        cases m <;> cases hu
      · cases heq
        exact ⟨g.toGroup, us, vs, rfl, hgroup, hg, h⟩
  | none =>
    have hsame : moveOf p.name t ([Goal.group] ++ gs) =
        moveOf p.name t (Goal.newName :: Goal.restOfGroup ++ gs) := by
      rw [List.singleton_append, List.cons_append, moveOf_cons_of_none rfl,
        moveOf_cons_of_none rfl, Goal.move, Goal.move, hm, if_neg (by simp)]
      unfold Move.onKind
      split <;> rfl
    rw [completes_congr hsame]
    refine (restOfGroup (p := p) names gs (t :: ts) hts hplain
      fun _ hk => absurd hk List.not_mem_nil).trans ?_
    constructor
    · rintro ⟨g, us, vs, heq, hus, hg, h⟩
      exact ⟨⟨g, none⟩, us, vs, heq, ParameterGroup.spells_iff.mpr (Or.inl ⟨rfl, hus⟩), hg, h⟩
    · rintro ⟨g, us, vs, heq, hus, hg, h⟩
      rcases ParameterGroup.spells_iff.mp hus with ⟨-, hus⟩ | ⟨m, u, us, -, rfl, hu, -⟩
      · exact ⟨g.toGroup, us, vs, heq, hus, hg, h⟩
      · cases heq
        rw [(hmode m).mpr hu] at hm
        cases hm

/-! ## Parameters and local names -/

/-- Lists of parameters. -/
def Phrase.parameters : Phrase (List ParameterGroup) where
  terminals := parameterTerminals
  declares gs := gs.flatMap fun g => g.names
  Lawful names gs := AllNew names (gs.flatMap fun g => g.names) ∧ ∀ g ∈ gs, g.mark.HasValue

/-- Groups of local names. -/
def Phrase.locals : Phrase (List Group) where
  terminals gs := gs.flatMap fun g => g.terminals ++ [.kind .semicolon]
  declares gs := gs.flatMap Group.names
  Lawful names gs := AllNew names (gs.flatMap Group.names) ∧ ∀ g ∈ gs, g.mark.HasValue

/-- The parameters behind the opening parenthesis, with the closing one. -/
def Phrase.parametersInside : Phrase (ParameterGroup × List ParameterGroup) where
  terminals gs := gs.1.terminals ++
    (gs.2.flatMap fun g => .kind .semicolon :: g.terminals) ++ [.kind .rightParen]
  declares gs := (gs.1 :: gs.2).flatMap fun g => g.names
  Lawful names gs := parameters.Lawful names (gs.1 :: gs.2)

theorem Place.Means.parametersInside :
    p.Means n [.group, .moreGroups, .endArguments] [] .parametersInside := by
  have hmore : p.Means n [.moreGroups] [.semicolon]
      ((Phrase.kind .semicolon).both ParameterGroup.phrase).many :=
    many_of_read [.group] rfl (fun _ ht => Move.onKind_eq _ ht) group
      fun _ _ _ hk => absurd hk List.not_mem_nil
  have hend : p.Means n [.endArguments] [] (.kind .rightParen) := kind (fun _ => rfl) rfl
  have hall := group.both (hmore.both hend fun gs _ k hk => by
    rw [List.mem_singleton.mp hk]
    exact refuses_kind (fun _ => rfl) rfl (by decide)) fun _ _ _ hk => absurd hk List.not_mem_nil
  refine hall.map (f := fun x => (x.1, x.2.1.map Prod.snd)) ⟨?_, ?_, ?_, ?_⟩
  · rintro ⟨g, gs⟩
    exact ⟨(g, gs.map fun g => ((), g), ()), by simp [Function.comp_def]⟩
  · rintro ⟨g, gs, ⟨⟩⟩
    simp [Phrase.parametersInside, Phrase.both, Phrase.many, Phrase.kind, ParameterGroup.phrase,
      List.flatMap_map]
  · rintro ⟨g, gs, ⟨⟩⟩
    simp [Phrase.parametersInside, Phrase.both, Phrase.many, Phrase.kind, ParameterGroup.phrase,
      List.flatMap_map]
  · rintro names ⟨g, gs, ⟨⟩⟩
    have hnext : ∀ names x, ((Phrase.kind .semicolon).both ParameterGroup.phrase).Lawful names x ↔
        AllNew names (((Phrase.kind .semicolon).both ParameterGroup.phrase).declares x) ∧
          x.2.mark.HasValue := by
      intro names x
      show True ∧ AllNew (names ++ []) x.2.names ∧ _ ↔ AllNew names ([] ++ x.2.names) ∧ _
      rw [List.append_nil, List.nil_append, true_and]
    show Phrase.parameters.Lawful names (g :: gs.map Prod.snd) ↔
      ParameterGroup.phrase.Lawful names g ∧
        ((Phrase.kind .semicolon).both ParameterGroup.phrase).AllLawful (names ++ g.names) gs ∧ True
    have hdeclares : gs.flatMap ((Phrase.kind .semicolon).both ParameterGroup.phrase).declares =
        (gs.map Prod.snd).flatMap fun g => g.names := by
      rw [List.flatMap_map]
      rfl
    rw [Phrase.allLawful_iff hnext, hdeclares]
    have hall : ∀ q : ParameterGroup → Prop, (∀ x ∈ gs, q x.2) ↔ ∀ g ∈ gs.map Prod.snd, q g :=
      fun q => List.forall_mem_map.symm
    rw [hall fun g => g.mark.HasValue]
    simp only [Phrase.parameters, ParameterGroup.phrase, List.flatMap_cons, allNew_append,
      List.forall_mem_cons]
    tauto

theorem Place.Means.arguments : p.Means n [.arguments] [.leftParen] .parameters := by
  refine of_cons fun names gs t ts hts hplain hends => ?_
  have hspells : ∀ {g more us}, Spells us (parameterTerminals (g :: more)) ↔
      ∃ t vs, us = t :: vs ∧ t.kind = .leftParen ∧
        Spells vs (Phrase.parametersInside.terminals (g, more)) := spells_cons
  by_cases hk : t.kind = .leftParen
  · have hmove : moveOf p.name t ([Goal.arguments] ++ gs) =
        .ok ⟨.read, .group :: .moreGroups :: .endArguments :: gs⟩ :=
      (Goal.Moves.arguments hk).moveOf_eq
    rw [completes_read hmove]
    refine (parametersInside (p := p) names gs ts (Nat.le_refl _)
      (fun u hu => hplain u (List.mem_cons_of_mem _ hu))
      fun _ hk => absurd hk List.not_mem_nil).trans ?_
    constructor
    · rintro ⟨⟨g, more⟩, us, vs, rfl, hus, hlawful, h⟩
      exact ⟨g :: more, t :: us, vs, rfl, hspells.mpr ⟨t, us, rfl, hk, hus⟩, hlawful, h⟩
    · rintro ⟨ps, us, vs, heq, hus, hlawful, h⟩
      cases ps with
      | nil =>
        cases spells_nil.mp hus
        obtain rfl : t :: ts = vs := heq
        obtain ⟨r, hr⟩ := hends _ List.mem_cons_self t hk
        exact absurd h (not_completes_of_refused hr)
      | cons g more =>
        obtain ⟨u, us, rfl, -, hinside⟩ := hspells.mp hus
        cases heq
        exact ⟨(g, more), us, vs, rfl, hinside, hlawful, h⟩
  · have hpass : p.Completes names ([Goal.arguments] ++ gs) (t :: ts) ↔
        p.Completes names gs (t :: ts) :=
      completes_congr (moveOf_cons_of_passesOn ((Goal.passesOn_eq_true rfl).mpr hk))
    have hnone : names ++ Phrase.parameters.declares [] = names := List.append_nil _
    rw [hpass]
    constructor
    · intro h
      exact ⟨[], [], t :: ts, rfl, spells_nil.mpr rfl, ⟨trivial, fun _ h => absurd h
        List.not_mem_nil⟩, hnone.symm ▸ h⟩
    · rintro ⟨ps, us, vs, heq, hus, -, h⟩
      cases ps with
      | nil =>
        cases spells_nil.mp hus
        obtain rfl : t :: ts = vs := heq
        exact hnone ▸ h
      | cons g more =>
        obtain ⟨u, us, rfl, hu, -⟩ := hspells.mp hus
        cases heq
        exact absurd hu hk

theorem Place.Means.locals : p.Means n [.locals] [.identifier] .locals := by
  have hgroup : p.Means n (Goal.newName :: Goal.restOfGroup ++ [Goal.token .semicolon]) []
      (Group.phrase.both (.kind .semicolon)) :=
    restOfGroup.both (token .semicolon) fun _ _ _ hk => absurd hk List.not_mem_nil
  have hall : p.Means n [.locals] [.identifier] (Group.phrase.both (.kind .semicolon)).many := by
    refine many_of_same rfl hgroup (fun t gs hk => ?_) (fun _ _ _ hk => absurd hk List.not_mem_nil)
      fun x us hus => ?_
    · exact (Goal.Moves.locals hk).moveOf_eq.trans (Goal.Moves.newName hk).moveOf_eq.symm
    · obtain ⟨us₁, us₂, rfl, hus₁, -⟩ := spells_append.mp hus
      obtain ⟨t, vs, rfl, hk⟩ := Group.head_of_spells hus₁
      exact ⟨t, vs ++ us₂, rfl, hk⟩
  refine hall.map (f := List.map Prod.fst) ⟨?_, ?_, ?_, ?_⟩
  · exact fun gs => ⟨gs.map fun g => (g, ()), by simp [Function.comp_def]⟩
  · intro gs
    simp [Phrase.locals, Phrase.both, Phrase.many, Phrase.kind, Group.phrase, List.flatMap_map]
  · intro gs
    simp [Phrase.locals, Phrase.both, Phrase.many, Phrase.kind, Group.phrase, List.flatMap_map]
  · intro names gs
    have hnext : ∀ names x, (Group.phrase.both (.kind .semicolon)).Lawful names x ↔
        AllNew names ((Group.phrase.both (.kind .semicolon)).declares x) ∧
          x.1.mark.HasValue := by
      intro names x
      show (AllNew names x.1.names ∧ _) ∧ True ↔ AllNew names (x.1.names ++ []) ∧ _
      rw [List.append_nil, and_true]
    have hdeclares : gs.flatMap (Group.phrase.both (.kind .semicolon)).declares =
        gs.flatMap fun x => x.1.names := by
      simp [Phrase.both, Phrase.kind, Group.phrase]
    show AllNew names ((gs.map Prod.fst).flatMap Group.names) ∧
        (∀ g ∈ gs.map Prod.fst, g.mark.HasValue) ↔
      (Group.phrase.both (.kind .semicolon)).AllLawful names gs
    rw [Phrase.allLawful_iff hnext, hdeclares, List.forall_mem_map, List.flatMap_map]

end ProcLang
