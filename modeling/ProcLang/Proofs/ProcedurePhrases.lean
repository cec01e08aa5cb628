import ProcLang.Proofs.StatementPhrases

/-!
# Phrases of procedures

The goals of a procedure mean a procedure of the grammar, with all that is nested in it
(`Place.Means.procedureName`). So the tokens that can be read as a whole are those of the language
(`readable_iff`).
-/

namespace ProcLang

variable {p : Place} {n : Nat}

/-! ## The rules on names -/

namespace Procedure

/-- The name of a procedure is visible in it. -/
theorem obeys_or_name {q : Procedure} {around : String → Prop} :
    q.Obeys (fun y => around y ∨ y = q.name) ↔ q.Obeys around := by
  obtain ⟨name, parameters, locals, nested, body, closing⟩ := q
  have hand : ∀ P : String → Prop, (fun y => (around y ∨ y = name) ∨ y = name ∨ P y) =
      fun y => around y ∨ y = name ∨ P y := by
    intro P
    funext y
    rw [eq_iff_iff, or_assoc, or_self_left]
  have hmember := fun y =>
    congrFun (hand (· ∈ headNames parameters locals ++ nested.map Procedure.name)) y
  simp only [Obeys, Procedure.name, hand, hmember]

end Procedure

/-! ## Nested procedures -/

/-- A procedure in a place, behind its first word. -/
def Procedure.phrase (p : Place) : Phrase Procedure where
  terminals q := .name q.name :: q.terminals.drop 2
  declares q := [q.name]
  Lawful before q := q.name ∉ before ∧ q.Obeys (p.Sees before)

/-- Nested procedures in a place. -/
def Phrase.nested (p : Place) : Phrase (List Procedure) where
  terminals := Procedure.terminalsOfAll
  declares qs := qs.map Procedure.name
  Lawful before qs := AllNew before (qs.map Procedure.name) ∧ Procedure.AllObey (p.Sees before) qs

theorem Place.Means.nested (h : p.Means n [.procedureName] [] (Procedure.phrase p)) :
    p.Means n [.procedures] [.procedureWord] (.nested p) := by
  have hall : p.Means n [.procedures] [.procedureWord]
      ((Phrase.kind .procedureWord).both (Procedure.phrase p)).many :=
    many_of_read [.procedureName] rfl (fun _ ht => Move.onKind_eq _ ht) h
      fun _ _ _ hk => absurd hk List.not_mem_nil
  refine hall.map (f := List.map Prod.snd) ⟨?_, ?_, ?_, ?_⟩
  · exact fun qs => ⟨qs.map fun q => ((), q), by simp [Function.comp_def]⟩
  · intro qs
    induction qs with
    | nil => rfl
    | cons q qs ih =>
      show q.2.terminals ++ (Phrase.nested p).terminals (qs.map Prod.snd) = _
      rw [ih]
      exact congrArg (· ++ _) q.2.terminals_eq_cons
  · intro qs
    show (qs.map Prod.snd).map Procedure.name = qs.flatMap fun q => [q.2.name]
    rw [List.map_map, List.map_eq_flatMap]
    rfl
  · intro before qs
    induction qs generalizing before with
    | nil => exact iff_of_true ⟨trivial, trivial⟩ trivial
    | cons q qs ih =>
      show (q.2.name ∉ before ∧ AllNew (before ++ [q.2.name]) _) ∧
          q.2.Obeys (p.Sees before) ∧ Procedure.AllObey (fun y => p.Sees before y ∨ y = q.2.name) _ ↔
        (True ∧ q.2.name ∉ before ++ [] ∧ q.2.Obeys (p.Sees (before ++ []))) ∧
          Phrase.AllLawful _ (before ++ [q.2.name]) qs
      have hmore : AllNew (before ++ [q.2.name]) ((qs.map Prod.snd).map Procedure.name) ∧
          Procedure.AllObey (p.Sees (before ++ [q.2.name])) (qs.map Prod.snd) ↔ _ :=
        ih (before ++ [q.2.name])
      rw [Place.sees_append] at hmore
      simp only [List.mem_singleton] at hmore
      rw [List.append_nil, true_and]
      refine Iff.trans ?_ (and_congr_right fun _ => hmore)
      tauto

/-! ## Procedures -/

/-- The name behind the last statement. -/
def Phrase.closing (p : Place) : Phrase String where
  terminals y := [.name y]
  declares _ := []
  Lawful _ y := Text.lower y = Text.lower p.name

theorem Place.Means.closingName : p.Means n [.closingName] [] (.closing p) := by
  refine one (w := .name) (fun _ => rfl) fun names gs t ts _ => ?_
  have hdeclares : names ++ (Phrase.closing p).declares t.lexeme = names := List.append_nil _
  constructor
  · intro h
    obtain ⟨m, hm⟩ := exists_moves_of_completes rfl h
    cases hm with
    | closingName hsame hk =>
      have h := (completes_read (Goal.Moves.closingName hsame hk).moveOf_eq).mp h
      exact ⟨t.lexeme, ⟨hk, rfl⟩, hsame, hdeclares.symm ▸ h⟩
  · rintro ⟨y, ⟨hk, rfl⟩, hsame, h⟩
    exact (completes_read (Goal.Moves.closingName hsame hk).moveOf_eq).mpr (hdeclares ▸ h)

/-- What a procedure has behind its name. -/
structure Procedure.Inside where
  parameters : List ParameterGroup
  locals : List Group
  nested : List Procedure
  body : List Assignment
  closing : String

/-- The procedure with the name. -/
def Procedure.Inside.procedure (name : String) (x : Inside) : Procedure :=
  .mk name x.parameters x.locals x.nested x.body x.closing

open Procedure in
/-- What a procedure has behind its name, the last semicolon left out. -/
def Phrase.inside (p : Place) : Phrase Inside where
  terminals x := parameterTerminals x.parameters ++ .kind .isWord ::
    x.locals.flatMap (fun g => g.terminals ++ [.kind .semicolon]) ++ terminalsOfAll x.nested ++
    .kind .beginWord :: x.body.flatMap Assignment.terminals ++ [.kind .endWord, .name x.closing]
  declares x := headNames x.parameters x.locals ++ x.nested.map Procedure.name
  Lawful names x :=
    AllNew names (headNames x.parameters x.locals ++ x.nested.map Procedure.name) ∧
      (∀ g ∈ x.parameters, g.mark.HasValue) ∧ (∀ g ∈ x.locals, g.mark.HasValue) ∧
      AllObey (p.Sees (names ++ headNames x.parameters x.locals)) x.nested ∧
      (∀ a ∈ x.body, ∀ y ∈ a.names,
        p.Sees (names ++ (headNames x.parameters x.locals ++ x.nested.map Procedure.name)) y) ∧
      Text.lower x.closing = Text.lower p.name

theorem Place.Means.inside (h : p.Means n [.procedureName] [] (Procedure.phrase p)) :
    p.Means n [.arguments, .token .isWord, .locals, .procedures, .token .beginWord, .statements,
      .token .endWord, .closingName] [] (.inside p) := by
  have hfree : ∀ {gs gs' : List Goal}, (∀ k ∈ ([] : List Kind), p.Refuses gs k) →
      ∀ k ∈ ([] : List Kind), p.Refuses gs' k := fun _ _ hk => absurd hk List.not_mem_nil
  have hend := (token (p := p) (n := n) .endWord).both closingName fun _ => hfree
  have hbody := statements.both hend fun gs _ k hk => by
    rw [List.mem_singleton.mp hk]
    exact refuses_token (by decide)
  have hbegin := (token .beginWord).both hbody fun _ => hfree
  have hnested := (nested h).both hbegin fun gs _ k hk => by
    rw [List.mem_singleton.mp hk]
    exact refuses_token (by decide)
  have hlocals := locals.both hnested fun gs _ k hk => by
    rw [List.mem_singleton.mp hk]
    exact refuses_cons rfl (by decide) (refuses_token (by decide))
  have his := (token .isWord).both hlocals fun _ => hfree
  have hall := arguments.both his fun gs _ k hk => by
    rw [List.mem_singleton.mp hk]
    exact refuses_token (by decide)
  refine hall.map (f := fun x => ⟨x.1, x.2.2.1, x.2.2.2.1, x.2.2.2.2.2.1, x.2.2.2.2.2.2.2⟩)
    ⟨?_, ?_, ?_, ?_⟩
  · rintro ⟨parameters, locals, nested, body, closing⟩
    exact ⟨(parameters, (), locals, nested, (), body, (), closing), rfl⟩
  · rintro ⟨parameters, ⟨⟩, locals, nested, ⟨⟩, body, ⟨⟩, closing⟩
    simp [Phrase.inside, Phrase.both, Phrase.kind, Phrase.parameters, Phrase.locals,
      Phrase.nested, Phrase.statements, Phrase.closing]
  · rintro ⟨parameters, ⟨⟩, locals, nested, ⟨⟩, body, ⟨⟩, closing⟩
    simp [Phrase.inside, Phrase.both, Phrase.kind, Phrase.parameters, Phrase.locals,
      Phrase.nested, Phrase.statements, Phrase.closing, Procedure.headNames]
  · rintro before ⟨parameters, ⟨⟩, locals, nested, ⟨⟩, body, ⟨⟩, closing⟩
    simp only [Phrase.inside, Phrase.both, Phrase.kind, Phrase.parameters, Phrase.locals,
      Phrase.nested, Phrase.statements, Phrase.closing, Procedure.headNames, allNew_append,
      List.append_nil, List.append_assoc, true_and]
    tauto

namespace Procedure

theorem Inside.spells_iff {name : String} {x : Inside} {us : List Token} :
    Spells us ((x.procedure name).terminals.drop 2) ↔
      ∃ vs t, us = vs ++ [t] ∧ Spells vs ((Phrase.inside p).terminals x) ∧ t.kind = .semicolon := by
  have hterminals : (x.procedure name).terminals.drop 2 =
      (Phrase.inside p).terminals x ++ [.kind .semicolon] := by
    simp [Inside.procedure, Procedure.terminals, Phrase.inside]
  rw [hterminals, spells_append]
  simp only [spells_singleton]
  constructor
  · rintro ⟨vs, _, rfl, hvs, t, rfl, ht⟩
    exact ⟨vs, t, rfl, hvs, ht⟩
  · rintro ⟨vs, t, rfl, hvs, ht⟩
    exact ⟨vs, [t], rfl, hvs, t, rfl, ht⟩

/-- Around the place its own name is visible. -/
theorem Inside.lawful_iff (hname : Visible p.outer p.rest p.name) {x : Inside} :
    (Phrase.inside p).Lawful [] x ↔ (x.procedure p.name).Obeys (Visible p.outer p.rest) := by
  have hsees : ∀ names, p.Sees names =
      fun y => Visible p.outer p.rest y ∨ y = p.name ∨ y ∈ names := by
    intro names
    funext y
    rw [eq_iff_iff, Place.sees_iff]
    constructor
    · exact Or.imp_right Or.inr
    · rintro (h | rfl | h)
      · exact Or.inl h
      · exact Or.inl hname
      · exact Or.inr h
  simp only [Phrase.inside, Inside.procedure, Obeys, hsees, List.nil_append, allNew_iff,
    List.not_mem_nil, not_false_eq_true, implies_true, and_true]

end Procedure

/-- A procedure that has just been opened is met by what a procedure has behind its name. -/
theorem Place.completes_opened (h : p.Means n [.procedureName] [] (Procedure.phrase p))
    (hname : Visible p.outer p.rest p.name) {ts : List Token} (hts : ts.length ≤ n)
    (hplain : ∀ t ∈ ts, t.Plain) :
    p.Completes [] Goal.procedure ts ↔
      ∃ (q : Procedure) (us vs : List Token), ts = us ++ vs ∧ q.name = p.name ∧
        Spells us (q.terminals.drop 2) ∧ q.Obeys (Visible p.outer p.rest) ∧
        ProcLang.Completes p.outer p.rest vs := by
  have hclose : ∀ names ts, p.Completes names [.close] ts ↔
      ∃ t vs, ts = t :: vs ∧ t.kind = .semicolon ∧ ProcLang.Completes p.outer p.rest vs := by
    intro names ts
    cases ts with
    | nil =>
      refine iff_of_false not_completes_nil ?_
      rintro ⟨t, vs, heq, -⟩
      cases heq
    | cons t ts =>
      constructor
      · intro h
        obtain ⟨m, hm⟩ := exists_moves_of_completes rfl h
        cases hm with
        | close hk =>
          exact ⟨t, ts, rfl, hk, (completes_leave (Goal.Moves.close hk).moveOf_eq).mp h⟩
      · rintro ⟨u, vs, heq, hk, h⟩
        cases heq
        exact (completes_leave (Goal.Moves.close hk).moveOf_eq).mpr h
  refine (Means.inside h [] [.close] ts hts hplain fun _ hk => absurd hk List.not_mem_nil).trans ?_
  simp only [hclose]
  constructor
  · rintro ⟨x, us, _, rfl, hus, hx, t, vs, rfl, hk, h⟩
    exact ⟨x.procedure p.name, us ++ [t], vs, by simp, rfl,
      Procedure.Inside.spells_iff.mpr ⟨us, t, rfl, hus, hk⟩,
      (Procedure.Inside.lawful_iff hname).mp hx, h⟩
  · rintro ⟨⟨name, parameters, locals, nested, body, closing⟩, us, vs, rfl, hsame, hus, hobeys, h⟩
    obtain rfl : name = p.name := hsame
    let x : Procedure.Inside := ⟨parameters, locals, nested, body, closing⟩
    obtain ⟨us, t, rfl, hus, hk⟩ := (Procedure.Inside.spells_iff (p := p) (x := x)).mp hus
    exact ⟨x, us, t :: vs, by simp, hus, (Procedure.Inside.lawful_iff hname).mpr hobeys, t, vs, rfl,
      hk, h⟩

/-- By induction on the number of tokens: the name takes one of them. -/
theorem Place.Means.procedureName : p.Means n [.procedureName] [] (Procedure.phrase p) := by
  induction n generalizing p with
  | zero => exact zero
  | succ n ih =>
    refine of_cons fun names gs t ts hts hplain _ => ?_
    by_cases hk : t.kind = .identifier
    · have hmove : moveOf p.name t ([Goal.procedureName] ++ gs) = .ok ⟨.enter, gs⟩ :=
        (Goal.Moves.procedureName hk).moveOf_eq
      let inner : Place := ⟨p.outer, t.lexeme, ⟨p.name, names ++ [t.lexeme], gs⟩ :: p.rest,
        List.cons_ne_nil _ _⟩
      have hvisible : Visible inner.outer inner.rest =
          fun y => p.Sees names y ∨ y = t.lexeme := by
        have hsees : Visible inner.outer inner.rest = p.Sees (names ++ [t.lexeme]) := by
          funext y
          simp only [Visible, Sees, inner, List.mem_cons, exists_eq_or_imp]
        rw [hsees, sees_append]
        simp only [List.mem_singleton]
      have hopened := completes_opened (p := inner) ih (by rw [hvisible]; exact Or.inr rfl)
        (Nat.le_of_succ_le_succ hts) fun u hu => hplain u (List.mem_cons_of_mem _ hu)
      rw [hvisible] at hopened
      rw [completes_enter hmove]
      refine (and_congr_right fun _ => hopened).trans ?_
      constructor
      · rintro ⟨hnew, q, us, vs, rfl, hname, hus, hobeys, h⟩
        have hname : q.name = t.lexeme := hname
        rw [← hname] at hnew hobeys
        refine ⟨q, t :: us, vs, rfl, spells_cons.mpr ⟨t, us, rfl, ⟨hk, hname.symm⟩, hus⟩,
          ⟨hnew, Procedure.obeys_or_name.mp hobeys⟩, ?_⟩
        show p.Completes (names ++ [q.name]) gs vs
        rw [hname]
        exact h
      · rintro ⟨q, us, vs, heq, hus, ⟨hnew, hobeys⟩, h⟩
        obtain ⟨u, us, rfl, ⟨-, hname⟩, hmore⟩ := spells_cons.mp hus
        cases heq
        refine ⟨hname ▸ hnew, q, us, vs, rfl, hname.symm, hmore, ?_, ?_⟩
        · rw [hname]
          exact Procedure.obeys_or_name.mpr hobeys
        · have h : p.Completes (names ++ [q.name]) gs vs := h
          rw [← hname] at h
          exact h
    · refine iff_of_false (fun h => ?_) ?_
      · obtain ⟨m, hm⟩ := exists_moves_of_completes rfl h
        cases hm with
        | procedureName hk' => exact hk hk'
      · rintro ⟨q, us, vs, heq, hus, -⟩
        obtain ⟨u, us, rfl, ⟨hk', -⟩, -⟩ := spells_cons.mp hus
        cases heq
        exact hk hk'

/-! ## The language -/

/-- Behind the outermost procedure nothing can be taken. -/
theorem completes_done_iff {names : List String} {ts : List Token} :
    Completes [] [⟨"", names, []⟩] ts ↔ ts = [] := by
  cases ts with
  | nil => exact iff_of_true ⟨names, rfl⟩ rfl
  | cons t ts =>
    refine iff_of_false ?_ (List.cons_ne_nil _ _)
    rintro ⟨names', h⟩
    obtain ⟨frames, ht, -⟩ := takeAll_cons_eq_ok.mp h
    cases ht

/-- The outermost procedure begins with its word and its name. -/
theorem readable_iff_exists_cons {ts : List Token} :
    Readable ts ↔ ∃ t u us, ts = t :: u :: us ∧ t.kind = .procedureWord ∧ u.kind = .identifier ∧
      Completes [] [.opened u.lexeme, ⟨"", [u.lexeme], []⟩] us := by
  constructor
  · rintro ⟨names, h⟩
    match ts with
    | [] => cases h
    | [t] =>
      obtain ⟨frames, ht, h⟩ := takeAll_cons_eq_ok.mp h
      obtain ⟨-, rfl⟩ := take_base_eq_ok.mp ht
      cases h
    | t :: u :: us =>
      obtain ⟨frames, ht, h⟩ := takeAll_cons_eq_ok.mp h
      obtain ⟨hk, rfl⟩ := take_base_eq_ok.mp ht
      obtain ⟨frames, hu, h⟩ := takeAll_cons_eq_ok.mp h
      obtain ⟨hk', -, rfl⟩ := take_procedureName_eq_ok.mp hu
      exact ⟨t, u, us, rfl, hk, hk', names, h⟩
  · rintro ⟨t, u, us, rfl, hk, hk', names, h⟩
    exact ⟨names, takeAll_cons_eq_ok.mpr ⟨_, take_base_eq_ok.mpr ⟨hk, rfl⟩,
      takeAll_cons_eq_ok.mpr ⟨_, take_procedureName_eq_ok.mpr ⟨hk', List.not_mem_nil, rfl⟩, h⟩⟩⟩

/-- The tokens that can be read as a whole are those of the language. -/
theorem readable_iff {ts : List Token} (hplain : ∀ t ∈ ts, t.Plain) :
    Readable ts ↔ InLanguage ts := by
  have hopened : ∀ t u us, ts = t :: u :: us →
      (Completes [] [.opened u.lexeme, ⟨"", [u.lexeme], []⟩] us ↔
        ∃ q : Procedure, q.name = u.lexeme ∧ Spells us (q.terminals.drop 2) ∧
          q.Obeys fun _ => False) := by
    rintro t u us rfl
    let inner : Place := ⟨[], u.lexeme, [⟨"", [u.lexeme], []⟩], List.cons_ne_nil _ _⟩
    have hvisible : Visible inner.outer inner.rest = fun y => False ∨ y = u.lexeme := by
      funext y
      simp [Visible, inner]
    have hiff := Place.completes_opened (p := inner) Place.Means.procedureName
      (by rw [hvisible]; exact Or.inr rfl) (Nat.le_refl us.length)
      fun v hv => hplain v (List.mem_cons_of_mem _ (List.mem_cons_of_mem _ hv))
    rw [hvisible] at hiff
    refine hiff.trans ?_
    constructor
    · rintro ⟨q, us, vs, rfl, hname, hus, hobeys, hvs⟩
      cases completes_done_iff.mp hvs
      rw [List.append_nil]
      have hname : q.name = u.lexeme := hname
      rw [← hname] at hobeys
      exact ⟨q, hname, hus, Procedure.obeys_or_name.mp hobeys⟩
    · rintro ⟨q, hname, hus, hobeys⟩
      refine ⟨q, us, [], (List.append_nil _).symm, hname, hus, ?_, completes_done_iff.mpr rfl⟩
      rw [← hname]
      exact Procedure.obeys_or_name.mpr hobeys
  rw [readable_iff_exists_cons]
  constructor
  · rintro ⟨t, u, us, rfl, hk, hk', h⟩
    obtain ⟨q, hname, hus, hobeys⟩ := (hopened t u us rfl).mp h
    refine ⟨q, hobeys, ?_⟩
    rw [q.terminals_eq_cons]
    exact spells_cons.mpr ⟨t, _, rfl, hk, spells_cons.mpr ⟨u, us, rfl, ⟨hk', hname.symm⟩, hus⟩⟩
  · rintro ⟨q, hobeys, hts⟩
    rw [q.terminals_eq_cons] at hts
    obtain ⟨t, _, rfl, hk, hts⟩ := spells_cons.mp hts
    obtain ⟨u, us, rfl, ⟨hk', hname⟩, hus⟩ := spells_cons.mp hts
    exact ⟨t, u, us, rfl, hk, hk', (hopened t u us rfl).mpr ⟨q, hname.symm, hus, hobeys⟩⟩

end ProcLang
