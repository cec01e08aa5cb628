import ProcLang.Proofs.Following

/-!
# The first wrong name

The parts of the grammar are followed along their trees, each by the lemma of its name. So a run
over the tokens of a procedure of the grammar succeeds exactly if no name in it is wrong, and else
it reports the first one that is (`Analysis.reports_first_violation`).
-/

namespace ProcLang

namespace Follows

variable {before : List Occurrence} {ls ls' rest : List OpenScope} {us : List Token}
  {rs : List Role} {scope : Scope} {name : String} {g : Goal} {gs : List Goal} {t : Token}
  {k : Kind}

theorem token (hk : t.kind = k) (hne : k ≠ .identifier)
    (h : Follows before (⟨scope, name, gs⟩ :: rest) us rs ls') :
    Follows before (⟨scope, name, .token k :: gs⟩ :: rest) (t :: us) rs ls' :=
  read (Goal.Moves.token hk).moveOf_eq (hk ▸ hne) h

/-! ## Declarations -/

theorem moreNames (hrest : Encloses rest scope) {ys : List String}
    (h : Spells us (ys.flatMap fun y => [.kind .comma, .name y])) :
    Follows before (⟨scope, name, .moreNames :: gs⟩ :: rest) us (ys.map fun _ => .declares scope)
      (⟨scope, name, .moreNames :: gs⟩ :: rest) := by
  induction ys generalizing before us with
  | nil =>
    cases spells_nil.mp h
    exact nil
  | cons y ys ih =>
    obtain ⟨comma, _, rfl, hcomma, h⟩ := spells_cons.mp h
    obtain ⟨t, us, rfl, ⟨hk, -⟩, h⟩ := spells_cons.mp h
    have hcomma : comma.kind = .comma := hcomma
    refine read (Goal.Moves.moreNames hcomma).moveOf_eq (by rw [hcomma]; decide) ?_
    exact declare hrest hk (Goal.Moves.newName hk).moveOf_eq (ih h)

theorem mark {m : Mark} (h : Spells us m.terminals) (hplain : ∀ t ∈ us, t.Plain)
    (hvalue : m.HasValue) : Follows before (⟨scope, name, .typeMark :: gs⟩ :: rest) us []
      (⟨scope, name, gs⟩ :: rest) := by
  have hprimitive : ∀ t : Token, (Analysis.primitiveType? t.kind).isSome →
      Follows before (⟨scope, name, .typeMark :: gs⟩ :: rest) [t] []
        (⟨scope, name, gs⟩ :: rest) := by
    intro t ht
    exact read (Goal.Moves.primitive ht).moveOf_eq (fun hk => by rw [hk] at ht; cases ht) nil
  cases m with
  | integer | float | character =>
    obtain ⟨t, rfl, hk⟩ := spells_singleton.mp h
    have hk : t.kind = _ := hk
    exact hprimitive t (by rw [hk]; rfl)
  | constant numeral =>
    obtain ⟨word, _, rfl, hword, h⟩ := spells_cons.mp h
    obtain ⟨assign, _, rfl, hassign, h⟩ := spells_cons.mp h
    obtain ⟨t, rfl, hk, rfl⟩ := spells_singleton.mp h
    have hword : word.kind = .constantWord := hword
    have hparse : (Numeral.Value.parse t.lexeme).isOk :=
      ((hplain t (by simp)).value hk).mpr hvalue
    exact read (Goal.Moves.constant hword).moveOf_eq (by rw [hword]; decide)
      (token hassign (by decide)
        (read (Goal.Moves.literal hk hparse).moveOf_eq (by rw [hk]; decide) nil))

theorem restOfGroup (hrest : Encloses rest scope) {g : Group}
    (h : Spells us (g.more.flatMap (fun y => [.kind .comma, .name y]) ++
      .kind .colon :: g.mark.terminals)) (hplain : ∀ t ∈ us, t.Plain) (hvalue : g.mark.HasValue) :
    Follows before (⟨scope, name, Goal.restOfGroup ++ gs⟩ :: rest) us
      (g.more.map fun _ => .declares scope) (⟨scope, name, gs⟩ :: rest) := by
  obtain ⟨us, _, rfl, hus, h⟩ := spells_append.mp h
  obtain ⟨colon, vs, rfl, hcolon, hvs⟩ := spells_cons.mp h
  have hcolon : colon.kind = .colon := hcolon
  have hmark : ∀ before, Follows before (⟨scope, name, .typeMark :: gs⟩ :: rest) vs [] _ :=
    fun before => mark hvs (fun t ht => hplain t (by simp [ht])) hvalue
  rw [← List.append_nil (g.more.map _)]
  exact (moreNames hrest hus).append
    (pass rfl (by rw [hcolon]; decide) (token hcolon (by decide) (hmark _)))

theorem parameterGroup (hrest : Encloses rest scope) {g : ParameterGroup}
    (h : Spells us g.terminals) (hplain : ∀ t ∈ us, t.Plain) (hvalue : g.mark.HasValue) :
    Follows before (⟨scope, name, .group :: gs⟩ :: rest) us (g.names.map fun _ => .declares scope)
      (⟨scope, name, gs⟩ :: rest) := by
  obtain ⟨us, vs, rfl, hus, hvs⟩ := spells_append.mp h
  obtain ⟨t, vs, rfl, ⟨hk, -⟩, hvs⟩ := spells_cons.mp hvs
  have hmore : ∀ before, Follows before (⟨scope, name, Goal.restOfGroup ++ gs⟩ :: rest) vs _ _ :=
    fun before => restOfGroup hrest hvs (fun u hu => hplain u (by simp [hu])) hvalue
  cases hmode : g.mode? with
  | none =>
    rw [hmode] at hus
    cases spells_nil.mp hus
    have hno : Analysis.modeOfWord? t.lexeme = none := by
      refine Option.eq_none_iff_forall_ne_some.mpr fun m hm => ?_
      have hkind := ((hplain t (by simp)).mode m).mp hm
      rw [hk] at hkind
      cases m <;> cases hkind
    exact declare hrest hk (Goal.Moves.group hno hk).moveOf_eq (hmore _)
  | some m =>
    rw [hmode] at hus
    obtain ⟨word, rfl, hword⟩ := spells_singleton.mp hus
    have hword : word.kind = m.kind := hword
    have hsome : (Analysis.modeOfWord? word.lexeme).isSome :=
      Option.isSome_iff_exists.mpr ⟨m, ((hplain word (by simp)).mode m).mpr hword⟩
    refine read (Goal.Moves.mode hsome).moveOf_eq (by rw [hword]; cases m <;> decide) ?_
    exact declare hrest hk (Goal.Moves.newName hk).moveOf_eq (hmore _)

theorem moreGroups (hrest : Encloses rest scope) {groups : List ParameterGroup}
    (h : Spells us (groups.flatMap fun g => .kind .semicolon :: g.terminals))
    (hplain : ∀ t ∈ us, t.Plain) (hvalues : ∀ g ∈ groups, g.mark.HasValue) :
    Follows before (⟨scope, name, .moreGroups :: gs⟩ :: rest) us
      ((groups.flatMap fun g => g.names).map fun _ => .declares scope)
      (⟨scope, name, .moreGroups :: gs⟩ :: rest) := by
  induction groups generalizing before us with
  | nil =>
    cases spells_nil.mp h
    exact nil
  | cons g groups ih =>
    obtain ⟨hvalue, hvalues⟩ := List.forall_mem_cons.mp hvalues
    obtain ⟨us, vs, rfl, hus, hvs⟩ := spells_append.mp h
    obtain ⟨t, us, rfl, hk, hus⟩ := spells_cons.mp hus
    have hk : t.kind = .semicolon := hk
    rw [List.flatMap_cons, List.map_append]
    refine read (Goal.Moves.moreGroups hk).moveOf_eq (by rw [hk]; decide) ?_
    exact (parameterGroup hrest hus (fun u hu => hplain u (by simp [hu])) hvalue).append
      (ih hvs (fun u hu => hplain u (by simp [hu])) hvalues)

/-- The list of parameters, with the word behind it. -/
theorem arguments (hrest : Encloses rest scope) {groups : List ParameterGroup}
    (h : Spells us (parameterTerminals groups ++ [.kind .isWord])) (hplain : ∀ t ∈ us, t.Plain)
    (hvalues : ∀ g ∈ groups, g.mark.HasValue) :
    Follows before (⟨scope, name, .arguments :: .token .isWord :: gs⟩ :: rest) us
      ((groups.flatMap fun g => g.names).map fun _ => .declares scope)
      (⟨scope, name, gs⟩ :: rest) := by
  obtain ⟨us, _, rfl, hus, h⟩ := spells_append.mp h
  obtain ⟨word, rfl, hword⟩ := spells_singleton.mp h
  have hword : word.kind = .isWord := hword
  have his : ∀ before, Follows before (⟨scope, name, .token .isWord :: gs⟩ :: rest) [word] [] _ :=
    fun before => token hword (by decide) nil
  cases groups with
  | nil =>
    cases spells_nil.mp hus
    exact pass rfl (by rw [hword]; decide) (his _)
  | cons g groups =>
    obtain ⟨hvalue, hvalues⟩ := List.forall_mem_cons.mp hvalues
    obtain ⟨ts, _, rfl, hts, h⟩ := spells_append.mp hus
    obtain ⟨right, rfl, hright⟩ := spells_singleton.mp h
    obtain ⟨_, vs, rfl, h, hvs⟩ := spells_append.mp hts
    obtain ⟨left, us, rfl, hleft, hus⟩ := spells_cons.mp h
    have hleft : left.kind = .leftParen := hleft
    have hright : right.kind = .rightParen := hright
    rw [List.flatMap_cons, List.map_append, List.append_assoc, List.append_assoc,
      ← List.append_nil ((groups.flatMap _).map _)]
    refine read (Goal.Moves.arguments hleft).moveOf_eq (by rw [hleft]; decide) ?_
    refine (parameterGroup hrest hus (fun u hu => hplain u (by simp [hu])) hvalue).append
      ((moreGroups hrest hvs (fun u hu => hplain u (by simp [hu])) hvalues).append
        (pass rfl (by rw [hright]; decide) ?_))
    exact read (Goal.Moves.endArguments hright).moveOf_eq (by rw [hright]; decide) (his _)

theorem locals (hrest : Encloses rest scope) {groups : List Group}
    (h : Spells us (groups.flatMap fun g => g.terminals ++ [.kind .semicolon]))
    (hplain : ∀ t ∈ us, t.Plain) (hvalues : ∀ g ∈ groups, g.mark.HasValue) :
    Follows before (⟨scope, name, .locals :: gs⟩ :: rest) us
      ((groups.flatMap Group.names).map fun _ => .declares scope)
      (⟨scope, name, .locals :: gs⟩ :: rest) := by
  induction groups generalizing before us with
  | nil =>
    cases spells_nil.mp h
    exact nil
  | cons g groups ih =>
    obtain ⟨hvalue, hvalues⟩ := List.forall_mem_cons.mp hvalues
    obtain ⟨_, vs, rfl, h, hvs⟩ := spells_append.mp h
    obtain ⟨_, _, rfl, hg, h⟩ := spells_append.mp h
    obtain ⟨semicolon, rfl, hsemicolon⟩ := spells_singleton.mp h
    obtain ⟨t, us, rfl, ⟨hk, -⟩, hus⟩ := spells_cons.mp hg
    rw [List.flatMap_cons, List.map_append, List.append_assoc]
    have hmore : ∀ before, Follows before
        (⟨scope, name, .token .semicolon :: .locals :: gs⟩ :: rest) (semicolon :: vs) _ _ :=
      fun before => token hsemicolon (by decide)
        (ih hvs (fun u hu => hplain u (List.mem_append_right _ hu)) hvalues)
    have hmove : moveOf name t (.locals :: gs) =
        .ok ⟨.declare, Goal.restOfGroup ++ .token .semicolon :: .locals :: gs⟩ :=
      (Goal.Moves.locals hk).moveOf_eq
    refine declare hrest hk hmove ?_
    exact (restOfGroup hrest hus (fun u hu => hplain u (by simp [hu])) hvalue).append (hmore _)

/-! ## Statements -/

/-- The goals behind the first factor of an expression of the level. -/
def afterFactor : Level → List Goal
  | .factor => []
  | .chain .multiplicative => [.moreFactors]
  | .chain .additive => [.moreFactors, .moreTerms]

theorem afterFactor_chain (op : Operator) :
    afterFactor (.chain op) = afterFactor op.below ++ [op.goal] := by
  cases op <;> rfl

/-- An operator is followed by the next part. -/
theorem operator {op : Operator} (hk : t.kind = op.kind)
    (h : Follows before
      (⟨scope, name, .factor :: (afterFactor (.chain op) ++ gs)⟩ :: rest) us rs ls') :
    Follows before (⟨scope, name, afterFactor (.chain op) ++ gs⟩ :: rest) (t :: us) rs ls' := by
  cases op with
  | multiplicative =>
    have hk : t.kind = .multiplicative := hk
    exact read (Goal.Moves.moreFactors hk).moveOf_eq (by rw [hk]; decide) h
  | additive =>
    have hk : t.kind = .additive := hk
    refine pass rfl (by rw [hk]; decide) ?_
    exact read (Goal.Moves.moreTerms hk).moveOf_eq (by rw [hk]; decide) h

/-- By induction on the expression. -/
theorem expr (hrest : Encloses rest scope) {l : Level} {e : Expr l} (h : Spells us e.terminals) :
    Follows before (⟨scope, name, .factor :: (afterFactor l ++ gs)⟩ :: rest) us
      (e.names.map fun _ => .uses scope) (⟨scope, name, afterFactor l ++ gs⟩ :: rest) := by
  induction e generalizing before us gs with
  | name y =>
    obtain ⟨t, rfl, hk, -⟩ := spells_singleton.mp h
    exact use hrest hk (Goal.Moves.name hk).moveOf_eq nil
  | number =>
    obtain ⟨t, rfl, hk⟩ := spells_singleton.mp h
    have hk : t.kind = .number := hk
    exact read (Goal.Moves.number hk).moveOf_eq (by rw [hk]; decide) nil
  | parens e ih =>
    obtain ⟨us, _, rfl, hus, h⟩ := spells_append.mp h
    obtain ⟨right, rfl, hright⟩ := spells_singleton.mp h
    obtain ⟨left, us, rfl, hleft, hus⟩ := spells_cons.mp hus
    have hleft : left.kind = .leftParen := hleft
    have hright : right.kind = .rightParen := hright
    have hmove : moveOf name left (.factor :: (afterFactor .factor ++ gs)) = .ok ⟨.read,
        .factor :: (afterFactor .expression ++ .token .rightParen :: gs)⟩ :=
      (Goal.Moves.parens hleft).moveOf_eq
    rw [Expr.names, ← List.append_nil (e.names.map _)]
    refine read hmove (by rw [hleft]; decide) ((ih hus).append ?_)
    exact pass rfl (by rw [hright]; decide)
      (pass rfl (by rw [hright]; decide) (token hright (by decide) nil))
  | not f ih =>
    obtain ⟨t, us, rfl, hk, hus⟩ := spells_cons.mp h
    have hk : t.kind = .notWord := hk
    exact read (Goal.Moves.not hk).moveOf_eq (by rw [hk]; decide) (ih hus)
  | minus f ih =>
    obtain ⟨t, us, rfl, ⟨hk, hminus⟩, hus⟩ := spells_cons.mp h
    exact read (Goal.Moves.minus hk hminus).moveOf_eq (by rw [hk]; decide) (ih hus)
  | @last op first ih =>
    rw [afterFactor_chain, List.append_assoc]
    exact ih h
  | @more op first others ih ih' =>
    obtain ⟨us, _, rfl, hus, h⟩ := spells_append.mp h
    obtain ⟨t, vs, rfl, hk, hvs⟩ := spells_cons.mp h
    rw [Expr.names, List.map_append]
    have hfirst : Follows before
        (⟨scope, name, .factor :: (afterFactor op.below ++ op.goal :: gs)⟩ :: rest) us _
        (⟨scope, name, afterFactor op.below ++ op.goal :: gs⟩ :: rest) := ih hus
    have hsplit : afterFactor op.below ++ op.goal :: gs = afterFactor (.chain op) ++ gs := by
      rw [afterFactor_chain, List.append_assoc]
      rfl
    rw [hsplit] at hfirst
    exact hfirst.append (operator hk (ih' hvs))

theorem statements (hrest : Encloses rest scope) {body : List Assignment}
    (h : Spells us (body.flatMap Assignment.terminals)) :
    Follows before (⟨scope, name, .statements :: gs⟩ :: rest) us
      ((body.flatMap Assignment.names).map fun _ => .uses scope)
      (⟨scope, name, .statements :: gs⟩ :: rest) := by
  induction body generalizing before us with
  | nil =>
    cases spells_nil.mp h
    exact nil
  | cons a body ih =>
    obtain ⟨_, vs, rfl, h, hvs⟩ := spells_append.mp h
    obtain ⟨_, _, rfl, ha, h⟩ := spells_append.mp h
    obtain ⟨semicolon, rfl, hsemicolon⟩ := spells_singleton.mp h
    obtain ⟨target, _, rfl, ⟨htarget, -⟩, hvalue⟩ := spells_cons.mp ha
    obtain ⟨assign, us, rfl, hassign, hus⟩ := spells_cons.mp hvalue
    have hsemicolon : semicolon.kind = .semicolon := hsemicolon
    rw [List.flatMap_cons, List.map_append, List.append_assoc]
    have hmove : moveOf name target (.statements :: gs) = .ok ⟨.use, .token .assign :: .factor ::
        (afterFactor .expression ++ .token .semicolon :: .statements :: gs)⟩ :=
      (Goal.Moves.statements htarget).moveOf_eq
    refine use hrest htarget hmove (token hassign (by decide) ((expr hrest hus).append ?_))
    exact pass rfl (by rw [hsemicolon]; decide) (pass rfl (by rw [hsemicolon]; decide)
      (token hsemicolon (by decide) (ih hvs)))

end Follows

/-! ## Procedures -/

namespace Procedure

mutual

/-- A procedure declares its name around it, and all other names inside. -/
theorem suffix_of_declares {around scope : Scope} {number : Nat} : ∀ {p : Procedure},
    .declares scope ∈ p.roles around number → scope = around ∨ number :: around <:+ scope
  | .mk name parameters locals nested body closing, h => by
    simp only [roles, List.mem_cons, List.mem_append, List.mem_map, Role.declares.injEq,
      List.not_mem_nil, or_false, reduceCtorEq, and_false, exists_false] at h
    rcases h with rfl | (⟨-, -, rfl⟩ | h)
    · exact Or.inl rfl
    · exact Or.inr List.suffix_rfl
    · rcases suffix_of_declares_all h with rfl | ⟨inner, -, hinner⟩
      · exact Or.inr List.suffix_rfl
      · exact Or.inr ((List.suffix_cons _ _).trans hinner)

theorem suffix_of_declares_all {around scope : Scope} {number : Nat} : ∀ {ps : List Procedure},
    .declares scope ∈ rolesOfAll around number ps →
      scope = around ∨ ∃ inner ≥ number, inner :: around <:+ scope
  | [], h => absurd h List.not_mem_nil
  | p :: ps, h => by
    rcases List.mem_append.mp h with h | h
    · exact (suffix_of_declares h).imp_right fun hinner => ⟨number, Nat.le_refl _, hinner⟩
    · exact (suffix_of_declares_all h).imp_right fun ⟨inner, hle, hinner⟩ =>
        ⟨inner, Nat.le_of_succ_le hle, hinner⟩

end

/-- The scopes of the procedures that are still to come stay fresh. -/
theorem fresh_roles {around : Scope} {number later : Nat} {p : Procedure} {ts : List Token}
    (h : number < later) : Fresh (occurrences ts (p.roles around number)) (later :: around) := by
  refine fresh_occurrences fun inner hinner hm => ?_
  rcases suffix_of_declares hm with rfl | hnumber
  · exact not_cons_suffix hinner
  · have heq : number :: around = later :: around :=
      (List.suffix_of_suffix_length_le hnumber hinner (by simp)).eq_of_length (by simp)
    obtain rfl := (List.cons.inj heq).1
    exact Nat.lt_irrefl _ h

theorem fresh_declares {ts : List Token} {around : Scope} {number : Nat} {ys : List String} :
    Fresh (occurrences ts (ys.map fun _ => .declares around)) (number :: around) := by
  refine fresh_occurrences fun inner hinner hm => ?_
  obtain ⟨-, -, heq⟩ := List.mem_map.mp hm
  obtain rfl := Role.declares.inj heq
  exact not_cons_suffix hinner

end Procedure

namespace Follows

variable {before : List Occurrence} {rest : List OpenScope} {us : List Token} {scope : Scope}
  {name : String} {gs : List Goal} {number : Nat}

open Procedure

/-- Statements and end of a procedure. -/
theorem body (hrest : Encloses rest scope) {body : List Assignment} {closing : String}
    (h : Spells us (Terminal.kind .beginWord :: body.flatMap Assignment.terminals ++
      [Terminal.kind .endWord, .name closing, .kind .semicolon])) :
    Follows before (⟨scope, name,
        [.token .beginWord, .statements, .token .endWord, .closingName, .close]⟩ :: rest) us
      ((body.flatMap Assignment.names).map (fun _ => .uses scope) ++ [.closes name]) rest := by
  obtain ⟨_, _, rfl, hfirst, hlast⟩ := spells_append.mp h
  obtain ⟨start, us, rfl, hstart, hus⟩ := spells_cons.mp hfirst
  obtain ⟨stop, _, rfl, hstop, hlast⟩ := spells_cons.mp hlast
  obtain ⟨t, _, rfl, ⟨hk, -⟩, hlast⟩ := spells_cons.mp hlast
  obtain ⟨semicolon, rfl, hsemicolon⟩ := spells_singleton.mp hlast
  have hstop : stop.kind = .endWord := hstop
  refine token hstart (by decide) ((statements hrest hus).append ?_)
  exact pass rfl (by rw [hstop]; decide)
    (token hstop (by decide) (close hk (leave hsemicolon nil)))

theorem kind_of_spells_all {ps : List Procedure} {t : Token}
    (h : Spells (t :: us) (terminalsOfAll ps)) : t.kind = .procedureWord := by
  cases ps with
  | nil => cases spells_nil.mp h
  | cons p ps =>
    rw [terminalsOfAll, p.terminals_eq_cons] at h
    obtain ⟨_, _, heq, hk, -⟩ := spells_cons.mp h
    cases heq
    exact hk

/-- What is asked of nested procedures, in the scope with the given name and the given ones around
it. -/
def Nested (scope : Scope) (name : String) (rest : List OpenScope) (nested : List Procedure) :
    Prop :=
  ∀ before gs us, (∀ inner, Fresh before (inner :: scope)) → Spells us (terminalsOfAll nested) →
    (∀ t ∈ us, t.Plain) → Follows before (⟨scope, name, .procedures :: gs⟩ :: rest) us
      (rolesOfAll scope 0 nested) (⟨scope, name, .procedures :: gs⟩ :: rest)

/-- Nested procedures, statements and end of a procedure. -/
theorem behindLocals {nested : List Procedure} {body : List Assignment} {closing : String}
    (hrest : Encloses rest scope) (hfresh : ∀ inner, Fresh before (inner :: scope))
    (hnested : Nested scope name rest nested)
    (h : Spells us (terminalsOfAll nested ++ (.kind .beginWord ::
      body.flatMap Assignment.terminals ++ [.kind .endWord, .name closing, .kind .semicolon])))
    (hplain : ∀ t ∈ us, t.Plain) :
    Follows before (⟨scope, name, [.locals, .procedures, .token .beginWord, .statements,
        .token .endWord, .closingName, .close]⟩ :: rest) us
      (rolesOfAll scope 0 nested ++
        ((body.flatMap Assignment.names).map (fun _ => .uses scope) ++ [.closes name])) rest := by
  obtain ⟨us, vs, rfl, hus, hvs⟩ := spells_append.mp h
  obtain ⟨start, more, rfl, hstart, -⟩ := spells_cons.mp hvs
  have hstart : start.kind = .beginWord := hstart
  have hall := (hnested before _ us hfresh hus fun t ht => hplain t (by simp [ht])).append
    (pass rfl (by rw [hstart]; decide) (Follows.body hrest hvs))
  -- local names end where a nested procedure or the statements begin
  cases us with
  | nil => exact pass rfl (by rw [hstart]; decide) hall
  | cons t us => exact pass rfl (by rw [kind_of_spells_all hus]; decide) hall

/-- What a procedure has behind its name. -/
theorem inside {parameters : List ParameterGroup} {locals : List Group} {nested : List Procedure}
    {body : List Assignment} {closing : String} (hrest : Encloses rest scope)
    (hfresh : Fresh before scope) (hnested : Nested scope name rest nested)
    (h : Spells us ((Procedure.mk name parameters locals nested body closing).terminals.drop 2))
    (hplain : ∀ t ∈ us, t.Plain) (hparameters : ∀ g ∈ parameters, g.mark.HasValue)
    (hlocals : ∀ g ∈ locals, g.mark.HasValue) :
    Follows before (⟨scope, name, Goal.procedure⟩ :: rest) us
      ((headNames parameters locals).map (fun _ => .declares scope) ++
        rolesOfAll scope 0 nested ++
        (body.flatMap Assignment.names).map (fun _ => .uses scope) ++ [.closes name]) rest := by
  have hterminals : (Procedure.mk name parameters locals nested body closing).terminals.drop 2 =
      (parameterTerminals parameters ++ [.kind .isWord]) ++
        (locals.flatMap (fun g => g.terminals ++ [.kind .semicolon]) ++ (terminalsOfAll nested ++
          (.kind .beginWord :: body.flatMap Assignment.terminals ++
            [.kind .endWord, .name closing, .kind .semicolon]))) := by
    simp [terminals]
  rw [hterminals] at h
  obtain ⟨us₁, _, rfl, hus₁, h⟩ := spells_append.mp h
  obtain ⟨us₂, us₃, rfl, hus₂, hus₃⟩ := spells_append.mp h
  rw [headNames, List.map_append, List.append_assoc, List.append_assoc, List.append_assoc]
  refine (arguments hrest hus₁ (fun u hu => hplain u (by simp [hu])) hparameters).append
    ((Follows.locals hrest hus₂ (fun u hu => hplain u (by simp [hu])) hlocals).append ?_)
  refine behindLocals hrest (fun inner => ?_) hnested hus₃ fun u hu => hplain u (by simp [hu])
  exact ((hfresh.inside inner).append fresh_declares).append fresh_declares

mutual

/-- A procedure behind its first word. -/
theorem procedure {p : Procedure} {before : List Occurrence} {rest : List OpenScope}
    {us : List Token} {scope : Scope} {name : String} {gs : List Goal} {number : Nat}
    (hrest : Encloses rest scope)
    (hfresh : Fresh before (number :: scope)) (h : Spells us (.name p.name :: p.terminals.drop 2))
    (hplain : ∀ t ∈ us, t.Plain) (hvalues : ∀ m ∈ p.marks, m.HasValue) :
    Follows before (⟨scope, name, .procedureName :: gs⟩ :: rest) us (p.roles scope number)
      (⟨scope, name, gs⟩ :: rest) := by
  match p with
  | .mk y parameters locals nested body closing =>
    obtain ⟨t, us, rfl, ⟨hk, hy⟩, hus⟩ := spells_cons.mp h
    obtain rfl : t.lexeme = y := hy
    simp only [marks, List.forall_mem_append, List.forall_mem_map] at hvalues
    obtain ⟨⟨hparameters, hlocals⟩, hnested⟩ := hvalues
    rw [roles]
    refine enter hrest hk (Goal.Moves.procedureName hk).moveOf_eq hfresh ?_
    refine inside (hrest.cons name gs number) (hfresh.append ?_) ?_ hus
      (fun u hu => hplain u (List.mem_cons_of_mem _ hu)) hparameters hlocals
    · intro inner hinner o ho hrole
      rw [List.mem_singleton.mp ho] at hrole
      obtain rfl := Role.declares.inj hrole
      exact not_cons_suffix hinner
    · intro before gs us hfresh hus hplain
      exact procedures (hrest.cons _ _ _) (fun inner _ => hfresh inner) hus hplain hnested

theorem procedures {ps : List Procedure} {before : List Occurrence} {rest : List OpenScope}
    {us : List Token} {scope : Scope} {name : String} {gs : List Goal} {number : Nat}
    (hrest : Encloses rest scope)
    (hfresh : ∀ inner ≥ number, Fresh before (inner :: scope)) (h : Spells us (terminalsOfAll ps))
    (hplain : ∀ t ∈ us, t.Plain) (hvalues : ∀ m ∈ marksOfAll ps, m.HasValue) :
    Follows before (⟨scope, name, .procedures :: gs⟩ :: rest) us (rolesOfAll scope number ps)
      (⟨scope, name, .procedures :: gs⟩ :: rest) := by
  match ps with
  | [] =>
    cases spells_nil.mp h
    exact nil
  | p :: ps =>
    obtain ⟨us, vs, rfl, hus, hvs⟩ := spells_append.mp h
    rw [p.terminals_eq_cons] at hus
    obtain ⟨t, us, rfl, hk, hus⟩ := spells_cons.mp hus
    obtain ⟨hp, hps⟩ := List.forall_mem_append.mp hvalues
    have hk : t.kind = .procedureWord := hk
    rw [rolesOfAll]
    refine read (Goal.Moves.procedures hk).moveOf_eq (by rw [hk]; decide) ?_
    refine (procedure hrest (hfresh number (Nat.le_refl _)) hus
      (fun u hu => hplain u (by simp [hu])) hp).append (procedures hrest (fun inner hinner => ?_) hvs
        (fun u hu => hplain u (by simp [hu])) hps)
    exact (hfresh inner (Nat.le_of_succ_le hinner)).append (fresh_roles hinner)

end

/-- The tokens of a procedure are followed from the beginning. -/
theorem outermost {p : Procedure} {ts : List Token} (h : Spells ts p.terminals)
    (hplain : ∀ t ∈ ts, t.Plain) (hvalues : ∀ m ∈ p.marks, m.HasValue) :
    Follows [] [⟨[], "", [.token .procedureWord, .procedureName]⟩] ts (p.roles [] 0)
      [⟨[], "", []⟩] := by
  rw [p.terminals_eq_cons] at h
  obtain ⟨t, us, rfl, hk, hus⟩ := spells_cons.mp h
  have hfresh : Fresh [] (0 :: []) := fun _ _ _ ho => absurd ho List.not_mem_nil
  exact token hk (by decide)
    (procedure rfl hfresh hus (fun u hu => hplain u (List.mem_cons_of_mem _ hu)) hvalues)

end Follows

/-- There is only one first wrong occurrence. -/
theorem NoneViolates.first_unique {before os₁ os₂ os₁' os₂' : List Occurrence} {o o' : Occurrence}
    (h : NoneViolates before os₁) (ho : o.Violates (before ++ os₁)) (h' : NoneViolates before os₁')
    (ho' : o'.Violates (before ++ os₁')) (heq : os₁ ++ o :: os₂ = os₁' ++ o' :: os₂') : o = o' := by
  rcases List.append_eq_append_iff.mp heq with ⟨mid, rfl, hmid⟩ | ⟨mid, rfl, hmid⟩
  · cases mid with
    | nil => exact (List.cons.inj hmid).1
    | cons u mid =>
      obtain ⟨rfl, -⟩ := List.cons.inj hmid
      exact absurd ho (h' os₁ _ mid rfl)
  · cases mid with
    | nil => exact (List.cons.inj hmid).1.symm
    | cons u mid =>
      obtain ⟨rfl, -⟩ := List.cons.inj hmid
      exact absurd ho' (h os₁' _ mid rfl)

namespace Analysis

variable {source last : TokenSource} {ts us vs before behind : List Token} {line : Int}
  {t u : Token} {frames mid : List Frame} {e : Failure} {outcome : Outcome} {r : Refusal} {o : Occurrence}

/-- A run stops at the first token that is refused. -/
theorem StopsAt.eq_of_refused (h : StopsAt us outcome before t frames e)
    (hsplit : us = vs ++ u :: behind) (htaken : takeAll [] [.base []] vs = .ok mid)
    (hu : take [] mid u = .error r) : frames = mid ∧ t = u := by
  obtain ⟨behind', rfl⟩ := h.split
  have hnot : ∀ {fs : List Frame} {xs more : List Token} {x : Token} {r' : Refusal},
      takeAll [] [.base []] xs = .ok fs → take [] fs x = .error r' →
      ∀ gs, takeAll [] [.base []] (xs ++ x :: more) ≠ .ok gs := by
    intro fs xs more x r' hxs hx gs hall
    obtain ⟨fs', gs', hxs', hx'⟩ := exists_take_of_takeAll hall
    cases hxs.symm.trans hxs'
    cases hx.symm.trans hx'
  rcases List.append_eq_append_iff.mp hsplit with ⟨more, rfl, hmore⟩ | ⟨more, rfl, hmore⟩
  · cases more with
    | nil =>
      rw [List.append_nil] at htaken
      exact ⟨Except.ok.inj (h.taken.symm.trans htaken), (List.cons.inj hmore).1⟩
    | cons x more =>
      obtain ⟨rfl, -⟩ := List.cons.inj hmore
      obtain ⟨r', hr'⟩ := h.reports.refused
      exact absurd htaken (hnot h.taken hr' _)
  · cases more with
    | nil =>
      have htaken' := h.taken
      rw [List.append_nil] at htaken'
      exact ⟨Except.ok.inj (htaken'.symm.trans htaken), (List.cons.inj hmore).1.symm⟩
    | cons x more =>
      obtain ⟨rfl, -⟩ := List.cons.inj hmore
      exact absurd h.taken (hnot htaken hu _)

/-- What is reported of a name that is refused because it is wrong. -/
theorem Reports.eq_of_refusedAt (h : Reports frames o.token e) (ho : RefusedAt frames o) :
    e = .diagnostic o.diagnostic := by
  obtain ⟨⟨k, y, l⟩, role⟩ := o
  obtain ⟨hr, hopening⟩ := ho
  cases h with
  | unexpected hno _ => cases role <;> cases hr.symm.trans hno
  | undefined hno =>
    cases role with
    | uses scope => rfl
    | declares scope => cases hr.symm.trans hno
    | closes opening => cases hr.symm.trans hno
  | otherClosingName hframes hno =>
    cases role with
    | closes opening =>
      have hname := hopening opening rfl
      rw [hframes] at hname
      obtain rfl := Option.some.inj hname
      rfl
    | declares scope => cases hr.symm.trans hno
    | uses scope => cases hr.symm.trans hno
  | duplicate hno =>
    cases role with
    | declares scope => rfl
    | uses scope => cases hr.symm.trans hno
    | closes opening => cases hr.symm.trans hno
  | numeral hno _ => cases role <;> cases hr.symm.trans hno
  | unconsumed hframes _ =>
    subst hframes
    cases role <;> cases hr.symm.trans (take_done _)

/-- A run over the tokens of a procedure of the grammar, in which no whole number of a constant is
too long, succeeds exactly if none of its names is wrong. Else it reports the first one that is. -/
theorem reports_first_violation (tracing : Bool) {p : Procedure}
    (hs : source.Supplies (ts ++ [.endOfInput line]) last) (hts : ∀ t ∈ ts, t.IsInner)
    (hp : Spells ts p.terminals) (hvalues : ∀ m ∈ p.marks, m.HasValue) :
    (namesOf ts).length = (p.roles [] 0).length ∧
      ((Outcome.ofSource source tracing).failure = none ↔
        NoneViolates [] (occurrences ts (p.roles [] 0))) ∧
      ∀ os₁ o os₂, occurrences ts (p.roles [] 0) = os₁ ++ o :: os₂ → NoneViolates [] os₁ →
        o.Violates os₁ →
        (Outcome.ofSource source tracing).failure = some (.diagnostic o.diagnostic) := by
  have hfollows := Follows.outermost hp (fun t ht => (hts t ht).1.plain (hts t ht).2) hvalues
  refine ⟨hfollows.length, ?_⟩
  cases hfollows.follows with
  | taken hlawful htaken =>
    have hnone : (Outcome.ofSource source tracing).failure = none :=
      (succeeds_iff_readable hs hts).mpr ⟨_, htaken⟩
    refine ⟨iff_of_true hnone hlawful, fun os₁ o os₂ heq _ ho => ?_⟩
    exact absurd ho (hlawful os₁ o os₂ heq)
  | @refused os₁ os₂ o vs behind mid hos hlawful hwrong hsplit htaken hrefused =>
    have hfailure :
        (Outcome.ofSource source tracing).failure = some (.diagnostic o.diagnostic) := by
      rcases run_verdict tracing hs hts with ⟨-, names, hall⟩ | ⟨before, t, frames, e, hstops⟩
      · rw [hsplit] at hall
        obtain ⟨frames₁, frames₂, hvs, ho⟩ := exists_take_of_takeAll hall
        cases htaken.symm.trans hvs
        cases hrefused.refused.symm.trans ho
      · have hsplit' : ts ++ [.endOfInput line] =
            vs ++ o.token :: (behind ++ [.endOfInput line]) := by
          rw [hsplit, List.append_assoc, List.cons_append]
        obtain ⟨rfl, rfl⟩ := hstops.eq_of_refused hsplit' htaken hrefused.refused
        rw [hstops.failure, hstops.reports.eq_of_refusedAt hrefused]
    refine ⟨iff_of_false ?_ fun hall => hall os₁ o os₂ hos hwrong, ?_⟩
    · rw [hfailure]
      exact Option.some_ne_none _
    · intro os₁' o' os₂' heq hlawful' hwrong'
      rw [hfailure, hlawful.first_unique hwrong hlawful' hwrong' (hos.symm.trans heq)]

/-- A procedure that assigns to a name that is not declared, and is closed by another name. -/
def assignsAndMisnames : List Token :=
  [⟨.procedureWord, "procedure", 1⟩, ⟨.identifier, "p", 1⟩, ⟨.isWord, "is", 1⟩,
   ⟨.beginWord, "begin", 1⟩, ⟨.identifier, "y", 1⟩, ⟨.assign, ":=", 1⟩, ⟨.number, "1", 1⟩,
   ⟨.semicolon, ";", 1⟩, ⟨.endWord, "end", 1⟩, ⟨.identifier, "q", 1⟩, ⟨.semicolon, ";", 1⟩]

theorem reports_undefined_assignsAndMisnames :
    (Outcome.ofSource (.ofList assignsAndMisnames) false).failure =
      some (.diagnostic (.undefined "y" 1)) := by
  obtain ⟨line, last, hs⟩ := TokenSource.supplies_ofList assignsAndMisnames
  have htext : Lexer.tokenize "procedure p is begin y := 1; end q;" =
      .ok (assignsAndMisnames ++ [.endOfInput 1]) := by decide +kernel
  have hkinds : ∀ t ∈ assignsAndMisnames, t.kind ≠ .endOfInput := by decide
  let p : Procedure := .mk "p" [] [] [] [⟨"y", .last (.last .number)⟩] "q"
  have hp : Spells assignsAndMisnames p.terminals :=
    .cons rfl (.cons ⟨rfl, rfl⟩ (.cons rfl (.cons rfl (.cons ⟨rfl, rfl⟩ (.cons rfl (.cons rfl
      (.cons rfl (.cons rfl (.cons ⟨rfl, rfl⟩ (.cons rfl .nil))))))))))
  have hvalues : ∀ m ∈ p.marks, m.HasValue := fun _ hm => absurd hm List.not_mem_nil
  have hlawful : NoneViolates [] [⟨⟨.identifier, "p", 1⟩, .declares []⟩] :=
    noneViolates_singleton.mpr (by simp [Occurrence.Violates, DeclaredIn])
  refine (reports_first_violation false hs (fun t ht => ?_) hp hvalues).2.2
    [⟨⟨.identifier, "p", 1⟩, .declares []⟩] ⟨⟨.identifier, "y", 1⟩, .uses [0]⟩
    [⟨⟨.identifier, "q", 1⟩, .closes "p"⟩] ?_ hlawful ?_
  · exact Token.isInner_of_tokenize htext (List.mem_append_left _ ht) (hkinds t ht)
  · decide
  · simp [Occurrence.Violates, DeclaredIn]

end Analysis

end ProcLang
