import ProcLang.Proofs.DeclarationPhrases

/-!
# Phrases of statements

The goals of expressions and statements mean the parts of the grammar with these names. What a
phrase asks of the names that it uses is that they are visible in its place (`Place.Sees`).
-/

namespace ProcLang

variable {p : Place} {n : Nat}

/-! ## Chains -/

/-- The goal of what may follow a part of a chain. -/
def Operator.goal : Operator → Goal
  | multiplicative => .moreFactors
  | additive => .moreTerms

namespace Level

/-- The goals of an expression of the level. -/
def goals : Level → List Goal
  | factor => [.factor]
  | chain .multiplicative => [.factor, .moreFactors]
  | chain .additive => Goal.expression

/-- The kinds that must not follow an expression of the level. -/
def ends : Level → List Kind
  | factor => []
  | chain .multiplicative => [.multiplicative]
  | chain .additive => [.additive, .multiplicative]

theorem goals_chain (op : Operator) : (chain op).goals = op.below.goals ++ [op.goal] := by
  cases op <;> rfl

theorem ends_chain (op : Operator) : (chain op).ends = op.kind :: op.below.ends := by
  cases op <;> rfl

end Level

namespace Expr

variable {op : Operator}

/-- The chain of the parts. -/
def ofList : Expr op.below → List (Expr op.below) → Expr (.chain op)
  | first, [] => last first
  | first, e :: es => more first (ofList e es)

theorem exists_ofList : ∀ e : Expr (.chain op), ∃ first es, ofList first es = e
  | last first => ⟨first, [], rfl⟩
  | more first rest => by
    obtain ⟨e, es, h⟩ := exists_ofList rest
    exact ⟨first, e :: es, by rw [ofList, h]⟩

theorem terminals_ofList (first : Expr op.below) (es : List (Expr op.below)) :
    (ofList first es).terminals =
      first.terminals ++ es.flatMap fun e => .kind op.kind :: e.terminals := by
  induction es generalizing first with
  | nil => simp [ofList, terminals]
  | cons e es ih => simp [ofList, terminals, ih]

theorem names_ofList (first : Expr op.below) (es : List (Expr op.below)) :
    (ofList first es).names = first.names ++ es.flatMap names := by
  induction es generalizing first with
  | nil => simp [ofList, names]
  | cons e es ih => simp [ofList, names, ih]

/-- Expressions of a level in a place. -/
def phrase (p : Place) (l : Level) : Phrase (Expr l) where
  terminals := terminals
  declares _ := []
  Lawful before e := ∀ y ∈ e.names, p.Sees before y

end Expr

/-- Parts with an operator between any two of them. -/
theorem Place.Means.chain (op : Operator)
    (h : p.Means n op.below.goals op.below.ends (Expr.phrase p op.below)) :
    p.Means n (Level.chain op).goals (Level.chain op).ends (Expr.phrase p (.chain op)) := by
  have hstart : op.goal.start? = some op.kind := by cases op <;> rfl
  have hne : ∀ k ∈ op.below.ends, k ≠ op.kind := by cases op <;> decide
  have hpass : ∀ gs, (∀ k ∈ op.kind :: op.below.ends, p.Refuses gs k) →
      ∀ k ∈ op.below.ends, p.Refuses (op.goal :: gs) k := fun gs hends k hk =>
    refuses_cons hstart (hne k hk) (hends k (List.mem_cons_of_mem _ hk))
  have hmore : p.Means n [op.goal] (op.kind :: op.below.ends)
      ((Phrase.kind op.kind).both (Expr.phrase p op.below)).many := by
    refine many_of_read op.below.goals hstart (fun t ht => ?_) h hpass
    cases op <;> exact Move.onKind_eq _ ht
  rw [Level.goals_chain, Level.ends_chain]
  refine (h.both hmore hpass).map (f := fun x => .ofList x.1 (x.2.map Prod.snd)) ⟨?_, ?_, ?_, ?_⟩
  · intro e
    obtain ⟨first, es, rfl⟩ := e.exists_ofList
    exact ⟨(first, es.map fun e => ((), e)), by simp [Function.comp_def]⟩
  · rintro ⟨first, es⟩
    show (Expr.ofList first (es.map Prod.snd)).terminals = _
    rw [Expr.terminals_ofList, List.flatMap_map]
    rfl
  · rintro ⟨first, es⟩
    show [] = [] ++ es.flatMap fun _ => [] ++ []
    simp
  · rintro before ⟨first, es⟩
    have hall : ((Phrase.kind op.kind).both (Expr.phrase p op.below)).AllLawful before es ↔
        ∀ x ∈ es, ∀ y ∈ x.2.names, p.Sees before y := by
      rw [Phrase.allLawful_of_declares_eq_nil fun _ => rfl]
      refine forall₂_congr fun x _ => ?_
      show True ∧ (∀ y ∈ x.2.names, p.Sees (before ++ []) y) ↔ _
      rw [List.append_nil, true_and]
    show (∀ y ∈ (Expr.ofList first (es.map Prod.snd)).names, p.Sees before y) ↔
      (∀ y ∈ first.names, p.Sees before y) ∧ Phrase.AllLawful _ (before ++ []) es
    rw [List.append_nil, hall, Expr.names_ofList, List.forall_mem_append, List.flatMap_map]
    simp only [List.mem_flatMap]
    refine and_congr_right fun _ => ?_
    constructor
    · exact fun h x hx y hy => h y ⟨x, hx, hy⟩
    · rintro h y ⟨x, hx, hy⟩
      exact h x hx y hy

/-! ## Factors -/

/-- What a factor is by its first token. -/
def Expr.ByFirst (holds : Expr .factor → List Token → Prop) (t : Token) (ts : List Token) : Prop :=
  match t.kind with
  | .identifier => holds (.name t.lexeme) ts
  | .number => holds .number ts
  | .leftParen => ∃ e us vs, ts = us ++ vs ∧ Spells us (e.terminals ++ [.kind .rightParen]) ∧
      holds (.parens e) vs
  | .notWord => ∃ f us vs, ts = us ++ vs ∧ Spells us f.terminals ∧ holds (.not f) vs
  | .additive => t.lexeme = "-" ∧
      ∃ f us vs, ts = us ++ vs ∧ Spells us f.terminals ∧ holds (.minus f) vs
  | _ => False

theorem Expr.exists_factor_iff {holds : Expr .factor → List Token → Prop} {t : Token}
    {ts : List Token} :
    (∃ f us vs, t :: ts = us ++ vs ∧ Spells us f.terminals ∧ holds f vs) ↔
      ByFirst holds t ts := by
  unfold ByFirst
  constructor
  · rintro ⟨f, us, vs, heq, hus, h⟩
    cases f with
    | name y =>
      obtain ⟨u, rfl, hk, rfl⟩ := spells_singleton.mp hus
      cases heq
      rw [hk]
      exact h
    | number =>
      obtain ⟨u, rfl, hk⟩ := spells_singleton.mp hus
      cases heq
      rw [show t.kind = .number from hk]
      exact h
    | parens e =>
      obtain ⟨u, us, rfl, hk, hmore⟩ := spells_cons.mp hus
      cases heq
      rw [show t.kind = .leftParen from hk]
      exact ⟨e, us, vs, rfl, hmore, h⟩
    | not f =>
      obtain ⟨u, us, rfl, hk, hmore⟩ := spells_cons.mp hus
      cases heq
      rw [show t.kind = .notWord from hk]
      exact ⟨f, us, vs, rfl, hmore, h⟩
    | minus f =>
      obtain ⟨u, us, rfl, ⟨hk, hminus⟩, hmore⟩ := spells_cons.mp hus
      cases heq
      rw [hk]
      exact ⟨hminus, f, us, vs, rfl, hmore, h⟩
  · intro h
    split at h
    · next hk => exact ⟨.name t.lexeme, [t], ts, rfl, spells_singleton.mpr ⟨t, rfl, hk, rfl⟩, h⟩
    · next hk => exact ⟨.number, [t], ts, rfl, spells_singleton.mpr ⟨t, rfl, hk⟩, h⟩
    · next hk =>
      obtain ⟨e, us, vs, rfl, hus, h⟩ := h
      exact ⟨.parens e, t :: us, vs, rfl, spells_cons.mpr ⟨t, us, rfl, hk, hus⟩, h⟩
    · next hk =>
      obtain ⟨f, us, vs, rfl, hus, h⟩ := h
      exact ⟨.not f, t :: us, vs, rfl, spells_cons.mpr ⟨t, us, rfl, hk, hus⟩, h⟩
    · next hk =>
      obtain ⟨hminus, f, us, vs, rfl, hus, h⟩ := h
      exact ⟨.minus f, t :: us, vs, rfl, spells_cons.mpr ⟨t, us, rfl, ⟨hk, hminus⟩, hus⟩, h⟩
    · exact h.elim

/-- A factor of one more token, where expressions and factors inside it are known. -/
theorem Place.Means.factor (hinside : p.Means n Goal.expression Level.expression.ends
      (Expr.phrase p .expression)) (hfactor : p.Means n [.factor] [] (Expr.phrase p .factor)) :
    p.Means (n + 1) [.factor] [] (Expr.phrase p .factor) := by
  refine of_cons fun names gs t ts hts hplain _ => ?_
  have hts : ts.length ≤ n := Nat.le_of_succ_le_succ hts
  have hplain : ∀ u ∈ ts, u.Plain := fun u hu => hplain u (List.mem_cons_of_mem _ hu)
  have hmove : moveOf p.name t ([Goal.factor] ++ gs) = _ := moveOf_cons_of_none rfl
  simp only [Goal.move] at hmove
  have hparens := (hinside.both (token .rightParen) fun gs _ k hk =>
    refuses_token (p := p) (k := .rightParen) (by rintro rfl; revert hk; decide)) names gs ts hts
      hplain fun _ hk => absurd hk List.not_mem_nil
  have hfactor := hfactor names gs ts hts hplain fun _ hk => absurd hk List.not_mem_nil
  refine Iff.trans ?_ Expr.exists_factor_iff.symm
  unfold Expr.ByFirst
  have hdeclares : ∀ f, names ++ (Expr.phrase p .factor).declares f = names := fun _ =>
    List.append_nil _
  have hdeclares' : ∀ x, names ++
      ((Expr.phrase p .expression).both (.kind .rightParen)).declares x = names := fun _ =>
    List.append_nil _
  simp only [hdeclares, hdeclares'] at hfactor hparens ⊢
  cases hk : t.kind with
  | identifier =>
    rw [hk] at hmove
    rw [completes_use hmove]
    exact and_congr_left fun _ => (List.forall_mem_singleton (p := p.Sees names)).symm
  | number =>
    rw [hk] at hmove
    rw [completes_read hmove]
    exact (and_iff_right fun y hy => absurd hy List.not_mem_nil).symm
  | leftParen =>
    rw [hk] at hmove
    rw [completes_read hmove]
    refine hparens.trans ?_
    constructor
    · rintro ⟨⟨e, ⟨⟩⟩, us, vs, heq, hus, ⟨hlawful, -⟩, h⟩
      exact ⟨e, us, vs, heq, hus, hlawful, h⟩
    · rintro ⟨e, us, vs, heq, hus, hlawful, h⟩
      exact ⟨(e, ()), us, vs, heq, hus, ⟨hlawful, trivial⟩, h⟩
  | notWord =>
    rw [hk] at hmove
    rw [completes_read hmove]
    exact hfactor
  | additive =>
    rw [hk] at hmove
    by_cases hminus : t.lexeme = "-"
    · rw [if_pos hminus] at hmove
      rw [completes_read hmove]
      exact hfactor.trans (and_iff_right hminus).symm
    · rw [if_neg hminus] at hmove
      exact iff_of_false (not_completes_of_refused hmove) fun h => hminus h.1
  | _ =>
    rw [hk] at hmove
    exact iff_of_false (not_completes_of_refused hmove) id

/-- By induction on the number of tokens. -/
theorem Place.Means.expressions : p.Means n [.factor] [] (Expr.phrase p .factor) ∧
    p.Means n Goal.expression Level.expression.ends (Expr.phrase p .expression) := by
  induction n with
  | zero => exact ⟨zero, zero⟩
  | succ n ih =>
    have hfactor := factor ih.2 ih.1
    have hterm : p.Means (n + 1) Level.term.goals Level.term.ends (Expr.phrase p .term) :=
      chain .multiplicative hfactor
    exact ⟨hfactor, chain .additive hterm⟩

/-! ## Statements -/

/-- Assignments in a place. -/
def Assignment.phrase (p : Place) : Phrase Assignment where
  terminals := terminals
  declares _ := []
  Lawful before a := ∀ y ∈ a.names, p.Sees before y

/-- Statements in a place. -/
def Phrase.statements (p : Place) : Phrase (List Assignment) where
  terminals as := as.flatMap Assignment.terminals
  declares _ := []
  Lawful before as := ∀ a ∈ as, ∀ y ∈ a.names, p.Sees before y

theorem Place.Means.statements : p.Means n [.statements] [.identifier] (.statements p) := by
  have hmore : p.Means n (Goal.token .assign :: Goal.expression ++ [Goal.token .semicolon]) []
      ((Phrase.kind .assign).both ((Expr.phrase p .expression).both (.kind .semicolon))) := by
    refine (token .assign).both (expressions.2.both (token .semicolon) fun gs _ k hk => ?_)
      fun _ _ _ hk => absurd hk List.not_mem_nil
    exact refuses_token (by rintro rfl; revert hk; decide)
  have hall : p.Means n [.statements] [.identifier] (Assignment.phrase p).many := by
    refine many rfl (fun names gs t ts hts hplain _ hk => ?_) fun a us hus => ?_
    · have hmove : moveOf p.name t (.statements :: gs) = .ok ⟨.use,
          .token .assign :: Goal.expression ++ [Goal.token .semicolon] ++ .statements :: gs⟩ :=
        (Goal.Moves.statements hk).moveOf_eq
      rw [completes_use hmove, hmore names (.statements :: gs) ts (Nat.le_of_succ_le hts)
        (fun u hu => hplain u (List.mem_cons_of_mem _ hu)) fun _ hk => absurd hk List.not_mem_nil]
      constructor
      · rintro ⟨hsees, ⟨⟨⟩, e, ⟨⟩⟩, us, vs, rfl, hus, ⟨-, hlawful, -⟩, h⟩
        refine ⟨⟨t.lexeme, e⟩, t :: us, vs, rfl, spells_cons.mpr ⟨t, us, rfl, ⟨hk, rfl⟩, hus⟩,
          ?_, h⟩
        rw [show names ++ Phrase.declares _ _ = names from List.append_nil _] at hlawful
        exact List.forall_mem_cons.mpr ⟨hsees, hlawful⟩
      · rintro ⟨⟨y, e⟩, us, vs, heq, hus, hlawful, h⟩
        obtain ⟨u, us, rfl, ⟨-, rfl⟩, hmore⟩ := spells_cons.mp hus
        cases heq
        obtain ⟨hsees, hlawful⟩ := List.forall_mem_cons.mp hlawful
        refine ⟨hsees, ((), e, ()), us, vs, rfl, hmore, ⟨trivial, ?_, trivial⟩, h⟩
        rwa [show names ++ Phrase.declares _ _ = names from List.append_nil _]
    · obtain ⟨t, us, rfl, ht, -⟩ := spells_cons.mp hus
      exact ⟨t, us, rfl, ht.1⟩
  refine hall.map (f := id) ⟨fun as => ⟨as, rfl⟩, fun as => rfl, fun as => ?_, fun before as => ?_⟩
  · show [] = as.flatMap fun _ => []
    simp
  · have hnone : ∀ a, (Assignment.phrase p).declares a = [] := fun _ => rfl
    exact (Phrase.allLawful_of_declares_eq_nil hnone).symm

end ProcLang
