import ProcLang.Proofs.Forks
import ProcLang.Proofs.Standing
import ProcLang.Proofs.StatementPhrases
import ProcLang.Proofs.Unambiguity

/-!
# What is read as an expression

To read an expression is to take the tokens of a tree of the grammar, up to a token that could not
continue it, where the table sees each name among them. Both directions hold in every state and over
every source: what is read is such an expression (`Analysis.ends_expression`), and where there is one
it is read (`Expr.ReadFrom.readWithin_eq`).
-/

namespace ProcLang

/-! ## Names that are seen -/

namespace SymbolTable

/-- The name is declared, and its last declaration is not in a deeper scope than the present one. -/
def Sees (t : SymbolTable) (y : String) : Prop :=
  ∃ h, t.lookup? y = some h ∧ (t.symbol h).depth ≤ t.depth

theorem sees_iff_any {t : SymbolTable} {y : String} :
    t.Sees y ↔ (t.lookup? y).any (fun h => (t.symbol h).depth ≤ t.depth) = true := by
  rw [Option.any_eq_true]
  simp only [Sees, decide_eq_true_eq]

instance (t : SymbolTable) (y : String) : Decidable (t.Sees y) := decidable_of_iff _ sees_iff_any.symm

end SymbolTable

namespace Analysis

variable {s s₁ s₂ s' s'' : State} {t u : Token} {ts us : List Token} {kind : Kind} {k n m : Nat}
  {x : Failure} {l : ProcLang.Level} {op : Operator}

theorem checkDefined_eq_of_sees (h : s.table.Sees t.lexeme) : checkDefined t s = .ok () s := by
  show (if _ then _ else _ : Analysis Unit) s = _
  rw [if_neg (by simpa using SymbolTable.sees_iff_any.mp h)]
  rfl

theorem checkDefined_eq_of_not_sees (h : ¬ s.table.Sees t.lexeme) :
    checkDefined t s = .error (.diagnostic (.undefined t.lexeme t.line)) s := by
  show (if _ then _ else _ : Analysis Unit) s = _
  rw [if_pos (by simpa using SymbolTable.sees_iff_any.not.mp h)]
  rfl

/-! ## Tokens one after another -/

/-- The tokens were taken one after another. -/
def TakesAll : List Token → State → State → Prop
  | [], s, s' => s' = s
  | t :: ts, s, s' => ∃ mid, Takes t s mid ∧ TakesAll ts mid s'

theorem takesAll_append :
    TakesAll (ts ++ us) s s' ↔ ∃ mid, TakesAll ts s mid ∧ TakesAll us mid s' := by
  induction ts generalizing s with
  | nil => simp [TakesAll]
  | cons t ts ih =>
    simp only [List.cons_append, TakesAll, ih]
    constructor
    · rintro ⟨first, ht, mid, hts, hus⟩
      exact ⟨mid, ⟨first, ht, hts⟩, hus⟩
    · rintro ⟨mid, ⟨first, ht, hts⟩, hus⟩
      exact ⟨first, ht, mid, hts, hus⟩

theorem takesAll_singleton : TakesAll [t] s s' ↔ Takes t s s' := by
  simp [TakesAll]

namespace TakesAll

theorem nil : TakesAll [] s s := rfl

theorem append (h : TakesAll ts s s') (h' : TakesAll us s' s'') : TakesAll (ts ++ us) s s'' :=
  takesAll_append.mpr ⟨s', h, h'⟩

/-- What each token does and what may be put together is done by all of them. -/
theorem relates (R : State → State → Prop) (hrefl : ∀ s, R s s)
    (htrans : ∀ {s s' s''}, R s s' → R s' s'' → R s s'')
    (htakes : ∀ {t s s'}, Takes t s s' → R s s') (h : TakesAll ts s s') : R s s' := by
  induction ts generalizing s with
  | nil =>
    obtain rfl : s' = s := h
    exact hrefl _
  | cons t ts ih =>
    obtain ⟨mid, ht, h⟩ := h
    exact htrans (htakes ht) (ih h)

theorem onlyTokens (h : TakesAll ts s s') : OnlyTokens s s' :=
  h.relates OnlyTokens .refl .trans Takes.onlyTokens

theorem budget_le (h : TakesAll ts s s') : s'.budget ≤ s.budget :=
  h.relates (fun s s' => s'.budget ≤ s.budget) (fun _ => Nat.le_refl _)
    (fun h h' => Nat.le_trans h' h) Takes.budget_le

end TakesAll

/-! ## Failing -/

/-- How reading an expression can fail: tokens were taken, and then one was refused, a name was not
seen, or the source gave no next token. -/
inductive ExpressionFails (s : State) : Failure → State → Prop
  | unexpected {ts : List Token} {s' : State} {t : Token} (expected : Expectation) :
    TakesAll ts s s' → s'.current = some t →
    ExpressionFails s (.diagnostic (.unexpected expected t)) s'
  | undefined {ts : List Token} {s' : State} {t : Token} :
    TakesAll ts s s' → s'.current = some t → t.kind = .identifier → ¬ s.table.Sees t.lexeme →
    ExpressionFails s (.diagnostic (.undefined t.lexeme t.line)) s'
  | breaks {ts : List Token} {s' s'' : State} {t : Token} {err : ScanError} :
    TakesAll ts s s' → Breaks t err s' s'' → ExpressionFails s (.ofScanError err) s''

/-- What was taken before may be added. -/
theorem ExpressionFails.after (h : ExpressionFails s' x s'') (hts : TakesAll ts s s') :
    ExpressionFails s x s'' := by
  cases h with
  | unexpected expected hus hu => exact .unexpected expected (hts.append hus) hu
  | undefined hus hu hk hno =>
    exact .undefined (hts.append hus) hu hk (hts.onlyTokens.table ▸ hno)
  | breaks hus hbreaks => exact .breaks (hts.append hus) hbreaks

theorem ExpressionFails.onlyTokens (h : ExpressionFails s x s') : OnlyTokens s s' := by
  cases h with
  | unexpected _ hts | undefined hts => exact hts.onlyTokens
  | breaks hts hbreaks =>
    obtain ⟨source, -, -, rfl⟩ := hbreaks
    exact hts.onlyTokens.trans ⟨source, _, _, rfl⟩

theorem ends_reject_in_expression {expected : Expectation} {ok : Unit → State → Prop}
    (h : s.current.isSome) : Ends (reject expected) s ok (ExpressionFails s) := by
  obtain ⟨t, ht⟩ := Option.isSome_iff_exists.mp h
  exact (ends_reject ht).mpr (.unexpected expected .nil ht)

theorem ends_expect_in_expression (h : s.current.isSome) :
    Ends (expect kind) s (fun _ s' => ∃ t, t.kind = kind ∧ Takes t s s') (ExpressionFails s) := by
  refine (ends_expect h).mono (fun _ _ h => h) ?_
  rintro x s' (⟨t, err, -, hbreaks, rfl⟩ | ⟨t, ht, -, rfl, rfl⟩)
  · exact .breaks .nil hbreaks
  · exact .unexpected _ .nil ht

/-- The token that is taken is the one looked at. -/
theorem ends_expect_current (ht : s.current = some t) :
    Ends (expect kind) s (fun _ s' => t.kind = kind ∧ Takes t s s') (ExpressionFails s) := by
  refine (ends_expect_in_expression (by rw [ht]; rfl)).imp ?_
  rintro - s' ⟨u, hk, htakes⟩
  obtain ⟨_, _, hu, -⟩ := id htakes
  cases ht.symm.trans hu
  exact ⟨hk, htakes⟩

end Analysis

/-! ## Expressions that are read -/

section Trees

open Analysis (TakesAll Takes)

variable {l : Level} {op : Operator} {s s₁ s₂ s' : State} {t u : Token} {ts us : List Token}

/-- The tokens between the states are those of the expression, and its names are seen. -/
structure Expr.ReadFrom (e : Expr l) (ts : List Token) (s s' : State) : Prop where
  taken : TakesAll ts s s'
  spelt : Spells ts e.terminals
  seen : ∀ y ∈ e.names, s.table.Sees y

/-- An expression of the level was read. The token behind it is none that could continue it. -/
def Level.ReadBetween (l : Level) (s s' : State) : Prop :=
  (∃ (e : Expr l) (ts : List Token), e.ReadFrom ts s s') ∧
    ∃ t, s'.current = some t ∧ t.kind ∉ l.operators

theorem Operator.mem_operators {k : Kind} :
    k ∈ (Level.chain op).operators ↔ k = op.kind ∨ k ∈ op.below.operators := by
  cases op <;> simp [Level.operators, kind, below, or_comm]

namespace Expr.ReadFrom

theorem name (ht : Takes t s s') (hk : t.kind = .identifier) (hsees : s.table.Sees t.lexeme) :
    (Expr.name t.lexeme).ReadFrom [t] s s' where
  taken := Analysis.takesAll_singleton.mpr ht
  spelt := .cons ⟨hk, rfl⟩ .nil
  seen := List.forall_mem_singleton.mpr hsees

theorem number (ht : Takes t s s') (hk : t.kind = .number) : Expr.number.ReadFrom [t] s s' where
  taken := Analysis.takesAll_singleton.mpr ht
  spelt := .cons hk .nil
  seen := nofun

theorem parens {e : Expr .expression} (ht : Takes t s s₁) (hk : t.kind = .leftParen)
    (h : e.ReadFrom ts s₁ s₂) (hu : Takes u s₂ s') (hk' : u.kind = .rightParen) :
    (Expr.parens e).ReadFrom (t :: (ts ++ [u])) s s' where
  taken := ⟨s₁, ht, h.taken.append (Analysis.takesAll_singleton.mpr hu)⟩
  spelt := .cons hk (h.spelt.append (.cons hk' .nil))
  seen := ht.onlyTokens.table ▸ h.seen

theorem not {f : Expr .factor} (ht : Takes t s s₁) (hk : t.kind = .notWord)
    (h : f.ReadFrom ts s₁ s') : (Expr.not f).ReadFrom (t :: ts) s s' where
  taken := ⟨s₁, ht, h.taken⟩
  spelt := .cons hk h.spelt
  seen := ht.onlyTokens.table ▸ h.seen

theorem minus {f : Expr .factor} (ht : Takes t s s₁) (hk : t.kind = .additive)
    (hminus : t.lexeme = "-") (h : f.ReadFrom ts s₁ s') :
    (Expr.minus f).ReadFrom (t :: ts) s s' where
  taken := ⟨s₁, ht, h.taken⟩
  spelt := .cons ⟨hk, hminus⟩ h.spelt
  seen := ht.onlyTokens.table ▸ h.seen

theorem last {first : Expr op.below} (h : first.ReadFrom ts s s') :
    (Expr.last first).ReadFrom ts s s' :=
  ⟨h.taken, h.spelt, h.seen⟩

/-- One more part of a chain. -/
theorem concat {first e : Expr op.below} {es : List (Expr op.below)}
    (h : (ofList first es).ReadFrom ts s s₁) (ht : Takes t s₁ s₂) (hk : t.kind = op.kind)
    (he : e.ReadFrom us s₂ s') : (ofList first (es ++ [e])).ReadFrom (ts ++ t :: us) s s' where
  taken := h.taken.append ⟨s₂, ht, he.taken⟩
  spelt := by
    have hterminals : (ofList first (es ++ [e])).terminals =
        (ofList first es).terminals ++ .kind op.kind :: e.terminals := by
      simp [terminals_ofList]
    rw [hterminals]
    exact h.spelt.append (.cons hk he.spelt)
  seen := by
    have hnames : (ofList first (es ++ [e])).names = (ofList first es).names ++ e.names := by
      simp [names_ofList]
    rw [hnames, List.forall_mem_append]
    refine ⟨h.seen, ?_⟩
    rw [← h.taken.onlyTokens.table, ← ht.onlyTokens.table]
    exact he.seen

end Expr.ReadFrom

end Trees

/-! ## Nothing else is read -/

namespace Analysis

/-- Parts that are read with operators between them are an expression of the level above. The
invariant of the loop holds the parts so far. -/
theorem ends_chain (op : Operator) {item : Analysis Unit}
    (hitem : ∀ s, s.current.isSome →
      Ends item s (fun _ => op.below.ReadBetween s) (ExpressionFails s))
    {s : State} (hs : s.current.isSome) :
    Ends (separatedBy op.kind item) s (fun _ => (Level.chain op).ReadBetween s)
      (ExpressionFails s) := by
  unfold separatedBy
  refine (hitem s hs).andThen ?_
  rintro - s₁ ⟨⟨first, ts, hfirst⟩, hend⟩
  have hloop : Ends (whileKind op.kind do expect op.kind; item) s₁
      (fun _ s' => ((∃ es ts, (Expr.ofList first es).ReadFrom ts s s') ∧
        ∃ t, s'.current = some t ∧ t.kind ∉ op.below.operators) ∧ s'.budget ≤ s₁.budget ∧
          ∀ t, s'.current = some t → t.kind ≠ op.kind) (ExpressionFails s) := by
    refine ends_whileKind (by cases op <;> decide) ?_ ?_ ⟨⟨[], ts, hfirst.last⟩, hend⟩
    · rintro s₂ ⟨-, t, ht, -⟩
      rw [ht]
      rfl
    rintro s₂ t ⟨⟨es, ts, hread⟩, -⟩ ht hk
    refine (ends_expect_current ht).bind ?_ fun _ _ h => h.after hread.taken
    rintro - s₃ ⟨-, htakes⟩
    refine (hitem s₃ htakes.isSome).mono ?_ fun _ _ h =>
      h.after (hread.taken.append (takesAll_singleton.mpr htakes))
    rintro - s₄ ⟨⟨e, us, he⟩, hend⟩
    refine ⟨⟨⟨es ++ [e], _, hread.concat htakes hk he⟩, hend⟩, ?_⟩
    exact Nat.lt_of_le_of_lt he.taken.budget_le
      (htakes.budget_lt (by rw [hk]; cases op <;> decide))
  refine hloop.imp ?_
  rintro - s' ⟨⟨⟨es, ts, hread⟩, t, ht, hbelow⟩, -, hne⟩
  exact ⟨⟨_, ts, hread⟩, t, ht, fun hmem =>
    (Operator.mem_operators.mp hmem).elim (hne t ht) hbelow⟩

/-- By induction on the bound of the nesting. -/
theorem ends_factorWithin (n : Nat) {s : State} (hs : s.current.isSome) :
    Ends (factorWithin n) s (fun _ => ProcLang.Level.factor.ReadBetween s) (ExpressionFails s) := by
  induction n generalizing s with
  | zero => exact ends_reject_in_expression hs
  | succ n ih =>
    obtain ⟨t, ht⟩ := Option.isSome_iff_exists.mp hs
    have hread : ∀ {f : Expr .factor} {ts : List Token} {s' : State}, f.ReadFrom ts s s' →
        s'.current.isSome → ProcLang.Level.factor.ReadBetween s s' := by
      intro f ts s' hf hs'
      obtain ⟨u, hu⟩ := Option.isSome_iff_exists.mp hs'
      exact ⟨⟨f, ts, hf⟩, u, hu, List.not_mem_nil⟩
    unfold factorWithin
    rw [ends_bind, ends_currentToken ht]
    split
    · next hk =>
      by_cases hsees : s.table.Sees t.lexeme
      · refine ends_bind.mpr ?_
        unfold Ends
        rw [checkDefined_eq_of_sees hsees]
        refine (ends_expect_current ht).imp ?_
        rintro - s' ⟨-, htakes⟩
        exact hread (.name htakes hk hsees) htakes.isSome
      · refine ends_bind.mpr ?_
        unfold Ends
        rw [checkDefined_eq_of_not_sees hsees]
        exact .undefined .nil ht hk hsees
    · refine (ends_expect_current ht).imp ?_
      rintro - s' ⟨hk, htakes⟩
      exact hread (.number htakes hk) htakes.isSome
    · refine (ends_expect_current ht).andThen ?_
      rintro - s₁ ⟨hk, htakes⟩
      have hfirst : TakesAll [t] s s₁ := takesAll_singleton.mpr htakes
      refine (ends_chain .additive (fun s hs => ends_chain .multiplicative (fun s hs => ih hs) hs)
        htakes.isSome).bind ?_ fun _ _ h => h.after hfirst
      rintro - s₂ ⟨⟨e, ts, he⟩, u, hu, -⟩
      refine (ends_expect_current hu).mono ?_ fun _ _ h => h.after (hfirst.append he.taken)
      rintro - s' ⟨hk', htakes'⟩
      exact hread (.parens htakes hk he htakes' hk') htakes'.isSome
    · refine (ends_expect_current ht).andThen ?_
      rintro - s₁ ⟨hk, htakes⟩
      refine (ih htakes.isSome).mono ?_ fun _ _ h => h.after (takesAll_singleton.mpr htakes)
      rintro - s' ⟨⟨f, ts, hf⟩, u, hu, -⟩
      exact hread (.not htakes hk hf) (by rw [hu]; rfl)
    · split
      · next hminus =>
        refine (ends_expect_current ht).andThen ?_
        rintro - s₁ ⟨hk, htakes⟩
        refine (ih htakes.isSome).mono ?_ fun _ _ h => h.after (takesAll_singleton.mpr htakes)
        rintro - s' ⟨⟨f, ts, hf⟩, u, hu, -⟩
        exact hread (.minus htakes hk hminus hf) (by rw [hu]; rfl)
      · exact ends_reject_in_expression hs
    · exact ends_reject_in_expression hs

/-- What is read as an expression is one. -/
theorem ends_expression (hs : s.current.isSome) :
    Ends expression s (fun _ => ProcLang.Level.expression.ReadBetween s) (ExpressionFails s) :=
  ends_chain .additive (fun _ hs => ends_chain .multiplicative
    (fun s hs => ends_factorWithin (s.source.bound + 1) hs) hs) hs

/-! ## Every expression is read -/

/-- Reads an expression of a level, where `n` bounds the nesting of factors. -/
def readWithin (n : Nat) : ProcLang.Level → Analysis Unit
  | .factor => factorWithin n
  | .chain .multiplicative => separatedBy .multiplicative (factorWithin n)
  | .chain .additive => separatedBy .additive (separatedBy .multiplicative (factorWithin n))

theorem readWithin_chain : readWithin n (.chain op) = separatedBy op.kind (readWithin n op.below) := by
  cases op <;> rfl

theorem spends_readWithin : Spends 0 (readWithin n l) := by
  cases l with
  | factor => exact spends_factorWithin n
  | chain op =>
    cases op with
    | multiplicative => exact spends_separatedBy (spends_factorWithin n)
    | additive => exact spends_separatedBy (spends_separatedBy (spends_factorWithin n))

/-- The bound of the nesting does not matter where it is not below the budget. -/
theorem expression_eq (hn : s.budget ≤ n) : expression s = readWithin n .expression s := by
  have hfactor : AgreeUpTo n factor (factorWithin n) := fun s hs =>
    settled_factorWithin s.budget _ n s.budget_le hs s (Nat.le_refl _)
  exact (hfactor.separatedBy spends_factor).separatedBy (spends_separatedBy spends_factor) s hn

theorem factorWithin_succ (ht : s.current = some t) : factorWithin (n + 1) s = (match t.kind with
    | .identifier => do checkDefined t; expect .identifier
    | .number => expect .number
    | .leftParen => do
      expect .leftParen
      readWithin n .expression
      expect .rightParen
    | .notWord => do expect .notWord; factorWithin n
    | .additive =>
      if t.lexeme = "-" then do expect .additive; factorWithin n else reject .factor
    | _ => reject .factor) s := by
  show (currentToken .kind >>= _) s = _
  rw [bind_eq_of_ok (currentToken_eq ht)]
  rfl

/-- What follows the first part of a chain is read by a repetition. -/
theorem readWithin_chain_eq (h : readWithin n op.below s = .ok () s₁) :
    readWithin n (.chain op) s =
      whileKind op.kind (do expect op.kind; readWithin n op.below) s₁ := by
  rw [readWithin_chain]
  exact bind_eq_of_ok h

/-- Behind a part of a chain and an operator the rest of it is read as a chain of its own. -/
theorem readWithin_chain_eq_of_rest (h : readWithin n op.below s = .ok () s₁) (ht : Takes t s₁ s₂)
    (hk : t.kind = op.kind) (hrest : readWithin n (.chain op) s₂ = .ok () s') :
    readWithin n (.chain op) s = .ok () s' := by
  cases hnext : readWithin n op.below s₂ with
  | error x s₃ =>
    rw [readWithin_chain] at hrest
    cases (bind_eq_of_error hnext).symm.trans hrest
  | ok a s₃ =>
    have hround : (do expect op.kind; readWithin n op.below : Analysis Unit) s₁ = .ok () s₃ := by
      rw [bind_eq_of_ok (expect_eq_of_takes ht hk)]
      exact hnext
    have hoperator : op.kind ≠ .endOfInput := by cases op <;> decide
    have hspends : Spends 1 (do expect op.kind; readWithin n op.below) :=
      (spends_expect hoperator).bind fun _ => spends_readWithin
    rw [readWithin_chain_eq h, whileKind_eq_bind hoperator hspends ht.current hk,
      bind_eq_of_ok hround, ← readWithin_chain_eq hnext]
    exact hrest

end Analysis

namespace Expr.ReadFrom

open Analysis

variable {l : ProcLang.Level} {s s' : State} {u : Token} {ts : List Token} {n : Nat}

/-- Where there is an expression, and no operator follows that could continue it, it is read. By
induction on the expression. -/
theorem readWithin_eq {e : Expr l} (h : e.ReadFrom ts s s') (hu : s'.current = some u)
    (hend : u.kind ∉ l.operators) (hn : s.budget ≤ n) : readWithin n l s = .ok () s' := by
  obtain ⟨htaken, hspelt, hseen⟩ := h
  induction e generalizing ts s s' u n with
  | name y =>
    obtain ⟨t, rfl, hk, rfl⟩ := spells_singleton.mp hspelt
    have htakes := takesAll_singleton.mp htaken
    obtain ⟨m, rfl, -⟩ := htakes.exists_bound (by rw [hk]; decide) hn
    have hsees : s.table.Sees t.lexeme := hseen _ List.mem_cons_self
    show factorWithin (m + 1) s = _
    rw [factorWithin_succ htakes.current, hk]
    exact (bind_eq_of_ok (checkDefined_eq_of_sees hsees)).trans (expect_eq_of_takes htakes hk)
  | number =>
    obtain ⟨t, rfl, hk⟩ := spells_singleton.mp hspelt
    have htakes := takesAll_singleton.mp htaken
    replace hk : t.kind = .number := hk
    obtain ⟨m, rfl, -⟩ := htakes.exists_bound (by rw [hk]; decide) hn
    show factorWithin (m + 1) s = _
    rw [factorWithin_succ htakes.current, hk]
    exact expect_eq_of_takes htakes hk
  | parens e ih =>
    obtain ⟨t, us, rfl, hk, hspelt⟩ := spells_cons.mp hspelt
    obtain ⟨ts, us, rfl, hts, hus⟩ := spells_append.mp hspelt
    obtain ⟨v, rfl, hv⟩ := spells_singleton.mp hus
    replace hk : t.kind = .leftParen := hk
    replace hv : v.kind = .rightParen := hv
    obtain ⟨s₁, htakes, htaken⟩ := htaken
    obtain ⟨s₂, hinner, hlast⟩ := takesAll_append.mp htaken
    replace hlast := takesAll_singleton.mp hlast
    obtain ⟨m, rfl, hm⟩ := htakes.exists_bound (by rw [hk]; decide) hn
    have hread : readWithin m .expression s₁ = .ok () s₂ :=
      ih hlast.current (by rw [hv]; decide) hm hinner hts (htakes.onlyTokens.table ▸ hseen)
    show factorWithin (m + 1) s = _
    rw [factorWithin_succ htakes.current, hk]
    show (expect .leftParen >>= fun _ => readWithin m .expression >>= fun _ => _) s = _
    rw [bind_eq_of_ok (expect_eq_of_takes htakes hk), bind_eq_of_ok hread]
    exact expect_eq_of_takes hlast hv
  | not f ih =>
    obtain ⟨t, us, rfl, hk, hus⟩ := spells_cons.mp hspelt
    replace hk : t.kind = .notWord := hk
    obtain ⟨s₁, htakes, htaken⟩ := htaken
    obtain ⟨m, rfl, hm⟩ := htakes.exists_bound (by rw [hk]; decide) hn
    show factorWithin (m + 1) s = _
    rw [factorWithin_succ htakes.current, hk]
    exact (bind_eq_of_ok (expect_eq_of_takes htakes hk)).trans
      (ih hu hend hm htaken hus (htakes.onlyTokens.table ▸ hseen))
  | minus f ih =>
    obtain ⟨t, us, rfl, ⟨hk, hminus⟩, hus⟩ := spells_cons.mp hspelt
    obtain ⟨s₁, htakes, htaken⟩ := htaken
    obtain ⟨m, rfl, hm⟩ := htakes.exists_bound (by rw [hk]; decide) hn
    show factorWithin (m + 1) s = _
    rw [factorWithin_succ htakes.current, hk]
    show (if t.lexeme = "-" then _ else _ : Analysis Unit) s = _
    rw [if_pos hminus]
    exact (bind_eq_of_ok (expect_eq_of_takes htakes hk)).trans
      (ih hu hend hm htaken hus (htakes.onlyTokens.table ▸ hseen))
  | @last op first ih =>
    have hfirst := ih hu (fun hmem => hend (Operator.below_subset hmem)) hn htaken hspelt hseen
    rw [readWithin_chain_eq hfirst]
    exact whileKind_eq_of_ne hu fun hk => hend (hk ▸ Operator.kind_mem)
  | @more op first rest ih ihrest =>
    obtain ⟨ts, us, rfl, hts, hus⟩ := spells_append.mp hspelt
    obtain ⟨t, us, rfl, hk, hus⟩ := spells_cons.mp hus
    replace hk : t.kind = op.kind := hk
    obtain ⟨hseen, hseen'⟩ := List.forall_mem_append.mp hseen
    obtain ⟨s₁, htaken, s₂, htakes, htaken'⟩ := takesAll_append.mp htaken
    have hle := htaken.budget_le
    have hle' := htakes.budget_le
    have hfirst : readWithin n op.below s = .ok () s₁ :=
      ih htakes.current (hk ▸ Operator.kind_not_mem_below) hn htaken hts hseen
    have htable : s₂.table = s.table :=
      htakes.onlyTokens.table.trans htaken.onlyTokens.table
    have hrest : readWithin n (.chain op) s₂ = .ok () s' :=
      ihrest hu hend (by omega) htaken' hus (htable ▸ hseen')
    exact readWithin_chain_eq_of_rest hfirst htakes hk hrest

end Expr.ReadFrom

end ProcLang
