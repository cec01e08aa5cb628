import ProcLang.Analysis.Statements
import ProcLang.Proofs.Names

/-!
# Reading statements

Expressions and statements are read as their goals say, and nothing but tokens is taken
(`Before.ends_expression`, `Before.ends_statements`). The budget of a state bounds the depth of the
recursion through parentheses and signs, so the analysis never stops for want of depth.
-/

namespace ProcLang.Analysis

variable {b s : State} {rest : List Frame} {name : String} {gs : List Goal} {t : Token}

section Expressions

/-- What the reading of a goal comes to: only tokens are taken, and one of them at least. -/
def AfterTokens (b : State) (name : String) (gs : List Goal) (rest : List Frame) (s : State)
    (s' : State) : Prop :=
  Before b name gs rest s' ∧ OnlyTokens s s' ∧ s'.budget < s.budget

/-- In states of a budget up to `n` the step reads a factor. -/
def ReadsFactor (b : State) (name : String) (rest : List Frame) (n : Nat) (step : Analysis Unit) :
    Prop :=
  ∀ s gs, s.budget ≤ n → Before b name (.factor :: gs) rest s → s.pending = [] →
    Ends step s (fun _ => AfterTokens b name gs rest s) (Stops b)

theorem ReadsFactor.ends_terms {n : Nat} {step : Analysis Unit}
    (hstep : ReadsFactor b name rest n step) (hn : s.budget ≤ n)
    (h : Before b name (Goal.expression ++ gs) rest s) (hp : s.pending = [])
    (hmul : .multiplicative ∉ heads gs) (hadd : .additive ∉ heads gs) :
    Ends (separatedBy .additive (separatedBy .multiplicative step)) s
      (fun _ => AfterTokens b name gs rest s) (Stops b) := by
  have hquiet : ∀ s' gs, OnlyTokens s s' ∧ s'.budget ≤ n → Quiet gs s' :=
    fun s' gs hs' => .of_onlyTokens hs'.1 hp
  have htokens : ∀ s₁ s₂, OnlyTokens s s₁ ∧ s₁.budget ≤ n → OnlyTokens s₁ s₂ →
      s₂.budget < s₁.budget → OnlyTokens s s₂ ∧ s₂.budget ≤ n :=
    fun s₁ s₂ hs₁ honly hlt => ⟨hs₁.1.trans honly, by omega⟩
  have hmul' : .multiplicative ∉ heads (.moreTerms :: gs) := by
    simpa [heads, Goal.start?] using hmul
  refine (Before.ends_separatedBy [.factor, .moreFactors]
    (fun s' => OnlyTokens s s' ∧ s'.budget ≤ n) (g := .moreTerms) rfl (by decide) hadd
    (fun t ht => Move.onKind_eq _ ht) htokens (fun s' hs' => hquiet s' _ hs')
    (fun s₁ h₁ hs₁ => ?_) h ⟨.refl s, hn⟩).imp ?_
  · refine (Before.ends_separatedBy [.factor]
      (fun s' => OnlyTokens s s' ∧ s'.budget ≤ n) (g := .moreFactors) rfl (by decide) hmul'
      (fun t ht => Move.onKind_eq _ ht) htokens (fun s' hs' => hquiet s' _ hs')
      (fun s₂ h₂ hs₂ => ?_) h₁ hs₁)
    refine (hstep s₂ _ hs₂.2 h₂ (hs₂.1.pending.trans hp)).imp ?_
    rintro - s₃ ⟨h₃, honly, hlt⟩
    exact ⟨h₃, htokens _ _ hs₂ honly hlt, hlt⟩
  · rintro - s' ⟨h', hs', hlt⟩
    exact ⟨h', hs'.1, hlt⟩

theorem Before.ends_reject_factor {ok : Unit → State → Prop}
    (h : Before b name (.factor :: gs) rest s) (ht : s.current = some t)
    (hno : moveOf name t (.factor :: gs) = .error .unexpected) : Ends (reject .factor) s ok (Stops b) := by
  rw [ends_reject ht]
  refine h.unexpected ht hno fun k hk => ?_
  cases List.mem_singleton.mp hk
  exact ⟨List.mem_cons_self, fun names => ⟨⟨.number, "", 0⟩, _, rfl, by decide, rfl⟩⟩

/-- By induction on the budget, which every token that is taken brings down. -/
theorem readsFactor_factorWithin (n : Nat) : ReadsFactor b name rest n (factorWithin n) := by
  induction n with
  | zero =>
    intro s gs hn h hp
    obtain ⟨t, ht⟩ := Option.isSome_iff_exists.mp h.isSome
    have hkind := State.kind_of_budget (Nat.le_zero.mp hn) ht
    exact h.ends_reject_factor ht (by rw [moveOf_cons_of_none rfl, Goal.move, hkind]; rfl)
  | succ n ih =>
    intro s gs hn h hp
    obtain ⟨t, ht⟩ := Option.isSome_iff_exists.mp h.isSome
    -- a token that is read leaves goals to which the rest of the step belongs
    have hread : ∀ {k gs'}, t.kind = k → k ≠ .endOfInput →
        moveOf name t (.factor :: gs) = .ok ⟨.read, gs'⟩ →
        Ends (expect k) s (fun _ s' => Before b name gs' rest s' ∧ OnlyTokens s s' ∧
          s'.pending = [] ∧ s'.budget < s.budget) (Stops b) := by
      intro k gs' hkind hk hm
      refine (h.ends_expect_of_kind hk ht hkind hm).imp ?_
      rintro - s' ⟨⟨names, hs⟩, honly, hlt⟩
      exact ⟨hs.before (.of_onlyTokens honly hp), honly, honly.pending.trans hp, hlt⟩
    have hfactor : ∀ {k}, t.kind = k → k ≠ .endOfInput →
        moveOf name t (.factor :: gs) = .ok ⟨.read, .factor :: gs⟩ →
        Ends (do expect k; factorWithin n) s (fun _ => AfterTokens b name gs rest s)
          (Stops b) := by
      intro k hkind hk hm
      refine (hread hkind hk hm).andThen ?_
      rintro - s₁ ⟨h₁, honly, hp₁, hlt⟩
      refine (ih s₁ gs (by omega) h₁ hp₁).imp ?_
      rintro - s₂ ⟨h₂, honly', hlt'⟩
      exact ⟨h₂, honly.trans honly', by omega⟩
    unfold factorWithin
    rw [ends_bind, ends_currentToken ht]
    split
    · next hkind =>
      have hm : moveOf name t (.factor :: gs) = .ok ⟨.use, gs⟩ := (Goal.Moves.name hkind).moveOf_eq
      refine (h.ends_checkDefined ht hm).andThen ?_
      rintro - s₁ ⟨rfl, hv⟩
      refine (h.ends_expect_used ht hkind hm hv).imp ?_
      rintro - s₂ ⟨⟨names, hs⟩, honly, hlt⟩
      exact ⟨hs.before (.of_onlyTokens honly hp), honly, hlt⟩
    · next hkind =>
      refine (hread hkind (by decide) (Goal.Moves.number hkind).moveOf_eq).imp ?_
      rintro - s' ⟨h', honly, -, hlt⟩
      exact ⟨h', honly, hlt⟩
    · next hkind =>
      have hm : moveOf name t (.factor :: gs) =
          .ok ⟨.read, Goal.expression ++ .token .rightParen :: gs⟩ :=
        (Goal.Moves.parens hkind).moveOf_eq
      refine (hread hkind (by decide) hm).andThen ?_
      rintro - s₁ ⟨h₁, honly₁, hp₁, hlt₁⟩
      refine (ReadsFactor.ends_terms ih (by omega) h₁ hp₁ (by simp)
        (by simp)).andThen ?_
      rintro - s₂ ⟨h₂, honly₂, hlt₂⟩
      refine (h₂.ends_token (by decide)).imp ?_
      rintro - s₃ ⟨⟨names, hs⟩, honly₃, hlt₃⟩
      have honly := (honly₁.trans honly₂).trans honly₃
      exact ⟨hs.before (.of_onlyTokens honly hp), honly, by omega⟩
    · next hkind =>
      exact hfactor hkind (by decide) (Goal.Moves.not hkind).moveOf_eq
    · next hkind =>
      by_cases hminus : t.lexeme = "-"
      · rw [if_pos hminus]
        exact hfactor hkind (by decide) (Goal.Moves.minus hkind hminus).moveOf_eq
      · rw [if_neg hminus]
        refine h.ends_reject_factor ht ?_
        rw [moveOf_cons_of_none rfl, Goal.move, hkind]
        simp only [if_neg hminus]
        rfl
    · next h₁ h₂ h₃ h₄ h₅ =>
      refine h.ends_reject_factor ht ?_
      rw [moveOf_cons_of_none rfl, Goal.move]
      split <;> first | rfl | contradiction

/-- An expression, where no factor or term can follow it. -/
theorem Before.ends_expression (h : Before b name (Goal.expression ++ gs) rest s)
    (hp : s.pending = []) (hmul : .multiplicative ∉ heads gs) (hadd : .additive ∉ heads gs) :
    Ends expression s (fun _ => AfterTokens b name gs rest s) (Stops b) := by
  refine ReadsFactor.ends_terms (n := s.budget) (fun s' gs _ h' hp' => ?_) (Nat.le_refl _) h hp
    hmul hadd
  exact readsFactor_factorWithin _ s' gs s'.budget_le h' hp'

end Expressions

/-! ## Statements -/

/-- An assignment is the beginning of the statements. -/
theorem Before.ends_assignment (h : Before b name (.statements :: gs) rest s)
    (ht : s.current = some t) (hkind : t.kind = .identifier) (hp : s.pending = []) :
    Ends assignment s
      (fun _ => AfterTokens b name (.token .semicolon :: .statements :: gs) rest s) (Stops b) := by
  have hm : moveOf name t (.statements :: gs) = .ok ⟨.use, .token .assign ::
      (Goal.expression ++ .token .semicolon :: .statements :: gs)⟩ :=
    (Goal.Moves.statements hkind).moveOf_eq
  unfold assignment
  rw [ends_bind, ends_currentToken ht]
  refine (h.ends_checkDefined ht hm).andThen ?_
  rintro - s₀ ⟨rfl, hv⟩
  refine (h.ends_expect_used ht hkind hm hv).andThen ?_
  rintro - s₁ ⟨⟨names₁, hs₁⟩, honly₁, hlt₁⟩
  refine ((hs₁.before (.of_onlyTokens honly₁ hp)).ends_token (by decide)).andThen ?_
  rintro - s₂ ⟨⟨names₂, hs₂⟩, honly₂, hlt₂⟩
  have honly := honly₁.trans honly₂
  refine ((hs₂.before (.of_onlyTokens honly hp)).ends_expression (honly.pending.trans hp)
    (by simp) (by simp)).mono
    ?_ fun _ _ h => h
  rintro - s₃ ⟨h₃, honly₃, hlt₃⟩
  exact ⟨h₃, honly.trans honly₃, by omega⟩

/-- Statements, which the word behind them ends. -/
theorem Before.ends_statements (h : Before b name (.statements :: gs) rest s)
    (hp : s.pending = []) (hheads : .identifier ∉ heads gs) :
    Ends statements s (fun _ s' => Before b name gs rest s' ∧ OnlyTokens s s' ∧
      s'.budget ≤ s.budget) (Stops b) := by
  unfold statements
  refine h.ends_whileKind (OnlyTokens s) rfl (by decide) hheads
    (fun s₁ t h₁ hs₁ ht hkind => ?_) (.refl s)
  have hp₁ := hs₁.pending.trans hp
  have hstatement : Ends statement s₁ (fun _ =>
      AfterTokens b name (.token .semicolon :: .statements :: gs) rest s₁) (Stops b) := by
    unfold statement
    rw [ends_bind, ends_atKind ht]
    simp only [hkind, decide_true, if_true]
    exact h₁.ends_assignment ht hkind hp₁
  refine hstatement.andThen ?_
  rintro - s₂ ⟨h₂, honly₂, hlt₂⟩
  refine (h₂.ends_token (by decide)).imp ?_
  rintro - s₃ ⟨⟨names, hs₃⟩, honly₃, hlt₃⟩
  have honly := honly₂.trans honly₃
  exact ⟨hs₃.before (.of_onlyTokens honly hp₁), hs₁.trans honly, by omega⟩

end ProcLang.Analysis
