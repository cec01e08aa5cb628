import ProcLang.Analysis.Procedure
import ProcLang.Proofs.Standing
import ProcLang.Proofs.StatementPhrases

/-!
# What a step consumes

A step that succeeds has taken tokens that are read as the terminals of a tree of the grammar. Of
its failures nothing is said here (`Yields`). The rules for sequences and loops put the trees
together, and statements are read as the trees of assignments (`reading_statements`).

The tokens may come from any source. The word for a mode is recognised by how it is spelt, whatever
its kind is, and all other tokens by their kinds.
-/

namespace ProcLang

open Analysis (modeOfWord?)

/-- The kind is that of the word for a mode. -/
def Kind.IsMode (k : Kind) : Prop := ∃ m : Mode, m.kind = k

instance : DecidablePred Kind.IsMode := fun k =>
  decidable_of_iff (k = .inWord ∨ k = .outWord ∨ k = .inoutWord) <| by
    constructor
    · rintro (rfl | rfl | rfl)
      · exact ⟨.input, rfl⟩
      · exact ⟨.output, rfl⟩
      · exact ⟨.inout, rfl⟩
    · rintro ⟨m, rfl⟩
      cases m <;> decide

/-- The token is read as the terminal. -/
def Terminal.ReadAs : Terminal → Token → Prop
  | kind k, t => (∃ m : Mode, m.kind = k ∧ modeOfWord? t.lexeme = some m) ∨
      ¬ k.IsMode ∧ t.kind = k
  | word k lexeme, t => t.kind = k ∧ t.lexeme = lexeme

theorem Token.readAs_kind_iff {k : Kind} (hk : ¬ k.IsMode) (t : Token) :
    (Terminal.kind k).ReadAs t ↔ t.kind = k := by
  constructor
  · rintro (⟨m, rfl, -⟩ | ⟨-, ht⟩)
    · exact absurd ⟨m, rfl⟩ hk
    · exact ht
  · exact fun ht => Or.inr ⟨hk, ht⟩

/-- A token in which modes have their own kinds is read as what it stands for. -/
theorem Token.Plain.readAs_iff {t : Token} (ht : t.Plain) (w : Terminal) :
    w.ReadAs t ↔ w.Matches t := by
  cases w with
  | word k lexeme => exact Iff.rfl
  | kind k =>
    constructor
    · rintro (⟨m, rfl, hmode⟩ | ⟨-, hk⟩)
      · exact (ht.mode m).mp hmode
      · exact hk
    · intro hk
      by_cases hmode : k.IsMode
      · obtain ⟨m, rfl⟩ := hmode
        exact Or.inl ⟨m, rfl, (ht.mode m).mpr hk⟩
      · exact Or.inr ⟨hmode, hk⟩

/-- The tokens are read as the terminals one by one. -/
def ReadAll (ws : List Terminal) (ts : List Token) : Prop := List.Forall₂ Terminal.ReadAs ws ts

theorem readAll_iff_spells {ws : List Terminal} {ts : List Token} (hts : ∀ t ∈ ts, t.Plain) :
    ReadAll ws ts ↔ Spells ts ws := by
  unfold ReadAll Spells
  induction ts generalizing ws with
  | nil => simp
  | cons t ts ih =>
    obtain ⟨ht, hts⟩ := List.forall_mem_cons.mp hts
    rw [List.forall₂_cons_right_iff, List.forall₂_cons_right_iff]
    simp only [ht.readAs_iff, ih hts]

namespace Analysis

variable {α β : Type} {s s' s'' : State} {ws vs : List Terminal} {kind : Kind} {t : Token}

/-! ## Steps that succeed -/

/-- The step ends as is said if it succeeds. -/
def Yields (step : Analysis α) (s : State) (ok : α → State → Prop) : Prop :=
  Ends step s ok fun _ _ => True

section Rules

variable {ok : α → State → Prop} {inv : State → Prop} {step : Analysis Unit}

theorem Yields.of_ok {step : Analysis α} {a : α} (h : Yields step s ok) (hs : step s = .ok a s') :
    ok a s' :=
  Ends.of_ok h hs

theorem Yields.mono {step : Analysis α} {ok' : α → State → Prop} (h : Yields step s ok)
    (hok : ∀ a s', ok a s' → ok' a s') : Yields step s ok' :=
  Ends.mono h hok fun _ _ h => h

theorem Yields.bind {step : Analysis β} {f : β → Analysis α} {mid : β → State → Prop}
    (h : Yields step s mid) (hf : ∀ b s', mid b s' → Yields (f b) s' ok) :
    Yields (step >>= f) s ok :=
  Ends.bind h hf fun _ _ h => h

theorem yields_bind {step : Analysis β} {f : β → Analysis α} :
    Yields (step >>= f) s ok ↔ Yields step s fun b s' => Yields (f b) s' ok :=
  ends_bind

theorem yields_get {ok : State → State → Prop} : Yields get s ok ↔ ok s s := Iff.rfl

theorem yields_throw {e : Failure} : Yields (throw e : Analysis α) s ok := trivial

theorem Yields.currentToken {wanted : TokenPart} {ok : Token → State → Prop}
    (h : ∀ t, s.current = some t → ok t s) : Yields (currentToken wanted) s ok := by
  cases ht : s.current with
  | some t => exact (ends_currentToken ht).mpr (h t ht)
  | none => exact (ends_currentToken_of_none ht).mpr trivial

theorem yields_reject {expected : Expectation} : Yields (reject expected : Analysis α) s ok :=
  yields_bind.mpr (.currentToken fun _ _ => yields_throw)

theorem Yields.atKind {ok : Bool → State → Prop}
    (h : ∀ t, s.current = some t → ok (t.kind = kind) s) : Yields (atKind kind) s ok :=
  yields_bind.mpr (.currentToken h)

theorem yields_symbol {h : Handle} {f : Symbol → Analysis α} :
    Yields (symbol h >>= f) s ok ↔ Yields (f (s.table.symbol h)) s ok := Iff.rfl

theorem Yields.liftSymbol {r : Except SymbolError β} {b : β} {f : β → Analysis α} (hr : r = .ok b)
    (h : Yields (f b) s ok) : Yields (liftSymbol r >>= f) s ok := by
  rw [hr]
  exact h

theorem yields_expect (kind : Kind) (s : State) :
    Yields (expect kind) s fun _ s' => ∃ t, t.kind = kind ∧ Takes t s s' := by
  unfold Yields Ends
  cases h : expect kind s with
  | ok a s' => exact takes_of_expect h
  | error e s' => trivial

/-- The token that is taken is the one looked at. -/
theorem yields_expect_of_current (ht : s.current = some t) :
    Yields (expect kind) s fun _ s' => t.kind = kind ∧ Takes t s s' := by
  refine (yields_expect kind s).mono ?_
  rintro - s' ⟨u, hk, htakes⟩
  obtain ⟨_, _, hu, -⟩ := id htakes
  cases ht.symm.trans hu
  exact ⟨hk, htakes⟩

theorem Yields.ite {p : Prop} [Decidable p] {step second : Analysis α}
    (h : p → Yields step s ok) (h' : ¬ p → Yields second s ok) :
    Yields (if p then step else second) s ok := by
  split
  · next hp => exact h hp
  · next hp => exact h' hp

/-- A step that is made only where the token looked at is of the kind. -/
theorem ends_whereKind {bad : Failure → State → Prop} (hbad : ∀ e s, inv s → bad e s)
    (hstep : ∀ t, s.current = some t → t.kind = kind → Ends step s (fun _ => inv) bad)
    (h : inv s) : Ends (do if ← atKind kind then step) s (fun _ => inv) bad := by
  refine ends_bind.mpr (ends_bind.mpr ?_)
  cases ht : s.current with
  | none => exact (ends_currentToken_of_none ht).mpr (hbad _ s h)
  | some t =>
    rw [ends_currentToken ht, ends_pure]
    by_cases hk : t.kind = kind
    · simp only [hk, decide_true, if_true]
      exact hstep t ht hk
    · simp only [hk, decide_false, Bool.false_eq_true, if_false, ends_pure]
      exact h

/-- A repetition keeps what every round keeps. By induction on its bound. -/
theorem ends_repeatUpTo_of_rounds {bad : Failure → State → Prop} (hbad : ∀ e s, inv s → bad e s)
    (hstep : ∀ s t, inv s → s.current = some t → t.kind = kind → Ends step s (fun _ => inv) bad)
    (n : Nat) (h : inv s) : Ends (repeatUpTo kind step n) s (fun _ => inv) bad := by
  induction n generalizing s with
  | zero => exact h
  | succ n ih =>
    refine ends_whereKind hbad (fun t ht hk => ?_) h
    exact (hstep s t h ht hk).bind (fun _ s₁ h₁ => ih h₁) fun _ _ h => h

theorem ends_whileKind_of_rounds {bad : Failure → State → Prop} (hbad : ∀ e s, inv s → bad e s)
    (hstep : ∀ s t, inv s → s.current = some t → t.kind = kind → Ends step s (fun _ => inv) bad)
    (h : inv s) : Ends (whileKind kind step) s (fun _ => inv) bad :=
  ends_whereKind hbad (fun _ _ _ => ends_repeatUpTo_of_rounds hbad hstep _ h) h

end Rules

/-! ## Tokens that are consumed -/

/-- Between the states tokens were taken that are read as the terminals. -/
def Took (ws : List Terminal) (s s' : State) : Prop :=
  ∃ ts, s'.matched = ts.reverse ++ s.matched ∧ ReadAll ws ts

/-- Between the states tokens were taken that are read as the terminals, and nothing else was
done. -/
def Consumes (ws : List Terminal) (s s' : State) : Prop := OnlyTokens s s' ∧ Took ws s s'

theorem took_nil (h : s'.matched = s.matched) : Took [] s s' := ⟨[], h, .nil⟩

theorem Took.trans (h : Took ws s s') (h' : Took vs s' s'') : Took (ws ++ vs) s s'' := by
  obtain ⟨ts, hmatched, hread⟩ := h
  obtain ⟨us, hmatched', hread'⟩ := h'
  refine ⟨ts ++ us, ?_, List.rel_append hread hread'⟩
  rw [hmatched', hmatched, List.reverse_append, List.append_assoc]

/-- What takes no token may follow. -/
theorem Took.stay (h : Took ws s s') (hm : s''.matched = s'.matched) : Took ws s s'' := by
  obtain ⟨ts, hmatched, hread⟩ := h
  exact ⟨ts, hm.trans hmatched, hread⟩

theorem Consumes.refl (s : State) : Consumes [] s s := ⟨.refl s, took_nil rfl⟩

theorem Consumes.trans (h : Consumes ws s s') (h' : Consumes vs s' s'') :
    Consumes (ws ++ vs) s s'' :=
  ⟨h.1.trans h'.1, h.2.trans h'.2⟩

theorem Takes.consumes {w : Terminal} (h : Takes t s s') (hw : w.ReadAs t) :
    Consumes [w] s s' := by
  obtain ⟨u, source, -, -, rfl⟩ := h
  exact ⟨⟨source, some u, t :: s.matched, rfl⟩, [t], rfl, .cons hw .nil⟩

/-- A token of a kind that is not that of a mode. -/
theorem yields_expect_kind (hkind : ¬ kind.IsMode) (s : State) :
    Yields (expect kind) s fun _ => Consumes [.kind kind] s := by
  refine (yields_expect kind s).mono ?_
  rintro - s' ⟨t, hk, htakes⟩
  exact htakes.consumes (Or.inr ⟨hkind, hk⟩)

/-- A token whose lexeme matters. -/
theorem yields_expect_word (ht : s.current = some t) :
    Yields (expect kind) s fun _ => Consumes [.word kind t.lexeme] s :=
  (yields_expect_of_current ht).mono fun _ _ h => h.2.consumes ⟨h.1, rfl⟩

/-! ## Trees put together -/

section Trees

variable {τ : Type} {item : Analysis Unit}

section Rules

variable (terminals : τ → List Terminal) (inv : List τ → State → Prop)

/-- Items are read one behind the other. The invariant tells the state from the trees so far. -/
theorem yields_many
    (hitem : ∀ xs s₁ t, inv xs s₁ → s₁.current = some t → t.kind = kind →
      Yields item s₁ fun _ s₂ => ∃ x, Took (terminals x) s₁ s₂ ∧ inv (xs ++ [x]) s₂)
    (xs : List τ) (h : inv xs s) :
    Yields (whileKind kind item) s fun _ s' =>
      ∃ ys, Took (ys.flatMap terminals) s s' ∧ inv (xs ++ ys) s' := by
  refine ends_whileKind_of_rounds (fun _ _ _ => trivial) ?_ ⟨[], took_nil rfl, by rwa [List.append_nil]⟩
  rintro s₁ t ⟨ys, htook, h₁⟩ ht hk
  refine (hitem _ s₁ t h₁ ht hk).mono ?_
  rintro - s₂ ⟨x, htook', h₂⟩
  refine ⟨ys ++ [x], ?_, ?_⟩
  · rw [List.flatMap_append, List.flatMap_singleton]
    exact htook.trans htook'
  · rwa [← List.append_assoc]

/-- Items are read that have tokens of the kind between them. -/
theorem yields_separatedBy (hkind : ¬ kind.IsMode)
    (htokens : ∀ xs s₁ s₂, inv xs s₁ → OnlyTokens s₁ s₂ → inv xs s₂)
    (hitem : ∀ xs s₁, inv xs s₁ →
      Yields item s₁ fun _ s₂ => ∃ x, Took (terminals x) s₁ s₂ ∧ inv (xs ++ [x]) s₂)
    (h : inv [] s) :
    Yields (separatedBy kind item) s fun _ s' => ∃ x more,
      Took (terminals x ++ more.flatMap fun y => .kind kind :: terminals y) s s' ∧
        inv (x :: more) s' := by
  refine (hitem [] s h).bind ?_
  rintro - s₁ ⟨x, htook, h₁⟩
  refine (yields_many (fun y => .kind kind :: terminals y) inv (fun xs s₂ t h₂ _ _ => ?_)
    [x] h₁).mono ?_
  · refine (yields_expect_kind hkind s₂).bind ?_
    rintro - s₃ ⟨honly, htook₃⟩
    refine (hitem xs s₃ (htokens xs s₂ s₃ h₂ honly)).mono ?_
    rintro - s₄ ⟨y, htook₄, h₄⟩
    exact ⟨y, htook₃.trans htook₄, h₄⟩
  · rintro - s₂ ⟨more, htook', h₂⟩
    exact ⟨x, more, htook.trans htook', h₂⟩

end Rules

variable {terminals : τ → List Terminal}

/-- The step consumes a tree. -/
abbrev Reading (terminals : τ → List Terminal) (step : Analysis Unit) : Prop :=
  ∀ s, Yields step s fun _ s' => ∃ x, Consumes (terminals x) s s'

/-- Nothing but trees and what stands between them is consumed. -/
theorem Reading.separatedBy (h : Reading terminals item) (hkind : ¬ kind.IsMode) :
    Reading (fun x : τ × List τ => terminals x.1 ++ x.2.flatMap fun y => .kind kind :: terminals y)
      (separatedBy kind item) := by
  intro s
  refine (yields_separatedBy terminals (fun _ => OnlyTokens s) hkind
    (fun _ s₁ s₂ h₁ honly => h₁.trans honly) (fun _ s₁ h₁ => ?_) (.refl s)).mono ?_
  · refine (h s₁).mono ?_
    rintro - s₂ ⟨x, honly, htook⟩
    exact ⟨x, htook, h₁.trans honly⟩
  · rintro - s' ⟨x, more, htook, honly⟩
    exact ⟨(x, more), honly, htook⟩

end Trees

/-! ## Statements -/

theorem yields_checkDefined (name : Token) (s : State) :
    Yields (checkDefined name) s fun _ s' => s' = s := by
  refine yields_bind.mpr ?_
  show Yields (if _ then _ else _) s _
  exact .ite (fun _ => yields_throw) fun _ => rfl

/-- Parts with operators between them are an expression of the level above. -/
theorem Reading.chain (op : Operator) {item : Analysis Unit}
    (h : Reading (Expr.terminals (l := op.below)) item) (hkind : ¬ op.kind.IsMode) :
    Reading (Expr.terminals (l := .chain op)) (Analysis.separatedBy op.kind item) := by
  intro s
  refine (h.separatedBy hkind s).mono ?_
  rintro - s' ⟨⟨e, es⟩, hs'⟩
  exact ⟨.ofList e es, by rwa [Expr.terminals_ofList]⟩

/-- By induction on the bound of the nesting. -/
theorem reading_factorWithin (n : Nat) :
    Reading (Expr.terminals (l := .factor)) (factorWithin n) := by
  induction n with
  | zero => exact fun _ => yields_reject
  | succ n ih =>
    intro s
    have hparens : Reading (Expr.terminals (l := .expression))
        (separatedBy .additive (separatedBy .multiplicative (factorWithin n))) :=
      .chain .additive (.chain .multiplicative ih (by decide)) (by decide)
    refine yields_bind.mpr (.currentToken fun t ht => ?_)
    split
    · refine (yields_checkDefined t s).bind ?_
      rintro - _ rfl
      exact (yields_expect_word ht).mono fun _ _ h => ⟨.name t.lexeme, h⟩
    · exact (yields_expect_kind (by decide) s).mono fun _ _ h => ⟨.number, h⟩
    · refine (yields_expect_kind (by decide) s).bind fun _ s₁ h₁ => (hparens s₁).bind ?_
      rintro - s₂ ⟨e, h₂⟩
      exact (yields_expect_kind (by decide) s₂).mono fun _ _ h₃ =>
        ⟨.parens e, (h₁.trans h₂).trans h₃⟩
    · refine (yields_expect_kind (by decide) s).bind fun _ s₁ h₁ => (ih s₁).mono ?_
      rintro - s₂ ⟨f, h₂⟩
      exact ⟨.not f, h₁.trans h₂⟩
    · refine .ite (fun hminus => ?_) fun _ => yields_reject
      refine (yields_expect_word ht).bind fun _ s₁ h₁ => (ih s₁).mono ?_
      rintro - s₂ ⟨f, h₂⟩
      rw [hminus] at h₁
      exact ⟨.minus f, h₁.trans h₂⟩
    · exact yields_reject

theorem reading_expression : Reading (Expr.terminals (l := .expression)) expression :=
  .chain .additive (.chain .multiplicative (fun s => reading_factorWithin _ s) (by decide))
    (by decide)

theorem reading_statements :
    Reading (fun body : List Assignment => body.flatMap Assignment.terminals) statements := by
  intro s
  refine (yields_many Assignment.terminals (fun _ => OnlyTokens s) (fun _ s₁ t h₁ ht hk => ?_)
    [] (.refl s)).mono ?_
  · unfold statement assignment
    refine yields_bind.mpr (yields_bind.mpr ((ends_atKind ht).mpr ?_))
    rw [if_pos (by simpa using hk)]
    refine yields_bind.mpr ((ends_currentToken ht).mpr ?_)
    refine (yields_checkDefined t s₁).bind ?_
    rintro - _ rfl
    refine (yields_expect_word ht).bind fun _ s₂ h₂ => ?_
    refine (yields_expect_kind (by decide) s₂).bind fun _ s₃ h₃ => (reading_expression s₃).mono ?_
    rintro - s₄ ⟨e, h₄⟩
    refine (yields_expect_kind (by decide) s₄).mono fun _ s₅ h₅ => ?_
    obtain ⟨honly, htook⟩ := ((h₂.trans h₃).trans h₄).trans h₅
    exact ⟨⟨t.lexeme, e⟩, htook, h₁.trans honly⟩
  · rintro - s' ⟨body, htook, honly⟩
    exact ⟨body, honly, htook⟩

/-- What stands behind the procedures that are nested in a procedure. -/
theorem reading_procedureBody (name : String) :
    Reading (fun x : List Assignment × String => .kind .beginWord ::
        x.1.flatMap Assignment.terminals ++ [.kind .endWord, .name x.2, .kind .semicolon])
      (procedureBody name) := by
  intro s
  refine (yields_expect_kind (by decide) s).bind fun _ s₁ h₁ => (reading_statements s₁).bind ?_
  rintro - s₂ ⟨body, h₂⟩
  refine (yields_expect_kind (by decide) s₂).bind fun _ s₃ h₃ => ?_
  refine yields_bind.mpr (yields_bind.mpr (.currentToken fun t ht => ?_))
  refine .ite (fun _ => yields_throw) fun _ => ?_
  refine (yields_expect_word ht).bind fun _ s₄ h₄ => ?_
  refine (yields_expect_kind (by decide) s₄).mono fun _ s₅ h₅ => ⟨(body, t.lexeme), ?_⟩
  exact (h₁.trans h₂).trans (h₃.trans (h₄.trans h₅))

end Analysis

end ProcLang
