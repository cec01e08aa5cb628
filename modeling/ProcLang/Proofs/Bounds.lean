import ProcLang.Proofs.Blind
import ProcLang.Proofs.Supply

/-!
# Bounds that do not matter

The loops and recursions of an analysis are bounded by the number of tokens that are left. No step
makes the budget of a state larger, and those that are repeated or nested take a token when they
succeed (`Spends`). So a bound that is not below the budget does not matter (`Settled`), and a source
may be given a larger one.
-/

namespace ProcLang.Analysis

variable {α β : Type} {s : State} {kind : Kind} {d k n m : Nat}

/-! ## Steps that bring the budget down -/

/-- Where the step succeeds it has brought the budget down by `d` at least. -/
def Spends (d : Nat) (step : Analysis α) : Prop :=
  ∀ s a s', step s = .ok a s' → s'.budget + d ≤ s.budget

namespace Spends

theorem pure (a : α) : Spends 0 (pure a) := by
  intro s b s' h
  cases h
  exact Nat.le_refl _

theorem throw (e : Failure) : Spends d (throw e : Analysis α) := by
  intro s a s' h
  cases h

theorem get : Spends 0 get := by
  intro s a s' h
  cases h
  exact Nat.le_refl _

/-- What two steps spend adds up. -/
theorem bind_add {step : Analysis β} {f : β → Analysis α} (h : Spends d step)
    (hf : ∀ b, Spends k (f b)) : Spends (d + k) (step >>= f) := by
  intro s a s' hs
  change EStateM.bind step f s = _ at hs
  unfold EStateM.bind at hs
  split at hs
  · next b s₁ hstep =>
    have h₁ := h s b s₁ hstep
    have h₂ := hf b s₁ a s' hs
    omega
  · cases hs

/-- The first of two steps brings the budget down. -/
theorem bind {step : Analysis β} {f : β → Analysis α} (h : Spends d step)
    (hf : ∀ b, Spends 0 (f b)) : Spends d (step >>= f) :=
  h.bind_add hf

/-- The second of two steps brings the budget down. -/
theorem bind' {step : Analysis β} {f : β → Analysis α} (h : Spends 0 step)
    (hf : ∀ b, Spends d (f b)) : Spends d (step >>= f) := by
  have hboth := h.bind_add hf
  rwa [Nat.zero_add] at hboth

theorem weaken {step : Analysis α} (h : Spends d step) : Spends 0 step := fun s a s' hs =>
  Nat.le_trans (Nat.le_add_right _ _) (h s a s' hs)

theorem ite {p : Prop} [Decidable p] {step step' : Analysis α} (h : Spends d step)
    (h' : Spends d step') : Spends d (if p then step else step') := by
  split
  · exact h
  · exact h'

theorem modify {f : State → State} (hsource : ∀ s, (f s).source = s.source)
    (hcurrent : ∀ s, (f s).current = s.current) : Spends 0 (modify f) := by
  intro s a s' h
  cases h
  exact Nat.le_of_eq (State.budget_congr (hsource s) (hcurrent s))

/-- Without a look at the tokens nothing is taken. -/
theorem of_blind {step : Analysis α} (h : Blind step) : Spends 0 step := fun _ _ _ hs =>
  Nat.le_of_eq (State.budget_congr (congrArg View.source (h.view_eq hs))
    (congrArg View.current (h.view_eq hs)))

end Spends

theorem spends_currentToken (wanted : TokenPart) : Spends 0 (currentToken wanted) :=
  Spends.get.bind fun s => by
    split
    · exact .pure _
    · exact .throw _

theorem spends_reject (x : Expectation) : Spends d (reject x : Analysis α) :=
  (spends_currentToken .kind).bind' fun _ => .throw _

theorem spends_atKind (kind : Kind) : Spends 0 (atKind kind) :=
  (spends_currentToken .kind).bind fun _ => .pure _

theorem spends_expect_any (kind : Kind) : Spends 0 (expect kind) := by
  rintro s ⟨⟩ s' h
  obtain ⟨t, -, htakes⟩ := takes_of_expect h
  exact htakes.budget_le

theorem spends_expect (hkind : kind ≠ .endOfInput) : Spends 1 (expect kind) := by
  rintro s ⟨⟩ s' h
  obtain ⟨t, rfl, htakes⟩ := takes_of_expect h
  exact htakes.budget_lt hkind

/-! ## Repetition -/

section Repetition

variable {step item : Analysis Unit}

theorem spends_repeatUpTo (h : Spends 0 step) : Spends 0 (repeatUpTo kind step n) := by
  induction n with
  | zero => exact .pure ()
  | succ n ih => exact (spends_atKind kind).bind fun _ => .ite (h.bind fun _ => ih) (.pure ())

theorem spends_whileKind (h : Spends 0 step) : Spends 0 (whileKind kind step) :=
  (spends_atKind kind).bind fun _ => .ite (fun s => spends_repeatUpTo h s) (.pure ())

theorem spends_separatedBy (h : Spends d item) : Spends d (separatedBy kind item) :=
  h.bind fun _ => spends_whileKind ((spends_expect_any kind).bind fun _ => h.weaken)

end Repetition

/-! ## Declarations -/

theorem spends_declarePending : Spends 1 declarePending :=
  (spends_currentToken .kind).bind' fun name => (spends_expect (by decide)).bind fun _ =>
    (Spends.of_blind (blind_checkNew name)).bind fun _ =>
      (Spends.of_blind (blind_declareName _)).bind fun _ => .of_blind (.modify fun _ _ => rfl)

theorem spends_identifierList : Spends 1 identifierList := spends_separatedBy spends_declarePending

theorem spends_numeral : Spends 0 numeral :=
  (spends_currentToken .lexeme).bind fun _ => (spends_expect_any _).bind fun _ => .pure _

theorem spends_mark : Spends 0 mark := by
  have hconstant : Spends 0 constantMark :=
    (spends_expect_any _).bind fun _ => (spends_expect_any _).bind fun _ =>
      spends_numeral.bind fun text => (Spends.of_blind (blind_constantValue text)).bind fun _ =>
        .of_blind (blind_attributePending _)
  refine (spends_currentToken .kind).bind fun token => ?_
  split
  · exact (Spends.of_blind (blind_attributePending _)).bind fun _ => spends_expect_any _
  · exact .ite hconstant (spends_reject _)

theorem spends_typeMark (function : String) (mode : Option Mode) :
    Spends 0 (typeMark function mode) :=
  spends_mark.bind fun _ => .of_blind (blind_afterMark function mode)

theorem spends_localGroup (function : String) : Spends 1 (localGroup function) :=
  spends_identifierList.bind fun _ => (spends_expect_any _).bind fun _ =>
    (spends_typeMark function none).bind fun _ => spends_expect_any _

theorem spends_declarativePart (function : String) : Spends 0 (declarativePart function) :=
  spends_whileKind (spends_localGroup function).weaken

theorem spends_mode : Spends 0 mode := by
  refine (spends_currentToken .lexeme).bind fun token => ?_
  split
  · exact (spends_expect_any _).bind fun _ => .pure _
  · exact .pure _

theorem spends_parameterGroup (function : String) : Spends 0 (parameterGroup function) :=
  spends_mode.bind fun _ => spends_identifierList.weaken.bind fun _ =>
    (spends_expect_any _).bind fun _ => spends_typeMark function _

theorem spends_arguments (function : String) : Spends 0 (arguments function) :=
  (spends_atKind _).bind fun _ => .ite
    ((spends_expect_any _).bind fun _ => (Spends.of_blind (.modify fun _ _ => rfl)).bind fun _ =>
      (spends_separatedBy (spends_parameterGroup function)).bind fun _ =>
        (spends_expect_any _).bind fun _ => .of_blind (blind_placeParameters function))
    (.pure ())

/-! ## Statements -/

theorem spends_factorWithin (n : Nat) : Spends 0 (factorWithin n) := by
  induction n with
  | zero => exact spends_reject _
  | succ n ih =>
    unfold factorWithin
    refine (spends_currentToken .kind).bind fun token => ?_
    split
    · exact (Spends.of_blind (blind_checkDefined token)).bind fun _ => spends_expect_any _
    · exact spends_expect_any _
    · exact (spends_expect_any _).bind fun _ =>
        (spends_separatedBy (spends_separatedBy ih)).bind fun _ => spends_expect_any _
    · exact (spends_expect_any _).bind fun _ => ih
    · exact .ite ((spends_expect_any _).bind fun _ => ih) (spends_reject _)
    · exact spends_reject _

theorem spends_factor : Spends 0 factor := fun s => spends_factorWithin _ s

theorem spends_expression : Spends 0 expression :=
  spends_separatedBy (spends_separatedBy spends_factor)

theorem spends_statement : Spends 0 statement :=
  (spends_atKind _).bind fun _ => .ite
    ((spends_currentToken _).bind fun target =>
      (Spends.of_blind (blind_checkDefined target)).bind fun _ => (spends_expect_any _).bind fun _ =>
        (spends_expect_any _).bind fun _ => spends_expression)
    (.pure ())

theorem spends_statements : Spends 0 statements :=
  spends_whileKind <| spends_statement.bind fun _ => spends_expect_any _

/-! ## Procedures -/

theorem spends_openProcedure : Spends 1 openProcedure :=
  (spends_expect (by decide)).bind fun _ => (spends_currentToken .kind).bind fun name =>
    (spends_expect_any _).bind fun _ => .of_blind (blind_openScope name)

theorem spends_procedureHead (name : String) : Spends 0 (procedureHead name) :=
  (spends_arguments name).bind fun _ => (spends_expect_any _).bind fun _ =>
    (Spends.of_blind (.modify fun _ _ => rfl)).bind fun _ => spends_declarativePart name

theorem spends_checkClosingName (name : String) : Spends 0 (checkClosingName name) :=
  (spends_currentToken .lexeme).bind fun _ => .ite (.throw _) (.pure ())

theorem spends_procedureBody (name : String) : Spends 0 (procedureBody name) :=
  (spends_expect_any _).bind fun _ => spends_statements.bind fun _ =>
    (spends_expect_any _).bind fun _ => (spends_checkClosingName name).bind fun _ =>
      (spends_expect_any _).bind fun _ => spends_expect_any _

/-! ## Steps that agree up to a budget -/

/-- The steps do the same in all states whose budget is at most `k`. -/
def AgreeUpTo (k : Nat) (step step' : Analysis α) : Prop := ∀ s, s.budget ≤ k → step s = step' s

namespace AgreeUpTo

theorem refl (step : Analysis α) : AgreeUpTo k step step := fun _ _ => rfl

theorem symm {step step' : Analysis α} (h : AgreeUpTo k step step') : AgreeUpTo k step' step :=
  fun s hs => (h s hs).symm

theorem mono {step step' : Analysis α} (h : AgreeUpTo k step step') (hn : n ≤ k) :
    AgreeUpTo n step step' :=
  fun s hs => h s (Nat.le_trans hs hn)

/-- What the first step takes from the budget is left over for the second one. -/
theorem bind {step step' : Analysis β} {f f' : β → Analysis α} (h : AgreeUpTo (k + d) step step')
    (hstep : Spends d step) (hf : ∀ b, AgreeUpTo k (f b) (f' b)) :
    AgreeUpTo (k + d) (step >>= f) (step' >>= f') := by
  intro s hs
  change EStateM.bind step f s = EStateM.bind step' f' s
  unfold EStateM.bind
  rw [← h s hs]
  cases hr : step s with
  | ok b s₁ =>
    have hlt := hstep s b s₁ hr
    exact hf b s₁ (by omega)
  | error e s₁ => rfl

theorem ite {p : Prop} [Decidable p] {first first' second second' : Analysis α}
    (h : AgreeUpTo k first first') (h' : AgreeUpTo k second second') :
    AgreeUpTo k (if p then first else second) (if p then first' else second') := by
  split
  · exact h
  · exact h'

variable {step step' : Analysis Unit}

theorem repeatUpTo (h : AgreeUpTo k step step') (hstep : Spends 0 step) :
    AgreeUpTo k (repeatUpTo kind step n) (repeatUpTo kind step' n) := by
  induction n with
  | zero => exact .refl _
  | succ n ih =>
    exact bind (d := 0) (.refl _) (spends_atKind kind) fun _ =>
      .ite (bind (d := 0) h hstep fun _ => ih) (.refl _)

theorem whileKind (h : AgreeUpTo k step step') (hstep : Spends 0 step) :
    AgreeUpTo k (whileKind kind step) (whileKind kind step') :=
  bind (d := 0) (.refl _) (spends_atKind kind) fun _ =>
    .ite (fun s hs => h.repeatUpTo hstep s hs) (.refl _)

theorem separatedBy (h : AgreeUpTo k step step') (hstep : Spends 0 step) :
    AgreeUpTo k (separatedBy kind step) (separatedBy kind step') :=
  bind (d := 0) h hstep fun _ =>
    whileKind (bind (d := 0) (.refl _) (spends_expect_any kind) fun _ => h)
      ((spends_expect_any kind).bind fun _ => hstep)

end AgreeUpTo

/-- A bound that is not below the budget does not matter. -/
def Settled (f : Nat → Analysis α) : Prop := ∀ k n m, k ≤ n → k ≤ m → AgreeUpTo k (f n) (f m)

theorem Settled.bounded_eq {f : Nat → Analysis α} (h : Settled f) (hn : s.source.bound + 1 ≤ n) :
    bounded f s = f n s :=
  h _ _ n (Nat.le_refl _) hn s s.budget_le

/-- By induction on the bounds: they do not matter where nothing is left of the budget, and larger
ones do not matter where something is left. -/
theorem Settled.of_succ {f : Nat → Analysis α} (hzero : ∀ m, AgreeUpTo 0 (f 0) (f m))
    (hsucc : ∀ k n m, AgreeUpTo k (f n) (f m) → AgreeUpTo (k + 1) (f (n + 1)) (f (m + 1))) :
    Settled f := by
  intro k n m hn hm
  induction n generalizing k m with
  | zero => exact (hzero m).mono hn
  | succ n ih =>
    cases m with
    | zero => exact (hzero (n + 1)).symm.mono hm
    | succ m => exact (hsucc (k - 1) n m (ih _ m (by omega) (by omega))).mono (by omega)

/-! ## Recursion without a bound -/

/-- A recursion without a bound ends, and does what the step does: where it is unfolded more often
than there are tokens left, it does not matter what is put in the place of the innermost call. -/
def Unfolds (level : Analysis α → Analysis α) (step : Analysis α) : Prop :=
  ∀ s n rest, s.source.bound + 1 < n → level^[n] rest s = step s

/-- A bounded recursion of which `level` is one level. Nothing below this level matters where nothing
is left of the budget, and what is below has less of the budget. -/
structure Approximates (f : Nat → Analysis α) (level : Analysis α → Analysis α) : Prop where
  succ : ∀ n, f (n + 1) = level (f n)
  zero : ∀ n below, AgreeUpTo 0 (f n) (level below)
  step : ∀ k n below, AgreeUpTo k (f n) below → AgreeUpTo (k + 1) (f (n + 1)) (level below)

namespace Approximates

variable {f : Nat → Analysis α} {level : Analysis α → Analysis α}

theorem settled (h : Approximates f level) : Settled f := by
  refine Settled.of_succ (fun m => ?_) fun k n m ih => ?_
  · cases m with
    | zero => exact .refl _
    | succ m =>
      rw [h.succ m]
      exact h.zero 0 (f m)
  · rw [h.succ m]
    exact h.step k n (f m) ih

/-- By induction on the levels that are unfolded. -/
theorem agree (h : Approximates f level) (hm : k < m) (hn : k ≤ n) (rest : Analysis α) :
    AgreeUpTo k (f n) (level^[m] rest) := by
  induction m generalizing k n with
  | zero => exact absurd hm (Nat.not_lt_zero _)
  | succ m ih =>
    rw [Function.iterate_succ_apply']
    cases k with
    | zero => exact h.zero n _
    | succ k =>
      obtain ⟨n, rfl⟩ := Nat.exists_eq_succ_of_ne_zero (Nat.ne_zero_of_lt hn)
      exact h.step k n _ (ih (Nat.lt_of_succ_lt_succ hm) (Nat.le_of_succ_le_succ hn))

theorem unfolds (h : Approximates f level) : Unfolds level (bounded f) := fun s _ rest hn =>
  (h.agree hn (Nat.le_refl _) rest s s.budget_le).symm

end Approximates

theorem exists_endOfInput_of_budget (h : s.budget ≤ 0) :
    ∃ t, s.current = some t ∧ t.kind = .endOfInput := by
  unfold State.budget at h
  split at h
  · next hc => simpa [Option.any_eq_true] using hc.2
  · omega

/-- One round of a repetition, with the rounds behind it. -/
def repeatOver (kind : Kind) (step below : Analysis Unit) : Analysis Unit := do
  if ← atKind kind then
    step
    below

/-- A factor with one level of parentheses and signs, and what is in them. -/
def factorOver (below : Analysis Unit) : Analysis Unit := do
  let token ← currentToken .kind
  match token.kind with
  | .identifier =>
    checkDefined token
    expect .identifier
  | .number => expect .number
  | .leftParen =>
    expect .leftParen
    separatedBy .additive (separatedBy .multiplicative below)
    expect .rightParen
  | .notWord =>
    expect .notWord
    below
  | .additive =>
    if token.lexeme = "-" then
      expect .additive
      below
    else reject .factor
  | _ => reject .factor

theorem approximates_repeatUpTo {step : Analysis Unit} (hkind : kind ≠ .endOfInput)
    (hstep : Spends 1 step) : Approximates (repeatUpTo kind step) (repeatOver kind step) where
  succ := fun _ => rfl
  zero := fun n below s hs => by
    obtain ⟨t, ht, hend⟩ := exists_endOfInput_of_budget hs
    have hround : ∀ below, repeatOver kind step below s = .ok () s := fun below => by
      have hat : Ends (atKind kind) s (fun b s' => b = false ∧ s' = s) fun _ _ => False := by
        rw [ends_atKind ht, hend, decide_eq_false hkind.symm]
        exact ⟨rfl, rfl⟩
      obtain ⟨_, _, hok, rfl, rfl⟩ := hat.exists_ok
      exact bind_eq_of_ok hok
    rw [hround]
    cases n with
    | zero => rfl
    | succ n => exact hround _
  step := fun k n below ih =>
    AgreeUpTo.bind (d := 0) (.refl _) (spends_atKind kind) fun _ =>
      .ite (AgreeUpTo.bind (.refl _) hstep fun _ => ih) (.refl _)

theorem settled_repeatUpTo {step : Analysis Unit} (hkind : kind ≠ .endOfInput)
    (hstep : Spends 1 step) : Settled (repeatUpTo kind step) :=
  (approximates_repeatUpTo hkind hstep).settled

theorem approximates_factorWithin : Approximates factorWithin factorOver where
  succ := fun _ => rfl
  zero := fun n below s hs => by
    obtain ⟨t, ht, hend⟩ := exists_endOfInput_of_budget hs
    have hreject : ∀ below, factorOver below s = reject .factor s := fun below => by
      show (currentToken .kind >>= _) s = _
      rw [bind_eq_of_ok (currentToken_eq ht), hend]
    rw [hreject]
    cases n with
    | zero => rfl
    | succ n => exact hreject _
  step := fun k n below ih => by
    show AgreeUpTo (k + 1) (factorOver (factorWithin n)) (factorOver below)
    refine AgreeUpTo.bind (d := 0) (.refl _) (spends_currentToken .kind) fun token => ?_
    -- what is read behind the first token of a factor has less of the budget
    split
    · exact .refl _
    · exact .refl _
    · exact AgreeUpTo.bind (.refl _) (spends_expect (by decide)) fun _ =>
        AgreeUpTo.bind (d := 0) ((ih.separatedBy (spends_factorWithin n)).separatedBy
          (spends_separatedBy (spends_factorWithin n)))
          (spends_separatedBy (spends_separatedBy (spends_factorWithin n))) fun _ => .refl _
    · exact AgreeUpTo.bind (.refl _) (spends_expect (by decide)) fun _ => ih
    · exact .ite (AgreeUpTo.bind (.refl _) (spends_expect (by decide)) fun _ => ih) (.refl _)
    · exact .refl _

theorem settled_factorWithin : Settled factorWithin := approximates_factorWithin.settled

/-! ## Rounds of a repetition -/

section Rounds

variable {t : Token} {step : Analysis Unit}

theorem atKind_eq (ht : s.current = some t) : atKind kind s = .ok (decide (t.kind = kind)) s := by
  unfold atKind
  rw [bind_eq_of_ok (currentToken_eq ht)]
  rfl

/-- A repetition ends at once where the token looked at is of another kind. -/
theorem whileKind_eq_of_ne (ht : s.current = some t) (hk : t.kind ≠ kind) :
    whileKind kind step s = .ok () s := by
  unfold whileKind
  rw [bind_eq_of_ok (atKind_eq ht), decide_eq_false hk]
  rfl

theorem whileKind_eq_repeatUpTo (s : State) :
    whileKind kind step s = repeatUpTo kind step (s.source.bound + 1) s := by
  cases ht : s.current with
  | none =>
    have hat : atKind kind s = .error (.fault (.noToken .kind)) s :=
      bind_eq_of_error (currentToken_eq_of_none ht)
    rw [repeatUpTo, whileKind, bind_eq_of_error hat, bind_eq_of_error hat]
  | some t =>
    by_cases hk : t.kind = kind
    · rw [whileKind, bind_eq_of_ok (atKind_eq ht), decide_eq_true hk]
      rfl
    · rw [whileKind_eq_of_ne ht hk, repeatUpTo, bind_eq_of_ok (atKind_eq ht), decide_eq_false hk]
      rfl

/-- Where the token looked at is of the kind, a repetition makes one round and goes on. The bound
that is left over for it is large enough, because the round has taken a token. -/
theorem whileKind_eq_bind (hkind : kind ≠ .endOfInput) (hspends : Spends 1 step)
    (ht : s.current = some t) (hk : t.kind = kind) :
    whileKind kind step s = (step >>= fun _ => whileKind kind step) s := by
  rw [whileKind_eq_repeatUpTo, repeatUpTo, bind_eq_of_ok (atKind_eq ht), decide_eq_true hk,
    if_pos rfl]
  cases hr : step s with
  | error e s' => rw [bind_eq_of_error hr, bind_eq_of_error hr]
  | ok a s' =>
    have hle : s'.budget ≤ s.source.bound := by
      have hlt := hspends s a s' hr
      have hs := s.budget_le
      omega
    rw [bind_eq_of_ok hr, bind_eq_of_ok hr, whileKind_eq_repeatUpTo]
    exact settled_repeatUpTo hkind hspends _ _ _ hle s'.budget_le s' (Nat.le_refl _)

end Rounds

/-! ## Nested procedures -/

theorem spends_logSnapshot (scope : ScopeName) : Spends 0 (logSnapshot scope) :=
  Spends.get.bind fun _ => (Spends.of_blind (.forM blind_needRow _)).bind fun _ =>
    (Spends.of_blind (blind_log _)).bind fun _ => .modify (fun s => by split <;> rfl)
      fun s => by split <;> rfl

theorem spends_closeProcedure (name : String) : Spends 0 (closeProcedure name) :=
  (spends_logSnapshot _).bind fun _ => .of_blind (blind_leaveScope name)

theorem spends_procedureWithin (n : Nat) : Spends 1 (procedureWithin n) := by
  induction n with
  | zero => exact spends_reject _
  | succ n ih =>
    exact spends_openProcedure.bind fun name => (spends_procedureHead name).bind fun _ =>
      (spends_whileKind ih.weaken).bind fun _ => (spends_procedureBody name).bind fun _ =>
        spends_closeProcedure name

/-- A procedure with the procedures nested in it. -/
def procedureOver (below : Analysis Unit) : Analysis Unit := do
  let name ← openProcedure
  procedureHead name
  whileKind .procedureWord below
  procedureBody name
  closeProcedure name

theorem approximates_procedureWithin : Approximates procedureWithin procedureOver where
  succ := fun _ => rfl
  zero := fun n below s hs => by
    obtain ⟨t, ht, hend⟩ := exists_endOfInput_of_budget hs
    have hreject : ∀ {α : Type}, (reject (.kind .procedureWord) : Analysis α) s =
        .error (.diagnostic (.unexpected (.kind .procedureWord) t)) s := by
      intro α
      show (currentToken .kind >>= _) s = _
      rw [bind_eq_of_ok (currentToken_eq ht)]
      rfl
    have hexpect : expect .procedureWord s =
        .error (.diagnostic (.unexpected (.kind .procedureWord) t)) s := by
      show (currentToken .kind >>= _) s = _
      rw [bind_eq_of_ok (currentToken_eq ht), hend]
      exact hreject
    have hover : ∀ below, procedureOver below s = reject (.kind .procedureWord) s := fun below =>
      (bind_eq_of_error (bind_eq_of_error hexpect)).trans hreject.symm
    rw [hover]
    cases n with
    | zero => rfl
    | succ n => exact hover _
  step := fun k n below ih => by
    refine AgreeUpTo.bind (.refl _) spends_openProcedure fun name => ?_
    refine AgreeUpTo.bind (d := 0) (.refl _) (spends_procedureHead name) fun _ => ?_
    exact AgreeUpTo.bind (d := 0) (ih.whileKind (spends_procedureWithin n).weaken)
      (spends_whileKind (spends_procedureWithin n).weaken) fun _ => .refl _

theorem settled_procedureWithin : Settled procedureWithin := approximates_procedureWithin.settled

end ProcLang.Analysis
