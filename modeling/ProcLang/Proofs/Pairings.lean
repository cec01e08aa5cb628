import ProcLang.Analysis.Run
import ProcLang.Proofs.Bounds

/-!
# Two runs side by side

Two runs of steps are compared by a relation between their states (`Pairing`). The second run
tracks the first one if it ends as the first one does, in a related state; where the first run is
lost, nothing is said of the second (`Tracks`). The rules for sequences and loops hold for every
pairing. So do those for the productions, once the tokens looked at are related and the steps behind
a token keep the states related (`Primitives`), and with the closing of scopes those for whole runs
(`AllPrimitives`).
-/

namespace ProcLang.Analysis

variable {α β γ δ : Type}

/-- How two runs go together: which states and which failures are related, and with which failures
the first run is lost. -/
structure Pairing where
  states : State → State → Prop
  failures : Failure → Failure → Prop
  lost : Failure → Prop

/-- The second run ends as the first one does, unless that one is lost. -/
def Answers (p : Pairing) (results : α → β → Prop) :
    EStateM.Result Failure State α → EStateM.Result Failure State β → Prop
  | .ok a s, r => ∃ b s', r = .ok b s' ∧ results a b ∧ p.states s s'
  | .error e s, r =>
    p.lost e ∨ ∃ e' s', r = .error e' s' ∧ p.failures e e' ∧ p.states s s'

/-- From related states the second step ends as the first one does. -/
def Tracks (p : Pairing) (results : α → β → Prop) (step : Analysis α) (step' : Analysis β) : Prop :=
  ∀ s s', p.states s s' → Answers p results (step s) (step' s')

namespace Tracks

variable {p : Pairing} {results : α → β → Prop} {middle : γ → δ → Prop}

theorem pure {a : α} {b : β} (h : results a b) : Tracks p results (pure a) (pure b) :=
  fun _ s' hs => ⟨b, s', rfl, h, hs⟩

theorem throw {e e' : Failure} (h : p.failures e e') :
    Tracks p results (throw e) (throw e') := fun _ s' hs => Or.inr ⟨e', s', rfl, h, hs⟩

theorem bind {step : Analysis γ} {step' : Analysis δ} {f : γ → Analysis α} {f' : δ → Analysis β}
    (h : Tracks p middle step step') (hf : ∀ c d, middle c d → Tracks p results (f c) (f' d)) :
    Tracks p results (step >>= f) (step' >>= f') := by
  intro s s' hs
  have hstep := h s s' hs
  cases hr : step s with
  | ok c s₁ =>
    rw [hr] at hstep
    obtain ⟨d, s₁', hr', hcd, hs₁⟩ := hstep
    rw [bind_eq_of_ok hr, bind_eq_of_ok hr']
    exact hf c d hcd s₁ s₁' hs₁
  | error e s₁ =>
    rw [hr] at hstep
    rw [bind_eq_of_error hr]
    refine hstep.imp_right ?_
    rintro ⟨e', s₁', hr', he, hs₁⟩
    exact ⟨e', s₁', bind_eq_of_error hr', he, hs₁⟩

theorem get_bind {f : State → Analysis α} {f' : State → Analysis β}
    (h : ∀ s s', p.states s s' → Tracks p results (f s) (f' s')) :
    Tracks p results (get >>= f) (get >>= f') := fun s s' hs => h s s' hs s s' hs

theorem modify {f f' : State → State} (h : ∀ s s', p.states s s' → p.states (f s) (f' s')) :
    Tracks p Eq (modify f) (modify f') := fun s s' hs => ⟨(), f' s', rfl, rfl, h s s' hs⟩

theorem ite {c : Prop} [Decidable c] {step second : Analysis α} {step' second' : Analysis β}
    (h : Tracks p results step step') (h' : Tracks p results second second') :
    Tracks p results (if c then step else second) (if c then step' else second') := by
  split
  · exact h
  · exact h'

theorem forM {ι : Type} {each each' : ι → Analysis Unit} (h : ∀ x, Tracks p Eq (each x) (each' x))
    (xs : List ι) : Tracks p Eq (xs.forM each) (xs.forM each') := by
  induction xs with
  | nil => exact pure rfl
  | cons x rest ih => exact (h x).bind fun _ _ _ => ih

theorem foldlM {ι : Type} {each each' : γ → ι → Analysis γ}
    (h : ∀ c x, Tracks p Eq (each c x) (each' c x)) (xs : List ι) (c : γ) :
    Tracks p Eq (xs.foldlM each c) (xs.foldlM each' c) := by
  induction xs generalizing c with
  | nil => exact pure rfl
  | cons x rest ih =>
    rw [List.foldlM_cons, List.foldlM_cons]
    refine (h c x).bind ?_
    rintro c' _ rfl
    exact ih c'

/-- The two runs may be given different bounds if these do not matter. -/
theorem bounded {f : Nat → Analysis α} {f' : Nat → Analysis β} (hf : Settled f) (hf' : Settled f')
    (h : ∀ n, Tracks p results (f n) (f' n)) : Tracks p results (bounded f) (bounded f') := by
  intro s s' hs
  have hn := Nat.le_max_left (s.source.bound + 1) (s'.source.bound + 1)
  have hn' := Nat.le_max_right (s.source.bound + 1) (s'.source.bound + 1)
  rw [hf.bounded_eq hn, hf'.bounded_eq hn']
  exact h _ s s' hs

section Loops

variable {kind : Kind} {step step' : Analysis Unit}
  (hat : Tracks p Eq (atKind kind) (atKind kind)) (hkind : kind ≠ .endOfInput)

include hat

theorem repeatUpTo (h : Tracks p Eq step step') (n : Nat) :
    Tracks p Eq (repeatUpTo kind step n) (repeatUpTo kind step' n) := by
  induction n with
  | zero => exact .pure rfl
  | succ n ih =>
    refine hat.bind ?_
    rintro b _ rfl
    exact .ite (h.bind fun _ _ _ => ih) (.pure rfl)

include hkind

theorem whileKind (h : Tracks p Eq step step') (hstep : Spends 1 step) (hstep' : Spends 1 step') :
    Tracks p Eq (whileKind kind step) (whileKind kind step') := by
  refine hat.bind ?_
  rintro b _ rfl
  exact .ite (bounded (settled_repeatUpTo hkind hstep) (settled_repeatUpTo hkind hstep')
    (repeatUpTo hat h)) (.pure rfl)

theorem separatedBy (hexpect : Tracks p Eq (expect kind) (expect kind)) (h : Tracks p Eq step step')
    (hstep : Spends 0 step) (hstep' : Spends 0 step') :
    Tracks p Eq (separatedBy kind step) (separatedBy kind step') :=
  h.bind fun _ _ _ => whileKind hat hkind (hexpect.bind fun _ _ _ => h)
    ((spends_expect hkind).bind fun _ => hstep) ((spends_expect hkind).bind fun _ => hstep')

end Loops

end Tracks

/-- The results may be related in another way too. -/
theorem Tracks.mono {p : Pairing} {results results' : α → β → Prop} {step : Analysis α}
    {step' : Analysis β} (h : Tracks p results step step')
    (hresults : ∀ a b, results a b → results' a b) : Tracks p results' step step' := by
  intro s s' hs
  have hanswer := h s s' hs
  cases hr : step s with
  | ok a s₁ =>
    rw [hr] at hanswer
    obtain ⟨b, s₁', hr', hab, hs₁⟩ := hanswer
    exact ⟨b, s₁', hr', hresults a b hab, hs₁⟩
  | error e s₁ =>
    rw [hr] at hanswer
    exact hanswer

/-! ## The productions -/

/-- The names are those of related identifiers. -/
def Named (tokens : Token → Token → Prop) (name name' : String) : Prop :=
  ∃ t t', tokens t t' ∧ t.kind = .identifier ∧ name = t.lexeme ∧ name' = t'.lexeme

/-- What two runs need for the productions to go along, up to the closing of a scope: the tokens
looked at are related, the decisions that depend on them are the same, and what is done behind a
token keeps the states related. -/
structure Primitives (p : Pairing) (tokens : Token → Token → Prop) : Prop where
  current {s s'} : p.states s s' → Option.Rel tokens s.current s'.current
  matched {s s' t t'} : p.states s s' → tokens t t' →
    p.states { s with matched := t :: s.matched } { s' with matched := t' :: s'.matched }
  next : Tracks p Eq pull pull
  kind {t t'} : tokens t t' → t'.kind = t.kind
  number {t t'} : tokens t t' → t.kind = .number → t'.lexeme = t.lexeme
  minus {t t'} : tokens t t' → t.kind = .additive → (t'.lexeme = "-" ↔ t.lexeme = "-")
  modeWord {t t'} : tokens t t' → modeOfWord? t'.lexeme = modeOfWord? t.lexeme
  closing {n n' t t'} : Named tokens n n' → tokens t t' →
    (Text.lower t'.lexeme = Text.lower n' ↔ Text.lower t.lexeme = Text.lower n)
  noToken (wanted) : p.failures (.fault (.noToken wanted)) (.fault (.noToken wanted))
  unexpected {t t'} (x) : tokens t t' →
    p.failures (.diagnostic (.unexpected x t)) (.diagnostic (.unexpected x t'))
  otherName {n n' t t'} : Named tokens n n' → tokens t t' →
    p.failures (.diagnostic (.otherClosingName n t.line)) (.diagnostic (.otherClosingName n' t'.line))
  unconsumed {t t'} : tokens t t' →
    p.failures (.diagnostic (.unconsumed t)) (.diagnostic (.unconsumed t'))
  declare {t t'} : tokens t t' → t.kind = .identifier →
    Tracks p Eq (declareTaken t) (declareTaken t')
  use {t t'} : tokens t t' → t.kind = .identifier → Tracks p Eq (checkDefined t) (checkDefined t')
  value (text) : Tracks p Eq (constantValue text) (constantValue text)
  attributes (a) : Tracks p Eq (attributePending a) (attributePending a)
  marked {n n'} (m) : Named tokens n n' → Tracks p Eq (afterMark n m) (afterMark n' m)
  noneRecorded : Tracks p Eq (modify fun s => { s with recorded := 0 })
    (modify fun s => { s with recorded := 0 })
  place {n n'} : Named tokens n n' → Tracks p Eq (placeParameters n) (placeParameters n')
  noneLocal : Tracks p Eq (modify fun s => { s with nextOffset := localBase })
    (modify fun s => { s with nextOffset := localBase })
  opened {t t'} : tokens t t' → t.kind = .identifier →
    Tracks p (Named tokens) (openScope t) (openScope t')

section Productions

variable {p : Pairing} {tokens : Token → Token → Prop} {results : α → β → Prop}
  {n n' : String} (h : Primitives p tokens)

include h

theorem tracks_currentToken (wanted : TokenPart) :
    Tracks p tokens (currentToken wanted) (currentToken wanted) := by
  refine .get_bind fun s s' hs => ?_
  have hcurrent := h.current hs
  generalize s.current = c, s'.current = c' at hcurrent
  cases hcurrent with
  | some ht => exact .pure ht
  | none => exact .throw (h.noToken wanted)

theorem tracks_atKind (kind : Kind) : Tracks p Eq (atKind kind) (atKind kind) :=
  (tracks_currentToken h .kind).bind fun t t' ht => .pure (by rw [h.kind ht])

theorem tracks_reject (x : Expectation) : Tracks p results (reject x) (reject x) :=
  (tracks_currentToken h .kind).bind fun _ _ ht => .throw (h.unexpected x ht)

theorem tracks_expect (kind : Kind) : Tracks p Eq (expect kind) (expect kind) := by
  refine (tracks_currentToken h .kind).bind fun t t' ht => ?_
  rw [h.kind ht]
  exact .ite ((Tracks.modify fun s s' hs => h.matched hs ht).bind fun _ _ _ => h.next)
    (tracks_reject h _)

/-- What is done with the token looked at is done in states that look at it. -/
theorem tracks_looking {wanted : TokenPart} {f : Token → Analysis α} {f' : Token → Analysis β}
    (hf : ∀ t t' s s', tokens t t' → s.current = some t → s'.current = some t' → p.states s s' →
      Answers p results (f t s) (f' t' s')) :
    Tracks p results (currentToken wanted >>= f) (currentToken wanted >>= f') := by
  intro s s' hs
  have hcurrent := h.current hs
  cases hc : s.current <;> cases hc' : s'.current <;> rw [hc, hc'] at hcurrent <;> cases hcurrent
  · rw [bind_eq_of_error (currentToken_eq_of_none hc),
      bind_eq_of_error (currentToken_eq_of_none hc')]
    exact Or.inr ⟨_, s', rfl, h.noToken wanted, hs⟩
  · next ht =>
    rw [bind_eq_of_ok (currentToken_eq hc), bind_eq_of_ok (currentToken_eq hc')]
    exact hf _ _ s s' ht hc hc' hs

/-- Of a token that is taken the kind is known. -/
theorem tracks_taking {kind : Kind} {wanted : TokenPart} {f : Token → Analysis α}
    {f' : Token → Analysis β}
    (hf : ∀ t t', tokens t t' → t.kind = kind → Tracks p results (f t) (f' t')) :
    Tracks p results (currentToken wanted >>= fun t => expect kind >>= fun _ => f t)
      (currentToken wanted >>= fun t => expect kind >>= fun _ => f' t) := by
  refine tracks_looking h fun t t' s s' ht hc hc' hs => ?_
  by_cases hk : t.kind = kind
  · exact ((tracks_expect h kind).bind fun _ _ _ => hf t t' ht hk) s s' hs
  · have hk' : t'.kind ≠ kind := by rwa [h.kind ht]
    rw [bind_eq_of_error (expect_eq_of_ne hc hk), bind_eq_of_error (expect_eq_of_ne hc' hk')]
    exact Or.inr ⟨_, s', rfl, h.unexpected _ ht, hs⟩

theorem tracks_identifierList : Tracks p Eq identifierList identifierList :=
  Tracks.separatedBy (tracks_atKind h _) (by decide) (tracks_expect h _)
    (tracks_taking h fun _ _ ht hk => h.declare ht hk) spends_declarePending.weaken
    spends_declarePending.weaken

theorem tracks_mark : Tracks p Eq mark mark := by
  have hexpect := tracks_expect h
  have hnumeral : Tracks p Eq numeral numeral :=
    tracks_taking h fun _ _ ht hk => .pure (h.number ht hk).symm
  have hconstant : Tracks p Eq constantMark constantMark := by
    refine (hexpect _).bind fun _ _ _ => (hexpect _).bind fun _ _ _ => hnumeral.bind ?_
    rintro text _ rfl
    refine (h.value text).bind ?_
    rintro value _ rfl
    exact h.attributes _
  refine (tracks_currentToken h .kind).bind fun t t' ht => ?_
  rw [h.kind ht]
  cases primitiveType? t.kind with
  | some type => exact (h.attributes _).bind fun _ _ _ => hexpect _
  | none => exact .ite hconstant (tracks_reject h _)

theorem tracks_typeMark (hn : Named tokens n n') (m : Option Mode) :
    Tracks p Eq (typeMark n m) (typeMark n' m) :=
  (tracks_mark h).bind fun _ _ _ => h.marked m hn

theorem tracks_declarativePart (hn : Named tokens n n') :
    Tracks p Eq (declarativePart n) (declarativePart n') :=
  Tracks.whileKind (tracks_atKind h _) (by decide)
    ((tracks_identifierList h).bind fun _ _ _ => (tracks_expect h _).bind fun _ _ _ =>
      (tracks_typeMark h hn none).bind fun _ _ _ => tracks_expect h _)
    (spends_localGroup n) (spends_localGroup n')

theorem tracks_parameterGroup (hn : Named tokens n n') :
    Tracks p Eq (parameterGroup n) (parameterGroup n') := by
  have hmode : Tracks p Eq mode mode := by
    refine (tracks_currentToken h .lexeme).bind fun t t' ht => ?_
    rw [h.modeWord ht, h.kind ht]
    cases modeOfWord? t.lexeme with
    | some m => exact (tracks_expect h _).bind fun _ _ _ => .pure rfl
    | none => exact .pure rfl
  refine hmode.bind ?_
  rintro m _ rfl
  exact (tracks_identifierList h).bind fun _ _ _ => (tracks_expect h _).bind fun _ _ _ =>
    tracks_typeMark h hn _

theorem tracks_arguments (hn : Named tokens n n') :
    Tracks p Eq (arguments n) (arguments n') := by
  have hlist : Tracks p Eq (argumentList n) (argumentList n') :=
    Tracks.separatedBy (tracks_atKind h _) (by decide) (tracks_expect h _)
      (tracks_parameterGroup h hn) (spends_parameterGroup n) (spends_parameterGroup n')
  refine (tracks_atKind h _).bind ?_
  rintro b _ rfl
  exact .ite ((tracks_expect h _).bind fun _ _ _ => h.noneRecorded.bind fun _ _ _ =>
    hlist.bind fun _ _ _ => (tracks_expect h _).bind fun _ _ _ => h.place hn) (.pure rfl)

/-! ### Statements -/

theorem tracks_factorWithin (n : Nat) : Tracks p Eq (factorWithin n) (factorWithin n) := by
  induction n with
  | zero => exact tracks_reject h _
  | succ n ih =>
    have hexpect := tracks_expect h
    have hat := tracks_atKind h
    unfold factorWithin
    refine (tracks_currentToken h .kind).bind fun t t' ht => ?_
    rw [h.kind ht]
    cases hk : t.kind with
    | identifier => exact (h.use ht hk).bind fun _ _ _ => hexpect _
    | number => exact hexpect _
    | leftParen =>
      have hinner := Tracks.separatedBy (hat .additive) (by decide) (hexpect _)
        (Tracks.separatedBy (hat .multiplicative) (by decide) (hexpect _) ih (spends_factorWithin n)
          (spends_factorWithin n))
        (spends_separatedBy (spends_factorWithin n)) (spends_separatedBy (spends_factorWithin n))
      exact (hexpect _).bind fun _ _ _ => hinner.bind fun _ _ _ => hexpect _
    | notWord => exact (hexpect _).bind fun _ _ _ => ih
    | additive =>
      simp only [h.minus ht hk]
      exact .ite ((hexpect _).bind fun _ _ _ => ih) (tracks_reject h _)
    | _ => exact tracks_reject h _

theorem tracks_expression : Tracks p Eq expression expression :=
  Tracks.separatedBy (tracks_atKind h _) (by decide) (tracks_expect h _)
    (Tracks.separatedBy (tracks_atKind h _) (by decide) (tracks_expect h _)
      (Tracks.bounded settled_factorWithin settled_factorWithin (tracks_factorWithin h))
      spends_factor spends_factor)
    (spends_separatedBy spends_factor) (spends_separatedBy spends_factor)

/-- The target of an assignment is the token that tells that there is one. -/
theorem tracks_statement : Tracks p Eq statement statement := by
  have hstatement : statement = currentToken .kind >>= fun t =>
      if t.kind = .identifier then assignment else pure () := by
    simp [statement, atKind]
  rw [hstatement]
  refine tracks_looking h fun t t' s s' ht hc hc' hs => ?_
  rw [h.kind ht]
  by_cases hk : t.kind = .identifier
  · rw [if_pos hk]
    unfold assignment
    rw [bind_eq_of_ok (currentToken_eq hc), bind_eq_of_ok (currentToken_eq hc')]
    exact ((h.use ht hk).bind fun _ _ _ => (tracks_expect h _).bind fun _ _ _ =>
      (tracks_expect h _).bind fun _ _ _ => tracks_expression h) s s' hs
  · rw [if_neg hk]
    exact ⟨(), s', rfl, rfl, hs⟩

theorem tracks_statements : Tracks p Eq statements statements := by
  have hspends : Spends 1 (do statement; expect .semicolon) :=
    spends_statement.bind' fun _ => spends_expect (by decide)
  exact Tracks.whileKind (tracks_atKind h _) (by decide)
    ((tracks_statement h).bind fun _ _ _ => tracks_expect h _) hspends hspends

/-! ### Procedures -/

theorem tracks_openProcedure : Tracks p (Named tokens) openProcedure openProcedure :=
  (tracks_expect h _).bind fun _ _ _ => tracks_taking h fun _ _ ht hk => h.opened ht hk

theorem tracks_procedureHead (hn : Named tokens n n') :
    Tracks p Eq (procedureHead n) (procedureHead n') :=
  (tracks_arguments h hn).bind fun _ _ _ => (tracks_expect h _).bind fun _ _ _ =>
    h.noneLocal.bind fun _ _ _ => tracks_declarativePart h hn

theorem tracks_checkClosingName (hn : Named tokens n n') :
    Tracks p Eq (checkClosingName n) (checkClosingName n') := by
  refine (tracks_currentToken h .lexeme).bind fun t t' ht => ?_
  simp only [ne_eq, h.closing hn ht]
  exact .ite (.throw (h.otherName hn ht)) (.pure rfl)

theorem tracks_procedureBody (hn : Named tokens n n') :
    Tracks p Eq (procedureBody n) (procedureBody n') :=
  (tracks_expect h _).bind fun _ _ _ => (tracks_statements h).bind fun _ _ _ =>
    (tracks_expect h _).bind fun _ _ _ => (tracks_checkClosingName h hn).bind fun _ _ _ =>
      (tracks_expect h _).bind fun _ _ _ => tracks_expect h _

theorem tracks_checkEnd : Tracks p Eq checkEnd checkEnd := by
  refine (tracks_currentToken h .kind).bind fun t t' ht => ?_
  rw [h.kind ht]
  exact .ite (.throw (h.unconsumed ht)) (.pure rfl)

end Productions

/-! ## Whole runs -/

/-- The end of a run behind the end token. -/
def completion : Analysis Unit := do
  modify fun s => { s with succeeded := true }
  logSnapshot .outermost
  log .completed

/-- What two runs need to go along as a whole. -/
structure AllPrimitives (p : Pairing) (tokens : Token → Token → Prop) : Prop
    extends Primitives p tokens where
  closed {n n'} : Named tokens n n' → Tracks p Eq (closeProcedure n) (closeProcedure n')
  depth {s s'} : p.states s s' → s'.table.depth = s.table.depth
  unwound {s s'} (depth) : p.states s s' →
    p.states { s with table := s.table.unwindTo depth } { s' with table := s'.table.unwindTo depth }
  alreadyRun : p.failures (.fault .alreadyRun) (.fault .alreadyRun)
  begun : Tracks p Eq (log .begun) (log .begun)
  completed : Tracks p Eq completion completion

section Runs

variable {p : Pairing} {tokens : Token → Token → Prop} {results : α → β → Prop} {s s' : State}
  (h : AllPrimitives p tokens)

include h

theorem tracks_procedureWithin (n : Nat) :
    Tracks p Eq (procedureWithin n) (procedureWithin n) := by
  have hp := h.toPrimitives
  induction n with
  | zero => exact tracks_reject hp _
  | succ n ih =>
    exact (tracks_openProcedure hp).bind fun _ _ hn =>
      (tracks_procedureHead hp hn).bind fun _ _ _ =>
        (Tracks.whileKind (tracks_atKind hp _) (by decide) ih (spends_procedureWithin n)
          (spends_procedureWithin n)).bind fun _ _ _ =>
          (tracks_procedureBody hp hn).bind fun _ _ _ => h.closed hn

theorem tracks_analysisSteps : Tracks p Eq analysisSteps analysisSteps := by
  have hp := h.toPrimitives
  have hsteps : Tracks p Eq (do log .begun; pull; procedureSteps; checkEnd; completion)
      (do log .begun; pull; procedureSteps; checkEnd; completion) :=
    h.begun.bind fun _ _ _ => h.next.bind fun _ _ _ =>
      (Tracks.bounded settled_procedureWithin settled_procedureWithin
        (tracks_procedureWithin h)).bind fun _ _ _ => (tracks_checkEnd hp).bind fun _ _ _ =>
          h.completed
  refine .get_bind fun s s' hs => ?_
  have hcurrent : s'.current.isSome = s.current.isSome := by
    have hrel := h.current hs
    generalize s.current = c, s'.current = c' at hrel
    cases hrel <;> rfl
  have hrun : Tracks p (fun _ _ : Unit => False) (fail .alreadyRun) (fail .alreadyRun) :=
    .throw h.alreadyRun
  rw [hcurrent]
  exact .ite (hrun.bind fun _ _ hno => hno.elim) hsteps

/-- The scopes that a failure leaves open are ended in both runs. -/
theorem Tracks.unwinding {step : Analysis α} {step' : Analysis β}
    (hstep : Tracks p results step step') :
    Tracks p results (unwinding step) (unwinding step') := by
  intro s s' hs
  have hanswer := hstep s s' hs
  unfold Analysis.unwinding
  cases hr : step s with
  | ok a s₁ =>
    rw [hr] at hanswer
    obtain ⟨b, s₁', hr', hab, hs₁⟩ := hanswer
    rw [hr']
    exact ⟨b, s₁', rfl, hab, hs₁⟩
  | error e s₁ =>
    rw [hr] at hanswer
    refine hanswer.imp_right ?_
    rintro ⟨e', s₁', hr', he, hs₁⟩
    rw [hr', h.depth hs]
    exact ⟨e', _, rfl, he, h.unwound _ hs₁⟩

/-- Two runs from related states end alike, unless the first one is lost. -/
theorem tracks_ofSource {source source' : TokenSource} {tracing tracing' : Bool}
    (hs : p.states (.ofSource source tracing) (.ofSource source' tracing')) :
    (∃ e, p.lost e ∧ (Outcome.ofSource source tracing).failure = some e) ∨
      Option.Rel p.failures (Outcome.ofSource source tracing).failure
          (Outcome.ofSource source' tracing').failure ∧
        p.states (Outcome.ofSource source tracing).state
          (Outcome.ofSource source' tracing').state := by
  have hanswer := (tracks_analysisSteps h).unwinding h _ _ hs
  unfold Outcome.ofSource outcome analyze
  cases hr : unwinding analysisSteps (.ofSource source tracing) with
  | ok a s =>
    rw [hr] at hanswer
    obtain ⟨b, s', hr', -, hs⟩ := hanswer
    rw [hr']
    exact Or.inr ⟨.none, hs⟩
  | error e s =>
    rw [hr] at hanswer
    refine hanswer.imp (fun hlost => ⟨e, hlost, rfl⟩) ?_
    rintro ⟨e', s', hr', he, hs⟩
    rw [hr']
    exact ⟨.some he, hs⟩

end Runs

end ProcLang.Analysis
