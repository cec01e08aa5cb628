import ProcLang.Proofs.CarefulSteps
import ProcLang.Proofs.Layout

/-!
# Closed procedures in the listing

The listing of a run that fails tells of the closing of a scope only where a procedure has been read
as a whole (`Analysis.exists_closed_of_isClosing`). The two entries on it are made where the scope is
about to be closed (`Analysis.Closes`), and nothing else makes such entries before a run succeeds.
-/

namespace ProcLang

/-- The entry is one of the two on the closing of the scope of the procedure, which is about to be
closed in the state. -/
def Entry.TellsClosing (name : String) (s : State) (x : Entry) : Prop :=
  x = .snapshot (s.snapshot (.procedure name)) ∨ x = .scopeLeft name (s.table.depth - 1)

namespace Analysis

variable {α β : Type} {s s' s'' : State} {n : Nat} {m m' : List Token}
  {R R' : State → Entry → Prop}

/-! ## Accounts of entries -/

/-- If the entry tells of a closing, it was made in such a state, when none but these tokens had been
taken. -/
def Accounted (R : State → Entry → Prop) (m : List Token) (x : Entry) : Prop :=
  x.isClosing → ∃ s, R s x ∧ s.matched <:+ m

theorem Accounted.mono {x : Entry} (h : Accounted R m x) (hR : ∀ s x, R s x → R' s x)
    (hm : m <:+ m') : Accounted R' m' x := fun hx => by
  obtain ⟨s, hs, hmatched⟩ := h hx
  exact ⟨s, hR s x hs, hmatched.trans hm⟩

/-- Between the states tokens were taken and entries made, and there is an account of each. -/
structure AccountsFor (R : State → Entry → Prop) (s s' : State) : Prop where
  matched : s.matched <:+ s'.matched
  listing : Lengthens (Accounted R s'.matched) s.listing s'.listing

theorem AccountsFor.refl (s : State) : AccountsFor R s s := ⟨List.suffix_rfl, .refl s.listing⟩

theorem AccountsFor.mono (h : AccountsFor R s s') (hR : ∀ s x, R s x → R' s x) :
    AccountsFor R' s s' :=
  ⟨h.matched, h.listing.mono fun _ hx => hx.mono hR List.suffix_rfl⟩

theorem AccountsFor.trans (h : AccountsFor R s s') (h' : AccountsFor R s' s'') :
    AccountsFor R s s'' :=
  ⟨h.matched.trans h'.matched,
    (h.listing.mono fun _ hx => hx.mono (fun _ _ h => h) h'.matched).trans h'.listing⟩

/-- There is an account of the entries of the step, whether it succeeds or not. -/
def Accounts (R : State → Entry → Prop) (step : Analysis α) (s : State) : Prop :=
  Ends step s (fun _ => AccountsFor R s) fun _ => AccountsFor R s

namespace Accounts

theorem mono {step : Analysis α} (h : Accounts R step s) (hR : ∀ s x, R s x → R' s x) :
    Accounts R' step s := Ends.mono h (fun _ _ h => h.mono hR) fun _ _ h => h.mono hR

/-- Of the second step only its runs behind the first one count. -/
theorem bind {step : Analysis β} {f : β → Analysis α} (h : Accounts R step s)
    (hf : ∀ b s', step s = .ok b s' → s.matched <:+ s'.matched → Accounts R (f b) s') :
    Accounts R (step >>= f) s := by
  refine Ends.bind (Ends.with_eq h) ?_ fun _ _ h => h
  rintro b s₁ ⟨hs, h₁⟩
  exact Ends.mono (hf b s₁ hs h₁.matched) (fun _ _ => h₁.trans) fun _ _ => h₁.trans

/-- There is nothing to account for in other entries. -/
theorem of_careful {step : Analysis α} {g : Grade} (h : Careful NotClosing g step) (s : State) :
    Accounts R step s := by
  have hnone : ∀ {m} x, NotClosing x → Accounted R m x := fun x hx hclosing => by
    rw [hx] at hclosing
    cases hclosing
  refine (h.ends s).mono ?_ fun e s' hgoes =>
    ⟨hgoes.matched.trans (e.before_suffix s'), hgoes.listing.mono hnone⟩
  rintro a s' ⟨hgoes, -⟩
  exact ⟨hgoes.matched, hgoes.listing.mono hnone⟩

theorem log {x : Entry} (hx : R s' x) (hm : s'.matched <:+ s.matched) :
    Accounts R (log x) s := ⟨List.suffix_rfl, .push fun _ => ⟨s', hx, hm⟩⟩

end Accounts

/-! ## The closing of a scope -/

theorem accounts_logSnapshot {scope : ScopeName} (h : R s (.snapshot (s.snapshot scope))) :
    Accounts R (logSnapshot scope) s := by
  have hrows : ∀ symbols, Careful NotClosing .waits (List.forM symbols needRow) := fun _ =>
    .of_no_entry (.forM enters_needRow _) (.forM blind_needRow _)
  show Accounts R (do (s.table.symbolsOf (s.table.entriesAt s.table.depth)).forM needRow; _) s
  refine (Accounts.of_careful (hrows _) s).bind fun _ s₁ _ hm₁ => ?_
  exact (Accounts.log h hm₁).bind fun _ s₂ _ _ => .of_careful (careful_print _) s₂

/-- Both entries on the closing of a scope are made in the state in which it is about to be
closed. -/
theorem accounts_closeProcedure (name : String) (s : State) :
    Accounts (fun s' x => s' = s ∧ x.TellsClosing name s) (closeProcedure name) s := by
  refine (accounts_logSnapshot ⟨rfl, Or.inl rfl⟩).bind fun _ s₁ h₁ hm₁ => ?_
  obtain ⟨htable, -⟩ := (yields_logSnapshot _ s).of_ok h₁
  have hleave : Careful NotClosing .waits (modifyTable SymbolTable.leave) :=
    .of_no_entry (enters_modifyTable _) (blind_modifyTable _)
  refine (Accounts.of_careful hleave s₁).bind fun _ s₂ h₂ hm₂ => ?_
  cases h₂
  show Accounts _ (log (.scopeLeft name (s₁.table.depth - 1))) _
  rw [htable]
  exact .log ⟨rfl, Or.inr rfl⟩ (hm₁.trans hm₂)

/-! ## Procedures -/

/-- In the reading of a procedure from `s` on a scope is about to be closed in the state, and the
entry tells of that. -/
def ToldIn (n : Nat) (s s' : State) (x : Entry) : Prop :=
  ∃ b name, Closes n s b name s' ∧ x.TellsClosing name s'

/-- Up to its own closing the entries of a procedure are those of the procedures nested in it. -/
theorem accounts_procedureToClose (hn : ∀ s, Accounts (ToldIn n s) (procedureWithin n) s)
    (s : State) : Accounts (ToldIn (n + 1) s) (procedureToClose n) s := by
  refine (Accounts.of_careful careful_openProcedure s).bind fun name s₁ h₁ _ =>
    (Accounts.of_careful (careful_procedureHead name) s₁).bind fun _ s₂ h₂ _ => ?_
  refine Accounts.bind ?_ fun _ s₃ _ _ =>
    (Accounts.of_careful (careful_procedureBody name) s₃).bind fun _ _ _ _ =>
      .of_careful (.pure (g := .waits) (by decide) _) _
  -- what is told of in the rounds is told of there, and so in the procedure around them
  refine ends_whileKind_of_relation (.refl s₂) (fun _ _ => .trans) fun s' hrounds => ?_
  refine (hn s').mono ?_
  rintro s₄ x ⟨b, y, hcloses, hx⟩
  refine ⟨b, y, .nested ?_ hrounds hcloses, hx⟩
  rw [bind_eq_of_ok h₁, h₂]

/-- A procedure makes the entries of the scopes that are closed in its reading. By induction on the
bound of the nesting. -/
theorem accounts_procedureWithin (n : Nat) (s : State) :
    Accounts (ToldIn n s) (procedureWithin n) s := by
  induction n generalizing s with
  | zero => exact .of_careful (careful_reject _) s
  | succ n ih =>
    rw [procedureWithin_succ]
    refine (accounts_procedureToClose ih s).bind fun name s' h _ => ?_
    refine (accounts_closeProcedure name s').mono ?_
    rintro s' x ⟨rfl, hx⟩
    exact ⟨s, name, .own h, hx⟩

/-! ## Runs -/

variable {source : TokenSource} {tracing : Bool} {e : Failure}

/-- All that a run which fails has entered behind its beginning is accounted for. -/
theorem accounted_of_failure {x : Entry} (h : (Outcome.ofSource source tracing).failure = some e)
    (hx : x ∈ (Outcome.ofSource source tracing).state.listing) (hclosing : x.isClosing) :
    ∃ b s, Begun (.ofSource source tracing) b ∧ ToldIn (b.source.bound + 1) b s x ∧
      s.matched <:+ (Outcome.ofSource source tracing).state.matched := by
  obtain ⟨s', hrun, hstate⟩ := exists_run_of_failure h
  rw [hstate] at hx ⊢
  replace hx : x ∈ s'.listing := hx
  rcases exists_begun_or_error source tracing with ⟨b, hbegun⟩ | ⟨e', s, hr, hlisting⟩
  · rw [analysisSteps_eq hbegun] at hrun
    have hsteps : Accounts (ToldIn (b.source.bound + 1) b) procedureSteps b :=
      accounts_procedureWithin _ b
    have haccounts : AccountsFor (ToldIn (b.source.bound + 1) b) b s' := by
      cases hp : procedureSteps b with
      | error e₁ s₁ =>
        cases (bind_eq_of_error hp).symm.trans hrun
        exact Ends.of_error hsteps hp
      | ok a s₁ =>
        rw [bind_eq_of_ok hp] at hrun
        obtain ⟨hmatched, hlisting⟩ := (entersLast_conclusion s₁).of_error hrun
        refine (Ends.of_ok hsteps hp).trans ⟨hmatched.trans (e.before_suffix s'), ?_⟩
        rw [hlisting]
        exact .refl _
    obtain ⟨more, heq, hall⟩ := haccounts.listing
    rw [Array.mem_def, heq, hbegun.listing] at hx
    rcases List.mem_cons.mp hx with rfl | hx
    · cases hclosing
    · obtain ⟨s, hs, hm⟩ := hall x hx hclosing
      exact ⟨b, s, hbegun, hs, hm⟩
  · cases hr.symm.trans hrun
    rw [hlisting] at hx
    obtain rfl : x = .begun := by simpa using hx
    cases hclosing

/-- What the listing of a run that fails tells of the closing of a scope is true of a procedure that
was read as a whole: its tokens are among those taken. -/
theorem exists_closed_of_isClosing {x : Entry}
    (h : (Outcome.ofSource source tracing).failure = some e)
    (hx : x ∈ (Outcome.ofSource source tracing).state.listing) (hclosing : x.isClosing) :
    ∃ (b b' s : State) (q : Procedure), Begun (.ofSource source tracing) b ∧
      Closes (b.source.bound + 1) b b' q.name s ∧ Took q.terminals b' s ∧
      s.matched <:+ (Outcome.ofSource source tracing).state.matched ∧
      (x = .snapshot ⟨.procedure q.name, s.table.depth, q.scope s.table.depth⟩ ∨
        x = .scopeLeft q.name (s.table.depth - 1)) := by
  obtain ⟨b, s, hbegun, ⟨b', name, hcloses, htells⟩, hmatched⟩ := accounted_of_failure h hx hclosing
  obtain ⟨q, rfl, hfilled⟩ := hcloses.exists_filled hbegun.ready
  refine ⟨b, b', s, q, hbegun, hcloses, hfilled.took, hmatched, htells.imp_left ?_⟩
  rintro rfl
  rw [State.snapshot, hfilled.scope, hfilled.depth]

end Analysis

end ProcLang
