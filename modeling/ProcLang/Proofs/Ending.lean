import Mathlib
import ProcLang.Analysis.State

/-!
# How a step ends

A step of an analysis ends in a result or in a failure, and leaves a state in both cases. `Ends`
says of a step what holds in each case; this module has its rules for sequences and for taking a
token.
-/

namespace ProcLang.Analysis

variable {α β : Type}

/-- A step from a state ends well, with `ok` of its result and last state, or fails, with `bad` of
its failure and last state. -/
def Ends (step : Analysis α) (s : State) (ok : α → State → Prop) (bad : Failure → State → Prop) :
    Prop :=
  match step s with
  | .ok a s' => ok a s'
  | .error e s' => bad e s'

section Rules

variable {ok : α → State → Prop} {bad : Failure → State → Prop} {s : State}

theorem Ends.mono {step : Analysis α} {ok' : α → State → Prop} {bad' : Failure → State → Prop}
    (h : Ends step s ok bad) (hok : ∀ a s', ok a s' → ok' a s')
    (hbad : ∀ e s', bad e s' → bad' e s') : Ends step s ok' bad' := by
  unfold Ends at *
  split at h
  · exact hok _ _ h
  · exact hbad _ _ h

/-- What is known of a failure may be kept. -/
theorem Ends.imp {step : Analysis α} {ok' : α → State → Prop} (h : Ends step s ok bad)
    (hok : ∀ a s', ok a s' → ok' a s') : Ends step s ok' bad :=
  h.mono hok fun _ _ h => h

theorem Ends.and {step : Analysis α} {ok' : α → State → Prop} {bad' : Failure → State → Prop}
    (h : Ends step s ok bad) (h' : Ends step s ok' bad') :
    Ends step s (fun a s' => ok a s' ∧ ok' a s') (fun e s' => bad e s' ∧ bad' e s') := by
  unfold Ends at *
  split at h
  · next heq => rw [heq] at h'; exact ⟨h, h'⟩
  · next heq => rw [heq] at h'; exact ⟨h, h'⟩

/-- What a step gives may be kept, with the state it ends in. -/
theorem Ends.with_eq {step : Analysis α} (h : Ends step s ok bad) :
    Ends step s (fun a s' => step s = .ok a s' ∧ ok a s') bad := by
  unfold Ends at *
  split at h
  · next hs => exact ⟨hs, h⟩
  · exact h

theorem Ends.of_ok {step : Analysis α} {a : α} {s' : State} (h : Ends step s ok bad)
    (hs : step s = .ok a s') : ok a s' := by
  unfold Ends at h
  rwa [hs] at h

theorem Ends.of_error {step : Analysis α} {e : Failure} {s' : State} (h : Ends step s ok bad)
    (hs : step s = .error e s') : bad e s' := by
  unfold Ends at h
  rwa [hs] at h

/-- A step that cannot fail gives a result. -/
theorem Ends.exists_ok {step : Analysis α} (h : Ends step s ok fun _ _ => False) :
    ∃ a s', step s = .ok a s' ∧ ok a s' := by
  unfold Ends at h
  split at h
  · next a s' heq => exact ⟨a, s', heq, h⟩
  · exact h.elim

@[simp] theorem ends_pure (a : α) : Ends (pure a) s ok bad ↔ ok a s := Iff.rfl

theorem ends_bind {step : Analysis β} {f : β → Analysis α} :
    Ends (step >>= f) s ok bad ↔ Ends step s (fun b s' => Ends (f b) s' ok bad) bad := by
  unfold Ends
  show (match EStateM.bind step f s with
    | .ok a s' => ok a s'
    | .error e s' => bad e s') ↔ _
  unfold EStateM.bind
  cases step s <;> rfl

@[simp] theorem ends_get {ok : State → State → Prop} : Ends get s ok bad ↔ ok s s := Iff.rfl

@[simp] theorem ends_modify {ok : PUnit → State → Prop} (f : State → State) :
    Ends (modify f) s ok bad ↔ ok () (f s) := Iff.rfl

@[simp] theorem ends_report (d : Diagnostic) :
    Ends (report d) s ok bad ↔ bad (.diagnostic d) s := Iff.rfl

@[simp] theorem ends_fail (f : Fault) : Ends (fail f) s ok bad ↔ bad (.fault f) s := Iff.rfl

/-- To run one step after another, what the first ends in must be enough for the second. -/
theorem Ends.bind {step : Analysis β} {f : β → Analysis α} {mid : β → State → Prop}
    {bad' : Failure → State → Prop} (h : Ends step s mid bad')
    (hf : ∀ b s', mid b s' → Ends (f b) s' ok bad) (hbad : ∀ e s', bad' e s' → bad e s') :
    Ends (step >>= f) s ok bad :=
  ends_bind.mpr (h.mono hf hbad)

/-- A sequence may fail as its first step does. -/
theorem Ends.andThen {step : Analysis β} {f : β → Analysis α} {mid : β → State → Prop}
    (h : Ends step s mid bad) (hf : ∀ b s', mid b s' → Ends (f b) s' ok bad) :
    Ends (step >>= f) s ok bad :=
  h.bind hf fun _ _ h => h

theorem ends_currentToken {wanted : TokenPart} {ok : Token → State → Prop} {t : Token}
    (h : s.current = some t) : Ends (currentToken wanted) s ok bad ↔ ok t s := by
  unfold currentToken
  rw [ends_bind, ends_get, h]
  rfl

theorem ends_currentToken_of_none {wanted : TokenPart} {ok : Token → State → Prop}
    (h : s.current = none) :
    Ends (currentToken wanted) s ok bad ↔ bad (.fault (.noToken wanted)) s := by
  unfold currentToken
  rw [ends_bind, ends_get, h]
  rfl

theorem ends_reject {expected : Expectation} {t : Token} (h : s.current = some t) :
    Ends (reject expected) s ok bad ↔ bad (.diagnostic (.unexpected expected t)) s := by
  unfold reject
  rw [ends_bind, ends_currentToken h, ends_report]

theorem ends_atKind {kind : Kind} {ok : Bool → State → Prop} {t : Token} (h : s.current = some t) :
    Ends (atKind kind) s ok bad ↔ ok (t.kind = kind) s := by
  unfold atKind
  rw [ends_bind, ends_currentToken h, ends_pure]

theorem bind_eq_of_ok {step : Analysis β} {f : β → Analysis α} {b : β} {s' : State}
    (h : step s = .ok b s') : (step >>= f) s = f b s' := by
  show EStateM.bind step f s = _
  unfold EStateM.bind
  rw [h]

theorem bind_eq_of_error {step : Analysis β} {f : β → Analysis α} {e : Failure} {s' : State}
    (h : step s = .error e s') : (step >>= f) s = .error e s' := by
  show EStateM.bind step f s = _
  unfold EStateM.bind
  rw [h]

theorem currentToken_eq {wanted : TokenPart} {t : Token} (h : s.current = some t) :
    currentToken wanted s = .ok t s := by
  have hends : Ends (currentToken wanted) s (fun t' s' => t' = t ∧ s' = s) fun _ _ => False := by
    rw [ends_currentToken h]
    exact ⟨rfl, rfl⟩
  obtain ⟨t', s', hok, rfl, rfl⟩ := hends.exists_ok
  exact hok

theorem currentToken_eq_of_none {wanted : TokenPart} (h : s.current = none) :
    currentToken wanted s = .error (.fault (.noToken wanted)) s := by
  have hget : (get : Analysis State) s = .ok s s := rfl
  unfold currentToken
  rw [bind_eq_of_ok hget, h]
  rfl

end Rules

/-! ## Taking a token -/

theorem pull_eq_of_ok {s : State} {t : Token} {source : TokenSource}
    (h : s.source.next = (.ok t, source)) :
    pull s = .ok () { s with source := source, current := some t } := by
  unfold pull
  rw [h]

theorem pull_eq_of_error {s : State} {e : ScanError} {source : TokenSource}
    (h : s.source.next = (.error e, source)) :
    pull s = .error (.ofScanError e) { s with source := source } := by
  unfold pull
  rw [h]

/-- The next token is looked at, or the source gave none. -/
theorem ends_pull (s : State) :
    Ends pull s
      (fun _ s' => ∃ t source, s.source.next = (.ok t, source) ∧
        s' = { s with source := source, current := some t })
      (fun e s' => ∃ err source, s.source.next = (.error err, source) ∧ e = .ofScanError err ∧
        s' = { s with source := source }) := by
  unfold Ends pull
  cases hn : s.source.next with
  | mk answer source =>
    cases answer with
    | ok t => exact ⟨t, source, rfl, rfl⟩
    | error err => exact ⟨err, source, rfl, rfl, rfl⟩

/-- The token looked at was taken, and the next one is looked at. -/
def Takes (t : Token) (s s' : State) : Prop :=
  ∃ u source, s.current = some t ∧ s.source.next = (.ok u, source) ∧
    s' = { s with source := source, current := some u, matched := t :: s.matched }

/-- The token looked at was taken, but the source gave no next one. -/
def Breaks (t : Token) (e : ScanError) (s s' : State) : Prop :=
  ∃ source, s.current = some t ∧ s.source.next = (.error e, source) ∧
    s' = { s with source := source, matched := t :: s.matched }

/-- How `expect` can fail: there is no next token, or the token is of another kind. -/
def ExpectFails (kind : Kind) (s : State) (e : Failure) (s' : State) : Prop :=
  (∃ t err, t.kind = kind ∧ Breaks t err s s' ∧ e = .ofScanError err) ∨
    ∃ t, s.current = some t ∧ t.kind ≠ kind ∧
      e = .diagnostic (.unexpected (.kind kind) t) ∧ s' = s

theorem ends_expect {kind : Kind} {s : State} (h : s.current.isSome) :
    Ends (expect kind) s (fun _ s' => ∃ t, t.kind = kind ∧ Takes t s s') (ExpectFails kind s) := by
  obtain ⟨t, ht⟩ := Option.isSome_iff_exists.mp h
  unfold expect
  rw [ends_bind, ends_currentToken ht]
  by_cases hk : t.kind = kind
  · rw [if_pos hk, ends_bind, ends_modify]
    refine (ends_pull _).mono ?_ ?_
    · rintro - s' ⟨u, source, hn, rfl⟩
      exact ⟨t, hk, u, source, ht, hn, rfl⟩
    · rintro e s' ⟨err, source, hn, rfl, rfl⟩
      exact Or.inl ⟨t, err, hk, ⟨source, ht, hn, rfl⟩, rfl⟩
  · rw [if_neg hk, ends_reject ht]
    exact Or.inr ⟨t, ht, hk, rfl, rfl⟩

theorem expect_eq_of_ne {kind : Kind} {t : Token} {s : State} (h : s.current = some t)
    (hk : t.kind ≠ kind) : expect kind s = .error (.diagnostic (.unexpected (.kind kind) t)) s := by
  show (currentToken .kind >>= _) s = _
  rw [bind_eq_of_ok (currentToken_eq h), if_neg hk]
  exact bind_eq_of_ok (currentToken_eq h)

/-- A step that succeeds in taking a token of a kind has looked at one. -/
theorem takes_of_expect {kind : Kind} {s s' : State} (h : expect kind s = .ok () s') :
    ∃ t, t.kind = kind ∧ Takes t s s' := by
  by_cases hs : s.current.isSome
  · exact (ends_expect hs).of_ok h
  · have hfails : Ends (expect kind) s (fun _ _ => False) fun _ _ => True := by
      unfold expect
      rw [ends_bind, ends_currentToken_of_none (Option.not_isSome_iff_eq_none.mp hs)]
      trivial
    exact (hfails.of_ok h).elim

theorem Takes.current {t : Token} {s s' : State} (h : Takes t s s') : s.current = some t := by
  obtain ⟨-, -, ht, -⟩ := h
  exact ht

theorem Takes.isSome {t : Token} {s s' : State} (h : Takes t s s') : s'.current.isSome := by
  obtain ⟨u, source, -, -, rfl⟩ := h
  rfl

end ProcLang.Analysis
