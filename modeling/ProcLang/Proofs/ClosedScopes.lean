import ProcLang.Proofs.ClosedProcedures
import ProcLang.Proofs.Closings
import ProcLang.Proofs.TwoRuns

/-!
# Closed scopes

Which scopes are closed in the reading of a procedure is settled by the reading itself
(`Closing.IsIn`). Whether it succeeds or not, exactly their snapshots are entered into the listing and
printed, in the order in which they are closed (`Analysis.traces_procedureWithin`). The scope of a
nested procedure is closed before that around it (`Analysis.before_of_inside`).
-/

namespace ProcLang

/-! ## Closings -/

/-- The snapshot that an entry consists of. -/
def Entry.snapshot? : Entry → Option Snapshot
  | snapshot shot => some shot
  | _ => none

/-- A scope that is closed: the state in which its procedure began, its name, and the state in which
it is about to be closed. -/
structure Closing where
  begun : State
  name : String
  last : State

namespace Closing

open Analysis (Begun Closes Rounds openProcedure procedureHead procedureWithin procedureToClose
  procedureBody closeProcedure)

variable {c c' : Closing} {s s₁ s₂ s₃ : State} {name : String} {n : Nat}

/-- The snapshot of the scope. -/
def snapshot (c : Closing) : Snapshot := c.last.snapshot (.procedure c.name)

/-- The scope is closed without a failure. -/
def Done (c : Closing) : Prop := ∃ s, closeProcedure c.name c.last = .ok () s

/-- The scope is closed in the reading of a procedure from `s` on, with at most `n` procedures nested
in one another. It is that of the procedure itself or of one that is nested in it. -/
def IsIn (n : Nat) (s : State) (c : Closing) : Prop := Closes n s c.begun c.name c.last ∧ c.Done

/-- The scope is closed in the reading of procedures one behind the other. -/
def IsInRounds (n : Nat) (s : State) (c : Closing) : Prop :=
  ∃ s', Rounds .procedureWord (procedureWithin n) s s' ∧ c.IsIn n s'

/-- The scope is closed in the run over the source. -/
def IsInRun (source : TokenSource) (tracing : Bool) (c : Closing) : Prop :=
  ∃ b, Begun (.ofSource source tracing) b ∧ c.IsIn (b.source.bound + 1) b

/-- Fewer tokens have been taken when the first scope is closed. -/
def Before (c c' : Closing) : Prop := c.last.matched.length < c'.last.matched.length

/-- The procedure of the first scope is nested in that of the second one. -/
def Inside (c c' : Closing) : Prop :=
  ∃ n s, procedureToClose n c'.begun = .ok c'.name c'.last ∧
    (do let outer ← openProcedure; procedureHead outer) c'.begun = .ok () s ∧ c.IsInRounds n s

end Closing

namespace Analysis

variable {α β : Type} {s s' s₁ s₂ s₃ : State} {n : Nat} {name : String} {t : Token} {e : Failure}
  {kind : Kind} {step : Analysis Unit} {c : Closing}

/-! ## Rounds from the first one on -/

theorem Rounds.cons (ht : s.current = some t) (hk : t.kind = kind) (hstep : step s = .ok () s₁)
    (h : Rounds kind step s₁ s₂) : Rounds kind step s s₂ := by
  induction h with
  | none => exact .more (.none s) ht hk hstep
  | more _ ht' hk' hstep' ih => exact .more ih ht' hk' hstep'

/-- Either no round is made or a first one. -/
theorem Rounds.eq_or_exists_first (h : Rounds kind step s s₂) : s₂ = s ∨
    ∃ t s₁, s.current = some t ∧ t.kind = kind ∧ step s = .ok () s₁ ∧ Rounds kind step s₁ s₂ := by
  induction h with
  | none => exact Or.inl rfl
  | more hrounds ht hk hstep ih =>
    right
    rcases ih with rfl | ⟨u, s₁, hu, hk', hfirst, hrest⟩
    · exact ⟨_, _, ht, hk, hstep, .none _⟩
    · exact ⟨u, s₁, hu, hk', hfirst, .more hrest ht hk hstep⟩

/-- No scope is closed where no procedure begins. -/
theorem not_isInRounds (h : ∀ t, s.current = some t → t.kind ≠ .procedureWord) :
    ¬ c.IsInRounds n s := by
  rintro ⟨s', hrounds, hcloses, -⟩
  rcases hrounds.eq_or_exists_first with rfl | ⟨t, -, ht, hk, -⟩
  · obtain ⟨t, ht, hk⟩ := hcloses.exists_current
    exact h t ht hk
  · exact h t ht hk

/-- Where a procedure begins a scope is closed in it or behind it. -/
theorem isInRounds_iff (ht : s.current = some t) (hk : t.kind = .procedureWord) :
    c.IsInRounds n s ↔
      c.IsIn n s ∨ ∃ s₁, procedureWithin n s = .ok () s₁ ∧ c.IsInRounds n s₁ := by
  constructor
  · rintro ⟨s', hrounds, hin⟩
    rcases hrounds.eq_or_exists_first with rfl | ⟨-, s₁, -, -, hstep, hrest⟩
    · exact Or.inl hin
    · exact Or.inr ⟨s₁, hstep, s', hrest, hin⟩
  · rintro (hin | ⟨s₁, hstep, s', hrest, hin⟩)
    · exact ⟨s, .none s, hin⟩
    · exact ⟨s', hrest.cons ht hk hstep, hin⟩

/-- Where the head of a procedure is read a scope is closed in the procedures nested in it, or it is
that of the procedure itself. -/
theorem isIn_succ_iff
    (h : (do let outer ← openProcedure; procedureHead outer) s = .ok () s₁) :
    c.IsIn (n + 1) s ↔ c.IsInRounds n s₁ ∨
      (c.begun = s ∧ procedureToClose n s = .ok c.name c.last ∧ c.Done) := by
  obtain ⟨begun, name, last⟩ := c
  constructor
  · rintro ⟨hcloses, hdone⟩
    generalize hm : n + 1 = m at hcloses
    cases hcloses with
    | own hown =>
      cases hm
      exact Or.inr ⟨rfl, hown, hdone⟩
    | nested hhead hrounds hinner =>
      cases hm
      cases h.symm.trans hhead
      exact Or.inl ⟨_, hrounds, hinner, hdone⟩
  · rintro (⟨s', hrounds, hinner, hdone⟩ | ⟨rfl, hown, hdone⟩)
    · exact ⟨.nested h hrounds hinner, hdone⟩
    · exact ⟨.own hown, hdone⟩

/-- Where the head of a procedure is not read no scope is closed. -/
theorem not_isIn_succ (h : (do let outer ← openProcedure; procedureHead outer) s = .error e s₁) :
    ¬ c.IsIn (n + 1) s := by
  rintro ⟨hcloses, -⟩
  generalize hm : n + 1 = m at hcloses
  cases hcloses with
  | own hown =>
    cases hopen : openProcedure c.begun with
    | error => cases (bind_eq_of_error hopen).symm.trans hown
    | ok outer s₀ =>
      rw [bind_eq_of_ok hopen] at h
      cases ((bind_eq_of_ok hopen).trans (bind_eq_of_error h)).symm.trans hown
  | nested hhead hrounds hinner => cases h.symm.trans hhead

theorem not_isIn_zero : ¬ c.IsIn 0 s := fun h => nomatch h.1

/-! ## What is entered and printed -/

/-- Between the states exactly such scopes are closed. Their snapshots, and no others, are entered
into the listing, in the order in which the scopes are closed, and where there is tracing they are
printed. -/
structure Logged (Q : Closing → Prop) (closed : List Closing) (s s' : State) : Prop where
  matched : s.matched <:+ s'.matched
  tracing : s'.tracing = s.tracing
  entered : s'.listing.toList.filterMap Entry.snapshot? =
    s.listing.toList.filterMap Entry.snapshot? ++ closed.map Closing.snapshot
  printed : s.tracing = true → s'.printed.toList = s.printed.toList ++ closed.map Closing.snapshot
  mem_iff : ∀ c, c ∈ closed ↔ Q c
  order : closed.Pairwise Closing.Before
  bounds : ∀ c ∈ closed, s.matched.length < c.last.matched.length ∧
    c.last.matched.length ≤ s'.matched.length

/-- The step closes exactly such scopes, whether it succeeds or not. -/
def Traces (Q : Closing → Prop) (step : Analysis α) (s : State) : Prop :=
  Ends step s (fun _ s' => ∃ closed, Logged Q closed s s') fun _ s' => ∃ closed, Logged Q closed s s'

namespace Logged

variable {Q Q' R : Closing → Prop} {closed closed' : List Closing}

theorem none (hmatched : s.matched <:+ s'.matched) (htrace : trace s' = trace s)
    (hlisting : Lengthens NotClosing s.listing s'.listing) (hQ : ∀ c, ¬ Q c) :
    Logged Q [] s s' where
  matched := hmatched
  tracing := congrArg Prod.fst htrace
  entered := by
    obtain ⟨more, heq, hall⟩ := hlisting
    have hnone : more.filterMap Entry.snapshot? = [] := by
      refine List.filterMap_eq_nil_iff.mpr fun x hx => ?_
      have hno := hall x hx
      cases x <;> first | rfl | cases hno
    rw [heq, List.filterMap_append, hnone]
    rfl
  printed _ := by
    rw [show s'.printed = s.printed from congrArg Prod.snd htrace]
    exact (List.append_nil _).symm
  mem_iff c := iff_of_false List.not_mem_nil (hQ c)
  order := .nil
  bounds _ h := absurd h List.not_mem_nil

theorem congr (h : Logged Q closed s s') (hR : ∀ c, R c ↔ Q c) : Logged R closed s s' :=
  { h with mem_iff := fun c => (h.mem_iff c).trans (hR c).symm }

theorem trans (h : Logged Q closed s s₁) (h' : Logged Q' closed' s₁ s') :
    Logged (fun c => Q c ∨ Q' c) (closed ++ closed') s s' where
  matched := h.matched.trans h'.matched
  tracing := h'.tracing.trans h.tracing
  entered := by rw [h'.entered, h.entered, List.map_append, List.append_assoc]
  printed ht := by
    rw [h'.printed (h.tracing.trans ht), h.printed ht, List.map_append, List.append_assoc]
  mem_iff c := by rw [List.mem_append, h.mem_iff, h'.mem_iff]
  order := List.pairwise_append.mpr ⟨h.order, h'.order, fun c hc c' hc' =>
    Nat.lt_of_le_of_lt (h.bounds c hc).2 (h'.bounds c' hc').1⟩
  bounds c hc := by
    have hle := h.matched.length_le
    have hle' := h'.matched.length_le
    rcases List.mem_append.mp hc with hc | hc
    · have hbounds := h.bounds c hc
      omega
    · have hbounds := h'.bounds c hc
      omega

end Logged

/-! ## Single steps -/

theorem length_matched_lt (h : s.matched <:+ s'.matched) (hne : s'.matched ≠ s.matched) :
    s.matched.length < s'.matched.length :=
  Nat.lt_of_le_of_ne h.length_le fun heq => hne (h.eq_of_length heq).symm

section Steps

variable {Q R : Closing → Prop} {g : Grade}

/-- Up to the closing of a scope nothing is entered or printed that counts. -/
theorem Logged.of_quiet {step : Analysis α} (hc : Careful NotClosing g step) (hs : Silent step)
    (hQ : ∀ c, ¬ Q c) (s : State) :
    Ends step s (fun _ s' => Logged Q [] s s' ∧ (g = .takes → s'.matched ≠ s.matched))
      fun _ s' => Logged Q [] s s' := by
  refine ((hc.ends s).and (hs s)).mono ?_ ?_
  · rintro a s' ⟨⟨hgoes, htakes⟩, htrace⟩
    exact ⟨.none hgoes.matched htrace hgoes.listing hQ, htakes⟩
  · rintro e s' ⟨hgoes, htrace⟩
    exact .none (hgoes.matched.trans (e.before_suffix s')) htrace hgoes.listing hQ

theorem Traces.of_quiet {step : Analysis α} (hc : Careful NotClosing g step) (hs : Silent step)
    (hQ : ∀ c, ¬ Q c) (s : State) : Traces Q step s :=
  (Logged.of_quiet hc hs hQ s).mono (fun _ _ h => ⟨[], h.1⟩) fun _ _ h => ⟨[], h⟩

theorem Traces.bind {step : Analysis β} {f : β → Analysis α} (h : Traces Q step s)
    (herror : ∀ e s₁, step s = .error e s₁ → ∀ c, R c ↔ Q c)
    (hok : ∀ b s₁, step s = .ok b s₁ → ∃ Q', Traces Q' (f b) s₁ ∧ ∀ c, R c ↔ Q c ∨ Q' c) :
    Traces R (step >>= f) s := by
  unfold Traces Ends at h ⊢
  cases hr : step s with
  | error e s₁ =>
    rw [hr] at h
    rw [bind_eq_of_error hr]
    obtain ⟨closed, hlogged⟩ := h
    exact ⟨closed, hlogged.congr (herror e s₁ hr)⟩
  | ok b s₁ =>
    rw [hr] at h
    rw [bind_eq_of_ok hr]
    obtain ⟨closed, hlogged⟩ := h
    obtain ⟨Q', hf, hR⟩ := hok b s₁ hr
    exact Ends.mono hf
      (fun _ s₂ ⟨closed', h'⟩ => ⟨closed ++ closed', (hlogged.trans h').congr hR⟩)
      fun _ s₂ ⟨closed', h'⟩ => ⟨closed ++ closed', (hlogged.trans h').congr hR⟩

/-- All that is closed is closed behind the first step. -/
theorem Traces.bind_quiet {step : Analysis β} {f : β → Analysis α} (hc : Careful NotClosing g step)
    (hs : Silent step) (herror : ∀ e s₁, step s = .error e s₁ → ∀ c, ¬ R c)
    (hok : ∀ b s₁, step s = .ok b s₁ → Traces R (f b) s₁) : Traces R (step >>= f) s :=
  (Traces.of_quiet hc hs (fun _ => not_false) s).bind
    (fun e s₁ hr c => iff_false_intro (herror e s₁ hr c))
    fun b s₁ hr => ⟨R, hok b s₁ hr, fun _ => (false_or _).to_iff.symm⟩

end Steps

theorem ends_closeProcedure_any (name : String) (s : State) :
    Ends (closeProcedure name) s (fun _ s' => s'.matched = s.matched ∧ s'.tracing = s.tracing ∧
      s'.printed = (s.withShot (s.snapshot (.procedure name))).printed ∧
      ∃ depth, s'.listing =
        (s.listing.push (.snapshot (s.snapshot (.procedure name)))).push (.scopeLeft name depth))
      fun _ s' => s' = s := by
  refine (ends_logSnapshot_any _ s).andThen ?_
  rintro - _ rfl
  exact ⟨rfl, rfl, rfl, _, rfl⟩

/-- One scope is closed, behind tokens that were taken. -/
theorem Logged.closing (c : Closing) (h : Logged (fun _ => False) [] s c.last)
    (hne : c.last.matched ≠ s.matched) (hclose : s'.matched = c.last.matched ∧
      s'.tracing = c.last.tracing ∧ s'.printed = (c.last.withShot c.snapshot).printed ∧
      ∃ depth, s'.listing =
        (c.last.listing.push (.snapshot c.snapshot)).push (.scopeLeft c.name depth)) :
    Logged (· = c) [c] s s' := by
  obtain ⟨hmatched, htracing, hprinted, depth, hlisting⟩ := hclose
  constructor
  · exact hmatched ▸ h.matched
  · exact htracing.trans h.tracing
  · rw [hlisting, Array.toList_push, Array.toList_push, List.filterMap_append, List.filterMap_append,
      h.entered, List.map_nil, List.append_nil, List.append_assoc]
    rfl
  · intro ht
    have htraced : c.last.tracing = true := h.tracing.trans ht
    rw [hprinted, State.withShot, if_pos htraced, Array.toList_push, h.printed ht, List.map_nil,
      List.append_nil]
    rfl
  · exact fun _ => List.mem_singleton
  · exact List.pairwise_singleton _ _
  · exact List.forall_mem_singleton.mpr
      ⟨length_matched_lt h.matched hne, hmatched ▸ Nat.le_refl _⟩

/-! ## Procedures -/

/-- A procedure from its statements on. Its scope is closed if they and the end are read. -/
theorem traces_procedureBody_close (b : State) (name : String) (s : State) :
    Traces (fun c => c.begun = b ∧ c.name = name ∧ procedureBody name s = .ok () c.last ∧ c.Done)
      (procedureBody name >>= fun _ => closeProcedure name) s := by
  have hquiet := Logged.of_quiet (careful_procedureBody name)
    (Silent.of_follows fun _ h => follows_procedureBody h name) (fun _ => not_false) s
  unfold Traces Ends at *
  cases hbody : procedureBody name s with
  | error e s₁ =>
    rw [hbody] at hquiet
    rw [bind_eq_of_error hbody]
    exact ⟨[], hquiet.congr fun c => iff_false_intro fun ⟨_, _, hno, _⟩ => by cases hno⟩
  | ok a s₁ =>
    rw [hbody] at hquiet
    obtain ⟨hlogged, htakes⟩ := hquiet
    rw [bind_eq_of_ok hbody]
    have hclose := ends_closeProcedure_any name s₁
    unfold Ends at hclose
    cases hr : closeProcedure name s₁ with
    | error e s₂ =>
      rw [hr] at hclose
      obtain rfl : s₂ = s₁ := hclose
      refine ⟨[], hlogged.congr fun c => iff_false_intro ?_⟩
      rintro ⟨-, rfl, hlast, s', hdone⟩
      cases hlast
      cases hr.symm.trans hdone
    | ok a s₂ =>
      rw [hr] at hclose
      refine ⟨[⟨b, name, s₁⟩], (hlogged.closing ⟨b, name, s₁⟩ (htakes rfl) hclose).congr fun c => ?_⟩
      constructor
      · rintro ⟨rfl, rfl, hlast, -⟩
        cases hlast
        rfl
      · rintro rfl
        exact ⟨rfl, rfl, rfl, s₂, hr⟩

/-- Procedures one behind the other. By induction on the budget, round by round. -/
theorem traces_rounds (hn : ∀ s, Traces (fun c => c.IsIn n s) (procedureWithin n) s) (s : State) :
    Traces (fun c => c.IsInRounds n s) (whileKind .procedureWord (procedureWithin n)) s := by
  induction hb : s.budget using Nat.strong_induction_on generalizing s with
  | _ k ih =>
    subst hb
    by_cases hword : ∃ t, s.current = some t ∧ t.kind = .procedureWord
    · obtain ⟨t, ht, hk⟩ := hword
      unfold Traces Ends
      rw [whileKind_eq_bind (by decide) (spends_procedureWithin n) ht hk]
      refine Traces.bind (hn s) (fun e s₁ hr c => ?_) fun a s₁ hr => ?_
      · rw [isInRounds_iff ht hk, hr]
        simp
      · have hlt : s₁.budget < s.budget := spends_procedureWithin n s a s₁ hr
        refine ⟨_, ih _ hlt s₁ rfl, fun c => ?_⟩
        rw [isInRounds_iff ht hk, hr]
        simp
    · have hno : ∀ t, s.current = some t → t.kind ≠ .procedureWord := fun t ht hk =>
        hword ⟨t, ht, hk⟩
      have hstay : Ends (whileKind .procedureWord (procedureWithin n)) s (fun _ s' => s' = s)
          fun _ s' => s' = s :=
        ends_whereKind (fun _ _ h => h) (fun t ht hk => absurd hk (hno t ht)) rfl
      have hnone : Logged (fun c => c.IsInRounds n s) [] s s :=
        .none List.suffix_rfl rfl (.refl _) fun c => not_isInRounds hno
      refine hstay.mono ?_ ?_
      · rintro _ _ rfl
        exact ⟨[], hnone⟩
      · rintro _ _ rfl
        exact ⟨[], hnone⟩

/-- A procedure closes exactly the scopes that are closed in its reading. By induction on the bound
of the nesting. -/
theorem traces_procedureWithin (n : Nat) (s : State) :
    Traces (fun c => c.IsIn n s) (procedureWithin n) s := by
  induction n generalizing s with
  | zero =>
    exact .of_quiet (careful_reject _) (.of_follows fun _ h => follows_reject h _)
      (fun _ => not_isIn_zero) s
  | succ n ih =>
    have hopen : Silent openProcedure := .of_follows fun _ h => follows_openProcedure h
    have hhead : ∀ name, Silent (procedureHead name) := fun name =>
      .of_follows fun _ h => follows_procedureHead h name
    refine .bind_quiet careful_openProcedure hopen
      (fun e s₁ h c => not_isIn_succ (bind_eq_of_error h)) fun name s₁ h₁ => ?_
    refine .bind_quiet (careful_procedureHead name) (hhead name)
      (fun e s₂ h c => not_isIn_succ ((bind_eq_of_ok h₁).trans h)) fun _ s₂ h₂ => ?_
    have hin : ∀ c : Closing, c.IsIn (n + 1) s ↔ c.IsInRounds n s₂ ∨
        (c.begun = s ∧ procedureToClose n s = .ok c.name c.last ∧ c.Done) := fun c =>
      isIn_succ_iff ((bind_eq_of_ok h₁).trans h₂)
    have hown : procedureToClose n s = (do
        whileKind .procedureWord (procedureWithin n)
        procedureBody name
        return name) s₂ := (bind_eq_of_ok h₁).trans (bind_eq_of_ok h₂)
    refine (traces_rounds ih s₂).bind (fun e s₃ h₃ c => ?_) fun _ s₃ h₃ =>
      ⟨_, traces_procedureBody_close s name s₃, fun c => ?_⟩
    · rw [hin, hown, bind_eq_of_error h₃]
      simp
    · rw [hin, hown, bind_eq_of_ok h₃]
      refine or_congr_right (and_congr_right fun _ => ?_)
      cases hbody : procedureBody name s₃ with
      | error e s₄ =>
        rw [bind_eq_of_error hbody]
        simp
      | ok a s₄ =>
        rw [bind_eq_of_ok hbody]
        show EStateM.Result.ok name s₄ = _ ∧ _ ↔ _
        simp [eq_comm, and_assoc]

/-- What is read of a procedure before its scope is closed. -/
theorem yields_parts (n : Nat) (s : State) :
    Yields (procedureToClose n) s fun name s' => ∃ s₁ s₂,
      (do let outer ← openProcedure; procedureHead outer) s = .ok () s₁ ∧
      whileKind .procedureWord (procedureWithin n) s₁ = .ok () s₂ ∧
      procedureBody name s₂ = .ok () s' := by
  have hself : ∀ {α : Type} (step : Analysis α) (s : State),
      Yields step s fun a s' => step s = .ok a s' := fun step s =>
    (Ends.with_eq (Yields.of_forall fun _ _ => trivial)).mono (fun _ _ h => h.1) fun _ _ _ => trivial
  refine (hself openProcedure s).bind fun name s₀ h₀ => (hself _ s₀).bind fun _ s₁ h₁ =>
    (hself _ s₁).bind fun _ s₂ h₂ => (hself _ s₂).bind fun _ s₃ h₃ => ?_
  exact ⟨s₁, s₂, (bind_eq_of_ok h₀).trans h₁, h₂, h₃⟩

/-- The scope of a nested procedure is closed before that around it. -/
theorem before_of_inside {c c' : Closing} (h : c.Inside c') : c.Before c' := by
  obtain ⟨n, s, hown, hhead, hin⟩ := h
  obtain ⟨s₁, s₂, hhead', hrounds, hbody⟩ := (yields_parts n c'.begun).of_ok hown
  cases hhead.symm.trans hhead'
  obtain ⟨closed, hlogged⟩ := Ends.of_ok (traces_rounds (traces_procedureWithin n) s) hrounds
  have hle := (hlogged.bounds c ((hlogged.mem_iff c).mpr hin)).2
  obtain ⟨hgoes, htakes⟩ :=
    Ends.of_ok ((careful_procedureBody (P := NotClosing) c'.name).ends s₂) hbody
  exact Nat.lt_of_le_of_lt hle (length_matched_lt hgoes.matched (htakes rfl))

end Analysis

end ProcLang
