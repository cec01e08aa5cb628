import ProcLang.Analysis.Procedure
import ProcLang.Proofs.Declarations
import ProcLang.Proofs.Statements

/-!
# Reading procedures

A procedure is read as its goals say, with all procedures nested in it, and when it has been read
its scope is closed and the analysis stands at the frame around it (`Before.ends_procedureWithin`).
If the reading stops, it stops at a token that the frames refuse or where the source breaks off
(`ends_procedureSteps`).
-/

namespace ProcLang

namespace Analysis

open SymbolTable (Waiting Owns)

variable {b s s' : State} {f : Frame} {rest : List Frame} {name : String} {names : List String}
  {gs : List Goal} {t : Token}

/-! ## Snapshots -/

theorem ends_forM_needRow {symbols : List Symbol} (hs : ∀ symbol ∈ symbols, symbol.isShowable) :
    Ends (symbols.forM needRow) s (fun _ s' => s' = s) never := by
  induction symbols with
  | nil => exact rfl
  | cons symbol rest ih =>
    show Ends (needRow symbol >>= fun _ => rest.forM needRow) s _ _
    refine (ends_needRow (hs symbol List.mem_cons_self)).andThen ?_
    rintro - s' rfl
    exact ih fun symbol' hm => hs symbol' (List.mem_cons_of_mem _ hm)

theorem ends_logSnapshot {scope : ScopeName}
    (hs : ∀ h ∈ s.table.entriesAt s.table.depth, (s.table.symbol h).isShowable) :
    Ends (logSnapshot scope) s (fun _ s' => Rewrites b s s') never := by
  unfold logSnapshot
  rw [ends_bind, ends_get]
  refine (ends_forM_needRow fun symbol hm => ?_).andThen ?_
  · obtain ⟨h, hlisted, rfl⟩ := List.mem_map.mp hm
    exact hs h hlisted
  · rintro - s' rfl
    unfold log
    rw [ends_bind, ends_modify, ends_modify]
    by_cases ht : s'.tracing = true
    · rw [if_pos ht]
      exact ⟨rfl, rfl, rfl, rfl, .refl _ _⟩
    · rw [if_neg ht]
      exact ⟨rfl, rfl, rfl, rfl, .refl _ _⟩

/-! ## Opening -/

/-- The name that was taken opens a procedure. -/
theorem Stands.opens {s'' : State} (h : Stands b f rest s) (ht : Takes t s s')
    (hf : take (outer b) (f :: rest) t =
      .ok (.opened t.lexeme :: ⟨f.name, f.names ++ [t.lexeme], gs⟩ :: rest))
    (hp : s.pending = []) (hnew : t.lexeme ∉ s.table.namesAt.get s.table.depth)
    (hsource : s''.source = s'.source) (hcurrent : s''.current = s'.current)
    (hmatched : s''.matched = s'.matched) (hpending : s''.pending = s.pending)
    (htable : s''.table = (s.table.withFunction t.lexeme).enter) :
    Stands b (.opened t.lexeme) (⟨f.name, f.names ++ [t.lexeme], gs⟩ :: rest) s'' := by
  have hgrown := h.grown.withFunction hnew
  constructor
  · exact (h.reads.takes ht hf).congr hsource hcurrent hmatched
  · rw [htable]
    exact hgrown.enter
  · rw [htable]
    have hdepth : (s.table.withFunction t.lexeme).enter.depth = s.table.depth + 1 := rfl
    rw [hdepth]
    refine ⟨?_, ?_⟩
    · refine hgrown.wellFormed.namesAt_eq_nil hgrown.bounded ?_
      rw [SymbolTable.withFunction_depth]
      omega
    · have hone : s.table.depth + 1 - 1 = s.table.depth := by omega
      rw [hone]
      have hget : ∀ d, (s.table.withFunction t.lexeme).enter.namesAt.get d =
          if d = s.table.depth then s.table.namesAt.get s.table.depth ++ [t.lexeme]
          else s.table.namesAt.get d := fun d => SymbolTable.get_namesAt_insert ..
      refine ⟨?_, h.mirrors.2.congr fun d hd => ?_⟩
      · rw [hget, if_pos rfl, h.mirrors.1]
      · rw [hget, if_neg (by omega)]
  · rw [htable, hpending, hp]
    have hw := h.waiting
    rw [hp] at hw
    exact (hw.withFunction h.grown.wellFormed t.lexeme).enter
  · intro _
    rw [htable]
    exact ⟨_, .enter h.grown.size_le t.lexeme⟩

theorem ends_declareFunction {α : Type} {y : String} {step : Analysis α} {ok : α → State → Prop}
    {bad : Failure → State → Prop} :
    Ends (do let h ← declareName y; updateSymbol h (·.setKind .func); step) s ok bad ↔
      Ends step { s with table := s.table.withFunction y } ok bad := by
  have hkind : ((s.table.insert y s.table.depth).2.symbol s.table.symbols.size).setKind .func =
      .ok ⟨y, s.table.depth, .func {}⟩ := by
    rw [SymbolTable.WellFormed.symbol_insert_self]
    rfl
  unfold declareName updateSymbol
  rw [ends_bind]
  show Ends _ { s with table := (s.table.insert y s.table.depth).2 } _ _ ↔ _
  rw [ends_bind, ends_bind, ends_symbol, ends_bind, ends_liftSymbol hkind]
  exact Iff.rfl

theorem Before.ends_openProcedure
    (h : Before b name (.token .procedureWord :: .procedureName :: gs) rest s)
    (hp : s.pending = []) :
    Ends openProcedure s (fun y s' =>
      (∃ names, Before b y Goal.procedure (⟨name, names, gs⟩ :: rest) s') ∧ s'.pending = [] ∧
        s'.budget < s.budget) (Stops b) := by
  unfold openProcedure
  refine (h.ends_token (by decide)).andThen ?_
  rintro - s₁ ⟨⟨names, hs⟩, honly, hlt⟩
  have hp₁ := honly.pending.trans hp
  have h₁ := hs.before (Or.inl hp₁)
  obtain ⟨t, ht⟩ := Option.isSome_iff_exists.mp h₁.isSome
  have hmove : ∀ u : Token, u.kind = .identifier →
      moveOf name u (.procedureName :: gs) = .ok ⟨.enter, gs⟩ := fun u hu =>
    (Goal.Moves.procedureName hu).moveOf_eq
  rw [ends_bind, ends_currentToken ht]
  refine (h₁.ends_expect_of_refused ht (fun hkind => .of_move (hmove t hkind) fun hu => by cases hu)
    fun hne => ?_).andThen ?_
  · refine h₁.unexpected ht ?_ fun k hk => ?_
    · rw [moveOf_cons_of_none rfl, Goal.move, Move.onKind_eq_error _ hne]
      rfl
    · cases List.mem_singleton.mp hk
      refine ⟨List.mem_cons_self, fun names => ?_⟩
      obtain ⟨i, hy⟩ := exists_longName_not_mem names
      refine ⟨⟨.identifier, longName i, 0⟩,
        .opened (longName i) :: ⟨name, names ++ [longName i], gs⟩ :: rest, rfl,
        modeOfWord?_longName i, ?_⟩
      rw [take_of_move (f := ⟨name, names, .procedureName :: gs⟩) (hmove _ rfl)]
      exact if_neg hy
  · rintro - s₂ ⟨hkind, htakes⟩
    have htable := htakes.onlyTokens.table
    have hnames : s₁.table.namesAt.get s₁.table.depth = names := hs.mirrors.1
    rw [ends_bind, ends_checkNew (htable ▸ hs.grown.wellFormed), htable, hnames]
    by_cases hold : t.lexeme ∈ names
    · rw [if_pos hold]
      refine .duplicate hs (Or.inl hp₁) htakes ?_
      rw [take_of_move (hmove t hkind)]
      exact if_pos hold
    · rw [if_neg hold]
      have hf : take (outer b) (⟨name, names, .procedureName :: gs⟩ :: rest) t =
          .ok (.opened t.lexeme :: ⟨name, names ++ [t.lexeme], gs⟩ :: rest) := by
        rw [take_of_move (hmove t hkind)]
        exact if_neg hold
      rw [ends_declareFunction]
      refine ⟨⟨names ++ [t.lexeme], (hs.opens htakes hf hp₁ (by rwa [hnames]) ?_ ?_ ?_ ?_ ?_).before
        (Or.inl ?_)⟩, ?_, ?_⟩
      · rfl
      · rfl
      · rfl
      · exact htakes.onlyTokens.pending
      · exact congrArg (fun table => (table.withFunction t.lexeme).enter) htable
      · exact htakes.onlyTokens.pending.trans hp₁
      · exact htakes.onlyTokens.pending.trans hp₁
      · have hlt₂ := htakes.budget_lt (by rw [hkind]; exact fun hk => by cases hk)
        show s₂.budget < s.budget
        omega

/-! ## Head and statements -/

theorem Before.ends_procedureHead (h : Before b name Goal.procedure rest s) (hrest : rest ≠ [])
    (hp : s.pending = []) :
    Ends (procedureHead name) s (fun _ s' => Before b name (Goal.procedure.drop 3) rest s' ∧
      s'.pending = [] ∧ s'.budget ≤ s.budget) (Stops b) := by
  unfold procedureHead
  have h : Before b name (.arguments :: Goal.procedure.drop 1) rest s := h
  refine (h.ends_arguments hrest hp (by decide) (by decide)).andThen ?_
  rintro - s₁ ⟨h₁, hp₁, hle₁⟩
  have h₁ : Before b name (.token .isWord :: Goal.procedure.drop 2) rest s₁ := h₁
  refine (h₁.ends_token (by decide)).andThen ?_
  rintro - s₂ ⟨⟨names₂, hs₂⟩, honly, hlt₂⟩
  have hp₂ := honly.pending.trans hp₁
  rw [ends_bind, ends_modify]
  have hr : Rewrites b s₂ { s₂ with nextOffset := localBase } := ⟨rfl, rfl, rfl, rfl, .refl _ _⟩
  have h₂ : Before b name (.locals :: Goal.procedure.drop 3) rest s₂ := hs₂.before (Or.inl hp₂)
  refine ((h₂.rewrites hr).ends_declarativePart hrest hp₂ (by decide)).imp ?_
  rintro - s₃ ⟨h₃, hp₃, hle₃⟩
  have hle₃ : s₃.budget ≤ s₂.budget := hle₃
  exact ⟨h₃, hp₃, by omega⟩

/-- The name behind the last statement must be that of the procedure, and a name. -/
theorem Stands.ends_closingName (h : Stands b ⟨name, names, .closingName :: gs⟩ rest s)
    (hp : s.pending = []) :
    Ends (do checkClosingName name; expect .identifier) s (fun _ s' =>
      (∃ names, Stands b ⟨name, names, gs⟩ rest s') ∧ OnlyTokens s s' ∧ s'.budget < s.budget)
      (Stops b) := by
  have hq : Quiet (.closingName :: gs) s := Or.inl hp
  obtain ⟨t, ht⟩ := Option.isSome_iff_exists.mp h.reads.isSome
  unfold checkClosingName
  rw [ends_bind, ends_bind, ends_currentToken ht]
  by_cases hname : Text.lower t.lexeme = Text.lower name
  · have hmove : ∀ u : Token, Text.lower u.lexeme = Text.lower name → u.kind = .identifier →
        moveOf name u (.closingName :: gs) = .ok ⟨.read, gs⟩ := fun u hu hkind =>
      (Goal.Moves.closingName hu hkind).moveOf_eq
    rw [if_neg (not_not.mpr hname), ends_pure]
    refine ((h.before hq).ends_expect_of_refused ht
      (fun hkind => .of_move (hmove t hname hkind) fun hu => by cases hu) fun hne => ?_).imp ?_
    · refine .unexpected h hq ht (take_of_refused ?_) fun k hk => ?_
      · show moveOf name t (.closingName :: gs) = _
        rw [moveOf_cons_of_none rfl, Goal.move, if_pos hname, Move.onKind_eq_error _ hne]
        rfl
      · cases List.mem_singleton.mp hk
        refine ⟨⟨.identifier, name, 0⟩, ⟨name, names, gs⟩ :: rest, rfl, Or.inl rfl, ?_⟩
        exact take_of_move (f := ⟨name, names, _⟩) (hmove ⟨.identifier, name, 0⟩ rfl rfl)
    · rintro - s' ⟨hkind, htakes⟩
      exact ⟨(h.before hq).takes_read htakes (hmove t hname hkind), htakes.onlyTokens,
        htakes.budget_lt (by rw [hkind]; exact fun hk => by cases hk)⟩
  · rw [if_pos hname, ends_report]
    refine .otherClosingName (f := ⟨name, names, _⟩) h hq ht (take_of_refused ?_)
    rw [moveOf_cons_of_none rfl, Goal.move, if_neg hname]
    rfl

/-- The last token of a procedure was taken: its frame is left, its scope is still open. -/
def AfterBody (b : State) (rest : List Frame) (s s' : State) : Prop :=
  ∃ f s₁ t, Stands b f rest s₁ ∧ Takes t s₁ s' ∧ take (outer b) (f :: rest) t = .ok rest ∧
    s'.pending = [] ∧ s'.budget < s.budget

/-- The statements of a procedure, with the words around them. -/
theorem Before.ends_untilClosingName (h : Before b name (Goal.procedure.drop 4) rest s)
    (hp : s.pending = []) :
    Ends (do expect .beginWord; statements; expect .endWord) s
      (fun _ s' => (∃ names, Stands b ⟨name, names, [.closingName, .close]⟩ rest s') ∧
        s'.pending = [] ∧ s'.budget < s.budget) (Stops b) := by
  have h : Before b name (.token .beginWord :: Goal.procedure.drop 5) rest s := h
  refine (h.ends_token (by decide)).andThen ?_
  rintro - s₁ ⟨⟨names₁, hs₁⟩, honly₁, hlt₁⟩
  have hp₁ := honly₁.pending.trans hp
  have h₁ : Before b name (.statements :: Goal.procedure.drop 6) rest s₁ := hs₁.before (Or.inl hp₁)
  refine (h₁.ends_statements hp₁ (by decide)).andThen ?_
  rintro - s₂ ⟨h₂, honly₂, hle₂⟩
  have hp₂ := honly₂.pending.trans hp₁
  have h₂ : Before b name (.token .endWord :: Goal.procedure.drop 7) rest s₂ := h₂
  refine (h₂.ends_token (by decide)).imp ?_
  rintro - s₃ ⟨⟨names₃, hs₃⟩, honly₃, hlt₃⟩
  exact ⟨⟨names₃, hs₃⟩, honly₃.pending.trans hp₂, by omega⟩

theorem Before.ends_procedureBody (h : Before b name (Goal.procedure.drop 4) rest s)
    (hp : s.pending = []) :
    Ends (procedureBody name) s (fun _ => AfterBody b rest s) (Stops b) := by
  unfold procedureBody
  have hend := h.ends_untilClosingName hp
  rw [ends_bind] at hend ⊢
  refine hend.imp fun _ s₁ h₁ => ?_
  rw [ends_bind] at h₁ ⊢
  refine h₁.imp fun _ s₂ h₂ => h₂.andThen ?_
  rintro - s₃ ⟨⟨names₃, hs₃⟩, hp₃, hlt₃⟩
  have hclosing := hs₃.ends_closingName hp₃
  rw [ends_bind] at hclosing ⊢
  refine hclosing.imp ?_
  intro _ s₄ h₄
  refine h₄.andThen ?_
  rintro - s₅ ⟨⟨names₅, hs₅⟩, honly₅, hlt₅⟩
  have hp₅ := honly₅.pending.trans hp₃
  have h₅ := hs₅.before (Or.inl hp₅)
  obtain ⟨t, ht⟩ := Option.isSome_iff_exists.mp h₅.isSome
  have hyes : t.kind = .semicolon → moveOf name t [.close] = .ok ⟨.leave, []⟩ := fun hkind =>
    (Goal.Moves.close hkind).moveOf_eq
  refine (h₅.ends_expect_of_refused ht (fun hkind => .of_move (hyes hkind) fun hu => by cases hu)
    fun hne => ?_).imp ?_
  · refine h₅.unexpected ht ?_ fun k hk => ?_
    · rw [moveOf_cons_of_none rfl, Goal.move, Move.onKind_eq_error _ hne]
      rfl
    · cases List.mem_singleton.mp hk
      exact ⟨List.mem_cons_self, fun names => ⟨⟨.semicolon, "", 0⟩, _, rfl, modeOfWord?_empty, rfl⟩⟩
  · rintro - s₆ ⟨hkind, htakes⟩
    refine ⟨⟨name, names₅, [.close]⟩, s₅, t, hs₅, htakes,
      take_of_move (f := ⟨name, names₅, [.close]⟩) (hyes hkind),
      htakes.onlyTokens.pending.trans hp₅, ?_⟩
    have hlt₆ := htakes.budget_lt (by rw [hkind]; exact fun hk => by cases hk)
    omega

/-! ## Closing -/

/-- The scope of a procedure that was read is closed, and the frame around it is the innermost. -/
theorem AfterBody.ends_closeProcedure {s₀ : State} (h : AfterBody b (f :: rest) s₀ s)
    (hl : .locals ∉ f.goals) :
    Ends (closeProcedure name) s (fun _ s' => Stands b f rest s' ∧ s'.pending = [] ∧
      s'.budget < s₀.budget) never := by
  obtain ⟨g, s₁, t, hs, htakes, hf, hp, hlt⟩ := h
  have htable := htakes.onlyTokens.table
  have hdeep : b.table.depth < s.table.depth := by
    rw [htable]
    exact hs.depth_lt (List.cons_ne_nil _ _)
  have hgrown : SymbolTable.Grown b.table s.table := htable ▸ hs.grown
  have hwaiting : Waiting b.table s.table [] := by
    rw [htable, ← hp, htakes.onlyTokens.pending]
    exact hs.waiting
  unfold closeProcedure
  refine (ends_logSnapshot (b := b) fun h hm => ?_).andThen ?_
  · obtain ⟨y, hlisted, hd⟩ := hgrown.wellFormed.mem_entriesAt_iff.mp hm
    exact hwaiting.shown y h hlisted (hgrown.size_le_of_depth_lt hlisted (hd ▸ hdeep))
  · rintro - s₂ hr
    have hgrown₂ := hgrown.restyled hr.table.toRestyled
    have hwaiting₂ := hwaiting.refined hr.table
    have hdepth₂ := hr.table.depth
    refine ⟨⟨?_, ?_, ?_, ?_, fun hm => absurd hm hl⟩, hr.pending.trans hp, ?_⟩
    · exact (hs.reads.takes htakes hf).congr hr.source hr.current hr.matched
    · exact hgrown₂.leave (hdepth₂ ▸ hdeep)
    · have hmirrors := hs.mirrors.2
      rw [← htable, ← hdepth₂] at hmirrors
      refine hmirrors.congr fun d hd => ?_
      have hget : s₂.table.leave.namesAt.get d = if d = s₂.table.depth then []
          else s₂.table.namesAt.get d := SymbolTable.get_namesAt_deleteDepth ..
      rw [hget, if_neg (by omega), hr.table.namesAt, htable]
    · show Waiting b.table s₂.table.leave s₂.pending
      rw [hr.pending, hp]
      exact hwaiting₂.leave hgrown₂.wellFormed
    · show s₂.budget < s₀.budget
      rwa [hr.budget_eq]

/-! ## Whole procedures -/

/-- A nested procedure begins with its word. -/
theorem Before.of_procedures (h : Before b name (.procedures :: gs) rest s)
    (ht : s.current = some t) (hkind : t.kind = .procedureWord) :
    Before b name (.token .procedureWord :: .procedureName :: .procedures :: gs) rest s := by
  refine h.congr_kind ht hkind (by simp) List.mem_cons_self fun u hu => ?_
  exact (Goal.Moves.procedures hu).moveOf_eq.trans (Goal.Moves.token hu).moveOf_eq.symm

/-- By induction on the budget: the word of a procedure brings it down for those nested in it. -/
theorem Before.ends_procedureWithin {n : Nat} (hn : s.budget ≤ n)
    (h : Before b name (.token .procedureWord :: .procedureName :: gs) rest s)
    (hp : s.pending = []) (hl : .locals ∉ gs) :
    Ends (procedureWithin n) s (fun _ s' => (∃ names, Stands b ⟨name, names, gs⟩ rest s') ∧
      s'.pending = [] ∧ s'.budget < s.budget) (Stops b) := by
  induction n generalizing s name gs rest with
  | zero =>
    obtain ⟨t, ht⟩ := Option.isSome_iff_exists.mp h.isSome
    have hkind := State.kind_of_budget (Nat.le_zero.mp hn) ht
    unfold procedureWithin
    rw [ends_reject ht]
    refine h.unexpected ht ?_ fun k hk => ⟨hk, fun names => ?_⟩
    · rw [moveOf_cons_of_none rfl, Goal.move,
        Move.onKind_eq_error _ (by rw [hkind]; exact fun hk => by cases hk)]
      rfl
    · cases List.mem_singleton.mp hk
      exact ⟨⟨.procedureWord, "", 0⟩, _, rfl, modeOfWord?_empty, rfl⟩
  | succ n ih =>
    unfold procedureWithin
    refine (h.ends_openProcedure hp).andThen ?_
    rintro y s₁ ⟨⟨names, h₁⟩, hp₁, hlt₁⟩
    refine (h₁.ends_procedureHead (List.cons_ne_nil _ _) hp₁).andThen ?_
    rintro - s₂ ⟨h₂, hp₂, hle₂⟩
    have h₂ : Before b y (.procedures :: Goal.procedure.drop 4) _ s₂ := h₂
    refine (h₂.ends_whileKind (fun s => s.pending = [] ∧ s.budget ≤ n) rfl (by decide) (by decide)
      (fun s t h hs ht hkind => ?_) ⟨hp₂, by omega⟩).andThen ?_
    · refine (ih hs.2 (h.of_procedures ht hkind) hs.1 (by decide)).imp ?_
      rintro - s' ⟨⟨names', hs'⟩, hp', hlt⟩
      exact ⟨hs'.before (Or.inl hp'), ⟨hp', by omega⟩, hlt⟩
    · rintro - s₃ ⟨h₃, ⟨hp₃, -⟩, hle₃⟩
      refine (h₃.ends_procedureBody hp₃).andThen ?_
      intro _ s₄ h₄
      refine (h₄.ends_closeProcedure hl).mono ?_ fun _ _ h => h.elim
      rintro - s₅ ⟨hs₅, hp₅, hlt₅⟩
      exact ⟨⟨_, hs₅⟩, hp₅, by omega⟩

/-! ## From the first token on -/

/-- A state in which a procedure can be read: the declarations are in scopes that are open, and no
name is pending. -/
structure Ready (b : State) : Prop where
  wellFormed : b.table.WellFormed
  bounded : b.table.Bounded
  pending : b.pending = []

theorem Ready.stands (h : Ready b) (ht : b.current = some t) :
    Stands b (.base (b.table.namesAt.get b.table.depth)) [] b where
  reads := .refl ht
  grown := .refl h.wellFormed h.bounded
  mirrors := ⟨rfl, rfl⟩
  waiting := by
    rw [h.pending]
    exact .refl h.wellFormed
  owner := fun hl => absurd hl (by simp [Frame.base])

/-- A procedure that is read to its end leaves nothing to be read. -/
theorem Ready.ends_procedureSteps (h : Ready b) (ht : b.current = some t) :
    Ends procedureSteps b (fun _ s => (∃ names, Stands b ⟨"", names, []⟩ [] s) ∧ s.pending = [])
      (Stops b) := by
  have hbefore : Before b "" [.token .procedureWord, .procedureName] [] b :=
    (h.stands ht).before (Or.inl h.pending)
  refine (hbefore.ends_procedureWithin b.budget_le h.pending (by decide)).imp ?_
  rintro - s ⟨hs, hp, -⟩
  exact ⟨hs, hp⟩

end Analysis

end ProcLang
