import ProcLang.Proofs.Attributing
import ProcLang.Proofs.Names

/-!
# Reading declarations

Groups of parameters and of local names are read as their goals say. A type mark attributes all
pending names; the parameters of a procedure stay pending up to the end of their list
(`Before.ends_arguments`), local names up to the end of their group (`Before.ends_declarativePart`).
-/

namespace ProcLang.Analysis

open SymbolTable (Waiting Owns)

variable {b s s' : State} {f : Frame} {rest : List Frame} {name : String} {names : List String}
  {gs : List Goal} {t : Token}

theorem Before.rewrites (h : Before b name gs rest s) (hr : Rewrites b s s') :
    Before b name gs rest s' := by
  obtain ⟨f, hf, hs, hq, hagree⟩ := h
  refine ⟨f, hf, hs.rewrites hr, hq.imp_left fun hp => hr.pending.trans hp, fun t ht => ?_⟩
  exact hagree t (ht.imp_left fun ht => hr.current ▸ ht)

theorem Before.waiting (h : Before b name gs rest s) :
    Waiting b.table s.table s.pending := by
  obtain ⟨f, -, hs, -⟩ := h
  exact hs.waiting

/-- When the pending names have got their types they need not be pending any more. -/
theorem Stands.clear (h : Stands b f rest s) (ht : AllTyped s) :
    Stands b f rest { s with pending := [] } where
  reads := h.reads.congr rfl rfl rfl
  grown := h.grown
  mirrors := h.mirrors
  waiting := h.waiting.clear ht
  owner := h.owner

theorem AllTyped.onlyTokens (ht : AllTyped s) (h : OnlyTokens s s') : AllTyped s' := by
  obtain ⟨_, _, _, rfl⟩ := h
  exact ht

/-! ## Type marks -/

/-- A numeral is taken whether or not it has a value. -/
theorem Before.ends_numeral (h : Before b name (.literal :: gs) rest s) (ht : s.current = some t) :
    Ends numeral s (fun text s' => text = t.lexeme ∧ t.kind = .number ∧ Takes t s s')
      (Stops b) := by
  unfold numeral
  rw [ends_bind, ends_currentToken ht]
  refine (h.ends_expect_of_refused ht (fun hkind => ?_) fun hne => ?_).andThen ?_
  · unfold Admits
    by_cases hparse : (Numeral.Value.parse t.lexeme).isOk
    · exact Or.inr ⟨_, (Goal.Moves.literal hkind hparse).moveOf_eq, fun hu => by cases hu⟩
    · rw [moveOf_cons_of_none rfl, Goal.move, if_pos ⟨hkind, hparse⟩]
      exact Or.inl rfl
  · refine h.unexpected ht ?_ fun k hk => ?_
    · rw [moveOf_cons_of_none rfl, Goal.move, if_neg fun hk => hne hk.1,
        Move.onKind_eq_error _ hne]
      rfl
    · cases List.mem_singleton.mp hk
      exact ⟨List.mem_cons_self, fun names => ⟨⟨.number, "0", 0⟩, _, rfl, by decide, rfl⟩⟩
  · rintro - s' ⟨hkind, htakes⟩
    exact ⟨rfl, hkind, htakes⟩

/-- What a type mark comes to: it was read, and the pending names have got their types. -/
def AfterMark (b : State) (name : String) (gs : List Goal) (rest : List Frame) (s s' : State) :
    Prop :=
  (∃ names, Stands b ⟨name, names, gs⟩ rest s') ∧ AllTyped s' ∧ s'.budget < s.budget

theorem Before.ends_constantMark (h : Before b name (.typeMark :: gs) rest s)
    (ht : s.current = some t) (hkind : t.kind = .constantWord) :
    Ends constantMark s (fun _ => AfterMark b name gs rest s) (Stops b) := by
  have hm : moveOf name t (.typeMark :: gs) = .ok ⟨.read, .token .assign :: .literal :: gs⟩ :=
    (Goal.Moves.constant hkind).moveOf_eq
  unfold constantMark
  refine (h.ends_expect_of_kind (by decide) ht hkind hm).andThen ?_
  rintro - s₁ ⟨⟨names₁, hs₁⟩, honly₁, hlt₁⟩
  have h₁ := hs₁.before (Or.inr ⟨.literal, by simp, rfl⟩)
  refine (h₁.ends_token (by decide)).andThen ?_
  rintro - s₂ ⟨⟨names₂, hs₂⟩, honly₂, hlt₂⟩
  have hq₂ : Quiet (.literal :: gs) s₂ := Or.inr ⟨.literal, by simp, rfl⟩
  obtain ⟨u, hu⟩ := Option.isSome_iff_exists.mp hs₂.reads.isSome
  refine ((hs₂.before hq₂).ends_numeral hu).andThen ?_
  rintro text s₃ ⟨rfl, hnumber, htakes⟩
  unfold constantValue
  cases hparse : Numeral.Value.parse u.lexeme with
  | error err =>
    refine .numeral hs₂ hq₂ htakes ?_ hparse
    refine take_of_refused ?_
    rw [moveOf_cons_of_none rfl, Goal.move, hparse, if_pos ⟨hnumber, Bool.false_ne_true⟩]
    rfl
  | ok value =>
    have hmove : moveOf name u (.literal :: gs) = .ok ⟨.read, gs⟩ :=
      (Goal.Moves.literal hnumber (by rw [hparse]; rfl)).moveOf_eq
    obtain ⟨names₃, hs₃⟩ := (hs₂.before hq₂).takes_read htakes hmove
    have hlt₃ := htakes.budget_lt (by rw [hnumber]; exact fun hk => by cases hk)
    refine (ends_attributePending hs₃.waiting hs₃.grown.wellFormed fun _ _ => rfl).mono ?_
      fun _ _ h => h.elim
    rintro - s₄ ⟨hr, htyped⟩
    refine ⟨⟨names₃, hs₃.rewrites hr⟩, htyped, ?_⟩
    rw [hr.budget_eq]
    omega

theorem Before.ends_mark (h : Before b name (.typeMark :: gs) rest s) :
    Ends mark s (fun _ => AfterMark b name gs rest s) (Stops b) := by
  obtain ⟨t, ht⟩ := Option.isSome_iff_exists.mp h.isSome
  unfold mark
  rw [ends_bind, ends_currentToken ht]
  split
  · next type htype =>
    have hm : moveOf name t (.typeMark :: gs) = .ok ⟨.read, gs⟩ :=
      (Goal.Moves.primitive (by rw [htype]; rfl)).moveOf_eq
    have hend : t.kind ≠ .endOfInput := fun hk => by rw [hk] at htype; cases htype
    refine (ends_attributePending h.waiting h.grown.wellFormed fun _ _ => rfl).bind ?_
      fun _ _ h => h.elim
    rintro - s₁ ⟨hr, htyped⟩
    refine ((h.rewrites hr).ends_expect_of_kind hend (hr.current.trans ht) rfl hm).imp ?_
    rintro - s₂ ⟨hs₂, honly, hlt⟩
    exact ⟨hs₂, htyped.onlyTokens honly, by rwa [hr.budget_eq] at hlt⟩
  · next htype =>
    by_cases hkind : t.kind = .constantWord
    · rw [if_pos hkind]
      exact h.ends_constantMark ht hkind
    · rw [if_neg hkind, ends_reject ht]
      refine h.unexpected ht ?_ fun k hk => ⟨hk, fun names => ?_⟩
      · rw [moveOf_cons_of_none rfl, Goal.move, htype, Move.onKind_eq_error _ hkind]
        rfl
      · simp only [Expectation.kinds, List.mem_cons, List.not_mem_nil, or_false] at hk
        rcases hk with rfl | rfl | rfl | rfl <;>
          exact ⟨⟨_, "", 0⟩, _, rfl, modeOfWord?_empty, rfl⟩

theorem AfterMark.owns (h : AfterMark b name gs rest s s') (hl : .locals ∈ gs) :
    ∃ f, Owns b.table s'.table name f := by
  obtain ⟨⟨names, hs⟩, -⟩ := h
  exact hs.owner hl

/-- The type mark of a group of parameters, which stay pending. -/
theorem Before.ends_typeMark_parameters (h : Before b name (.typeMark :: gs) rest s)
    (hl : .locals ∈ gs) (mode : Mode) :
    Ends (typeMark name (some mode)) s (fun _ => AfterMark b name gs rest s) (Stops b) := by
  unfold typeMark
  refine h.ends_mark.andThen ?_
  intro _ s₁ h₁
  obtain ⟨f, ho⟩ := h₁.owns hl
  obtain ⟨⟨names, hs₁⟩, htyped, hlt⟩ := h₁
  refine (ends_functionNamed ho).bind ?_ fun _ _ h => h.elim
  rintro h s₂ ⟨rfl, rfl⟩
  refine (ends_recordParameters hs₁.waiting.new htyped ho mode).mono ?_ fun _ _ h => h.elim
  intro _ s₃ hr
  exact ⟨⟨names, hs₁.rewrites hr⟩, hr.allTyped htyped, by rwa [hr.budget_eq]⟩

/-- The type mark of a group of local names. -/
theorem Before.ends_typeMark_locals (h : Before b name (.typeMark :: gs) rest s)
    (hl : .locals ∈ gs) :
    Ends (typeMark name none) s (fun _ s' => AfterMark b name gs rest s s' ∧ s'.pending = [])
      (Stops b) := by
  unfold typeMark
  refine h.ends_mark.andThen ?_
  intro _ s₁ h₁
  obtain ⟨f, ho⟩ := h₁.owns hl
  obtain ⟨⟨names, hs₁⟩, htyped, hlt⟩ := h₁
  refine (ends_functionNamed ho).bind ?_ fun _ _ h => h.elim
  rintro h s₂ ⟨rfl, rfl⟩
  refine (ends_placeLocals hs₁.waiting.new htyped ho).mono ?_ fun _ _ h => h.elim
  rintro - s₃ ⟨s₂, hr, rfl⟩
  refine ⟨⟨⟨names, (hs₁.rewrites hr).clear (hr.allTyped htyped)⟩, ?_, ?_⟩, rfl⟩
  · exact fun _ hm => absurd hm List.not_mem_nil
  · show s₂.budget < s.budget
    rwa [hr.budget_eq]

/-! ## Local names -/

/-- A group of local names begins with a new name. -/
theorem Before.of_locals (h : Before b name (.locals :: gs) rest s) (ht : s.current = some t)
    (hkind : t.kind = .identifier) :
    Before b name (.newName :: .moreNames :: .token .colon :: .typeMark :: .token .semicolon ::
      .locals :: gs) rest s := by
  refine h.congr_kind ht hkind (by simp [heads, Goal.start?, Goal.wanted]) List.mem_cons_self
    fun u hu => ?_
  exact (Goal.Moves.locals hu).moveOf_eq.trans (Goal.Moves.newName hu).moveOf_eq.symm

theorem Before.ends_localGroup (h : Before b name (.locals :: gs) rest s) (hrest : rest ≠ [])
    (ht : s.current = some t) (hkind : t.kind = .identifier) :
    Ends (localGroup name) s (fun _ s' => Before b name (.locals :: gs) rest s' ∧
      s'.pending = [] ∧ s'.budget < s.budget) (Stops b) := by
  unfold localGroup
  refine ((h.of_locals ht hkind).ends_identifierList hrest ⟨.typeMark, by simp, rfl⟩
    (by simp)).andThen ?_
  rintro - s₁ ⟨h₁, hlt₁⟩
  refine (h₁.ends_token (by decide)).andThen ?_
  rintro - s₂ ⟨⟨names₂, hs₂⟩, -, hlt₂⟩
  refine ((hs₂.before (Or.inr ⟨.typeMark, by simp, rfl⟩)).ends_typeMark_locals
    (by simp)).andThen ?_
  rintro - s₃ ⟨⟨⟨names₃, hs₃⟩, -, hlt₃⟩, hp⟩
  refine ((hs₃.before (Or.inl hp)).ends_token (by decide)).imp ?_
  rintro - s₄ ⟨⟨names₄, hs₄⟩, honly, hlt₄⟩
  exact ⟨hs₄.before (.of_onlyTokens honly hp), honly.pending.trans hp, by omega⟩

theorem Before.ends_declarativePart (h : Before b name (.locals :: gs) rest s) (hrest : rest ≠ [])
    (hp : s.pending = []) (hheads : .identifier ∉ heads gs) :
    Ends (declarativePart name) s (fun _ s' => Before b name gs rest s' ∧ s'.pending = [] ∧
      s'.budget ≤ s.budget) (Stops b) := by
  unfold declarativePart
  exact h.ends_whileKind (fun s => s.pending = []) rfl (by decide) hheads
    (fun s t h _ ht hkind => h.ends_localGroup hrest ht hkind) hp

/-! ## Parameters -/

/-- The mode of a group, which may be left out. -/
theorem Before.ends_mode (h : Before b name (.group :: gs) rest s) :
    Ends mode s (fun _ s' => Before b name
      (.newName :: .moreNames :: .token .colon :: .typeMark :: gs) rest s' ∧ OnlyTokens s s' ∧
      s'.budget ≤ s.budget) (Stops b) := by
  obtain ⟨t, ht⟩ := Option.isSome_iff_exists.mp h.isSome
  unfold mode
  rw [ends_bind, ends_currentToken ht]
  split
  · next m hm =>
    have hmove : moveOf name t (.group :: gs) = .ok ⟨.read,
        .newName :: .moreNames :: .token .colon :: .typeMark :: gs⟩ :=
      (Goal.Moves.mode (by rw [hm]; rfl)).moveOf_eq
    refine (h.ends_expect_of_refused ht (fun _ => .of_move hmove fun hu => by cases hu)
      fun hne => absurd rfl hne).andThen ?_
    rintro - s₁ ⟨-, htakes⟩
    obtain ⟨names, hs⟩ := h.takes_read htakes hmove
    exact ⟨hs.before (Or.inr ⟨.typeMark, by simp, rfl⟩), htakes.onlyTokens, htakes.budget_le⟩
  · next hm =>
    refine ⟨h.congr (fun u hu => ?_) fun k hk => hk, .refl s, Nat.le_refl _⟩
    have hplain : modeOfWord? u.lexeme = none := by
      rcases hu with hu | ⟨-, hu⟩
      · cases ht.symm.trans hu
        exact hm
      · exact hu
    rw [moveOf_cons_of_none rfl, moveOf_cons_of_none rfl,
      Goal.move, Goal.move, hplain]
    unfold Move.onKind
    by_cases hu : u.kind = .identifier
    · rw [if_pos hu, if_pos hu]
      rfl
    · rw [if_neg hu, if_neg hu]
      rfl

theorem Before.ends_parameterGroup (h : Before b name (.group :: gs) rest s) (hrest : rest ≠ [])
    (hl : .locals ∈ gs) (hgs : ∃ g ∈ gs, g.isPending) :
    Ends (parameterGroup name) s (fun _ s' => Before b name gs rest s' ∧ AllTyped s' ∧
      s'.budget < s.budget) (Stops b) := by
  unfold parameterGroup
  refine h.ends_mode.andThen ?_
  rintro m s₁ ⟨h₁, -, hle₁⟩
  refine (h₁.ends_identifierList hrest ⟨.typeMark, by simp, rfl⟩ (by simp)).andThen ?_
  rintro - s₂ ⟨h₂, hlt₂⟩
  refine (h₂.ends_token (by decide)).andThen ?_
  rintro - s₃ ⟨⟨names₃, hs₃⟩, -, hlt₃⟩
  refine ((hs₃.before (Or.inr ⟨.typeMark, by simp, rfl⟩)).ends_typeMark_parameters hl m).imp ?_
  rintro - s₄ ⟨⟨names₄, hs₄⟩, htyped, hlt₄⟩
  exact ⟨hs₄.before (Or.inr hgs), htyped, by omega⟩

theorem Before.ends_argumentList (h : Before b name (.group :: .moreGroups :: gs) rest s)
    (hrest : rest ≠ []) (hl : .locals ∈ gs) (hgs : ∃ g ∈ gs, g.isPending)
    (hheads : .semicolon ∉ heads gs) (ht : AllTyped s) :
    Ends (argumentList name) s (fun _ s' => Before b name gs rest s' ∧ AllTyped s' ∧
      s'.budget < s.budget) (Stops b) := by
  obtain ⟨g, hg, hpending⟩ := hgs
  exact Before.ends_separatedBy [.group] AllTyped (g := .moreGroups) rfl
    (by decide) hheads (fun t ht => Move.onKind_eq _ ht)
    (fun _ _ htyped honly _ => htyped.onlyTokens honly)
    (fun _ _ => Or.inr ⟨g, by simp [hg], hpending⟩)
    (fun s h _ => h.ends_parameterGroup hrest (List.mem_cons_of_mem _ hl)
      ⟨g, List.mem_cons_of_mem _ hg, hpending⟩) h ht

/-- The parameters of a procedure, which have their places behind the list. -/
theorem Before.ends_arguments (h : Before b name (.arguments :: gs) rest s) (hrest : rest ≠ [])
    (hp : s.pending = []) (hl : .locals ∈ gs) (hheads : .leftParen ∉ heads gs) :
    Ends (arguments name) s (fun _ s' => Before b name gs rest s' ∧ s'.pending = [] ∧
      s'.budget ≤ s.budget) (Stops b) := by
  obtain ⟨t, ht⟩ := Option.isSome_iff_exists.mp h.isSome
  unfold arguments
  rw [ends_bind, ends_atKind ht]
  by_cases hkind : t.kind = .leftParen
  · simp only [hkind, decide_true, if_true]
    have hm : moveOf name t (.arguments :: gs) =
        .ok ⟨.read, .group :: .moreGroups :: .endArguments :: gs⟩ :=
      (Goal.Moves.arguments hkind).moveOf_eq
    refine (h.ends_expect_of_kind (by decide) ht hkind hm).andThen ?_
    rintro - s₁ ⟨⟨names₁, hs₁⟩, honly₁, hlt₁⟩
    have hp₁ := honly₁.pending.trans hp
    rw [ends_bind, ends_modify]
    have hr : Rewrites b s₁ { s₁ with recorded := 0 } := ⟨rfl, rfl, rfl, rfl, .refl _ _⟩
    refine (((hs₁.before (Or.inl hp₁)).rewrites hr).ends_argumentList hrest
      (List.mem_cons_of_mem _ hl) ⟨.endArguments, by simp, rfl⟩ (by simp)
      fun _ hm => by rw [hp₁] at hm; exact absurd hm List.not_mem_nil).andThen ?_
    rintro - s₂ ⟨h₂, htyped, hlt₂⟩
    have hlt₂ : s₂.budget < s₁.budget := hlt₂
    refine (h₂.ends_expect gs (k := .rightParen) (by decide) (by simp) ?_ ?_).andThen ?_
    · exact fun u hu _ => (Goal.Moves.endArguments hu).moveOf_eq
    · intro u _ hu
      rw [moveOf_cons_of_none rfl, Goal.move, Move.onKind_eq_error _ hu]
      rfl
    · rintro - s₃ ⟨⟨names₃, hs₃⟩, honly₃, hlt₃⟩
      obtain ⟨f, ho⟩ := hs₃.owner hl
      have htyped₃ := htyped.onlyTokens honly₃
      refine (ends_placeParameters hs₃.waiting.new htyped₃ ho).mono ?_ fun _ _ h => h.elim
      rintro - s₄ ⟨s₄, hr, rfl⟩
      refine ⟨((hs₃.rewrites hr).clear (hr.allTyped htyped₃)).before (Or.inl rfl), rfl, ?_⟩
      show s₄.budget ≤ s.budget
      rw [hr.budget_eq]
      omega
  · simp only [hkind, decide_false, Bool.false_eq_true, if_false, ends_pure]
    refine ⟨h.skip rfl (fun u hu => ?_) hheads, hp, Nat.le_refl _⟩
    cases ht.symm.trans hu
    exact hkind

end ProcLang.Analysis
