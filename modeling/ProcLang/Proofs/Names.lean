import ProcLang.Proofs.Standing

/-!
# Using and declaring names

A name may be used where the goals call for one and some frame declares it, and it may be declared
where the innermost frame does not. The checks of the analysis look into the table instead, which
comes to the same in a state that stands at the frames.
-/

namespace ProcLang.Analysis

open SymbolTable (Grown Waiting Owns)

variable {b s : State} {rest : List Frame} {name : String} {names : List String} {gs : List Goal}
  {t : Token}

section Checks

variable {ok : PUnit → State → Prop} {bad : Failure → State → Prop}

theorem ends_checkDefined (hb : s.table.Bounded) :
    Ends (checkDefined t) s ok bad ↔
      if s.table.byName.get t.lexeme = [] then bad (.diagnostic (.undefined t.lexeme t.line)) s
      else ok () s := by
  have hany : (s.table.lookup? t.lexeme).any (fun h => (s.table.symbol h).depth ≤ s.table.depth) =
      (s.table.lookup? t.lexeme).isSome := by
    cases hl : s.table.lookup? t.lexeme with
    | none => rfl
    | some h => simpa using hb _ h (SymbolTable.mem_of_findLast? hl)
  unfold checkDefined
  rw [ends_bind, ends_get]
  simp only [hany]
  by_cases hn : s.table.byName.get t.lexeme = []
  · have hsome : (s.table.lookup? t.lexeme).isSome = false := by
      rw [Bool.eq_false_iff, Ne, SymbolTable.isSome_lookup?]
      exact fun hne => hne hn
    rw [if_pos hn, hsome]
    exact Iff.rfl
  · have hsome := (SymbolTable.isSome_lookup? s.table t.lexeme).mpr hn
    rw [if_neg hn, hsome]
    exact Iff.rfl

theorem ends_checkNew (hw : s.table.WellFormed) :
    Ends (checkNew t) s ok bad ↔
      if t.lexeme ∈ s.table.namesAt.get s.table.depth then
        bad (.diagnostic (.duplicate t.lexeme t.line)) s
      else ok () s := by
  unfold checkNew
  rw [ends_bind, ends_get]
  simp only [SymbolTable.isSome_lookupAt?, ← hw.filed]
  by_cases hm : t.lexeme ∈ s.table.namesAt.get s.table.depth
  · rw [if_pos hm, if_pos hm]
    exact Iff.rfl
  · rw [if_neg hm, if_neg hm]
    exact Iff.rfl

end Checks

/-! ## Using a name -/

/-- A name that is to be used is refused if it is not declared. -/
theorem Before.ends_checkDefined (h : Before b name gs rest s) (ht : s.current = some t)
    {gs' : List Goal} (hm : moveOf name t gs = .ok ⟨.use, gs'⟩) :
    Ends (checkDefined t) s (fun _ s' => s' = s ∧ s.table.byName.get t.lexeme ≠ []) (Stops b) := by
  rw [Analysis.ends_checkDefined h.grown.bounded]
  by_cases hn : s.table.byName.get t.lexeme = []
  · rw [if_pos hn]
    obtain ⟨f, rfl, hs, hq, hagree⟩ := h
    refine .undefined hs hq ht ?_
    rw [take_of_move ((hagree t (Or.inl ht)).trans hm)]
    have hvis : ¬ Visible (outer b) (f :: rest) t.lexeme := fun hv =>
      (hs.mirrors.visible_iff hs.grown).mp hv hn
    exact if_neg fun hv => hvis (visible_congr (f := ⟨f.name, f.names, gs'⟩) hv)
  · rw [if_neg hn]
    exact ⟨rfl, hn⟩

/-- To take a name that is used. -/
theorem Before.ends_expect_used (h : Before b name gs rest s) (ht : s.current = some t)
    (hkind : t.kind = .identifier) {gs' : List Goal} (hm : moveOf name t gs = .ok ⟨.use, gs'⟩)
    (hv : s.table.byName.get t.lexeme ≠ []) :
    Ends (expect .identifier) s (fun _ s' => (∃ names, Stands b ⟨name, names, gs'⟩ rest s') ∧
      OnlyTokens s s' ∧ s'.budget < s.budget) (Stops b) := by
  refine (h.ends_expect_of_refused ht (fun _ => Or.inr ⟨_, hm, fun _ => hv⟩)
    fun hne => absurd hkind hne).imp ?_
  rintro - s' ⟨-, htakes⟩
  exact ⟨h.takes_use htakes hm hv, htakes.onlyTokens,
    htakes.budget_lt (by rw [hkind]; exact fun hk => by cases hk)⟩

/-! ## Declaring a name -/

/-- The token that was taken declares a name of the innermost frame. -/
theorem Stands.declares {s' : State} {f : Frame} {table : SymbolTable} {pending : List Handle}
    (h : Stands b f rest s) (ht : Takes t s s')
    (hf : take (outer b) (f :: rest) t = .ok (⟨f.name, f.names ++ [t.lexeme], gs⟩ :: rest))
    (hgs : Goal.locals ∈ gs → Goal.locals ∈ f.goals)
    (htable : table = (s.table.insert t.lexeme s.table.depth).2)
    (hpending : pending = s.pending ++ [s.table.symbols.size])
    (hnew : t.lexeme ∉ s.table.namesAt.get s.table.depth) (hdeep : b.table.depth < s.table.depth) :
    Stands b ⟨f.name, f.names ++ [t.lexeme], gs⟩ rest
      { s' with table := table, pending := pending } := by
  subst htable hpending
  constructor
  · exact (h.reads.takes ht hf).congr rfl rfl rfl
  · exact h.grown.insert hnew
  · refine ⟨?_, h.mirrors.2.congr fun d hd => ?_⟩
    · rw [SymbolTable.insert_depth, SymbolTable.get_namesAt_insert, if_pos rfl, h.mirrors.1]
    · have hne : d ≠ s.table.depth := by omega
      rw [SymbolTable.get_namesAt_insert, if_neg hne]
  · exact h.waiting.declare h.grown hdeep t.lexeme
  · exact fun hm => (h.owner (hgs hm)).imp fun _ ho => ho.insert h.grown.wellFormed t.lexeme

/-- Inside a procedure the present scope is deeper than the one in which the analysis began. -/
theorem Stands.depth_lt {f : Frame} (h : Stands b f rest s) (hrest : rest ≠ []) :
    b.table.depth < s.table.depth := by
  have hd := h.mirrors.depth_eq
  have hpos := List.length_pos_iff.mpr hrest
  rw [List.length_cons] at hd
  omega

theorem Before.ends_declarePending (h : Before b name (.newName :: gs) rest s) (hrest : rest ≠ [])
    (hgs : ∃ g ∈ gs, g.isPending) :
    Ends declarePending s (fun _ s' => Before b name gs rest s' ∧ s'.budget < s.budget)
      (Stops b) := by
  obtain ⟨t, ht⟩ := Option.isSome_iff_exists.mp h.isSome
  have hmove : ∀ u : Token, u.kind = .identifier →
      moveOf name u (.newName :: gs) = .ok ⟨.declare, gs⟩ := fun u hu =>
    (Goal.Moves.newName hu).moveOf_eq
  unfold declarePending
  rw [ends_bind, ends_currentToken ht]
  refine (h.ends_expect_of_refused ht (fun hkind => .of_move (hmove t hkind) fun hu => by cases hu)
    fun hne => ?_).andThen ?_
  · refine h.unexpected ht ?_ fun k hk => ?_
    · rw [moveOf_cons_of_none rfl, Goal.move, Move.onKind_eq_error _ hne]
      rfl
    · cases List.mem_singleton.mp hk
      refine ⟨List.mem_cons_self, fun names => ?_⟩
      obtain ⟨i, hy⟩ := exists_longName_not_mem names
      refine ⟨⟨.identifier, longName i, 0⟩, ⟨name, names ++ [longName i], gs⟩ :: rest, rfl,
        modeOfWord?_longName i, ?_⟩
      rw [take_of_move (f := ⟨name, names, .newName :: gs⟩) (hmove _ rfl)]
      exact if_neg hy
  · rintro - s₁ ⟨hkind, htakes⟩
    obtain ⟨f, rfl, hs, hq, hagree⟩ := h
    have htable := htakes.onlyTokens.table
    have hm := (hagree t (Or.inl ht)).trans (hmove t hkind)
    rw [ends_bind, ends_checkNew (htable ▸ hs.grown.wellFormed), htable, hs.mirrors.1]
    by_cases hold : t.lexeme ∈ f.names
    · rw [if_pos hold]
      refine .duplicate hs hq htakes ?_
      rw [take_of_move hm]
      exact if_pos hold
    · rw [if_neg hold]
      have hf : take (outer b) (f :: rest) t =
          .ok (⟨f.name, f.names ++ [t.lexeme], gs⟩ :: rest) := by
        rw [take_of_move hm]
        exact if_neg hold
      have hstands := hs.declares htakes hf (mem_of_moveOf (Or.inl rfl) hm)
        (by rw [← htable]) (by rw [← htakes.onlyTokens.pending, ← htable])
        (by rwa [hs.mirrors.1]) (hs.depth_lt hrest)
      refine ⟨hstands.before (Or.inr hgs), ?_⟩
      exact htakes.budget_lt (by rw [hkind]; exact fun hk => by cases hk)

/-- One or more names with commas between them. -/
theorem Before.ends_identifierList (h : Before b name (.newName :: .moreNames :: gs) rest s)
    (hrest : rest ≠ []) (hgs : ∃ g ∈ gs, g.isPending) (hheads : .comma ∉ heads gs) :
    Ends identifierList s (fun _ s' => Before b name gs rest s' ∧ s'.budget < s.budget)
      (Stops b) := by
  have hgs' : ∃ g ∈ Goal.newName :: Goal.moreNames :: gs, g.isPending := by
    obtain ⟨g, hg, hpending⟩ := hgs
    exact ⟨g, by simp [hg], hpending⟩
  have hmore : ∃ g ∈ Goal.moreNames :: gs, g.isPending := by
    obtain ⟨g, hg, hpending⟩ := hgs
    exact ⟨g, by simp [hg], hpending⟩
  refine (Before.ends_separatedBy [.newName] (fun _ => True) (g := .moreNames) rfl
    (by decide) hheads (fun t ht => Move.onKind_eq _ ht) (fun _ _ _ _ _ => trivial)
    (fun _ _ => Or.inr hgs') (fun s h _ => ?_) h trivial).imp ?_
  · refine (h.ends_declarePending hrest hmore).imp ?_
    rintro - s' ⟨h', hlt⟩
    exact ⟨h', trivial, hlt⟩
  · rintro - s' ⟨h', -, hlt⟩
    exact ⟨h', hlt⟩

end ProcLang.Analysis
