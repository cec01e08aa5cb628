import ProcLang.Proofs.Run

/-!
# The scopes that are open during a run

An analysis asks its source for one token after another. In each of the states in which it asks
(`AsksIn`), and in the one in which it stops, the symbol table holds the scopes of the procedures
that are open by then (`OpenScopes`), whatever the source supplies (`scope_invariant`).
-/

namespace ProcLang

/-! ## The order of goals -/

namespace Goal

/-- Whether declarations belong to the goal. -/
def isDeclaring : Goal → Bool
  | arguments | group | moreGroups | endArguments | newName | moreNames | typeMark | literal
  | locals => true
  | _ => false

/-- Whether the goal is a procedure, the procedures nested in one, or the word before statements. -/
def isOpening (g : Goal) : Bool := g = token .procedureWord ∨ g = procedures ∨ g = token .beginWord

theorem isDeclaring_of_isPending {g : Goal} (h : g.isPending) : g.isDeclaring := by
  cases g <;> first | rfl | cases h

theorem start?_of_isPending {g : Goal} (h : g.isPending) : g.start? = none := by
  cases g <;> first | rfl | cases h

/-- Only declarations leave declarations to be read. -/
theorem isDeclaring_of_move {g : Goal} {name : String} {t : Token} {m : Move}
    (hm : g.move name t = .ok m) : ∀ g' ∈ m.goals, g'.isDeclaring → g.isDeclaring := by
  cases move_eq_ok_iff.mp hm <;> simp [isDeclaring, expression]

/-- Only nested procedures leave goals to be read that are opening. -/
theorem not_isOpening_of_move {g : Goal} {name : String} {t : Token} {m : Move}
    (hm : g.move name t = .ok m) (hg : g ≠ procedures) : ∀ g' ∈ m.goals, ¬ g'.isOpening := by
  cases move_eq_ok_iff.mp hm with
  | procedures => exact absurd rfl hg
  | _ => simp [isOpening, expression, restOfGroup]

/-- Declarations stand before the word that begins the statements, and not behind goals that are
opening. -/
def Ordered : List Goal → Prop
  | [] => True
  | g :: gs => (g.isDeclaring → token .beginWord ∈ gs) ∧
      (g.isOpening → ∀ g' ∈ gs, ¬ g'.isDeclaring) ∧ Ordered gs

/-- The goal may be the next one: those before it may be left out. -/
def IsNext (g : Goal) (goals : List Goal) : Prop :=
  ∃ passed gs, goals = passed ++ g :: gs ∧ ∀ p ∈ passed, p.start?.isSome

namespace Ordered

variable {g : Goal} {gs gs' : List Goal} {name : String} {t : Token}

theorem of_append (h : Ordered (gs ++ gs')) : Ordered gs' := by
  induction gs with
  | nil => exact h
  | cons g gs ih => exact ih h.2.2

theorem append (hd : ∀ g ∈ gs, g.isDeclaring → token .beginWord ∈ gs')
    (ho : ∀ g ∈ gs, ¬ g.isOpening) (h : Ordered gs') : Ordered (gs ++ gs') := by
  induction gs with
  | nil => exact h
  | cons g gs ih =>
    refine ⟨fun hg => ?_, fun hg => absurd hg (ho g List.mem_cons_self), ?_⟩
    · exact List.mem_append_right _ (hd g List.mem_cons_self hg)
    · exact ih (fun g hm => hd g (List.mem_cons_of_mem _ hm))
        fun g hm => ho g (List.mem_cons_of_mem _ hm)

/-- What a goal leaves to be read is in order where the goal was. -/
theorem move (h : Ordered (g :: gs)) {m : Move} (hm : g.move name t = .ok m) :
    Ordered (m.goals ++ gs) := by
  obtain ⟨hd, ho, hgs⟩ := h
  by_cases hg : g = procedures
  · subst hg
    cases move_eq_ok_iff.mp hm with
    | procedures =>
      exact ⟨(fun hg => by cases hg), (fun hg => by cases hg), (fun hg => by cases hg), ho, hgs⟩
  · exact append (fun g' hm' hg' => hd (isDeclaring_of_move hm g' hm' hg'))
      (not_isOpening_of_move hm hg) hgs

/-- Where procedures or statements may come next, or behind the word before statements, no name
can be pending. -/
theorem not_isPending (h : Ordered gs)
    (hplace : token .beginWord ∉ gs ∨ ∃ g : Goal, g.IsNext gs ∧ g.isOpening) :
    ∀ g ∈ gs, ¬ g.isPending := by
  intro p hp hpending
  have hdecl := isDeclaring_of_isPending hpending
  obtain ⟨before, behind, rfl⟩ := List.append_of_mem hp
  rcases hplace with hno | ⟨g, ⟨passed, gs', heq, hpassed⟩, hopen⟩
  · exact hno (List.mem_append_right _ (List.mem_cons_of_mem _ (h.of_append.1 hdecl)))
  · rw [heq] at h hp
    rcases List.mem_append.mp hp with hp | hp
    · have hsome := hpassed p hp
      rw [start?_of_isPending hpending] at hsome
      cases hsome
    · rcases List.mem_cons.mp hp with rfl | hp
      · revert hopen hdecl
        cases p <;> simp [isOpening, isDeclaring]
      · exact h.of_append.2.1 hopen p hp hdecl

theorem moveOf (h : Ordered gs) {m : Move} (hm : moveOf name t gs = .ok m) : Ordered m.goals :=
  moveOf_induction (Q := fun m => Ordered m.goals) (fun _ _ h _ => h.2.2)
    (fun _ _ _ h hm => h.move hm) h hm

end Ordered

end Goal

section Order

variable {outer : List String} {frames frames' : List Frame} {t : Token} {ts : List Token}

theorem ordered_of_takeAll (h : ∀ f ∈ frames, Goal.Ordered f.goals)
    (ht : takeAll outer frames ts = .ok frames') : ∀ f ∈ frames', Goal.Ordered f.goals :=
  forall_goals_of_takeAll
    (by simp [Goal.procedure, Goal.Ordered, Goal.isDeclaring, Goal.isOpening])
    (fun hgs hm => hgs.moveOf hm) h ht

end Order

/-! ## Looking up a name in scopes that are open -/

theorem SymbolTable.Grown.increasing {b t : SymbolTable} (hg : Grown b t) (hb : b.symbols.size = 0)
    (y : String) : (t.byName.get y).Pairwise fun h h' => (t.symbol h).depth < (t.symbol h').depth :=
  (hg.wellFormed.sorted y).imp_of_mem fun hm hm' hlt =>
    hg.deeper y _ hm _ hm' (by rw [hb]; exact Nat.zero_le _) hlt

/-- The declaration that a name leads to is the last one in the list of its declarations. -/
theorem SymbolTable.eq_append_of_lookup? {t : SymbolTable} {y : String} {h : Handle}
    (hl : t.lookup? y = some h) : ∃ earlier, t.byName.get y = earlier ++ [h] := by
  unfold lookup? findLast? at hl
  cases hr : (t.byName.get y).reverse with
  | nil =>
    rw [hr] at hl
    cases hl
  | cons h' earlier =>
    rw [hr, List.find?_cons_of_pos rfl] at hl
    cases hl
    refine ⟨earlier.reverse, ?_⟩
    rw [← List.reverse_reverse (t.byName.get y), hr, List.reverse_cons]

namespace Analysis

/-- The table holds the scopes of the procedures whose frames are in `f :: rest`, where the last
frame is that of the outermost scope. -/
structure OpenScopes (f : Frame) (rest : List Frame) (table : SymbolTable)
    (pending : List Handle) : Prop where
  /-- The depth is the number of procedures whose scope is open. -/
  depth : table.depth = rest.length
  within : ∀ h ∈ table.entries,
    0 ≤ (table.symbol h).depth ∧ (table.symbol h).depth ≤ table.depth
  unique : ∀ h ∈ table.entries, ∀ h' ∈ table.entries,
    (table.symbol h).name = (table.symbol h').name →
    (table.symbol h).depth = (table.symbol h').depth → h = h'
  increasing : ∀ y, (table.byName.get y).Pairwise fun h h' =>
    (table.symbol h).depth < (table.symbol h').depth
  /-- A name leads to its innermost declaration. -/
  innermost : ∀ y h, table.lookup? y = some h →
    ∀ h' ∈ table.byName.get y, h' ≠ h → (table.symbol h').depth < (table.symbol h).depth
  /-- No name leads to a scope deeper than the present one. -/
  visible : ∀ y h, table.lookup? y = some h → (table.symbol h).depth ≤ table.depth
  /-- Pending names belong to the present scope. -/
  here : ∀ h ∈ pending, h ∈ table.entriesAt table.depth
  unset : ∀ h ∈ table.entries, (table.symbol h).kind? = none → h ∈ pending
  /-- No name is pending where a procedure, nested procedures or the word before statements may come
  next, and none behind that word. -/
  settled : .token .beginWord ∉ f.goals ∨ (∃ g : Goal, g.IsNext f.goals ∧ g.isOpening) →
    pending = []
  /-- Up to the end of the local names, the name of the procedure leads to its own function, which
  is declared in the scope around that of the procedure. -/
  own : .locals ∈ f.goals → ∃ h ∈ table.entriesAt (table.depth - 1),
    (table.symbol h).name = f.name ∧ table.lookupKind? f.name .func = some h

variable {b s s' : State} {f : Frame} {rest frames : List Frame} {source : TokenSource}
  {tracing : Bool} {t : Token} {taken tokens : List Token}

/-- A state that stands at frames, in an analysis that began with an empty table. -/
theorem Stands.openScopes (h : Stands b f rest s) (hq : Quiet f.goals s)
    (hb : b.table = .empty) : OpenScopes f rest s.table s.pending := by
  obtain ⟨-, taken, -, -, -, -, -, -, -, htaken⟩ := h.reads
  have hw := h.grown.wellFormed
  have hsize : b.table.symbols.size = 0 := by rw [hb]; rfl
  have hnew : ∀ h : Handle, b.table.symbols.size ≤ h := fun h => by rw [hsize]; exact Nat.zero_le h
  have hbase : b.table.depth = 0 := by rw [hb]; rfl
  have hbounded : ∀ {y h'}, h' ∈ s.table.byName.get y → 0 ≤ (s.table.symbol h').depth ∧
      (s.table.symbol h').depth ≤ s.table.depth := fun hm =>
    ⟨hbase ▸ h.grown.inside _ _ hm (hnew _), h.grown.bounded _ _ hm⟩
  have hdeeper : ∀ {y h₁ h₂}, h₁ ∈ s.table.byName.get y → h₂ ∈ s.table.byName.get y → h₁ < h₂ →
      (s.table.symbol h₁).depth < (s.table.symbol h₂).depth := fun hm hm' hlt =>
    h.grown.deeper _ _ hm _ hm' (hnew _) hlt
  constructor
  · have hd := h.mirrors.depth_eq
    rw [List.length_cons, hbase] at hd
    omega
  · intro h' hm
    obtain ⟨y, hm⟩ := hw.mem_entries_iff.mp hm
    exact hbounded hm
  · intro h₁ hm₁ h₂ hm₂ hname hdepth
    obtain ⟨y, hm₁⟩ := hw.mem_entries_iff.mp hm₁
    obtain ⟨z, hm₂⟩ := hw.mem_entries_iff.mp hm₂
    rw [hw.name_eq hm₁, hw.name_eq hm₂] at hname
    subst hname
    rcases Nat.lt_trichotomy h₁ h₂ with hlt | heq | hlt
    · exact absurd hdepth (Int.ne_of_lt (hdeeper hm₁ hm₂ hlt))
    · exact heq
    · exact absurd hdepth.symm (Int.ne_of_lt (hdeeper hm₂ hm₁ hlt))
  · exact h.grown.increasing hsize
  · intro y h₁ hl h₂ hm hne
    obtain ⟨earlier, heq⟩ := SymbolTable.eq_append_of_lookup? hl
    have hinc := h.grown.increasing hsize y
    rw [heq] at hm hinc
    rcases List.mem_append.mp hm with hm | hm
    · exact (List.pairwise_append.mp hinc).2.2 h₂ hm h₁ (List.mem_singleton_self _)
    · exact absurd (List.mem_singleton.mp hm) hne
  · exact fun y h₁ hl => (hbounded (SymbolTable.mem_of_findLast? hl)).2
  · exact fun h₁ hm => hw.mem_entriesAt_iff.mpr ⟨_, h.waiting.listed h₁ hm, h.waiting.here h₁ hm⟩
  · intro h₁ hm hk
    obtain ⟨y, hm⟩ := hw.mem_entries_iff.mp hm
    exact h.waiting.attributed y h₁ hm (hnew _) hk
  · intro hplace
    refine hq.resolve_right fun ⟨g, hg, hpending⟩ => ?_
    have hstart : ∀ f ∈ start b, Goal.Ordered f.goals := by
      intro f hm
      rw [List.mem_singleton.mp hm]
      simp [Frame.base, Goal.Ordered, Goal.isDeclaring]
    have hordered := ordered_of_takeAll hstart htaken f List.mem_cons_self
    exact hordered.not_isPending hplace g hg hpending
  · intro hl
    obtain ⟨h₁, ho⟩ := h.owner hl
    exact ⟨h₁, hw.mem_entriesAt_iff.mpr ⟨_, ho.listed, ho.outside⟩, hw.name_eq ho.listed, ho.found⟩

/-! ## The states in which a token is asked for -/

/-- The stream that supplies the tokens and breaks off. -/
def breakingOff (tokens : List Token) : TokenSource := .stream tokens (.failure .spent)

/-- The state in which the analysis of the source asks for a token when the source has supplied the
tokens. An analysis sees no more of its source than these, so it is the state in which an analysis
stops whose source breaks off behind them. -/
def AsksIn (source : TokenSource) (tracing : Bool) (tokens : List Token) (s : State) : Prop :=
  ∃ s', source.Supplies tokens s.source ∧ s = { s' with source := s.source } ∧
    analysisSteps (.ofSource (breakingOff tokens) tracing) = .error (.fault .sourceSpent) s'

/-- The source supplies the tokens, and no analysis refuses one of them when it looks at it: if one
is refused it is the last one, when it has been taken. -/
def Taken (source : TokenSource) (tokens : List Token) : Prop :=
  (∃ source', source.Supplies tokens source') ∧
    ∀ before t behind, tokens = before ++ t :: behind →
      ∃ frames, takeAll [] [.base []] before = .ok frames ∧
        ∀ r, take [] frames t = .error r → r.isLate ∧ behind = []

namespace Taken

theorem of_append {us : List Token} (h : Taken source (tokens ++ us)) : Taken source tokens := by
  obtain ⟨⟨last, hsupply⟩, hall⟩ := h
  obtain ⟨mid, hsupply, -⟩ := TokenSource.supplies_append.mp hsupply
  refine ⟨⟨mid, hsupply⟩, ?_⟩
  rintro before t behind rfl
  obtain ⟨frames, htaken, hlate⟩ := hall before t (behind ++ us) (by simp)
  refine ⟨frames, htaken, fun r hr => ⟨(hlate r hr).1, ?_⟩⟩
  exact (List.append_eq_nil_iff.mp (hlate r hr).2).1

theorem of_takeAll {last : TokenSource} (hs : source.Supplies tokens last)
    (h : takeAll [] [.base []] tokens = .ok frames) : Taken source tokens := by
  refine ⟨⟨last, hs⟩, ?_⟩
  rintro before t behind rfl
  obtain ⟨frames₁, frames₂, hbefore, ht⟩ := exists_take_of_takeAll h
  refine ⟨frames₁, hbefore, fun r hr => ?_⟩
  rw [ht] at hr
  cases hr

theorem concat {last : TokenSource} (hs : source.Supplies (tokens ++ [t]) last)
    (h : takeAll [] [.base []] tokens = .ok frames)
    (ht : ∀ r, take [] frames t = .error r → r.isLate) : Taken source (tokens ++ [t]) := by
  refine ⟨⟨last, hs⟩, fun before u behind heq => ?_⟩
  rcases List.eq_nil_or_concat behind with rfl | ⟨behind, x, rfl⟩
  · obtain ⟨rfl, hu⟩ := List.append_inj' heq rfl
    cases hu
    exact ⟨frames, h, fun r hr => ⟨ht r hr, rfl⟩⟩
  · rw [List.concat_eq_append, ← List.cons_append, ← List.append_assoc] at heq
    obtain ⟨rfl, -⟩ := List.append_inj' heq rfl
    obtain ⟨frames₁, frames₂, hbefore, hu⟩ := exists_take_of_takeAll h
    refine ⟨frames₁, hbefore, fun r hr => ?_⟩
    rw [hu] at hr
    cases hr

end Taken

/-- The tokens that a run has taken when it ends. -/
theorem ends_taken (source : TokenSource) (tracing : Bool) :
    Ends analysisSteps (.ofSource source tracing)
      (fun _ s => Taken source s.matched.reverse) (fun _ s => Taken source s.matched.reverse) := by
  -- a token that was looked at does not count, one that was taken since does
  have hlooked : ∀ {b frames s t}, Begun (.ofSource source tracing) b → Reads b frames s →
      s.current = some t → Taken source s.matched.reverse := by
    intro b frames s t hbegun hr ht
    obtain ⟨taken, hmatched, hsupply, htaken⟩ := hbegun.exists_taken hr ht
    obtain ⟨mid, hsupply, -⟩ := TokenSource.supplies_append.mp hsupply
    rw [hmatched, List.reverse_reverse]
    exact .of_takeAll hsupply htaken
  have hmore : ∀ {b frames s t}, Begun (.ofSource source tracing) b → Reads b frames s →
      s.current = some t → (∀ r, take [] frames t = .error r → r.isLate) →
      Taken source (t :: s.matched).reverse := by
    intro b frames s t hbegun hr ht hlate
    obtain ⟨taken, hmatched, hsupply, htaken⟩ := hbegun.exists_taken hr ht
    rw [List.reverse_cons, hmatched, List.reverse_reverse]
    exact .concat hsupply htaken hlate
  refine (ends_analysisSteps source tracing).mono ?_ ?_
  · rintro - s ⟨b, names, s₁, t, hbegun, hs, -, ht, -, hr⟩
    rw [hr.matched]
    exact hlooked hbegun hs.reads ht
  · intro e s hstops
    cases hstops with
    | noToken => exact ⟨⟨source, rfl⟩, fun before t behind h => absurd h (by simp [State.ofSource])⟩
    | unconsumed hbegun hs _ ht => exact hlooked hbegun hs.reads ht
    | stops hbegun hstops =>
      have houter : outer _ = [] := congrArg (fun table => table.byName.keys) hbegun.table
      cases hstops with
      | unexpected hs _ ht | undefined hs _ ht | otherClosingName hs _ ht =>
        exact hlooked hbegun hs.reads ht
      | breaks hs _ hlate ht =>
        obtain ⟨source', ht, -, rfl⟩ := ht
        exact hmore hbegun hs.reads ht (houter ▸ hlate)
      | duplicate hs _ ht hr | numeral hs _ ht hr =>
        obtain ⟨u, source', ht, -, rfl⟩ := ht
        refine hmore hbegun hs.reads ht fun r hr' => ?_
        rw [houter, hr'] at hr
        cases hr
        rfl

/-- At a token of the stream that has been looked at only, no analysis stops. -/
theorem Taken.accepts (h : Taken source tokens) (hbegun : Begun (.ofSource (breakingOff tokens) tracing) b)
    (hr : Reads b frames s) (ht : s.current = some t) :
    ∃ more, s.source = breakingOff more ∧ tokens = (t :: s.matched).reverse ++ more ∧
      ∀ r, take [] frames t = .error r → r.isLate ∧ more = [] := by
  obtain ⟨taken, hmatched, hsupply, htaken⟩ := hbegun.exists_taken hr ht
  obtain ⟨more, htokens, hsource⟩ := TokenSource.eq_append_of_supplies_stream hsupply
  refine ⟨more, hsource, ?_, fun r hr => ?_⟩
  · rw [List.reverse_cons, hmatched, List.reverse_reverse]
    exact htokens
  · obtain ⟨frames', htaken', hlate⟩ := h.2 taken t more (by rw [htokens]; simp)
    cases htaken.symm.trans htaken'
    exact hlate r hr

/-- For each beginning of the tokens that are taken there is a state in which the next one is asked
for. -/
theorem Taken.exists_asks (h : Taken source tokens) : ∃ s, AsksIn source tracing tokens s := by
  obtain ⟨source', hsupply⟩ := h.1
  have hends := ends_analysisSteps (breakingOff tokens) tracing
  suffices hstop : Ends analysisSteps (.ofSource (breakingOff tokens) tracing) (fun _ _ => False)
      (fun e _ => e = .fault .sourceSpent) by
    unfold Ends at hstop
    split at hstop
    · exact hstop.elim
    · next e s' heq =>
      subst hstop
      exact ⟨{ s' with source := source' }, s', hsupply, rfl, heq⟩
  -- a token that is only looked at cannot be refused
  have hearly : ∀ {b f rest s t r}, Begun (.ofSource (breakingOff tokens) tracing) b →
      Stands b f rest s → s.current = some t → take [] (f :: rest) t = .error r → ¬ r.isLate →
      False := by
    intro b f rest s t r hbegun hs ht hr hlate
    obtain ⟨more, -, -, hrefused⟩ := h.accepts hbegun hs.reads ht
    exact hlate (hrefused r hr).1
  -- and one that is refused when it has been taken is the last one
  have hlast : ∀ {b f rest s s' t r}, Begun (.ofSource (breakingOff tokens) tracing) b →
      Stands b f rest s → Takes t s s' → take [] (f :: rest) t = .error r → False := by
    intro b f rest s s' t r hbegun hs htakes hr
    obtain ⟨u, source'', ht, hn, -⟩ := htakes
    obtain ⟨more, hsource, -, hrefused⟩ := h.accepts hbegun hs.reads ht
    rw [hsource, (hrefused r hr).2] at hn
    cases (Prod.mk.inj hn).1
  have hdone : ∀ {t names}, take [] [⟨"", names, []⟩] t = .error .unexpected := fun {t names} =>
    take_of_refused (f := ⟨"", names, []⟩) rfl
  refine hends.mono ?_ ?_
  · rintro - s ⟨b, names, s₁, t, hbegun, hs, -, ht, -, -⟩
    exact hearly hbegun hs ht hdone (by decide)
  · intro e s hstops
    cases hstops with
    | noToken hn =>
      cases tokens with
      | nil =>
        cases (Prod.mk.inj hn).1
        rfl
      | cons u more => cases (Prod.mk.inj hn).1
    | unconsumed hbegun hs _ ht => exact (hearly hbegun hs ht hdone (by decide)).elim
    | stops hbegun hstops =>
      have houter : outer _ = [] := congrArg (fun table => table.byName.keys) hbegun.table
      cases hstops with
      | breaks hs _ _ ht =>
        obtain ⟨source'', hcurrent, hn, -⟩ := ht
        obtain ⟨more, hsource, -, -⟩ := h.accepts hbegun hs.reads hcurrent
        rw [hsource] at hn
        cases more with
        | nil =>
          cases (Prod.mk.inj hn).1
          rfl
        | cons u more => cases (Prod.mk.inj hn).1
      | unexpected hs _ ht hr | undefined hs _ ht hr | otherClosingName hs _ ht hr =>
        exact (hearly hbegun hs ht (houter ▸ hr) (by decide)).elim
      | duplicate hs _ ht hr | numeral hs _ ht hr => exact (hlast hbegun hs ht (houter ▸ hr)).elim

/-! ## Every state of a run -/

theorem openScopes_empty : OpenScopes (.base []) [] .empty [] := by
  let b : State := { State.ofSource (.ofList []) false with current := some (.endOfInput 1) }
  have hb : Ready b := ⟨.empty, fun _ _ h => absurd h List.not_mem_nil, rfl⟩
  exact (hb.stands rfl).openScopes (Or.inl rfl) rfl

theorem Begun.openScopes (hbegun : Begun (.ofSource source tracing) b) (hs : Stands b f rest s)
    (hq : Quiet f.goals s) (ht : s.current = some t) :
    ∃ taken, s.matched = taken.reverse ∧ takeAll [] [.base []] taken = .ok (f :: rest) ∧
      OpenScopes f rest s.table s.pending := by
  obtain ⟨taken, hmatched, -, htaken⟩ := hbegun.exists_taken hs.reads ht
  exact ⟨taken, hmatched, htaken, hs.openScopes hq hbegun.table⟩

/-- Where a token is asked for, the last of the tokens supplied has just been taken. -/
theorem AsksIn.openScopes (h : AsksIn source tracing tokens s) :
    s.matched = tokens.reverse ∧ ∃ f rest,
      takeAll [] [.base []] tokens.dropLast = .ok (f :: rest) ∧
        OpenScopes f rest s.table s.pending := by
  obtain ⟨s', -, heq, hrun⟩ := h
  rw [heq]
  have hstops := (ends_analysisSteps (breakingOff tokens) tracing).of_error hrun
  generalize he : Failure.fault .sourceSpent = e at hstops
  cases hstops with
  | noToken hn =>
    cases tokens with
    | nil => exact ⟨rfl, _, _, rfl, openScopes_empty⟩
    | cons u more => cases (Prod.mk.inj hn).1
  | unconsumed => cases he
  | stops hbegun hstops =>
    cases hstops with
    | unexpected | undefined | otherClosingName | duplicate => cases he
    | numeral => cases he
    | breaks hs hq _ ht =>
      obtain ⟨source', ht, hn, rfl⟩ := ht
      obtain ⟨taken, hmatched, hsupply, htaken⟩ := hbegun.exists_taken hs.reads ht
      obtain ⟨more, htokens, hsource⟩ := TokenSource.eq_append_of_supplies_stream hsupply
      have hmore : more = [] := by
        rw [hsource] at hn
        cases more with
        | nil => rfl
        | cons u more => cases (Prod.mk.inj hn).1
      rw [hmore, List.append_nil] at htokens
      subst htokens
      rw [List.dropLast_concat]
      refine ⟨?_, _, _, htaken, hs.openScopes hq hbegun.table⟩
      show _ :: State.matched _ = _
      rw [hmatched, List.reverse_append]
      rfl

theorem RunStops.openScopes {e : Failure} (h : RunStops (.ofSource source tracing) e s) :
    ∃ taken f rest, (s.matched = taken.reverse ∨ ∃ t, s.matched = t :: taken.reverse) ∧
      takeAll [] [.base []] taken = .ok (f :: rest) ∧ OpenScopes f rest s.table s.pending := by
  cases h with
  | noToken => exact ⟨[], _, _, Or.inl rfl, rfl, openScopes_empty⟩
  | unconsumed hbegun hs hp ht =>
    obtain ⟨taken, hmatched, htaken, hopen⟩ := hbegun.openScopes hs (Or.inl hp) ht
    exact ⟨taken, _, _, Or.inl hmatched, htaken, hopen⟩
  | stops hbegun hstops =>
    obtain ⟨f, rest, s₀, hs, hq, htable, hpending, hmore⟩ := hstops.stands
    obtain ⟨t, ht⟩ := Option.isSome_iff_exists.mp hs.reads.isSome
    obtain ⟨taken, hmatched, htaken, hopen⟩ := hbegun.openScopes hs hq ht
    rw [← htable, ← hpending] at hopen
    exact ⟨taken, f, rest, hmatched ▸ hmore, htaken, hopen⟩

/-- Whatever a source supplies, the scopes that are open are in the table in every state in which the
analysis asks for a token, and in the one in which it stops. A run asks for a token once before it
takes one and once for each token that it takes. -/
theorem scope_invariant (source : TokenSource) (tracing : Bool) :
    (∀ tokens s, AsksIn source tracing tokens s →
      s.matched = tokens.reverse ∧ ∃ f rest,
        takeAll [] [.base []] tokens.dropLast = .ok (f :: rest) ∧
          OpenScopes f rest s.table s.pending) ∧
    (∀ tokens, tokens <+: (Outcome.ofSource source tracing).state.matched.reverse →
      ∃ s, AsksIn source tracing tokens s) ∧
    ∀ e s, analysisSteps (.ofSource source tracing) = .error e s → ∃ taken f rest,
      (s.matched = taken.reverse ∨ ∃ t, s.matched = t :: taken.reverse) ∧
        takeAll [] [.base []] taken = .ok (f :: rest) ∧ OpenScopes f rest s.table s.pending := by
  refine ⟨fun tokens s h => h.openScopes, fun tokens hprefix => ?_, fun e s h => ?_⟩
  · have hends : Ends analyze (.ofSource source tracing)
        (fun _ s => Taken source s.matched.reverse) (fun _ s => Taken source s.matched.reverse) := by
      rw [analyze, ends_unwinding]
      exact ends_taken source tracing
    obtain ⟨hok, hbad⟩ := ends_outcome.mp hends
    have htaken : Taken source (Outcome.ofSource source tracing).state.matched.reverse := by
      cases hf : (Outcome.ofSource source tracing).failure with
      | none => exact hok hf
      | some e => exact hbad e hf
    obtain ⟨more, hmore⟩ := hprefix
    rw [← hmore] at htaken
    exact htaken.of_append.exists_asks
  · exact ((ends_analysisSteps source tracing).of_error h).openScopes

/-- The beginning of a procedure `p` with a parameter `p`, up to the type mark. -/
def parameterNamedAsProcedure : List Token :=
  [⟨.procedureWord, "procedure", 1⟩, ⟨.identifier, "p", 1⟩, ⟨.leftParen, "(", 1⟩,
   ⟨.identifier, "p", 1⟩, ⟨.colon, ":", 1⟩, ⟨.integerWord, "integer", 1⟩]

theorem scope_invariant_parameterNamedAsProcedure :
    (∃ s, AsksIn (.ofList parameterNamedAsProcedure) false parameterNamedAsProcedure s ∧
      s.table.depth = 1 ∧ ∃ h ∈ s.table.entriesAt 0, s.table.lookupKind? "p" .func = some h) ∧
    ∃ e s, analysisSteps (.ofSource (.ofList parameterNamedAsProcedure) false) = .error e s ∧
      ∃ f rest, OpenScopes f rest s.table s.pending := by
  obtain ⟨hasked, hasks, hstops⟩ := scope_invariant (.ofList parameterNamedAsProcedure) false
  constructor
  · obtain ⟨s, hs⟩ := hasks parameterNamedAsProcedure (by decide +kernel)
    obtain ⟨-, f, rest, htaken, hopen⟩ := hasked _ s hs
    have hframes : takeAll [] [.base []] parameterNamedAsProcedure.dropLast =
        .ok [⟨"p", ["p"], .typeMark :: .moreGroups :: .endArguments :: Goal.procedure.drop 1⟩,
          ⟨"", ["p"], []⟩] := by decide +kernel
    cases hframes.symm.trans htaken
    have hdepth : s.table.depth = 1 := hopen.depth
    obtain ⟨h, hm, -, hfound⟩ := hopen.own (by decide)
    rw [hdepth] at hm
    exact ⟨s, hs, hdepth, h, hm, hfound⟩
  · cases hrun : analysisSteps (.ofSource (.ofList parameterNamedAsProcedure) false) with
    | ok _ s =>
      have hok : (analysisSteps.outcome
          (.ofSource (.ofList parameterNamedAsProcedure) false)).failure = none := by
        unfold Analysis.outcome
        rw [hrun]
      exact absurd hok (by decide +kernel)
    | error e s =>
      obtain ⟨taken, f, rest, -, -, hopen⟩ := hstops e s hrun
      exact ⟨e, s, rfl, f, rest, hopen⟩

end Analysis

end ProcLang
