import ProcLang.Proofs.Enumeration
import ProcLang.Proofs.Layout
import ProcLang.Proofs.OpenScopes

/-!
# Where scopes are closed

An analysis that has read nested procedures stands where further ones or the statements may follow
(`Analysis.Rounds.before`), so what holds behind the statements of one procedure holds in every state
that is reached in the same way (`Analysis.Reaches.of_ends`). Where the scope of a procedure is about
to be closed, all tokens that were taken are those of open procedures (`Analysis.Closes.exists_taken`)
and the names in the scope are different (`Analysis.Closes.nodup`).
-/

namespace ProcLang

/-- Names that are declared once in each scope are different in a scope. -/
theorem SymbolTable.WellFormed.nodup_names {t : SymbolTable} (hw : t.WellFormed)
    (hincreasing : ∀ y, (t.byName.get y).Pairwise fun h h' => (t.symbol h).depth < (t.symbol h').depth)
    (d : Int) : ((t.symbolsOf (t.entriesAt d)).map Symbol.name).Nodup := by
  have hname : ∀ y, ∀ h ∈ (t.byName.get y).filter (fun h => (t.symbol h).depth = d),
      (t.symbol h).name = y := fun y h hm => hw.name_eq (List.mem_of_mem_filter hm)
  unfold symbolsOf entriesAt
  rw [List.map_map, List.map_flatMap, List.nodup_flatMap]
  constructor
  · intro y _
    -- there is one declaration of the name at most
    have hpairs := (hincreasing y).filter fun h => (t.symbol h).depth = d
    cases hfilter : (t.byName.get y).filter fun h => (t.symbol h).depth = d with
    | nil => exact List.nodup_nil
    | cons h rest =>
      cases rest with
      | nil => exact List.nodup_singleton _
      | cons h' rest =>
        have hm : ∀ x ∈ h :: h' :: rest, (t.symbol x).depth = d := by
          intro x hx
          rw [← hfilter] at hx
          simpa using List.of_mem_filter hx
        rw [hfilter] at hpairs
        have hlt := (List.pairwise_cons.mp hpairs).1 h' List.mem_cons_self
        rw [hm h List.mem_cons_self, hm h' (by simp)] at hlt
        exact absurd hlt (Int.lt_irrefl d)
  · refine (nodup_eraseDups _).imp fun hne => ?_
    intro y hy hy'
    obtain ⟨h, hm, rfl⟩ := List.mem_map.mp hy
    obtain ⟨h', hm', heq⟩ := List.mem_map.mp hy'
    exact hne ((hname _ h hm).symm.trans (heq.symm.trans (hname _ h' hm')))

namespace Analysis

variable {b b' s s' : State} {f : Frame} {rest : List Frame} {name outerName : String}
  {gs : List Goal} {n : Nat} {t : Token} {source : TokenSource} {tracing : Bool}

/-! ## Nested procedures -/

/-- Nested procedures are read one behind the other. -/
theorem Before.ends_nested (hn : s.budget ≤ n) (h : Before b name (.procedures :: gs) rest s)
    (hp : s.pending = []) (ht : s.current = some t) (hk : t.kind = .procedureWord)
    (hl : .locals ∉ gs) :
    Ends (procedureWithin n) s (fun _ s' => Before b name (.procedures :: gs) rest s' ∧
      (s'.pending = [] ∧ s'.budget ≤ n) ∧ s'.budget < s.budget) (Stops b) := by
  refine ((h.of_procedures ht hk).ends_procedureWithin hn hp (by simp [hl])).imp ?_
  rintro - s' ⟨⟨names, hs'⟩, hp', hlt⟩
  exact ⟨hs'.before (Or.inl hp'), ⟨hp', by omega⟩, hlt⟩

theorem Before.ends_procedures (hn : s.budget ≤ n) (h : Before b name (.procedures :: gs) rest s)
    (hp : s.pending = []) (hl : .locals ∉ gs) (hheads : .procedureWord ∉ heads gs) :
    Ends (whileKind .procedureWord (procedureWithin n)) s
      (fun _ s' => Before b name gs rest s' ∧ s'.pending = []) (Stops b) := by
  refine (h.ends_whileKind (fun s => s.pending = [] ∧ s.budget ≤ n) rfl (by decide) hheads
    (fun s t h hs ht hk => h.ends_nested hs.2 hs.1 ht hk hl) ⟨hp, hn⟩).imp ?_
  rintro - s' ⟨h', ⟨hp', -⟩, -⟩
  exact ⟨h', hp'⟩

theorem Rounds.before (hrounds : Rounds .procedureWord (procedureWithin n) s s')
    (hn : s.budget ≤ n) (h : Before b name (.procedures :: gs) rest s) (hp : s.pending = [])
    (hl : .locals ∉ gs) :
    Before b name (.procedures :: gs) rest s' ∧ s'.pending = [] ∧ s'.budget ≤ n := by
  induction hrounds with
  | none => exact ⟨h, hp, hn⟩
  | more _ ht hk hstep ih =>
    obtain ⟨h₁, hp₁, hn₁⟩ := ih
    obtain ⟨h₂, ⟨hp₂, hn₂⟩, -⟩ := (h₁.ends_nested hn₁ hp₁ ht hk hl).of_ok hstep
    exact ⟨h₂, hp₂, hn₂⟩

/-- Behind the head of a procedure those nested in it may follow. -/
theorem Before.ends_opened (hn : s.budget ≤ n + 1)
    (h : Before b outerName (.token .procedureWord :: .procedureName :: gs) rest s)
    (hp : s.pending = []) :
    Ends (do let name ← openProcedure; procedureHead name; return name) s
      (fun name s' => s'.pending = [] ∧ s'.budget ≤ n ∧ ∃ names,
        Before b name (.procedures :: Goal.procedure.drop 4) (⟨outerName, names, gs⟩ :: rest) s')
      (Stops b) := by
  refine (h.ends_openProcedure hp).andThen ?_
  rintro name s₁ ⟨⟨names, h₁⟩, hp₁, hlt₁⟩
  refine (h₁.ends_procedureHead (List.cons_ne_nil _ _) hp₁).andThen ?_
  rintro - s₂ ⟨h₂, hp₂, hle₂⟩
  exact ⟨hp₂, by omega, names, h₂⟩

theorem Before.ends_openedHead (hn : s.budget ≤ n + 1)
    (h : Before b outerName (.token .procedureWord :: .procedureName :: gs) rest s)
    (hp : s.pending = []) :
    Ends (do let outer ← openProcedure; procedureHead outer) s
      (fun _ s' => s'.pending = [] ∧ s'.budget ≤ n ∧ ∃ name names,
        Before b name (.procedures :: Goal.procedure.drop 4) (⟨outerName, names, gs⟩ :: rest) s')
      (Stops b) := by
  have hopened := h.ends_opened hn hp
  rw [ends_bind] at hopened ⊢
  refine hopened.imp fun name s₁ h₁ => ?_
  rw [ends_bind] at h₁
  refine h₁.imp ?_
  rintro - s₂ ⟨hp₂, hn₂, names, h₂⟩
  exact ⟨hp₂, hn₂, name, names, h₂⟩

/-! ## What holds in the states that are reached -/

theorem Yields.of_forall {α : Type} {step : Analysis α} {ok : α → State → Prop}
    (h : ∀ a s', ok a s') : Yields step s ok := by
  unfold Yields Ends
  split
  · exact h _ _
  · trivial

/-- A procedure that is read begins with its word. -/
theorem yields_word {α : Type} {f : String → Analysis α} :
    Yields (openProcedure >>= f) s fun _ _ => ∃ t, s.current = some t ∧ t.kind = .procedureWord := by
  refine yields_bind.mpr (yields_bind.mpr ((yields_expect .procedureWord s).mono ?_))
  rintro - s' ⟨t, hk, u, source, ht, -⟩
  exact .of_forall fun _ _ => .of_forall fun _ _ => ⟨t, ht, hk⟩

section Reaches

variable {body : String → Analysis Unit} {ok : String → State → Prop}

theorem Reaches.exists_current (h : Reaches body n s b' name s') :
    ∃ t, s.current = some t ∧ t.kind = .procedureWord := by
  cases h with
  | own hown => exact yields_word.of_ok hown
  | nested hhead => exact yields_word.of_ok hhead

/-- What holds behind `body`, wherever it is read, holds behind the procedure. -/
theorem Before.ends_procedureUpTo (hn : s.budget ≤ n + 1)
    (h : Before b outerName (.token .procedureWord :: .procedureName :: gs) rest s)
    (hp : s.pending = [])
    (hbody : ∀ name rest s, Before b name (Goal.procedure.drop 4) rest s → s.pending = [] →
      Ends (body name) s (fun _ => ok name) (Stops b)) :
    Ends (procedureUpTo body n) s ok (Stops b) := by
  have hopened := h.ends_opened hn hp
  unfold procedureUpTo
  rw [ends_bind] at hopened ⊢
  refine hopened.imp fun name s₁ h₁ => ?_
  rw [ends_bind] at h₁ ⊢
  refine h₁.imp ?_
  rintro - s₂ ⟨hp₂, hn₂, names, h₂⟩
  refine (h₂.ends_procedures hn₂ hp₂ (by decide) (by decide)).andThen ?_
  rintro - s₃ ⟨h₃, hp₃⟩
  exact (hbody name _ s₃ h₃ hp₃).andThen fun _ _ h => h

/-- What holds behind `body`, wherever it is read, holds in every state that is reached. By induction
on the nesting. -/
theorem Reaches.of_ends (hreaches : Reaches body n s b' name s') (hn : s.budget ≤ n)
    (h : Before b outerName (.token .procedureWord :: .procedureName :: gs) rest s)
    (hp : s.pending = [])
    (hbody : ∀ name rest s, Before b name (Goal.procedure.drop 4) rest s → s.pending = [] →
      Ends (body name) s (fun _ => ok name) (Stops b)) : ok name s' := by
  induction hreaches generalizing outerName gs rest with
  | own hown => exact (h.ends_procedureUpTo hn hp hbody).of_ok hown
  | @nested n s s₁ s₂ b' s' name hhead hrounds hinner ih =>
    obtain ⟨hp₁, hn₁, y, names, h₁⟩ := (h.ends_openedHead hn hp).of_ok hhead
    obtain ⟨h₂, hp₂, hn₂⟩ := hrounds.before hn₁ h₁ hp₁ (by decide)
    obtain ⟨t, ht, hk⟩ := hinner.exists_current
    exact ih hn₂ (h₂.of_procedures ht hk) hp₂

end Reaches

theorem Closes.afterBody (hcloses : Closes n s b' name s') (hn : s.budget ≤ n)
    (h : Before b outerName (.token .procedureWord :: .procedureName :: gs) rest s)
    (hp : s.pending = []) : ∃ rest s₁, AfterBody b rest s₁ s' := by
  have hbody : ∀ name rest s, Before b name (Goal.procedure.drop 4) rest s → s.pending = [] →
      Ends (procedureBody name) s (fun _ s' => ∃ rest s₁, AfterBody b rest s₁ s') (Stops b) :=
    fun _ rest s h hp => (h.ends_procedureBody hp).imp fun _ _ h' => ⟨rest, s, h'⟩
  exact hcloses.of_ends hn h hp hbody

section Begun

variable (hbegun : Begun (.ofSource source tracing) b)
include hbegun

theorem Begun.before : Before b "" [.token .procedureWord, .procedureName] [] b := by
  obtain ⟨t, ht⟩ := Option.isSome_iff_exists.mp hbegun.isSome
  exact (hbegun.ready.stands ht).before (Or.inl hbegun.ready.pending)

/-- Where a scope is about to be closed, all tokens that were taken are those of procedures that are
open. -/
theorem Closes.exists_taken (h : Closes (b.source.bound + 1) b b' name s) :
    ∃ ts mid frames, s.matched = ts.reverse ∧ source.Supplies ts mid ∧
      takeAll [] [.base []] ts = .ok frames := by
  obtain ⟨rest, s₁, f, s₂, t, hstands, htakes, htake, -⟩ :=
    h.afterBody b.budget_le hbegun.before hbegun.ready.pending
  have hreads := hstands.reads.takes htakes htake
  obtain ⟨u, hu⟩ := Option.isSome_iff_exists.mp hreads.isSome
  obtain ⟨ts, hmatched, hsupply, htaken⟩ := hbegun.exists_taken hreads hu
  obtain ⟨mid, hsupply, -⟩ := TokenSource.supplies_append.mp hsupply
  exact ⟨ts, mid, _, hmatched, hsupply, htaken⟩

/-- The names in a scope that is about to be closed are different. -/
theorem Closes.nodup (h : Closes (b.source.bound + 1) b b' name s) :
    ((s.table.symbolsOf (s.table.entriesAt s.table.depth)).map Symbol.name).Nodup := by
  obtain ⟨rest, s₁, f, s₂, t, hstands, htakes, -⟩ :=
    h.afterBody b.budget_le hbegun.before hbegun.ready.pending
  rw [htakes.onlyTokens.table]
  refine hstands.grown.wellFormed.nodup_names (hstands.grown.increasing ?_) _
  rw [hbegun.table]
  rfl

end Begun

end Analysis

end ProcLang
