import ProcLang.Proofs.Growth
import ProcLang.Proofs.Reading
import ProcLang.Proofs.Supply

/-!
# Where an analysis stands

An analysis of a procedure that began in a state `b` stands at frames of goals when those are what
the tokens taken since then leave to be read, and the scopes of its table hold the names of the
frames (`Analysis.Stands`). `Analysis.Before` says that the goals named are the next ones, and
`Analysis.Stops` lists the ways in which the analysis can stop: its source breaks off, or the token
looked at, or the one just taken, is one that the frames refuse.
-/

namespace ProcLang

/-! ## Frames and scopes -/

/-- The scopes from depth `d` outwards to that of `b` hold the names of the frames. -/
def Mirrors (b t : SymbolTable) : Int → List Frame → Prop
  | d, [] => d = b.depth - 1
  | d, f :: rest => t.namesAt.get d = f.names ∧ Mirrors b t (d - 1) rest

namespace Mirrors

variable {b t t' : SymbolTable} {d : Int} {frames : List Frame} {f : Frame} {rest : List Frame}

theorem depth_eq (h : Mirrors b t d frames) : d = b.depth - 1 + frames.length := by
  induction frames generalizing d with
  | nil =>
    have hd : d = b.depth - 1 := h
    simp [hd]
  | cons f rest ih =>
    have hd := ih h.2
    rw [List.length_cons]
    omega

theorem congr (h : Mirrors b t d frames) (hn : ∀ d' ≤ d, t'.namesAt.get d' = t.namesAt.get d') :
    Mirrors b t' d frames := by
  induction frames generalizing d with
  | nil => exact h
  | cons f rest ih =>
    exact ⟨(hn d (Int.le_refl d)).trans h.1, ih h.2 fun d' hle => hn d' (by omega)⟩

/-- The names of the frames are those declared in the scopes from that of `b` inwards. -/
theorem exists_mem_iff (h : Mirrors b t d frames) {y : String} :
    (∃ f ∈ frames, y ∈ f.names) ↔ ∃ d', b.depth ≤ d' ∧ d' ≤ d ∧ y ∈ t.namesAt.get d' := by
  induction frames generalizing d with
  | nil =>
    have hd : d = b.depth - 1 := h
    constructor
    · rintro ⟨f, hf, -⟩
      exact absurd hf List.not_mem_nil
    · rintro ⟨d', hle, hle', -⟩
      omega
  | cons f rest ih =>
    have hdepth := h.depth_eq
    rw [List.length_cons] at hdepth
    constructor
    · rintro ⟨g, hg, hy⟩
      rcases List.mem_cons.mp hg with rfl | hg
      · exact ⟨d, by omega, Int.le_refl d, h.1 ▸ hy⟩
      · obtain ⟨d', hle, hle', hy⟩ := (ih h.2).mp ⟨g, hg, hy⟩
        exact ⟨d', hle, by omega, hy⟩
    · rintro ⟨d', hle, hle', hy⟩
      by_cases hd : d' = d
      · subst hd
        exact ⟨f, List.mem_cons_self, h.1 ▸ hy⟩
      · obtain ⟨g, hg, hy⟩ := (ih h.2).mpr ⟨d', hle, by omega, hy⟩
        exact ⟨g, List.mem_cons_of_mem _ hg, hy⟩

/-- A name is visible exactly if it is declared at all. -/
theorem visible_iff (h : Mirrors b t t.depth frames) (hg : SymbolTable.Grown b t) {y : String} :
    Visible b.byName.keys frames y ↔ t.byName.get y ≠ [] := by
  unfold Visible
  rw [h.exists_mem_iff, hg.start.byName.mem_keys_iff]
  constructor
  · rintro (hy | ⟨d', -, -, hy⟩)
    · obtain ⟨x, hx⟩ := List.exists_mem_of_ne_nil _ hy
      exact List.ne_nil_of_mem (hg.mem_of_mem_base hx)
    · obtain ⟨x, hx, -⟩ := hg.wellFormed.filed.mp hy
      exact List.ne_nil_of_mem hx
  · intro hy
    obtain ⟨x, hx⟩ := List.exists_mem_of_ne_nil _ hy
    by_cases hx' : x < b.symbols.size
    · exact Or.inl (List.ne_nil_of_mem (hg.mem_base_of_lt hx hx'))
    · have hnew : b.symbols.size ≤ x := Nat.le_of_not_lt hx'
      exact Or.inr ⟨_, hg.inside y x hx hnew, hg.bounded y x hx,
        hg.wellFormed.filed.mpr ⟨x, hx, rfl⟩⟩

end Mirrors

/-- Whether names can be pending when the goal is still to be read. -/
def Goal.isPending : Goal → Bool
  | typeMark | literal | endArguments => true
  | _ => false

/-- The kinds that are named as expected. -/
def Expectation.kinds : Expectation → List Kind
  | kind k => [k]
  | factor => [.number]
  | typeMark => [.integerWord, .floatWord, .charWord, .constantWord]

/-- The frames take a token of the kind, which is a name or has a lexeme that is no word for a
mode. -/
def Welcomes (outer : List String) (frames : List Frame) (k : Kind) : Prop :=
  ∃ u frames', u.kind = k ∧ (k = .identifier ∨ Analysis.modeOfWord? u.lexeme = none) ∧
    take outer frames u = .ok frames'

namespace Analysis

/-! ## What was read -/

/-- The names declared around the procedure that is analysed from the state on. -/
def outer (b : State) : List String := b.table.byName.keys

/-- The frames of the state in which the analysis of a procedure begins. -/
def start (b : State) : List Frame := [.base (b.table.namesAt.get b.table.depth)]

/-- The tokens taken since the state `b` leave the frames to be read. -/
def Reads (b : State) (frames : List Frame) (s : State) : Prop :=
  ∃ first taken pulled t, b.current = some first ∧ s.current = some t ∧
    s.matched = taken.reverse ++ b.matched ∧ first :: pulled = taken ++ [t] ∧
    b.source.Supplies pulled s.source ∧ takeAll (outer b) (start b) taken = .ok frames

/-- Only tokens have been taken. -/
def OnlyTokens (s s' : State) : Prop :=
  ∃ source current matched, s' = { s with source := source, current := current, matched := matched }

/-- No token has been taken, and of the table only attributes have changed. -/
structure Rewrites (b s s' : State) : Prop where
  source : s'.source = s.source
  current : s'.current = s.current
  matched : s'.matched = s.matched
  pending : s'.pending = s.pending
  table : SymbolTable.Refined b.table.symbols.size s.table s'.table

section Relations

variable {b s s' s'' : State} {t : Token} {frames frames' : List Frame}

theorem Reads.refl (h : b.current = some t) : Reads b (start b) b :=
  ⟨t, [], [], t, h, h, rfl, rfl, rfl, rfl⟩

theorem Reads.isSome (h : Reads b frames s) : s.current.isSome := by
  obtain ⟨-, -, -, t, -, ht, -⟩ := h
  rw [ht]
  rfl

theorem Reads.takes (h : Reads b frames s) (ht : Takes t s s')
    (hf : take (outer b) frames t = .ok frames') : Reads b frames' s' := by
  obtain ⟨first, taken, pulled, t', hfirst, ht', hmatched, hall, hsupply, htaken⟩ := h
  obtain ⟨u, source, hcur, hnext, rfl⟩ := ht
  cases ht'.symm.trans hcur
  refine ⟨first, taken ++ [t], pulled ++ [u], u, hfirst, rfl, ?_, ?_, hsupply.concat hnext, ?_⟩
  · show t :: s.matched = _
    rw [hmatched, List.reverse_append]
    rfl
  · rw [← List.cons_append, hall]
  · rw [takeAll_concat htaken]
    exact hf

theorem Reads.congr (h : Reads b frames s) (hsource : s'.source = s.source)
    (hcurrent : s'.current = s.current) (hmatched : s'.matched = s.matched) :
    Reads b frames s' := by
  obtain ⟨first, taken, pulled, t', hfirst, ht', hm, hall, hsupply, htaken⟩ := h
  exact ⟨first, taken, pulled, t', hfirst, hcurrent.trans ht', hmatched.trans hm, hall,
    hsource ▸ hsupply, htaken⟩

theorem OnlyTokens.refl (s : State) : OnlyTokens s s := ⟨s.source, s.current, s.matched, rfl⟩

theorem OnlyTokens.trans (h : OnlyTokens s s') (h' : OnlyTokens s' s'') : OnlyTokens s s'' := by
  obtain ⟨_, _, _, rfl⟩ := h
  obtain ⟨source, current, matched, rfl⟩ := h'
  exact ⟨source, current, matched, rfl⟩

theorem OnlyTokens.table (h : OnlyTokens s s') : s'.table = s.table := by
  obtain ⟨_, _, _, rfl⟩ := h
  rfl

theorem OnlyTokens.pending (h : OnlyTokens s s') : s'.pending = s.pending := by
  obtain ⟨_, _, _, rfl⟩ := h
  rfl

theorem OnlyTokens.listing (h : OnlyTokens s s') : s'.listing = s.listing := by
  obtain ⟨_, _, _, rfl⟩ := h
  rfl

theorem Takes.onlyTokens (h : Takes t s s') : OnlyTokens s s' := by
  obtain ⟨u, source, -, -, rfl⟩ := h
  exact ⟨source, some u, t :: s.matched, rfl⟩

theorem Rewrites.refl (b s : State) : Rewrites b s s := ⟨rfl, rfl, rfl, rfl, .refl _ _⟩

theorem Rewrites.trans (h : Rewrites b s s') (h' : Rewrites b s' s'') : Rewrites b s s'' :=
  ⟨h'.source.trans h.source, h'.current.trans h.current, h'.matched.trans h.matched,
    h'.pending.trans h.pending, h.table.trans h'.table⟩

theorem Rewrites.budget_eq (h : Rewrites b s s') : s'.budget = s.budget :=
  State.budget_congr h.source h.current

end Relations

/-! ## Standing at frames -/

/-- The analysis that began in `b` stands at the frame `f` inside the frames `rest`. As long as
local names may follow, the name of the procedure leads to its function. -/
structure Stands (b : State) (f : Frame) (rest : List Frame) (s : State) : Prop where
  reads : Reads b (f :: rest) s
  grown : SymbolTable.Grown b.table s.table
  mirrors : Mirrors b.table s.table s.table.depth (f :: rest)
  waiting : SymbolTable.Waiting b.table s.table s.pending
  owner : Goal.locals ∈ f.goals → ∃ h, SymbolTable.Owns b.table s.table f.name h

/-- Names are pending only between their declaration and the place where they are attributed. -/
def Quiet (goals : List Goal) (s : State) : Prop :=
  s.pending = [] ∨ ∃ g ∈ goals, g.isPending

/-- The goals of the procedure with the name are the next ones: the token looked at makes the same
move at them as at the goals of the frame, and so do other tokens of the kinds they begin with. -/
def Before (b : State) (name : String) (goals : List Goal) (rest : List Frame) (s : State) : Prop :=
  ∃ f, f.name = name ∧ Stands b f rest s ∧ Quiet f.goals s ∧
    ∀ t, (s.current = some t ∨ t.kind ∈ heads goals ∧ modeOfWord? t.lexeme = none) →
      moveOf name t f.goals = moveOf name t goals

/-- The ways in which the analysis of a procedure can stop: the source breaks off, or the frames
refuse the token looked at or the one just taken. -/
inductive Stops (b : State) : Failure → State → Prop
  /-- A token was taken and the source gives no next one. -/
  | breaks {f : Frame} {rest : List Frame} {s s' : State} {t : Token} {err : ScanError} :
    Stands b f rest s → Quiet f.goals s →
    (∀ r, take (outer b) (f :: rest) t = .error r → r.isLate) → Breaks t err s s' →
    Stops b (.ofScanError err) s'
  /-- The token looked at is refused, and each expected kind is welcome. -/
  | unexpected {f : Frame} {rest : List Frame} {s : State} {t : Token} {expected : Expectation} :
    Stands b f rest s → Quiet f.goals s → s.current = some t →
    take (outer b) (f :: rest) t = .error .unexpected →
    (∀ k ∈ expected.kinds, Welcomes (outer b) (f :: rest) k) →
    Stops b (.diagnostic (.unexpected expected t)) s
  /-- The name looked at is used and not declared. -/
  | undefined {f : Frame} {rest : List Frame} {s : State} {t : Token} :
    Stands b f rest s → Quiet f.goals s → s.current = some t →
    take (outer b) (f :: rest) t = .error .undefined →
    Stops b (.diagnostic (.undefined t.lexeme t.line)) s
  /-- The token looked at stands for the closing name and does not spell it. -/
  | otherClosingName {f : Frame} {rest : List Frame} {s : State} {t : Token} :
    Stands b f rest s → Quiet f.goals s → s.current = some t →
    take (outer b) (f :: rest) t = .error .otherClosingName →
    Stops b (.diagnostic (.otherClosingName f.name t.line)) s
  /-- The name that was taken is declared in its scope already. -/
  | duplicate {f : Frame} {rest : List Frame} {s s' : State} {t : Token} :
    Stands b f rest s → Quiet f.goals s → Takes t s s' →
    take (outer b) (f :: rest) t = .error .duplicate →
    Stops b (.diagnostic (.duplicate t.lexeme t.line)) s'
  /-- The numeral that was taken for a constant has no value. -/
  | numeral {f : Frame} {rest : List Frame} {s s' : State} {t : Token}
      {err : Numeral.NumeralError} :
    Stands b f rest s → Quiet f.goals s → Takes t s s' →
    take (outer b) (f :: rest) t = .error .noValue → Numeral.Value.parse t.lexeme = .error err →
    Stops b (.fault (.numeral err)) s'

section Standing

variable {b s s' : State} {f : Frame} {rest : List Frame} {name : String} {names : List String}
  {g : Goal} {gs gs' : List Goal} {t : Token} {k : Kind}

theorem Quiet.of_onlyTokens (h : OnlyTokens s s') (hp : s.pending = []) : Quiet gs s' :=
  Or.inl (h.pending.trans hp)

/-- A frame may be given other goals that make the same move. -/
theorem take_congr {outer : List String} (h : moveOf f.name t f.goals = moveOf f.name t gs) :
    take outer (f :: rest) t = take outer (⟨f.name, f.names, gs⟩ :: rest) t := by
  cases hm : moveOf f.name t gs with
  | error r => rw [take_of_refused (h.trans hm), take_of_refused hm]
  | ok m => rw [take_of_move (h.trans hm), take_of_move hm]

/-- The goals of a frame do not count for what is visible. -/
theorem visible_congr {outer : List String} {y : String} (h : Visible outer (f :: rest) y) :
    Visible outer (⟨name, f.names, gs⟩ :: rest) y := by
  unfold Visible at *
  simpa only [List.mem_cons, exists_eq_or_imp] using h

theorem Stands.before (h : Stands b ⟨name, names, gs⟩ rest s) (hq : Quiet gs s) :
    Before b name gs rest s :=
  ⟨_, rfl, h, hq, fun _ _ => rfl⟩

theorem Before.isSome (h : Before b name gs rest s) : s.current.isSome := by
  obtain ⟨f, -, hs, -⟩ := h
  exact hs.reads.isSome

theorem Before.grown (h : Before b name gs rest s) : SymbolTable.Grown b.table s.table := by
  obtain ⟨f, -, hs, -⟩ := h
  exact hs.grown

theorem Stands.rewrites (h : Stands b f rest s) (hr : Rewrites b s s') : Stands b f rest s' where
  reads := h.reads.congr hr.source hr.current hr.matched
  grown := h.grown.restyled hr.table.toRestyled
  mirrors := by
    rw [hr.table.depth]
    exact h.mirrors.congr fun d _ => by rw [hr.table.namesAt]
  waiting := by
    rw [hr.pending]
    exact h.waiting.refined hr.table
  owner := fun hm => (h.owner hm).imp fun _ ho => ho.refined hr.table

/-- A token that changes no scope was taken. -/
theorem Stands.takes (h : Stands b f rest s) (ht : Takes t s s')
    (hf : take (outer b) (f :: rest) t = .ok (⟨f.name, f.names, gs⟩ :: rest))
    (hgs : Goal.locals ∈ gs → Goal.locals ∈ f.goals) :
    Stands b ⟨f.name, f.names, gs⟩ rest s' where
  reads := h.reads.takes ht hf
  grown := ht.onlyTokens.table ▸ h.grown
  mirrors := by
    rw [ht.onlyTokens.table]
    exact h.mirrors
  waiting := by
    rw [ht.onlyTokens.table, ht.onlyTokens.pending]
    exact h.waiting
  owner := fun hm => by
    rw [ht.onlyTokens.table]
    exact h.owner (hgs hm)

/-- A token was taken whose deed leaves the frames as they are. -/
theorem Before.takes {deed : Deed} (h : Before b name gs rest s) (ht : Takes t s s')
    (hm : moveOf name t gs = .ok ⟨deed, gs'⟩)
    (hdeed : ∀ f, Stands b f rest s →
      deed.apply (outer b) t.lexeme { f with goals := gs' } rest =
        .ok ({ f with goals := gs' } :: rest)) :
    ∃ names, Stands b ⟨name, names, gs'⟩ rest s' := by
  obtain ⟨f, rfl, hs, -, hagree⟩ := h
  obtain ⟨-, -, hcur, -⟩ := id ht
  have hmove := (hagree t (Or.inl hcur)).trans hm
  refine ⟨f.names, hs.takes ht ?_ fun hl => mem_of_moveOf (Or.inl rfl) hmove hl⟩
  exact (take_of_move hmove).trans (hdeed f hs)

/-- A token that is only read was taken. -/
theorem Before.takes_read (h : Before b name gs rest s) (ht : Takes t s s')
    (hm : moveOf name t gs = .ok ⟨.read, gs'⟩) :
    ∃ names, Stands b ⟨name, names, gs'⟩ rest s' :=
  h.takes ht hm fun _ _ => rfl

/-- A name that is used was taken. -/
theorem Before.takes_use (h : Before b name gs rest s) (ht : Takes t s s')
    (hm : moveOf name t gs = .ok ⟨.use, gs'⟩) (hv : s.table.byName.get t.lexeme ≠ []) :
    ∃ names, Stands b ⟨name, names, gs'⟩ rest s' := by
  refine h.takes ht hm fun f hs => ?_
  have hvis : Visible (outer b) (f :: rest) t.lexeme := (hs.mirrors.visible_iff hs.grown).mpr hv
  exact if_pos (visible_congr hvis)

/-- Other goals are the next ones if the tokens that matter make the same moves at them. -/
theorem Before.congr (h : Before b name gs rest s)
    (hmove : ∀ t, (s.current = some t ∨ t.kind ∈ heads gs' ∧ modeOfWord? t.lexeme = none) →
      moveOf name t gs = moveOf name t gs')
    (hheads : ∀ k ∈ heads gs', k ∈ heads gs) : Before b name gs' rest s := by
  obtain ⟨f, hf, hs, hq, hagree⟩ := h
  exact ⟨f, hf, hs, hq, fun t ht =>
    (hagree t (ht.imp_right fun hh => ⟨hheads _ hh.1, hh.2⟩)).trans (hmove t ht)⟩

/-- Where a token of the only kind that begins other goals comes next, those may be the next ones. -/
theorem Before.congr_kind (h : Before b name gs rest s) (ht : s.current = some t)
    (hkind : t.kind = k) (hheads : ∀ k' ∈ heads gs', k' = k) (hmem : k ∈ heads gs)
    (hmove : ∀ u : Token, u.kind = k → moveOf name u gs = moveOf name u gs') :
    Before b name gs' rest s := by
  refine h.congr (fun u hu => hmove u ?_) fun k' hk' => hheads k' hk' ▸ hmem
  rcases hu with hu | ⟨hu, -⟩
  · cases ht.symm.trans hu
    exact hkind
  · exact hheads _ hu

/-- A goal that may be left out is left out where no token begins it. -/
theorem Before.skip (h : Before b name (g :: gs) rest s) (hg : g.start? = some k)
    (hk : ∀ t, s.current = some t → t.kind ≠ k) (hheads : k ∉ heads gs) :
    Before b name gs rest s := by
  refine h.congr (fun t ht => moveOf_cons_of_passesOn ?_) fun k' hk' => ?_
  · rw [Goal.passesOn_eq_true hg]
    rcases ht with ht | ⟨ht, -⟩
    · exact hk t ht
    · exact fun he => hheads (he ▸ ht)
  · unfold heads
    rw [hg]
    exact List.mem_cons_of_mem _ hk'

/-- The analysis may stop with a token as unexpected that the goals refuse. -/
theorem Before.unexpected {expected : Expectation} (h : Before b name gs rest s)
    (ht : s.current = some t) (hno : moveOf name t gs = .error .unexpected)
    (hhope : ∀ k ∈ expected.kinds, k ∈ heads gs ∧ ∀ names, ∃ u frames, u.kind = k ∧
      modeOfWord? u.lexeme = none ∧ take (outer b) (⟨name, names, gs⟩ :: rest) u = .ok frames) :
    Stops b (.diagnostic (.unexpected expected t)) s := by
  obtain ⟨f, rfl, hs, hq, hagree⟩ := h
  refine .unexpected hs hq ht ?_ fun k hk => ?_
  · exact take_of_refused ((hagree t (Or.inl ht)).trans hno)
  · obtain ⟨hhead, hall⟩ := hhope k hk
    obtain ⟨u, frames, hu, hplain, htake⟩ := hall f.names
    refine ⟨u, frames, hu, Or.inr hplain, ?_⟩
    rwa [take_congr (hagree u (Or.inr ⟨hu ▸ hhead, hplain⟩))]

end Standing

/-! ## Taking tokens -/

section Expecting

variable {b s : State} {rest : List Frame} {name : String} {gs gs' : List Goal} {t : Token}
  {k : Kind}

/-- The goals take the token, or they refuse it when it has been taken. -/
def Admits (s : State) (name : String) (gs : List Goal) (t : Token) : Prop :=
  moveOf name t gs = .error .noValue ∨
    ∃ m, moveOf name t gs = .ok m ∧ (m.deed = .use → s.table.byName.get t.lexeme ≠ [])

theorem Admits.of_move {m : Move} (hm : moveOf name t gs = .ok m) (hd : m.deed ≠ .use) :
    Admits s name gs t :=
  Or.inr ⟨m, hm, fun hu => absurd hu hd⟩

/-- To take a token of a kind it must be known how the analysis stops at a token of another kind. -/
theorem Before.ends_expect_of_refused (h : Before b name gs rest s) (ht : s.current = some t)
    (hadmits : t.kind = k → Admits s name gs t)
    (hother : t.kind ≠ k → Stops b (.diagnostic (.unexpected (.kind k) t)) s) :
    Ends (expect k) s (fun _ s' => t.kind = k ∧ Takes t s s') (Stops b) := by
  refine (ends_expect h.isSome).mono ?_ ?_
  · rintro - s' ⟨u, hu, htakes⟩
    obtain ⟨-, -, hcur, -⟩ := id htakes
    cases ht.symm.trans hcur
    exact ⟨hu, htakes⟩
  · rintro e s' (⟨u, err, hkind, hbreaks, rfl⟩ | ⟨u, hu, hne, rfl, rfl⟩)
    · obtain ⟨-, hcur, -⟩ := id hbreaks
      cases ht.symm.trans hcur
      obtain ⟨f, rfl, hs, hq, hagree⟩ := h
      refine .breaks hs hq (fun r hr => ?_) hbreaks
      rcases hadmits hkind with hno | ⟨m, hm, hv⟩
      · rw [take_of_refused ((hagree t (Or.inl ht)).trans hno)] at hr
        cases hr
        rfl
      · rw [take_of_move ((hagree t (Or.inl ht)).trans hm)] at hr
        refine Deed.isLate_of_apply (fun hu => ?_) hr
        exact visible_congr ((hs.mirrors.visible_iff hs.grown).mpr (hv hu))
    · cases ht.symm.trans hu
      exact hother hne

variable (gs') in
/-- To take a token that the goals only read. -/
theorem Before.ends_expect (h : Before b name gs rest s) (hk : k ≠ .endOfInput) (hhead : k ∈ heads gs)
    (hyes : ∀ t, t.kind = k → modeOfWord? t.lexeme = none ∨ s.current = some t →
      moveOf name t gs = .ok ⟨.read, gs'⟩)
    (hno : ∀ t, s.current = some t → t.kind ≠ k → moveOf name t gs = .error .unexpected) :
    Ends (expect k) s (fun _ s' => (∃ names, Stands b ⟨name, names, gs'⟩ rest s') ∧
      OnlyTokens s s' ∧ s'.budget < s.budget) (Stops b) := by
  obtain ⟨t, ht⟩ := Option.isSome_iff_exists.mp h.isSome
  refine (h.ends_expect_of_refused ht
    (fun hkind => .of_move (hyes t hkind (Or.inr ht)) fun hu => by cases hu)
    fun hne => h.unexpected ht (hno t ht hne) ?_).imp ?_
  · intro k' hk'
    cases List.mem_singleton.mp hk'
    refine ⟨hhead, fun names => ⟨⟨k, "", 0⟩, ⟨name, names, gs'⟩ :: rest, rfl, modeOfWord?_empty, ?_⟩⟩
    exact take_of_move (f := ⟨name, names, gs⟩) (hyes ⟨k, "", 0⟩ rfl (Or.inl modeOfWord?_empty))
  · rintro - s' ⟨hkind, htakes⟩
    exact ⟨h.takes_read htakes (hyes t hkind (Or.inr ht)), htakes.onlyTokens,
      htakes.budget_lt (hkind ▸ hk)⟩

/-- To take the token that is the next goal. -/
theorem Before.ends_token (h : Before b name (.token k :: gs) rest s) (hk : k ≠ .endOfInput) :
    Ends (expect k) s (fun _ s' => (∃ names, Stands b ⟨name, names, gs⟩ rest s') ∧
      OnlyTokens s s' ∧ s'.budget < s.budget) (Stops b) := by
  refine h.ends_expect gs hk List.mem_cons_self (fun t ht _ => ?_) fun t _ ht => ?_
  · exact (Goal.Moves.token ht).moveOf_eq
  · rw [moveOf_cons_of_none rfl, Goal.move, Move.onKind_eq_error _ ht]
    rfl

/-- To take a token that is known to be of the kind. -/
theorem Before.ends_expect_of_kind (h : Before b name gs rest s) (hk : k ≠ .endOfInput)
    (ht : s.current = some t) (hkind : t.kind = k)
    (hm : moveOf name t gs = .ok ⟨.read, gs'⟩) :
    Ends (expect k) s (fun _ s' => (∃ names, Stands b ⟨name, names, gs'⟩ rest s') ∧
      OnlyTokens s s' ∧ s'.budget < s.budget) (Stops b) := by
  refine (h.ends_expect_of_refused ht (fun _ => .of_move hm fun hu => by cases hu)
    fun hne => absurd hkind hne).imp ?_
  rintro - s' ⟨-, htakes⟩
  exact ⟨h.takes_read htakes hm, htakes.onlyTokens, htakes.budget_lt (hkind ▸ hk)⟩

end Expecting

/-! ## Repetition -/

section Repetition

variable {b s : State} {rest : List Frame} {name : String} {first gs : List Goal} {g : Goal}
  {k : Kind} {step : Analysis Unit} {inv : State → Prop}

variable (inv) in
/-- To repeat a step at a goal that every round leaves to be read again. -/
theorem Before.ends_whileKind (hg : g.start? = some k) (hk : k ≠ .endOfInput) (hheads : k ∉ heads gs)
    (hround : ∀ s t, Before b name (g :: gs) rest s → inv s → s.current = some t → t.kind = k →
      Ends step s (fun _ s' => Before b name (g :: gs) rest s' ∧ inv s' ∧ s'.budget < s.budget)
        (Stops b))
    (h : Before b name (g :: gs) rest s) (hs : inv s) :
    Ends (whileKind k step) s
      (fun _ s' => Before b name gs rest s' ∧ inv s' ∧ s'.budget ≤ s.budget) (Stops b) := by
  have hloop : Ends (whileKind k step) s (fun _ s' => (Before b name (g :: gs) rest s' ∧ inv s') ∧
      s'.budget ≤ s.budget ∧ ∀ t, s'.current = some t → t.kind ≠ k) (Stops b) := by
    refine Analysis.ends_whileKind hk (fun s hs => hs.1.isSome) (fun s t hs ht hkind => ?_) ⟨h, hs⟩
    refine (hround s t hs.1 hs.2 ht hkind).imp ?_
    rintro - s' ⟨h', hs', hlt⟩
    exact ⟨⟨h', hs'⟩, hlt⟩
  refine hloop.imp ?_
  rintro - s' ⟨⟨h', hs'⟩, hle, hend⟩
  exact ⟨h'.skip hg hend hheads, hs', hle⟩

variable (first inv) in
/-- To read items with tokens between them, where the goal `g` stands for the further items. -/
theorem Before.ends_separatedBy (hg : g.start? = some k) (hk : k ≠ .endOfInput) (hheads : k ∉ heads gs)
    (hmove : ∀ t, t.kind = k → g.move name t = .ok ⟨.read, first ++ [g]⟩)
    (htokens : ∀ s s', inv s → OnlyTokens s s' → s'.budget < s.budget → inv s')
    (hquiet : ∀ s, inv s → Quiet (first ++ g :: gs) s)
    (hitem : ∀ s, Before b name (first ++ g :: gs) rest s → inv s →
      Ends step s (fun _ s' => Before b name (g :: gs) rest s' ∧ inv s' ∧ s'.budget < s.budget)
        (Stops b))
    (h : Before b name (first ++ g :: gs) rest s) (hs : inv s) :
    Ends (separatedBy k step) s
      (fun _ s' => Before b name gs rest s' ∧ inv s' ∧ s'.budget < s.budget) (Stops b) := by
  unfold separatedBy
  refine (hitem s h hs).andThen ?_
  rintro - s₁ ⟨h₁, hs₁, hlt₁⟩
  have hround : ∀ s t, Before b name (g :: gs) rest s → inv s → s.current = some t → t.kind = k →
      Ends (do expect k; step) s
        (fun _ s' => Before b name (g :: gs) rest s' ∧ inv s' ∧ s'.budget < s.budget)
        (Stops b) := by
    intro s t h hs ht hkind
    have hm : moveOf name t (g :: gs) = .ok ⟨.read, first ++ g :: gs⟩ := by
      rw [(Goal.move_eq_ok_iff.mp (hmove t hkind)).moveOf_eq, List.append_assoc,
        List.singleton_append]
    refine (h.ends_expect_of_kind hk ht hkind hm).andThen ?_
    rintro - s₂ ⟨⟨names, hstands⟩, honly, hlt₂⟩
    have hs₂ := htokens s s₂ hs honly hlt₂
    refine (hitem s₂ (hstands.before (hquiet s₂ hs₂)) hs₂).imp ?_
    rintro - s₃ ⟨h₃, hs₃, hlt₃⟩
    exact ⟨h₃, hs₃, by omega⟩
  refine (h₁.ends_whileKind inv hg hk hheads hround hs₁).imp ?_
  rintro - s' ⟨h', hs', hle⟩
  exact ⟨h', hs', by omega⟩

end Repetition

end Analysis

end ProcLang
