import ProcLang.Proofs.Language
import ProcLang.Proofs.Occurrences

/-!
# Following the tree of a procedure

The tokens of each part of the grammar can be followed along its tree (`Follows`): they are taken
one after the other, with the scopes of the tree open at each of them, up to the first name that is
wrong, which is refused. This module has the definition and what it means for single tokens.
-/

namespace ProcLang

/-! ## Open scopes -/

/-- A scope that is open: the name of its procedure, and what is still to be read there. -/
structure OpenScope where
  scope : Scope
  name : String
  goals : List Goal

/-- The frame of an open scope behind the occurrences. -/
def OpenScope.frame (os : List Occurrence) (l : OpenScope) : Frame :=
  ⟨l.name, declaredNames os l.scope, l.goals⟩

/-- The frames of open scopes behind the occurrences. -/
def framesAt (os : List Occurrence) (ls : List OpenScope) : List Frame :=
  ls.map (OpenScope.frame os)

/-- The open scopes are those around the scope. -/
def Encloses (rest : List OpenScope) (scope : Scope) : Prop :=
  rest.map OpenScope.scope = scope.tails.tail

/-- No occurrence declares a name in the scope or in one inside it. -/
def Fresh (os : List Occurrence) (scope : Scope) : Prop :=
  ∀ inner, scope <:+ inner → ∀ o ∈ os, o.role ≠ .declares inner

section Scopes

variable {os os' : List Occurrence} {o : Occurrence} {scope : Scope} {rest : List OpenScope}
  {name : String} {gs : List Goal} {number : Nat}

theorem tails_eq_cons (scope : Scope) : scope.tails = scope :: scope.tails.tail := by
  cases scope <;> rfl

theorem Encloses.cons (h : Encloses rest scope) (name : String) (gs : List Goal) (number : Nat) :
    Encloses (⟨scope, name, gs⟩ :: rest) (number :: scope) := by
  show scope :: rest.map OpenScope.scope = scope.tails
  rw [tails_eq_cons, show rest.map OpenScope.scope = _ from h]

theorem Encloses.length_lt (h : Encloses rest scope) {l : OpenScope} (hl : l ∈ rest) :
    l.scope.length < scope.length := by
  have hm : l.scope ∈ scope.tails.tail := h ▸ List.mem_map_of_mem hl
  cases scope with
  | nil => exact absurd hm List.not_mem_nil
  | cons number scope => exact Nat.lt_succ_of_le ((List.mem_tails _ _).mp hm).length_le

/-- The frames around a scope stay as they are when a name is declared there. -/
theorem Encloses.framesAt_concat (h : Encloses rest scope)
    (ho : ∀ scope', o.role = .declares scope' → scope' = scope) :
    framesAt (os ++ [o]) rest = framesAt os rest := by
  refine List.map_congr_left fun l hl => ?_
  have hne : o.role ≠ .declares l.scope := fun hrole => by
    have hlt := h.length_lt hl
    rw [ho _ hrole] at hlt
    exact Nat.lt_irrefl _ hlt
  rw [OpenScope.frame, declaredNames_concat, if_neg hne, List.append_nil]
  rfl

/-- A name that is declared in the innermost scope. -/
theorem Encloses.framesAt_declare (h : Encloses rest scope) (name : String) (gs : List Goal)
    (t : Token) : framesAt (os ++ [⟨t, .declares scope⟩]) (⟨scope, name, gs⟩ :: rest) =
      ⟨name, declaredNames os scope ++ [t.lexeme], gs⟩ :: framesAt os rest := by
  have hrest : framesAt (os ++ [⟨t, .declares scope⟩]) rest = framesAt os rest :=
    h.framesAt_concat fun _ heq => (Role.declares.inj heq).symm
  have hnames : declaredNames (os ++ [⟨t, .declares scope⟩]) scope =
      declaredNames os scope ++ [t.lexeme] := by
    rw [declaredNames_concat, if_pos rfl]
  rw [← hrest, ← hnames]
  rfl

/-- A name that is not declared changes nothing. -/
theorem framesAt_concat_of_ne (ls : List OpenScope) (ho : ∀ scope', o.role ≠ .declares scope') :
    framesAt (os ++ [o]) ls = framesAt os ls := by
  refine List.map_congr_left fun l _ => ?_
  rw [OpenScope.frame, declaredNames_concat, if_neg (ho _), List.append_nil]
  rfl

theorem take_framesAt {t : Token} {m : Move} (hm : moveOf name t gs = .ok m) :
    take [] (framesAt os (⟨scope, name, gs⟩ :: rest)) t = m.deed.apply [] t.lexeme
      ⟨name, declaredNames os scope, m.goals⟩ (framesAt os rest) :=
  take_of_move (f := OpenScope.frame os ⟨scope, name, gs⟩) hm

theorem Encloses.visible_iff (h : Encloses rest scope) {y : String} :
    Visible [] (framesAt os (⟨scope, name, gs⟩ :: rest)) y ↔
      ∃ outer, outer <:+ scope ∧ DeclaredIn os outer y := by
  have hscopes : (OpenScope.mk scope name gs :: rest).map OpenScope.scope = scope.tails := by
    rw [tails_eq_cons, List.map_cons, show rest.map OpenScope.scope = _ from h]
  unfold Visible framesAt
  simp only [List.not_mem_nil, false_or, List.mem_map, exists_exists_and_eq_and, ← List.mem_tails,
    ← hscopes, OpenScope.frame, mem_declaredNames]

theorem not_cons_suffix : ¬ number :: scope <:+ scope := fun h =>
  absurd h.length_le (by simp)

theorem Fresh.append (h : Fresh os scope) (h' : Fresh os' scope) : Fresh (os ++ os') scope :=
  fun inner hinner => List.forall_mem_append.mpr ⟨h inner hinner, h' inner hinner⟩

theorem Fresh.inside (h : Fresh os scope) (number : Nat) : Fresh os (number :: scope) :=
  fun inner hinner => h inner ((List.suffix_cons _ _).trans hinner)

theorem role_mem_of_mem_occurrences {ts : List Token} {rs : List Role}
    (h : o ∈ occurrences ts rs) : o.role ∈ rs := by
  unfold occurrences at h
  rw [← List.map_uncurry_zip_eq_zipWith] at h
  obtain ⟨x, hx, rfl⟩ := List.mem_map.mp h
  exact (List.of_mem_zip hx).2

/-- Names that are declared around a scope leave it fresh. -/
theorem fresh_occurrences {ts : List Token} {rs : List Role}
    (h : ∀ inner, scope <:+ inner → .declares inner ∉ rs) : Fresh (occurrences ts rs) scope :=
  fun inner hinner _ ho hrole => h inner hinner (hrole ▸ role_mem_of_mem_occurrences ho)

end Scopes

/-! ## Following the tree -/

/-- The refusal of a wrong occurrence. -/
def Occurrence.refusal (o : Occurrence) : Refusal :=
  match o.role with
  | .declares _ => .duplicate
  | .uses _ => .undefined
  | .closes _ => .otherClosingName

/-- The frames refuse the occurrence for what is wrong with it. -/
structure RefusedAt (frames : List Frame) (o : Occurrence) : Prop where
  refused : take [] frames o.token = .error o.refusal
  opening : ∀ y, o.role = .closes y → frames.head?.map Frame.name = some y

/-- The tokens are taken, and none of the occurrences is wrong, or they are taken up to the first
occurrence that is wrong, which is refused. -/
inductive FollowsTo (before : List Occurrence) (frames : List Frame) (us : List Token)
    (os : List Occurrence) (frames' : List Frame) : Prop
  | taken : NoneViolates before os → takeAll [] frames us = .ok frames' →
    FollowsTo before frames us os frames'
  | refused {os₁ os₂ : List Occurrence} {o : Occurrence} {vs behind : List Token}
    {mid : List Frame} : os = os₁ ++ o :: os₂ → NoneViolates before os₁ →
    o.Violates (before ++ os₁) → us = vs ++ o.token :: behind → takeAll [] frames vs = .ok mid →
    RefusedAt mid o → FollowsTo before frames us os frames'

/-- The names among the tokens have the roles, and behind the occurrences `before` the tokens lead
from some open scopes to others, if none of the names is wrong. -/
structure Follows (before : List Occurrence) (ls : List OpenScope) (us : List Token)
    (rs : List Role) (ls' : List OpenScope) : Prop where
  length : (namesOf us).length = rs.length
  follows : FollowsTo before (framesAt before ls) us (occurrences us rs)
    (framesAt (before ++ occurrences us rs) ls')

namespace Follows

variable {before : List Occurrence} {ls mid ls' rest : List OpenScope} {us vs : List Token}
  {rs rs' : List Role} {scope : Scope} {name : String} {g : Goal} {gs gs' : List Goal} {t : Token}
  {k : Kind}

theorem nil : Follows before ls [] [] ls :=
  ⟨rfl, .taken noneViolates_nil (by simp [occurrences, namesOf])⟩

theorem append (h : Follows before ls us rs mid)
    (h' : Follows (before ++ occurrences us rs) mid vs rs' ls') :
    Follows before ls (us ++ vs) (rs ++ rs') ls' := by
  constructor
  · rw [namesOf_append, List.length_append, List.length_append, h.length, h'.length]
  rw [occurrences_append h.length, ← List.append_assoc]
  cases h.follows with
  | taken hlawful htaken =>
    cases h'.follows with
    | taken hlawful' htaken' =>
      exact .taken (hlawful.append hlawful') (takeAll_append_eq_ok.mpr ⟨_, htaken, htaken'⟩)
    | refused hos hlawful' hwrong hus htaken' hrefused =>
      rw [List.append_assoc] at hwrong
      refine .refused (by rw [hos, List.append_assoc]) (hlawful.append hlawful') hwrong
        (by rw [hus, List.append_assoc]) (takeAll_append_eq_ok.mpr ⟨_, htaken, htaken'⟩) hrefused
  | refused hos hlawful hwrong hus htaken hrefused =>
    exact .refused (by rw [hos, List.append_assoc, List.cons_append]) hlawful hwrong
      (by rw [hus, List.append_assoc, List.cons_append]) htaken hrefused

/-- A goal that the first token does not begin may stand in front. -/
theorem pass (hg : g.start? = some k) (ht : t.kind ≠ k)
    (h : Follows before (⟨scope, name, gs⟩ :: rest) (t :: us) rs ls') :
    Follows before (⟨scope, name, g :: gs⟩ :: rest) (t :: us) rs ls' := by
  have hmove : moveOf name t (g :: gs) = moveOf name t gs :=
    moveOf_cons_of_passesOn ((Goal.passesOn_eq_true hg).mpr ht)
  have htake : take [] (framesAt before (⟨scope, name, g :: gs⟩ :: rest)) t =
      take [] (framesAt before (⟨scope, name, gs⟩ :: rest)) t := by
    show moveOf name t (g :: gs) >>= _ = moveOf name t gs >>= _
    rw [hmove]
    rfl
  refine ⟨h.length, ?_⟩
  cases h.follows with
  | taken hlawful htaken =>
    refine .taken hlawful ?_
    rwa [takeAll_cons, htake, ← takeAll_cons]
  | @refused os₁ os₂ o vs behind mid hos hlawful hwrong hus htaken hrefused =>
    cases vs with
    | nil =>
      cases htaken
      obtain ⟨rfl, -⟩ := List.cons.inj hus
      exact .refused hos hlawful hwrong hus rfl ⟨htake.trans hrefused.refused, hrefused.opening⟩
    | cons u vs =>
      obtain ⟨rfl, -⟩ := List.cons.inj hus
      refine .refused hos hlawful hwrong hus ?_ hrefused
      rwa [takeAll_cons, htake, ← takeAll_cons]

/-! ### Single tokens -/

/-- A token that is no name is taken, and the others behind it. -/
theorem ofOther (hk : t.kind ≠ .identifier)
    (htaken : take [] (framesAt before ls) t = .ok (framesAt before mid))
    (h : Follows before mid us rs ls') : Follows before ls (t :: us) rs ls' := by
  have hos : occurrences [t] [] = [] := List.zipWith_nil_right
  have hone : Follows before ls [t] [] mid := by
    refine ⟨by rw [namesOf_of_ne hk]; rfl, ?_⟩
    rw [hos, List.append_nil]
    exact .taken noneViolates_nil (takeAll_cons_eq_ok.mpr ⟨_, htaken, rfl⟩)
  have hmore : Follows (before ++ occurrences [t] []) mid us rs ls' := by
    rwa [hos, List.append_nil]
  exact hone.append hmore

theorem read (hm : moveOf name t gs = .ok ⟨.read, gs'⟩) (hk : t.kind ≠ .identifier)
    (h : Follows before (⟨scope, name, gs'⟩ :: rest) us rs ls') :
    Follows before (⟨scope, name, gs⟩ :: rest) (t :: us) rs ls' :=
  ofOther hk (take_framesAt hm) h

/-- The end of a procedure. -/
theorem leave (hk : t.kind = .semicolon) (h : Follows before rest us rs ls') :
    Follows before (⟨scope, name, [.close]⟩ :: rest) (t :: us) rs ls' := by
  have hmove : moveOf name t [.close] = .ok ⟨.leave, []⟩ := (Goal.Moves.close hk).moveOf_eq
  exact ofOther (by rw [hk]; decide) (take_framesAt hmove) h

theorem occurrences_singleton (hk : t.kind = .identifier) (r : Role) :
    occurrences [t] [r] = [⟨t, r⟩] := by
  rw [occurrences, namesOf_of_identifier hk]
  rfl

/-- A name is taken, or refused if it is wrong. -/
theorem ofName {r : Role} (hk : t.kind = .identifier)
    (htaken : ¬ Occurrence.Violates before ⟨t, r⟩ →
      take [] (framesAt before ls) t = .ok (framesAt (before ++ [⟨t, r⟩]) mid))
    (hrefused : Occurrence.Violates before ⟨t, r⟩ → RefusedAt (framesAt before ls) ⟨t, r⟩)
    (h : Follows (before ++ [⟨t, r⟩]) mid us rs ls') :
    Follows before ls (t :: us) (r :: rs) ls' := by
  have hone : Follows before ls [t] [r] mid := by
    refine ⟨by rw [namesOf_of_identifier hk]; rfl, ?_⟩
    rw [occurrences_singleton hk]
    by_cases hwrong : Occurrence.Violates before ⟨t, r⟩
    · have hwrong' : Occurrence.Violates (before ++ []) ⟨t, r⟩ := by rwa [List.append_nil]
      exact FollowsTo.refused (List.nil_append _).symm noneViolates_nil hwrong'
        (List.nil_append _).symm takeAll_nil (hrefused hwrong)
    · exact .taken (noneViolates_singleton.mpr hwrong)
        (takeAll_cons_eq_ok.mpr ⟨_, htaken hwrong, rfl⟩)
  have hmore : Follows (before ++ occurrences [t] [r]) mid us rs ls' := by
    rwa [occurrences_singleton hk]
  exact hone.append hmore

theorem declare (hrest : Encloses rest scope) (hk : t.kind = .identifier)
    (hm : moveOf name t gs = .ok ⟨.declare, gs'⟩)
    (h : Follows (before ++ [⟨t, .declares scope⟩]) (⟨scope, name, gs'⟩ :: rest) us rs ls') :
    Follows before (⟨scope, name, gs⟩ :: rest) (t :: us) (.declares scope :: rs) ls' := by
  refine ofName hk (fun hlawful => ?_) (fun hwrong => ⟨?_, fun _ hy => by cases hy⟩) h
  · rw [take_framesAt hm, hrest.framesAt_declare]
    exact if_neg fun hold => hlawful (mem_declaredNames.mp hold)
  · rw [take_framesAt hm]
    exact if_pos (mem_declaredNames.mpr hwrong)

theorem use (hrest : Encloses rest scope) (hk : t.kind = .identifier)
    (hm : moveOf name t gs = .ok ⟨.use, gs'⟩)
    (h : Follows (before ++ [⟨t, .uses scope⟩]) (⟨scope, name, gs'⟩ :: rest) us rs ls') :
    Follows before (⟨scope, name, gs⟩ :: rest) (t :: us) (.uses scope :: rs) ls' := by
  have hvisible : Visible [] (framesAt before (⟨scope, name, gs'⟩ :: rest)) t.lexeme ↔ _ :=
    hrest.visible_iff
  refine ofName hk (fun hlawful => ?_) (fun hwrong => ⟨?_, fun _ hy => by cases hy⟩) h
  · have hseen : ∃ outer, outer <:+ scope ∧ DeclaredIn before outer t.lexeme := by
      by_contra hno
      exact hlawful fun outer ho hd => hno ⟨outer, ho, hd⟩
    have hsame : framesAt (before ++ [⟨t, .uses scope⟩]) (⟨scope, name, gs'⟩ :: rest) = _ :=
      framesAt_concat_of_ne _ fun _ heq => by cases heq
    rw [take_framesAt hm, hsame]
    exact if_pos (hvisible.mpr hseen)
  · rw [take_framesAt hm]
    refine if_neg fun hseen => ?_
    obtain ⟨outer, ho, hd⟩ := hvisible.mp hseen
    exact hwrong outer ho hd

/-- The name of a procedure is declared around it, and the scope of the procedure is opened. -/
theorem enter (hrest : Encloses rest scope) (hk : t.kind = .identifier)
    (hm : moveOf name t gs = .ok ⟨.enter, gs'⟩) {number : Nat}
    (hfresh : Fresh before (number :: scope))
    (h : Follows (before ++ [⟨t, .declares scope⟩])
      (⟨number :: scope, t.lexeme, Goal.procedure⟩ :: ⟨scope, name, gs'⟩ :: rest) us rs ls') :
    Follows before (⟨scope, name, gs⟩ :: rest) (t :: us) (.declares scope :: rs) ls' := by
  refine ofName hk (fun hlawful => ?_) (fun hwrong => ⟨?_, fun _ hy => by cases hy⟩) h
  · have hempty : declaredNames (before ++ [⟨t, .declares scope⟩]) (number :: scope) = [] := by
      refine declaredNames_eq_nil fun o ho hrole => ?_
      rcases List.mem_append.mp ho with ho | ho
      · exact hfresh _ List.suffix_rfl o ho hrole
      · rw [List.mem_singleton.mp ho] at hrole
        have heq : scope = number :: scope := Role.declares.inj hrole
        exact absurd (congrArg List.length heq) (by simp)
    show _ = Except.ok (_ :: framesAt _ (⟨scope, name, gs'⟩ :: rest))
    rw [take_framesAt hm, hrest.framesAt_declare, OpenScope.frame, hempty]
    exact if_neg fun hold => hlawful (mem_declaredNames.mp hold)
  · rw [take_framesAt hm]
    exact if_pos (mem_declaredNames.mpr hwrong)

/-- The name behind the last statement of a procedure. -/
theorem close (hk : t.kind = .identifier)
    (h : Follows (before ++ [⟨t, .closes name⟩]) (⟨scope, name, gs⟩ :: rest) us rs ls') :
    Follows before (⟨scope, name, .closingName :: gs⟩ :: rest) (t :: us) (.closes name :: rs)
      ls' := by
  refine ofName hk (fun hlawful => ?_) (fun hwrong => ⟨take_of_refused ?_, fun y hy => ?_⟩) h
  · have hmove : moveOf name t (.closingName :: gs) = .ok ⟨.read, gs⟩ :=
      (Goal.Moves.closingName (not_not.mp hlawful) hk).moveOf_eq
    have hsame : framesAt (before ++ [⟨t, .closes name⟩]) (⟨scope, name, gs⟩ :: rest) = _ :=
      framesAt_concat_of_ne _ fun _ heq => by cases heq
    rw [take_framesAt hmove, hsame]
    rfl
  · show moveOf name t (.closingName :: gs) = _
    rw [moveOf_cons_of_none rfl, Goal.move, if_neg hwrong]
    rfl
  · cases hy
    rfl

end Follows

end ProcLang
