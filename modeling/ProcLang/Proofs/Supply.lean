import ProcLang.Proofs.Ending

/-!
# What a source supplies

A source supplies tokens one after another (`Supplies`). Every token brings the source nearer to its
end, which is what bounds the depth of the recursion of an analysis: the budget of a state goes down
whenever a token other than the end token is taken (`Takes.budget_lt`).
-/

namespace ProcLang

/-! ## Nearer to the end -/

namespace Lexer

theorem lexeme?_ne_nil {cs : List Char} {kind : Kind} {lexeme : List Char}
    (h : lexeme? cs = some (kind, lexeme)) (hcs : cs ≠ []) : lexeme ≠ [] := by
  unfold lexeme? at h
  obtain ⟨k, hfind, heq⟩ := Option.map_eq_some_iff.mp h
  have hlong : k.longest cs ≠ 0 := by simpa using List.find?_some hfind
  obtain ⟨-, rfl⟩ := Prod.mk.inj heq
  rw [Ne, List.take_eq_nil_iff]
  exact fun hn => hn.elim hlong hcs

theorem length_rest_scan {l l' : Lexer} {t : Token} (h : l.scan = (.ok t, l')) :
    l'.rest.length < l.rest.length ∨ l'.rest.length = 0 ∧ t.kind = .endOfInput := by
  unfold scan at h
  split at h
  · next hrest =>
    obtain ⟨hok, rfl⟩ := Prod.mk.inj h
    cases hok
    exact Or.inr ⟨by rw [hrest]; rfl, rfl⟩
  · next c cs hrest =>
    split at h
    · next kind lexeme hlex =>
      obtain ⟨-, rfl⟩ := Prod.mk.inj h
      have hpos : 0 < lexeme.length :=
        List.length_pos_iff.mpr (lexeme?_ne_nil hlex (by rw [hrest]; exact List.cons_ne_nil _ _))
      left
      simp only [advance, List.length_drop, hrest, List.length_cons]
      omega
    · cases (Prod.mk.inj h).1

theorem length_rest_next {l l' : Lexer} {t : Token} (h : l.next = (.ok t, l')) :
    l'.rest.length < l.rest.length ∨ l'.rest.length = 0 ∧ t.kind = .endOfInput := by
  unfold next at h
  split at h
  · cases (Prod.mk.inj h).1
  · have hgap : l.skipGap.rest.length ≤ l.rest.length := by simp [skipGap, advance]
    exact (length_rest_scan h).imp_left fun hlt => Nat.lt_of_lt_of_le hlt hgap

end Lexer

namespace TokenSource

variable {source source' : TokenSource} {t : Token}

theorem bound_next (h : source.next = (.ok t, source')) :
    source'.bound < source.bound ∨ source'.bound = 0 ∧ t.kind = .endOfInput := by
  unfold next at h
  split at h
  · next lexer =>
    obtain ⟨hok, rfl⟩ := Prod.mk.inj h
    exact Lexer.length_rest_next (Prod.ext hok rfl)
  · next tokens =>
    obtain ⟨hok, rfl⟩ := Prod.mk.inj h
    cases hok
    obtain ⟨ahead, asked, lastLine⟩ := tokens
    cases ahead with
    | nil => exact Or.inr ⟨rfl, rfl⟩
    | cons u rest => exact Or.inl (Nat.lt_succ_self _)
  · obtain ⟨-, rfl⟩ := Prod.mk.inj h
    exact Or.inl (Nat.lt_succ_self _)
  · next last =>
    obtain ⟨hok, rfl⟩ := Prod.mk.inj h
    cases last with
    | endOfInput line =>
      cases hok
      exact Or.inr ⟨rfl, rfl⟩
    | failure e => cases hok

/-- The source supplies the tokens, and then it is the source `source'`. -/
def Supplies (source : TokenSource) : List Token → TokenSource → Prop
  | [], source' => source' = source
  | t :: ts, source' => ∃ mid, source.next = (.ok t, mid) ∧ Supplies mid ts source'

theorem supplies_append {ts us : List Token} {last : TokenSource} :
    source.Supplies (ts ++ us) last ↔
      ∃ mid, source.Supplies ts mid ∧ mid.Supplies us last := by
  induction ts generalizing source with
  | nil =>
    constructor
    · exact fun h => ⟨source, rfl, h⟩
    · rintro ⟨mid, rfl, h⟩
      exact h
  | cons t ts ih =>
    constructor
    · rintro ⟨first, ht, h⟩
      obtain ⟨mid, hts, hus⟩ := ih.mp h
      exact ⟨mid, ⟨first, ht, hts⟩, hus⟩
    · rintro ⟨mid, ⟨first, ht, hts⟩, hus⟩
      exact ⟨first, ht, ih.mpr ⟨mid, hts, hus⟩⟩

theorem Supplies.concat {ts : List Token} {last : TokenSource} (h : source.Supplies ts source')
    (hn : source'.next = (.ok t, last)) : source.Supplies (ts ++ [t]) last :=
  supplies_append.mpr ⟨source', h, last, hn, rfl⟩

/-- A stream that breaks off supplies no more than its tokens. -/
theorem eq_append_of_supplies_stream {tokens ts : List Token} {e : ScanError}
    (h : (stream tokens (.failure e)).Supplies ts source') :
    ∃ more, tokens = ts ++ more ∧ source' = .stream more (.failure e) := by
  induction ts generalizing tokens with
  | nil => exact ⟨tokens, rfl, h⟩
  | cons t ts ih =>
    obtain ⟨mid, hn, hts⟩ := h
    cases tokens with
    | nil => cases (Prod.mk.inj hn).1
    | cons u tokens =>
      obtain ⟨hu, rfl⟩ := Prod.mk.inj hn
      cases hu
      obtain ⟨more, rfl, hsource⟩ := ih hts
      exact ⟨more, rfl, hsource⟩

end TokenSource

/-! ## The budget of a state -/

namespace State

/-- A bound on the tokens that are left, the one looked at included. The end token is not counted
where the source is used up. -/
def budget (s : State) : Nat :=
  if s.source.bound = 0 ∧ s.current.any (·.kind = .endOfInput) then 0 else s.source.bound + 1

theorem budget_le (s : State) : s.budget ≤ s.source.bound + 1 := by
  unfold budget
  split
  · exact Nat.zero_le _
  · exact Nat.le_refl _

theorem budget_congr {s s' : State} (hsource : s'.source = s.source)
    (hcurrent : s'.current = s.current) : s'.budget = s.budget := by
  unfold budget
  rw [hsource, hcurrent]

/-- Where nothing is left the end token is looked at. -/
theorem kind_of_budget {s : State} {t : Token} (h : s.budget = 0) (ht : s.current = some t) :
    t.kind = .endOfInput := by
  unfold budget at h
  split at h
  · next hc => simpa [ht] using hc.2
  · exact absurd h (Nat.succ_ne_zero _)

end State

namespace Analysis

variable {t : Token} {s s' : State}

theorem Takes.budget_lt (h : Takes t s s') (hk : t.kind ≠ .endOfInput) : s'.budget < s.budget := by
  obtain ⟨u, source, ht, hn, rfl⟩ := h
  have hs : s.budget = s.source.bound + 1 := by
    unfold State.budget
    rw [if_neg]
    simp [ht, hk]
  rw [hs]
  rcases TokenSource.bound_next hn with hlt | ⟨hzero, hend⟩
  · exact Nat.lt_of_le_of_lt (State.budget_le _) (Nat.succ_lt_succ hlt)
  · unfold State.budget
    rw [if_pos ⟨hzero, by simpa using hend⟩]
    exact Nat.succ_pos _

theorem Takes.budget_le (h : Takes t s s') : s'.budget ≤ s.budget := by
  by_cases hk : t.kind = .endOfInput
  · obtain ⟨u, source, ht, hn, rfl⟩ := h
    rcases TokenSource.bound_next hn with hlt | ⟨hzero, hend⟩
    · have hs : s.budget = s.source.bound + 1 := by
        unfold State.budget
        rw [if_neg fun hc => Nat.not_lt_zero _ (hc.1 ▸ hlt)]
      rw [hs]
      exact Nat.le_of_lt (Nat.lt_of_le_of_lt (State.budget_le _) (Nat.succ_lt_succ hlt))
    · unfold State.budget
      rw [if_pos ⟨hzero, by simpa using hend⟩]
      exact Nat.zero_le _
  · exact Nat.le_of_lt (h.budget_lt hk)

/-- Where a token is taken a bound is not used up, and what is left of it is enough. -/
theorem Takes.exists_bound {n : Nat} (h : Takes t s s') (hk : t.kind ≠ .endOfInput)
    (hn : s.budget ≤ n) : ∃ m, n = m + 1 ∧ s'.budget ≤ m := by
  have hlt := h.budget_lt hk
  exact ⟨n - 1, by omega, by omega⟩

/-! ## Repetition -/

section Repetition

variable {kind : Kind} {step : Analysis Unit} {inv : State → Prop} {bad : Failure → State → Prop}

/-- A repetition keeps what every round keeps, and it ends at a token of another kind if every round
spends of the budget. -/
theorem ends_repeatUpTo (hkind : kind ≠ .endOfInput) (looks : ∀ s, inv s → s.current.isSome)
    (round : ∀ s t, inv s → s.current = some t → t.kind = kind →
      Ends step s (fun _ s' => inv s' ∧ s'.budget < s.budget) bad) :
    ∀ n s, s.budget ≤ n → inv s → Ends (repeatUpTo kind step n) s
      (fun _ s' => inv s' ∧ s'.budget ≤ s.budget ∧ ∀ t, s'.current = some t → t.kind ≠ kind)
      bad := by
  intro n
  induction n with
  | zero =>
    intro s hn hs
    refine ⟨hs, Nat.le_refl _, fun t ht hk => hkind ?_⟩
    rw [← hk]
    exact State.kind_of_budget (Nat.le_zero.mp hn) ht
  | succ n ih =>
    intro s hn hs
    obtain ⟨t, ht⟩ := Option.isSome_iff_exists.mp (looks s hs)
    unfold repeatUpTo
    rw [ends_bind, ends_atKind ht]
    by_cases hk : t.kind = kind
    · simp only [hk, decide_true, if_true]
      refine (round s t hs ht hk).andThen ?_
      rintro - s' ⟨hs', hlt⟩
      refine (ih s' (by omega) hs').imp ?_
      rintro - s'' ⟨hs'', hle, hend⟩
      exact ⟨hs'', by omega, hend⟩
    · simp only [hk, decide_false, Bool.false_eq_true, if_false, ends_pure]
      exact ⟨hs, Nat.le_refl _, fun u hu => by cases ht.symm.trans hu; exact hk⟩

theorem ends_whileKind (hkind : kind ≠ .endOfInput) (looks : ∀ s, inv s → s.current.isSome)
    (round : ∀ s t, inv s → s.current = some t → t.kind = kind →
      Ends step s (fun _ s' => inv s' ∧ s'.budget < s.budget) bad) {s : State} (hs : inv s) :
    Ends (whileKind kind step) s
      (fun _ s' => inv s' ∧ s'.budget ≤ s.budget ∧ ∀ t, s'.current = some t → t.kind ≠ kind)
      bad := by
  obtain ⟨t, ht⟩ := Option.isSome_iff_exists.mp (looks s hs)
  unfold whileKind
  rw [ends_bind, ends_atKind ht]
  by_cases hk : t.kind = kind
  · simp only [hk, decide_true, if_true]
    exact ends_repeatUpTo hkind looks round _ s s.budget_le hs
  · simp only [hk, decide_false, Bool.false_eq_true, if_false, ends_pure]
    exact ⟨hs, Nat.le_refl _, fun u hu => by cases ht.symm.trans hu; exact hk⟩

end Repetition

end Analysis

end ProcLang
