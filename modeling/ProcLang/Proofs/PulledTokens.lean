import ProcLang.Proofs.OnDemand

/-!
# The tokens that a run has pulled

A run over a list has asked for the tokens that it has taken and for one more (`ends_asked`). So a
run that fails without an end token of its own sees the first tokens of its list and nothing else:
over every list that begins with them the run fails in the same way (`same_of_agree`).
-/

namespace ProcLang

namespace TokenSource

variable {l : TokenList} {source last : TokenSource} {ts us : List Token}

/-- A list counts the tokens that it supplies. -/
theorem Supplies.exists_asked (h : (list l).Supplies ts source) :
    ∃ l', source = .list l' ∧ l'.asked = l.asked + ts.length := by
  induction ts generalizing l with
  | nil => exact ⟨l, h, rfl⟩
  | cons t ts ih =>
    obtain ⟨mid, hn, h⟩ := h
    obtain rfl : list l.next.2 = mid := (Prod.mk.inj hn).2
    obtain ⟨l', hsource, hasked⟩ := ih h
    have hnext : l.next.2.asked = l.asked + 1 := by
      unfold TokenList.next
      split <;> rfl
    exact ⟨l', hsource, by rw [hasked, hnext, List.length_cons]; omega⟩

/-- A list always gives a token. -/
theorem next_list_ne_error {e : ScanError} : (list l).next ≠ (.error e, last) := fun h => by
  cases (Prod.mk.inj h).1

theorem Supplies.eq_of_length (h : source.Supplies ts last) {last' : TokenSource}
    (h' : source.Supplies us last') (hlength : ts.length = us.length) : ts = us := by
  rcases h.prefix_or h' with hstart | hstart
  · exact hstart.eq_of_length hlength
  · exact (hstart.eq_of_length hlength.symm).symm

/-- A list supplies the tokens that it begins with. -/
theorem exists_supplies_ofList_append (ts us : List Token) :
    ∃ last, (ofList (ts ++ us)).Supplies ts last := by
  obtain ⟨line, last, h⟩ := supplies_ofList (ts ++ us)
  rw [List.append_assoc] at h
  obtain ⟨mid, hts, -⟩ := supplies_append.mp h
  exact ⟨mid, hts⟩

end TokenSource

namespace Analysis

variable {source mid : TokenSource} {l : TokenList} {tracing : Bool} {ts as bs : List Token}
  {e : Failure}

/-! ## Counting -/

/-- One more token has been asked for than were taken. -/
def OneAhead (l : TokenList) (s : State) : Prop :=
  ∃ l', s.source = .list l' ∧ l'.asked = l.asked + s.matched.length + 1

theorem oneAhead_of_supplies {s : State} {taken : List Token} {t : Token}
    (h : (TokenSource.list l).Supplies (taken ++ [t]) s.source) (hm : s.matched = taken.reverse) :
    OneAhead l s := by
  obtain ⟨l', hsource, hasked⟩ := h.exists_asked
  refine ⟨l', hsource, ?_⟩
  rw [hasked, hm, List.length_append, List.length_reverse, List.length_singleton, Nat.add_assoc]

theorem ends_asked (l : TokenList) (tracing : Bool) :
    Ends analyze (.ofSource (.list l) tracing) (fun _ => OneAhead l) fun _ => OneAhead l := by
  have hlooked : ∀ {b f rest s t}, Begun (.ofSource (.list l) tracing) b → Stands b f rest s →
      s.current = some t → OneAhead l s := by
    intro b f rest s t hbegun hstands ht
    obtain ⟨taken, hm, hsupply, -⟩ := hbegun.exists_taken hstands.reads ht
    exact oneAhead_of_supplies hsupply hm
  refine ends_unwinding.mpr ((ends_analysisSteps _ _).mono ?_ ?_)
  · rintro - s ⟨b, names, s₁, t, hbegun, hstands, -, ht, -, hr⟩
    obtain ⟨l', hsource, hasked⟩ := hlooked hbegun hstands ht
    exact ⟨l', hr.source.trans hsource, by rw [hasked, hr.matched]⟩
  intro e s hstops
  show OneAhead l s
  have htaken : ∀ {b f rest s₁ t}, Begun (.ofSource (.list l) tracing) b → Stands b f rest s₁ →
      Takes t s₁ s → OneAhead l s := by
    intro b f rest s₁ t hbegun hstands htakes
    obtain ⟨u, source, ht, hn, rfl⟩ := htakes
    obtain ⟨taken, hm, hsupply, -⟩ := hbegun.exists_taken hstands.reads ht
    exact oneAhead_of_supplies (hsupply.concat hn) (by simp [hm])
  cases hstops with
  | noToken hn => exact absurd hn TokenSource.next_list_ne_error
  | unconsumed hbegun hstands _ ht => exact hlooked hbegun hstands ht
  | stops hbegun hstops =>
    cases hstops with
    | unexpected hstands _ ht | undefined hstands _ ht | otherClosingName hstands _ ht =>
      exact hlooked hbegun hstands ht
    | duplicate hstands _ htakes | numeral hstands _ htakes => exact htaken hbegun hstands htakes
    | @breaks _ _ s₁ _ _ _ hstands _ _ hbreaks =>
      -- no error stands behind the tokens of a list
      obtain ⟨source, ht, hn, -⟩ := hbreaks
      obtain ⟨taken, -, hsupply, -⟩ := hbegun.exists_taken hstands.reads ht
      obtain ⟨l', hsource, -⟩ := hsupply.exists_asked
      rw [hsource] at hn
      exact absurd hn TokenSource.next_list_ne_error

theorem OneAhead.of_ofList {s : State} (h : OneAhead (.ofList ts) s) :
    ∃ l, s.source = .list l ∧ l.asked = s.matched.length + 1 := by
  obtain ⟨l, hsource, hasked⟩ := h
  refine ⟨l, hsource, hasked.trans ?_⟩
  show 0 + _ + 1 = _
  rw [Nat.zero_add]

theorem exists_asked_of_failure (h : (Outcome.ofSource (.ofList ts) tracing).failure = some e) :
    ∃ l, (Outcome.ofSource (.ofList ts) tracing).state.source = .list l ∧
      l.asked = (Outcome.ofSource (.ofList ts) tracing).state.matched.length + 1 :=
  ((ends_asked (.ofList ts) tracing).outcome_ofSource.2 e h).of_ofList

theorem exists_asked (ts : List Token) (tracing : Bool) :
    ∃ l, (Outcome.ofSource (.ofList ts) tracing).state.source = .list l ∧
      l.asked = (Outcome.ofSource (.ofList ts) tracing).state.matched.length + 1 := by
  cases hf : (Outcome.ofSource (.ofList ts) tracing).failure with
  | none => exact ((ends_asked (.ofList ts) tracing).outcome_ofSource.1 hf).of_ofList
  | some e => exact exists_asked_of_failure hf

/-! ## Runs over the first tokens alone -/

/-- Where the run over tokens alone breaks off, they are taken up to the last one, which is not
refused when it is looked at. -/
theorem exists_last_of_breaks
    (h : (Outcome.ofSource (breakingOff ts) tracing).failure = some (.fault .sourceSpent)) :
    ts = [] ∨ ∃ taken t frames, ts = taken ++ [t] ∧ takeAll [] [.base []] taken = .ok frames ∧
      ∀ r, take [] frames t = .error r → r.isLate := by
  have hhalts := halts (breakingOff ts) tracing
  rw [h] at hhalts
  generalize he : Failure.fault .sourceSpent = e,
    (Outcome.ofSource (breakingOff ts) tracing).state.matched.reverse = all,
    (Outcome.ofSource (breakingOff ts) tracing).state.current = current at hhalts
  cases hhalts with
  | noToken hn =>
    cases ts with
    | nil => exact Or.inl rfl
    | cons t ts => cases (Prod.mk.inj hn).1
  | looked => cases he
  | breaks htaken hsupply hlate hn =>
    obtain ⟨more, rfl, rfl⟩ := TokenSource.eq_append_of_supplies_stream hsupply
    cases more with
    | nil => exact Or.inr ⟨_, _, _, List.append_nil _, htaken, hlate⟩
    | cons u more => cases (Prod.mk.inj hn).1
  | read _ _ _ _ _ _ hread =>
    subst he
    rcases hread with ⟨y, line, hno⟩ | ⟨err, hno⟩ <;> cases hno

/-- A run over a list that fails breaks off over the tokens that it has asked for neither. -/
theorem failure_ne_spent (h : source.Supplies ts mid)
    (hf : (Outcome.ofSource source tracing).failure = some e)
    (hlist : ∃ l, source = .list l)
    (hlength : ts.length = (Outcome.ofSource source tracing).state.matched.length + 1) :
    (Outcome.ofSource (breakingOff ts) tracing).failure ≠ some (.fault .sourceSpent) := by
  obtain ⟨l, rfl⟩ := hlist
  intro hspent
  rcases exists_last_of_breaks hspent with rfl | ⟨taken, t, frames, rfl, htaken, hlate⟩
  · cases hlength
  have hhalts := halts (.list l) tracing
  rw [hf] at hhalts
  generalize hall : (Outcome.ofSource (.list l) tracing).state.matched.reverse = all,
    (Outcome.ofSource (.list l) tracing).state.current = current at hhalts
  replace hlength : (taken ++ [t]).length = all.length + 1 := by
    rw [hlength, ← hall, List.length_reverse]
  -- no error stands behind the tokens of a list
  have hnext : ∀ {us mid' err last}, (TokenSource.list l).Supplies us mid' →
      mid'.next ≠ (.error err, last) := by
    intro us mid' err last hsupply
    obtain ⟨l', rfl, -⟩ := hsupply.exists_asked
    exact TokenSource.next_list_ne_error
  cases hhalts with
  | noToken hn => exact TokenSource.next_list_ne_error hn
  | breaks _ hsupply _ hn => exact hnext hsupply hn
  | looked htaken' hsupply hreports hearly =>
    have heq := h.eq_of_length hsupply (by simpa using hlength)
    obtain ⟨rfl, htt⟩ := List.append_inj' heq rfl
    cases htt
    cases htaken.symm.trans htaken'
    obtain ⟨r, hr⟩ := hreports.refused
    exact hearly r hr (hlate r hr)
  | read htaken' hsupply hn _ hr =>
    have heq := h.eq_of_length (hsupply.concat hn) (by simpa using hlength)
    obtain ⟨rfl, -⟩ := List.append_inj' heq rfl
    rw [takeAll_concat htaken'] at htaken
    cases hr.symm.trans htaken

/-- A run that fails over a list, and has not asked for more tokens than are in it, fails in the same
way over each list that begins with those asked for, and the state is the same but for the tokens
that are left. -/
theorem same_of_agree (hf : (Outcome.ofSource (.ofList as) tracing).failure = some e)
    (hl : (Outcome.ofSource (.ofList as) tracing).state.source = .list l)
    (hle : l.asked ≤ as.length) (hagree : bs.take l.asked = as.take l.asked) :
    (Outcome.ofSource (.ofList bs) tracing).failure = some e ∧
      ∃ l', l'.asked = l.asked ∧ (Outcome.ofSource (.ofList bs) tracing).state =
        { (Outcome.ofSource (.ofList as) tracing).state with source := .list l' } := by
  obtain ⟨l₁, hsource, hasked⟩ := exists_asked_of_failure hf
  obtain rfl : l = l₁ := TokenSource.list.inj (hl.symm.trans hsource)
  have hlength : (as.take l.asked).length = l.asked := List.length_take_of_le hle
  obtain ⟨mid, has⟩ := TokenSource.exists_supplies_ofList_append (as.take l.asked) (as.drop l.asked)
  obtain ⟨mid', hbs⟩ := TokenSource.exists_supplies_ofList_append (bs.take l.asked) (bs.drop l.asked)
  rw [List.take_append_drop] at has hbs
  rw [hagree] at hbs
  have hspent := failure_ne_spent has hf ⟨_, rfl⟩ (hlength.trans hasked)
  obtain ⟨hfailure, hstate⟩ := eq_of_not_breaks has hspent
  obtain ⟨hfailure', hstate'⟩ := eq_of_not_breaks hbs hspent
  have hf' : (Outcome.ofSource (.ofList bs) tracing).failure = some e := by
    rw [hfailure', ← hfailure, hf]
  refine ⟨hf', ?_⟩
  obtain ⟨l', hsource', hasked'⟩ := exists_asked_of_failure hf'
  refine ⟨l', ?_, ?_⟩
  · rw [hasked', hasked, hstate', hstate]
  · rw [← hsource', hstate, hstate']

end Analysis

end ProcLang
