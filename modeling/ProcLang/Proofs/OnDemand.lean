import ProcLang.Proofs.Faults
import ProcLang.Proofs.OpenScopes
import ProcLang.Proofs.TwoRuns

/-!
# Reading on demand

An analysis reads the tokens of a text on demand, one at a time. If all of them can be read it does
the same as over their list. If an unknown character stands behind the first tokens, it meets the
error exactly if it asks for a token behind them; else it fails as over any list that begins with
them. Both are cases of two runs over coupled sources.
-/

namespace ProcLang

/-! ## The end of a text -/

namespace Lexer

theorem skipGap_of_nil {l : Lexer} (h : l.rest = []) : l.skipGap = l := by
  obtain ⟨rest, position, line, stopped⟩ := l
  subst h
  rfl

/-- The end token is given again and again. -/
theorem next_of_endOfInput {l l' : Lexer} {t : Token} (h : l.next = (.ok t, l'))
    (hk : t.kind = .endOfInput) : l'.next = (.ok t, l') := by
  have hstopped := stopped_of_next h
  unfold next at h ⊢
  rw [if_neg (by rw [hstopped]; exact Bool.false_ne_true)]
  split at h
  · cases (Prod.mk.inj h).1
  · unfold scan at h
    split at h
    · next hnil =>
      obtain ⟨hok, rfl⟩ := Prod.mk.inj h
      cases hok
      rw [skipGap_of_nil hnil, scan, hnil]
    · split at h
      · next hlexeme =>
        cases (Prod.mk.inj h).1
        exact absurd hk (kind_ne_endOfInput_of_lexeme? hlexeme)
      · cases (Prod.mk.inj h).1

/-- The tokens in front of an unknown character are supplied, and then the error is given. -/
theorem exists_supplies_of_error {n : Nat} {l : Lexer} {e : ScanError}
    (h : (readUpTo n l).1 = .error e) :
    ∃ ts mid last, (TokenSource.text l).Supplies ts mid ∧ mid.next = (.error e, last) := by
  induction n generalizing l with
  | zero => cases h
  | succ n ih =>
    rw [readUpTo] at h
    split at h
    · next e' l' hnext =>
      cases h
      exact ⟨[], _, .text l', rfl, by rw [TokenSource.next, hnext]⟩
    · next t l' hnext =>
      split at h
      · cases h
      · split at h
        · cases h
        · next e' l'' hrest =>
          cases h
          obtain ⟨ts, mid, last, hs, hn⟩ := ih (l := l') (by rw [hrest])
          exact ⟨t :: ts, mid, last, ⟨.text l', by rw [TokenSource.next, hnext], hs⟩, hn⟩

end Lexer

namespace TokenSource

/-! ## A text and the list of its tokens -/

/-- The list holds the tokens that are left of the text, or the text is used up and the list gives
the same end token. -/
def ReadsAs : TokenSource → TokenSource → Prop
  | text l, list ⟨ahead, _, line⟩ =>
    (∃ n, l.rest.length < n ∧ (l.readUpTo n).1 = .ok ahead ∧
        ahead.getLast?.map Token.line = some line) ∨
      ahead = [] ∧ l.next = (.ok (.endOfInput line), l)
  | _, _ => False

theorem readUpTo_ne_nil {n : Nat} {l : Lexer} : (l.readUpTo (n + 1)).1 ≠ .ok [] := by
  rw [Lexer.readUpTo]
  split
  · simp
  · split
    · simp
    · split <;> simp

/-- One reading gives the same token of both, by the recursion in which the tokens are read. -/
theorem ReadsAs.exists_next {l : Lexer} {ahead : List Token} {asked : Nat} {line : Int}
    (h : ReadsAs (text l) (list ⟨ahead, asked, line⟩)) :
    ∃ t l' tokens, l.next = (.ok t, l') ∧
      (list ⟨ahead, asked, line⟩).next = (.ok t, list tokens) ∧
      ReadsAs (text l') (list tokens) := by
  rcases h with ⟨n, hn, hread, hline⟩ | ⟨rfl, hend⟩
  · obtain ⟨n, rfl⟩ := Nat.exists_eq_succ_of_ne_zero (Nat.ne_zero_of_lt hn)
    rw [Lexer.readUpTo] at hread
    split at hread
    · cases hread
    · next t l' hnext =>
      split at hread
      · next hk =>
        cases hread
        obtain ⟨line', rfl⟩ := Token.IsScanned.eq_endOfInput ⟨l, l', hnext⟩ hk
        cases hline
        exact ⟨_, l', _, hnext, rfl, Or.inr ⟨rfl, Lexer.next_of_endOfInput hnext rfl⟩⟩
      · next hk =>
        split at hread
        · next ts l'' hrest =>
          cases hread
          have hlt : l'.rest.length < n := by
            rcases Lexer.length_rest_next hnext with hlt | ⟨-, hend⟩
            · omega
            · exact absurd hend hk
          obtain ⟨m, rfl⟩ := Nat.exists_eq_succ_of_ne_zero (Nat.ne_zero_of_lt hlt)
          have hne : ts ≠ [] := by
            rintro rfl
            exact readUpTo_ne_nil (congrArg Prod.fst hrest)
          rw [List.getLast?_cons_of_ne_nil hne] at hline
          exact ⟨t, l', _, hnext, rfl, Or.inl ⟨_, hlt, by rw [hrest], hline⟩⟩
        · cases hread
  · exact ⟨_, l, _, hend, rfl, Or.inr ⟨rfl, hend⟩⟩

/-- A text goes along with the list that it reads as. -/
def readingAs : Analysis.Coupling where
  sources := ReadsAs
  lost _ := False
  traces := Eq

theorem coupled_readingAs : Analysis.Coupled readingAs := by
  -- only a text and a list go together
  have hnext : ∀ {a b}, ReadsAs a b → ∃ t a' b', a.next = (.ok t, a') ∧ b.next = (.ok t, b') ∧
      ReadsAs a' b' := by
    intro a b h
    cases a with
    | text l =>
      cases b with
      | list tokens =>
        obtain ⟨t, l', tokens', hl, hb, h'⟩ := h.exists_next
        exact ⟨t, .text l', _, by rw [next, hl], hb, h'⟩
      | _ => exact h.elim
    | _ => exact h.elim
  refine ⟨⟨?token, ?error⟩, ?snapshot⟩
  case token =>
    intro a a' b t h hn
    obtain ⟨t', a'', b', ha, hb, h'⟩ := hnext h
    cases hn.symm.trans ha
    exact ⟨b', hb, h'⟩
  case error =>
    intro a a' b e h hn
    obtain ⟨t', a'', b', ha, -⟩ := hnext h
    cases hn.symm.trans ha
  case snapshot =>
    rintro t t' shot rfl
    rfl

theorem readsAs_ofList {source : String} {ts : List Token} (h : Lexer.tokenize source = .ok ts) :
    ReadsAs (ofText source) (ofList ts) := by
  have hne : ts ≠ [] := by
    rintro rfl
    exact readUpTo_ne_nil h
  obtain ⟨t, ht⟩ := Option.isSome_iff_exists.mp (List.getLast?_isSome.mpr hne)
  exact Or.inl ⟨_, Nat.lt_succ_self _, h, by rw [ht]; rfl⟩

/-! ## A text that breaks off and its first tokens -/

/-- What the first source supplies the second one supplies too, and the errors of the first one are
among the given ones. -/
def Leads (errors : ScanError → Prop) (a b : TokenSource) : Prop :=
  ∀ us a', a.Supplies us a' → (∃ b', b.Supplies us b') ∧ ∀ e last, a'.next = (.error e, last) →
    errors e

/-- A source goes along with one that it leads. The run is lost with the error behind its tokens. -/
def leading (errors : ScanError → Prop) : Analysis.Coupling where
  sources := Leads errors
  lost := errors
  traces := Eq

theorem coupled_leading (errors : ScanError → Prop) : Analysis.Coupled (leading errors) := by
  refine ⟨⟨?token, ?error⟩, ?snapshot⟩
  case token =>
    intro a a' b t h hn
    obtain ⟨⟨_, b', hb, -⟩, -⟩ := h [t] a' ⟨a', hn, rfl⟩
    refine ⟨b', hb, fun us a'' hs => ?_⟩
    obtain ⟨⟨b'', mid, hmid, hb''⟩, herrors⟩ := h (t :: us) a'' ⟨a', hn, hs⟩
    obtain rfl : b' = mid := (Prod.mk.inj (hb.symm.trans hmid)).2
    exact ⟨⟨b'', hb''⟩, herrors⟩
  case error =>
    intro a a' b e h hn
    exact Or.inl ((h [] a rfl).2 e a' hn)
  case snapshot =>
    rintro t t' shot rfl
    rfl

open Analysis (breakingOff)

variable {source mid last : TokenSource} {ts : List Token} {e : ScanError}

theorem leads_of_supplies (h : source.Supplies ts mid) :
    Leads (· = .spent) (breakingOff ts) source := by
  intro us a' hs
  obtain ⟨more, rfl, rfl⟩ := eq_append_of_supplies_stream hs
  obtain ⟨b', hb', -⟩ := supplies_append.mp h
  refine ⟨⟨b', hb'⟩, fun e last hn => ?_⟩
  cases more with
  | nil =>
    cases hn
    rfl
  | cons t more => cases (Prod.mk.inj hn).1

/-- A source supplies no more than the tokens in front of its error. -/
theorem Supplies.prefix_of_error (h : source.Supplies ts mid) (hn : mid.next = (.error e, last))
    {us : List Token} {source' : TokenSource} (hs : source.Supplies us source') : us <+: ts := by
  rcases hs.prefix_or h with hprefix | ⟨more, rfl⟩
  · exact hprefix
  · cases more with
    | nil => rw [List.append_nil]
    | cons t more =>
      obtain ⟨next, hn'⟩ := hs.exists_next h
      cases (Prod.mk.inj (hn.symm.trans hn')).1

theorem supplies_breakingOff (us more : List Token) :
    (breakingOff (us ++ more)).Supplies us (breakingOff more) := by
  induction us with
  | nil => rfl
  | cons u us ih => exact ⟨breakingOff (us ++ more), rfl, ih⟩

theorem leads_breakingOff (h : source.Supplies ts mid) (hn : mid.next = (.error e, last)) :
    Leads (· = e) source (breakingOff ts) := by
  intro us a' hs
  obtain ⟨more, rfl⟩ := h.prefix_of_error hn hs
  refine ⟨⟨_, supplies_breakingOff us more⟩, fun e' last' hn' => ?_⟩
  cases more with
  | nil =>
    rw [List.append_nil] at h
    obtain rfl := h.unique hs
    cases (Prod.mk.inj (hn.symm.trans hn')).1
    rfl
  | cons t more =>
    obtain ⟨next, hnext⟩ := h.exists_next hs
    cases (Prod.mk.inj (hnext.symm.trans hn')).1

theorem Supplies.of_endOfInput {l : Lexer} {t : Token} (hnext : l.next = (.ok t, l))
    (h : (text l).Supplies ts mid) : mid = text l := by
  induction ts with
  | nil => exact h
  | cons u us ih =>
    obtain ⟨first, hu, hs⟩ := h
    rw [next, hnext] at hu
    cases (Prod.mk.inj hu).2
    exact ih hs

/-- No end token stands in front of an unknown character. -/
theorem Supplies.kind_ne_endOfInput {l : Lexer} (h : (text l).Supplies ts mid)
    (hn : mid.next = (.error e, last)) : ∀ t ∈ ts, t.kind ≠ .endOfInput := by
  induction ts generalizing l with
  | nil => exact fun _ hm => absurd hm List.not_mem_nil
  | cons t ts ih =>
    obtain ⟨_, hnext, hs⟩ := h
    obtain ⟨hok, rfl⟩ := Prod.mk.inj hnext
    have hnext : l.next = (.ok t, l.next.2) := Prod.ext hok rfl
    refine List.forall_mem_cons.mpr ⟨fun hk => ?_, ih hs⟩
    have hagain := Lexer.next_of_endOfInput hnext hk
    obtain rfl := Supplies.of_endOfInput hagain hs
    rw [next, hagain] at hn
    cases (Prod.mk.inj hn).1

end TokenSource

namespace Analysis

variable {source mid last : TokenSource} {tracing : Bool} {ts : List Token} {e : ScanError}

/-! ## Failures that come from the source -/

/-- A run that fails with an error of its source has met it behind tokens that were supplied. -/
theorem exists_error_of_failure {err : ScanError}
    (h : (Outcome.ofSource source tracing).failure = some (.ofScanError err)) :
    ∃ us mid last, source.Supplies us mid ∧ mid.next = (.error err, last) := by
  obtain ⟨s, hstops, -⟩ := (ends_analyze_verdict source tracing).outcome_ofSource.2 _ h
  generalize he : Failure.ofScanError err = e at hstops
  cases hstops with
  | @noToken err' source' hn =>
    obtain rfl : err = err' := by cases err <;> cases err' <;> cases he <;> rfl
    exact ⟨[], source, source', rfl, hn⟩
  | unconsumed => cases err <;> cases he
  | stops hbegun hstops =>
    cases hstops with
    | @breaks _ _ _ _ _ err' hstands _ _ hbreaks =>
      obtain rfl : err = err' := by cases err <;> cases err' <;> cases he <;> rfl
      obtain ⟨source', ht, hn, -⟩ := hbreaks
      obtain ⟨taken, -, hsupply, -⟩ := hbegun.exists_taken hstands.reads ht
      exact ⟨_, _, source', hsupply, hn⟩
    | _ => cases err <;> cases he

/-- A run that succeeds has been supplied with an end token. -/
theorem exists_endOfInput_of_success (h : (Outcome.ofSource source tracing).failure = none) :
    ∃ us mid, source.Supplies us mid ∧ ∃ t ∈ us, t.kind = .endOfInput := by
  obtain ⟨b, names, s, t, hbegun, hstands, -, ht, hk, -⟩ :=
    (ends_analyze_verdict source tracing).outcome_ofSource.1 h
  obtain ⟨taken, -, hsupply, -⟩ := hbegun.exists_taken hstands.reads ht
  exact ⟨_, _, hsupply, t, List.mem_append_right _ (List.mem_singleton_self t), hk⟩

/-- The failure of a run is that of its steps. -/
theorem failure_eq_some_iff {f : Failure} : (Outcome.ofSource source tracing).failure = some f ↔
    ∃ s, analysisSteps (.ofSource source tracing) = .error f s := by
  constructor
  · intro h
    obtain ⟨s, hrun, -⟩ := exists_run_of_failure h
    exact ⟨s, hrun⟩
  · rintro ⟨s, hrun⟩
    unfold Outcome.ofSource outcome analyze unwinding
    rw [hrun]

/-- A token behind those supplied is asked for if the run over these alone breaks off. -/
theorem exists_asksIn_iff (h : source.Supplies ts mid) :
    (∃ s, AsksIn source tracing ts s) ↔
      (Outcome.ofSource (breakingOff ts) tracing).failure = some (.fault .sourceSpent) := by
  rw [failure_eq_some_iff]
  constructor
  · rintro ⟨s, s', -, -, hrun⟩
    exact ⟨s', hrun⟩
  · rintro ⟨s', hrun⟩
    exact ⟨{ s' with source := mid }, s', h, rfl, hrun⟩

/-- A run over a source ends as the run over its first tokens does, unless this one breaks off. -/
theorem eq_of_not_breaks (h : source.Supplies ts mid)
    (hspent : (Outcome.ofSource (breakingOff ts) tracing).failure ≠ some (.fault .sourceSpent)) :
    (Outcome.ofSource source tracing).failure =
        (Outcome.ofSource (breakingOff ts) tracing).failure ∧
      (Outcome.ofSource source tracing).state =
        { (Outcome.ofSource (breakingOff ts) tracing).state with
          source := (Outcome.ofSource source tracing).state.source } := by
  have htraces : (TokenSource.leading (· = .spent)).traces (tracing, #[]) (tracing, #[]) := rfl
  rcases alike_ofSource (TokenSource.coupled_leading _) (TokenSource.leads_of_supplies h) htraces
    with ⟨err, rfl, hlost⟩ | ⟨hfailure, hstate⟩
  · exact absurd hlost hspent
  · obtain ⟨htracing, hprinted⟩ := Prod.mk.inj (show trace _ = trace _ from hstate.traces)
    refine ⟨hfailure, ?_⟩
    rw [hstate.eq, ← htracing, ← hprinted]

/-- A run that does not ask for a token behind those supplied fails as the run over these alone. -/
theorem failure_eq_of_not_asks (hs : source.Supplies ts mid)
    (h : ¬ ∃ s, AsksIn source tracing ts s) :
    (Outcome.ofSource source tracing).failure =
      (Outcome.ofSource (breakingOff ts) tracing).failure :=
  (eq_of_not_breaks hs ((exists_asksIn_iff hs).not.mp h)).1

section Error

variable (hs : source.Supplies ts mid) (hn : mid.next = (.error e, last))
include hs hn

/-- A run meets the error of its source exactly if it asks for a token behind those supplied. -/
theorem failure_eq_error_iff (he : e ≠ .spent) :
    (Outcome.ofSource source tracing).failure = some (.ofScanError e) ↔
      ∃ s, AsksIn source tracing ts s := by
  constructor
  · intro h
    by_contra hno
    -- the first tokens alone break off with another error
    rw [failure_eq_of_not_asks hs hno] at h
    obtain ⟨us, mid', last', hus, hn'⟩ := exists_error_of_failure h
    exact he ((TokenSource.leads_of_supplies hs us mid' hus).2 e last' hn')
  · rw [exists_asksIn_iff hs]
    intro hspent
    have htraces : (TokenSource.leading (· = e)).traces (tracing, #[]) (tracing, #[]) := rfl
    rcases alike_ofSource (TokenSource.coupled_leading _) (TokenSource.leads_breakingOff hs hn)
      htraces with ⟨err, rfl, h⟩ | ⟨heq, -⟩
    · exact h
    · have hfailure : (Outcome.ofSource source tracing).failure = some (.ofScanError .spent) :=
        heq.symm.trans hspent
      obtain ⟨us, mid', last', hus, hn'⟩ := exists_error_of_failure hfailure
      exact absurd ((TokenSource.leads_breakingOff hs hn us mid' hus).2 _ last' hn').symm he

end Error

/-! ## Reading on demand and reading at once -/

/-- A text and the list of its tokens are analysed alike. -/
theorem ofText_eq_ofList {text : String} (hts : Lexer.tokenize text = .ok ts) (tracing : Bool) :
    (Outcome.ofSource (.ofText text) tracing).failure =
        (Outcome.ofSource (.ofList ts) tracing).failure ∧
      (Outcome.ofSource (.ofText text) tracing).state =
        { (Outcome.ofSource (.ofList ts) tracing).state with
          source := (Outcome.ofSource (.ofText text) tracing).state.source } := by
  have htraces : TokenSource.readingAs.traces (tracing, #[]) (tracing, #[]) := rfl
  have hsources : TokenSource.readingAs.sources (.ofText text) (.ofList ts) :=
    TokenSource.readsAs_ofList hts
  rcases alike_ofSource TokenSource.coupled_readingAs hsources htraces
    with ⟨err, hno, -⟩ | ⟨hfailure, hstate⟩
  · exact hno.elim
  · obtain ⟨htracing, hprinted⟩ := Prod.mk.inj (show trace _ = trace _ from hstate.traces)
    refine ⟨hfailure.symm, ?_⟩
    rw [hstate.eq, ← htracing, ← hprinted]

/-- If all tokens of a text can be read, the analysis of the text ends as that of their list does,
with the same failure and in the same state. If an unknown character stands behind the first tokens,
the analysis does not succeed. It fails with that error exactly if it asks for a token behind them,
and else with the failure of all lists that begin with them. -/
theorem text_eq_list (text : String) (tracing : Bool) :
    (∀ ts, Lexer.tokenize text = .ok ts →
      (Outcome.ofSource (.ofText text) tracing).failure =
          (Outcome.ofSource (.ofList ts) tracing).failure ∧
        (Outcome.ofSource (.ofText text) tracing).state =
          { (Outcome.ofSource (.ofList ts) tracing).state with
            source := (Outcome.ofSource (.ofText text) tracing).state.source }) ∧
    ∀ e, Lexer.tokenize text = .error e → ∃ ts mid last,
      (TokenSource.ofText text).Supplies ts mid ∧ mid.next = (.error e, last) ∧
        (Outcome.ofSource (.ofText text) tracing).failure ≠ none ∧
        ((Outcome.ofSource (.ofText text) tracing).failure = some (.ofScanError e) ↔
          ∃ s, AsksIn (.ofText text) tracing ts s) ∧
        ((Outcome.ofSource (.ofText text) tracing).failure ≠ some (.ofScanError e) →
          ∃ f, (Outcome.ofSource (.ofText text) tracing).failure = some f ∧
            ∀ more, (Outcome.ofSource (.ofList (ts ++ more)) tracing).failure = some f) := by
  refine ⟨fun ts hts => ofText_eq_ofList hts tracing, fun e he => ?_⟩
  obtain ⟨ts, mid, last, hs, hn⟩ := Lexer.exists_supplies_of_error he
  have hs : (TokenSource.ofText text).Supplies ts mid := hs
  have hspent : e ≠ .spent := by
    obtain ⟨⟨l, rfl, hl⟩, -⟩ := hs.of_text rfl
    obtain ⟨c, line, rfl⟩ := Lexer.exists_unknownCharacter_of_next hl (Prod.mk.inj hn).1
    exact fun h => by cases h
  have hnone : (Outcome.ofSource (.ofText text) tracing).failure ≠ none := by
    intro h
    obtain ⟨us, mid', hus, t, ht, hk⟩ := exists_endOfInput_of_success h
    exact hs.kind_ne_endOfInput hn t ((hs.prefix_of_error hn hus).subset ht) hk
  have hiff := @failure_eq_error_iff _ _ _ tracing _ _ hs hn hspent
  refine ⟨ts, mid, last, hs, hn, hnone, hiff, fun hne => ?_⟩
  have hno := hiff.not.mp hne
  obtain ⟨f, hf⟩ := Option.ne_none_iff_exists'.mp hnone
  refine ⟨f, hf, fun more => ?_⟩
  obtain ⟨line, last', hlist⟩ := TokenSource.supplies_ofList (ts ++ more)
  rw [List.append_assoc] at hlist
  obtain ⟨mid', hlist, -⟩ := TokenSource.supplies_append.mp hlist
  rw [exists_asksIn_iff hs, ← exists_asksIn_iff hlist] at hno
  rw [failure_eq_of_not_asks hlist hno, ← failure_eq_of_not_asks hs (hiff.not.mp hne), hf]

theorem text_eq_list_undefinedBeforeUnknown : ∃ ts mid last,
    (TokenSource.ofText "procedure p is begin x ?").Supplies ts mid ∧
      mid.next = (.error (.unknownCharacter '?' 1), last) ∧
      ∀ more, (Outcome.ofSource (.ofList (ts ++ more)) false).failure =
        some (.diagnostic (.undefined "x" 1)) := by
  have htext : Lexer.tokenize "procedure p is begin x ?" = .error (.unknownCharacter '?' 1) := by
    decide +kernel
  have hfailure : (Outcome.ofSource (.ofText "procedure p is begin x ?") false).failure =
      some (.diagnostic (.undefined "x" 1)) := by decide +kernel
  obtain ⟨ts, mid, last, hs, hn, -, -, hlists⟩ := (text_eq_list _ false).2 _ htext
  obtain ⟨f, hf, hmore⟩ := hlists (by rw [hfailure]; decide)
  cases hfailure.symm.trans hf
  exact ⟨ts, mid, last, hs, hn, hmore⟩

end Analysis

end ProcLang
