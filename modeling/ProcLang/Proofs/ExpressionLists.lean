import ProcLang.Proofs.Expressions
import ProcLang.Proofs.PulledTokens

/-!
# Expressions at the beginning of a list

Where the remaining tokens are those of a list, an expression is read exactly if they begin with one
that no operator continues and whose names are seen (`BeginsWithExpression`), and then exactly its
tokens are taken. In every other case a token or a name is reported. Nothing but the tokens changes
(`Analysis.expression_recognises`).
-/

namespace ProcLang

/-! ## Tokens of expressions -/

/-- The names used are those of the tokens that stand for names. -/
theorem Expr.names_of_spells {l : Level} {e : Expr l} {ts : List Token}
    (h : Spells ts e.terminals) :
    (ts.filter fun t => t.kind = .identifier).map Token.lexeme = e.names := by
  induction e generalizing ts with
  | name y =>
    obtain ⟨t, rfl, hk, hy⟩ := spells_singleton.mp h
    simp [hk, hy, names]
  | number =>
    obtain ⟨t, rfl, hk⟩ := spells_singleton.mp h
    have hk : t.kind = .number := hk
    simp [hk, names]
  | parens e ih =>
    obtain ⟨t, us, rfl, hk, hus⟩ := spells_cons.mp h
    have hk : t.kind = .leftParen := hk
    obtain ⟨ts, us, rfl, hts, hus⟩ := spells_append.mp hus
    obtain ⟨u, rfl, hu⟩ := spells_singleton.mp hus
    have hu : u.kind = .rightParen := hu
    simp [hk, hu, names, ih hts]
  | not f ih =>
    obtain ⟨t, us, rfl, hk, hus⟩ := spells_cons.mp h
    have hk : t.kind = .notWord := hk
    simp [hk, names, ih hus]
  | minus f ih =>
    obtain ⟨t, us, rfl, ⟨hk, -⟩, hus⟩ := spells_cons.mp h
    simp [hk, names, ih hus]
  | last first ih => exact ih h
  | @more op first rest ih ihrest =>
    obtain ⟨ts, us, rfl, hts, hus⟩ := spells_append.mp h
    obtain ⟨t, us, rfl, hk, hus⟩ := spells_cons.mp hus
    have hk : t.kind ≠ .identifier := by
      rw [show t.kind = op.kind from hk]
      cases op <;> decide
    simp [hk, names, ih hts, ihrest hus]

theorem Spells.forall_kind_iff {ts : List Token} {ws : List Terminal} {p : Kind → Prop}
    (h : Spells ts ws) : (∀ t ∈ ts, p t.kind) ↔ ∀ w ∈ ws, p w.toKind := by
  unfold Spells at h
  induction h with
  | nil => simp
  | cons hw _ ih => simp only [List.forall_mem_cons, hw.kind_eq, ih]

/-- No end token is part of an expression. -/
theorem Expr.toKind_ne_endOfInput {l : Level} (e : Expr l) :
    ∀ w ∈ e.terminals, w.toKind ≠ .endOfInput := by
  induction e with
  | name | number => exact List.forall_mem_singleton.mpr nofun
  | parens e ih =>
    exact List.forall_mem_append.mpr
      ⟨List.forall_mem_cons.mpr ⟨nofun, ih⟩, List.forall_mem_singleton.mpr nofun⟩
  | not f ih | minus f ih => exact List.forall_mem_cons.mpr ⟨nofun, ih⟩
  | last first ih => exact ih
  | @more op first rest ih ihrest =>
    refine List.forall_mem_append.mpr ⟨ih, List.forall_mem_cons.mpr ⟨?_, ihrest⟩⟩
    cases op <;> exact nofun

/-! ## Tokens that are to come -/

/-- The tokens that are to come where `t` is looked at and those of a list are ahead, its end token
among them. -/
def TokenList.upcoming (l : TokenList) (t : Token) : List Token :=
  t :: l.ahead ++ [.endOfInput l.lastLine]

/-- The state when `n` tokens have been taken where `t` is looked at and a list is ahead. -/
def State.afterTaking (s : State) (t : Token) (l : TokenList) (n : Nat) : State :=
  { s with
    source := .list { l with ahead := l.ahead.drop n, asked := l.asked + n }
    current := (l.upcoming t)[n]?
    matched := ((l.upcoming t).take n).reverse ++ s.matched }

/-- The first `n` tokens are an expression whose names the table sees, and the token behind them is
none that could continue it. -/
def BeginsWithExpression (table : SymbolTable) (tokens : List Token) (n : Nat) : Prop :=
  ∃ ts u more, tokens = ts ++ u :: more ∧ ts.length = n ∧
    (∃ e : Expr .expression, Spells ts e.terminals) ∧
    u.kind ≠ .additive ∧ u.kind ≠ .multiplicative ∧
    ∀ v ∈ ts, v.kind = .identifier → table.Sees v.lexeme

/-- The grammar alone settles how many tokens an expression has. -/
theorem BeginsWithExpression.unique {table : SymbolTable} {tokens : List Token} {n m : Nat}
    (h : BeginsWithExpression table tokens n) (h' : BeginsWithExpression table tokens m) :
    n = m := by
  obtain ⟨ts, u, more, rfl, rfl, ⟨e, he⟩, hadd, hmul, -⟩ := h
  obtain ⟨ts', u', more', htokens, rfl, ⟨e', he'⟩, hadd', hmul', -⟩ := h'
  have havoids : ∀ {u : Token} {more : List Token}, u.kind ≠ .additive → u.kind ≠ .multiplicative →
      Avoids Level.expression.operators (u :: more) := by
    rintro u more hadd hmul _ ⟨⟩
    simp [Level.operators, hadd, hmul]
  obtain ⟨-, hleft⟩ := e.unambiguous e' _ _ _ ⟨ts, rfl, he⟩ ⟨ts', htokens, he'⟩
    (havoids hadd hmul) (havoids hadd' hmul')
  have hlength := congrArg List.length htokens
  rw [hleft, List.length_append, List.length_append] at hlength
  exact Nat.add_right_cancel hlength

namespace Analysis

variable {s s' : State} {t u : Token} {l l' : TokenList} {ts more : List Token} {x : Failure}
  {n : Nat}

theorem TakesAll.exists_list (h : TakesAll ts s s') (hl : s.source = .list l) :
    ∃ l', s'.source = .list l' := by
  induction ts generalizing s l with
  | nil =>
    obtain rfl : s' = s := h
    exact ⟨l, hl⟩
  | cons t ts ih =>
    obtain ⟨mid, ⟨u, source, -, hn, rfl⟩, h⟩ := h
    rw [hl] at hn
    exact ih h (Prod.mk.inj hn).2.symm

theorem afterTaking_one : s.afterTaking t l 1 =
    { s with source := .list l.next.2, current := some l.next.1, matched := t :: s.matched } := by
  obtain ⟨ahead, asked, line⟩ := l
  cases ahead <;> rfl

theorem takes_iff_afterTaking (ht : s.current = some t) (hl : s.source = .list l) :
    Takes u s s' ↔ u = t ∧ s' = s.afterTaking t l 1 := by
  have hnext : s.source.next = (.ok l.next.1, .list l.next.2) := by
    rw [hl]
    rfl
  rw [afterTaking_one]
  constructor
  · rintro ⟨v, source, hu, hn, rfl⟩
    cases ht.symm.trans hu
    obtain ⟨hv, rfl⟩ := Prod.mk.inj (hnext.symm.trans hn)
    cases hv
    exact ⟨rfl, rfl⟩
  · rintro ⟨rfl, rfl⟩
    exact ⟨_, _, ht, hnext, rfl⟩

theorem afterTaking_zero (ht : s.current = some t) (hl : s.source = .list l) :
    s.afterTaking t l 0 = s := by
  unfold State.afterTaking TokenList.upcoming
  simp [← ht, ← hl]

theorem afterTaking_succ (hn : n ≤ l.ahead.length) :
    (s.afterTaking t l 1).afterTaking l.next.1 l.next.2 n = s.afterTaking t l (n + 1) := by
  obtain ⟨ahead, asked, line⟩ := l
  cases ahead with
  | nil =>
    obtain rfl := Nat.le_zero.mp hn
    rfl
  | cons a ahead =>
    simp [State.afterTaking, TokenList.upcoming, TokenList.next, Nat.add_assoc, Nat.add_comm 1]

/-- The end token of a list stays what comes next when it has been looked at. -/
theorem exists_upcoming_next (h : l.upcoming t = t :: ts ++ u :: more) :
    ts.length ≤ l.ahead.length ∧ ∃ more, l.next.2.upcoming l.next.1 = ts ++ u :: more := by
  obtain ⟨ahead, asked, line⟩ := l
  replace h : ahead ++ [.endOfInput line] = ts ++ u :: more := (List.cons.inj h).2
  have hlength := congrArg List.length h
  simp only [List.length_append, List.length_cons, List.length_nil] at hlength
  refine ⟨show ts.length ≤ ahead.length by omega, ?_⟩
  cases ahead with
  | nil =>
    refine ⟨more ++ [.endOfInput line], ?_⟩
    show ([] ++ [Token.endOfInput line]) ++ [Token.endOfInput line] = _
    rw [h, List.append_assoc]
    rfl
  | cons a ahead => exact ⟨more, h⟩

theorem exists_upcoming_of_next (h : l.next.2.upcoming l.next.1 = ts ++ u :: more)
    (hts : ∀ v ∈ ts, v.kind ≠ .endOfInput) : ∃ more, l.upcoming t = t :: ts ++ u :: more := by
  obtain ⟨ahead, asked, line⟩ := l
  cases ahead with
  | cons a ahead => exact ⟨more, congrArg (t :: ·) h⟩
  | nil =>
    cases ts with
    | nil =>
      obtain ⟨rfl, -⟩ := List.cons.inj h
      exact ⟨[], rfl⟩
    | cons v ts =>
      obtain ⟨rfl, -⟩ := List.cons.inj h
      exact absurd rfl (hts _ List.mem_cons_self)

/-- Of a list tokens are taken up to the one that is looked at then. -/
theorem TakesAll.eq_afterTaking (h : TakesAll ts s s') (ht : s.current = some t)
    (hl : s.source = .list l) (hts : ∀ v ∈ ts, v.kind ≠ .endOfInput) (hu : s'.current = some u) :
    s' = s.afterTaking t l ts.length ∧ ∃ more, l.upcoming t = ts ++ u :: more := by
  induction ts generalizing s t l with
  | nil =>
    obtain rfl : s' = s := h
    cases ht.symm.trans hu
    exact ⟨(afterTaking_zero ht hl).symm, _, rfl⟩
  | cons v ts ih =>
    obtain ⟨mid, hv, h⟩ := h
    obtain ⟨rfl, rfl⟩ := (takes_iff_afterTaking ht hl).mp hv
    obtain ⟨-, hts⟩ := List.forall_mem_cons.mp hts
    obtain ⟨hs', more, hnext⟩ :=
      ih h (by rw [afterTaking_one]) (by rw [afterTaking_one]) hts
    obtain ⟨more, hupcoming⟩ : ∃ more, l.upcoming v = v :: ts ++ u :: more :=
      exists_upcoming_of_next hnext hts
    exact ⟨hs'.trans (afterTaking_succ (exists_upcoming_next hupcoming).1), more, hupcoming⟩

/-- The tokens before any other that is to come can be taken. -/
theorem takesAll_afterTaking (ht : s.current = some t) (hl : s.source = .list l)
    (h : l.upcoming t = ts ++ u :: more) :
    TakesAll ts s (s.afterTaking t l ts.length) ∧ (s.afterTaking t l ts.length).current = some u := by
  refine ⟨?_, by simp [State.afterTaking, h]⟩
  induction ts generalizing s t l more with
  | nil => exact afterTaking_zero ht hl
  | cons v ts ih =>
    obtain rfl : t = v := (List.cons.inj h).1
    obtain ⟨hle, more, hnext⟩ := exists_upcoming_next h
    refine ⟨_, (takes_iff_afterTaking ht hl).mpr ⟨rfl, rfl⟩, ?_⟩
    rw [List.length_cons, ← afterTaking_succ hle]
    exact ih (by rw [afterTaking_one]) (by rw [afterTaking_one]) hnext

/-- How reading an expression can fail over a list: there is always a next token. -/
theorem ExpressionFails.reports (h : ExpressionFails s x s') (hl : s.source = .list l) :
    ∃ d, x = .diagnostic d ∧
      ((∃ expected u, d = .unexpected expected u) ∨ ∃ y line, d = .undefined y line) := by
  cases h with
  | unexpected => exact ⟨_, rfl, Or.inl ⟨_, _, rfl⟩⟩
  | undefined => exact ⟨_, rfl, Or.inr ⟨_, _, rfl⟩⟩
  | breaks hts hbreaks =>
    obtain ⟨l', hl'⟩ := hts.exists_list hl
    obtain ⟨source, -, hn, -⟩ := hbreaks
    rw [hl'] at hn
    exact absurd hn TokenSource.next_list_ne_error

/-- Over a list exactly the tokens of the expression that stands there are read. -/
theorem readBetween_iff (ht : s.current = some t) (hl : s.source = .list l) :
    ProcLang.Level.expression.ReadBetween s s' ↔
      ∃ n, s' = s.afterTaking t l n ∧ BeginsWithExpression s.table (l.upcoming t) n := by
  have hnames : ∀ {e : Expr .expression} {ts : List Token}, Spells ts e.terminals →
      ((∀ y ∈ e.names, s.table.Sees y) ↔
        ∀ v ∈ ts, v.kind = .identifier → s.table.Sees v.lexeme) := by
    intro e ts h
    rw [← Expr.names_of_spells h]
    simp only [List.forall_mem_map, List.mem_filter, decide_eq_true_eq, and_imp]
  have hend : ∀ k : Kind, k ∉ ProcLang.Level.expression.operators ↔
      k ≠ .additive ∧ k ≠ .multiplicative := by
    intro k
    simp [ProcLang.Level.operators, and_comm]
  constructor
  · rintro ⟨⟨e, ts, htaken, hspelt, hseen⟩, u, hu, hk⟩
    have hinner := (hspelt.forall_kind_iff (p := (· ≠ .endOfInput))).mpr e.toKind_ne_endOfInput
    obtain ⟨hs', more, hupcoming⟩ := htaken.eq_afterTaking ht hl hinner hu
    obtain ⟨hadd, hmul⟩ := (hend u.kind).mp hk
    exact ⟨_, hs', ts, u, more, hupcoming, rfl, ⟨e, hspelt⟩, hadd, hmul, (hnames hspelt).mp hseen⟩
  · rintro ⟨_, rfl, ts, u, more, hupcoming, rfl, ⟨e, hspelt⟩, hadd, hmul, hseen⟩
    obtain ⟨htaken, hu⟩ := takesAll_afterTaking ht hl hupcoming
    exact ⟨⟨e, ts, htaken, hspelt, (hnames hspelt).mpr hseen⟩, u, hu, (hend _).mpr ⟨hadd, hmul⟩⟩

/-- An expression is read exactly where one stands, and then exactly its tokens are taken. In every
other case a token or a name is reported. Nothing but the tokens changes. -/
theorem expression_recognises (ht : s.current = some t) (hl : s.source = .list l) :
    (∀ n, expression s = .ok () (s.afterTaking t l n) ↔
      BeginsWithExpression s.table (l.upcoming t) n) ∧
    (∀ n m, BeginsWithExpression s.table (l.upcoming t) n →
      BeginsWithExpression s.table (l.upcoming t) m → n = m) ∧
    ((¬ ∃ n, BeginsWithExpression s.table (l.upcoming t) n) →
      ∃ d s', expression s = .error (.diagnostic d) s' ∧
        ((∃ expected u, d = .unexpected expected u) ∨ ∃ y line, d = .undefined y line)) ∧
    Ends expression s (fun _ => OnlyTokens s) (fun _ => OnlyTokens s) := by
  have hs : s.current.isSome := by
    rw [ht]
    rfl
  have hread : ∀ s', expression s = .ok () s' ↔
      ∃ n, s' = s.afterTaking t l n ∧ BeginsWithExpression s.table (l.upcoming t) n := by
    intro s'
    rw [← readBetween_iff ht hl]
    constructor
    · exact fun h => (ends_expression hs).of_ok h
    · rintro ⟨⟨e, ts, he⟩, u, hu, hk⟩
      rw [expression_eq (Nat.le_refl _)]
      exact he.readWithin_eq hu hk (Nat.le_refl _)
  refine ⟨fun n => ?_, fun _ _ h h' => h.unique h', fun hno => ?_, ?_⟩
  · rw [hread]
    constructor
    · rintro ⟨m, hstate, h⟩
      -- the list counts the tokens that are taken
      have hasked := congrArg TokenList.asked (TokenSource.list.inj (congrArg State.source hstate))
      rwa [Nat.add_left_cancel hasked]
    · exact fun h => ⟨n, rfl, h⟩
  · cases hr : expression s with
    | ok a s' =>
      obtain ⟨n, -, h⟩ := (hread s').mp hr
      exact absurd ⟨n, h⟩ hno
    | error x s' =>
      obtain ⟨d, rfl, hd⟩ := ((ends_expression hs).of_error hr).reports hl
      exact ⟨d, s', rfl, hd⟩
  · refine (ends_expression hs).mono ?_ fun _ _ h => h.onlyTokens
    rintro - s' ⟨⟨e, ts, he⟩, -⟩
    exact he.taken.onlyTokens

/-- The tokens of `-(a) * 2`. -/
def product : List Token :=
  [⟨.additive, "-", 1⟩, ⟨.leftParen, "(", 1⟩, ⟨.identifier, "a", 1⟩, ⟨.rightParen, ")", 1⟩,
    ⟨.multiplicative, "*", 1⟩, ⟨.number, "2", 1⟩]

/-- A state inside a procedure, where `a` is declared around it and a product stands before a
semicolon. -/
def beforeProduct : State :=
  { source := .list ⟨product.tail ++ [⟨.semicolon, ";", 1⟩], 1, 1⟩
    current := product.head?
    table := { (SymbolTable.empty.insert "a" 0).2 with depth := 1 } }

theorem expression_recognises_product :
    ∃ t l, beforeProduct.current = some t ∧ beforeProduct.source = .list l ∧
      BeginsWithExpression beforeProduct.table (l.upcoming t) 6 ∧
      expression beforeProduct = .ok () (beforeProduct.afterTaking t l 6) := by
  have h : BeginsWithExpression beforeProduct.table
      (TokenList.upcoming ⟨product.tail ++ [⟨.semicolon, ";", 1⟩], 1, 1⟩ ⟨.additive, "-", 1⟩) 6 :=
    ⟨product, ⟨.semicolon, ";", 1⟩, [.endOfInput 1], rfl, rfl,
      ⟨.last (.more (.minus (.parens (.last (.last (.name "a"))))) (.last .number)), by decide⟩,
      by decide, by decide, by decide +kernel⟩
  exact ⟨_, _, rfl, rfl, h, ((expression_recognises rfl rfl).1 6).mpr h⟩

end Analysis

end ProcLang
