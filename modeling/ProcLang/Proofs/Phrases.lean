import ProcLang.Proofs.Grammar
import ProcLang.Proofs.Reading

/-!
# Phrases and goals

A part of the grammar is a `Phrase`: the terminals of each of its trees, the names that the tree
declares, and what it asks of those declared before. `Place.Means` says that a list of goals is met
by the tokens that spell the trees of a phrase, as long as what follows begins with a token that
ends the phrase. Goals one behind the other mean phrases one behind the other (`Place.Means.both`),
and a goal that is left to be read again means any number of phrases (`Place.Means.many`).

The statements are for lists of up to `n` tokens, so that a phrase inside another one of its kind
can be treated by induction on `n`.
-/

namespace ProcLang

/-- The tokens are what the frames still have to read. -/
def Completes (outer : List String) (frames : List Frame) (ts : List Token) : Prop :=
  ∃ names, takeAll outer frames ts = .ok [⟨"", names, []⟩]

/-- Of the tokens that spell a mode, each is of the kind of its mode, and a numeral has a value
unless it is a whole number that is too long. -/
structure Token.Plain (t : Token) : Prop where
  mode : ∀ m, Analysis.modeOfWord? t.lexeme = some m ↔ t.kind = m.kind
  value : t.kind = .number → ((Numeral.Value.parse t.lexeme).isOk ↔
    Numeral.hasPoint t.lexeme ∨ t.lexeme.length ≤ Numeral.maxIntegerDigits)

/-! ## Phrases -/

/-- A part of the grammar: the terminals of a tree, the names that it declares in the innermost
scope, and what it asks of the names declared there before. -/
structure Phrase (α : Type) where
  terminals : α → List Terminal
  declares : α → List String
  Lawful : List String → α → Prop

namespace Phrase

variable {α β : Type}

/-- A token of a kind. -/
def kind (k : Kind) : Phrase Unit := ⟨fun _ => [.kind k], fun _ => [], fun _ _ => True⟩

/-- A name that is declared. -/
def newName : Phrase String := ⟨fun y => [.name y], fun y => [y], fun names y => y ∉ names⟩

/-- One phrase behind another. -/
def both (φ : Phrase α) (ψ : Phrase β) : Phrase (α × β) where
  terminals x := φ.terminals x.1 ++ ψ.terminals x.2
  declares x := φ.declares x.1 ++ ψ.declares x.2
  Lawful names x := φ.Lawful names x.1 ∧ ψ.Lawful (names ++ φ.declares x.1) x.2

/-- What is asked of phrases one behind the other. -/
def AllLawful (φ : Phrase α) : List String → List α → Prop
  | _, [] => True
  | names, x :: xs => φ.Lawful names x ∧ AllLawful φ (names ++ φ.declares x) xs

/-- Any number of phrases. -/
def many (φ : Phrase α) : Phrase (List α) where
  terminals xs := xs.flatMap φ.terminals
  declares xs := xs.flatMap φ.declares
  Lawful := φ.AllLawful

/-- Phrases that declare nothing do not count for each other. -/
theorem allLawful_of_declares_eq_nil {φ : Phrase α} (h : ∀ x, φ.declares x = [])
    {names : List String} {xs : List α} :
    φ.AllLawful names xs ↔ ∀ x ∈ xs, φ.Lawful names x := by
  induction xs with
  | nil => simp [AllLawful]
  | cons x xs ih => rw [AllLawful, h, List.append_nil, ih, List.forall_mem_cons]

/-- The trees of `ψ` are made from those of `φ`. -/
structure Gives (φ : Phrase α) (ψ : Phrase β) (f : α → β) : Prop where
  onto : ∀ y, ∃ x, f x = y
  terminals : ∀ x, ψ.terminals (f x) = φ.terminals x
  declares : ∀ x, ψ.declares (f x) = φ.declares x
  lawful : ∀ names x, ψ.Lawful names (f x) ↔ φ.Lawful names x

end Phrase

/-! ## The innermost procedure -/

/-- An innermost procedure that is open: its name, the frames around it, and the names declared
around these. -/
structure Place where
  outer : List String
  name : String
  rest : List Frame
  inside : rest ≠ []

namespace Place

/-- The tokens are what is to be read in the place, where the names are declared in the procedure. -/
def Completes (p : Place) (names : List String) (goals : List Goal) (ts : List Token) : Prop :=
  ProcLang.Completes p.outer (⟨p.name, names, goals⟩ :: p.rest) ts

/-- The name is declared in the place or around it. -/
def Sees (p : Place) (names : List String) (y : String) : Prop :=
  Visible p.outer (⟨p.name, names, []⟩ :: p.rest) y

/-- No token of the kind begins the goals. -/
def Refuses (p : Place) (goals : List Goal) (k : Kind) : Prop :=
  ∀ t : Token, t.kind = k → ∃ r, moveOf p.name t goals = .error r

/-- Up to `n` tokens meet the goals if they spell a tree of the phrase, where no token of the kinds
`ends` begins what follows. -/
def Means {α : Type} (p : Place) (n : Nat) (goals : List Goal) (ends : List Kind)
    (φ : Phrase α) : Prop :=
  ∀ names gs ts, ts.length ≤ n → (∀ t ∈ ts, t.Plain) → (∀ k ∈ ends, p.Refuses gs k) →
    (p.Completes names (goals ++ gs) ts ↔
      ∃ x us vs, ts = us ++ vs ∧ Spells us (φ.terminals x) ∧ φ.Lawful names x ∧
        p.Completes (names ++ φ.declares x) gs vs)

variable {p : Place} {n : Nat} {names : List String} {goals goals' gs : List Goal} {g : Goal}
  {t : Token} {ts : List Token} {k : Kind} {r : Refusal}

theorem sees_iff {y : String} : p.Sees names y ↔ Visible p.outer p.rest y ∨ y ∈ names := by
  unfold Sees Visible
  simp only [List.mem_cons, exists_eq_or_imp]
  exact (or_congr_right or_comm).trans or_assoc.symm

theorem sees_append {ys : List String} :
    p.Sees (names ++ ys) = fun y => p.Sees names y ∨ y ∈ ys := by
  funext y
  rw [sees_iff, sees_iff, List.mem_append, or_assoc]

section Completing

theorem completes_cons {m : Move} (hm : moveOf p.name t goals = .ok m) :
    p.Completes names goals (t :: ts) ↔
      ∃ frames, m.deed.apply p.outer t.lexeme ⟨p.name, names, m.goals⟩ p.rest = .ok frames ∧
        ProcLang.Completes p.outer frames ts := by
  unfold Completes ProcLang.Completes
  simp only [takeAll_cons_eq_ok, take_of_move (f := ⟨p.name, names, goals⟩) hm]
  constructor
  · rintro ⟨names', frames, hdeed, h⟩
    exact ⟨frames, hdeed, names', h⟩
  · rintro ⟨frames, hdeed, names', h⟩
    exact ⟨names', frames, hdeed, h⟩

/-- A token whose deed cannot be refused. -/
theorem completes_of_apply {deed : Deed} {frames : List Frame}
    (hm : moveOf p.name t goals = .ok ⟨deed, goals'⟩)
    (hdeed : deed.apply p.outer t.lexeme ⟨p.name, names, goals'⟩ p.rest = .ok frames) :
    p.Completes names goals (t :: ts) ↔ ProcLang.Completes p.outer frames ts := by
  rw [completes_cons hm]
  simp only [hdeed, Except.ok.injEq, exists_eq_left']

theorem completes_read (hm : moveOf p.name t goals = .ok ⟨.read, goals'⟩) :
    p.Completes names goals (t :: ts) ↔ p.Completes names goals' ts :=
  completes_of_apply hm rfl

/-- A token whose name has to be new. -/
theorem completes_fresh {deed : Deed} {frames : List Frame}
    (hm : moveOf p.name t goals = .ok ⟨deed, goals'⟩)
    (hdeed : deed.apply p.outer t.lexeme ⟨p.name, names, goals'⟩ p.rest =
      if t.lexeme ∈ names then .error .duplicate else .ok frames) :
    p.Completes names goals (t :: ts) ↔ t.lexeme ∉ names ∧ ProcLang.Completes p.outer frames ts := by
  rw [completes_cons hm]
  simp only [hdeed]
  by_cases hold : t.lexeme ∈ names
  · simp [hold]
  · simp only [hold, if_false, Except.ok.injEq, exists_eq_left', not_false_eq_true, true_and]

theorem completes_declare (hm : moveOf p.name t goals = .ok ⟨.declare, goals'⟩) :
    p.Completes names goals (t :: ts) ↔
      t.lexeme ∉ names ∧ p.Completes (names ++ [t.lexeme]) goals' ts :=
  completes_fresh hm rfl

theorem completes_use (hm : moveOf p.name t goals = .ok ⟨.use, goals'⟩) :
    p.Completes names goals (t :: ts) ↔
      p.Sees names t.lexeme ∧ p.Completes names goals' ts := by
  rw [completes_cons hm]
  simp only [Deed.apply]
  have hiff : Visible p.outer (⟨p.name, names, goals'⟩ :: p.rest) t.lexeme ↔
      p.Sees names t.lexeme := by
    unfold Sees Visible
    simp only [List.mem_cons, exists_eq_or_imp]
  by_cases hv : p.Sees names t.lexeme
  · simp only [hiff.mpr hv, if_true, Except.ok.injEq, exists_eq_left', hv, true_and]
    exact Iff.rfl
  · simp [mt hiff.mp hv, hv]

theorem completes_enter (hm : moveOf p.name t goals = .ok ⟨.enter, goals'⟩) :
    p.Completes names goals (t :: ts) ↔ t.lexeme ∉ names ∧ ProcLang.Completes p.outer
      (.opened t.lexeme :: ⟨p.name, names ++ [t.lexeme], goals'⟩ :: p.rest) ts :=
  completes_fresh hm rfl

theorem completes_leave (hm : moveOf p.name t goals = .ok ⟨.leave, goals'⟩) :
    p.Completes names goals (t :: ts) ↔ ProcLang.Completes p.outer p.rest ts :=
  completes_of_apply hm rfl

theorem not_completes_of_refused (hr : moveOf p.name t goals = .error r) :
    ¬ p.Completes names goals (t :: ts) := by
  rintro ⟨names', h⟩
  obtain ⟨frames, ht, -⟩ := takeAll_cons_eq_ok.mp h
  rw [take_of_refused (f := ⟨p.name, names, goals⟩) hr] at ht
  cases ht

/-- Where tokens meet a goal that must not be left out, the first one makes a move at it. -/
theorem exists_moves_of_completes (hstart : g.start? = none)
    (h : p.Completes names (g :: goals) (t :: ts)) : ∃ m, g.Moves p.name t m := by
  cases hm : moveOf p.name t (g :: goals) with
  | error r => exact absurd h (not_completes_of_refused hm)
  | ok m =>
    obtain ⟨m, hmove, -⟩ := exists_move_of_moveOf (Goal.passesOn_of_none hstart _) hm
    exact ⟨m, Goal.move_eq_ok_iff.mp hmove⟩

/-- Inside a procedure something is still to be read. -/
theorem not_completes_nil : ¬ p.Completes names goals [] := by
  rintro ⟨names', h⟩
  obtain ⟨-, hrest⟩ := List.cons.inj (Except.ok.inj h)
  exact p.inside hrest

/-- Goals that make the same move are met by the same tokens. -/
theorem completes_congr (h : moveOf p.name t goals = moveOf p.name t goals') :
    p.Completes names goals (t :: ts) ↔ p.Completes names goals' (t :: ts) := by
  cases hm : moveOf p.name t goals' with
  | error r =>
    exact iff_of_false (not_completes_of_refused (h.trans hm)) (not_completes_of_refused hm)
  | ok m => rw [completes_cons (h.trans hm), completes_cons hm]

/-- A goal that takes tokens of one kind refuses those of another. -/
theorem refuses_kind {k' : Kind} {deed : Deed}
    (hg : ∀ t, g.move p.name t = Move.onKind t k deed goals) (hstart : g.start? = none)
    (h : k' ≠ k) : p.Refuses (g :: gs) k' := by
  rintro t rfl
  refine ⟨.unexpected, ?_⟩
  rw [moveOf_cons_of_none hstart, hg, Move.onKind_eq_error _ h]
  rfl

theorem refuses_token {k' : Kind} (h : k' ≠ k) : p.Refuses (.token k :: gs) k' :=
  refuses_kind (fun _ => rfl) rfl h

/-- A goal that is passed on refuses what the goals behind it refuse. -/
theorem refuses_cons (hg : g.start? = some k) {k' : Kind} (hk : k' ≠ k) (h : p.Refuses gs k') :
    p.Refuses (g :: gs) k' := by
  rintro t rfl
  rw [moveOf_cons_of_passesOn ((Goal.passesOn_eq_true hg).mpr hk)]
  exact h t rfl

end Completing

/-! ## Meaning of goals -/

namespace Means

variable {α β : Type} {φ : Phrase α} {ψ : Phrase β} {ends ends' : List Kind}

/-- Inside a procedure there is a token to look at, or else nothing is met. -/
theorem of_cons (h : ∀ names gs t ts, (t :: ts).length ≤ n → (∀ u ∈ t :: ts, u.Plain) →
    (∀ k ∈ ends, p.Refuses gs k) → (p.Completes names (goals ++ gs) (t :: ts) ↔
      ∃ x us vs, t :: ts = us ++ vs ∧ Spells us (φ.terminals x) ∧ φ.Lawful names x ∧
        p.Completes (names ++ φ.declares x) gs vs)) : p.Means n goals ends φ := by
  intro names gs ts hts hplain hends
  cases ts with
  | nil =>
    refine iff_of_false not_completes_nil ?_
    rintro ⟨x, us, vs, heq, -, -, h⟩
    rw [(List.append_eq_nil_iff.mp heq.symm).2] at h
    exact not_completes_nil h
  | cons t ts => exact h names gs t ts hts hplain hends

theorem zero : p.Means 0 goals ends φ :=
  of_cons fun _ _ _ _ hts => absurd hts (Nat.not_succ_le_zero _)

theorem map (h : p.Means n goals ends φ) {f : α → β} (hf : φ.Gives ψ f) :
    p.Means n goals ends ψ := by
  intro names gs ts hts hplain hends
  rw [h names gs ts hts hplain hends, Function.Surjective.exists hf.onto]
  simp only [hf.terminals, hf.declares, hf.lawful]

/-- Goals one behind the other, where the first ones are ended by what the others begin with. -/
theorem both (h : p.Means n goals ends φ) (h' : p.Means n goals' ends' ψ)
    (hends : ∀ gs, (∀ k ∈ ends', p.Refuses gs k) → ∀ k ∈ ends, p.Refuses (goals' ++ gs) k) :
    p.Means n (goals ++ goals') ends' (φ.both ψ) := by
  intro names gs ts hts hplain hrefuses
  rw [List.append_assoc, h names (goals' ++ gs) ts hts hplain (hends gs hrefuses)]
  constructor
  · rintro ⟨x, us, vs, rfl, hus, hx, hvs⟩
    rw [List.length_append] at hts
    have hplain' : ∀ t ∈ vs, t.Plain := fun t ht => hplain t (List.mem_append_right _ ht)
    obtain ⟨y, us', vs', rfl, hus', hy, hrest⟩ :=
      (h' _ gs vs (by omega) hplain' hrefuses).mp hvs
    refine ⟨(x, y), us ++ us', vs', (List.append_assoc ..).symm, hus.append hus', ⟨hx, hy⟩, ?_⟩
    rwa [List.append_assoc] at hrest
  · rintro ⟨⟨x, y⟩, us, vs, rfl, hus, ⟨hx, hy⟩, hrest⟩
    obtain ⟨us₁, us₂, rfl, hus₁, hus₂⟩ := spells_append.mp hus
    rw [List.append_assoc] at hts hplain ⊢
    rw [List.length_append] at hts
    refine ⟨x, us₁, us₂ ++ vs, rfl, hus₁, hx, ?_⟩
    refine (h' _ gs _ (by omega) (fun t ht => hplain t (List.mem_append_right _ ht))
      hrefuses).mpr ⟨y, us₂, vs, rfl, hus₂, hy, ?_⟩
    rwa [List.append_assoc]

/-- A goal that takes one token. -/
theorem one {w : α → Terminal} (hw : ∀ x, φ.terminals x = [w x])
    (htake : ∀ names gs t ts, t.Plain → (p.Completes names (goals ++ gs) (t :: ts) ↔
      ∃ x, (w x).Matches t ∧ φ.Lawful names x ∧ p.Completes (names ++ φ.declares x) gs ts)) :
    p.Means n goals [] φ := by
  refine of_cons fun names gs t ts _ hplain _ => ?_
  simp only [hw, spells_singleton]
  rw [htake names gs t ts (hplain t List.mem_cons_self)]
  constructor
  · rintro ⟨x, hx, hlawful, h⟩
    exact ⟨x, [t], ts, rfl, ⟨t, rfl, hx⟩, hlawful, h⟩
  · rintro ⟨x, us, vs, heq, ⟨u, rfl, hx⟩, hlawful, h⟩
    cases heq
    exact ⟨x, hx, hlawful, h⟩

/-- A goal that reads a token of a kind. -/
theorem kind (hg : ∀ t, g.move p.name t = Move.onKind t k .read []) (hstart : g.start? = none) :
    p.Means n [g] [] (.kind k) := by
  refine one (w := fun _ => .kind k) (fun _ => rfl) fun names gs t ts _ => ?_
  have hdeclares : names ++ (Phrase.kind k).declares () = names := List.append_nil _
  constructor
  · intro h
    obtain ⟨m, hm⟩ := exists_moves_of_completes hstart h
    obtain ⟨hk, rfl⟩ := Move.onKind_eq_ok_iff.mp ((hg t).symm.trans (Goal.move_eq_ok_iff.mpr hm))
    exact ⟨(), hk, trivial, hdeclares.symm ▸ (completes_read hm.moveOf_eq).mp h⟩
  · rintro ⟨⟨⟩, hk, -, h⟩
    have hm := Goal.move_eq_ok_iff.mp ((hg t).trans (Move.onKind_eq .read hk))
    exact (completes_read hm.moveOf_eq).mpr (hdeclares ▸ h)

theorem token (k : Kind) : p.Means n [.token k] [] (.kind k) := kind (fun _ => rfl) rfl

theorem newName : p.Means n [.newName] [] .newName := by
  refine one (w := .name) (fun _ => rfl) fun names gs t ts _ => ?_
  constructor
  · intro h
    obtain ⟨m, hm⟩ := exists_moves_of_completes rfl h
    cases hm with
    | newName hk =>
      obtain ⟨hnew, h⟩ := (completes_declare (Goal.Moves.newName hk).moveOf_eq).mp h
      exact ⟨t.lexeme, ⟨hk, rfl⟩, hnew, h⟩
  · rintro ⟨y, ⟨hk, rfl⟩, hnew, h⟩
    exact (completes_declare (Goal.Moves.newName hk).moveOf_eq).mpr ⟨hnew, h⟩

/-! ## Repetition -/

/-- A goal that may be left out, or is left to be read again behind a phrase that a token of the
kind `k` begins. -/
theorem many (hg : g.start? = some k)
    (hround : ∀ names gs t ts, (t :: ts).length ≤ n → (∀ u ∈ t :: ts, u.Plain) →
      (∀ k' ∈ k :: ends, p.Refuses gs k') → t.kind = k →
      (p.Completes names (g :: gs) (t :: ts) ↔
        ∃ x us vs, t :: ts = us ++ vs ∧ Spells us (φ.terminals x) ∧ φ.Lawful names x ∧
          p.Completes (names ++ φ.declares x) (g :: gs) vs))
    (hbegins : ∀ x us, Spells us (φ.terminals x) → ∃ t ts, us = t :: ts ∧ t.kind = k) :
    p.Means n [g] (k :: ends) φ.many := by
  intro names gs ts hts hplain hends
  rw [List.singleton_append]
  -- by induction on the number of tokens, of which every round takes one at least
  induction hlength : ts.length using Nat.strong_induction_on generalizing names ts with
  | h m ih =>
  subst hlength
  cases ts with
  | nil =>
    refine iff_of_false not_completes_nil ?_
    rintro ⟨xs, us, vs, heq, -, -, h⟩
    rw [(List.append_eq_nil_iff.mp heq.symm).2] at h
    exact not_completes_nil h
  | cons t ts =>
    have hmore : ∀ x us vs, t :: ts = us ++ vs → Spells us (φ.terminals x) →
        vs.length < (t :: ts).length ∧ vs.length ≤ n ∧ ∀ u ∈ vs, u.Plain := by
      intro x us vs heq hus
      obtain ⟨u, us, rfl, -⟩ := hbegins x us hus
      have hlt : vs.length < (t :: ts).length := by
        rw [heq, List.length_append, List.length_cons]
        omega
      exact ⟨hlt, by omega, fun u hu => hplain u (heq ▸ List.mem_append_right _ hu)⟩
    by_cases hk : t.kind = k
    · rw [hround names gs t ts hts hplain hends hk]
      constructor
      · rintro ⟨x, us, vs, heq, hus, hx, h⟩
        obtain ⟨hlt, hle, hplain'⟩ := hmore x us vs heq hus
        obtain ⟨xs, us', vs', rfl, hus', hxs, h⟩ := (ih _ hlt _ vs hle hplain' rfl).mp h
        refine ⟨x :: xs, us ++ us', vs', by rw [heq, List.append_assoc], hus.append hus',
          ⟨hx, hxs⟩, ?_⟩
        rwa [List.append_assoc] at h
      · rintro ⟨xs, us, vs, heq, hus, hxs, h⟩
        cases xs with
        | nil =>
          cases spells_nil.mp hus
          obtain rfl : t :: ts = vs := heq
          obtain ⟨r, hr⟩ := hends k List.mem_cons_self t hk
          exact absurd h (not_completes_of_refused hr)
        | cons x xs =>
          obtain ⟨us₁, us₂, rfl, hus₁, hus₂⟩ := spells_append.mp hus
          rw [List.append_assoc] at heq
          obtain ⟨hlt, hle, hplain'⟩ := hmore x us₁ _ heq hus₁
          refine ⟨x, us₁, us₂ ++ vs, heq, hus₁, hxs.1, ?_⟩
          refine (ih _ hlt _ _ hle hplain' rfl).mpr ⟨xs, us₂, vs, rfl, hus₂, hxs.2, ?_⟩
          rwa [List.append_assoc]
    · have hpass : p.Completes names (g :: gs) (t :: ts) ↔ p.Completes names gs (t :: ts) :=
        completes_congr (moveOf_cons_of_passesOn ((Goal.passesOn_eq_true hg).mpr hk))
      rw [hpass]
      constructor
      · intro h
        refine ⟨[], [], t :: ts, rfl, spells_nil.mpr rfl, trivial, ?_⟩
        rwa [show φ.many.declares [] = [] from rfl, List.append_nil]
      · rintro ⟨xs, us, vs, heq, hus, hxs, h⟩
        cases xs with
        | nil =>
          cases spells_nil.mp hus
          obtain rfl : t :: ts = vs := heq
          rwa [show φ.many.declares [] = [] from rfl, List.append_nil] at h
        | cons x xs =>
          obtain ⟨us₁, us₂, rfl, hus₁, hus₂⟩ := spells_append.mp hus
          obtain ⟨u, us₁, rfl, hu⟩ := hbegins x us₁ hus₁
          cases heq
          exact absurd hu hk

/-- A goal that a token of the kind `k` makes the same as other goals in front of it. -/
theorem many_of_same (hg : g.start? = some k) (hitem : p.Means n goals ends' φ)
    (hsame : ∀ (t : Token) gs, t.kind = k →
      moveOf p.name t (g :: gs) = moveOf p.name t (goals ++ g :: gs))
    (hends : ∀ gs, (∀ k' ∈ k :: ends, p.Refuses gs k') → ∀ k' ∈ ends', p.Refuses (g :: gs) k')
    (hbegins : ∀ x us, Spells us (φ.terminals x) → ∃ t ts, us = t :: ts ∧ t.kind = k) :
    p.Means n [g] (k :: ends) φ.many := by
  refine many hg (fun names gs t ts hts hplain hrefuses hk => ?_) hbegins
  rw [completes_congr (hsame t gs hk)]
  exact hitem names (g :: gs) (t :: ts) hts hplain (hends gs hrefuses)

variable (goals) in
/-- A goal that a token of the kind `k` turns into other goals in front of it. -/
theorem many_of_read (hg : g.start? = some k)
    (hmove : ∀ t : Token, t.kind = k → g.move p.name t = .ok ⟨.read, goals ++ [g]⟩)
    (hitem : p.Means n goals ends' φ)
    (hends : ∀ gs, (∀ k' ∈ k :: ends, p.Refuses gs k') → ∀ k' ∈ ends', p.Refuses (g :: gs) k') :
    p.Means n [g] (k :: ends) ((Phrase.kind k).both φ).many := by
  refine many_of_same hg ((token k).both hitem fun _ _ k' hk' => absurd hk' List.not_mem_nil)
    (fun t gs hk => ?_) hends fun x us hus => ?_
  · rw [(Goal.move_eq_ok_iff.mp (hmove t hk)).moveOf_eq, List.append_assoc, List.append_assoc]
    exact (Goal.Moves.token hk).moveOf_eq.symm
  · obtain ⟨us₁, us₂, rfl, hus₁, -⟩ := spells_append.mp hus
    obtain ⟨t, rfl, hk⟩ := spells_singleton.mp hus₁
    exact ⟨t, us₂, rfl, hk⟩

end Means

end Place

end ProcLang
