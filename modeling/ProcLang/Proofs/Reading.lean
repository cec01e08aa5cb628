import Mathlib
import ProcLang.Analysis.Declarations

/-!
# Reading by goals

The language can be read with a stack instead of recursion: for every open procedure there is a
frame with the names declared in its scope and the goals that are still to be read. A token is taken
by the first goal of the innermost frame that does not pass it on (`take`), and what it leaves to be
read is put in the place of that goal.

The names and literals that the language refuses are refused by `take` when their token comes
(`Refusal`), so a list of tokens can be taken as a whole exactly as long as nothing is wrong with it.
-/

namespace ProcLang

/-- Something that is still to be read. -/
inductive Goal where
  /-- A token of the kind. -/
  | token (kind : Kind)
  /-- The name of a procedure that is opened. -/
  | procedureName
  /-- A list of parameters, if there is one. -/
  | arguments
  /-- A group of parameters. -/
  | group
  /-- Further groups of parameters. -/
  | moreGroups
  /-- The parenthesis behind a list of parameters. -/
  | endArguments
  /-- A name that is declared. -/
  | newName
  /-- Further names of a group. -/
  | moreNames
  /-- A type, or a constant with its value. -/
  | typeMark
  /-- The value of a constant. -/
  | literal
  /-- Groups of local names. -/
  | locals
  /-- Nested procedures. -/
  | procedures
  /-- Statements. -/
  | statements
  /-- A factor. -/
  | factor
  /-- Further factors of a term. -/
  | moreFactors
  /-- Further terms of an expression. -/
  | moreTerms
  /-- The name of the procedure, behind its last statement. -/
  | closingName
  /-- The semicolon that ends the procedure. -/
  | close
  deriving DecidableEq, Repr

namespace Goal

/-- The kind that a goal begins with if it may be left out. -/
def start? : Goal → Option Kind
  | arguments => some .leftParen
  | moreGroups => some .semicolon
  | moreNames => some .comma
  | locals => some .identifier
  | procedures => some .procedureWord
  | statements => some .identifier
  | moreFactors => some .multiplicative
  | moreTerms => some .additive
  | _ => none

/-- Whether the goal may be left out and a token of the kind does not begin it. -/
def passesOn (g : Goal) (k : Kind) : Bool := g.start?.any (· ≠ k)

/-- The names of a group behind the first one, and its type mark. -/
def restOfGroup : List Goal := [moreNames, token .colon, typeMark]

/-- An expression. -/
def expression : List Goal := [factor, moreFactors, moreTerms]

/-- A procedure behind its name. -/
def procedure : List Goal :=
  [arguments, token .isWord, locals, procedures, token .beginWord, statements, token .endWord,
   closingName, close]

end Goal

/-- What a token does to the scopes: nothing, or it uses a name, declares one, opens the procedure
of the name, or closes the innermost procedure. -/
inductive Deed where
  | read
  | use
  | declare
  | enter
  | leave
  deriving DecidableEq, Repr

/-- The deed of a token that is taken, and the goals that it leaves. -/
structure Move where
  deed : Deed
  goals : List Goal
  deriving DecidableEq, Repr

/-- Why a token is not taken. -/
inductive Refusal where
  /-- The goals do not begin with such a token. -/
  | unexpected
  /-- A name is used that is not declared. -/
  | undefined
  /-- The name is declared in its scope already. -/
  | duplicate
  /-- The procedure has another name. -/
  | otherClosingName
  /-- The numeral of a constant has no value. -/
  | noValue
  deriving DecidableEq, Repr

/-- Whether an analysis has taken the token when it finds the reason. -/
def Refusal.isLate : Refusal → Bool
  | duplicate | noValue => true
  | _ => false

/-- A move that tokens of one kind make. -/
def Move.onKind (t : Token) (k : Kind) (deed : Deed) (goals : List Goal) : Except Refusal Move :=
  if t.kind = k then .ok ⟨deed, goals⟩ else .error .unexpected

open Analysis Numeral Move in
/-- The move of a token at a goal of the procedure with the name. -/
def Goal.move (name : String) (t : Token) : Goal → Except Refusal Move
  | token k => onKind t k .read []
  | procedureName => onKind t .identifier .enter []
  | arguments => onKind t .leftParen .read [group, moreGroups, endArguments]
  | group =>
    if (modeOfWord? t.lexeme).isSome then .ok ⟨.read, newName :: restOfGroup⟩
    else onKind t .identifier .declare restOfGroup
  | moreGroups => onKind t .semicolon .read [group, moreGroups]
  | endArguments => onKind t .rightParen .read []
  | newName => onKind t .identifier .declare []
  | moreNames => onKind t .comma .read [newName, moreNames]
  | typeMark =>
    if (primitiveType? t.kind).isSome then .ok ⟨.read, []⟩
    else onKind t .constantWord .read [token .assign, literal]
  | literal =>
    if t.kind = .number ∧ ¬ (Value.parse t.lexeme).isOk then .error .noValue
    else onKind t .number .read []
  | locals => onKind t .identifier .declare (restOfGroup ++ [token .semicolon, locals])
  | procedures => onKind t .procedureWord .read [procedureName, procedures]
  | statements =>
    onKind t .identifier .use (token .assign :: expression ++ [token .semicolon, statements])
  | factor =>
    match t.kind with
    | .identifier => .ok ⟨.use, []⟩
    | .number => .ok ⟨.read, []⟩
    | .leftParen => .ok ⟨.read, expression ++ [token .rightParen]⟩
    | .notWord => .ok ⟨.read, [factor]⟩
    | .additive => if t.lexeme = "-" then .ok ⟨.read, [factor]⟩ else .error .unexpected
    | _ => .error .unexpected
  | moreFactors => onKind t .multiplicative .read [factor, moreFactors]
  | moreTerms => onKind t .additive .read expression
  | closingName =>
    if Text.lower t.lexeme = Text.lower name then onKind t .identifier .read []
    else .error .otherClosingName
  | close => onKind t .semicolon .leave []

/-- The move of a token at a list of goals. -/
def moveOf (name : String) (t : Token) : List Goal → Except Refusal Move
  | [] => .error .unexpected
  | g :: gs =>
    if g.passesOn t.kind then moveOf name t gs
    else (g.move name t).map fun m => ⟨m.deed, m.goals ++ gs⟩

/-- An open procedure: its name, the names declared in its scope, and what it still has to read. -/
structure Frame where
  name : String
  names : List String
  goals : List Goal
  deriving DecidableEq, Repr

/-- A procedure that has just been opened. -/
def Frame.opened (name : String) : Frame := ⟨name, [], Goal.procedure⟩

/-- Where names are declared that are visible: in one of the frames, or around them. -/
def Visible (outer : List String) (frames : List Frame) (name : String) : Prop :=
  name ∈ outer ∨ ∃ f ∈ frames, name ∈ f.names

instance (outer : List String) (frames : List Frame) (name : String) :
    Decidable (Visible outer frames name) :=
  inferInstanceAs (Decidable (_ ∨ _))

/-- The frames after a deed with a name, where `f` is the innermost frame and `rest` the others. -/
def Deed.apply (outer : List String) (name : String) (f : Frame) (rest : List Frame) :
    Deed → Except Refusal (List Frame)
  | .read => .ok (f :: rest)
  | .use => if Visible outer (f :: rest) name then .ok (f :: rest) else .error .undefined
  | .declare =>
    if name ∈ f.names then .error .duplicate
    else .ok ({ f with names := f.names ++ [name] } :: rest)
  | .enter =>
    if name ∈ f.names then .error .duplicate
    else .ok (.opened name :: { f with names := f.names ++ [name] } :: rest)
  | .leave => .ok rest

/-- Takes a token, where the names in `outer` are declared around the frames. -/
def take (outer : List String) : List Frame → Token → Except Refusal (List Frame)
  | [], _ => .error .unexpected
  | f :: rest, t => do
    let m ← moveOf f.name t f.goals
    m.deed.apply outer t.lexeme { f with goals := m.goals } rest

/-- Takes a list of tokens. -/
def takeAll (outer : List String) (frames : List Frame) (ts : List Token) :
    Except Refusal (List Frame) :=
  ts.foldlM (take outer) frames

/-- The frame of a scope in which a procedure is to be read. -/
def Frame.base (names : List String) : Frame := ⟨"", names, [.token .procedureWord, .procedureName]⟩

/-- The tokens are those of one procedure, with no names declared around it. -/
def Readable (ts : List Token) : Prop := ∃ names, takeAll [] [.base []] ts = .ok [⟨"", names, []⟩]

/-! ## What goals begin with -/

/-- The kinds that an analysis names as expected where the goal is not met. -/
def Goal.wanted : Goal → List Kind
  | token k => [k]
  | procedureName | group | newName | closingName => [.identifier]
  | endArguments => [.rightParen]
  | typeMark => [.integerWord, .floatWord, .charWord, .constantWord]
  | literal | factor => [.number]
  | close => [.semicolon]
  | _ => []

/-- The kinds that the goals can begin with, those that are not named as expected left out. -/
def heads : List Goal → List Kind
  | [] => []
  | g :: gs =>
    match g.start? with
    | some k => k :: heads gs
    | none => g.wanted

/-- The moves that tokens make at the goals, one case for each of them. -/
inductive Goal.Moves (name : String) (t : Token) : Goal → Move → Prop
  | token {k : Kind} : t.kind = k → Moves name t (.token k) ⟨.read, []⟩
  | procedureName : t.kind = .identifier → Moves name t .procedureName ⟨.enter, []⟩
  | arguments : t.kind = .leftParen →
    Moves name t .arguments ⟨.read, [.group, .moreGroups, .endArguments]⟩
  | mode : (Analysis.modeOfWord? t.lexeme).isSome →
    Moves name t .group ⟨.read, .newName :: restOfGroup⟩
  | group : Analysis.modeOfWord? t.lexeme = none → t.kind = .identifier →
    Moves name t .group ⟨.declare, restOfGroup⟩
  | moreGroups : t.kind = .semicolon → Moves name t .moreGroups ⟨.read, [.group, .moreGroups]⟩
  | endArguments : t.kind = .rightParen → Moves name t .endArguments ⟨.read, []⟩
  | newName : t.kind = .identifier → Moves name t .newName ⟨.declare, []⟩
  | moreNames : t.kind = .comma → Moves name t .moreNames ⟨.read, [.newName, .moreNames]⟩
  | primitive : (Analysis.primitiveType? t.kind).isSome → Moves name t .typeMark ⟨.read, []⟩
  | constant : t.kind = .constantWord →
    Moves name t .typeMark ⟨.read, [.token .assign, .literal]⟩
  | literal : t.kind = .number → (Numeral.Value.parse t.lexeme).isOk →
    Moves name t .literal ⟨.read, []⟩
  | locals : t.kind = .identifier →
    Moves name t .locals ⟨.declare, restOfGroup ++ [.token .semicolon, .locals]⟩
  | procedures : t.kind = .procedureWord →
    Moves name t .procedures ⟨.read, [.procedureName, .procedures]⟩
  | statements : t.kind = .identifier → Moves name t .statements
      ⟨.use, .token .assign :: expression ++ [.token .semicolon, .statements]⟩
  | name : t.kind = .identifier → Moves name t .factor ⟨.use, []⟩
  | number : t.kind = .number → Moves name t .factor ⟨.read, []⟩
  | parens : t.kind = .leftParen →
    Moves name t .factor ⟨.read, expression ++ [.token .rightParen]⟩
  | not : t.kind = .notWord → Moves name t .factor ⟨.read, [.factor]⟩
  | minus : t.kind = .additive → t.lexeme = "-" → Moves name t .factor ⟨.read, [.factor]⟩
  | moreFactors : t.kind = .multiplicative →
    Moves name t .moreFactors ⟨.read, [.factor, .moreFactors]⟩
  | moreTerms : t.kind = .additive → Moves name t .moreTerms ⟨.read, expression⟩
  | closingName : Text.lower t.lexeme = Text.lower name → t.kind = .identifier →
    Moves name t .closingName ⟨.read, []⟩
  | close : t.kind = .semicolon → Moves name t .close ⟨.leave, []⟩

/-! ## What each definition does -/

section Lemmas

variable {name : String} {t : Token} {g : Goal} {gs : List Goal} {outer : List String}
  {f : Frame} {rest frames frames' : List Frame} {ts us : List Token} {m : Move} {r : Refusal}

theorem Goal.passesOn_eq_true {k : Kind} (h : g.start? = some k) :
    g.passesOn t.kind = true ↔ t.kind ≠ k := by
  unfold passesOn
  rw [h, Option.any_some, decide_eq_true_eq, ne_comm]

theorem Goal.passesOn_of_none (h : g.start? = none) (k : Kind) : g.passesOn k = false := by
  unfold passesOn
  rw [h, Option.any_none]

theorem moveOf_cons_of_passesOn (h : g.passesOn t.kind = true) :
    moveOf name t (g :: gs) = moveOf name t gs := by
  rw [moveOf, if_pos h]

theorem moveOf_cons (h : g.passesOn t.kind = false) :
    moveOf name t (g :: gs) = (g.move name t).map fun m => ⟨m.deed, m.goals ++ gs⟩ := by
  rw [moveOf, if_neg (by simp [h])]

theorem moveOf_cons_of_none (h : g.start? = none) :
    moveOf name t (g :: gs) = (g.move name t).map fun m => ⟨m.deed, m.goals ++ gs⟩ :=
  moveOf_cons (Goal.passesOn_of_none h _)

theorem exists_move_of_moveOf (hpass : g.passesOn t.kind = false)
    (h : moveOf name t (g :: gs) = .ok m) :
    ∃ m', g.move name t = .ok m' ∧ m = ⟨m'.deed, m'.goals ++ gs⟩ := by
  rw [moveOf_cons hpass] at h
  cases hm : g.move name t with
  | error r =>
    rw [hm] at h
    cases h
  | ok m' =>
    rw [hm] at h
    cases h
    exact ⟨m', rfl, rfl⟩

theorem Move.onKind_eq (deed : Deed) {k : Kind} (h : t.kind = k) :
    onKind t k deed gs = .ok ⟨deed, gs⟩ := if_pos h

theorem Move.onKind_eq_error (deed : Deed) {k : Kind} (h : t.kind ≠ k) :
    onKind t k deed gs = .error .unexpected := if_neg h

theorem Move.onKind_eq_ok_iff {deed : Deed} {k : Kind} :
    onKind t k deed gs = .ok m ↔ t.kind = k ∧ m = ⟨deed, gs⟩ := by
  unfold onKind
  split
  · next hk => rw [Except.ok.injEq, eq_comm, and_iff_right hk]
  · next hk => exact iff_of_false (fun h => by cases h) fun h => hk h.1

/-- A goal makes a move exactly as its case says. -/
theorem Goal.move_eq_ok_iff : g.move name t = .ok m ↔ g.Moves name t m := by
  constructor
  · intro h
    cases g with
    | group =>
      rw [move] at h
      split at h
      · next hmode =>
        cases h
        exact .mode hmode
      · next hmode =>
        obtain ⟨hk, rfl⟩ := Move.onKind_eq_ok_iff.mp h
        exact .group (by simpa using hmode) hk
    | typeMark =>
      rw [move] at h
      split at h
      · next htype =>
        cases h
        exact .primitive htype
      · obtain ⟨hk, rfl⟩ := Move.onKind_eq_ok_iff.mp h
        exact .constant hk
    | literal =>
      rw [move] at h
      split at h
      · cases h
      · next hvalue =>
        obtain ⟨hk, rfl⟩ := Move.onKind_eq_ok_iff.mp h
        exact .literal hk (by_contra fun hno => hvalue ⟨hk, hno⟩)
    | factor =>
      rw [move] at h
      split at h
      · next hk =>
        cases h
        exact .name hk
      · next hk =>
        cases h
        exact .number hk
      · next hk =>
        cases h
        exact .parens hk
      · next hk =>
        cases h
        exact .not hk
      · next hk =>
        split at h
        · next hminus =>
          cases h
          exact .minus hk hminus
        · cases h
      · cases h
    | closingName =>
      rw [move] at h
      split at h
      · next hlower =>
        obtain ⟨hk, rfl⟩ := Move.onKind_eq_ok_iff.mp h
        exact .closingName hlower hk
      · cases h
    | _ =>
      obtain ⟨hk, rfl⟩ := Move.onKind_eq_ok_iff.mp h
      constructor
      exact hk
  · intro h
    cases h with
    | constant hk => simp [move, Move.onKind, Analysis.primitiveType?, hk]
    | _ => simp [move, Move.onKind, *]

/-- A goal that makes a move is not left out. -/
theorem Goal.Moves.passesOn (h : g.Moves name t m) : g.passesOn t.kind = false := by
  cases h <;> simp [Goal.passesOn, start?, *]

theorem Goal.Moves.moveOf_eq (h : g.Moves name t m) :
    moveOf name t (g :: gs) = .ok ⟨m.deed, m.goals ++ gs⟩ := by
  rw [moveOf_cons h.passesOn, Goal.move_eq_ok_iff.mpr h]
  rfl

@[simp] theorem heads_token {k : Kind} : heads (.token k :: gs) = [k] := rfl

@[simp] theorem heads_endArguments : heads (.endArguments :: gs) = [.rightParen] := rfl

/-- A move at a list of goals is that of one of them, those before it being passed on. -/
theorem moveOf_induction {P : List Goal → Prop} {Q : Move → Prop}
    (hpass : ∀ g gs, P (g :: gs) → g.passesOn t.kind = true → P gs)
    (hmove : ∀ g gs m, P (g :: gs) → g.move name t = .ok m → Q ⟨m.deed, m.goals ++ gs⟩)
    (h : P gs) (hm : moveOf name t gs = .ok m) : Q m := by
  induction gs with
  | nil => cases hm
  | cons g gs ih =>
    by_cases hp : g.passesOn t.kind = true
    · rw [moveOf_cons_of_passesOn hp] at hm
      exact ih (hpass g gs h hp) hm
    · obtain ⟨m', hm', rfl⟩ := exists_move_of_moveOf (by simpa using hp) hm
      exact hmove g gs m' h hm'

/-- No other goals leave local names or a closing name to be read. -/
theorem eq_of_mem_move {g' : Goal} {m : Move} (hg : g = .locals ∨ g = .closingName)
    (h : g'.move name t = .ok m) (hm : g ∈ m.goals) : g = g' := by
  rcases hg with rfl | rfl
  all_goals
    cases Goal.move_eq_ok_iff.mp h <;> first | rfl | exact absurd hm (by decide)

theorem mem_of_moveOf (hg : g = .locals ∨ g = .closingName) (h : moveOf name t gs = .ok m)
    (hm : g ∈ m.goals) : g ∈ gs := by
  by_contra hno
  refine moveOf_induction (P := (g ∉ ·)) (Q := fun m => g ∉ m.goals)
    (fun _ _ hno _ => fun hm => hno (List.mem_cons_of_mem _ hm)) ?_ hno h hm
  intro g' gs' m' hno hm' hmem
  rcases List.mem_append.mp hmem with hmem | hmem
  · exact hno (eq_of_mem_move hg hm' hmem ▸ List.mem_cons_self)
  · exact hno (List.mem_cons_of_mem _ hmem)

theorem take_of_move (h : moveOf f.name t f.goals = .ok m) :
    take outer (f :: rest) t = m.deed.apply outer t.lexeme { f with goals := m.goals } rest := by
  show moveOf f.name t f.goals >>= _ = _
  rw [h]
  rfl

theorem take_of_refused (h : moveOf f.name t f.goals = .error r) :
    take outer (f :: rest) t = .error r := by
  show moveOf f.name t f.goals >>= _ = _
  rw [h]
  rfl

/-- Only a name that is used is refused before it is taken. -/
theorem Deed.isLate_of_apply {deed : Deed} {y : String}
    (hv : deed = .use → Visible outer (f :: rest) y)
    (h : deed.apply outer y f rest = .error r) : r.isLate := by
  cases deed with
  | read | leave => cases h
  | use =>
    rw [Deed.apply, if_pos (hv rfl)] at h
    cases h
  | declare | enter =>
    simp only [Deed.apply] at h
    split at h
    · cases h
      rfl
    · cases h

/-- What is taken makes a move. -/
theorem exists_move_of_take (h : take outer (f :: rest) t = .ok frames) :
    ∃ m, moveOf f.name t f.goals = .ok m ∧
      m.deed.apply outer t.lexeme { f with goals := m.goals } rest = .ok frames := by
  cases hm : moveOf f.name t f.goals with
  | error r => rw [take_of_refused hm] at h; cases h
  | ok m => exact ⟨m, rfl, (take_of_move hm).symm.trans h⟩

theorem bind_eq_ok {ε α β : Type} {x : Except ε α} {k : α → Except ε β} {b : β} :
    x >>= k = .ok b ↔ ∃ a, x = .ok a ∧ k a = .ok b := by
  cases x with
  | error e =>
    constructor
    · intro h
      cases h
    · rintro ⟨a, h, -⟩
      cases h
  | ok a =>
    constructor
    · exact fun h => ⟨a, rfl, h⟩
    · rintro ⟨a', h, h'⟩
      cases h
      exact h'

@[simp] theorem takeAll_nil : takeAll outer frames [] = .ok frames := rfl

theorem takeAll_cons :
    takeAll outer frames (t :: ts) = take outer frames t >>= fun fs => takeAll outer fs ts := rfl

theorem takeAll_append :
    takeAll outer frames (ts ++ us) =
      takeAll outer frames ts >>= fun fs => takeAll outer fs us := by
  unfold takeAll
  rw [List.foldlM_append]

theorem takeAll_cons_eq_ok :
    takeAll outer frames (t :: ts) = .ok frames' ↔
      ∃ fs, take outer frames t = .ok fs ∧ takeAll outer fs ts = .ok frames' := by
  rw [takeAll_cons, bind_eq_ok]

theorem takeAll_append_eq_ok :
    takeAll outer frames (ts ++ us) = .ok frames' ↔
      ∃ fs, takeAll outer frames ts = .ok fs ∧ takeAll outer fs us = .ok frames' := by
  rw [takeAll_append, bind_eq_ok]

theorem takeAll_concat (h : takeAll outer frames ts = .ok frames')  :
    takeAll outer frames (ts ++ [t]) = take outer frames' t := by
  rw [takeAll_append, h]
  show take outer frames' t >>= pure = _
  exact bind_pure _

/-- Each of the tokens that are taken is taken at the frames that those before it leave. -/
theorem exists_take_of_takeAll (h : takeAll outer frames (ts ++ t :: us) = .ok frames') :
    ∃ fs fs', takeAll outer frames ts = .ok fs ∧ take outer fs t = .ok fs' := by
  obtain ⟨fs, hts, h⟩ := takeAll_append_eq_ok.mp h
  obtain ⟨fs', ht, -⟩ := takeAll_cons_eq_ok.mp h
  exact ⟨fs, fs', hts, ht⟩

/-- What every token keeps that is taken, all tokens keep. -/
theorem takeAll_invariant {P : List Frame → Prop} {Q : Token → Prop}
    (hstep : ∀ {fs fs' t}, P fs → Q t → take outer fs t = .ok fs' → P fs')
    (h : P frames) (hts : ∀ t ∈ ts, Q t) (htaken : takeAll outer frames ts = .ok frames') :
    P frames' := by
  induction ts generalizing frames with
  | nil =>
    cases htaken
    exact h
  | cons t ts ih =>
    obtain ⟨ht, hts⟩ := List.forall_mem_cons.mp hts
    obtain ⟨fs, htake, htaken⟩ := takeAll_cons_eq_ok.mp htaken
    exact ih (hstep h ht htake) hts htaken

/-- A deed closes the innermost frame, or changes its names, or opens one more. -/
theorem Deed.eq_of_apply {deed : Deed} {y : String}
    (h : deed.apply outer y f rest = .ok frames) :
    (deed = .leave ∧ frames = rest) ∨
      (deed ≠ .leave ∧ ∃ names, frames = ⟨f.name, names, f.goals⟩ :: rest) ∨
      (deed = .enter ∧ ∃ names, frames = .opened y :: ⟨f.name, names, f.goals⟩ :: rest) := by
  cases deed with
  | read =>
    cases h
    exact Or.inr (Or.inl ⟨by decide, _, rfl⟩)
  | leave =>
    cases h
    exact Or.inl ⟨rfl, rfl⟩
  | use =>
    simp only [Deed.apply] at h
    split at h
    · cases h
      exact Or.inr (Or.inl ⟨by decide, _, rfl⟩)
    · cases h
  | declare =>
    simp only [Deed.apply] at h
    split at h
    · cases h
    · cases h
      exact Or.inr (Or.inl ⟨by decide, _, rfl⟩)
  | enter =>
    simp only [Deed.apply] at h
    split at h
    · cases h
    · cases h
      exact Or.inr (Or.inr ⟨rfl, _, rfl⟩)

/-- What the moves keep of the goals of a procedure holds of those of every frame. -/
theorem forall_goals_of_takeAll {P : List Goal → Prop} (hopened : P Goal.procedure)
    (hmove : ∀ {name t gs m}, P gs → moveOf name t gs = .ok m → P m.goals)
    (h : ∀ f ∈ frames, P f.goals) (hts : takeAll outer frames ts = .ok frames') :
    ∀ f ∈ frames', P f.goals := by
  refine takeAll_invariant (P := fun fs => ∀ f ∈ fs, P f.goals) (Q := fun _ => True)
    (fun {fs fs' t} h _ ht => ?_) h (fun _ _ => trivial) hts
  cases fs with
  | nil => cases ht
  | cons f rest =>
    obtain ⟨hf, hrest⟩ := List.forall_mem_cons.mp h
    obtain ⟨m, hm, hdeed⟩ := exists_move_of_take ht
    have hgoals := hmove hf hm
    rcases Deed.eq_of_apply hdeed with ⟨-, rfl⟩ | ⟨-, names, rfl⟩ | ⟨-, names, rfl⟩
    · exact hrest
    · exact List.forall_mem_cons.mpr ⟨hgoals, hrest⟩
    · exact List.forall_mem_cons.mpr ⟨hopened, List.forall_mem_cons.mpr ⟨hgoals, hrest⟩⟩

/-- A token changes the innermost frame, and may open one more or close it. -/
theorem take_eq_append (h : take outer (f :: rest) t = .ok frames') :
    ∃ new, frames' = new ++ rest := by
  obtain ⟨m, -, hdeed⟩ := exists_move_of_take h
  rcases Deed.eq_of_apply hdeed with ⟨-, rfl⟩ | ⟨-, names, rfl⟩ | ⟨-, names, rfl⟩
  · exact ⟨[], rfl⟩
  · exact ⟨[_], rfl⟩
  · exact ⟨[_, _], rfl⟩

/-- A frame in which nothing is to be read stays as it is. -/
theorem takeAll_concat_done {g : Frame} (hg : g.goals = [])
    (h : takeAll outer (frames ++ [g]) ts = .ok frames') : ∃ inner, frames' = inner ++ [g] := by
  refine takeAll_invariant (P := fun fs => ∃ inner, fs = inner ++ [g]) (Q := fun _ => True)
    (fun {fs fs' t} hinner _ htake => ?_) ⟨frames, rfl⟩ (fun _ _ => trivial) h
  obtain ⟨inner, rfl⟩ := hinner
  cases inner with
  | nil =>
    rw [List.nil_append, take_of_refused (r := .unexpected) (by rw [hg]; rfl)] at htake
    cases htake
  | cons f rest =>
    rw [List.cons_append] at htake
    obtain ⟨new, rfl⟩ := take_eq_append htake
    exact ⟨new ++ rest, (List.append_assoc _ _ _).symm⟩

/-- The outermost procedure begins with its word. -/
theorem take_base_eq_ok {names : List String} :
    take outer [.base names] t = .ok frames ↔
      t.kind = .procedureWord ∧ frames = [⟨"", names, [.procedureName]⟩] := by
  have hmove : moveOf "" t [.token .procedureWord, .procedureName] = _ :=
    moveOf_cons_of_none rfl
  rw [Goal.move] at hmove
  by_cases hk : t.kind = .procedureWord
  · rw [Move.onKind_eq _ hk] at hmove
    rw [Frame.base, take_of_move hmove, and_iff_right hk]
    exact ⟨fun h => (Except.ok.inj h).symm, fun h => congrArg Except.ok h.symm⟩
  · rw [Move.onKind_eq_error _ hk] at hmove
    rw [Frame.base, take_of_refused hmove]
    exact iff_of_false nofun fun h => hk h.1

/-- Behind its word stands its name. -/
theorem take_procedureName_eq_ok {names : List String} :
    take outer [⟨"", names, [.procedureName]⟩] t = .ok frames ↔
      t.kind = .identifier ∧ t.lexeme ∉ names ∧
        frames = [.opened t.lexeme, ⟨"", names ++ [t.lexeme], []⟩] := by
  have hmove : moveOf "" t [.procedureName] = _ := moveOf_cons_of_none rfl
  rw [Goal.move] at hmove
  by_cases hk : t.kind = .identifier
  · rw [Move.onKind_eq _ hk] at hmove
    rw [take_of_move hmove, and_iff_right hk]
    simp only [Deed.apply]
    by_cases hold : t.lexeme ∈ names
    · simp [hold]
    · simp only [hold, if_false, not_false_eq_true, true_and, Except.ok.injEq]
      exact eq_comm
  · rw [Move.onKind_eq_error _ hk] at hmove
    rw [take_of_refused hmove]
    exact iff_of_false nofun fun h => hk h.1

/-- The frame around the procedure that is read: before its name has been taken, and behind it. -/
theorem base_of_takeAll {names : List String}
    (h : takeAll outer [.base names] ts = .ok frames) :
    (∃ goals, goals ≠ [] ∧ frames = [⟨"", names, goals⟩]) ∨
      ∃ word name more inner, ts = word :: name :: more ∧ name.lexeme ∉ names ∧
        frames = inner ++ [⟨"", names ++ [name.lexeme], []⟩] := by
  match ts with
  | [] =>
    cases h
    exact Or.inl ⟨_, List.cons_ne_nil _ _, rfl⟩
  | [word] =>
    obtain ⟨frames₁, hword, h⟩ := takeAll_cons_eq_ok.mp h
    obtain ⟨-, rfl⟩ := take_base_eq_ok.mp hword
    cases h
    exact Or.inl ⟨_, List.cons_ne_nil _ _, rfl⟩
  | word :: name :: more =>
    obtain ⟨frames₁, hword, h⟩ := takeAll_cons_eq_ok.mp h
    obtain ⟨-, rfl⟩ := take_base_eq_ok.mp hword
    obtain ⟨frames₂, hname, h⟩ := takeAll_cons_eq_ok.mp h
    obtain ⟨-, hnew, rfl⟩ := take_procedureName_eq_ok.mp hname
    rw [← List.singleton_append] at h
    obtain ⟨inner, rfl⟩ := takeAll_concat_done rfl h
    exact Or.inr ⟨word, name, more, inner, rfl, hnew, rfl⟩

end Lemmas

/-! ## Fresh names -/

theorem length_lowerAfter (before cs : List Char) :
    cs.length ≤ (Text.lowerAfter before cs).length := by
  induction cs generalizing before with
  | nil => exact Nat.zero_le _
  | cons c rest ih =>
    have hone : ∀ c', 1 ≤ (Text.lowerChar c').length := by
      intro c'
      unfold Text.lowerChar
      repeat' split
      all_goals simp
    unfold Text.lowerAfter
    rw [List.length_append, List.length_cons]
    have hrest := ih (c :: before)
    split
    · simp only [List.length_singleton]
      omega
    · have hc := hone c
      omega

theorem modeOfWord?_empty : Analysis.modeOfWord? "" = none := by decide

/-- A long name is no mode. -/
theorem modeOfWord?_of_length {y : String} (h : 6 ≤ y.length) : Analysis.modeOfWord? y = none := by
  unfold Analysis.modeOfWord?
  rw [List.find?_eq_none]
  intro m _
  have hlong : 6 ≤ (Text.lower y).length := by
    unfold Text.lower
    rw [String.length_ofList]
    exact Nat.le_trans h (length_lowerAfter [] y.toList)
  rw [decide_eq_true_eq]
  intro heq
  rw [← heq] at hlong
  cases m <;> exact absurd hlong (by decide)

/-- A name that is longer than all words. -/
def longName (n : Nat) : String := String.ofList (List.replicate (n + 10) 'x')

theorem length_longName (n : Nat) : (longName n).length = n + 10 := by
  rw [longName, String.length_ofList, List.length_replicate]

theorem modeOfWord?_longName (n : Nat) : Analysis.modeOfWord? (longName n) = none :=
  modeOfWord?_of_length (by rw [length_longName]; omega)

/-- There is always a long name that is not among the given ones. -/
theorem exists_longName_not_mem (names : List String) : ∃ n, longName n ∉ names := by
  refine ⟨(names.map String.length).sum, fun hm => ?_⟩
  have hle := List.le_sum_of_mem (List.mem_map_of_mem (f := String.length) hm)
  rw [length_longName] at hle
  omega

end ProcLang
