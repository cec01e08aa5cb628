import Mathlib
import ProcLang.Numeral.Value
import ProcLang.SymbolTable.Symbol
import ProcLang.Text.LowerCase
import ProcLang.Token.Basic

/-!
# The grammar of the language

A text of the language is a procedure. Its derivation is a tree (`Procedure`), whose terminals say
of each token its kind, and its lexeme where that matters (`Procedure.terminals`). The rules on
names and numerals are stated on the tree (`Procedure.Obeys`).
-/

namespace ProcLang

/-! ## Terminals -/

/-- A terminal of the grammar: any token of a kind, or one with a given lexeme. -/
inductive Terminal where
  | kind (kind : Kind)
  | word (kind : Kind) (lexeme : String)
  deriving DecidableEq, Repr

/-- The token stands for the terminal. -/
def Terminal.Matches : Terminal → Token → Prop
  | kind k, t => t.kind = k
  | word k lexeme, t => t.kind = k ∧ t.lexeme = lexeme

instance : DecidableRel Terminal.Matches
  | .kind k, t => inferInstanceAs (Decidable (t.kind = k))
  | .word k lexeme, t => inferInstanceAs (Decidable (t.kind = k ∧ t.lexeme = lexeme))

/-- The tokens stand for the terminals one by one. -/
def Spells (ts : List Token) (ws : List Terminal) : Prop := List.Forall₂ Terminal.Matches ws ts

instance (ts : List Token) (ws : List Terminal) : Decidable (Spells ts ws) :=
  inferInstanceAs (Decidable (List.Forall₂ _ _ _))

/-- A name. -/
def Terminal.name (y : String) : Terminal := .word .identifier y

/-! ## Expressions -/

/-- The operators that stand between the parts of an expression. -/
inductive Operator where
  | multiplicative
  | additive
  deriving DecidableEq, Repr

/-- The kind of an operator. -/
def Operator.kind : Operator → Kind
  | multiplicative => .multiplicative
  | additive => .additive

/-- The levels of expressions. -/
inductive Level where
  | factor
  | chain (op : Operator)
  deriving DecidableEq, Repr

namespace Level

/-- Terms have multiplicative operators between factors. -/
abbrev term : Level := chain .multiplicative

/-- Expressions have additive operators between terms. -/
abbrev expression : Level := chain .additive

end Level

/-- The level of what stands between operators. -/
def Operator.below : Operator → Level
  | multiplicative => .factor
  | additive => .term

/-- Expressions of a level. -/
inductive Expr : Level → Type where
  | name (y : String) : Expr .factor
  | number : Expr .factor
  | parens (e : Expr .expression) : Expr .factor
  | not (f : Expr .factor) : Expr .factor
  | minus (f : Expr .factor) : Expr .factor
  | last {op : Operator} (first : Expr op.below) : Expr (.chain op)
  | more {op : Operator} (first : Expr op.below) (rest : Expr (.chain op)) : Expr (.chain op)
  deriving Repr

namespace Expr

/-- The terminals of an expression. -/
def terminals {l : Level} : Expr l → List Terminal
  | name y => [.name y]
  | number => [.kind .number]
  | parens e => .kind .leftParen :: e.terminals ++ [.kind .rightParen]
  | not f => .kind .notWord :: f.terminals
  | minus f => .word .additive "-" :: f.terminals
  | last first => first.terminals
  | @more op first rest => first.terminals ++ .kind op.kind :: rest.terminals

/-- The names that an expression uses. -/
def names {l : Level} : Expr l → List String
  | name y => [y]
  | number => []
  | parens e => e.names
  | not f => f.names
  | minus f => f.names
  | last first => first.names
  | more first rest => first.names ++ rest.names

end Expr

/-- An assignment. -/
structure Assignment where
  target : String
  value : Expr .expression
  deriving Repr

namespace Assignment

/-- The terminals of an assignment, its semicolon included. -/
def terminals (a : Assignment) : List Terminal :=
  .name a.target :: .kind .assign :: a.value.terminals ++ [.kind .semicolon]

/-- The names that an assignment uses. -/
def names (a : Assignment) : List String := a.target :: a.value.names

end Assignment

/-! ## Declarations -/

/-- A type, or a constant with its value. -/
inductive Mark where
  | integer
  | float
  | character
  | constant (numeral : String)
  deriving DecidableEq, Repr

namespace Mark

/-- The terminals of a mark. -/
def terminals : Mark → List Terminal
  | integer => [.kind .integerWord]
  | float => [.kind .floatWord]
  | character => [.kind .charWord]
  | constant numeral => [.kind .constantWord, .kind .assign, .word .number numeral]

/-- A whole number must not be too long. -/
def HasValue : Mark → Prop
  | constant numeral =>
    Numeral.hasPoint numeral ∨ numeral.length ≤ Numeral.maxIntegerDigits
  | _ => True

end Mark

/-- Names with a type mark. -/
structure Group where
  first : String
  more : List String
  mark : Mark
  deriving DecidableEq, Repr

namespace Group

/-- The names that a group declares. -/
def names (g : Group) : List String := g.first :: g.more

/-- The terminals of a group. -/
def terminals (g : Group) : List Terminal :=
  .name g.first :: g.more.flatMap (fun y => [.kind .comma, .name y]) ++
    .kind .colon :: g.mark.terminals

end Group

/-- The kind of the word for a mode. -/
def Mode.kind : Mode → Kind
  | input => .inWord
  | output => .outWord
  | inout => .inoutWord

/-- A group of parameters, whose mode may be left out. -/
structure ParameterGroup extends Group where
  mode? : Option Mode
  deriving DecidableEq, Repr

/-- The terminals of a group of parameters. -/
def ParameterGroup.terminals (g : ParameterGroup) : List Terminal :=
  (g.mode?.map fun m => .kind m.kind).toList ++ g.toGroup.terminals

/-- The terminals of a list of parameters, which may be left out. -/
def parameterTerminals : List ParameterGroup → List Terminal
  | [] => []
  | g :: more => .kind .leftParen :: g.terminals ++
      more.flatMap (fun g => .kind .semicolon :: g.terminals) ++ [.kind .rightParen]

/-! ## Procedures -/

/-- A procedure with its parameters, local names, nested procedures and statements, and the name
behind its last statement. -/
inductive Procedure where
  | mk (name : String) (parameters : List ParameterGroup) (locals : List Group)
    (nested : List Procedure) (body : List Assignment) (closing : String)

namespace Procedure

/-- The name of a procedure. -/
def name : Procedure → String
  | mk name _ _ _ _ _ => name

/-- The names of parameters and local names. -/
def headNames (parameters : List ParameterGroup) (locals : List Group) : List String :=
  parameters.flatMap (fun g => g.names) ++ locals.flatMap Group.names

mutual

/-- The terminals of a procedure. -/
def terminals : Procedure → List Terminal
  | mk name parameters locals nested body closing =>
    .kind .procedureWord :: .name name :: parameterTerminals parameters ++ .kind .isWord ::
      locals.flatMap (fun g => g.terminals ++ [.kind .semicolon]) ++ terminalsOfAll nested ++
      .kind .beginWord :: body.flatMap Assignment.terminals ++
      [.kind .endWord, .name closing, .kind .semicolon]

/-- The terminals of procedures, one behind the other. -/
def terminalsOfAll : List Procedure → List Terminal
  | [] => []
  | p :: ps => p.terminals ++ terminalsOfAll ps

end

theorem terminals_eq_cons (q : Procedure) :
    q.terminals = .kind .procedureWord :: .name q.name :: q.terminals.drop 2 := by
  cases q
  rfl

mutual

/-- The rules for a procedure where the names `around` are visible. The names that it declares are
different. A statement uses a name that is visible around the procedure, or is its own name, or is
declared in it. The closing name is the name of the procedure, upper and lower case being the
same. -/
def Obeys (around : String → Prop) : Procedure → Prop
  | mk name parameters locals nested body closing =>
    (headNames parameters locals ++ nested.map Procedure.name).Nodup ∧
      (∀ g ∈ parameters, g.mark.HasValue) ∧ (∀ g ∈ locals, g.mark.HasValue) ∧
      AllObey (fun y => around y ∨ y = name ∨ y ∈ headNames parameters locals) nested ∧
      (∀ a ∈ body, ∀ y ∈ a.names, around y ∨ y = name ∨
        y ∈ headNames parameters locals ++ nested.map Procedure.name) ∧
      Text.lower closing = Text.lower name

/-- The rules for procedures in one scope: each is visible in those behind it. -/
def AllObey (around : String → Prop) : List Procedure → Prop
  | [] => True
  | p :: ps => p.Obeys around ∧ AllObey (fun y => around y ∨ y = p.name) ps

end

end Procedure

/-- The tokens are a procedure that obeys the rules, with no names around it. -/
def InLanguage (ts : List Token) : Prop :=
  ∃ p : Procedure, p.Obeys (fun _ => False) ∧ Spells ts p.terminals

/-! ## Spelling -/

section Spelling

variable {ts us : List Token} {ws vs : List Terminal} {w : Terminal}

@[simp] theorem spells_nil : Spells ts [] ↔ ts = [] := List.forall₂_nil_left_iff

theorem spells_cons : Spells ts (w :: ws) ↔ ∃ t us, ts = t :: us ∧ w.Matches t ∧ Spells us ws := by
  unfold Spells
  rw [List.forall₂_cons_left_iff]
  constructor
  · rintro ⟨t, us, ht, hus, rfl⟩
    exact ⟨t, us, rfl, ht, hus⟩
  · rintro ⟨t, us, rfl, ht, hus⟩
    exact ⟨t, us, ht, hus, rfl⟩

theorem spells_singleton : Spells ts [w] ↔ ∃ t, ts = [t] ∧ w.Matches t := by
  rw [spells_cons]
  constructor
  · rintro ⟨t, us, rfl, ht, hus⟩
    exact ⟨t, congrArg _ (spells_nil.mp hus), ht⟩
  · rintro ⟨t, rfl, ht⟩
    exact ⟨t, [], rfl, ht, spells_nil.mpr rfl⟩

theorem spells_append :
    Spells ts (ws ++ vs) ↔ ∃ us us', ts = us ++ us' ∧ Spells us ws ∧ Spells us' vs := by
  induction ws generalizing ts with
  | nil => simp
  | cons w ws ih =>
    simp only [List.cons_append, spells_cons, ih]
    constructor
    · rintro ⟨t, _, rfl, ht, us, us', rfl, hus, hus'⟩
      exact ⟨t :: us, us', rfl, ⟨t, us, rfl, ht, hus⟩, hus'⟩
    · rintro ⟨_, us', rfl, ⟨t, us, rfl, ht, hus⟩, hus'⟩
      exact ⟨t, us ++ us', rfl, ht, us, us', rfl, hus, hus'⟩

theorem Spells.append (h : Spells ts ws) (h' : Spells us vs) : Spells (ts ++ us) (ws ++ vs) :=
  spells_append.mpr ⟨ts, us, rfl, h, h'⟩

end Spelling

end ProcLang
