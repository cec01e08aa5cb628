import ProcLang.Analysis.Failure
import ProcLang.Proofs.Phrases

/-!
# Occurrences of names

A name that occurs in a procedure of the grammar is declared there, or is used, or closes the
procedure (`Role`). The roles follow from the tree of the procedure alone (`Procedure.roles`). What
is wrong with an occurrence depends on the declarations before it, in its own scope or in one of
those around it (`Occurrence.Violates`).

The scopes that are open at different occurrences are not computed by opening and closing any: a
scope is given by its place in the tree.
-/

namespace ProcLang

/-- A scope: the number of its procedure among those that are nested in the same procedure, and the
scopes around it. The scope around the outermost procedure is the empty list. -/
abbrev Scope := List Nat

/-- What an occurrence of a name does: it declares the name in the scope, it uses the name in the
scope, or it closes the procedure of the given name. -/
inductive Role where
  | declares (scope : Scope)
  | uses (scope : Scope)
  | closes (opening : String)
  deriving DecidableEq, Repr

/-- An occurrence of a name. -/
structure Occurrence where
  token : Token
  role : Role
  deriving DecidableEq, Repr

/-! ## The names of a procedure -/

namespace Procedure

mutual

/-- The roles of the names in a procedure, in their order. Its own name is declared around it. -/
def roles (around : Scope) (number : Nat) : Procedure → List Role
  | mk name parameters locals nested body _ =>
    .declares around ::
      ((headNames parameters locals).map (fun _ => .declares (number :: around)) ++
        rolesOfAll (number :: around) 0 nested ++
        (body.flatMap Assignment.names).map (fun _ => .uses (number :: around)) ++ [.closes name])

/-- The roles of the names in procedures that are nested in one, numbered from the given number. -/
def rolesOfAll (around : Scope) (number : Nat) : List Procedure → List Role
  | [] => []
  | p :: ps => p.roles around number ++ rolesOfAll around (number + 1) ps

end

mutual

/-- The type marks in a procedure. -/
def marks : Procedure → List Mark
  | mk _ parameters locals nested _ _ =>
    parameters.map (fun g => g.mark) ++ locals.map Group.mark ++ marksOfAll nested

/-- The type marks in procedures. -/
def marksOfAll : List Procedure → List Mark
  | [] => []
  | p :: ps => p.marks ++ marksOfAll ps

end

end Procedure

/-- The names among the tokens. -/
def namesOf (ts : List Token) : List Token := ts.filter fun t => t.kind = .identifier

/-- The names among the tokens with their roles. -/
def occurrences (ts : List Token) (rs : List Role) : List Occurrence :=
  List.zipWith Occurrence.mk (namesOf ts) rs

/-! ## What is wrong with an occurrence -/

/-- One of the occurrences declares the name in the scope. -/
def DeclaredIn (os : List Occurrence) (scope : Scope) (y : String) : Prop :=
  ∃ o ∈ os, o.role = .declares scope ∧ o.token.lexeme = y

/-- The occurrence is wrong behind the others: it declares a name that is declared in the same
scope, it uses a name that is declared neither in its scope nor in one around it, or it closes a
procedure with another name, upper and lower case being the same. -/
def Occurrence.Violates (before : List Occurrence) (o : Occurrence) : Prop :=
  match o.role with
  | .declares scope => DeclaredIn before scope o.token.lexeme
  | .uses scope => ∀ outer, outer <:+ scope → ¬ DeclaredIn before outer o.token.lexeme
  | .closes opening => Text.lower o.token.lexeme ≠ Text.lower opening

/-- What is reported of a wrong occurrence. -/
def Occurrence.diagnostic (o : Occurrence) : Diagnostic :=
  match o.role with
  | .declares _ => .duplicate o.token.lexeme o.token.line
  | .uses _ => .undefined o.token.lexeme o.token.line
  | .closes opening => .otherClosingName opening o.token.line

/-- None of the occurrences behind the first ones is wrong. -/
def NoneViolates (before os : List Occurrence) : Prop :=
  ∀ os₁ o os₂, os = os₁ ++ o :: os₂ → ¬ o.Violates (before ++ os₁)

/-! ## Lemmas -/

section Lemmas

variable {before os os' : List Occurrence} {o : Occurrence} {scope : Scope} {ts us : List Token}
  {rs rs' : List Role} {t : Token} {y : String}

@[simp] theorem namesOf_append : namesOf (ts ++ us) = namesOf ts ++ namesOf us :=
  List.filter_append ..

theorem namesOf_of_identifier (h : t.kind = .identifier) : namesOf [t] = [t] := by
  simp [namesOf, h]

theorem namesOf_of_ne (h : t.kind ≠ .identifier) : namesOf [t] = [] := by
  simp [namesOf, h]

theorem occurrences_append (h : (namesOf ts).length = rs.length) :
    occurrences (ts ++ us) (rs ++ rs') = occurrences ts rs ++ occurrences us rs' := by
  unfold occurrences
  rw [namesOf_append, List.zipWith_append h]

@[simp] theorem noneViolates_nil : NoneViolates before [] := by
  intro os₁ o os₂ h
  exact absurd h.symm (by simp)

theorem noneViolates_singleton : NoneViolates before [o] ↔ ¬ o.Violates before := by
  constructor
  · intro h
    simpa using h [] o [] rfl
  · intro h os₁ o' os₂ heq
    cases os₁ with
    | nil =>
      cases heq
      simpa using h
    | cons o'' os₁ => simp at heq

theorem NoneViolates.append (h : NoneViolates before os) (h' : NoneViolates (before ++ os) os') :
    NoneViolates before (os ++ os') := by
  intro os₁ o os₂ heq
  rcases List.append_eq_append_iff.mp heq with ⟨mid, rfl, hos'⟩ | ⟨mid, rfl, hos⟩
  · have hno := h' mid o os₂ hos'
    rwa [List.append_assoc] at hno
  · cases mid with
    | nil =>
      rw [List.append_nil] at h'
      have hno := h' [] o os₂ hos.symm
      rwa [List.append_nil] at hno
    | cons o' mid =>
      obtain ⟨rfl, rfl⟩ := List.cons.inj hos
      exact h os₁ _ mid rfl

/-- The names that the occurrences declare in the scope. -/
def declaredNames (os : List Occurrence) (scope : Scope) : List String :=
  (os.filter fun o => o.role = .declares scope).map fun o => o.token.lexeme

theorem mem_declaredNames : y ∈ declaredNames os scope ↔ DeclaredIn os scope y := by
  simp only [declaredNames, List.mem_map, List.mem_filter, decide_eq_true_eq, DeclaredIn, and_assoc]

theorem declaredNames_concat (o : Occurrence) : declaredNames (os ++ [o]) scope =
    declaredNames os scope ++ if o.role = .declares scope then [o.token.lexeme] else [] := by
  unfold declaredNames
  rw [List.filter_append, List.map_append]
  split
  · next h => simp [h]
  · next h => simp [h]

theorem declaredNames_eq_nil (h : ∀ o ∈ os, o.role ≠ .declares scope) :
    declaredNames os scope = [] := by
  unfold declaredNames
  rw [List.filter_eq_nil_iff.mpr fun o ho => by simpa using h o ho, List.map_nil]

end Lemmas

end ProcLang
