import ProcLang.Text.Basic

/-!
# Gaps between lexemes

A gap is a run of blanks and comments. A comment starts with two hyphens and ends before the next
line feed, or with the text.
-/

namespace ProcLang.Lexer

/-- The length of the longest gap at the start of a text. `inComment` tells whether the text starts
inside a comment. -/
def gapLength (inComment : Bool) : List Char → Nat
  | [] => 0
  | c :: rest =>
    if inComment then gapLength (c != '\n') rest + 1
    else if Text.isBlank c then gapLength false rest + 1
    else if c = '-' ∧ rest.head? = some '-' then gapLength true rest + 1
    else 0

/-- The number of line feeds in a text. -/
def lineFeeds (cs : List Char) : Nat := cs.count '\n'

theorem gapLength_le (inComment : Bool) (cs : List Char) :
    gapLength inComment cs ≤ cs.length := by
  induction cs generalizing inComment with
  | nil => simp [gapLength]
  | cons c rest ih =>
    simp only [gapLength, List.length_cons]
    split
    · exact Nat.succ_le_succ (ih _)
    · split
      · exact Nat.succ_le_succ (ih _)
      · split
        · exact Nat.succ_le_succ (ih _)
        · exact Nat.zero_le _

end ProcLang.Lexer
