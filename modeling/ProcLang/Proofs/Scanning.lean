import ProcLang.Proofs.Numerals
import ProcLang.Proofs.Phrases

/-!
# Tokens of a text

A token that is read from a text (`Token.IsScanned`) and is no end token has a numeral, a word or a
symbol as its lexeme. So a mode is spelt by the words for modes only, and a numeral has a value
unless it is a whole number that is too long (`Token.IsScanned.plain`).
-/

namespace ProcLang

open Numeral (IsNumeral)

/-- A lexer can produce the token. -/
def Token.IsScanned (t : Token) : Prop := ∃ l l' : Lexer, l.next = (.ok t, l')

/-! ## Lower case -/

/-- A text of ASCII characters has them in lower case one by one. -/
theorem Text.lower_ofList {cs : List Char} (h : ∀ c ∈ cs, c.toNat < 0x80) :
    Text.lower (String.ofList cs) = String.ofList (cs.map Char.toLower) := by
  have hafter : ∀ before, lowerAfter before cs = cs.map Char.toLower := by
    induction cs with
    | nil => exact fun _ => rfl
    | cons c cs ih =>
      intro before
      obtain ⟨hc, hcs⟩ := List.forall_mem_cons.mp h
      have hsigma : c ≠ '\u03A3' := by
        rintro rfl
        exact absurd hc (by decide)
      rw [lowerAfter, if_neg hsigma, lowerChar, if_pos hc, ih hcs]
      rfl
  unfold Text.lower
  rw [String.toList_ofList, hafter]

theorem toNat_lt_of_isDigit {c : Char} (h : c.isDigit) : c.toNat < 0x80 := by
  obtain ⟨d, hd, rfl⟩ := Numeral.eq_digitChar_of_isDigit h
  have hall : ∀ d < 10, (Nat.digitChar d).toNat < 0x80 := by decide
  exact hall d hd

theorem toNat_lt_of_isNumeral {cs : List Char} {c : Char} (h : IsNumeral cs) (hm : c ∈ cs) :
    c.toNat < 0x80 := by
  obtain ⟨whole, fraction, -, hwhole, hfraction, rfl | ⟨-, rfl⟩⟩ := h
  · exact toNat_lt_of_isDigit (hwhole c hm)
  · rcases List.mem_append.mp hm with hm | hm
    · exact toNat_lt_of_isDigit (hwhole c hm)
    · rcases List.mem_cons.mp hm with rfl | hm
      · decide
      · exact toNat_lt_of_isDigit (hfraction c hm)

theorem exists_isDigit_of_isNumeral {cs : List Char} (h : IsNumeral cs) :
    ∃ c rest, cs = c :: rest ∧ c.isDigit := by
  obtain ⟨whole, fraction, hne, hwhole, -, h⟩ := h
  obtain ⟨c, whole, rfl⟩ := List.exists_cons_of_ne_nil hne
  have hc := hwhole c List.mem_cons_self
  rcases h with rfl | ⟨-, rfl⟩
  · exact ⟨c, _, rfl, hc⟩
  · exact ⟨c, _, rfl, hc⟩

theorem toNat_lt_of_isAlpha {c : Char} (h : c.isAlpha) : c.toNat < 0x80 := by
  have hrange : (65 ≤ c.toNat ∧ c.toNat ≤ 90) ∨ 97 ≤ c.toNat ∧ c.toNat ≤ 122 := by
    simpa [Char.isAlpha, Char.isUpper, Char.isLower, UInt32.le_iff_toNat_le] using h
  omega

theorem toNat_lt_of_isNameChar {c : Char} (h : Lexer.isNameChar c) : c.toNat < 0x80 := by
  unfold Lexer.isNameChar Char.isAlphanum at h
  rw [Bool.or_eq_true, Bool.or_eq_true, beq_iff_eq] at h
  rcases h with (h | h) | rfl
  · exact toNat_lt_of_isAlpha h
  · exact toNat_lt_of_isDigit h
  · decide

/-! ## Lexemes -/

namespace Lexer

variable {cs lexeme : List Char} {kind : Kind}

/-- The symbols with their kinds. -/
def symbols : List (Kind × String) :=
  [(.assign, ":="), (.relational, "<="), (.relational, ">="), (.relational, "/="),
   (.relational, "<"), (.relational, ">"), (.relational, "="), (.colon, ":"), (.additive, "+"),
   (.additive, "-"), (.multiplicative, "*"), (.multiplicative, "/"), (.leftParen, "("),
   (.rightParen, ")"), (.semicolon, ";"), (.comma, ",")]

theorem forall_isDigit_takeWhile : ∀ c ∈ cs.takeWhile Char.isDigit, c.isDigit := fun _ hm =>
  List.mem_takeWhile_imp hm

theorem take_digitsLength : cs.take (digitsLength cs) = cs.takeWhile Char.isDigit :=
  List.prefix_iff_eq_take.mp (List.takeWhile_prefix _) |>.symm

theorem isNumeral_take (h : numberLength cs ≠ 0) : IsNumeral (cs.take (numberLength cs)) := by
  unfold numberLength at h ⊢
  by_cases hzero : digitsLength cs = 0
  · rw [if_pos hzero] at h
    exact absurd rfl h
  · have hne : cs.takeWhile Char.isDigit ≠ [] := fun hn => hzero (congrArg List.length hn)
    have hwhole : IsNumeral (cs.take (digitsLength cs)) := by
      rw [take_digitsLength]
      exact ⟨_, [], hne, forall_isDigit_takeWhile, fun _ hm => absurd hm List.not_mem_nil,
        Or.inl rfl⟩
    simp only [hzero, if_false]
    split
    · next rest hrest =>
      split
      · exact hwhole
      · next hrest' =>
        refine ⟨_, rest.takeWhile Char.isDigit, hne, forall_isDigit_takeWhile,
          forall_isDigit_takeWhile, Or.inr ⟨fun hn => hrest' (congrArg List.length hn), ?_⟩⟩
        rw [Nat.add_assoc, List.take_add, hrest, take_digitsLength, Nat.add_comm,
          List.take_succ_cons, take_digitsLength]
    · exact hwhole

/-- The characters of a word are those of a name. -/
theorem isNameChar_of_mem_take {c : Char} (h : c ∈ cs.take (nameLength cs)) : isNameChar c := by
  cases cs with
  | nil => cases h
  | cons c' rest =>
    rw [nameLength] at h
    split at h
    · next halpha =>
      rw [List.take_succ_cons, List.prefix_iff_eq_take.mp (List.takeWhile_prefix _) |>.symm] at h
      rcases List.mem_cons.mp h with rfl | hm
      · simp [isNameChar, Char.isAlphanum, halpha]
      · exact List.mem_takeWhile_imp hm
    · cases h

theorem exists_symbol {symbols : List String} (h : symbolLength symbols cs ≠ 0) :
    ∃ s ∈ symbols, cs.take (symbolLength symbols cs) = s.toList := by
  unfold symbolLength at h ⊢
  cases hfind : symbols.find? fun s => s.toList.isPrefixOf cs with
  | none =>
    rw [hfind] at h
    exact absurd rfl h
  | some s =>
    refine ⟨s, List.mem_of_find?_eq_some hfind, ?_⟩
    have hprefix : s.toList <+: cs := by simpa using List.find?_some hfind
    simp only [Option.map_some, Option.getD_some, ← String.length_toList]
    exact (List.prefix_iff_eq_take.mp hprefix).symm

/-- A lexeme is a numeral, a word or a symbol. -/
theorem lexeme?_cases (h : lexeme? cs = some (kind, lexeme)) :
    (kind = .number ∧ IsNumeral lexeme) ∨
      (kind = wordKind lexeme ∧ ∀ c ∈ lexeme, isNameChar c) ∨
      ∃ s, (kind, s) ∈ symbols ∧ lexeme = s.toList := by
  unfold lexeme? at h
  obtain ⟨k, hfind, heq⟩ := Option.map_eq_some_iff.mp h
  have hlong : k.longest cs ≠ 0 := by simpa using List.find?_some hfind
  obtain ⟨rfl, rfl⟩ := Prod.mk.inj heq
  have hsymbol : ∀ kind strings, (∀ s ∈ strings, (kind, s) ∈ symbols) →
      symbolLength strings cs ≠ 0 →
      ∃ s, (kind, s) ∈ symbols ∧ cs.take (symbolLength strings cs) = s.toList := by
    intro kind strings hall hlong
    obtain ⟨s, hs, heq⟩ := exists_symbol hlong
    exact ⟨s, hall s hs, heq⟩
  have hk := List.mem_of_find?_eq_some hfind
  simp only [lexemeClasses, List.mem_cons, List.not_mem_nil, or_false] at hk
  rcases hk with rfl | rfl | hk
  · exact Or.inl ⟨rfl, isNumeral_take hlong⟩
  · exact Or.inr (Or.inl ⟨rfl, fun c hm => isNameChar_of_mem_take hm⟩)
  · refine Or.inr (Or.inr ?_)
    rcases hk with rfl | rfl | rfl | rfl | rfl | rfl | rfl | rfl | rfl
    · exact hsymbol .assign _ (by decide) hlong
    · exact hsymbol .relational _ (by decide) hlong
    · exact hsymbol .colon _ (by decide) hlong
    · exact hsymbol .additive _ (by decide) hlong
    · exact hsymbol .multiplicative _ (by decide) hlong
    · exact hsymbol .leftParen _ (by decide) hlong
    · exact hsymbol .rightParen _ (by decide) hlong
    · exact hsymbol .semicolon _ (by decide) hlong
    · exact hsymbol .comma _ (by decide) hlong

/-- A token that is read is an end token or has a lexeme of the text. -/
theorem eq_of_next {l l' : Lexer} {t : Token} (h : l.next = (.ok t, l')) :
    (∃ line, t = .endOfInput line) ∨
      ∃ cs lexeme, lexeme? cs = some (t.kind, lexeme) ∧ t.lexeme = String.ofList lexeme := by
  unfold next at h
  split at h
  · cases (Prod.mk.inj h).1
  · unfold scan at h
    split at h
    · cases (Prod.mk.inj h).1
      exact Or.inl ⟨_, rfl⟩
    · split at h
      · next kind lexeme hlexeme =>
        cases (Prod.mk.inj h).1
        exact Or.inr ⟨_, lexeme, hlexeme, rfl⟩
      · cases (Prod.mk.inj h).1

/-- What is read from a text is scanned. -/
theorem isScanned_of_mem_readUpTo {n : Nat} {l l' : Lexer} {ts : List Token} {t : Token}
    (h : readUpTo n l = (.ok ts, l')) (hm : t ∈ ts) : t.IsScanned := by
  induction n generalizing l l' ts with
  | zero =>
    cases (Prod.mk.inj h).1
    exact absurd hm List.not_mem_nil
  | succ n ih =>
    rw [readUpTo] at h
    split at h
    · cases (Prod.mk.inj h).1
    · next u mid hn =>
      split at h
      · cases (Prod.mk.inj h).1
        rw [List.mem_singleton.mp hm]
        exact ⟨l, mid, hn⟩
      · split at h
        · next us l'' hus =>
          cases (Prod.mk.inj h).1
          rcases List.mem_cons.mp hm with rfl | hm
          · exact ⟨l, mid, hn⟩
          · exact ih hus hm
        · cases (Prod.mk.inj h).1

theorem isScanned_of_tokenize {source : String} {ts : List Token} {t : Token}
    (h : tokenize source = .ok ts) (hm : t ∈ ts) : t.IsScanned :=
  isScanned_of_mem_readUpTo (Prod.ext h rfl) hm

end Lexer

/-! ## Plain tokens -/

section Plain

open Analysis (modeOfWord?)

theorem modeOfWord?_eq_some_iff {y : String} {m : Mode} :
    modeOfWord? y = some m ↔ Text.lower y = m.word := by
  unfold modeOfWord?
  constructor
  · intro h
    have hm := List.find?_some h
    exact (of_decide_eq_true hm).symm
  · intro h
    rw [h]
    cases m <;> decide

/-- A word is a name, or it spells a reserved word and is of its kind. -/
theorem wordKind_cases (cs : List Char) : wordKind cs = .identifier ∨
    (String.ofList (cs.map Char.toLower), wordKind cs) ∈ reservedWords := by
  unfold wordKind
  cases hl : reservedWords.lookup (String.ofList (cs.map Char.toLower)) with
  | none => exact Or.inl rfl
  | some k =>
    obtain ⟨before, behind, hwords, -⟩ := List.lookup_eq_some_iff.mp hl
    exact Or.inr (hwords ▸ List.mem_append_right _ List.mem_cons_self)

/-- A word is of the kind of a mode if it is the word for the mode. -/
theorem wordKind_eq_kind_iff {cs : List Char} {m : Mode} :
    wordKind cs = m.kind ↔ String.ofList (cs.map Char.toLower) = m.word := by
  constructor
  · intro h
    rcases wordKind_cases cs with hk | hm
    · rw [hk] at h
      cases m <;> cases h
    · have hall : ∀ w ∈ reservedWords, w.2 = m.kind → w.1 = m.word := by
        cases m <;> decide
      exact hall _ hm h
  · intro h
    unfold wordKind
    rw [h]
    cases m <;> decide

theorem wordKind_ne_number (cs : List Char) : wordKind cs ≠ .number := by
  have hall : ∀ w ∈ reservedWords, w.2 ≠ .number := by decide
  rcases wordKind_cases cs with hk | hm
  · rw [hk]
    decide
  · exact hall _ hm

theorem Token.plain_of_isNumeral {t : Token} (hk : t.kind = .number)
    (h : IsNumeral t.lexeme.toList) : t.Plain := by
  refine ⟨fun m => iff_of_false (fun hmode => ?_) (by rw [hk]; cases m <;> decide), fun _ =>
    Numeral.isOk_parse_iff h⟩
  obtain ⟨c, rest, hs, hc⟩ := exists_isDigit_of_isNumeral h
  -- the lower-case form begins with the same digit, the words for modes with letters
  have hlower := modeOfWord?_eq_some_iff.mp hmode
  rw [← String.ofList_toList (s := t.lexeme),
    Text.lower_ofList fun c hm => toNat_lt_of_isNumeral h hm, hs] at hlower
  have hhead : m.word.toList.head? = some c.toLower := by
    rw [← hlower, String.toList_ofList]
    rfl
  obtain ⟨d, hd, rfl⟩ := Numeral.eq_digitChar_of_isDigit hc
  have hall : ∀ d < 10, m.word.toList.head? ≠ some (Nat.digitChar d).toLower := by
    cases m <;> decide
  exact hall d hd hhead

/-- A token of a text is plain. -/
theorem Token.IsScanned.plain {t : Token} (h : t.IsScanned) (hk : t.kind ≠ .endOfInput) :
    t.Plain := by
  obtain ⟨l, l', h⟩ := h
  rcases Lexer.eq_of_next h with ⟨line, rfl⟩ | ⟨cs, lexeme, h, hlexeme⟩
  · exact absurd rfl hk
  · rcases Lexer.lexeme?_cases h with ⟨hnumber, h⟩ | ⟨hword, h⟩ | ⟨s, hs, rfl⟩
    · refine plain_of_isNumeral hnumber ?_
      rwa [hlexeme, String.toList_ofList]
    · refine ⟨fun m => ?_, fun hnumber => absurd (hword.symm.trans hnumber) (wordKind_ne_number _)⟩
      rw [modeOfWord?_eq_some_iff, hlexeme, hword, wordKind_eq_kind_iff,
        Text.lower_ofList fun c hm => toNat_lt_of_isNameChar (h c hm)]
    · have hall : ∀ p ∈ Lexer.symbols, modeOfWord? p.2 = none ∧ p.1 ≠ .number ∧
          ∀ m ∈ Mode.all, p.1 ≠ m.kind := by decide
      obtain ⟨hmode, hnumber, hkind⟩ := hall _ hs
      rw [String.ofList_toList] at hlexeme
      refine ⟨fun m => iff_of_false ?_ (hkind m (by cases m <;> decide)), fun hk =>
        absurd hk hnumber⟩
      rw [hlexeme, hmode]
      exact nofun

end Plain

end ProcLang
