import ProcLang.Proofs.Scanning

/-!
# Patterns of lexemes

There are eleven kinds of lexemes besides the reserved words, each with a pattern
(`Kind.Fits`). A lexer tries the patterns in a fixed order and takes the longest text that fits the
first one that fits at all. That is the longest text that fits any of them, whatever the order
(`Lexer.longest_of_lexeme?`).
-/

namespace ProcLang

/-- Names: a letter, then letters, digits and underscores. -/
def IsName (cs : List Char) : Prop :=
  ∃ c rest, cs = c :: rest ∧ c.isAlpha ∧ ∀ d ∈ rest, Lexer.isNameChar d

theorem IsName.toNat_lt {cs : List Char} (h : IsName cs) : ∀ c ∈ cs, c.toNat < 0x80 := by
  obtain ⟨c, rest, rfl, hc, hrest⟩ := h
  exact List.forall_mem_cons.mpr
    ⟨toNat_lt_of_isAlpha hc, fun d hd => toNat_lt_of_isNameChar (hrest d hd)⟩

/-- The symbols of each kind. -/
def Kind.symbols : Kind → List String
  | assign => [":="]
  | relational => ["<", "<=", ">", ">=", "=", "/="]
  | colon => [":"]
  | additive => ["+", "-"]
  | multiplicative => ["*", "/"]
  | leftParen => ["("]
  | rightParen => [")"]
  | semicolon => [";"]
  | comma => [","]
  | _ => []

/-- The text fits the pattern of the kind. -/
def Kind.Fits : Kind → List Char → Prop
  | identifier, cs => IsName cs
  | number, cs => Numeral.IsNumeral cs
  | k, cs => ∃ s ∈ k.symbols, cs = s.toList

/-- The text fits one of the patterns. -/
def IsLexeme (cs : List Char) : Prop := ∃ k : Kind, k.Fits cs

/-- The longest lexeme at the start of a text. -/
structure IsLongestLexeme (lexeme text : List Char) : Prop where
  fits : IsLexeme lexeme
  start : lexeme <+: text
  longest : ∀ other, other <+: text → IsLexeme other → other.length ≤ lexeme.length

/-- The kind of a lexeme: that of the reserved word that it spells, upper and lower case being the
same, or else that of its pattern. -/
inductive HasKind (lexeme : List Char) : Kind → Prop
  | reserved {k : Kind} : Kind.Fits .identifier lexeme →
    (Text.lower (String.ofList lexeme), k) ∈ reservedWords → HasKind lexeme k
  | pattern {k : Kind} : k.Fits lexeme →
    (k = .identifier → ∀ w ∈ reservedWords, w.1 ≠ Text.lower (String.ofList lexeme)) →
    HasKind lexeme k

namespace Lexer

variable {cs lexeme p q : List Char} {k k' : Kind} {c : Char}

/-! ## First characters -/

/-- Whether texts of the kind can begin with the character, for kinds with texts of more than one
character. -/
def begins : Kind → Char → Bool
  | .number, c => c.isDigit
  | .identifier, c => c.isAlpha
  | .assign, c => c == ':'
  | .relational, c => c == '<' || c == '>' || c == '=' || c == '/'
  | _, _ => false

/-- The kinds with texts of more than one character. -/
def longKinds : List Kind := [.number, .identifier, .assign, .relational]

theorem ne_nil_of_fits (h : k.Fits p) : p ≠ [] := by
  cases k
  case identifier =>
    obtain ⟨c, rest, rfl, -⟩ := h
    exact List.cons_ne_nil _ _
  case number =>
    obtain ⟨d, rest, rfl, -⟩ := exists_isDigit_of_isNumeral h
    exact List.cons_ne_nil _ _
  all_goals
    obtain ⟨s, hs, rfl⟩ := h
    have hall : ∀ k : Kind, ∀ s ∈ k.symbols, s.toList ≠ [] := by
      intro k
      cases k <;> decide
    exact hall _ s hs

/-- Texts of the other kinds are single characters. -/
theorem length_of_fits (h : k.Fits p) (hk : k ∉ longKinds) : p.length = 1 := by
  cases k
  case identifier => exact absurd (by decide) hk
  case number => exact absurd (by decide) hk
  case assign => exact absurd (by decide) hk
  case relational => exact absurd (by decide) hk
  all_goals
    obtain ⟨s, hs, rfl⟩ := h
    revert s
    decide

theorem begins_of_fits (h : k.Fits (c :: p)) (hk : k ∈ longKinds) : begins k c := by
  simp only [longKinds, List.mem_cons, List.not_mem_nil, or_false] at hk
  rcases hk with rfl | rfl | rfl | rfl
  · obtain ⟨d, rest, h, hd⟩ := exists_isDigit_of_isNumeral h
    cases h
    exact hd
  · obtain ⟨d, rest, h, hd, -⟩ := h
    cases h
    exact hd
  · obtain ⟨s, hs, h⟩ := h
    have hall : ∀ s ∈ Kind.symbols .assign, s.toList.head?.all (begins .assign) := by decide
    simpa only [← h, List.head?_cons, Option.all_some] using hall s hs
  · obtain ⟨s, hs, h⟩ := h
    have hall : ∀ s ∈ Kind.symbols .relational, s.toList.head?.all (begins .relational) := by decide
    simpa only [← h, List.head?_cons, Option.all_some] using hall s hs

theorem toNat_of_begins (h : begins k c) :
    k = .number ∧ 48 ≤ c.toNat ∧ c.toNat ≤ 57 ∨ k = .identifier ∧ 65 ≤ c.toNat ∨
      k = .assign ∧ c.toNat = 58 ∨
      k = .relational ∧ (c.toNat = 47 ∨ 60 ≤ c.toNat ∧ c.toNat ≤ 62) := by
  cases k with
  | number =>
    have hdigit : 48 ≤ c.toNat ∧ c.toNat ≤ 57 := by
      simpa [begins, Char.isDigit, UInt32.le_iff_toNat_le] using h
    exact Or.inl ⟨rfl, hdigit⟩
  | identifier =>
    have halpha : (65 ≤ c.toNat ∧ c.toNat ≤ 90) ∨ 97 ≤ c.toNat ∧ c.toNat ≤ 122 := by
      simpa [begins, Char.isAlpha, Char.isUpper, Char.isLower, UInt32.le_iff_toNat_le] using h
    exact Or.inr (Or.inl ⟨rfl, by omega⟩)
  | assign =>
    obtain rfl : c = ':' := by simpa [begins] using h
    exact Or.inr (Or.inr (Or.inl ⟨rfl, rfl⟩))
  | relational =>
    refine Or.inr (Or.inr (Or.inr ⟨rfl, ?_⟩))
    have hc : ((c = '<' ∨ c = '>') ∨ c = '=') ∨ c = '/' := by simpa [begins] using h
    rcases hc with ((rfl | rfl) | rfl) | rfl <;> decide
  | _ => cases h

/-- No character begins texts of two of the kinds. -/
theorem eq_of_begins (h : begins k c) (h' : begins k' c) : k = k' := by
  rcases toNat_of_begins h with ⟨rfl, hc⟩ | ⟨rfl, hc⟩ | ⟨rfl, hc⟩ | ⟨rfl, hc⟩ <;>
    rcases toNat_of_begins h' with ⟨rfl, hc'⟩ | ⟨rfl, hc'⟩ | ⟨rfl, hc'⟩ | ⟨rfl, hc'⟩ <;>
    first | rfl | omega

/-! ## The longest text of one kind -/

/-- The number is the length of the longest text of the kind at the start of a text, zero if there
is none. -/
structure IsLongest (k : Kind) (cs : List Char) (n : Nat) : Prop where
  fits : n ≠ 0 → k.Fits (cs.take n)
  longest : ∀ p, p <+: cs → k.Fits p → p.length ≤ n

theorem length_le_takeWhile {f : Char → Bool} (h : p <+: cs) (hp : ∀ c ∈ p, f c) :
    p.length ≤ (cs.takeWhile f).length := by
  obtain ⟨more, rfl⟩ := h
  rw [List.takeWhile_append_of_pos hp, List.length_append]
  exact Nat.le_add_right _ _

theorem isLongest_nameLength (cs : List Char) : IsLongest .identifier cs (nameLength cs) where
  fits hne := by
    cases cs with
    | nil => exact absurd rfl hne
    | cons c rest =>
      rw [nameLength] at hne ⊢
      split at hne
      · next halpha =>
        rw [if_pos halpha, List.take_succ_cons,
          (List.prefix_iff_eq_take.mp (List.takeWhile_prefix _)).symm]
        exact ⟨c, _, rfl, halpha, fun d hd => List.mem_takeWhile_imp hd⟩
      · exact absurd rfl hne
  longest := by
    rintro p hp ⟨c, rest, rfl, halpha, hall⟩
    obtain ⟨more, rfl⟩ := hp
    rw [List.cons_append, nameLength, if_pos halpha, List.length_cons]
    exact Nat.succ_le_succ (length_le_takeWhile (List.prefix_append _ _) hall)

theorem isLongest_symbolLength {symbols : List String}
    (hk : ∀ p, k.Fits p ↔ ∃ s ∈ symbols, p = s.toList)
    (hsorted : symbols.Pairwise fun s s' => s.toList <+: s'.toList → s'.length ≤ s.length)
    (cs : List Char) : IsLongest k cs (symbolLength symbols cs) where
  fits hne := by
    obtain ⟨s, hs, h⟩ := exists_symbol hne
    exact (hk _).mpr ⟨s, hs, h⟩
  longest := by
    intro p hp hfits
    obtain ⟨s', hs', rfl⟩ := (hk p).mp hfits
    have hstart : s'.toList.isPrefixOf cs = true := List.isPrefixOf_iff_prefix.mpr hp
    unfold symbolLength
    cases hfind : symbols.find? fun s => s.toList.isPrefixOf cs with
    | none =>
      have hno := List.find?_eq_none.mp hfind s' hs'
      exact absurd hstart hno
    | some s =>
      obtain ⟨hs, before, behind, rfl, hbefore⟩ := List.find?_eq_some_iff_append.mp hfind
      simp only [Option.map_some, Option.getD_some, String.length_toList]
      rcases List.mem_append.mp hs' with hm | hm
      · have hno := hbefore s' hm
        rw [hstart] at hno
        cases hno
      rcases List.mem_cons.mp hm with rfl | hm
      · exact Nat.le_refl _
      · rcases List.prefix_or_prefix_of_prefix (List.isPrefixOf_iff_prefix.mp hs) hp with h | h
        · have hpair := (List.pairwise_append.mp hsorted).2.1
          exact (List.pairwise_cons.mp hpair).1 s' hm h
        · simpa only [String.length_toList] using h.length_le

/-- Digits that a text begins with end where no digit follows. -/
theorem digitsLength_append {whole rest : List Char} (h : ∀ c ∈ whole, c.isDigit)
    (hrest : ∀ c ∈ rest.head?, ¬ c.isDigit) : digitsLength (whole ++ rest) = whole.length := by
  unfold digitsLength
  rw [List.takeWhile_append_of_pos h]
  cases rest with
  | nil => simp
  | cons c rest => rw [List.takeWhile_cons_of_neg (hrest c rfl), List.append_nil]

theorem isLongest_numberLength (cs : List Char) : IsLongest .number cs (numberLength cs) where
  fits hne := isNumeral_take hne
  longest := by
    rintro p hp ⟨whole, fraction, hne, hwhole, hfraction, h⟩
    obtain ⟨more, rfl⟩ := hp
    have hpos : 0 < whole.length := List.length_pos_iff.mpr hne
    rcases h with rfl | ⟨hfne, rfl⟩
    · have hle : p.length ≤ digitsLength (p ++ more) :=
        length_le_takeWhile (List.prefix_append _ _) hwhole
      have hzero : digitsLength (p ++ more) ≠ 0 := by omega
      simp only [numberLength, hzero, if_false]
      split
      · split <;> omega
      · exact hle
    · rw [List.append_assoc, List.cons_append]
      have hdigits : digitsLength (whole ++ '.' :: (fraction ++ more)) = whole.length :=
        digitsLength_append hwhole (by rintro c ⟨⟩; decide)
      have hzero : whole.length ≠ 0 := by omega
      have hle : fraction.length ≤ digitsLength (fraction ++ more) :=
        length_le_takeWhile (List.prefix_append _ _) hfraction
      have hfpos : 0 < fraction.length := List.length_pos_iff.mpr hfne
      simp only [numberLength, hdigits, hzero, if_false, List.drop_left]
      rw [if_neg (by omega), List.length_append, List.length_cons]
      omega

/-! ## The longest lexeme -/

theorem isLongest_of_mem {group : LexemeClass} (h : group ∈ lexemeClasses) (cs : List Char) :
    IsLongest group.kind cs (group.longest cs) := by
  simp only [lexemeClasses, List.mem_cons, List.not_mem_nil, or_false] at h
  rcases h with rfl | rfl | rfl | rfl | rfl | rfl | rfl | rfl | rfl | rfl | rfl
  · exact isLongest_numberLength cs
  · exact isLongest_nameLength cs
  · exact isLongest_symbolLength (fun _ => Iff.rfl) (by decide) cs
  · refine isLongest_symbolLength (fun p => ?_) (by decide) cs
    have hmem : ∀ s, s ∈ Kind.symbols .relational ↔ s ∈ ["<=", ">=", "/=", "<", ">", "="] := by
      intro s
      simp only [Kind.symbols, List.mem_cons, List.not_mem_nil, or_false]
      tauto
    exact exists_congr fun s => and_congr_left fun _ => hmem s
  all_goals exact isLongest_symbolLength (fun _ => Iff.rfl) (by decide) cs

/-- Every pattern is tried. -/
theorem exists_class_of_fits (h : k.Fits p) : ∃ group ∈ lexemeClasses, group.kind = k := by
  cases k
  case identifier | number | assign | relational | colon | additive | multiplicative | leftParen |
      rightParen | semicolon | comma => simp [lexemeClasses]
  all_goals
    obtain ⟨s, hs, -⟩ := h
    exact absurd hs List.not_mem_nil

/-- The classes with lexemes of more than one character come first. -/
theorem pairwise_lexemeClasses :
    lexemeClasses.Pairwise fun a b => b.kind ∈ longKinds → a.kind ∈ longKinds := by decide

/-- A class before the first one with a lexeme at the start of a text has none. -/
theorem length_le_of_first {group : LexemeClass} {before behind : List LexemeClass}
    (hsplit : lexemeClasses = before ++ group :: behind) (hlong : group.longest cs ≠ 0)
    (hbefore : ∀ other ∈ before, other.longest cs = 0) (hp : p <+: cs) (hfits : k.Fits p) :
    p.length ≤ group.longest cs := by
  have hmem : group ∈ lexemeClasses := hsplit ▸ List.mem_append_right _ List.mem_cons_self
  have hclass := isLongest_of_mem hmem cs
  by_cases hk : k ∈ longKinds
  · by_cases hfirst : group.kind ∈ longKinds
    · -- both texts begin with the same character, so they are of one kind
      have hkind : group.kind = k := by
        obtain ⟨c, rest, rfl⟩ := List.exists_cons_of_ne_nil (ne_nil_of_fits hfits)
        obtain ⟨more, rfl⟩ := hp
        obtain ⟨n, hn⟩ := Nat.exists_eq_succ_of_ne_zero hlong
        have hfirstFits := hclass.fits hlong
        rw [hn, List.cons_append, List.take_succ_cons] at hfirstFits
        exact eq_of_begins (begins_of_fits hfirstFits hfirst) (begins_of_fits hfits hk)
      exact hclass.longest p hp (hkind ▸ hfits)
    · obtain ⟨other, hother, rfl⟩ := exists_class_of_fits hfits
      have hle := (isLongest_of_mem hother cs).longest p hp hfits
      have hin : other ∈ before := by
        rw [hsplit] at hother
        rcases List.mem_append.mp hother with hin | hin
        · exact hin
        rcases List.mem_cons.mp hin with rfl | hin
        · exact absurd hk hfirst
        · have hpairs := pairwise_lexemeClasses
          rw [hsplit] at hpairs
          have hpair := (List.pairwise_append.mp hpairs).2.1
          exact absurd ((List.pairwise_cons.mp hpair).1 other hin hk) hfirst
      rw [hbefore other hin] at hle
      exact hle.trans (Nat.zero_le _)
  · rw [length_of_fits hfits hk]
    exact Nat.one_le_iff_ne_zero.mpr hlong

theorem hasKind_of_fits (h : k.Fits lexeme) : HasKind lexeme (lexemeKind k lexeme) := by
  unfold lexemeKind
  by_cases hk : k = .identifier
  · subst hk
    rw [if_pos rfl]
    have hlower := Text.lower_ofList (IsName.toNat_lt h)
    unfold wordKind
    cases hl : reservedWords.lookup (String.ofList (lexeme.map Char.toLower)) with
    | none =>
      refine HasKind.pattern h fun _ w hw heq => ?_
      rw [hlower] at heq
      have hno := List.lookup_eq_none_iff.mp hl w hw
      simp [heq] at hno
    | some k =>
      obtain ⟨before, behind, hwords, -⟩ := List.lookup_eq_some_iff.mp hl
      refine HasKind.reserved h ?_
      rw [hlower, hwords]
      exact List.mem_append_right _ List.mem_cons_self
  · rw [if_neg hk]
    exact HasKind.pattern h fun hname => absurd hname hk

/-- The lexeme that is taken is the longest one there, and its kind is as it should be. -/
theorem longest_of_lexeme? (h : lexeme? cs = some (k, lexeme)) :
    IsLongestLexeme lexeme cs ∧ HasKind lexeme k := by
  unfold lexeme? at h
  obtain ⟨group, hfind, heq⟩ := Option.map_eq_some_iff.mp h
  obtain ⟨rfl, rfl⟩ := Prod.mk.inj heq
  obtain ⟨hlong, before, behind, hsplit, hbefore⟩ := List.find?_eq_some_iff_append.mp hfind
  have hlong : group.longest cs ≠ 0 := by simpa using hlong
  have hbefore : ∀ other ∈ before, other.longest cs = 0 := fun other ho => by
    simpa using hbefore other ho
  have hmem : group ∈ lexemeClasses := hsplit ▸ List.mem_append_right _ List.mem_cons_self
  have hfits := (isLongest_of_mem hmem cs).fits hlong
  refine ⟨⟨⟨_, hfits⟩, List.take_prefix _ _, ?_⟩, hasKind_of_fits hfits⟩
  rintro other hother ⟨k', hother'⟩
  rw [List.length_take]
  exact Nat.le_min.mpr ⟨length_le_of_first hsplit hlong hbefore hother hother',
    hother.length_le⟩

/-- Where no lexeme is taken there is none. -/
theorem not_isLexeme_of_lexeme? (h : lexeme? cs = none) (hp : p <+: cs) : ¬ IsLexeme p := by
  rintro ⟨k, hfits⟩
  obtain ⟨group, hmem, rfl⟩ := exists_class_of_fits hfits
  unfold lexeme? at h
  have hzero : group.longest cs = 0 := by
    simpa using List.find?_eq_none.mp (Option.map_eq_none_iff.mp h) group hmem
  have hle := (isLongest_of_mem hmem cs).longest p hp hfits
  rw [hzero, Nat.le_zero, List.length_eq_zero_iff] at hle
  exact ne_nil_of_fits hfits hle

end Lexer

/-! ## Lexemes and their kinds -/

theorem IsLongestLexeme.length_pos {lexeme text : List Char} (h : IsLongestLexeme lexeme text) :
    0 < lexeme.length := by
  obtain ⟨k, hk⟩ := h.fits
  exact List.length_pos_iff.mpr (Lexer.ne_nil_of_fits hk)

theorem HasKind.ne_endOfInput {lexeme : List Char} {k : Kind} (h : HasKind lexeme k) :
    k ≠ .endOfInput := by
  rintro rfl
  cases h with
  | reserved _ hw =>
    have hall : ∀ w ∈ reservedWords, w.2 ≠ .endOfInput := by decide
    exact hall _ hw rfl
  | pattern hfits _ =>
    obtain ⟨s, hs, -⟩ := hfits
    exact absurd hs List.not_mem_nil

/-- No name spells a reserved word. -/
theorem HasKind.not_reserved {lexeme : List Char} (h : HasKind lexeme .identifier) :
    ∀ w ∈ reservedWords, w.1 ≠ Text.lower (String.ofList lexeme) := by
  cases h with
  | reserved _ hw =>
    have hall : ∀ w ∈ reservedWords, w.2 ≠ .identifier := by decide
    exact absurd rfl (hall _ hw)
  | pattern _ hno => exact hno rfl

theorem HasKind.isNumeral {lexeme : List Char} (h : HasKind lexeme .number) :
    Numeral.IsNumeral lexeme := by
  cases h with
  | reserved _ hw =>
    have hall : ∀ w ∈ reservedWords, w.2 ≠ .number := by decide
    exact absurd rfl (hall _ hw)
  | pattern hfits _ => exact hfits

/-- A token of a text is an end token or has the kind of its lexeme. -/
theorem Token.IsScanned.hasKind {t : Token} (h : t.IsScanned) :
    (∃ line, t = .endOfInput line) ∨ HasKind t.lexeme.toList t.kind := by
  obtain ⟨l, l', h⟩ := h
  rcases Lexer.eq_of_next h with hline | ⟨cs, lexeme, hlexeme, heq⟩
  · exact Or.inl hline
  · refine Or.inr ?_
    rw [heq, String.toList_ofList]
    exact (Lexer.longest_of_lexeme? hlexeme).2

end ProcLang
