import Mathlib
import ProcLang.Numeral.Value

/-!
# Numerals that have a value

A numeral of a text is made of ASCII digits, with a fraction or without one (`IsNumeral`). One with
a fraction always has a value, and a whole number has one if it is not too long (`isOk_parse_iff`).
-/

namespace ProcLang.Numeral

/-- Digits, and perhaps a point with digits behind it. -/
def IsNumeral (cs : List Char) : Prop :=
  ∃ whole fraction, whole ≠ [] ∧ (∀ c ∈ whole, c.isDigit) ∧ (∀ c ∈ fraction, c.isDigit) ∧
    (cs = whole ∨ fraction ≠ [] ∧ cs = whole ++ '.' :: fraction)

variable {c : Char} {cs : List Char} {s : String}

/-! ## Digits -/

/-- There are ten digits. -/
theorem eq_digitChar_of_isDigit (h : c.isDigit) : ∃ d < 10, c = Nat.digitChar d := by
  obtain ⟨hlow, hhigh⟩ : 48 ≤ c.toNat ∧ c.toNat ≤ 57 := by
    simpa [Char.isDigit, UInt32.le_iff_toNat_le] using h
  have hall : ∀ d < 10, Char.ofNat (48 + d) = Nat.digitChar d := by decide
  refine ⟨c.toNat - 48, by omega, ?_⟩
  rw [← hall _ (by omega), Nat.add_sub_cancel' hlow, Char.ofNat_toNat]

theorem plainChar_of_isDigit (h : c.isDigit) : plainChar c = c := by
  obtain ⟨d, hd, rfl⟩ := eq_digitChar_of_isDigit h
  have hall : ∀ d < 10, plainChar (Nat.digitChar d) = Nat.digitChar d := by decide
  exact hall d hd

/-! ## Plain texts -/

/-- The characters of a numeral are plain, and none of them is a blank or an underscore. -/
structure IsPlain (cs : List Char) : Prop where
  plain : ∀ c ∈ cs, plainChar c = c
  blank : ∀ c ∈ cs, c ≠ ' '
  underscore : ∀ c ∈ cs, c ≠ '_'

theorem IsPlain.append {ds : List Char} (h : IsPlain cs) (h' : IsPlain ds) :
    IsPlain (cs ++ ds) where
  plain := List.forall_mem_append.mpr ⟨h.plain, h'.plain⟩
  blank := List.forall_mem_append.mpr ⟨h.blank, h'.blank⟩
  underscore := List.forall_mem_append.mpr ⟨h.underscore, h'.underscore⟩

theorem isPlain_of_isDigit (h : ∀ c ∈ cs, c.isDigit) : IsPlain cs where
  plain c hm := plainChar_of_isDigit (h c hm)
  blank := by
    rintro c hm rfl
    exact absurd (h _ hm) (by decide)
  underscore := by
    rintro c hm rfl
    exact absurd (h _ hm) (by decide)

theorem isPlain_point : IsPlain ['.'] := by
  constructor <;> simp only [List.mem_singleton, forall_eq] <;> decide

theorem dropWhile_of_forall {p : Char → Bool} (h : ∀ c ∈ cs, p c = false) :
    cs.dropWhile p = cs := by
  cases cs with
  | nil => rfl
  | cons c cs => rw [List.dropWhile_cons_of_neg (by simp [h c List.mem_cons_self])]

namespace IsPlain

theorem plainText_eq (h : IsPlain s.toList) : plainText s = s.toList := by
  have hmap : s.toList.map plainChar = s.toList := by
    rw [List.map_congr_left h.plain, List.map_id']
  have hblank : ∀ c ∈ s.toList, (c == ' ') = false := fun c hm => by simpa using h.blank c hm
  unfold plainText
  rw [hmap, dropWhile_of_forall hblank,
    dropWhile_of_forall fun c hm => hblank c (List.mem_reverse.mp hm), List.reverse_reverse]

theorem filter_eq (h : IsPlain cs) : cs.filter (· != '_') = cs :=
  List.filter_eq_self.mpr fun c hm => by simpa using h.underscore c hm

theorem underscoresFit_eq (h : IsPlain cs) (previous : Bool) : underscoresFit previous cs := by
  induction cs generalizing previous with
  | nil => rfl
  | cons c cs ih =>
    have hc := h.underscore c List.mem_cons_self
    rw [underscoresFit.eq_4 _ _ _ (fun _ _ h _ => hc h) fun h _ => hc h]
    exact ih ⟨fun c hm => h.plain c (List.mem_cons_of_mem _ hm),
      fun c hm => h.blank c (List.mem_cons_of_mem _ hm),
      fun c hm => h.underscore c (List.mem_cons_of_mem _ hm)⟩ _

end IsPlain

theorem splitSign_of_isDigit {whole rest : List Char} (hne : whole ≠ [])
    (h : ∀ c ∈ whole, c.isDigit) : splitSign (whole ++ rest) = (false, whole ++ rest) := by
  cases whole with
  | nil => exact absurd rfl hne
  | cons c whole =>
    have hc := h c List.mem_cons_self
    refine splitSign.eq_3 _ ?_ ?_
    all_goals
      rintro more heq
      cases heq
      exact absurd hc (by decide)

/-! ## Values -/

/-- Digits are read as a whole number, unless there are too many. -/
theorem parseInteger_of_isDigit (hne : s.toList ≠ []) (h : ∀ c ∈ s.toList, c.isDigit) :
    parseInteger s = if maxIntegerDigits < s.length then .error (.tooLong s.length)
      else .ok (ofDigits s.toList) := by
  have hplain := isPlain_of_isDigit h
  have hrun : s.toList.takeWhile (fun c => c.isDigit || c == '_') = s.toList :=
    List.takeWhile_eq_self_iff.mpr fun c hm => by simp [h c hm]
  have hsign : splitSign (s.toList ++ []) = (false, s.toList ++ []) := splitSign_of_isDigit hne h
  rw [List.append_nil] at hsign
  unfold parseInteger
  simp only [hplain.plainText_eq, hsign, hrun, hplain.filter_eq, hplain.underscoresFit_eq,
    String.length_toList]
  simp [hne]

theorem isOk_parseInteger_iff (hne : s.toList ≠ []) (h : ∀ c ∈ s.toList, c.isDigit) :
    (parseInteger s).isOk ↔ s.length ≤ maxIntegerDigits := by
  rw [parseInteger_of_isDigit hne h]
  split
  · next hlong => simp [Except.isOk, Except.toBool, hlong]
  · next hlong => simp [Except.isOk, Except.toBool, Nat.le_of_not_lt hlong]

theorem isOk_parseReal {whole fraction : List Char} (hne : whole ≠ [])
    (hwhole : ∀ c ∈ whole, c.isDigit) (hfraction : ∀ c ∈ fraction, c.isDigit)
    (hs : s.toList = whole ++ '.' :: fraction) : (parseReal s).isOk := by
  have hplain : IsPlain s.toList := by
    rw [hs]
    exact (isPlain_of_isDigit hwhole).append
      (isPlain_point.append (isPlain_of_isDigit hfraction))
  have hsome : (parseReal? s.toList).isSome := by
    unfold parseReal?
    rw [hs, splitSign_of_isDigit hne hwhole]
    have hpoint : ¬ Char.isDigit '.' := by decide
    simp only [List.takeWhile_append_of_pos hwhole, List.dropWhile_append_of_pos hwhole,
      List.takeWhile_cons_of_neg hpoint, List.dropWhile_cons_of_neg hpoint, List.append_nil]
    rw [if_neg (by simp [hne]), List.dropWhile_eq_nil_iff.mpr hfraction]
    rfl
  obtain ⟨x, hx⟩ := Option.isSome_iff_exists.mp hsome
  unfold parseReal
  simp only [hplain.plainText_eq, hplain.underscoresFit_eq, hplain.filter_eq, if_true, hx]
  rfl

/-- The number that digits denote, the last of them being the lowest place in base ten. -/
theorem ofDigits_eq (digits : List Char) : ofDigits digits =
    Nat.ofDigits 10 (digits.reverse.map fun c => c.toNat - '0'.toNat) := by
  induction digits using List.reverseRecOn with
  | nil => rfl
  | append_singleton digits c ih =>
    have hstep : ofDigits (digits ++ [c]) = 10 * ofDigits digits + (c.toNat - '0'.toNat) := by
      unfold ofDigits
      rw [List.foldl_append]
      rfl
    rw [hstep, ih, List.reverse_append, List.reverse_singleton, List.singleton_append,
      List.map_cons, Nat.ofDigits_cons, Nat.add_comm]

/-- A numeral of a text has a value, unless it is a whole number that is too long. -/
theorem isOk_parse_iff (h : IsNumeral s.toList) :
    (Value.parse s).isOk ↔ hasPoint s ∨ s.length ≤ maxIntegerDigits := by
  obtain ⟨whole, fraction, hne, hwhole, hfraction, hs | ⟨-, hs⟩⟩ := h
  · rw [← hs] at hne hwhole
    have hpoint : hasPoint s = false := by
      unfold hasPoint
      rw [Bool.eq_false_iff, Ne, List.contains_iff_mem]
      exact fun hm => absurd (hwhole _ hm) (by decide)
    unfold Value.parse
    rw [hpoint]
    simp only [Bool.false_eq_true, if_false, false_or]
    rw [← isOk_parseInteger_iff hne hwhole]
    cases parseInteger s <;> rfl
  · have hpoint : hasPoint s = true := by
      unfold hasPoint
      rw [List.contains_iff_mem, hs]
      exact List.mem_append_right _ List.mem_cons_self
    unfold Value.parse
    rw [hpoint]
    have hok := isOk_parseReal hne hwhole hfraction hs
    simp only [if_true, true_or, iff_true]
    cases hp : parseReal s with
    | ok x => rfl
    | error e =>
      rw [hp] at hok
      cases hok

end ProcLang.Numeral
