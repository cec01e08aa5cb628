import ProcLang.Proofs.Table
import ProcLang.SymbolTable.Row

/-!
# The table while a procedure is analysed

From a table `b` the analysis of a procedure makes tables that have grown from it
(`SymbolTable.Grown`): what was in `b` stays as it was, and what was added lies at the depth of `b`
or deeper, each new declaration of a name deeper than the earlier ones. Declaring a name, entering
and leaving a scope and attributing new symbols keep this.

`SymbolTable.Waiting` is the part of the invariant that is about attributes: the new symbols without
attributes are among the pending ones. `SymbolTable.Owns` says which symbol the name of the
procedure leads to while its parameters and local names are read.
-/

namespace ProcLang

/-! ## Attributing symbols -/

/-- The symbol may have been attributed: as a variable or constant of some type if it had no
attributes, else by others of its kind and type. -/
structure Symbol.Refines (s s' : Symbol) : Prop where
  name : s'.name = s.name
  depth : s'.depth = s.depth
  attributes : (s'.kind? = s.kind? ∧ s'.valueType? = s.valueType?) ∨
    (s.kind? = none ∧ s'.valueType?.isSome)

namespace Symbol

variable {s s' s'' : Symbol}

theorem kind?_eq_none : s.kind? = none ↔ s.attributes = .unset := by
  unfold kind? Attributes.kind?
  cases s.attributes <;> simp

/-- Only variables and constants have a type. -/
theorem kind?_of_typed (h : s.valueType?.isSome) : s.kind? = some .var ∨ s.kind? = some .const := by
  unfold valueType? at h
  unfold kind? Attributes.kind?
  cases ha : s.attributes <;> simp_all

theorem isShowable_of_typed (h : s.valueType?.isSome) : s.isShowable := by
  unfold valueType? at h
  unfold isShowable
  cases ha : s.attributes <;> simp_all

theorem isShowable_congr (hs : s.isShowable) (hk : s'.kind? = s.kind?)
    (ht : s'.valueType? = s.valueType?) : s'.isShowable := by
  unfold kind? Attributes.kind? at hk
  unfold valueType? at ht
  unfold isShowable at *
  cases ha : s.attributes <;> cases ha' : s'.attributes <;> simp_all

theorem isShowable_of_func (h : s.kind? = some .func) : s.isShowable := by
  unfold kind? Attributes.kind? at h
  unfold isShowable
  cases ha : s.attributes <;> simp_all

namespace Refines

theorem refl (s : Symbol) : s.Refines s := ⟨rfl, rfl, Or.inl ⟨rfl, rfl⟩⟩

theorem typed (h : s.Refines s') (hs : s.valueType?.isSome) : s'.valueType?.isSome := by
  rcases h.attributes with ⟨-, htype⟩ | ⟨-, htype⟩
  · rwa [htype]
  · exact htype

theorem trans (h : s.Refines s') (h' : s'.Refines s'') : s.Refines s'' where
  name := h'.name.trans h.name
  depth := h'.depth.trans h.depth
  attributes := by
    rcases h.attributes with ⟨hkind, htype⟩ | ⟨hnone, htype⟩
    · rw [← hkind, ← htype]
      exact h'.attributes
    · exact Or.inr ⟨hnone, h'.typed htype⟩

theorem func_iff (h : s.Refines s') : s'.kind? = some .func ↔ s.kind? = some .func := by
  rcases h.attributes with ⟨hkind, -⟩ | ⟨hnone, htype⟩
  · rw [hkind]
  · rw [hnone]
    rcases kind?_of_typed htype with hk | hk <;> simp [hk]

theorem isShowable (h : s.Refines s') (hs : s.isShowable) : s'.isShowable := by
  rcases h.attributes with ⟨hkind, htype⟩ | ⟨-, htype⟩
  · exact isShowable_congr hs hkind htype
  · exact isShowable_of_typed htype

theorem unset (h : s.Refines s') (hs : s'.kind? = none) : s.kind? = none := by
  rcases h.attributes with ⟨hkind, -⟩ | ⟨hnone, -⟩
  · rw [← hkind, hs]
  · exact hnone

end Refines

end Symbol

namespace SymbolTable

variable {b t t' : SymbolTable} {n : Nat}

/-- The tables have the same declarations, and the first `n` symbols are the same. -/
structure Restyled (n : Nat) (t t' : SymbolTable) : Prop where
  byName : t'.byName = t.byName
  namesAt : t'.namesAt = t.namesAt
  depth : t'.depth = t.depth
  size : t'.symbols.size = t.symbols.size
  kept : ∀ h < n, t'.symbol h = t.symbol h
  name_eq : ∀ h, (t'.symbol h).name = (t.symbol h).name
  depth_eq : ∀ h, (t'.symbol h).depth = (t.symbol h).depth

/-- Symbols other than the first `n` may have been attributed. -/
structure Refined (n : Nat) (t t' : SymbolTable) : Prop extends Restyled n t t' where
  refines : ∀ h, (t.symbol h).Refines (t'.symbol h)

theorem Restyled.set {h : Handle} {s : Symbol} (hn : n ≤ h) (hname : s.name = (t.symbol h).name)
    (hdepth : s.depth = (t.symbol h).depth) : Restyled n t (t.set h s) where
  byName := rfl
  namesAt := rfl
  depth := rfl
  size := size_set ..
  kept := fun h' hlt => by
    have hne : h' ≠ h := Nat.ne_of_lt (Nat.lt_of_lt_of_le hlt hn)
    rw [symbol_set, if_neg fun hh => hne hh.1]
  name_eq := fun h' => by
    rw [symbol_set]
    split
    · next hh => rw [hh.1, hname]
    · rfl
  depth_eq := fun h' => by
    rw [symbol_set]
    split
    · next hh => rw [hh.1, hdepth]
    · rfl

theorem WellFormed.restyled (hw : t.WellFormed) (hr : Restyled n t t') : t'.WellFormed where
  byName := hr.byName ▸ hw.byName
  namesAt := hr.namesAt ▸ hw.namesAt
  handle_lt := fun hm => by
    rw [hr.size]
    exact hw.handle_lt (hr.byName ▸ hm)
  name_eq := fun hm => by
    rw [hr.name_eq]
    exact hw.name_eq (hr.byName ▸ hm)
  sorted := hr.byName ▸ hw.sorted
  filed := by
    intro y d
    simp only [hr.namesAt, hr.byName, hr.depth_eq]
    exact hw.filed

namespace Refined

theorem refl (n : Nat) (t : SymbolTable) : Refined n t t :=
  ⟨⟨rfl, rfl, rfl, rfl, fun _ _ => rfl, fun _ => rfl, fun _ => rfl⟩, fun _ => .refl _⟩

theorem trans {t'' : SymbolTable} (h : Refined n t t') (h' : Refined n t' t'') :
    Refined n t t'' where
  byName := h'.byName.trans h.byName
  namesAt := h'.namesAt.trans h.namesAt
  depth := h'.depth.trans h.depth
  size := h'.size.trans h.size
  kept := fun g hg => (h'.kept g hg).trans (h.kept g hg)
  name_eq := fun g => (h'.name_eq g).trans (h.name_eq g)
  depth_eq := fun g => (h'.depth_eq g).trans (h.depth_eq g)
  refines := fun g => (h.refines g).trans (h'.refines g)

theorem set {h : Handle} {s : Symbol} (hn : n ≤ h) (hs : (t.symbol h).Refines s) :
    Refined n t (t.set h s) where
  toRestyled := .set hn hs.name hs.depth
  refines := fun h' => by
    rw [symbol_set]
    split
    · next hh => exact hh.1 ▸ hs
    · exact .refl _

end Refined

/-! ## Tables that have grown from a table -/

/-- No declaration is deeper than the present scope. -/
def Bounded (t : SymbolTable) : Prop :=
  ∀ y, ∀ h ∈ t.byName.get y, (t.symbol h).depth ≤ t.depth

/-- Nothing is declared deeper than the present scope. -/
theorem WellFormed.namesAt_eq_nil {t : SymbolTable} (ht : t.WellFormed) (hb : t.Bounded) {d : Int}
    (hd : t.depth < d) : t.namesAt.get d = [] := by
  rw [List.eq_nil_iff_forall_not_mem]
  intro y hy
  obtain ⟨h, hm, heq⟩ := ht.filed.mp hy
  have hle := hb y h hm
  omega

/-- The table `t` was made from `b` by declarations, none of them in a scope around that of `b`, and
by entering and leaving scopes. The new symbols are those that `b` has no handles on. -/
structure Grown (b t : SymbolTable) : Prop where
  wellFormed : t.WellFormed
  start : b.WellFormed
  around : b.Bounded
  bounded : t.Bounded
  deep : b.depth ≤ t.depth
  size_le : b.symbols.size ≤ t.symbols.size
  kept : ∀ h < b.symbols.size, t.symbol h = b.symbol h
  old : ∀ y, (t.byName.get y).filter (· < b.symbols.size) = b.byName.get y
  below : ∀ d < b.depth, t.namesAt.get d = b.namesAt.get d
  inside : ∀ y, ∀ h ∈ t.byName.get y, b.symbols.size ≤ h → b.depth ≤ (t.symbol h).depth
  deeper : ∀ y, ∀ h ∈ t.byName.get y, ∀ h' ∈ t.byName.get y, b.symbols.size ≤ h' → h < h' →
    (t.symbol h).depth < (t.symbol h').depth

/-- A table has grown from itself. -/
theorem Grown.refl (hb : b.WellFormed) (hd : b.Bounded) : Grown b b where
  wellFormed := hb
  start := hb
  around := hd
  bounded := hd
  deep := Int.le_refl _
  size_le := Nat.le_refl _
  kept := fun _ _ => rfl
  old := fun y => List.filter_eq_self.mpr fun h hm => by simpa using hb.handle_lt hm
  below := fun _ _ => rfl
  inside := fun y h hm hn => absurd (hb.handle_lt hm) (Nat.not_lt.mpr hn)
  deeper := fun y _ _ h' hm' hn => absurd (hb.handle_lt hm') (Nat.not_lt.mpr hn)

namespace Grown

/-- What was declared before is still declared. -/
theorem mem_of_mem_base (hg : Grown b t) {y : String} {h : Handle} (hm : h ∈ b.byName.get y) :
    h ∈ t.byName.get y := by
  rw [← hg.old y] at hm
  exact (List.mem_filter.mp hm).1

theorem mem_base_of_lt (hg : Grown b t) {y : String} {h : Handle} (hm : h ∈ t.byName.get y)
    (hn : h < b.symbols.size) : h ∈ b.byName.get y := by
  rw [← hg.old y, List.mem_filter]
  exact ⟨hm, by simpa using hn⟩

/-- A declaration deeper than the scope of `b` is new. -/
theorem size_le_of_depth_lt (hg : Grown b t) {y : String} {h : Handle}
    (hm : h ∈ t.byName.get y) (hd : b.depth < (t.symbol h).depth) : b.symbols.size ≤ h := by
  by_contra hn
  have hlt : h < b.symbols.size := Nat.lt_of_not_le hn
  have hle := hg.around y h (hg.mem_base_of_lt hm hlt)
  rw [hg.kept h hlt] at hd
  omega

theorem restyled (hg : Grown b t) (hr : Restyled b.symbols.size t t') : Grown b t' where
  wellFormed := hg.wellFormed.restyled hr
  start := hg.start
  around := hg.around
  bounded := fun y h hm => by
    rw [hr.depth_eq, hr.depth]
    exact hg.bounded y h (hr.byName ▸ hm)
  deep := hr.depth ▸ hg.deep
  size_le := hr.size ▸ hg.size_le
  kept := fun h hn => (hr.kept h hn).trans (hg.kept h hn)
  old := hr.byName ▸ hg.old
  below := hr.namesAt ▸ hg.below
  inside := fun y h hm hn => by
    rw [hr.depth_eq]
    exact hg.inside y h (hr.byName ▸ hm) hn
  deeper := fun y h hm h' hm' hn hlt => by
    rw [hr.depth_eq, hr.depth_eq]
    exact hg.deeper y h (hr.byName ▸ hm) h' (hr.byName ▸ hm') hn hlt

/-- A name that is new in the present scope may be declared there. -/
theorem insert (hg : Grown b t) {name : String} (hnew : name ∉ t.namesAt.get t.depth) :
    Grown b (t.insert name t.depth).2 := by
  have hw := hg.wellFormed
  -- the declarations of the name that are there lie in scopes around the present one
  have hlt : ∀ h ∈ t.byName.get name, (t.symbol h).depth < t.depth := by
    intro h hm
    have hle := hg.bounded name h hm
    have hne : (t.symbol h).depth ≠ t.depth := fun hd => hnew (hw.filed.mpr ⟨h, hm, hd⟩)
    omega
  refine ⟨hw.insert name t.depth, hg.start, hg.around, ?_, hg.deep, ?_, ?_, ?_, ?_, ?_, ?_⟩
  · intro y h hm
    rcases WellFormed.mem_insert hm with hm | ⟨-, rfl⟩
    · rw [hw.symbol_insert_of_mem hm]
      exact hg.bounded y h hm
    · rw [WellFormed.symbol_insert_self]
      exact Int.le_refl _
  · rw [size_insert]
    exact Nat.le_succ_of_le hg.size_le
  · intro h hn
    rw [symbol_insert, if_neg (Nat.ne_of_lt (Nat.lt_of_lt_of_le hn hg.size_le))]
    exact hg.kept h hn
  · intro y
    have hnot : ¬ t.symbols.size < b.symbols.size := Nat.not_lt.mpr hg.size_le
    rw [get_byName_insert]
    by_cases hy : y = name
    · subst hy
      simpa [List.filter_append, hnot] using hg.old y
    · rw [if_neg hy]
      exact hg.old y
  · intro d hd
    have hne : d ≠ t.depth := by have := hg.deep; omega
    rw [get_namesAt_insert, if_neg hne]
    exact hg.below d hd
  · intro y h hm hn
    rcases WellFormed.mem_insert hm with hm | ⟨-, rfl⟩
    · rw [hw.symbol_insert_of_mem hm]
      exact hg.inside y h hm hn
    · rw [WellFormed.symbol_insert_self]
      exact hg.deep
  · intro y h hm h' hm' hn hlt'
    rcases WellFormed.mem_insert hm with hold | ⟨-, rfl⟩
    · rw [hw.symbol_insert_of_mem hold]
      rcases WellFormed.mem_insert hm' with hold' | ⟨rfl, rfl⟩
      · rw [hw.symbol_insert_of_mem hold']
        exact hg.deeper y h hold h' hold' hn hlt'
      · rw [WellFormed.symbol_insert_self]
        exact hlt h hold
    · rcases WellFormed.mem_insert hm' with hold' | ⟨-, rfl⟩
      · exact absurd hlt' (Nat.not_lt.mpr (Nat.le_of_lt (hw.handle_lt hold')))
      · exact absurd hlt' (Nat.lt_irrefl _)

theorem enter (hg : Grown b t) : Grown b t.enter where
  wellFormed := hg.wellFormed.setDepth _
  start := hg.start
  around := hg.around
  bounded := fun y h hm => by
    have hle : (t.symbol h).depth ≤ t.depth := hg.bounded y h hm
    show (t.symbol h).depth ≤ t.depth + 1
    omega
  deep := by
    have hle := hg.deep
    show b.depth ≤ t.depth + 1
    omega
  size_le := hg.size_le
  kept := hg.kept
  old := hg.old
  below := hg.below
  inside := hg.inside
  deeper := hg.deeper

/-- The present scope may be left if it is not that of `b`. -/
theorem leave (hg : Grown b t) (hd : b.depth < t.depth) : Grown b t.leave := by
  have hw := hg.wellFormed
  have hmem : ∀ {y h}, h ∈ t.leave.byName.get y ↔
      h ∈ t.byName.get y ∧ (t.symbol h).depth ≠ t.depth := hw.mem_deleteDepth_iff
  have hsym : ∀ h, t.leave.symbol h = t.symbol h := symbol_deleteDepth t t.depth
  refine ⟨(hw.deleteDepth _).setDepth _, hg.start, hg.around, ?_, ?_, ?_, ?_, ?_, ?_, ?_, ?_⟩
  · intro y h hm
    obtain ⟨hm, hne⟩ := hmem.mp hm
    have hle := hg.bounded y h hm
    rw [hsym]
    show (t.symbol h).depth ≤ t.depth - 1
    omega
  · show b.depth ≤ t.depth - 1
    omega
  · show b.symbols.size ≤ (t.deleteDepth t.depth).symbols.size
    rw [size_deleteDepth]
    exact hg.size_le
  · intro h hn
    rw [hsym]
    exact hg.kept h hn
  · intro y
    show ((t.deleteDepth t.depth).byName.get y).filter _ = _
    rw [hw.get_byName_deleteDepth, List.filter_filter, ← hg.old y]
    refine List.filter_congr fun h hm => ?_
    by_cases hn : h < b.symbols.size
    · have hle := hg.around y h (hg.mem_base_of_lt hm hn)
      have hne : (t.symbol h).depth ≠ t.depth := by rw [hg.kept h hn]; omega
      simp [hn, hne]
    · simp [hn]
  · intro d hlt
    show (t.deleteDepth t.depth).namesAt.get d = _
    have hne : d ≠ t.depth := by omega
    rw [get_namesAt_deleteDepth, if_neg hne]
    exact hg.below d hlt
  · intro y h hm hn
    rw [hsym]
    exact hg.inside y h (hmem.mp hm).1 hn
  · intro y h hm h' hm' hn hlt
    rw [hsym, hsym]
    exact hg.deeper y h (hmem.mp hm).1 h' (hmem.mp hm').1 hn hlt

end Grown

/-! ## Names that wait for their attributes -/

/-- The new symbols without attributes are pending, and the pending symbols are declarations of the
present scope. Every new symbol has a row, and those in the scope of `b` are functions. -/
structure Waiting (b t : SymbolTable) (pending : List Handle) : Prop where
  nodup : pending.Nodup
  new : ∀ h ∈ pending, b.symbols.size ≤ h
  listed : ∀ h ∈ pending, h ∈ t.byName.get (t.symbol h).name
  here : ∀ h ∈ pending, (t.symbol h).depth = t.depth
  noFunction : ∀ h ∈ pending, (t.symbol h).kind? ≠ some .func
  attributed : ∀ y, ∀ h ∈ t.byName.get y, b.symbols.size ≤ h → (t.symbol h).kind? = none →
    h ∈ pending
  shown : ∀ y, ∀ h ∈ t.byName.get y, b.symbols.size ≤ h → (t.symbol h).isShowable
  base : ∀ y, ∀ h ∈ t.byName.get y, b.symbols.size ≤ h → (t.symbol h).depth = b.depth →
    (t.symbol h).kind? = some .func

namespace Waiting

variable {pending : List Handle}

/-- Where every new symbol has its attributes, nothing has to wait. -/
theorem nil
    (attributed : ∀ y, ∀ h ∈ t.byName.get y, b.symbols.size ≤ h → (t.symbol h).kind? ≠ none)
    (shown : ∀ y, ∀ h ∈ t.byName.get y, b.symbols.size ≤ h → (t.symbol h).isShowable)
    (base : ∀ y, ∀ h ∈ t.byName.get y, b.symbols.size ≤ h → (t.symbol h).depth = b.depth →
      (t.symbol h).kind? = some .func) : Waiting b t [] where
  nodup := List.nodup_nil
  new := fun _ h => absurd h List.not_mem_nil
  listed := fun _ h => absurd h List.not_mem_nil
  here := fun _ h => absurd h List.not_mem_nil
  noFunction := fun _ h => absurd h List.not_mem_nil
  attributed := fun y h hm hn hk => absurd hk (attributed y h hm hn)
  shown := shown
  base := base

theorem kind?_ne_none (hp : Waiting b t []) {y : String} {h : Handle} (hm : h ∈ t.byName.get y)
    (hn : b.symbols.size ≤ h) : (t.symbol h).kind? ≠ none :=
  fun hk => List.not_mem_nil (hp.attributed y h hm hn hk)

theorem refl (hb : b.WellFormed) : Waiting b b [] :=
  have hno : ∀ {y h}, h ∈ b.byName.get y → ¬ b.symbols.size ≤ h := fun hm =>
    Nat.not_le.mpr (hb.handle_lt hm)
  .nil (fun _ _ hm hn => absurd hn (hno hm)) (fun _ _ hm hn => absurd hn (hno hm))
    fun _ _ hm hn => absurd hn (hno hm)

theorem refined (hp : Waiting b t pending) (hr : Refined b.symbols.size t t') :
    Waiting b t' pending where
  nodup := hp.nodup
  new := hp.new
  listed := fun h hm => by
    rw [hr.byName, hr.name_eq]
    exact hp.listed h hm
  here := fun h hm => by
    rw [hr.depth_eq, hr.depth]
    exact hp.here h hm
  noFunction := fun h hm hf => hp.noFunction h hm ((hr.refines h).func_iff.mp hf)
  attributed := fun y h hm hn hk =>
    hp.attributed y h (hr.byName ▸ hm) hn ((hr.refines h).unset hk)
  shown := fun y h hm hn => (hr.refines h).isShowable (hp.shown y h (hr.byName ▸ hm) hn)
  base := fun y h hm hn hd => (hr.refines h).func_iff.mpr
    (hp.base y h (hr.byName ▸ hm) hn (hr.depth_eq h ▸ hd))

/-- A name declared in a scope deeper than that of `b` is pending. -/
theorem declare (hp : Waiting b t pending) (hg : Grown b t) (hd : b.depth < t.depth)
    (name : String) :
    Waiting b (t.insert name t.depth).2 (pending ++ [t.symbols.size]) := by
  have hw := hg.wellFormed
  have hself := WellFormed.symbol_insert_self t name t.depth
  have hsym : ∀ h ∈ pending, (t.insert name t.depth).2.symbol h = t.symbol h :=
    fun h hm => hw.symbol_insert_of_mem (hp.listed h hm)
  constructor
  · rw [List.nodup_append]
    refine ⟨hp.nodup, List.nodup_singleton _, fun h hm h' hm' => ?_⟩
    rw [List.mem_singleton.mp hm']
    exact hw.ne_size (hp.listed h hm)
  · intro h hm
    rcases List.mem_append.mp hm with hm | hm
    · exact hp.new h hm
    · rw [List.mem_singleton.mp hm]
      exact hg.size_le
  · intro h hm
    rcases List.mem_append.mp hm with hm | hm
    · rw [hsym h hm]
      exact WellFormed.mem_insert_of_mem (hp.listed h hm)
    · rw [List.mem_singleton.mp hm, hself]
      exact WellFormed.mem_insert_self ..
  · intro h hm
    rcases List.mem_append.mp hm with hm | hm
    · rw [hsym h hm]
      exact hp.here h hm
    · rw [List.mem_singleton.mp hm, hself]
      rfl
  · intro h hm
    rcases List.mem_append.mp hm with hm | hm
    · rw [hsym h hm]
      exact hp.noFunction h hm
    · rw [List.mem_singleton.mp hm, hself]
      exact fun hk => by cases hk
  · intro y h hm hn hk
    rw [List.mem_append]
    rcases WellFormed.mem_insert hm with hold | ⟨-, rfl⟩
    · rw [hw.symbol_insert_of_mem hold] at hk
      exact Or.inl (hp.attributed y h hold hn hk)
    · exact Or.inr (List.mem_singleton_self _)
  · intro y h hm hn
    rcases WellFormed.mem_insert hm with hold | ⟨-, rfl⟩
    · rw [hw.symbol_insert_of_mem hold]
      exact hp.shown y h hold hn
    · rw [hself]
      rfl
  · intro y h hm hn hk
    rcases WellFormed.mem_insert hm with hold | ⟨-, rfl⟩
    · rw [hw.symbol_insert_of_mem hold] at hk ⊢
      exact hp.base y h hold hn hk
    · rw [hself] at hk
      have hk : t.depth = b.depth := hk
      omega

theorem enter (hp : Waiting b t []) : Waiting b t.enter [] :=
  .nil (fun _ _ hm hn => hp.kind?_ne_none hm hn) hp.shown hp.base

theorem leave (hp : Waiting b t []) (hw : t.WellFormed) : Waiting b t.leave [] := by
  have hmem : ∀ {y h}, h ∈ t.leave.byName.get y → h ∈ t.byName.get y :=
    fun hm => (hw.mem_deleteDepth_iff.mp hm).1
  have hsym : ∀ h, t.leave.symbol h = t.symbol h := symbol_deleteDepth t t.depth
  apply Waiting.nil
  · intro y h hm hn
    rw [hsym]
    exact hp.kind?_ne_none (hmem hm) hn
  · intro y h hm hn
    rw [hsym]
    exact hp.shown y h (hmem hm) hn
  · intro y h hm hn hd
    rw [hsym] at hd ⊢
    exact hp.base y h (hmem hm) hn hd

/-- When the pending symbols have got their types, nothing has to wait. -/
theorem clear (hp : Waiting b t pending) (htyped : ∀ h ∈ pending, (t.symbol h).valueType?.isSome) :
    Waiting b t [] := by
  refine .nil (fun y h hm hn hk => ?_) hp.shown hp.base
  rcases Symbol.kind?_of_typed (htyped h (hp.attributed y h hm hn hk)) with hk' | hk' <;>
    simp [hk'] at hk

end Waiting

/-! ## Declaring a procedure -/

/-- The table with a function declared in the present scope. -/
def withFunction (t : SymbolTable) (name : String) : SymbolTable :=
  (t.insert name t.depth).2.set t.symbols.size ⟨name, t.depth, .func {}⟩

@[simp] theorem withFunction_depth (t : SymbolTable) (name : String) :
    (t.withFunction name).depth = t.depth := rfl

theorem symbol_withFunction (t : SymbolTable) (name : String) (h : Handle) :
    (t.withFunction name).symbol h =
      if h = t.symbols.size then ⟨name, t.depth, .func {}⟩ else t.symbol h := by
  unfold withFunction
  rw [symbol_set, size_insert, symbol_insert]
  by_cases hh : h = t.symbols.size
  · rw [if_pos ⟨hh, Nat.lt_succ_self _⟩, if_pos hh]
  · rw [if_neg fun hc => hh hc.1, if_neg hh, if_neg hh]

theorem symbol_withFunction_self (t : SymbolTable) (name : String) :
    (t.withFunction name).symbol t.symbols.size = ⟨name, t.depth, .func {}⟩ := by
  rw [symbol_withFunction, if_pos rfl]

theorem WellFormed.symbol_withFunction_of_mem (ht : t.WellFormed) {name y : String} {h : Handle}
    (hm : h ∈ t.byName.get y) : (t.withFunction name).symbol h = t.symbol h := by
  rw [symbol_withFunction, if_neg (ht.ne_size hm)]

theorem Grown.withFunction (hg : Grown b t) {name : String}
    (hnew : name ∉ t.namesAt.get t.depth) : Grown b (t.withFunction name) :=
  (hg.insert hnew).restyled <| .set hg.size_le (by rw [WellFormed.symbol_insert_self])
    (by rw [WellFormed.symbol_insert_self])

theorem Waiting.withFunction (hp : Waiting b t []) (hw : t.WellFormed) (name : String) :
    Waiting b (t.withFunction name) [] := by
  have hmem : ∀ {y h}, h ∈ (t.withFunction name).byName.get y →
      h ∈ t.byName.get y ∨ y = name ∧ h = t.symbols.size := WellFormed.mem_insert
  apply Waiting.nil
  · intro y h hm hn
    rcases hmem hm with hold | ⟨-, rfl⟩
    · rw [hw.symbol_withFunction_of_mem hold]
      exact hp.kind?_ne_none hold hn
    · rw [symbol_withFunction_self]
      exact Option.some_ne_none _
  · intro y h hm hn
    rcases hmem hm with hold | ⟨-, rfl⟩
    · rw [hw.symbol_withFunction_of_mem hold]
      exact hp.shown y h hold hn
    · rw [symbol_withFunction_self]
      rfl
  · intro y h hm hn hd
    rcases hmem hm with hold | ⟨-, rfl⟩
    · rw [hw.symbol_withFunction_of_mem hold] at hd ⊢
      exact hp.base y h hold hn hd
    · rw [symbol_withFunction_self]
      rfl

/-- As a function, the name leads to the symbol `f`, which is new and is declared in the scope
around the present one. -/
structure Owns (b t : SymbolTable) (name : String) (f : Handle) : Prop where
  found : t.lookupKind? name .func = some f
  new : b.symbols.size ≤ f
  outside : (t.symbol f).depth = t.depth - 1

namespace Owns

variable {name : String} {f : Handle}

theorem kind_eq (ho : Owns b t name f) : (t.symbol f).kind? = some .func := by
  simpa using List.find?_some ho.found

theorem listed (ho : Owns b t name f) : f ∈ t.byName.get name :=
  List.mem_reverse.mp (List.mem_of_find?_eq_some ho.found)

theorem refined (ho : Owns b t name f) (hr : Refined b.symbols.size t t') : Owns b t' name f where
  found := by
    rw [← ho.found]
    unfold lookupKind? findLast?
    rw [hr.byName]
    congr 1
    funext h
    simp only [(hr.refines h).func_iff]
  new := ho.new
  outside := by rw [hr.depth_eq, hr.depth, ho.outside]

/-- A pending name does not hide the function, not even one that is spelt alike. -/
theorem insert (ho : Owns b t name f) (hw : t.WellFormed) (y : String) :
    Owns b (t.insert y t.depth).2 name f := by
  have hsym : ∀ h ∈ t.byName.get name, (t.insert y t.depth).2.symbol h = t.symbol h :=
    fun h hm => hw.symbol_insert_of_mem hm
  refine ⟨?_, ho.new, ?_⟩
  · have hold : (t.byName.get name).reverse.find?
        (fun h => ((t.insert y t.depth).2.symbol h).kind? = some .func) = some f := by
      rw [← ho.found]
      unfold lookupKind? findLast?
      refine List.find?_congr fun h hm => ?_
      simp only [hsym h (List.mem_reverse.mp hm)]
    unfold lookupKind? findLast?
    rw [get_byName_insert]
    by_cases hy : name = y
    · subst hy
      rw [if_pos rfl, List.reverse_append, List.reverse_singleton, List.singleton_append,
        List.find?_cons_of_neg, hold]
      rw [WellFormed.symbol_insert_self]
      exact Bool.false_ne_true
    · rw [if_neg hy, hold]
  · rw [hsym f ho.listed, ho.outside, insert_depth]

/-- A procedure whose scope has just been entered. -/
theorem enter (hn : b.symbols.size ≤ t.symbols.size) (name : String) :
    Owns b (t.withFunction name).enter name t.symbols.size where
  found := by
    have hget : (t.withFunction name).enter.byName.get name =
        t.byName.get name ++ [t.symbols.size] := by
      show (t.insert name t.depth).2.byName.get name = _
      rw [get_byName_insert, if_pos rfl]
    unfold lookupKind? findLast?
    rw [hget, List.reverse_append, List.reverse_singleton, List.singleton_append,
      List.find?_cons_of_pos]
    show decide (((t.withFunction name).symbol t.symbols.size).kind? = some .func) = true
    rw [symbol_withFunction_self]
    rfl
  new := hn
  outside := by
    show ((t.withFunction name).symbol t.symbols.size).depth = t.depth + 1 - 1
    rw [symbol_withFunction_self]
    show t.depth = _
    omega

end Owns

end SymbolTable

end ProcLang
