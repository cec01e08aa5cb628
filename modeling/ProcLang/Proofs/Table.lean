import Mathlib
import ProcLang.SymbolTable.Basic

/-!
# What the operations of a symbol table do

The two indexes of a table are kept in step: a name is filed at a depth exactly where a declaration
of it has that depth. The handles of a name are listed in the order in which they were made. This
holds of every table that the operations can produce (`SymbolTable.Reachable.wellFormed`), and it
determines what is left of a name when a depth is deleted (`get_byName_deleteDepth`).
-/

namespace ProcLang

/-! ## Indexes -/

namespace Index

variable {α β : Type} [DecidableEq α]

/-- Every key is listed once, and only with values. -/
structure WellFormed (m : Index α β) : Prop where
  nodup : m.keys.Nodup
  nonempty : ∀ p ∈ m.pairs, p.2 ≠ []

omit [DecidableEq α] in
theorem wellFormed_empty : (empty : Index α β).WellFormed :=
  ⟨List.nodup_nil, fun _ h => absurd h List.not_mem_nil⟩

theorem mem_keys_putPairs {key k : α} {values : List β} {pairs : List (α × List β)} :
    k ∈ (putPairs key values pairs).map Prod.fst ↔ k = key ∨ k ∈ pairs.map Prod.fst := by
  induction pairs with
  | nil => simp [putPairs]
  | cons p rest ih =>
    obtain ⟨head, old⟩ := p
    by_cases hk : head = key
    · simp [putPairs, hk]
    · simp only [putPairs, hk, if_false, List.map_cons, List.mem_cons, ih]
      tauto

theorem mem_putPairs {key : α} {values : List β} {pairs : List (α × List β)} {p : α × List β}
    (h : p ∈ putPairs key values pairs) : p = (key, values) ∨ p ∈ pairs := by
  induction pairs with
  | nil => simpa [putPairs] using h
  | cons q rest ih =>
    obtain ⟨head, old⟩ := q
    by_cases hk : head = key
    · simp only [putPairs, hk, if_true, List.mem_cons] at h
      exact h.imp_right (List.mem_cons_of_mem _)
    · simp only [putPairs, hk, if_false, List.mem_cons] at h
      rcases h with rfl | h
      · exact Or.inr List.mem_cons_self
      · exact (ih h).imp_right (List.mem_cons_of_mem _)

theorem nodup_keys_putPairs {key : α} {values : List β} {pairs : List (α × List β)}
    (h : (pairs.map Prod.fst).Nodup) : ((putPairs key values pairs).map Prod.fst).Nodup := by
  induction pairs with
  | nil => simp [putPairs]
  | cons q rest ih =>
    obtain ⟨head, old⟩ := q
    rw [List.map_cons, List.nodup_cons] at h
    by_cases hk : head = key
    · subst hk
      simpa [putPairs] using h
    · simp only [putPairs, hk, if_false, List.map_cons, List.nodup_cons]
      refine ⟨fun hm => ?_, ih h.2⟩
      rcases mem_keys_putPairs.mp hm with rfl | hm
      · exact hk rfl
      · exact h.1 hm

theorem WellFormed.put {m : Index α β} (h : m.WellFormed) {key : α} {values : List β}
    (hv : values ≠ []) : (m.put key values).WellFormed where
  nodup := nodup_keys_putPairs h.nodup
  nonempty := by
    intro p hp
    rcases mem_putPairs hp with rfl | hp
    · exact hv
    · exact h.nonempty p hp

theorem WellFormed.erase {m : Index α β} (h : m.WellFormed) (key : α) :
    (m.erase key).WellFormed where
  nodup := h.nodup.sublist (List.Sublist.map _ List.filter_sublist)
  nonempty := fun p hp => h.nonempty p (List.mem_of_mem_filter hp)

theorem WellFormed.push {m : Index α β} (h : m.WellFormed) (key : α) (value : β) :
    (m.push key value).WellFormed :=
  h.put (by simp)

theorem WellFormed.filterAt {m : Index α β} (h : m.WellFormed) (key : α) (keep : β → Bool) :
    (m.filterAt key keep).WellFormed := by
  unfold Index.filterAt
  by_cases he : ((m.get key).filter keep).isEmpty
  · simp only [he, if_true]
    exact h.erase key
  · simp only [he, Bool.false_eq_true, if_false]
    exact h.put fun hn => he (by simp [hn])

theorem WellFormed.mem_keys_iff {m : Index α β} (h : m.WellFormed) {key : α} :
    key ∈ m.keys ↔ m.get key ≠ [] := by
  obtain ⟨pairs⟩ := m
  have hne := h.nonempty
  simp only [keys, get] at *
  clear h
  induction pairs with
  | nil => simp
  | cons p rest ih =>
    obtain ⟨head, values⟩ := p
    by_cases hk : key = head
    · subst hk
      simpa using hne (key, values) List.mem_cons_self
    · have hk' : (key == head) = false := by simpa using hk
      simp only [List.map_cons, List.mem_cons, hk, false_or, List.lookup_cons, hk']
      exact ih fun p hp => hne p (List.mem_cons_of_mem _ hp)

end Index

/-! ## Symbols behind handles -/

namespace SymbolTable

variable {t : SymbolTable}

theorem symbol_of_push {t' : SymbolTable} {s : Symbol} (ht : t'.symbols = t.symbols.push s)
    (h : Handle) : t'.symbol h = if h = t.symbols.size then s else t.symbol h := by
  unfold symbol
  simp only [ht, Array.getD_eq_getD_getElem?, Array.getElem?_push]
  by_cases hh : h = t.symbols.size
  · simp [hh]
  · simp [hh]

theorem symbol_create (t : SymbolTable) (name : String) (depth : Int) (h : Handle) :
    (t.create name depth).2.symbol h =
      if h = t.symbols.size then ⟨name, depth, .unset⟩ else t.symbol h :=
  symbol_of_push rfl h

theorem symbol_insert (t : SymbolTable) (name : String) (depth : Int) (h : Handle) :
    (t.insert name depth).2.symbol h =
      if h = t.symbols.size then ⟨name, depth, .unset⟩ else t.symbol h :=
  symbol_create t name depth h

theorem symbol_set (t : SymbolTable) (h : Handle) (s : Symbol) (h' : Handle) :
    (t.set h s).symbol h' = if h' = h ∧ h < t.symbols.size then s else t.symbol h' := by
  unfold set symbol
  simp only [Array.getD_eq_getD_getElem?, Array.getElem?_setIfInBounds]
  by_cases he : h = h'
  · subst he
    by_cases hs : h < t.symbols.size
    · simp [hs]
    · simp [hs]
  · simp [he, Ne.symm he]

@[simp] theorem insert_fst (t : SymbolTable) (name : String) (depth : Int) :
    (t.insert name depth).1 = t.symbols.size := rfl

@[simp] theorem insert_depth (t : SymbolTable) (name : String) (depth : Int) :
    (t.insert name depth).2.depth = t.depth := rfl

@[simp] theorem size_insert (t : SymbolTable) (name : String) (depth : Int) :
    (t.insert name depth).2.symbols.size = t.symbols.size + 1 := by
  simp [insert, create]

@[simp] theorem size_set (t : SymbolTable) (h : Handle) (s : Symbol) :
    (t.set h s).symbols.size = t.symbols.size := by
  simp [set]

@[simp] theorem set_byName (t : SymbolTable) (h : Handle) (s : Symbol) :
    (t.set h s).byName = t.byName := rfl

@[simp] theorem set_namesAt (t : SymbolTable) (h : Handle) (s : Symbol) :
    (t.set h s).namesAt = t.namesAt := rfl

@[simp] theorem set_depth (t : SymbolTable) (h : Handle) (s : Symbol) :
    (t.set h s).depth = t.depth := rfl

theorem get_byName_insert (t : SymbolTable) (name : String) (depth : Int) (y : String) :
    (t.insert name depth).2.byName.get y =
      if y = name then t.byName.get name ++ [t.symbols.size] else t.byName.get y :=
  Index.get_push ..

theorem get_namesAt_insert (t : SymbolTable) (name : String) (depth d : Int) :
    (t.insert name depth).2.namesAt.get d =
      if d = depth then t.namesAt.get depth ++ [name] else t.namesAt.get d :=
  Index.get_push ..

/-! ## Looking names up -/

theorem mem_of_findLast? {y : String} {test : Symbol → Bool} {h : Handle}
    (hf : t.findLast? y test = some h) : h ∈ t.byName.get y :=
  List.mem_reverse.mp (List.mem_of_find?_eq_some hf)

theorem isSome_lookup? (t : SymbolTable) (y : String) :
    (t.lookup? y).isSome ↔ t.byName.get y ≠ [] := by
  unfold lookup? findLast?
  rw [List.find?_isSome]
  constructor
  · rintro ⟨h, hm, -⟩
    exact List.ne_nil_of_mem (List.mem_reverse.mp hm)
  · intro hne
    obtain ⟨h, hm⟩ := List.exists_mem_of_ne_nil _ hne
    exact ⟨h, List.mem_reverse.mpr hm, rfl⟩

theorem isSome_lookupAt? (t : SymbolTable) (y : String) (d : Int) :
    (t.lookupAt? y d).isSome ↔ ∃ h ∈ t.byName.get y, (t.symbol h).depth = d := by
  unfold lookupAt? findLast?
  rw [List.find?_isSome]
  simp

/-! ## Deleting a depth -/

section Delete

variable (d : Int) (names : List String)

theorem symbols_foldl_removeName (t : SymbolTable) :
    (names.foldl (removeName d) t).symbols = t.symbols := by
  induction names generalizing t with
  | nil => rfl
  | cons y rest ih => exact ih (t.removeName d y)

theorem depth_foldl_removeName (t : SymbolTable) :
    (names.foldl (removeName d) t).depth = t.depth := by
  induction names generalizing t with
  | nil => rfl
  | cons y rest ih => exact ih (t.removeName d y)

theorem namesAt_foldl_removeName (t : SymbolTable) :
    (names.foldl (removeName d) t).namesAt = t.namesAt := by
  induction names generalizing t with
  | nil => rfl
  | cons y rest ih => exact ih (t.removeName d y)

theorem get_byName_foldl_removeName (t : SymbolTable) (y : String) :
    (names.foldl (removeName d) t).byName.get y =
      if y ∈ names then (t.byName.get y).filter fun h => (t.symbol h).depth ≠ d
      else t.byName.get y := by
  induction names generalizing t with
  | nil => rfl
  | cons z rest ih =>
    rw [List.foldl_cons, ih (t.removeName d z)]
    have hget : (t.removeName d z).byName.get y = if y = z then
        (t.byName.get z).filter fun h => (t.symbol h).depth ≠ d else t.byName.get y :=
      Index.get_filterAt ..
    have hsym : ∀ h, (t.removeName d z).symbol h = t.symbol h := fun _ => rfl
    simp only [hget, hsym, List.mem_cons]
    by_cases hz : y = z
    · subst hz
      by_cases hm : y ∈ rest
      · simp [hm, List.filter_filter]
      · simp [hm]
    · simp [hz]

end Delete

@[simp] theorem symbol_deleteDepth (t : SymbolTable) (d : Int) (h : Handle) :
    (t.deleteDepth d).symbol h = t.symbol h := by
  unfold deleteDepth symbol
  rw [symbols_foldl_removeName]

@[simp] theorem size_deleteDepth (t : SymbolTable) (d : Int) :
    (t.deleteDepth d).symbols.size = t.symbols.size := by
  unfold deleteDepth
  rw [symbols_foldl_removeName]

@[simp] theorem depth_deleteDepth (t : SymbolTable) (d : Int) : (t.deleteDepth d).depth = t.depth := by
  unfold deleteDepth
  rw [depth_foldl_removeName]

theorem get_namesAt_deleteDepth (t : SymbolTable) (d d' : Int) :
    (t.deleteDepth d).namesAt.get d' = if d' = d then [] else t.namesAt.get d' := by
  unfold deleteDepth
  rw [namesAt_foldl_removeName]
  exact Index.get_erase ..

/-! ## Well-formed tables -/

/-- The two indexes are in step, and the handles of a name are in the order of their making. -/
structure WellFormed (t : SymbolTable) : Prop where
  byName : t.byName.WellFormed
  namesAt : t.namesAt.WellFormed
  handle_lt : ∀ {y h}, h ∈ t.byName.get y → h < t.symbols.size
  name_eq : ∀ {y h}, h ∈ t.byName.get y → (t.symbol h).name = y
  sorted : ∀ y, (t.byName.get y).Pairwise (· < ·)
  filed : ∀ {y d}, y ∈ t.namesAt.get d ↔ ∃ h ∈ t.byName.get y, (t.symbol h).depth = d

namespace WellFormed

theorem ne_size (ht : t.WellFormed) {y : String} {h : Handle} (hm : h ∈ t.byName.get y) :
    h ≠ t.symbols.size :=
  Nat.ne_of_lt (ht.handle_lt hm)

/-- What is left of a name when a depth is deleted. -/
theorem get_byName_deleteDepth (ht : t.WellFormed) (d : Int) (y : String) :
    (t.deleteDepth d).byName.get y =
      (t.byName.get y).filter fun h => (t.symbol h).depth ≠ d := by
  unfold deleteDepth
  rw [get_byName_foldl_removeName]
  by_cases hy : y ∈ t.namesAt.get d
  · rw [if_pos hy]
    rfl
  · rw [if_neg hy]
    refine (List.filter_eq_self.mpr fun h hm => ?_).symm
    simpa using fun hd => hy (ht.filed.mpr ⟨h, hm, hd⟩)

theorem empty : SymbolTable.empty.WellFormed where
  byName := Index.wellFormed_empty
  namesAt := Index.wellFormed_empty
  handle_lt := fun h => absurd h List.not_mem_nil
  name_eq := fun h => absurd h List.not_mem_nil
  sorted := fun _ => List.Pairwise.nil
  filed := by simp [SymbolTable.empty]

theorem create (ht : t.WellFormed) (name : String) (depth : Int) :
    (t.create name depth).2.WellFormed where
  byName := ht.byName
  namesAt := ht.namesAt
  handle_lt := by
    intro y h hm
    simp only [SymbolTable.create, Array.size_push]
    exact Nat.lt_succ_of_lt (ht.handle_lt hm)
  name_eq := by
    intro y h hm
    rw [symbol_create, if_neg (ht.ne_size hm)]
    exact ht.name_eq hm
  sorted := ht.sorted
  filed := by
    intro y d
    refine ht.filed.trans (exists_congr fun h => and_congr_right fun hm => ?_)
    rw [symbol_create, if_neg (ht.ne_size hm)]

theorem mem_insert {name : String} {depth : Int} {y : String} {h : Handle}
    (hm : h ∈ (t.insert name depth).2.byName.get y) :
    h ∈ t.byName.get y ∨ y = name ∧ h = t.symbols.size := by
  rw [get_byName_insert] at hm
  by_cases hy : y = name
  · subst hy
    simpa using hm
  · rw [if_neg hy] at hm
    exact Or.inl hm

theorem mem_insert_of_mem {name : String} {depth : Int} {y : String} {h : Handle}
    (hm : h ∈ t.byName.get y) : h ∈ (t.insert name depth).2.byName.get y := by
  rw [get_byName_insert]
  by_cases hy : y = name
  · subst hy
    simp [hm]
  · rwa [if_neg hy]

theorem mem_insert_self (t : SymbolTable) (name : String) (depth : Int) :
    t.symbols.size ∈ (t.insert name depth).2.byName.get name := by
  simp [get_byName_insert]

theorem symbol_insert_of_mem (ht : t.WellFormed) {name : String} {depth : Int} {y : String}
    {h : Handle} (hm : h ∈ t.byName.get y) : (t.insert name depth).2.symbol h = t.symbol h := by
  rw [symbol_insert, if_neg (ht.ne_size hm)]

theorem symbol_insert_self (t : SymbolTable) (name : String) (depth : Int) :
    (t.insert name depth).2.symbol t.symbols.size = ⟨name, depth, .unset⟩ := by
  rw [symbol_insert, if_pos rfl]

theorem insert (ht : t.WellFormed) (name : String) (depth : Int) :
    (t.insert name depth).2.WellFormed where
  byName := ht.byName.push ..
  namesAt := ht.namesAt.push ..
  handle_lt := by
    intro y h hm
    rw [size_insert]
    rcases mem_insert hm with hm | ⟨-, rfl⟩
    · exact Nat.lt_succ_of_lt (ht.handle_lt hm)
    · exact Nat.lt_succ_self _
  name_eq := by
    intro y h hm
    rcases mem_insert hm with hm | ⟨rfl, rfl⟩
    · rw [ht.symbol_insert_of_mem hm]
      exact ht.name_eq hm
    · rw [symbol_insert_self]
  sorted := by
    intro y
    rw [get_byName_insert]
    by_cases hy : y = name
    · subst hy
      rw [if_pos rfl, List.pairwise_append]
      refine ⟨ht.sorted y, List.pairwise_singleton _ _, fun h hm h' hm' => ?_⟩
      rw [List.mem_singleton.mp hm']
      exact ht.handle_lt hm
    · rw [if_neg hy]
      exact ht.sorted y
  filed := by
    intro y d
    rw [get_namesAt_insert]
    constructor
    · intro hy
      by_cases hd : d = depth
      · subst hd
        rw [if_pos rfl, List.mem_append, List.mem_singleton] at hy
        rcases hy with hy | rfl
        · obtain ⟨h, hm, hd⟩ := ht.filed.mp hy
          exact ⟨h, mem_insert_of_mem hm, by rw [ht.symbol_insert_of_mem hm, hd]⟩
        · exact ⟨_, mem_insert_self .., by rw [symbol_insert_self]⟩
      · rw [if_neg hd] at hy
        obtain ⟨h, hm, hd⟩ := ht.filed.mp hy
        exact ⟨h, mem_insert_of_mem hm, by rw [ht.symbol_insert_of_mem hm, hd]⟩
    · rintro ⟨h, hm, hd⟩
      rcases mem_insert hm with hm | ⟨rfl, rfl⟩
      · rw [ht.symbol_insert_of_mem hm] at hd
        have hy := ht.filed.mpr ⟨h, hm, hd⟩
        by_cases he : d = depth
        · subst he
          simp [hy]
        · rwa [if_neg he]
      · rw [symbol_insert_self] at hd
        simp [← hd]

theorem mem_deleteDepth_iff (ht : t.WellFormed) {d : Int} {y : String} {h : Handle} :
    h ∈ (t.deleteDepth d).byName.get y ↔ h ∈ t.byName.get y ∧ (t.symbol h).depth ≠ d := by
  rw [ht.get_byName_deleteDepth, List.mem_filter, decide_eq_true_eq]

theorem wellFormed_byName_foldl {d : Int} {names : List String} (ht : t.byName.WellFormed) :
    (names.foldl (removeName d) t).byName.WellFormed := by
  induction names generalizing t with
  | nil => exact ht
  | cons y rest ih => exact ih (ht.filterAt ..)

theorem deleteDepth (ht : t.WellFormed) (d : Int) : (t.deleteDepth d).WellFormed where
  byName := by
    unfold SymbolTable.deleteDepth
    exact wellFormed_byName_foldl ht.byName
  namesAt := by
    unfold SymbolTable.deleteDepth
    rw [namesAt_foldl_removeName]
    exact ht.namesAt.erase d
  handle_lt := by
    intro y h hm
    rw [size_deleteDepth]
    exact ht.handle_lt (ht.mem_deleteDepth_iff.mp hm).1
  name_eq := by
    intro y h hm
    rw [symbol_deleteDepth]
    exact ht.name_eq (ht.mem_deleteDepth_iff.mp hm).1
  sorted := by
    intro y
    rw [ht.get_byName_deleteDepth]
    exact (ht.sorted y).filter _
  filed := by
    intro y d'
    rw [get_namesAt_deleteDepth]
    by_cases hd : d' = d
    · subst hd
      simp only [if_true, List.not_mem_nil, false_iff]
      rintro ⟨h, hm, hd⟩
      rw [symbol_deleteDepth] at hd
      exact (ht.mem_deleteDepth_iff.mp hm).2 hd
    · rw [if_neg hd]
      refine ht.filed.trans (exists_congr fun h => ?_)
      rw [ht.mem_deleteDepth_iff, symbol_deleteDepth]
      constructor
      · rintro ⟨hm, rfl⟩
        exact ⟨⟨hm, hd⟩, rfl⟩
      · rintro ⟨⟨hm, -⟩, rfl⟩
        exact ⟨hm, rfl⟩

/-- The depth of the present scope is no part of the indexes. -/
theorem setDepth (ht : t.WellFormed) (d : Int) : ({ t with depth := d } : SymbolTable).WellFormed :=
  ⟨ht.byName, ht.namesAt, ht.handle_lt, ht.name_eq, ht.sorted, ht.filed⟩

/-- A symbol may be replaced by one of the same name and depth. -/
theorem set (ht : t.WellFormed) {h : Handle} {s : Symbol} (hn : s.name = (t.symbol h).name)
    (hd : s.depth = (t.symbol h).depth) : (t.set h s).WellFormed := by
  have hname : ∀ h', ((t.set h s).symbol h').name = (t.symbol h').name := by
    intro h'
    rw [symbol_set]
    split
    · next heq => rw [heq.1, hn]
    · rfl
  have hdepth : ∀ h', ((t.set h s).symbol h').depth = (t.symbol h').depth := by
    intro h'
    rw [symbol_set]
    split
    · next heq => rw [heq.1, hd]
    · rfl
  refine ⟨ht.byName, ht.namesAt, ?_, ?_, ht.sorted, ?_⟩
  · intro y h' hm
    rw [size_set]
    exact ht.handle_lt hm
  · intro y h' hm
    rw [hname]
    exact ht.name_eq hm
  · intro y d
    simp only [set_namesAt, set_byName, hdepth]
    exact ht.filed

end WellFormed

theorem WellFormed.mem_entriesAt_iff (ht : t.WellFormed) {d : Int} {h : Handle} :
    h ∈ t.entriesAt d ↔ ∃ y, h ∈ t.byName.get y ∧ (t.symbol h).depth = d := by
  unfold entriesAt
  simp only [List.mem_flatMap, List.mem_eraseDups, List.mem_filter, decide_eq_true_eq]
  constructor
  · rintro ⟨y, -, hm, hd⟩
    exact ⟨y, hm, hd⟩
  · rintro ⟨y, hm, hd⟩
    exact ⟨y, ht.filed.mpr ⟨h, hm, hd⟩, hm, hd⟩

theorem WellFormed.mem_entries_iff (ht : t.WellFormed) {h : Handle} :
    h ∈ t.entries ↔ ∃ y, h ∈ t.byName.get y := by
  unfold entries
  simp only [List.mem_flatMap, List.mem_mergeSort, ht.mem_entriesAt_iff]
  constructor
  · rintro ⟨d, -, y, hm, -⟩
    exact ⟨y, hm⟩
  · rintro ⟨y, hm⟩
    have hd : y ∈ t.namesAt.get (t.symbol h).depth := ht.filed.mpr ⟨h, hm, rfl⟩
    exact ⟨_, ht.namesAt.mem_keys_iff.mpr (List.ne_nil_of_mem hd), y, hm, rfl⟩

/-- The tables that the operations produce from the empty one, with any names and depths in any
order. -/
inductive Reachable : SymbolTable → Prop
  | empty : Reachable .empty
  | create {t : SymbolTable} (name : String) (depth : Int) :
    Reachable t → Reachable (t.create name depth).2
  | insert {t : SymbolTable} (name : String) (depth : Int) :
    Reachable t → Reachable (t.insert name depth).2
  | deleteDepth {t : SymbolTable} (depth : Int) : Reachable t → Reachable (t.deleteDepth depth)
  | setDepth {t : SymbolTable} (depth : Int) : Reachable t → Reachable { t with depth := depth }
  | setAttributes {t : SymbolTable} (h : Handle) (attributes : Attributes) :
    Reachable t → Reachable (t.set h { t.symbol h with attributes := attributes })

theorem Reachable.wellFormed (h : t.Reachable) : t.WellFormed := by
  induction h with
  | empty => exact WellFormed.empty
  | create name depth _ ih => exact ih.create name depth
  | insert name depth _ ih => exact ih.insert name depth
  | deleteDepth depth _ ih => exact ih.deleteDepth depth
  | setDepth depth _ ih => exact ih.setDepth depth
  | setAttributes h attributes _ ih => exact ih.set rfl rfl

end SymbolTable

end ProcLang
