import ProcLang.Proofs.Table

/-!
# The table as a plain list of declarations

A table of declarations answers as a plain list does to which declarations are appended, and from
which those of a depth are dropped. Names may be declared again at one depth, and a depth may be
deleted while deeper ones are there.

The invariant (`SymbolTable.Lists`) is that the handles of a name are those of its declarations in
the list. One operation keeps it (`TableOperation.lists`), so the table and the list agree after any
sequence of operations (`table_refines_list`).
-/

namespace ProcLang

/-! ## The number of values in an index -/

namespace Index

variable {α β : Type} [DecidableEq α]

theorem WellFormed.get_eq_of_mem {m : Index α β} (h : m.WellFormed) {key : α} {values : List β}
    (hm : (key, values) ∈ m.pairs) : m.get key = values := by
  obtain ⟨pairs⟩ := m
  have hnodup : (pairs.map Prod.fst).Nodup := h.nodup
  simp only [get] at *
  clear h
  induction pairs with
  | nil => exact absurd hm List.not_mem_nil
  | cons p rest ih =>
    rw [List.map_cons, List.nodup_cons] at hnodup
    rcases List.mem_cons.mp hm with rfl | hm
    · simp
    · have hne : (key == p.1) = false := by
        simpa using fun heq : key = p.1 => hnodup.1 (heq ▸ List.mem_map_of_mem hm)
      rw [List.lookup_cons, hne]
      exact ih hm hnodup.2

theorem WellFormed.foldl_length {m : Index α β} (h : m.WellFormed) :
    m.pairs.foldl (fun n p => n + p.2.length) 0 =
      (m.keys.map fun key => (m.get key).length).sum := by
  rw [← List.foldl_map (f := fun p : α × List β => p.2.length) (g := fun n k => n + k),
    ← List.sum_eq_foldl, keys, List.map_map]
  refine congrArg List.sum (List.map_congr_left fun p hp => ?_)
  rw [Function.comp_apply, h.get_eq_of_mem hp]

end Index

/-! ## Plain lists -/

/-- A declaration: a symbol with the handle that stands for it. -/
structure Declaration where
  handle : Handle
  symbol : Symbol
  deriving DecidableEq, Repr

/-- The declaration with other attributes, if the handle is that of its symbol. -/
def Declaration.setAttributes (h : Handle) (attributes : Attributes) (x : Declaration) :
    Declaration :=
  if x.handle = h then { x with symbol := { x.symbol with attributes := attributes } } else x

section SetAttributes

variable (h : Handle) (attributes : Attributes) (x : Declaration)

@[simp] theorem Declaration.handle_setAttributes :
    (x.setAttributes h attributes).handle = x.handle := by
  unfold setAttributes
  split <;> rfl

@[simp] theorem Declaration.name_setAttributes :
    (x.setAttributes h attributes).symbol.name = x.symbol.name := by
  unfold setAttributes
  split <;> rfl

@[simp] theorem Declaration.depth_setAttributes :
    (x.setAttributes h attributes).symbol.depth = x.symbol.depth := by
  unfold setAttributes
  split <;> rfl

end SetAttributes

/-- Declarations in the order of their making, with the number of symbols that were ever made. -/
structure DeclarationList where
  made : Nat
  declarations : List Declaration
  deriving DecidableEq, Repr

namespace DeclarationList

/-- A list without declarations. -/
def empty : DeclarationList := ⟨0, []⟩

/-- Appends a declaration of the name at the depth. -/
def insert (l : DeclarationList) (name : String) (depth : Int) : DeclarationList :=
  ⟨l.made + 1, l.declarations ++ [⟨l.made, ⟨name, depth, .unset⟩⟩]⟩

/-- Drops the declarations at the depth. -/
def deleteDepth (l : DeclarationList) (depth : Int) : DeclarationList :=
  { l with declarations := l.declarations.filter fun x => x.symbol.depth ≠ depth }

/-- Gives the symbol behind the handle other attributes. -/
def setAttributes (l : DeclarationList) (h : Handle) (attributes : Attributes) : DeclarationList :=
  { l with declarations := l.declarations.map (Declaration.setAttributes h attributes) }

/-- The last declaration whose symbol passes the test. -/
def last? (l : DeclarationList) (test : Symbol → Bool) : Option Handle :=
  (l.declarations.filter fun x => test x.symbol).getLast?.map Declaration.handle

end DeclarationList

/-! ## Operations -/

/-- What can be done to a table from outside: a name is declared, a depth is deleted, or a symbol is
given attributes. -/
inductive TableOperation where
  | insert (name : String) (depth : Int)
  | deleteDepth (depth : Int)
  | setAttributes (h : Handle) (attributes : Attributes)
  deriving DecidableEq, Repr

namespace TableOperation

/-- The table after the operation. -/
def onTable : TableOperation → SymbolTable → SymbolTable
  | insert name depth, t => (t.insert name depth).2
  | deleteDepth depth, t => t.deleteDepth depth
  | setAttributes h attributes, t => t.set h { t.symbol h with attributes := attributes }

/-- The plain list after the operation. -/
def onList : TableOperation → DeclarationList → DeclarationList
  | insert name depth, l => l.insert name depth
  | deleteDepth depth, l => l.deleteDepth depth
  | setAttributes h attributes, l => l.setAttributes h attributes

/-- The empty table after the operations, the first one first. -/
def tableAfter (ops : List TableOperation) : SymbolTable :=
  ops.foldl (fun t op => op.onTable t) .empty

/-- The empty list after the operations, the first one first. -/
def listAfter (ops : List TableOperation) : DeclarationList :=
  ops.foldl (fun l op => op.onList l) .empty

end TableOperation

namespace SymbolTable

variable {t : SymbolTable} {l : DeclarationList}

/-- The table has the declarations of the list: under each name their handles, in their order. -/
structure Lists (t : SymbolTable) (l : DeclarationList) : Prop where
  wellFormed : t.WellFormed
  made : t.symbols.size = l.made
  symbol_eq : ∀ x ∈ l.declarations, t.symbol x.handle = x.symbol
  get_byName : ∀ y, t.byName.get y =
    (l.declarations.filter fun x => x.symbol.name = y).map Declaration.handle

namespace Lists

theorem empty : Lists .empty .empty :=
  ⟨.empty, rfl, fun _ h => absurd h List.not_mem_nil, fun _ => rfl⟩

/-- The declarations of a name are listed under it. -/
theorem mem_get (h : t.Lists l) {x : Declaration} (hx : x ∈ l.declarations) :
    x.handle ∈ t.byName.get x.symbol.name := by
  rw [h.get_byName]
  exact List.mem_map_of_mem (List.mem_filter.mpr ⟨hx, by simp⟩)

theorem insert (h : t.Lists l) (name : String) (depth : Int) :
    Lists (t.insert name depth).2 (l.insert name depth) where
  wellFormed := h.wellFormed.insert name depth
  made := by rw [size_insert, h.made]; rfl
  symbol_eq := fun x hx => by
    rcases List.mem_append.mp hx with hx | hx
    · rw [h.wellFormed.symbol_insert_of_mem (h.mem_get hx)]
      exact h.symbol_eq x hx
    · cases List.mem_singleton.mp hx
      rw [← h.made]
      exact WellFormed.symbol_insert_self t name depth
  get_byName := fun y => by
    rw [get_byName_insert, DeclarationList.insert, List.filter_append, List.map_append,
      ← h.get_byName, ← h.made]
    by_cases hy : y = name
    · subst hy
      simp
    · simp [hy, Ne.symm hy]

theorem deleteDepth (h : t.Lists l) (depth : Int) :
    Lists (t.deleteDepth depth) (l.deleteDepth depth) where
  wellFormed := h.wellFormed.deleteDepth depth
  made := (size_deleteDepth t depth).trans h.made
  symbol_eq := fun x hx => by
    rw [symbol_deleteDepth]
    exact h.symbol_eq x (List.mem_of_mem_filter hx)
  get_byName := fun y => by
    rw [h.wellFormed.get_byName_deleteDepth, h.get_byName, List.filter_map,
      DeclarationList.deleteDepth, List.filter_filter, List.filter_filter]
    refine congrArg (List.map _) (List.filter_congr fun x hx => ?_)
    rw [Function.comp_apply, h.symbol_eq x hx, Bool.and_comm]

theorem setAttributes (h : t.Lists l) (k : Handle) (attributes : Attributes) :
    Lists (t.set k { t.symbol k with attributes := attributes }) (l.setAttributes k attributes)
    where
  wellFormed := h.wellFormed.set rfl rfl
  made := (size_set ..).trans h.made
  symbol_eq := fun x hx => by
    obtain ⟨x, hx', rfl⟩ := List.mem_map.mp hx
    have hlt := h.wellFormed.handle_lt (h.mem_get hx')
    have hsymbol := h.symbol_eq x hx'
    rw [symbol_set, Declaration.setAttributes]
    by_cases hk : x.handle = k
    · subst hk
      simp [hlt, hsymbol]
    · simp [hk, hsymbol]
  get_byName := fun y => by
    rw [set_byName, h.get_byName, DeclarationList.setAttributes, List.filter_map, List.map_map]
    simp only [Function.comp_def, Declaration.name_setAttributes, Declaration.handle_setAttributes]

/-! ## Answers -/

variable (h : t.Lists l)
include h

/-- A search under a name finds the last declaration of the name that passes the test. -/
theorem findLast?_eq (y : String) (test : Symbol → Bool) :
    t.findLast? y test = l.last? fun s => s.name = y ∧ test s := by
  unfold findLast? DeclarationList.last?
  rw [← List.head?_filter, h.get_byName, ← List.map_reverse, ← List.filter_reverse,
    List.filter_map, List.head?_map, List.filter_filter, List.filter_reverse, List.head?_reverse]
  refine congrArg (fun xs => (List.getLast? xs).map Declaration.handle)
    (List.filter_congr fun x hx => ?_)
  rw [Function.comp_apply, h.symbol_eq x hx, Bool.and_comm]
  simp

theorem contains_iff (y : String) :
    t.contains y ↔ ∃ x ∈ l.declarations, x.symbol.name = y := by
  unfold contains
  rw [h.get_byName]
  simp

theorem mem_namesAt_iff (y : String) (d : Int) :
    y ∈ t.namesAt.get d ↔ ∃ x ∈ l.declarations, x.symbol.name = y ∧ x.symbol.depth = d := by
  rw [h.wellFormed.filed, h.get_byName]
  constructor
  · rintro ⟨k, hk, hd⟩
    obtain ⟨x, hx, rfl⟩ := List.mem_map.mp hk
    obtain ⟨hx, hy⟩ := List.mem_filter.mp hx
    exact ⟨x, hx, of_decide_eq_true hy, h.symbol_eq x hx ▸ hd⟩
  · rintro ⟨x, hx, hy, hd⟩
    refine ⟨x.handle, List.mem_map_of_mem (List.mem_filter.mpr ⟨hx, by simpa using hy⟩), ?_⟩
    rw [h.symbol_eq x hx, hd]

/-- Each declaration is counted under its name. -/
theorem size_eq : t.size = l.declarations.length := by
  let names := l.declarations.map fun x => x.symbol.name
  have hcount : ∀ y, (t.byName.get y).length = names.count y := fun y => by
    rw [h.get_byName, List.length_map, List.count, List.countP_map, List.countP_eq_length_filter]
    rfl
  have hkeys : t.byName.keys.Perm names.dedup := by
    refine (List.perm_ext_iff_of_nodup h.wellFormed.byName.nodup names.nodup_dedup).mpr fun y => ?_
    rw [h.wellFormed.byName.mem_keys_iff, List.mem_dedup, ← List.count_pos_iff, ← hcount,
      List.length_pos_iff]
  calc t.size = (t.byName.keys.map fun y => (t.byName.get y).length).sum :=
        h.wellFormed.byName.foldl_length
    _ = (t.byName.keys.map fun y => names.count y).sum := by simp only [hcount]
    _ = (names.dedup.map fun y => names.count y).sum := (hkeys.map _).sum_eq
    _ = names.length := List.sum_map_count_dedup_eq_length names
    _ = l.declarations.length := List.length_map _

end Lists

end SymbolTable

/-! ## All sequences of operations -/

open SymbolTable (Lists)

theorem TableOperation.lists {t : SymbolTable} {l : DeclarationList} (op : TableOperation)
    (h : t.Lists l) : Lists (op.onTable t) (op.onList l) := by
  cases op with
  | insert name depth => exact h.insert name depth
  | deleteDepth depth => exact h.deleteDepth depth
  | setAttributes k attributes => exact h.setAttributes k attributes

open TableOperation (tableAfter listAfter)

/-- By induction on the operations, the last one first. -/
theorem lists_tableAfter (ops : List TableOperation) : Lists (tableAfter ops) (listAfter ops) := by
  induction ops using List.reverseRecOn with
  | nil => exact .empty
  | append_singleton ops op ih =>
    rw [tableAfter, listAfter, List.foldl_concat, List.foldl_concat]
    exact op.lists ih

/-- After any operations, a name leads to its last declaration in the plain list, to the last one of
a kind, and to the last one at a depth. Exactly the names of the list are contained, as many
declarations as the list has are counted, and a name is filed at a depth exactly if the list has a
declaration of it there. No name is kept without declarations. -/
theorem table_refines_list (ops : List TableOperation) :
    (∀ y, (tableAfter ops).lookup? y = (listAfter ops).last? fun s => s.name = y) ∧
      (∀ y kind, (tableAfter ops).lookupKind? y kind =
        (listAfter ops).last? fun s => s.name = y ∧ s.kind? = some kind) ∧
      (∀ y d, (tableAfter ops).lookupAt? y d =
        (listAfter ops).last? fun s => s.name = y ∧ s.depth = d) ∧
      (∀ x ∈ (listAfter ops).declarations, (tableAfter ops).symbol x.handle = x.symbol) ∧
      (∀ y, (tableAfter ops).contains y ↔
        ∃ x ∈ (listAfter ops).declarations, x.symbol.name = y) ∧
      (tableAfter ops).size = (listAfter ops).declarations.length ∧
      (∀ y d, y ∈ (tableAfter ops).namesAt.get d ↔
        ∃ x ∈ (listAfter ops).declarations, x.symbol.name = y ∧ x.symbol.depth = d) ∧
      ∀ p ∈ (tableAfter ops).byName.pairs, p.2 ≠ [] := by
  have h := lists_tableAfter ops
  refine ⟨fun y => ?_, fun y kind => ?_, fun y d => ?_, h.symbol_eq, h.contains_iff, h.size_eq,
    h.mem_namesAt_iff, h.wellFormed.byName.nonempty⟩
  · simpa [SymbolTable.lookup?] using h.findLast?_eq y fun _ => true
  · simpa [SymbolTable.lookupKind?] using h.findLast?_eq y fun s => s.kind? = some kind
  · simpa [SymbolTable.lookupAt?] using h.findLast?_eq y fun s => s.depth = d

end ProcLang
