import Mathlib
import ProcLang.Analysis.Listing
import ProcLang.SymbolTable.Basic

/-!
# Tables with other names

A map of names carries over to symbols and tables. If no two names are mapped to one, the operations
of a table do not see the difference: they give the same handles and the table with the other names.
Nothing but the name of a symbol is changed.
-/

namespace ProcLang

theorem eraseDups_map {α β : Type} [DecidableEq α] [DecidableEq β] {f : α → β}
    (hf : Function.Injective f) (xs : List α) : (xs.map f).eraseDups = xs.eraseDups.map f := by
  induction hn : xs.length using Nat.strong_induction_on generalizing xs with
  | _ n ih =>
    cases xs with
    | nil => rfl
    | cons x xs =>
      have hlt : (xs.filter fun y => !y == x).length < n :=
        hn ▸ Nat.lt_succ_of_le (List.length_filter_le _ _)
      have hx : (fun y => !y == f x) ∘ f = fun y => !y == x := by
        funext y
        simp [beq_eq_decide, hf.eq_iff]
      rw [List.map_cons, List.eraseDups_cons, List.eraseDups_cons, List.filter_map, hx,
        ih _ hlt _ rfl, List.map_cons]

/-! ## Indexes -/

namespace Index

variable {α β γ : Type}

/-- The index with other keys. -/
def mapKeys (f : α → γ) (m : Index α β) : Index γ β := ⟨m.pairs.map fun p => (f p.1, p.2)⟩

/-- The index with other values. -/
def mapValues (f : β → γ) (m : Index α β) : Index α γ := ⟨m.pairs.map fun p => (p.1, p.2.map f)⟩

variable [DecidableEq α]

section Keys

variable [DecidableEq γ] {f : α → γ} (hf : Function.Injective f) (m : Index α β)

include hf

theorem get_mapKeys (key : α) : (m.mapKeys f).get (f key) = m.get key := by
  obtain ⟨pairs⟩ := m
  simp only [get, mapKeys]
  congr 1
  induction pairs with
  | nil => rfl
  | cons p rest ih =>
    have hkey : (f key == f p.1) = (key == p.1) := by simp [beq_eq_decide, hf.eq_iff]
    rw [List.map_cons, List.lookup_cons, List.lookup_cons, hkey, ih]

theorem put_mapKeys (key : α) (values : List β) :
    (m.mapKeys f).put (f key) values = (m.put key values).mapKeys f := by
  obtain ⟨pairs⟩ := m
  simp only [put, mapKeys, mk.injEq]
  induction pairs with
  | nil => rfl
  | cons p rest ih =>
    simp only [List.map_cons, putPairs, hf.eq_iff, ih]
    split <;> rfl

theorem erase_mapKeys (key : α) : (m.mapKeys f).erase (f key) = (m.erase key).mapKeys f := by
  simp only [erase, mapKeys, List.filter_map, Function.comp_def, ne_eq, hf.eq_iff]

theorem push_mapKeys (key : α) (value : β) :
    (m.mapKeys f).push (f key) value = (m.push key value).mapKeys f := by
  rw [push, push, get_mapKeys hf, put_mapKeys hf]

theorem filterAt_mapKeys (key : α) (keep : β → Bool) :
    (m.mapKeys f).filterAt (f key) keep = (m.filterAt key keep).mapKeys f := by
  simp only [filterAt, get_mapKeys hf, put_mapKeys hf, erase_mapKeys hf]
  split <;> rfl

end Keys

section Values

variable (f : β → γ) (m : Index α β)

theorem get_mapValues (key : α) : (m.mapValues f).get key = (m.get key).map f := by
  obtain ⟨pairs⟩ := m
  simp only [get, mapValues]
  induction pairs with
  | nil => rfl
  | cons p rest ih =>
    rw [List.map_cons, List.lookup_cons, List.lookup_cons]
    cases key == p.1 with
    | true => rfl
    | false => exact ih

theorem put_mapValues (key : α) (values : List β) :
    (m.mapValues f).put key (values.map f) = (m.put key values).mapValues f := by
  obtain ⟨pairs⟩ := m
  simp only [put, mapValues, mk.injEq]
  induction pairs with
  | nil => rfl
  | cons p rest ih =>
    simp only [List.map_cons, putPairs, ih]
    split <;> rfl

theorem erase_mapValues (key : α) : (m.mapValues f).erase key = (m.erase key).mapValues f := by
  simp only [erase, mapValues, List.filter_map, Function.comp_def]

theorem push_mapValues (key : α) (value : β) :
    (m.mapValues f).push key (f value) = (m.push key value).mapValues f := by
  rw [push, push, get_mapValues, ← put_mapValues, List.map_append, List.map_singleton]

end Values

end Index

/-! ## Symbols -/

/-- The error with another name. -/
def SymbolError.rename (f : String → String) : SymbolError → SymbolError
  | alreadySet name kind => .alreadySet (f name) kind
  | otherKind name found wanted => .otherKind (f name) found wanted

namespace Symbol

/-- The symbol with another name. -/
def rename (f : String → String) (s : Symbol) : Symbol := { s with name := f s.name }

/-- The result for a symbol with another name. -/
def renamed {α : Type} (f : String → String) (g : α → α) (r : Except SymbolError α) :
    Except SymbolError α :=
  (r.map g).mapError (·.rename f)

variable (f : String → String) (s : Symbol)

theorem rename_id : s.rename id = s := rfl

@[simp] theorem rename_name : (s.rename f).name = f s.name := rfl

@[simp] theorem rename_depth : (s.rename f).depth = s.depth := rfl

@[simp] theorem rename_attributes : (s.rename f).attributes = s.attributes := rfl

@[simp] theorem kind?_rename : (s.rename f).kind? = s.kind? := rfl

@[simp] theorem valueType?_rename : (s.rename f).valueType? = s.valueType? := rfl

@[simp] theorem isShowable_rename : (s.rename f).isShowable = s.isShowable := rfl

theorem setKind_rename (kind : SymbolKind) :
    (s.rename f).setKind kind = renamed f (rename f) (s.setKind kind) := by
  unfold setKind
  rw [kind?_rename]
  cases s.kind? <;> rfl

theorem modifyFunction_rename (g : Signature → Signature) :
    (s.rename f).modifyFunction g = renamed f (rename f) (s.modifyFunction g) := by
  unfold modifyFunction asFunction
  rw [rename_attributes]
  cases s.attributes <;> rfl

theorem modifyStorage_rename (g : Storage → Storage) :
    (s.rename f).modifyStorage g = renamed f (rename f) (s.modifyStorage g) := by
  unfold modifyStorage
  rw [rename_attributes]
  cases s.attributes <;> rfl

theorem storage_rename : (s.rename f).storage = renamed f id s.storage := by
  unfold storage
  rw [rename_attributes]
  cases s.attributes <;> rfl

theorem size_rename : (s.rename f).size = renamed f id s.size := by
  unfold size
  rw [storage_rename]
  cases s.storage <;> rfl

theorem isParameter_rename : (s.rename f).isParameter = renamed f id s.isParameter := by
  unfold isParameter
  rw [kind?_rename, storage_rename]
  split
  · rfl
  · cases s.storage <;> rfl

theorem giveAttributes_rename (attributes : Attributes) :
    (s.rename f).giveAttributes attributes = (s.giveAttributes attributes).rename f := by
  unfold giveAttributes
  rw [rename_attributes]
  split <;> rfl

end Symbol

/-! ## Tables -/

namespace SymbolTable

/-- The table with other names. -/
def rename (f : String → String) (t : SymbolTable) : SymbolTable where
  symbols := t.symbols.map (Symbol.rename f)
  byName := t.byName.mapKeys f
  namesAt := t.namesAt.mapValues f
  depth := t.depth

/-- The map of names is fit for tables: no two names are mapped to one, and what stands for no name
stays so. -/
structure Fits (f : String → String) : Prop where
  injective : Function.Injective f
  empty : f "" = ""

variable {f : String → String} (t : SymbolTable)

@[simp] theorem rename_empty : empty.rename f = empty := by
  simp [rename, empty, Index.mapKeys, Index.mapValues, Index.empty]

theorem rename_id : t.rename id = t := by
  have hsymbols : Symbol.rename id = id := rfl
  simp [rename, hsymbols, Index.mapKeys, Index.mapValues]

theorem set_rename (h : Handle) (s : Symbol) :
    (t.rename f).set h (s.rename f) = (t.set h s).rename f := by
  simp [set, rename, Array.map_setIfInBounds]

@[simp] theorem enter_rename : (t.rename f).enter = t.enter.rename f := rfl

variable (hf : Fits f)

include hf

theorem symbol_rename (h : Handle) : (t.rename f).symbol h = (t.symbol h).rename f := by
  simp only [symbol, rename, Array.getD_eq_getD_getElem?, Array.getElem?_map]
  cases t.symbols[h]? with
  | some s => rfl
  | none => simp [Symbol.rename, hf.empty]

theorem symbolsOf_rename (hs : List Handle) :
    (t.rename f).symbolsOf hs = (t.symbolsOf hs).map (Symbol.rename f) := by
  rw [symbolsOf, symbolsOf, List.map_map]
  exact List.map_congr_left fun h _ => symbol_rename t hf h

theorem insert_rename (name : String) (depth : Int) :
    (t.rename f).insert (f name) depth =
      ((t.insert name depth).1, (t.insert name depth).2.rename f) := by
  simp only [insert, create, rename, Index.push_mapKeys hf.injective, Index.push_mapValues,
    Array.size_map, Array.map_push]
  rfl

theorem findLast?_rename (name : String) {test : Symbol → Bool}
    (htest : ∀ s, test (s.rename f) = test s) :
    (t.rename f).findLast? (f name) test = t.findLast? name test := by
  simp only [findLast?, symbol_rename t hf, htest]
  rw [rename, Index.get_mapKeys hf.injective]

theorem lookup?_rename (name : String) : (t.rename f).lookup? (f name) = t.lookup? name :=
  findLast?_rename t hf name fun _ => rfl

theorem lookupKind?_rename (name : String) (kind : SymbolKind) :
    (t.rename f).lookupKind? (f name) kind = t.lookupKind? name kind :=
  findLast?_rename t hf name fun _ => rfl

theorem lookupAt?_rename (name : String) (depth : Int) :
    (t.rename f).lookupAt? (f name) depth = t.lookupAt? name depth :=
  findLast?_rename t hf name fun _ => rfl

theorem removeName_rename (depth : Int) (name : String) :
    removeName depth (t.rename f) (f name) = (removeName depth t name).rename f := by
  simp only [removeName, symbol_rename t hf, Symbol.rename_depth]
  simp only [rename, Index.filterAt_mapKeys hf.injective]

theorem deleteDepth_rename (depth : Int) :
    (t.rename f).deleteDepth depth = (t.deleteDepth depth).rename f := by
  have hfold : ∀ (names : List String) (t : SymbolTable),
      (names.map f).foldl (removeName depth) (t.rename f) =
        (names.foldl (removeName depth) t).rename f := by
    intro names
    induction names with
    | nil => exact fun _ => rfl
    | cons name names ih =>
      intro t
      rw [List.map_cons, List.foldl_cons, List.foldl_cons, removeName_rename t hf, ih]
  have hnames : (t.rename f).namesAt.get depth = (t.namesAt.get depth).map f :=
    Index.get_mapValues f _ depth
  rw [deleteDepth, hnames, deleteDepth, ← hfold]
  simp only [rename, Index.erase_mapValues]

theorem leave_rename : (t.rename f).leave = t.leave.rename f := by
  have hdepth : (t.rename f).depth = t.depth := rfl
  rw [leave, hdepth, deleteDepth_rename t hf]
  rfl

theorem unwindTo_rename (depth : Int) :
    (t.rename f).unwindTo depth = (t.unwindTo depth).rename f := by
  have hleave : ∀ (n : Nat) (t : SymbolTable),
      (t.rename f).leaveScopes n = (t.leaveScopes n).rename f := by
    intro n
    induction n with
    | zero => exact fun _ => rfl
    | succ n ih =>
      intro t
      rw [leaveScopes, leaveScopes, leave_rename t hf, ih]
  exact hleave _ t

theorem entriesAt_rename (depth : Int) : (t.rename f).entriesAt depth = t.entriesAt depth := by
  have hnames : (t.rename f).namesAt.get depth = (t.namesAt.get depth).map f :=
    Index.get_mapValues f _ depth
  have hhandles : ∀ name, (t.rename f).byName.get (f name) = t.byName.get name :=
    Index.get_mapKeys hf.injective _
  simp only [entriesAt, hnames, eraseDups_map hf.injective, List.flatMap_map, hhandles,
    symbol_rename t hf, Symbol.rename_depth]

end SymbolTable

end ProcLang
