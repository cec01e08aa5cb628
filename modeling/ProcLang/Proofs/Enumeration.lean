import ProcLang.Proofs.DeclarationList
import ProcLang.Proofs.Unwinding

/-!
# Enumerating a table

A table lists its declarations depth by depth, and those of a depth name by name. So each
declaration of the plain list is listed once (`SymbolTable.Lists.perm_entries`), at a depth in the
order in which the names were declared there since it was last deleted
(`SymbolTable.Lists.entriesAt_eq`, `namesAt_tableAfter`). This holds after any sequence of
operations.
-/

namespace ProcLang

/-! ## Lists in groups -/

section Groups

variable {α β : Type} [DecidableEq β]

/-- A list that is taken apart by keys, each of them once, loses nothing. -/
theorem perm_flatMap_filter {f : α → β} {keys : List β} {l : List α} (hkeys : keys.Nodup)
    (hall : ∀ a ∈ l, f a ∈ keys) : (keys.flatMap fun k => l.filter fun a => f a = k).Perm l := by
  induction keys generalizing l with
  | nil =>
    rw [List.eq_nil_iff_forall_not_mem.mpr fun a ha => List.not_mem_nil (hall a ha)]
    exact .nil
  | cons k keys ih =>
    obtain ⟨hk, hkeys⟩ := List.nodup_cons.mp hkeys
    have hothers : ∀ k' ∈ keys, (l.filter fun a => f a = k') =
        (l.filter fun a => !decide (f a = k)).filter fun a => f a = k' := fun k' hk' => by
      rw [List.filter_filter]
      refine List.filter_congr fun a _ => ?_
      have hne : k' ≠ k := fun heq => hk (heq ▸ hk')
      by_cases hf : f a = k'
      · simp [hf, hne]
      · simp [hf]
    have hleft : ∀ a ∈ l.filter fun a => !decide (f a = k), f a ∈ keys := fun a ha => by
      obtain ⟨ha, hne⟩ := List.mem_filter.mp ha
      exact (List.mem_cons.mp (hall a ha)).resolve_left (by simpa using hne)
    rw [List.flatMap_cons, List.flatMap_congr hothers]
    exact ((ih hkeys hleft).append_left _).trans (List.filter_append_perm _ l)

theorem eraseDups_concat (l : List β) (b : β) :
    (l ++ [b]).eraseDups = l.eraseDups ++ if b ∈ l then [] else [b] := by
  rw [List.eraseDups_append, List.removeAll]
  by_cases hb : b ∈ l <;> simp [hb, List.eraseDups_cons]

/-- Each member is kept where it stands first. -/
theorem pairwise_eraseDups (l : List β) :
    l.eraseDups.Pairwise fun b b' => l.idxOf b < l.idxOf b' := by
  induction l using List.reverseRecOn with
  | nil => exact .nil
  | append_singleton l b ih =>
    have hmem : ∀ {b'}, b' ∈ l.eraseDups → (l ++ [b]).idxOf b' = l.idxOf b' := fun hb' =>
      List.idxOf_append_of_mem (List.mem_eraseDups.mp hb')
    have hkept : l.eraseDups.Pairwise fun b' b'' => (l ++ [b]).idxOf b' < (l ++ [b]).idxOf b'' :=
      ih.imp_of_mem fun hb' hb'' hlt => by rwa [hmem hb', hmem hb'']
    rw [eraseDups_concat]
    by_cases hb : b ∈ l
    · rwa [if_pos hb, List.append_nil]
    · rw [if_neg hb, List.pairwise_append]
      refine ⟨hkept, List.pairwise_singleton _ _, fun b' hb' b'' hb'' => ?_⟩
      obtain rfl := List.mem_singleton.mp hb''
      rw [hmem hb', List.idxOf_append_of_notMem hb]
      have hlt := List.idxOf_lt_length_iff.mpr (List.mem_eraseDups.mp hb')
      omega

theorem nodup_eraseDups (l : List β) : l.eraseDups.Nodup :=
  (pairwise_eraseDups l).imp fun hlt => by
    rintro rfl
    exact Nat.lt_irrefl _ hlt

theorem eraseDups_eq_self {l : List β} (h : l.Nodup) : l.eraseDups = l := by
  induction l using List.reverseRecOn with
  | nil => rfl
  | append_singleton l b ih =>
    obtain ⟨hl, -, hdisjoint⟩ := List.nodup_append.mp h
    have hb : b ∉ l := fun hb => hdisjoint b hb b List.mem_cons_self rfl
    rw [eraseDups_concat, ih hl, if_neg hb]

end Groups

/-! ## Declarations of a depth -/

namespace DeclarationList

/-- The declarations at a depth. -/
def atDepth (l : DeclarationList) (d : Int) : List Declaration :=
  l.declarations.filter fun x => x.symbol.depth = d

/-- The names that are declared at a depth, as often as they are. -/
def namesAt (l : DeclarationList) (d : Int) : List String :=
  (l.atDepth d).map fun x => x.symbol.name

/-- The declarations at a depth, grouped by their names. -/
def grouped (l : DeclarationList) (d : Int) : List Declaration :=
  (l.namesAt d).eraseDups.flatMap fun y => (l.atDepth d).filter fun x => x.symbol.name = y

/-- Declarations are appended with the handles that are next. -/
structure Ordered (l : DeclarationList) : Prop where
  handle_lt : ∀ x ∈ l.declarations, x.handle < l.made
  sorted : l.declarations.Pairwise fun x x' => x.handle < x'.handle

/-- At a depth, the first declaration of the one name stands before that of the other, or they are
declarations of one name in their order. -/
def Precedes (names : List String) (x x' : Declaration) : Prop :=
  names.idxOf x.symbol.name < names.idxOf x'.symbol.name ∨
    x.symbol.name = x'.symbol.name ∧ x.handle < x'.handle

theorem perm_grouped (l : DeclarationList) (d : Int) : (l.grouped d).Perm (l.atDepth d) :=
  perm_flatMap_filter (nodup_eraseDups _) fun _ hx =>
    List.mem_eraseDups.mpr (List.mem_map_of_mem hx)

theorem Ordered.pairwise_grouped {l : DeclarationList} (h : l.Ordered) (d : Int) :
    (l.grouped d).Pairwise (Precedes (l.namesAt d)) := by
  have hname : ∀ {y : String} {x : Declaration},
      x ∈ (l.atDepth d).filter (fun x => x.symbol.name = y) → x.symbol.name = y := fun hx => by
    simpa using (List.mem_filter.mp hx).2
  refine List.pairwise_flatMap.mpr ⟨fun y _ => ?_, ?_⟩
  · refine ((h.sorted.filter _).filter _).imp_of_mem fun hx hx' hlt => Or.inr ⟨?_, hlt⟩
    rw [hname hx, hname hx']
  · refine (pairwise_eraseDups (l.namesAt d)).imp fun hlt x hx x' hx' => Or.inl ?_
    rwa [hname hx, hname hx']

/-- Where no name is declared twice the groups are in the order of the declarations. -/
theorem Ordered.grouped_eq {l : DeclarationList} (h : l.Ordered) {d : Int}
    (hd : (l.namesAt d).Nodup) : l.grouped d = l.atDepth d := by
  have hsorted : (l.atDepth d).Pairwise (Precedes (l.namesAt d)) := by
    have hnames := pairwise_eraseDups (l.namesAt d)
    rw [eraseDups_eq_self hd] at hnames
    exact (List.pairwise_map.mp hnames).imp Or.inl
  refine List.Perm.eq_of_pairwise (fun x x' _ _ hlt hlt' => ?_) (h.pairwise_grouped d) hsorted
    (l.perm_grouped d)
  exfalso
  rcases hlt with hlt | ⟨hname, hlt⟩ <;> rcases hlt' with hlt' | ⟨hname', hlt'⟩
  · exact Nat.lt_asymm hlt hlt'
  · exact absurd hlt (hname' ▸ Nat.lt_irrefl _)
  · exact absurd hlt' (hname ▸ Nat.lt_irrefl _)
  · exact Nat.lt_asymm hlt hlt'

end DeclarationList

/-! ## One operation -/

namespace TableOperation

variable {t : SymbolTable} {l : DeclarationList}

theorem ordered (op : TableOperation) (h : l.Ordered) : (op.onList l).Ordered := by
  cases op with
  | insert name depth =>
    refine ⟨fun x hx => ?_, List.pairwise_append.mpr
      ⟨h.sorted, List.pairwise_singleton _ _, fun x hx x' hx' => ?_⟩⟩
    · rcases List.mem_append.mp hx with hx | hx
      · exact Nat.lt_succ_of_lt (h.handle_lt x hx)
      · cases List.mem_singleton.mp hx
        exact Nat.lt_succ_self _
    · cases List.mem_singleton.mp hx'
      exact h.handle_lt x hx
  | deleteDepth depth =>
    exact ⟨fun x hx => h.handle_lt x (List.mem_of_mem_filter hx), h.sorted.filter _⟩
  | setAttributes k attributes =>
    refine ⟨fun x hx => ?_, List.pairwise_map.mpr ?_⟩
    · obtain ⟨x, hx', rfl⟩ := List.mem_map.mp hx
      rw [Declaration.handle_setAttributes]
      exact h.handle_lt x hx'
    · simpa only [Declaration.handle_setAttributes] using h.sorted

/-- The names that are declared at a depth, after the operation. -/
def onNames (d : Int) : TableOperation → List String → List String
  | insert name depth, names => if depth = d then names ++ [name] else names
  | deleteDepth depth, names => if depth = d then [] else names
  | setAttributes _ _, names => names

theorem namesAt_onTable (op : TableOperation) (t : SymbolTable) (d : Int) :
    (op.onTable t).namesAt.get d = op.onNames d (t.namesAt.get d) := by
  cases op with
  | insert name depth =>
    rw [onTable, SymbolTable.get_namesAt_insert, onNames]
    by_cases hd : depth = d
    · rw [if_pos hd.symm, if_pos hd, hd]
    · rw [if_neg (Ne.symm hd), if_neg hd]
  | deleteDepth depth =>
    rw [onTable, SymbolTable.get_namesAt_deleteDepth, onNames]
    by_cases hd : depth = d
    · rw [if_pos hd.symm, if_pos hd]
    · rw [if_neg (Ne.symm hd), if_neg hd]
  | setAttributes k attributes => rw [onTable, SymbolTable.set_namesAt, onNames]

theorem namesAt_onList (op : TableOperation) (l : DeclarationList) (d : Int) :
    (op.onList l).namesAt d = op.onNames d (l.namesAt d) := by
  cases op with
  | insert name depth =>
    simp only [onList, onNames, DeclarationList.namesAt, DeclarationList.atDepth,
      DeclarationList.insert, List.filter_append, List.map_append]
    by_cases hd : depth = d <;> simp [hd]
  | deleteDepth depth =>
    simp only [onList, onNames, DeclarationList.namesAt, DeclarationList.atDepth,
      DeclarationList.deleteDepth, List.filter_filter]
    by_cases hd : depth = d
    · subst hd
      simp
    · rw [if_neg hd]
      refine congrArg (List.map _) (List.filter_congr fun x _ => ?_)
      by_cases hx : x.symbol.depth = d
      · simp [hx, Ne.symm hd]
      · simp [hx]
  | setAttributes k attributes =>
    simp only [onList, onNames, DeclarationList.namesAt, DeclarationList.atDepth,
      DeclarationList.setAttributes, List.filter_map, List.map_map, Function.comp_def,
      Declaration.depth_setAttributes, Declaration.name_setAttributes]

/-- The name that the operation declares at the depth. -/
def nameAt? (d : Int) : TableOperation → Option String
  | insert name depth => if depth = d then some name else none
  | _ => none

/-- The names declared at a depth since it was last deleted, as often as they were. -/
def namesSince (d : Int) (ops : List TableOperation) : List String :=
  (ops.reverse.takeWhile fun op => op ≠ .deleteDepth d).reverse.filterMap (nameAt? d)

theorem namesSince_concat (d : Int) (ops : List TableOperation) (op : TableOperation) :
    namesSince d (ops ++ [op]) = op.onNames d (namesSince d ops) := by
  unfold namesSince
  rw [List.reverse_append, List.reverse_singleton, List.singleton_append, List.takeWhile_cons]
  by_cases hop : op = .deleteDepth d
  · subst hop
    simp [onNames]
  · have hgo : decide (op ≠ .deleteDepth d) = true := decide_eq_true hop
    rw [if_pos hgo, List.reverse_cons, List.filterMap_append]
    cases op with
    | insert name depth => by_cases hd : depth = d <;> simp [onNames, nameAt?, hd]
    | deleteDepth depth =>
      have hd : depth ≠ d := fun heq => hop (heq ▸ rfl)
      simp [onNames, nameAt?, hd]
    | setAttributes k attributes => simp [onNames, nameAt?]

end TableOperation

/-! ## All sequences of operations -/

open TableOperation (tableAfter listAfter namesSince)

section After

variable (ops : List TableOperation)

theorem tableAfter_concat (op : TableOperation) :
    tableAfter (ops ++ [op]) = op.onTable (tableAfter ops) := List.foldl_concat ..

theorem listAfter_concat (op : TableOperation) :
    listAfter (ops ++ [op]) = op.onList (listAfter ops) := List.foldl_concat ..

theorem ordered_listAfter : (listAfter ops).Ordered := by
  induction ops using List.reverseRecOn with
  | nil => exact ⟨fun _ hx => absurd hx List.not_mem_nil, .nil⟩
  | append_singleton ops op ih =>
    rw [listAfter_concat]
    exact op.ordered ih

/-- The names filed at a depth are those declared there since it was last deleted. -/
theorem namesAt_tableAfter (d : Int) : (tableAfter ops).namesAt.get d = namesSince d ops := by
  induction ops using List.reverseRecOn with
  | nil => rfl
  | append_singleton ops op ih =>
    rw [tableAfter_concat, TableOperation.namesAt_onTable, ih, TableOperation.namesSince_concat]

theorem namesAt_listAfter (d : Int) : (listAfter ops).namesAt d = namesSince d ops := by
  induction ops using List.reverseRecOn with
  | nil => rfl
  | append_singleton ops op ih =>
    rw [listAfter_concat, TableOperation.namesAt_onList, ih, TableOperation.namesSince_concat]

end After

/-! ## The enumeration -/

namespace SymbolTable

variable {t : SymbolTable} {l : DeclarationList}

/-- The table lists the declarations of a depth in their groups. -/
theorem Lists.entriesAt_eq (h : t.Lists l) {d : Int} (hnames : t.namesAt.get d = l.namesAt d) :
    t.entriesAt d = (l.grouped d).map Declaration.handle := by
  unfold entriesAt DeclarationList.grouped
  rw [hnames, List.map_flatMap]
  refine List.flatMap_congr fun y _ => ?_
  rw [h.get_byName, List.filter_map, DeclarationList.atDepth, List.filter_filter,
    List.filter_filter]
  refine congrArg (List.map _) (List.filter_congr fun x hx => ?_)
  rw [Function.comp_apply, h.symbol_eq x hx, Bool.and_comm]

theorem Lists.mem_keys_iff (h : t.Lists l) (d : Int) :
    d ∈ t.namesAt.keys ↔ ∃ x ∈ l.declarations, x.symbol.depth = d := by
  rw [h.wellFormed.namesAt.mem_keys_iff]
  constructor
  · intro hne
    obtain ⟨y, hy⟩ := List.exists_mem_of_ne_nil _ hne
    obtain ⟨x, hx, -, hd⟩ := (h.mem_namesAt_iff y d).mp hy
    exact ⟨x, hx, hd⟩
  · rintro ⟨x, hx, hd⟩
    exact List.ne_nil_of_mem ((h.mem_namesAt_iff _ d).mpr ⟨x, hx, rfl, hd⟩)

/-- The declarations of the list are those of its depths together. -/
theorem Lists.perm_entries (h : t.Lists l)
    (hdepths : ∀ d, (t.entriesAt d).Perm ((l.atDepth d).map Declaration.handle)) :
    t.entries.Perm (l.declarations.map Declaration.handle) := by
  have hkeys := h.wellFormed.pairwise_depths
  have hmem : ∀ x ∈ l.declarations,
      x.symbol.depth ∈ t.namesAt.keys.mergeSort fun d d' => d ≤ d' := fun x hx =>
    List.mem_mergeSort.mpr ((h.mem_keys_iff _).mpr ⟨x, hx, rfl⟩)
  refine (List.Perm.flatMap_left _ fun d _ => hdepths d).trans ?_
  rw [← List.map_flatMap]
  exact (perm_flatMap_filter (hkeys.imp fun hlt => ne_of_lt hlt) hmem).map _

end SymbolTable

open DeclarationList (Precedes)

/-- After any operations the table lists every declaration of the plain list once and no other one,
so as many as are counted, and it lists them along the depths. At a depth those declared since it
was last deleted are listed, by the first declaration of their name and then in their order. So
they are in the order of the declarations if no name is declared there twice. -/
theorem enumerates_each_once (ops : List TableOperation) :
    (tableAfter ops).entries.Perm ((listAfter ops).declarations.map Declaration.handle) ∧
      (tableAfter ops).entries.Nodup ∧
      (tableAfter ops).entries.length = (tableAfter ops).size ∧
      (∃ depths : List Int, depths.Pairwise (· < ·) ∧
        (∀ d, d ∈ depths ↔ ∃ x ∈ (listAfter ops).declarations, x.symbol.depth = d) ∧
        (tableAfter ops).entries = depths.flatMap (tableAfter ops).entriesAt) ∧
      ∀ d, (listAfter ops).namesAt d = namesSince d ops ∧
        (∃ xs : List Declaration, (tableAfter ops).entriesAt d = xs.map Declaration.handle ∧
          xs.Perm ((listAfter ops).atDepth d) ∧ xs.Pairwise (Precedes (namesSince d ops))) ∧
        ((namesSince d ops).Nodup →
          (tableAfter ops).entriesAt d = ((listAfter ops).atDepth d).map Declaration.handle) := by
  have h := lists_tableAfter ops
  have hordered := ordered_listAfter ops
  have hnames := namesAt_listAfter ops
  have heq : ∀ d, (tableAfter ops).entriesAt d =
      ((listAfter ops).grouped d).map Declaration.handle := fun d =>
    h.entriesAt_eq ((namesAt_tableAfter ops d).trans (hnames d).symm)
  have hperm := h.perm_entries fun d => by
    rw [heq]
    exact ((listAfter ops).perm_grouped d).map _
  have hnodup : ((listAfter ops).declarations.map Declaration.handle).Nodup :=
    List.pairwise_map.mpr (hordered.sorted.imp fun hlt => ne_of_lt hlt)
  refine ⟨hperm, hperm.nodup_iff.mpr hnodup, ?_, ?_, fun d => ⟨hnames d, ?_, fun hd => ?_⟩⟩
  · rw [hperm.length_eq, List.length_map, h.size_eq]
  · refine ⟨_, h.wellFormed.pairwise_depths, fun d => ?_, rfl⟩
    rw [List.mem_mergeSort, h.mem_keys_iff]
  · refine ⟨(listAfter ops).grouped d, heq d, (listAfter ops).perm_grouped d, ?_⟩
    rw [← hnames d]
    exact hordered.pairwise_grouped d
  · rw [heq, hordered.grouped_eq ((hnames d).symm ▸ hd)]

/-- A depth that is deleted and used again, with another depth in between. -/
def reusesDepth : List TableOperation :=
  [.insert "x" 1, .insert "y" 0, .deleteDepth 1, .insert "z" 1, .insert "w" (-2), .insert "y" 1,
    .deleteDepth 0]

theorem enumerates_each_once_reusesDepth :
    (namesSince 1 reusesDepth).Nodup ∧ (tableAfter reusesDepth).entriesAt 1 = [2, 4] := by
  have hnodup : (namesSince 1 reusesDepth).Nodup := by decide
  exact ⟨hnodup, ((enumerates_each_once reusesDepth).2.2.2.2 1).2.2 hnodup⟩

end ProcLang
