import ProcLang.Proofs.Growth

/-!
# What is left when scopes are ended

When a table that has grown from `b` is brought back to the depth of `b`, the declarations of `b` are
there as they were, and behind them those that were added to its own scope
(`SymbolTable.Grown.addsOnly`). This is said of the list of all declarations and of the
declarations of each name.
-/

namespace ProcLang.SymbolTable

variable {b t : SymbolTable}

/-! ## Ending scopes -/

@[simp] theorem symbol_leaveScopes (n : Nat) (t : SymbolTable) (h : Handle) :
    (t.leaveScopes n).symbol h = t.symbol h := by
  induction n generalizing t with
  | zero => rfl
  | succ n ih => exact (ih t.leave).trans (symbol_deleteDepth t t.depth h)

theorem depth_leaveScopes (n : Nat) (t : SymbolTable) : (t.leaveScopes n).depth = t.depth - n := by
  induction n generalizing t with
  | zero => simp [leaveScopes]
  | succ n ih =>
    have hleave : t.leave.depth = t.depth - 1 := rfl
    rw [leaveScopes, ih, hleave]
    omega

theorem WellFormed.leave (ht : t.WellFormed) : t.leave.WellFormed :=
  (ht.deleteDepth t.depth).setDepth _

theorem WellFormed.mem_of_mem_leaveScopes (ht : t.WellFormed) {n : Nat} {y : String} {h : Handle}
    (hm : h ∈ (t.leaveScopes n).byName.get y) : h ∈ t.byName.get y := by
  induction n generalizing t with
  | zero => exact hm
  | succ n ih =>
    have hleave : h ∈ t.leave.byName.get y := ih ht.leave hm
    exact (ht.mem_deleteDepth_iff.mp hleave).1

theorem get_namesAt_leaveScopes (n : Nat) (t : SymbolTable) {d : Int} (hd : d ≤ t.depth - n) :
    (t.leaveScopes n).namesAt.get d = t.namesAt.get d := by
  induction n generalizing t with
  | zero => rfl
  | succ n ih =>
    have hleave : t.leave.depth = t.depth - 1 := rfl
    have hget : t.leave.namesAt.get d = if d = t.depth then [] else t.namesAt.get d :=
      get_namesAt_deleteDepth ..
    rw [leaveScopes, ih _ (by omega), hget, if_neg (by omega)]

theorem Grown.leaveScopes (hg : Grown b t) {n : Nat} (hn : b.depth + n ≤ t.depth) :
    Grown b (t.leaveScopes n) := by
  induction n generalizing t with
  | zero => exact hg
  | succ n ih =>
    have hleave : t.leave.depth = t.depth - 1 := rfl
    exact ih (hg.leave (by omega)) (by omega)

theorem Grown.unwindTo (hg : Grown b t) : Grown b (t.unwindTo b.depth) := by
  have hdeep := hg.deep
  exact hg.leaveScopes (by omega)

theorem Grown.depth_unwindTo (hg : Grown b t) : (t.unwindTo b.depth).depth = b.depth := by
  have hdeep := hg.deep
  unfold SymbolTable.unwindTo
  rw [depth_leaveScopes]
  omega

theorem Grown.namesAt_unwindTo (hg : Grown b t) :
    (t.unwindTo b.depth).namesAt.get b.depth = t.namesAt.get b.depth := by
  have hdeep := hg.deep
  exact get_namesAt_leaveScopes _ _ (by omega)

/-! ## The list of all declarations -/

theorem flatMap_filter {α β : Type} {f : α → List β} {p : α → Bool} {l : List α}
    (h : ∀ a ∈ l, p a = false → f a = []) : (l.filter p).flatMap f = l.flatMap f := by
  induction l with
  | nil => rfl
  | cons a rest ih =>
    have hrest := ih fun a' hm => h a' (List.mem_cons_of_mem _ hm)
    cases hp : p a with
    | true => rw [List.filter_cons_of_pos hp, List.flatMap_cons, List.flatMap_cons, hrest]
    | false =>
      rw [List.filter_cons_of_neg (by simp [hp]), List.flatMap_cons, h a List.mem_cons_self hp,
        hrest, List.nil_append]

/-- The depths with declarations, in their order. -/
theorem WellFormed.pairwise_depths (ht : t.WellFormed) :
    (t.namesAt.keys.mergeSort fun d d' => d ≤ d').Pairwise (· < ·) := by
  have hle : (t.namesAt.keys.mergeSort fun d d' => decide (d ≤ d')).Pairwise
      fun d d' => decide (d ≤ d') = true :=
    List.pairwise_mergeSort (by simpa using fun a b c => Int.le_trans)
      (by simpa using Int.le_total) t.namesAt.keys
  have hne : (t.namesAt.keys.mergeSort fun d d' => d ≤ d').Nodup :=
    (List.mergeSort_perm _ _).nodup_iff.mpr ht.namesAt.nodup
  exact (hle.and hne).imp fun h => lt_of_le_of_ne (by simpa using h.1) h.2

/-- All declarations can be listed along any increasing list of depths that leaves none out. -/
theorem WellFormed.entries_eq (ht : t.WellFormed) {depths : List Int}
    (hsorted : depths.Pairwise (· < ·)) (hall : ∀ d, t.namesAt.get d ≠ [] → d ∈ depths) :
    t.entries = depths.flatMap t.entriesAt := by
  let used : Int → Bool := fun d => t.namesAt.get d ≠ []
  have hunused : ∀ d ∈ depths, used d = false → t.entriesAt d = [] := by
    intro d _ hd
    have hnil : t.namesAt.get d = [] := by simpa [used] using hd
    unfold entriesAt
    rw [hnil]
    rfl
  have hperm : (t.namesAt.keys.mergeSort fun d d' => d ≤ d').Perm (depths.filter used) := by
    refine (List.mergeSort_perm _ _).trans ?_
    rw [List.perm_ext_iff_of_nodup ht.namesAt.nodup
      ((hsorted.imp fun hlt => ne_of_lt hlt).filter _)]
    intro d
    rw [ht.namesAt.mem_keys_iff, List.mem_filter]
    exact ⟨fun hne => ⟨hall d hne, by simpa [used] using hne⟩, fun h => by simpa [used] using h.2⟩
  have heq : (t.namesAt.keys.mergeSort fun d d' => d ≤ d') = depths.filter used := by
    have hle : (t.namesAt.keys.mergeSort fun d d' => d ≤ d').Pairwise (· ≤ ·) :=
      ht.pairwise_depths.imp fun hlt => Int.le_of_lt hlt
    have hle' : (depths.filter used).Pairwise (· ≤ ·) :=
      (hsorted.imp fun hlt => Int.le_of_lt hlt).filter _
    exact List.Perm.eq_of_pairwise (fun a b _ _ => Int.le_antisymm) hle hle' hperm
  unfold entries
  rw [heq, flatMap_filter hunused]

/-! ## What was added -/

/-- The table has the declarations of `b` as they were, and behind them the added ones. -/
structure AddsOnly (b t : SymbolTable) (added : List Handle) : Prop where
  depth : t.depth = b.depth
  kept : ∀ h < b.symbols.size, t.symbol h = b.symbol h
  entries : t.entries = b.entries ++ added
  byName : ∀ y, t.byName.get y = b.byName.get y ++ added.filter fun h => (t.symbol h).name = y

theorem AddsOnly.refl (b : SymbolTable) : AddsOnly b b [] :=
  ⟨rfl, fun _ _ => rfl, by simp, fun _ => by simp⟩

theorem filter_lt_append_filter_le {n : Nat} {l : List Nat} (h : l.Pairwise (· < ·)) :
    l.filter (· < n) ++ l.filter (n ≤ ·) = l := by
  induction l with
  | nil => rfl
  | cons a rest ih =>
    rw [List.pairwise_cons] at h
    by_cases ha : a < n
    · rw [List.filter_cons_of_pos (by simpa using ha), List.filter_cons_of_neg (by simpa using ha),
        List.cons_append, ih h.2]
    · have hle : n ≤ a := Nat.le_of_not_lt ha
      have hnone : rest.filter (· < n) = [] := by
        rw [List.filter_eq_nil_iff]
        intro a' hm
        have hlt := h.1 a' hm
        simp only [decide_eq_true_eq]
        omega
      have hall : rest.filter (n ≤ ·) = rest := by
        rw [List.filter_eq_self]
        intro a' hm
        have hlt := h.1 a' hm
        simp only [decide_eq_true_eq]
        omega
      rw [List.filter_cons_of_neg (by simpa using ha), List.filter_cons_of_pos (by simpa using hle),
        hnone, hall, List.nil_append]

namespace Grown

/-- The new declarations of a name. -/
def newOf (b t : SymbolTable) (y : String) : List Handle :=
  (t.byName.get y).filter (b.symbols.size ≤ ·)

theorem mem_newOf {y : String} {h : Handle} :
    h ∈ newOf b t y ↔ h ∈ t.byName.get y ∧ b.symbols.size ≤ h := by
  unfold newOf
  rw [List.mem_filter, decide_eq_true_eq]

/-- The new declarations of a name stand behind the old ones. -/
theorem byName_eq (hg : Grown b t) (y : String) :
    t.byName.get y = b.byName.get y ++ newOf b t y := by
  rw [← hg.old y]
  exact (filter_lt_append_filter_le (hg.wellFormed.sorted y)).symm

theorem depth_of_mem_newOf (hg : Grown b t) (hdepth : t.depth = b.depth) {y : String} {h : Handle}
    (hm : h ∈ newOf b t y) : (t.symbol h).depth = b.depth := by
  obtain ⟨hlisted, hnew⟩ := mem_newOf.mp hm
  have hle := hg.bounded y h hlisted
  have hge := hg.inside y h hlisted hnew
  omega

/-- In the scope of `b` a name has one new declaration at most. -/
theorem newOf_eq_singleton (hg : Grown b t) (hdepth : t.depth = b.depth) {y : String} {h : Handle}
    (hm : h ∈ newOf b t y) : newOf b t y = [h] := by
  have hsorted : (newOf b t y).Pairwise (· < ·) := (hg.wellFormed.sorted y).filter _
  match hl : newOf b t y with
  | [] => rw [hl] at hm; exact absurd hm List.not_mem_nil
  | [a] => rw [hl] at hm; rw [List.mem_singleton.mp hm]
  | a :: a' :: rest =>
    rw [hl] at hsorted
    have hlt := (List.pairwise_cons.mp hsorted).1 a' List.mem_cons_self
    have ha : a ∈ newOf b t y := by rw [hl]; exact List.mem_cons_self
    have ha' : a' ∈ newOf b t y := by rw [hl]; simp
    have hdeeper := hg.deeper y a (mem_newOf.mp ha).1 a' (mem_newOf.mp ha').1 (mem_newOf.mp ha').2 hlt
    rw [hg.depth_of_mem_newOf hdepth ha, hg.depth_of_mem_newOf hdepth ha'] at hdeeper
    exact absurd hdeeper (Int.lt_irrefl _)

/-- Of the new declarations, those at the depth of `b` count for that depth only. -/
theorem filter_byName (hg : Grown b t) (hdepth : t.depth = b.depth) (y : String) (d : Int) :
    ((t.byName.get y).filter fun h => (t.symbol h).depth = d) =
      ((b.byName.get y).filter fun h => (b.symbol h).depth = d) ++
        if d = b.depth then newOf b t y else [] := by
  rw [hg.byName_eq y, List.filter_append]
  congr 1
  · refine List.filter_congr fun h hm => ?_
    rw [hg.kept h (hg.start.handle_lt hm)]
  · by_cases hd : d = b.depth
    · rw [if_pos hd, List.filter_eq_self]
      intro h hm
      simpa [hd] using hg.depth_of_mem_newOf hdepth hm
    · rw [if_neg hd, List.filter_eq_nil_iff]
      intro h hm
      rw [hg.depth_of_mem_newOf hdepth hm]
      simpa using Ne.symm hd

theorem entriesAt_of_lt (hg : Grown b t) (hdepth : t.depth = b.depth) {d : Int}
    (hd : d < b.depth) : t.entriesAt d = b.entriesAt d := by
  unfold entriesAt
  rw [hg.below d hd]
  congr 1
  funext y
  rw [hg.filter_byName hdepth, if_neg (Int.ne_of_lt hd), List.append_nil]

section Added

variable (hg : Grown b t) (hdepth : t.depth = b.depth) {xs : List String}
  (hnames : t.namesAt.get b.depth = b.namesAt.get b.depth ++ xs)
  (hfresh : ∀ x ∈ xs, x ∉ b.namesAt.get b.depth)
include hg hdepth hnames hfresh

/-- What has a new declaration in the scope of `b` are the added names. -/
theorem newOf_ne_nil_iff {y : String} : newOf b t y ≠ [] ↔ y ∈ xs := by
  constructor
  · intro hne
    obtain ⟨h, hm⟩ := List.exists_mem_of_ne_nil _ hne
    obtain ⟨hlisted, hnew⟩ := mem_newOf.mp hm
    have hd := hg.depth_of_mem_newOf hdepth hm
    have hy := hg.wellFormed.filed.mpr ⟨h, hlisted, hd⟩
    rw [hnames, List.mem_append] at hy
    refine hy.resolve_left fun hold => ?_
    obtain ⟨h₀, hm₀, hd₀⟩ := hg.start.filed.mp hold
    have hlt₀ := hg.start.handle_lt hm₀
    have hdeeper := hg.deeper y h₀ (hg.mem_of_mem_base hm₀) h hlisted hnew
      (Nat.lt_of_lt_of_le hlt₀ hnew)
    rw [hg.kept h₀ hlt₀] at hdeeper
    omega
  · intro hy
    have hy' : y ∈ t.namesAt.get b.depth := by rw [hnames]; exact List.mem_append_right _ hy
    obtain ⟨h, hlisted, hd⟩ := hg.wellFormed.filed.mp hy'
    refine List.ne_nil_of_mem (mem_newOf.mpr ⟨hlisted, Nat.le_of_not_lt fun hlt => ?_⟩)
    refine hfresh y hy (hg.start.filed.mpr ⟨h, hg.mem_base_of_lt hlisted hlt, ?_⟩)
    rw [← hg.kept h hlt, hd]

theorem newOf_eq_nil {y : String} (hy : y ∉ xs) : newOf b t y = [] := by
  by_contra hne
  exact hy ((hg.newOf_ne_nil_iff hdepth hnames hfresh).mp hne)

end Added

/-- All declarations: those of `b`, and behind them what its scope has got more. -/
theorem entries_eq_append (hg : Grown b t) (hdepth : t.depth = b.depth) {added : List Handle}
    (hbase : t.entriesAt b.depth = b.entriesAt b.depth ++ added) :
    t.entries = b.entries ++ added := by
  let around := (b.namesAt.keys.mergeSort fun d d' => d ≤ d').filter (· < b.depth)
  have haround : ∀ d ∈ around, d < b.depth := fun d hm => by
    simpa using (List.mem_filter.mp hm).2
  have hsorted : (around ++ [b.depth]).Pairwise (· < ·) := by
    rw [List.pairwise_append]
    refine ⟨hg.start.pairwise_depths.filter _, List.pairwise_singleton _ _, fun d hm d' hm' => ?_⟩
    rw [List.mem_singleton.mp hm']
    exact haround d hm
  have hbelow : ∀ d, b.namesAt.get d ≠ [] → d ∈ around ++ [b.depth] := by
    intro d hne
    obtain ⟨y, hy⟩ := List.exists_mem_of_ne_nil _ hne
    obtain ⟨h, hm, rfl⟩ := hg.start.filed.mp hy
    have hle := hg.around y h hm
    by_cases hd : (b.symbol h).depth = b.depth
    · simp [hd]
    · have hlt : (b.symbol h).depth < b.depth := by omega
      refine List.mem_append_left _ (List.mem_filter.mpr ⟨?_, by simpa using hlt⟩)
      rw [List.mem_mergeSort, hg.start.namesAt.mem_keys_iff]
      exact hne
  have hall : ∀ d, t.namesAt.get d ≠ [] → d ∈ around ++ [b.depth] := by
    intro d hne
    obtain ⟨y, hy⟩ := List.exists_mem_of_ne_nil _ hne
    obtain ⟨h, hm, rfl⟩ := hg.wellFormed.filed.mp hy
    have hle := hg.bounded y h hm
    by_cases hd : (t.symbol h).depth = b.depth
    · simp [hd]
    · have hlt : (t.symbol h).depth < b.depth := by omega
      exact hbelow _ (hg.below _ hlt ▸ hne)
  rw [hg.wellFormed.entries_eq hsorted hall, hg.start.entries_eq hsorted hbelow,
    List.flatMap_append, List.flatMap_append, List.flatMap_singleton, List.flatMap_singleton, hbase,
    ← List.append_assoc]
  congr 2
  exact List.flatMap_congr fun d hm => hg.entriesAt_of_lt hdepth (haround d hm)

/-- A table that has grown from `b` and has the depth of `b` has at most one declaration more, if at
most one name was declared in the scope of `b`. -/
theorem addsOnly (hg : Grown b t) (hdepth : t.depth = b.depth) (name? : Option String)
    (hnames : t.namesAt.get b.depth = b.namesAt.get b.depth ++ name?.toList)
    (hfresh : ∀ x ∈ name?.toList, x ∉ b.namesAt.get b.depth) :
    ∃ added, AddsOnly b t added ∧ added.map (fun h => (t.symbol h).name) = name?.toList ∧
      ∀ h ∈ added, b.symbols.size ≤ h ∧ h ∈ t.byName.get (t.symbol h).name ∧
        (t.symbol h).depth = b.depth := by
  have hold : ∀ y ∈ (b.namesAt.get b.depth).eraseDups,
      ((t.byName.get y).filter fun h => (t.symbol h).depth = b.depth) =
        (b.byName.get y).filter fun h => (b.symbol h).depth = b.depth := by
    intro y hy
    have hy := List.mem_eraseDups.mp hy
    rw [hg.filter_byName hdepth, if_pos rfl,
      hg.newOf_eq_nil hdepth hnames hfresh fun hx => hfresh y hx hy, List.append_nil]
  cases name? with
  | none =>
    have hnil : ∀ y, newOf b t y = [] := fun y =>
      hg.newOf_eq_nil hdepth hnames hfresh List.not_mem_nil
    refine ⟨[], ⟨hdepth, hg.kept, hg.entries_eq_append hdepth ?_, fun y => ?_⟩, rfl,
      fun _ h => absurd h List.not_mem_nil⟩
    · unfold entriesAt
      rw [hnames, Option.toList_none, List.append_nil, List.append_nil]
      exact List.flatMap_congr hold
    · rw [hg.byName_eq, hnil]
      rfl
  | some x =>
    have hx : x ∉ b.namesAt.get b.depth := hfresh x (List.mem_singleton_self x)
    obtain ⟨h, hm⟩ := List.exists_mem_of_ne_nil _
      ((hg.newOf_ne_nil_iff hdepth hnames hfresh).mpr (List.mem_singleton_self x))
    have hone := hg.newOf_eq_singleton hdepth hm
    obtain ⟨hlisted, hnew⟩ := mem_newOf.mp hm
    have hname := hg.wellFormed.name_eq hlisted
    refine ⟨[h], ⟨hdepth, hg.kept, hg.entries_eq_append hdepth ?_, fun y => ?_⟩, ?_, fun h' hm' => ?_⟩
    · have hremove : [x].removeAll (b.namesAt.get b.depth) = [x] := by
        simp [List.removeAll, hx]
      have hxold : ((b.byName.get x).filter fun h => (b.symbol h).depth = b.depth) = [] := by
        rw [List.filter_eq_nil_iff]
        intro h' hm'
        simpa using fun hd => hx (hg.start.filed.mpr ⟨h', hm', hd⟩)
      unfold entriesAt
      rw [hnames, Option.toList_some, List.eraseDups_append, hremove, List.flatMap_append,
        List.flatMap_congr hold]
      congr 1
      rw [show [x].eraseDups = [x] from rfl, List.flatMap_singleton, hg.filter_byName hdepth,
        if_pos rfl, hxold, hone, List.nil_append]
    · rw [hg.byName_eq]
      congr 1
      by_cases hy : y = x
      · subst hy
        rw [hone, List.filter_cons_of_pos (by simpa using hname), List.filter_nil]
      · rw [hg.newOf_eq_nil hdepth hnames hfresh fun hm => hy (List.mem_singleton.mp hm),
          List.filter_cons_of_neg (by simpa [hname] using Ne.symm hy), List.filter_nil]
    · rw [List.map_singleton, hname]
      rfl
    · cases List.mem_singleton.mp hm'
      exact ⟨hnew, hname ▸ hlisted, hg.depth_of_mem_newOf hdepth hm⟩

end Grown

end ProcLang.SymbolTable
