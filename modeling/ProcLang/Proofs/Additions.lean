import ProcLang.Proofs.Growth

/-!
# Tables with symbols added

While the head of a procedure is read its table is the one around it with symbols added in their
order: `SymbolTable.addAll`. What the table holds then is read off the list of symbols, and to
change an attribute is to change the list (`set_addAll`).

When nested procedures come in, their own declarations have been removed again and only their
functions are left: `SymbolTable.Extends` says which symbols the present scope has got more.
-/

namespace ProcLang.SymbolTable

variable {b t t' t'' : SymbolTable} {s : Symbol} {ss : List Symbol}

/-! ## Adding symbols -/

/-- The table with a symbol declared at its depth. -/
def add (t : SymbolTable) (s : Symbol) : SymbolTable :=
  { t with
    symbols := t.symbols.push s
    byName := t.byName.push s.name t.symbols.size
    namesAt := t.namesAt.push s.depth s.name }

/-- The table with symbols declared one after the other. -/
def addAll (t : SymbolTable) (ss : List Symbol) : SymbolTable := ss.foldl add t

/-- To declare a name is to add a symbol without attributes. -/
theorem insert_snd (t : SymbolTable) (name : String) (depth : Int) :
    (t.insert name depth).2 = t.add ⟨name, depth, .unset⟩ := rfl

/-- A symbol that is declared and then replaced has been added. -/
theorem insert_set (t : SymbolTable) (s : Symbol) :
    (t.insert s.name s.depth).2.set t.symbols.size s = t.add s := by
  rw [insert_snd]
  unfold set add
  congr 1
  apply Array.toList_inj.mp
  simp

@[simp] theorem size_add : (t.add s).symbols.size = t.symbols.size + 1 := Array.size_push ..

@[simp] theorem depth_add : (t.add s).depth = t.depth := rfl

theorem symbol_add (t : SymbolTable) (s : Symbol) (h : Handle) :
    (t.add s).symbol h = if h = t.symbols.size then s else t.symbol h :=
  symbol_of_push rfl h

theorem WellFormed.add (ht : t.WellFormed) (s : Symbol) : (t.add s).WellFormed := by
  rw [← insert_set]
  refine (ht.insert s.name s.depth).set ?_ ?_
  · rw [WellFormed.symbol_insert_self]
  · rw [WellFormed.symbol_insert_self]

theorem get_byName_add (t : SymbolTable) (s : Symbol) (y : String) :
    (t.add s).byName.get y =
      if y = s.name then t.byName.get s.name ++ [t.symbols.size] else t.byName.get y :=
  Index.get_push ..

theorem get_namesAt_add (t : SymbolTable) (s : Symbol) (d : Int) :
    (t.add s).namesAt.get d =
      if d = s.depth then t.namesAt.get s.depth ++ [s.name] else t.namesAt.get d :=
  Index.get_push ..

theorem Bounded.add (hb : t.Bounded) (hs : s.depth ≤ t.depth) :
    (t.add s).Bounded := by
  intro y h hm
  rw [symbol_add, depth_add]
  split
  · exact hs
  · next hne =>
    rw [get_byName_add] at hm
    split at hm
    · next hy =>
      rcases List.mem_append.mp hm with hm | hm
      · exact hb _ h hm
      · exact absurd (List.mem_singleton.mp hm) hne
    · exact hb y h hm

/-- A name that is new at its depth comes last there. -/
theorem WellFormed.entriesAt_add (hw : t.WellFormed) (hs : s.name ∉ t.namesAt.get s.depth)
    (d : Int) :
    (t.add s).entriesAt d = t.entriesAt d ++ if d = s.depth then [t.symbols.size] else [] := by
  have hfilter : ∀ y, ((t.byName.get y).filter fun h => ((t.add s).symbol h).depth = d) =
      (t.byName.get y).filter fun h => (t.symbol h).depth = d := by
    intro y
    refine List.filter_congr fun h hm => ?_
    rw [symbol_add, if_neg (hw.ne_size hm)]
  have hself : ((t.add s).symbol t.symbols.size).depth = s.depth := by rw [symbol_add, if_pos rfl]
  have hget : ∀ y, ((t.add s).byName.get y).filter (fun h => ((t.add s).symbol h).depth = d) =
      ((t.byName.get y).filter fun h => (t.symbol h).depth = d) ++
        if y = s.name ∧ d = s.depth then [t.symbols.size] else [] := by
    intro y
    rw [get_byName_add]
    by_cases hy : y = s.name
    · subst hy
      rw [if_pos rfl, List.filter_append, hfilter, List.filter_singleton, hself]
      by_cases hd : d = s.depth
      · simp [hd]
      · simp [hd, Ne.symm hd]
    · simp [hy, hfilter]
  unfold entriesAt
  simp only [hget, get_namesAt_add]
  by_cases hd : d = s.depth
  · subst hd
    have hremove : [s.name].removeAll (t.namesAt.get s.depth) = [s.name] := by
      simp [List.removeAll, hs]
    have hold : ((t.byName.get s.name).filter fun h => (t.symbol h).depth = s.depth) = [] := by
      rw [List.filter_eq_nil_iff]
      intro h hm
      simpa using fun hd => hs (hw.filed.mpr ⟨h, hm, hd⟩)
    rw [if_pos rfl, if_pos rfl, List.eraseDups_append, hremove, List.flatMap_append,
      show [s.name].eraseDups = [s.name] from rfl, List.flatMap_singleton, hold]
    congr 1
    · refine List.flatMap_congr fun y hy => ?_
      have hne : y ≠ s.name := fun heq => hs (heq ▸ List.mem_eraseDups.mp hy)
      simp [hne]
    · simp
  · simp [hd]

section AddAll

theorem addAll_concat (t : SymbolTable) (ss : List Symbol) (s : Symbol) :
    t.addAll (ss ++ [s]) = (t.addAll ss).add s := by
  unfold addAll
  rw [List.foldl_append]
  rfl

@[simp] theorem size_addAll : (t.addAll ss).symbols.size = t.symbols.size + ss.length := by
  induction ss using List.reverseRecOn with
  | nil => rfl
  | append_singleton ss s ih =>
    rw [addAll_concat, size_add, ih, List.length_append]
    rfl

@[simp] theorem depth_addAll : (t.addAll ss).depth = t.depth := by
  induction ss using List.reverseRecOn with
  | nil => rfl
  | append_singleton ss s ih => rw [addAll_concat, depth_add, ih]

theorem symbols_addAll : (t.addAll ss).symbols = t.symbols ++ ss.toArray := by
  induction ss using List.reverseRecOn with
  | nil => simp [addAll]
  | append_singleton ss s ih =>
    rw [addAll_concat]
    unfold add
    rw [ih]
    simp

theorem symbol_addAll_of_lt {h : Handle} (hh : h < t.symbols.size) :
    (t.addAll ss).symbol h = t.symbol h := by
  unfold symbol
  rw [symbols_addAll]
  simp [Array.getElem?_append, hh]

theorem symbol_addAll_append (pre : List Symbol) (x : Symbol) (post : List Symbol) :
    (t.addAll (pre ++ x :: post)).symbol (t.symbols.size + pre.length) = x := by
  unfold symbol
  rw [symbols_addAll]
  simp

theorem WellFormed.addAll (ht : t.WellFormed) (ss : List Symbol) : (t.addAll ss).WellFormed := by
  induction ss using List.reverseRecOn with
  | nil => exact ht
  | append_singleton ss s ih =>
    rw [addAll_concat]
    exact ih.add s

theorem Bounded.addAll (hb : t.Bounded) (hs : ∀ s ∈ ss, s.depth ≤ t.depth) :
    (t.addAll ss).Bounded := by
  induction ss using List.reverseRecOn with
  | nil => exact hb
  | append_singleton ss s ih =>
    rw [addAll_concat]
    refine (ih fun x hx => hs x (List.mem_append_left _ hx)).add ?_
    rw [depth_addAll]
    exact hs s (List.mem_append_right _ (List.mem_singleton_self s))

theorem get_namesAt_addAll (d : Int) :
    (t.addAll ss).namesAt.get d =
      t.namesAt.get d ++ (ss.filter fun s => s.depth = d).map Symbol.name := by
  induction ss using List.reverseRecOn with
  | nil => simp [addAll]
  | append_singleton ss s ih =>
    rw [addAll_concat, get_namesAt_add, List.filter_append, List.map_append, ← List.append_assoc]
    by_cases hd : d = s.depth
    · subst hd
      simp [ih]
    · simp [hd, Ne.symm hd, ih]

/-- The indexes are made of the names and depths of the symbols. -/
theorem indexes_addAll_congr {ss' : List Symbol} (hn : ss.map Symbol.name = ss'.map Symbol.name)
    (hd : ss.map Symbol.depth = ss'.map Symbol.depth) :
    (t.addAll ss).byName = (t.addAll ss').byName ∧
      (t.addAll ss).namesAt = (t.addAll ss').namesAt := by
  induction ss using List.reverseRecOn generalizing ss' with
  | nil =>
    cases ss' with
    | nil => exact ⟨rfl, rfl⟩
    | cons s' ss' => cases hn
  | append_singleton ss s ih =>
    rcases List.eq_nil_or_concat ss' with rfl | ⟨ss', s', rfl⟩
    · simp at hn
    · rw [List.concat_eq_append, List.map_append, List.map_append] at hn hd
      obtain ⟨hss, hs⟩ := List.append_inj' hn rfl
      obtain ⟨hdd, hds⟩ := List.append_inj' hd rfl
      obtain ⟨hbyName, hnamesAt⟩ := ih hss hdd
      have hlength : ss.length = ss'.length := by simpa using congrArg List.length hss
      rw [List.concat_eq_append, addAll_concat, addAll_concat]
      unfold add
      rw [hbyName, hnamesAt, size_addAll, size_addAll, hlength, List.singleton_inj.mp hs,
        List.singleton_inj.mp hds]
      exact ⟨rfl, rfl⟩

/-- To replace an added symbol by one of its name and depth is to have added the other one. -/
theorem set_addAll {x y : Symbol} (pre post : List Symbol) (hn : y.name = x.name)
    (hd : y.depth = x.depth) :
    (t.addAll (pre ++ x :: post)).set (t.symbols.size + pre.length) y =
      t.addAll (pre ++ y :: post) := by
  have hnames : (pre ++ x :: post).map Symbol.name = (pre ++ y :: post).map Symbol.name := by
    simp [hn]
  have hdepths : (pre ++ x :: post).map Symbol.depth = (pre ++ y :: post).map Symbol.depth := by
    simp [hd]
  have hsymbols : (t.addAll (pre ++ x :: post)).symbols.setIfInBounds
      (t.symbols.size + pre.length) y = (t.addAll (pre ++ y :: post)).symbols := by
    rw [symbols_addAll, symbols_addAll]
    apply Array.toList_inj.mp
    simp
  show SymbolTable.mk _ _ _ _ = SymbolTable.mk (t.addAll (pre ++ y :: post)).symbols
    (t.addAll (pre ++ y :: post)).byName (t.addAll (pre ++ y :: post)).namesAt
    (t.addAll (pre ++ y :: post)).depth
  obtain ⟨hbyName, hnamesAt⟩ := indexes_addAll_congr (t := t) hnames hdepths
  rw [hsymbols, hbyName, hnamesAt, depth_addAll, depth_addAll]

end AddAll

/-! ## The table of a procedure's head -/

/-- The table in which the scope of a procedure has been entered and symbols were added in it. -/
def scopeTable (b : SymbolTable) (name : String) (g : Signature) (ss : List Symbol) : SymbolTable :=
  b.enter.addAll (⟨name, b.depth, .func g⟩ :: ss)

section ScopeTable

variable {name : String} {g g' : Signature}

theorem enter_withFunction (b : SymbolTable) (name : String) :
    (b.withFunction name).enter = b.scopeTable name {} [] := by
  unfold withFunction
  rw [insert_set b ⟨name, b.depth, .func {}⟩]
  rfl

@[simp] theorem depth_scopeTable : (b.scopeTable name g ss).depth = b.depth + 1 := depth_addAll

@[simp] theorem size_scopeTable :
    (b.scopeTable name g ss).symbols.size = b.symbols.size + 1 + ss.length := by
  unfold scopeTable
  rw [size_addAll, List.length_cons, Nat.add_assoc, Nat.add_comm 1]
  rfl

theorem scopeTable_concat (s : Symbol) :
    b.scopeTable name g (ss ++ [s]) = (b.scopeTable name g ss).add s := by
  unfold scopeTable
  rw [← List.cons_append, addAll_concat]

theorem symbol_scopeTable_own : (b.scopeTable name g ss).symbol b.symbols.size =
    ⟨name, b.depth, .func g⟩ :=
  symbol_addAll_append [] _ ss

theorem symbol_scopeTable_append (pre : List Symbol) (x : Symbol) (post : List Symbol) :
    (b.scopeTable name g (pre ++ x :: post)).symbol (b.symbols.size + 1 + pre.length) = x := by
  rw [Nat.add_assoc, Nat.add_comm 1]
  exact symbol_addAll_append (⟨name, b.depth, .func g⟩ :: pre) x post

theorem symbol_scopeTable_of_lt {h : Handle} (hh : h < b.symbols.size) :
    (b.scopeTable name g ss).symbol h = b.symbol h :=
  symbol_addAll_of_lt hh

theorem set_scopeTable {x y : Symbol} (pre post : List Symbol) (hn : y.name = x.name)
    (hd : y.depth = x.depth) :
    (b.scopeTable name g (pre ++ x :: post)).set (b.symbols.size + 1 + pre.length) y =
      b.scopeTable name g (pre ++ y :: post) := by
  rw [Nat.add_assoc, Nat.add_comm 1]
  exact set_addAll (⟨name, b.depth, .func g⟩ :: pre) post hn hd

theorem set_scopeTable_own : (b.scopeTable name g ss).set b.symbols.size
    ⟨name, b.depth, .func g'⟩ = b.scopeTable name g' ss :=
  set_addAll [] ss rfl rfl

/-- To change symbols one by one is to have added the changed ones. -/
theorem foldl_set_scopeTable {f : Symbol → Symbol} (hn : ∀ x, (f x).name = x.name)
    (hd : ∀ x, (f x).depth = x.depth) (pre post : List Symbol) :
    (List.range' (b.symbols.size + 1 + pre.length) post.length).foldl
        (fun t h => t.set h (f (t.symbol h))) (b.scopeTable name g (pre ++ post)) =
      b.scopeTable name g (pre ++ post.map f) := by
  induction post generalizing pre with
  | nil => rfl
  | cons x post ih =>
    have hrest := ih (pre ++ [f x])
    rw [List.length_append, List.length_singleton, List.append_assoc, List.append_assoc,
      List.singleton_append, List.singleton_append, ← Nat.add_assoc] at hrest
    rw [List.length_cons, List.range'_succ, List.foldl_cons, symbol_scopeTable_append,
      set_scopeTable pre post (hn x) (hd x), hrest, List.map_cons]

/-- The symbols of the scope are those with the handles behind that of the function. -/
theorem symbolsOf_scopeTable : (b.scopeTable name g ss).symbolsOf
    (List.range' (b.symbols.size + 1) ss.length) = ss := by
  refine List.ext_getElem (by simp [symbolsOf]) fun i hi hi' => ?_
  have hsplit : ss = ss.take i ++ ss[i] :: ss.drop (i + 1) := by simp
  have hsymbol := @symbol_scopeTable_append b name g (ss.take i) ss[i] (ss.drop (i + 1))
  rw [← hsplit, List.length_take_of_le (Nat.le_of_lt hi')] at hsymbol
  simpa [symbolsOf] using hsymbol

section Sound

variable (hw : b.WellFormed) (hb : b.Bounded)
include hw

theorem WellFormed.scopeTable : (b.scopeTable name g ss).WellFormed :=
  (hw.setDepth (b.depth + 1)).addAll _

/-- As a function the name of the procedure leads to its own, if no function was added behind it. -/
theorem lookupKind?_scopeTable (hss : ∀ s ∈ ss, s.kind? ≠ some .func) :
    (b.scopeTable name g ss).lookupKind? name .func = some b.symbols.size := by
  induction ss using List.reverseRecOn with
  | nil =>
    unfold lookupKind? findLast? SymbolTable.scopeTable addAll
    rw [List.foldl_cons, List.foldl_nil, get_byName_add, if_pos rfl, List.reverse_append,
      List.reverse_singleton, List.singleton_append, List.find?_cons_of_pos]
    · rfl
    · rw [symbol_add]
      exact decide_eq_true (by rw [if_pos rfl]; rfl)
  | append_singleton ss s ih =>
    have hold := ih fun x hx => hss x (List.mem_append_left _ hx)
    have hfunc := hss s (List.mem_append_right _ (List.mem_singleton_self s))
    have hwt : (b.scopeTable name g ss).WellFormed := hw.scopeTable
    unfold lookupKind? findLast? at hold ⊢
    rw [scopeTable_concat, get_byName_add]
    have hsame : ((b.scopeTable name g ss).byName.get name).reverse.find? (fun h =>
        (((b.scopeTable name g ss).add s).symbol h).kind? = some .func) = some b.symbols.size := by
      rw [← hold]
      refine List.find?_congr fun h hm => ?_
      rw [symbol_add, if_neg (hwt.ne_size (List.mem_reverse.mp hm))]
    split
    · next hname =>
      rw [← hname, List.reverse_append, List.reverse_singleton, List.singleton_append,
        List.find?_cons_of_neg]
      · exact hsame
      · rw [symbol_add, if_pos rfl]
        simpa using hfunc
    · exact hsame

include hb

variable (hss : ∀ s ∈ ss, s.depth = b.depth + 1)
include hss

omit hw in
theorem Bounded.scopeTable : (b.scopeTable name g ss).Bounded := by
  have henter : b.enter.Bounded := fun y h hm => by
    have hle : (b.symbol h).depth ≤ b.depth := hb y h hm
    show (b.symbol h).depth ≤ b.depth + 1
    omega
  refine henter.addAll fun s hs => ?_
  show s.depth ≤ b.depth + 1
  rcases List.mem_cons.mp hs with rfl | hs
  · show b.depth ≤ b.depth + 1
    omega
  · exact Int.le_of_eq (hss s hs)

theorem namesAt_scopeTable :
    (b.scopeTable name g ss).namesAt.get (b.depth + 1) = ss.map Symbol.name := by
  have hnil : b.enter.namesAt.get (b.depth + 1) = [] := hw.namesAt_eq_nil hb (Int.lt_succ b.depth)
  have hfilter : ss.filter (fun s => s.depth = b.depth + 1) = ss :=
    List.filter_eq_self.mpr fun s hs => by simpa using hss s hs
  unfold SymbolTable.scopeTable
  rw [get_namesAt_addAll, hnil, List.filter_cons_of_neg (by simp), hfilter, List.nil_append]

variable (hname : name ∉ b.namesAt.get b.depth) (hnodup : (ss.map Symbol.name).Nodup)
include hname hnodup

/-- The declarations of the scope and of the scopes around it. -/
theorem entriesAt_scopeTable (d : Int) : (b.scopeTable name g ss).entriesAt d =
    b.entriesAt d ++ (if d = b.depth then [b.symbols.size] else []) ++
      if d = b.depth + 1 then List.range' (b.symbols.size + 1) ss.length else [] := by
  induction ss using List.reverseRecOn with
  | nil =>
    refine ((hw.setDepth (b.depth + 1)).entriesAt_add (s := ⟨name, b.depth, .func g⟩)
      hname d).trans ?_
    rw [List.length_nil, List.range'_zero, ite_self, List.append_nil]
    rfl
  | append_singleton ss s ih =>
    have hdepth := hss s (List.mem_append_right _ (List.mem_singleton_self s))
    have hold : ∀ x ∈ ss, x.depth = b.depth + 1 := fun x hx => hss x (List.mem_append_left _ hx)
    rw [List.map_append, List.nodup_append] at hnodup
    have hnew : s.name ∉ (b.scopeTable name g ss).namesAt.get s.depth := by
      rw [hdepth, namesAt_scopeTable hw hb hold]
      exact fun hm => hnodup.2.2 _ hm _ (List.mem_singleton_self _) rfl
    have hwt : (b.scopeTable name g ss).WellFormed := hw.scopeTable
    rw [scopeTable_concat, hwt.entriesAt_add hnew, ih hold hnodup.1, hdepth]
    by_cases hd : d = b.depth + 1
    · simp [hd, List.range'_concat]
    · simp [hd]

end Sound

end ScopeTable

/-! ## What nested procedures leave -/

/-- The scope of `t` has the new symbols more in `t'`. What `t` had is as it was. -/
structure Extends (t t' : SymbolTable) (new : List Symbol) : Prop where
  wellFormed : t'.WellFormed
  bounded : t'.Bounded
  depth : t'.depth = t.depth
  size_le : t.symbols.size ≤ t'.symbols.size
  kept : ∀ h < t.symbols.size, t'.symbol h = t.symbol h
  around : ∀ d < t.depth, t'.entriesAt d = t.entriesAt d
  entries : ∃ hs, t'.entriesAt t.depth = t.entriesAt t.depth ++ hs ∧ t'.symbolsOf hs = new

theorem WellFormed.lt_size_of_mem_entriesAt (hw : t.WellFormed) {d : Int} {h : Handle}
    (hm : h ∈ t.entriesAt d) : h < t.symbols.size := by
  obtain ⟨y, hlisted, -⟩ := hw.mem_entriesAt_iff.mp hm
  exact hw.handle_lt hlisted

namespace Extends

variable {new new' : List Symbol}

theorem refl (hw : t.WellFormed) (hb : t.Bounded) : Extends t t [] :=
  ⟨hw, hb, rfl, Nat.le_refl _, fun _ _ => rfl, fun _ _ => rfl, [], (List.append_nil _).symm, rfl⟩

theorem trans (h : Extends t t' new) (h' : Extends t' t'' new') :
    Extends t t'' (new ++ new') := by
  obtain ⟨hs, hentries, hsymbols⟩ := h.entries
  obtain ⟨hs', hentries', hsymbols'⟩ := h'.entries
  refine ⟨h'.wellFormed, h'.bounded, h'.depth.trans h.depth, Nat.le_trans h.size_le h'.size_le,
    fun x hx => ?_, fun d hd => ?_, hs ++ hs', ?_, ?_⟩
  · rw [h'.kept x (Nat.lt_of_lt_of_le hx h.size_le), h.kept x hx]
  · rw [h'.around d (h.depth ▸ hd), h.around d hd]
  · rw [← h.depth, hentries', h.depth, hentries, List.append_assoc]
  · have hsame : t''.symbolsOf hs = t'.symbolsOf hs := by
      refine List.map_congr_left fun x hx => h'.kept x ?_
      refine h.wellFormed.lt_size_of_mem_entriesAt (d := t.depth) ?_
      rw [hentries]
      exact List.mem_append_right _ hx
    rw [← hsymbols, ← hsymbols', ← hsame]
    exact List.map_append

section Scope

variable {name : String} {g : Signature} (hw : b.WellFormed) (hb : b.Bounded)
  (hname : name ∉ b.namesAt.get b.depth) (hss : ∀ s ∈ ss, s.depth = b.depth + 1)
  (hnodup : (ss.map Symbol.name).Nodup) (h : Extends (b.scopeTable name g ss) t new)
include hw hb hname hss hnodup h

/-- Before it is left the scope holds its symbols and then those that were left in it. -/
theorem symbolsOf_entriesAt : t.symbolsOf (t.entriesAt t.depth) = ss ++ new := by
  obtain ⟨hs, hentries, hsymbols⟩ := h.entries
  have hnil : b.entriesAt (b.depth + 1) = [] := by
    unfold entriesAt
    rw [hw.namesAt_eq_nil hb (Int.lt_succ b.depth)]
    rfl
  rw [depth_scopeTable, entriesAt_scopeTable hw hb hss hname hnodup, hnil, if_pos rfl,
    if_neg (by omega), List.nil_append, List.nil_append] at hentries
  rw [h.depth, depth_scopeTable, hentries]
  unfold symbolsOf at hsymbols ⊢
  rw [List.map_append, hsymbols]
  congr 1
  refine Eq.trans (List.map_congr_left fun x hx => h.kept x ?_)
    (@symbolsOf_scopeTable b ss name g)
  rw [List.mem_range'_1] at hx
  rw [size_scopeTable]
  exact hx.2

/-- The name of the procedure leads to its function in the scope around. -/
theorem lookupAt?_own : t.lookupAt? name b.depth = some b.symbols.size ∧
    t.symbol b.symbols.size = ⟨name, b.depth, .func g⟩ := by
  have hown : t.symbol b.symbols.size = ⟨name, b.depth, .func g⟩ := by
    rw [h.kept _ (by rw [size_scopeTable]; omega), symbol_scopeTable_own]
  have hentries := h.around b.depth (by rw [depth_scopeTable]; omega)
  rw [entriesAt_scopeTable hw hb hss hname hnodup, if_pos rfl, if_neg (by omega),
    List.append_nil] at hentries
  have hlisted : b.symbols.size ∈ t.byName.get name := by
    have hm : b.symbols.size ∈ t.entriesAt b.depth := by
      rw [hentries]
      exact List.mem_append_right _ (List.mem_singleton_self _)
    obtain ⟨y, hlisted, -⟩ := h.wellFormed.mem_entriesAt_iff.mp hm
    obtain rfl : name = y := by
      rw [← h.wellFormed.name_eq hlisted, hown]
    exact hlisted
  refine ⟨?_, hown⟩
  have hsome : (t.lookupAt? name b.depth).isSome :=
    (isSome_lookupAt? t name b.depth).mpr ⟨_, hlisted, by rw [hown]⟩
  obtain ⟨f, hf⟩ := Option.isSome_iff_exists.mp hsome
  have hdepth : (t.symbol f).depth = b.depth := by simpa using List.find?_some hf
  have hm : f ∈ t.entriesAt b.depth :=
    h.wellFormed.mem_entriesAt_iff.mpr ⟨name, mem_of_findLast? hf, hdepth⟩
  rw [hf, Option.some_inj]
  rw [hentries, List.mem_append, List.mem_singleton] at hm
  refine hm.resolve_left fun hold => ?_
  -- the name was not declared there before
  obtain ⟨y, hlisted', hdepth'⟩ := hw.mem_entriesAt_iff.mp hold
  have hlt := hw.handle_lt hlisted'
  have hname' := h.wellFormed.name_eq (mem_of_findLast? hf)
  have hlt' : f < (b.scopeTable name g ss).symbols.size := by
    rw [size_scopeTable]
    exact Nat.lt_add_right _ (Nat.lt_succ_of_lt hlt)
  rw [h.kept f hlt', symbol_scopeTable_of_lt hlt,
    hw.name_eq hlisted'] at hname'
  exact hname (hw.filed.mpr ⟨f, hname' ▸ hlisted', hdepth'⟩)

/-- When the scope has been left the function of the procedure is what the scope around has got
more. -/
theorem leave : Extends b t.leave [⟨name, b.depth, .func g⟩] := by
  obtain ⟨-, hown⟩ := lookupAt?_own hw hb hname hss hnodup h
  have hdepth : t.depth = b.depth + 1 := h.depth.trans depth_scopeTable
  have hentries : ∀ d, d ≠ t.depth → t.leave.entriesAt d = t.entriesAt d := by
    intro d hd
    have hnames : t.leave.namesAt.get d = t.namesAt.get d :=
      (get_namesAt_deleteDepth t t.depth d).trans (if_neg hd)
    unfold entriesAt
    rw [hnames]
    refine List.flatMap_congr fun y _ => ?_
    have hget : t.leave.byName.get y = _ := h.wellFormed.get_byName_deleteDepth t.depth y
    rw [hget, List.filter_filter]
    refine List.filter_congr fun x _ => ?_
    have hsymbol : t.leave.symbol x = t.symbol x := symbol_deleteDepth t t.depth x
    rw [hsymbol]
    by_cases hx : (t.symbol x).depth = d
    · simp [hx, hd]
    · simp [hx]
  have hscope := entriesAt_scopeTable (g := g) hw hb hss hname hnodup
  refine ⟨(h.wellFormed.deleteDepth _).setDepth _, fun y x hx => ?_, ?_, ?_, fun x hx => ?_,
    fun d hd => ?_, [b.symbols.size], ?_, ?_⟩
  · obtain ⟨hm, hne⟩ := h.wellFormed.mem_deleteDepth_iff.mp hx
    have hsymbol : t.leave.symbol x = t.symbol x := symbol_deleteDepth t t.depth x
    have hle := h.bounded y x hm
    rw [hsymbol]
    show (t.symbol x).depth ≤ t.depth - 1
    omega
  · show t.depth - 1 = b.depth
    omega
  · show b.symbols.size ≤ (t.deleteDepth t.depth).symbols.size
    rw [size_deleteDepth]
    have hle := h.size_le
    rw [size_scopeTable] at hle
    omega
  · have hsymbol : t.leave.symbol x = t.symbol x := symbol_deleteDepth t t.depth x
    rw [hsymbol, h.kept x (by rw [size_scopeTable]; omega), symbol_scopeTable_of_lt hx]
  · rw [hentries d (by omega), h.around d (by rw [depth_scopeTable]; omega), hscope,
      if_neg (by omega), if_neg (by omega), List.append_nil, List.append_nil]
  · rw [hentries _ (by omega), h.around _ (by rw [depth_scopeTable]; omega), hscope, if_pos rfl,
      if_neg (by omega), List.append_nil]
  · have hsymbol : t.leave.symbol b.symbols.size = t.symbol b.symbols.size :=
      symbol_deleteDepth t t.depth _
    show [t.leave.symbol b.symbols.size] = _
    rw [hsymbol, hown]

end Scope

end Extends

end ProcLang.SymbolTable
