import ProcLang.Proofs.Standing

/-!
# Attributing names

The steps that attribute and place declared names take no tokens. Where the pending names and the
function are what the analysis takes them for, these steps cannot fail: no attribute of another kind
is read or written, and every symbol that is entered into the listing has a row.
-/

namespace ProcLang

/-! ## Operations on one symbol -/

namespace Symbol

variable {s : Symbol}

theorem modifyFunction_eq_ok (h : s.kind? = some .func) (f : Signature → Signature) :
    ∃ s', s.modifyFunction f = .ok s' ∧ s.Refines s' := by
  obtain ⟨name, depth, attributes⟩ := s
  cases attributes with
  | func g => exact ⟨_, rfl, rfl, rfl, Or.inl ⟨rfl, rfl⟩⟩
  | _ => cases h

theorem modifyStorage_eq_ok (h : s.valueType?.isSome) {f : Storage → Storage}
    (hf : ∀ storage, (f storage).type = storage.type) :
    ∃ s', s.modifyStorage f = .ok s' ∧ s.Refines s' := by
  obtain ⟨name, depth, attributes⟩ := s
  cases attributes with
  | var storage => exact ⟨_, rfl, rfl, rfl, Or.inl ⟨rfl, hf storage⟩⟩
  | const storage value => exact ⟨_, rfl, rfl, rfl, Or.inl ⟨rfl, hf storage⟩⟩
  | _ => cases h

theorem setOffset_eq_ok (h : s.valueType?.isSome) (offset : Int) :
    ∃ s', s.setOffset offset = .ok s' ∧ s.Refines s' :=
  modifyStorage_eq_ok h fun _ => rfl

theorem setParameter_eq_ok (h : s.valueType?.isSome) (flag : Bool) :
    ∃ s', s.setParameter flag = .ok s' ∧ s.Refines s' :=
  modifyStorage_eq_ok h fun _ => rfl

theorem storage_eq_ok (h : s.valueType?.isSome) :
    s.kind? ≠ some .func ∧ ∃ storage, s.storage = .ok storage := by
  obtain ⟨name, depth, attributes⟩ := s
  cases attributes with
  | var storage => exact ⟨nofun, storage, rfl⟩
  | const storage value => exact ⟨nofun, storage, rfl⟩
  | _ => cases h

theorem size_eq_ok (h : s.valueType?.isSome) : ∃ size, s.size = .ok size := by
  obtain ⟨-, storage, hs⟩ := storage_eq_ok h
  exact ⟨storage.size, by rw [size, hs]; rfl⟩

theorem isParameter_eq_ok (h : s.valueType?.isSome) : ∃ flag, s.isParameter = .ok flag := by
  obtain ⟨hfunc, storage, hs⟩ := storage_eq_ok h
  exact ⟨storage.isParameter, by rw [isParameter, if_neg hfunc, hs]; rfl⟩

/-- What has no attributes yet gets those of a type, and what has a type keeps them. -/
theorem refines_giveAttributes {attributes : Attributes}
    (h : s.kind? = none ∨ s.valueType?.isSome)
    (ha : ∀ name depth, (⟨name, depth, attributes⟩ : Symbol).valueType?.isSome) :
    s.Refines (s.giveAttributes attributes) ∧ (s.giveAttributes attributes).valueType?.isSome := by
  unfold giveAttributes
  by_cases hu : s.attributes = .unset
  · rw [if_pos hu]
    exact ⟨⟨rfl, rfl, Or.inr ⟨kind?_eq_none.mpr hu, ha _ _⟩⟩, ha _ _⟩
  · rw [if_neg hu]
    exact ⟨.refl s, h.resolve_left fun hk => hu (kind?_eq_none.mp hk)⟩

end Symbol

namespace SymbolTable

variable {b t : SymbolTable} {pending : List Handle}

/-- A pending symbol has no attributes or a type. -/
theorem Waiting.unset_or_typed (hp : Waiting b t pending) {h : Handle} (hm : h ∈ pending) :
    (t.symbol h).kind? = none ∨ (t.symbol h).valueType?.isSome := by
  have hshown := hp.shown _ h (hp.listed h hm) (hp.new h hm)
  have hno := hp.noFunction h hm
  unfold Symbol.kind? Attributes.kind? at *
  unfold Symbol.isShowable at hshown
  unfold Symbol.valueType?
  cases ha : (t.symbol h).attributes <;> simp_all

theorem refined_foldl_giveAttributes {n : Nat} {attributes : Attributes}
    (ha : ∀ name depth, (⟨name, depth, attributes⟩ : Symbol).valueType?.isSome)
    {hs : List Handle} (hn : ∀ h ∈ hs, n ≤ h ∧ h < t.symbols.size)
    (hk : ∀ h ∈ hs, (t.symbol h).kind? = none ∨ (t.symbol h).valueType?.isSome) :
    Refined n t (hs.foldl (fun t h => t.set h ((t.symbol h).giveAttributes attributes)) t) ∧
      ∀ h ∈ hs, ((hs.foldl (fun t h => t.set h ((t.symbol h).giveAttributes attributes)) t).symbol
        h).valueType?.isSome := by
  induction hs generalizing t with
  | nil => exact ⟨.refl n t, fun _ h => absurd h List.not_mem_nil⟩
  | cons h rest ih =>
    obtain ⟨hnew, hlt⟩ := hn h List.mem_cons_self
    obtain ⟨hrefines, htyped⟩ :=
      Symbol.refines_giveAttributes (hk h List.mem_cons_self) ha
    have hset : Refined n t (t.set h ((t.symbol h).giveAttributes attributes)) :=
      .set hnew hrefines
    have hrest := ih (t := t.set h ((t.symbol h).giveAttributes attributes))
      (fun h' hm => by
        rw [size_set]
        exact hn h' (List.mem_cons_of_mem _ hm))
      (fun h' hm => by
        rcases (hset.refines h').attributes with ⟨hkind, htype⟩ | ⟨-, htype⟩
        · rw [hkind, htype]
          exact hk h' (List.mem_cons_of_mem _ hm)
        · exact Or.inr htype)
    rw [List.foldl_cons]
    refine ⟨hset.trans hrest.1, fun h' hm => ?_⟩
    rcases List.mem_cons.mp hm with rfl | hm
    · refine (hrest.1.refines h').typed ?_
      rwa [symbol_set, if_pos ⟨rfl, hlt⟩]
    · exact hrest.2 h' hm

end SymbolTable

namespace Analysis

open SymbolTable (Refined Waiting Owns)

variable {b s : State} {name : String} {f h : Handle}

/-- The step cannot fail. -/
abbrev never : Failure → State → Prop := fun _ _ => False

/-- All pending names have got their types. -/
def AllTyped (s : State) : Prop := ∀ h ∈ s.pending, (s.table.symbol h).valueType?.isSome

theorem Rewrites.typed {s' : State} (hr : Rewrites b s s')
    (ht : (s.table.symbol h).valueType?.isSome) : (s'.table.symbol h).valueType?.isSome :=
  (hr.table.refines h).typed ht

theorem Rewrites.allTyped {s' : State} (hr : Rewrites b s s') (ht : AllTyped s) : AllTyped s' :=
  fun _ hm => hr.typed (ht _ (hr.pending ▸ hm))

theorem Rewrites.owns {s' : State} (hr : Rewrites b s s') (ho : Owns b.table s.table name f) :
    Owns b.table s'.table name f :=
  ho.refined hr.table

/-! ## Single steps -/

theorem ends_symbol {ok : Symbol → State → Prop} {bad : Failure → State → Prop} :
    Ends (symbol h) s ok bad ↔ ok (s.table.symbol h) s := Iff.rfl

theorem ends_liftSymbol {α : Type} {r : Except SymbolError α} {a : α} {ok : α → State → Prop}
    {bad : Failure → State → Prop} (hr : r = .ok a) : Ends (liftSymbol r) s ok bad ↔ ok a s := by
  rw [hr]
  exact Iff.rfl

theorem ends_updateSymbol {change : Symbol → Except SymbolError Symbol}
    (hn : b.table.symbols.size ≤ h)
    (hc : ∃ s', change (s.table.symbol h) = .ok s' ∧ (s.table.symbol h).Refines s') :
    Ends (updateSymbol h change) s (fun _ s' => Rewrites b s s') never := by
  obtain ⟨s', hok, hrefines⟩ := hc
  unfold updateSymbol
  rw [ends_bind, ends_symbol, ends_bind, ends_liftSymbol hok]
  exact ⟨rfl, rfl, rfl, rfl, .set hn hrefines⟩

theorem ends_functionNamed (ho : Owns b.table s.table name f) :
    Ends (functionNamed name) s (fun h s' => h = f ∧ s' = s) never := by
  unfold functionNamed
  rw [ends_bind, ends_get, ho.found]
  exact ⟨rfl, rfl⟩

theorem ends_needRow {symbol : Symbol} (hs : symbol.isShowable) :
    Ends (needRow symbol) s (fun _ s' => s' = s) never := by
  unfold needRow
  rw [if_pos hs]
  exact rfl

theorem ends_logDeclared (ht : (s.table.symbol h).valueType?.isSome) :
    Ends (logDeclared h) s (fun _ s' => Rewrites b s s') never := by
  obtain ⟨flag, hflag⟩ := Symbol.isParameter_eq_ok ht
  unfold logDeclared
  rw [ends_bind, ends_symbol, ends_bind, ends_liftSymbol hflag]
  refine (ends_needRow (Symbol.isShowable_of_typed ht)).andThen ?_
  rintro - s' rfl
  exact ⟨rfl, rfl, rfl, rfl, .refl _ _⟩

/-! ## Repetition over handles -/

/-- A step for each of some handles, where every step may rely on what the earlier ones have not
changed. -/
theorem ends_forM {step : Handle → Analysis Unit} {hs : List Handle}
    (hstep : ∀ h ∈ hs, ∀ s', Rewrites b s s' → Ends (step h) s' (fun _ => Rewrites b s') never) :
    Ends (hs.forM step) s (fun _ => Rewrites b s) never := by
  induction hs generalizing s with
  | nil => exact .refl b s
  | cons h rest ih =>
    show Ends (step h >>= fun _ => rest.forM step) s _ _
    refine (hstep h List.mem_cons_self s (.refl b s)).andThen ?_
    rintro - s₁ h₁
    refine (ih fun h' hm s' hr => ?_).mono (fun _ s₂ h₂ => h₁.trans h₂) fun _ _ h => h
    exact hstep h' (List.mem_cons_of_mem _ hm) s' (h₁.trans hr)

theorem ends_foldlM {α : Type} {step : α → Handle → Analysis α} {hs : List Handle}
    (hstep : ∀ h ∈ hs, ∀ a s', Rewrites b s s' →
      Ends (step a h) s' (fun _ => Rewrites b s') never) (a : α) :
    Ends (hs.foldlM step a) s (fun _ => Rewrites b s) never := by
  induction hs generalizing s a with
  | nil => exact .refl b s
  | cons h rest ih =>
    rw [List.foldlM_cons]
    refine (hstep h List.mem_cons_self a s (.refl b s)).andThen ?_
    rintro a' s₁ h₁
    refine (ih (fun h' hm a s' hr => ?_) a').mono (fun _ s₂ h₂ => h₁.trans h₂) fun _ _ h => h
    exact hstep h' (List.mem_cons_of_mem _ hm) a s' (h₁.trans hr)

/-! ## The pending names -/

/-- After a type mark all pending names have types. -/
theorem ends_attributePending (hp : Waiting b.table s.table s.pending) (hw : s.table.WellFormed)
    {attributes : Attributes}
    (ha : ∀ name depth, (⟨name, depth, attributes⟩ : Symbol).valueType?.isSome) :
    Ends (attributePending attributes) s (fun _ s' => Rewrites b s s' ∧ AllTyped s') never := by
  obtain ⟨hrefined, htyped⟩ := SymbolTable.refined_foldl_giveAttributes ha
    (fun h hm => ⟨hp.new h hm, hw.handle_lt (hp.listed h hm)⟩) (fun h hm => hp.unset_or_typed hm)
  exact ⟨⟨rfl, rfl, rfl, rfl, hrefined⟩, htyped⟩

section Placing

variable (hp : ∀ h ∈ s.pending, b.table.symbols.size ≤ h) (ht : AllTyped s)
  (ho : Owns b.table s.table name f)
include hp ht ho

theorem ends_recordParameters (mode : Mode) :
    Ends (recordParameters f mode) s (fun _ s' => Rewrites b s s') never := by
  unfold recordParameters
  rw [ends_bind, ends_get]
  refine (ends_forM (b := b) fun h hm s₁ hr => ?_).andThen ?_
  · have hm := List.mem_of_mem_drop hm
    have htyped := hr.typed (ht h hm)
    obtain ⟨type, htype⟩ := Option.isSome_iff_exists.mp htyped
    unfold recordParameter
    rw [ends_bind, ends_symbol, htype]
    refine (ends_updateSymbol (b := b) ho.new
      (Symbol.modifyFunction_eq_ok (hr.owns ho).kind_eq _)).andThen ?_
    rintro - s₂ h₂
    refine (ends_updateSymbol (b := b) (hp h hm)
      (Symbol.setParameter_eq_ok (h₂.typed htyped) true)).imp ?_
    exact fun _ s₃ h₃ => h₂.trans h₃
  · rintro - s₁ ⟨hsource, hcurrent, hmatched, hpending, htable⟩
    exact ⟨hsource, hcurrent, hmatched, hpending, htable⟩

omit ho in
theorem ends_placeLocal (hm : h ∈ s.pending) :
    Ends (placeLocal h) s (fun _ s' => Rewrites b s s') never := by
  unfold placeLocal
  rw [ends_bind, ends_get]
  refine (ends_updateSymbol (b := b) (hp h hm)
    (Symbol.setOffset_eq_ok (ht h hm) _)).andThen ?_
  rintro - s₁ h₁
  obtain ⟨size, hsize⟩ := Symbol.size_eq_ok (h₁.typed (ht h hm))
  rw [ends_bind, ends_symbol, ends_bind, ends_liftSymbol hsize, ends_bind, ends_modify]
  refine (ends_logDeclared (b := b) (s := { s₁ with nextOffset := s.nextOffset + size })
    (h₁.typed (ht h hm))).imp ?_
  exact fun _ s₂ h₂ => h₁.trans ⟨h₂.source, h₂.current, h₂.matched, h₂.pending, h₂.table⟩

theorem ends_placeLocals :
    Ends (placeLocals f) s
      (fun _ s' => ∃ s₁, Rewrites b s s₁ ∧ s' = { s₁ with pending := [] }) never := by
  unfold placeLocals
  rw [ends_bind, ends_get]
  refine (ends_forM (b := b) fun h hm s₁ hr => ?_).andThen ?_
  · exact ends_placeLocal (fun h' hm' => hp h' (hr.pending ▸ hm')) (hr.allTyped ht)
      (hr.pending ▸ hm)
  · rintro - s₁ h₁
    rw [ends_bind, ends_get]
    refine (ends_updateSymbol (b := b) ho.new
      (Symbol.modifyFunction_eq_ok (h₁.owns ho).kind_eq _)).andThen ?_
    rintro - s₂ h₂
    exact ⟨s₂, h₁.trans h₂, rfl⟩

theorem ends_placeParameters :
    Ends (placeParameters name) s
      (fun _ s' => ∃ s₁, Rewrites b s s₁ ∧ s' = { s₁ with pending := [] }) never := by
  unfold placeParameters
  rw [ends_bind, ends_get]
  refine (ends_foldlM (b := b) (fun h hm offset s₁ hr => ?_) headerSize).andThen ?_
  · have hm := List.mem_reverse.mp hm
    have htyped := hr.typed (ht h hm)
    unfold placeParameter
    refine (ends_updateSymbol (b := b) (hp h hm)
      (Symbol.setOffset_eq_ok htyped offset)).andThen ?_
    rintro - s₂ h₂
    obtain ⟨size, hsize⟩ := Symbol.size_eq_ok (h₂.typed htyped)
    rw [ends_bind, ends_symbol, ends_bind, ends_liftSymbol hsize]
    exact h₂
  · rintro top s₁ h₁
    refine (ends_functionNamed (h₁.owns ho)).andThen ?_
    rintro h s₂ ⟨rfl, rfl⟩
    refine (ends_updateSymbol (b := b) ho.new
      (Symbol.modifyFunction_eq_ok (h₁.owns ho).kind_eq _)).andThen ?_
    rintro - s₃ h₃
    refine (ends_forM (b := b) fun h' hm s₄ hr => ?_).andThen ?_
    · exact ends_logDeclared (hr.typed (h₃.typed (h₁.typed (ht h' hm))))
    · rintro - s₄ h₄
      exact ⟨s₄, (h₁.trans h₃).trans h₄, rfl⟩

end Placing

end Analysis

end ProcLang
