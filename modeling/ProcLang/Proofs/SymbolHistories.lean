import ProcLang.Proofs.Table
import ProcLang.Analysis.State

/-!
# Histories of symbols

Symbols are read and written one access at a time. An access is allowed or not by the kind of its
symbol (`Access.IsAllowed`); where it is not, it fails and changes nothing (`Access.attempt_cases`).
So whatever accesses are tried, the kind of a symbol is set at most once, and what is read is what was
written last, in whichever way it was written (`consistent_history`).
-/

namespace ProcLang

open Numeral (Value)

/-! ## Accesses -/

/-- A change of one field of a storage. -/
inductive StorageWrite where
  | type (t : Option ValueType)
  | size (n : Int)
  | offset (n : Int)
  | isParameter (flag : Bool)
  deriving DecidableEq, Repr

/-- The storage with the field changed. -/
def StorageWrite.apply : StorageWrite → Storage → Storage
  | type t, storage => { storage with type := t }
  | size n, storage => { storage with size := n }
  | offset n, storage => { storage with offset := n }
  | isParameter flag, storage => { storage with isParameter := flag }

/-- What can be done with a symbol: setting its kind, reading and writing the attributes of one kind,
setting and reading what variables and constants have in common, and showing it. -/
inductive Access where
  | setKind (kind : SymbolKind)
  | readVariable
  | readConstant
  | readFunction
  | writeVariable (write : StorageWrite)
  | writeConstant (write : StorageWrite)
  | writeValue (value : Value)
  | writeFunction (f : Signature → Signature)
  | setOffset (n : Int)
  | setParameter (flag : Bool)
  | readOffset
  | readSize
  | readParameter
  | readType
  | readRow

/-- What an access gives. -/
inductive Reply where
  | done
  | storage (storage : Storage)
  | constant (storage : Storage) (value : Value)
  | signature (signature : Signature)
  | number (n : Int)
  | flag (flag : Bool)
  | type (t : Option ValueType)
  | text (text : String)
  deriving DecidableEq, Repr

namespace Access

/-- Changes the symbol of a handle. -/
def change (h : Handle) (f : Symbol → Except SymbolError Symbol) : Analysis Reply := do
  Analysis.updateSymbol h f
  return .done

/-- Reads something of the symbol of a handle. -/
def ask (h : Handle) (f : Symbol → Except SymbolError Reply) : Analysis Reply := do
  Analysis.liftSymbol (f (← Analysis.symbol h))

/-- The access to the symbol of a handle. -/
def perform (h : Handle) : Access → Analysis Reply
  | setKind kind => change h (·.setKind kind)
  | readVariable => ask h fun s => s.asVariable.map .storage
  | readConstant => ask h fun s => s.asConstant.map fun c => .constant c.1 c.2
  | readFunction => ask h fun s => s.asFunction.map .signature
  | writeVariable write => change h (·.modifyVariable write.apply)
  | writeConstant write => change h (·.modifyConstant fun c => (write.apply c.1, c.2))
  | writeValue value => change h (·.modifyConstant fun c => (c.1, value))
  | writeFunction f => change h (·.modifyFunction f)
  | setOffset n => change h (·.setOffset n)
  | setParameter flag => change h (·.setParameter flag)
  | readOffset => ask h fun s => s.offset.map .number
  | readSize => ask h fun s => s.size.map .number
  | readParameter => ask h fun s => s.isParameter.map .flag
  | readType => ask h fun s => .ok (.type s.valueType?)
  | readRow => do
    let s ← Analysis.symbol h
    Analysis.needRow s
    return .text s.row

/-- Tries an access. What it did to the state stays done if it fails. -/
def attempt (h : Handle) (a : Access) (s : State) : Except Failure Reply × State :=
  match a.perform h s with
  | .ok reply s' => (.ok reply, s')
  | .error failure s' => (.error failure, s')

/-- Whether the access is allowed with a symbol. -/
def IsAllowed (s : Symbol) : Access → Prop
  | setKind _ => s.kind? = none
  | readVariable | writeVariable _ => s.kind? = some .var
  | readConstant | writeConstant _ | writeValue _ => s.kind? = some .const
  | readFunction | writeFunction _ => s.kind? = some .func
  | setOffset _ | setParameter _ | readOffset | readSize =>
    s.kind? = some .var ∨ s.kind? = some .const
  | readParameter => s.kind? ≠ none
  | readType => True
  | readRow => s.isShowable

end Access

/-! ## Operations on one symbol -/

namespace Attributes

/-- The storage among the attributes, or that of a new variable or constant. -/
def stored : Attributes → Storage
  | var storage => storage
  | const storage _ => storage
  | _ => {}

/-- The value among the attributes, or that of a new constant. -/
def valued : Attributes → Value
  | const _ value => value
  | _ => .integer 0

/-- The signature among the attributes, or that of a new function. -/
def signed : Attributes → Signature
  | func signature => signature
  | _ => {}

/-- The attributes with their storage changed. -/
def modifyStored (f : Storage → Storage) : Attributes → Attributes
  | var storage => var (f storage)
  | const storage value => const (f storage) value
  | attributes => attributes

end Attributes

/-- The result is the value exactly under the condition, and a failure otherwise. -/
def GivenIf {α : Type} (p : Prop) (result : Except SymbolError α) (value : α) : Prop :=
  p ∧ result = .ok value ∨ ¬ p ∧ ∃ e, result = .error e

theorem GivenIf.map {α β : Type} {p : Prop} {result : Except SymbolError α} {value : α}
    (h : GivenIf p result value) (f : α → β) : GivenIf p (result.map f) (f value) := by
  rcases h with ⟨hp, rfl⟩ | ⟨hp, e, rfl⟩
  · exact Or.inl ⟨hp, rfl⟩
  · exact Or.inr ⟨hp, e, rfl⟩

namespace Symbol

variable (s : Symbol)

theorem setKind_givenIf (kind : SymbolKind) :
    GivenIf (s.kind? = none) (s.setKind kind) { s with attributes := .ofKind kind } := by
  unfold setKind
  cases s.kind? with
  | none => exact Or.inl ⟨rfl, rfl⟩
  | some old => exact Or.inr ⟨nofun, _, rfl⟩

theorem asVariable_givenIf :
    GivenIf (s.kind? = some .var) s.asVariable s.attributes.stored := by
  unfold asVariable kind?
  cases s.attributes with
  | var storage => exact Or.inl ⟨rfl, rfl⟩
  | _ => exact Or.inr ⟨nofun, _, rfl⟩

theorem asConstant_givenIf : GivenIf (s.kind? = some .const) s.asConstant
    (s.attributes.stored, s.attributes.valued) := by
  unfold asConstant kind?
  cases s.attributes with
  | const storage value => exact Or.inl ⟨rfl, rfl⟩
  | _ => exact Or.inr ⟨nofun, _, rfl⟩

theorem asFunction_givenIf :
    GivenIf (s.kind? = some .func) s.asFunction s.attributes.signed := by
  unfold asFunction kind?
  cases s.attributes with
  | func signature => exact Or.inl ⟨rfl, rfl⟩
  | _ => exact Or.inr ⟨nofun, _, rfl⟩

theorem storage_givenIf : GivenIf (s.kind? = some .var ∨ s.kind? = some .const) s.storage
    s.attributes.stored := by
  unfold storage kind?
  cases s.attributes with
  | var storage => exact Or.inl ⟨Or.inl rfl, rfl⟩
  | const storage value => exact Or.inl ⟨Or.inr rfl, rfl⟩
  | _ => exact Or.inr ⟨nofun, _, rfl⟩

theorem modifyStorage_givenIf (f : Storage → Storage) :
    GivenIf (s.kind? = some .var ∨ s.kind? = some .const) (s.modifyStorage f)
      { s with attributes := s.attributes.modifyStored f } := by
  unfold modifyStorage kind?
  cases s.attributes with
  | var storage => exact Or.inl ⟨Or.inl rfl, rfl⟩
  | const storage value => exact Or.inl ⟨Or.inr rfl, rfl⟩
  | _ => exact Or.inr ⟨nofun, _, rfl⟩

theorem isParameter_givenIf :
    GivenIf (s.kind? ≠ none) s.isParameter s.attributes.stored.isParameter := by
  unfold isParameter storage kind?
  cases s.attributes with
  | unset => exact Or.inr ⟨fun h => h rfl, _, rfl⟩
  | _ => exact Or.inl ⟨nofun, rfl⟩

theorem valueType?_eq : s.valueType? = s.attributes.stored.type := by
  unfold valueType?
  cases s.attributes <;> rfl

end Symbol

/-! ## Single accesses -/

namespace Access

/-- The attributes after an access that is allowed. -/
def effect : Access → Attributes → Attributes
  | setKind kind, _ => .ofKind kind
  | writeVariable write, attributes => .var (write.apply attributes.stored)
  | writeConstant write, attributes => .const (write.apply attributes.stored) attributes.valued
  | writeValue value, attributes => .const attributes.stored value
  | writeFunction f, attributes => .func (f attributes.signed)
  | setOffset n, attributes => attributes.modifyStored (StorageWrite.offset n).apply
  | setParameter flag, attributes => attributes.modifyStored (StorageWrite.isParameter flag).apply
  | _, attributes => attributes

/-- What an access gives that is allowed. -/
def reply (s : Symbol) : Access → Reply
  | readVariable => .storage s.attributes.stored
  | readConstant => .constant s.attributes.stored s.attributes.valued
  | readFunction => .signature s.attributes.signed
  | readOffset => .number s.attributes.stored.offset
  | readSize => .number s.attributes.stored.size
  | readParameter => .flag s.attributes.stored.isParameter
  | readType => .type s.attributes.stored.type
  | readRow => .text s.row
  | _ => .done

/-- The fault of an access that is not allowed: one of the symbol's kind, and of its missing type where
it is to be shown. -/
def IsRefusal (s : Symbol) : Access → Fault → Prop
  | readRow, fault => fault = .untyped s.name
  | _, fault => ∃ e, fault = .symbol e

variable {h : Handle} {s : State} {p : Prop}

/-- The state with the attributes of a symbol replaced. -/
def withAttributes (h : Handle) (attributes : Attributes) (s : State) : State :=
  { s with table := s.table.set h { s.table.symbol h with attributes := attributes } }

theorem withAttributes_self (h : Handle) (s : State) :
    withAttributes h (s.table.symbol h).attributes s = s := by
  have hsame : s.table.symbols.setIfInBounds h (s.table.symbol h) = s.table.symbols := by
    unfold SymbolTable.symbol Array.setIfInBounds
    split <;> simp [*]
  rw [withAttributes, SymbolTable.set, hsame]

/-- The step gives the reply and changes the attributes exactly under the condition, and fails
otherwise, with such a fault and without a change. -/
def Settles (h : Handle) (s : State) (p : Prop) (step : Analysis Reply) (reply : Reply)
    (attributes : Attributes) (refusal : Fault → Prop) : Prop :=
  p ∧ step s = .ok reply (withAttributes h attributes s) ∨
    ¬ p ∧ ∃ fault, refusal fault ∧ step s = .error (.fault fault) s

theorem settles_change {f : Symbol → Except SymbolError Symbol} {attributes : Attributes}
    (hf : GivenIf p (f (s.table.symbol h)) { s.table.symbol h with attributes := attributes }) :
    Settles h s p (change h f) .done attributes fun fault => ∃ e, fault = .symbol e := by
  have hupdate : Analysis.updateSymbol h f s =
      (Analysis.liftSymbol (f (s.table.symbol h)) >>= fun changed =>
        Analysis.modifyTable (·.set h changed)) s := rfl
  have hstep : change h f s = EStateM.bind (Analysis.updateSymbol h f) (fun _ => pure .done) s := rfl
  rw [Settles, hstep, EStateM.bind, hupdate]
  rcases hf with ⟨hp, hf⟩ | ⟨hp, e, hf⟩
  · exact Or.inl ⟨hp, by rw [hf]; rfl⟩
  · exact Or.inr ⟨hp, _, ⟨e, rfl⟩, by rw [hf]; rfl⟩

theorem settles_ask {f : Symbol → Except SymbolError Reply} {reply : Reply}
    (hf : GivenIf p (f (s.table.symbol h)) reply) :
    Settles h s p (ask h f) reply (s.table.symbol h).attributes fun fault =>
      ∃ e, fault = .symbol e := by
  have hstep : ask h f s = Analysis.liftSymbol (f (s.table.symbol h)) s := rfl
  rw [Settles, withAttributes_self, hstep]
  rcases hf with ⟨hp, hf⟩ | ⟨hp, e, hf⟩
  · exact Or.inl ⟨hp, by rw [hf]; rfl⟩
  · exact Or.inr ⟨hp, _, ⟨e, rfl⟩, by rw [hf]; rfl⟩

theorem settles_readRow (h : Handle) (s : State) :
    Settles h s (s.table.symbol h).isShowable (perform h readRow)
      (.text (s.table.symbol h).row) (s.table.symbol h).attributes
      fun fault => fault = .untyped (s.table.symbol h).name := by
  have hstep : perform h readRow s = (do
      Analysis.needRow (s.table.symbol h)
      return Reply.text (s.table.symbol h).row) s := rfl
  rw [Settles, withAttributes_self, hstep, Analysis.needRow]
  by_cases hs : (s.table.symbol h).isShowable
  · exact Or.inl ⟨hs, by rw [if_pos hs]; rfl⟩
  · exact Or.inr ⟨hs, _, rfl, by rw [if_neg hs]; rfl⟩

/-- What each access does, by the kind of its symbol. -/
theorem settles_perform (h : Handle) (s : State) (a : Access) :
    Settles h s (a.IsAllowed (s.table.symbol h)) (a.perform h) (a.reply (s.table.symbol h))
      (a.effect (s.table.symbol h).attributes) (a.IsRefusal (s.table.symbol h)) := by
  have hwrite : ∀ {α : Type} {q : Prop} {r : Except SymbolError α} {value : α},
      GivenIf q r value → ∀ f : α → Attributes, GivenIf q
        (r.map fun v => ({ s.table.symbol h with attributes := f v } : Symbol))
        { s.table.symbol h with attributes := f value } := fun hr f => hr.map _
  cases a with
  | setKind kind => exact settles_change (Symbol.setKind_givenIf _ kind)
  | readVariable => exact settles_ask ((Symbol.asVariable_givenIf _).map _)
  | readConstant => exact settles_ask ((Symbol.asConstant_givenIf _).map _)
  | readFunction => exact settles_ask ((Symbol.asFunction_givenIf _).map _)
  | writeVariable write =>
    exact settles_change (hwrite (Symbol.asVariable_givenIf _) fun storage =>
      .var (write.apply storage))
  | writeConstant write =>
    exact settles_change (hwrite (Symbol.asConstant_givenIf _) fun c =>
      .const (write.apply c.1) c.2)
  | writeValue value =>
    exact settles_change (hwrite (Symbol.asConstant_givenIf _) fun c => .const c.1 value)
  | writeFunction f =>
    exact settles_change (hwrite (Symbol.asFunction_givenIf _) fun g => .func (f g))
  | setOffset n => exact settles_change (Symbol.modifyStorage_givenIf _ _)
  | setParameter flag => exact settles_change (Symbol.modifyStorage_givenIf _ _)
  | readOffset => exact settles_ask (((Symbol.storage_givenIf _).map _).map _)
  | readSize => exact settles_ask (((Symbol.storage_givenIf _).map _).map _)
  | readParameter => exact settles_ask ((Symbol.isParameter_givenIf _).map _)
  | readType => exact settles_ask (Or.inl ⟨trivial, by rw [Symbol.valueType?_eq]; rfl⟩)
  | readRow => exact settles_readRow h s

/-- An access is done if it is allowed; otherwise it fails, and nothing changes. -/
theorem attempt_cases (h : Handle) (a : Access) (s : State) :
    a.IsAllowed (s.table.symbol h) ∧ a.attempt h s = (.ok (a.reply (s.table.symbol h)),
        withAttributes h (a.effect (s.table.symbol h).attributes) s) ∨
      ¬ a.IsAllowed (s.table.symbol h) ∧ ∃ fault, a.IsRefusal (s.table.symbol h) fault ∧
        a.attempt h s = (.error (.fault fault), s) := by
  unfold attempt
  rcases settles_perform h s a with ⟨ha, hstep⟩ | ⟨ha, fault, hfault, hstep⟩
  · exact Or.inl ⟨ha, by rw [hstep]⟩
  · exact Or.inr ⟨ha, fault, hfault, by rw [hstep]⟩

theorem size_attempt (h : Handle) (a : Access) (s : State) :
    (a.attempt h s).2.table.symbols.size = s.table.symbols.size := by
  rcases attempt_cases h a s with ⟨-, hstep⟩ | ⟨-, fault, -, hstep⟩ <;> rw [hstep]
  exact SymbolTable.size_set ..

/-- An access leaves all symbols but its own alone. -/
theorem symbol_attempt_of_ne (a : Access) (s : State) {h h' : Handle} (hne : h' ≠ h) :
    (a.attempt h s).2.table.symbol h' = s.table.symbol h' := by
  rcases attempt_cases h a s with ⟨-, hstep⟩ | ⟨-, fault, -, hstep⟩ <;> rw [hstep]
  exact (SymbolTable.symbol_set ..).trans (if_neg fun hh => hne hh.1)

theorem attributes_attempt {a : Access} (hlt : h < s.table.symbols.size)
    (ha : a.IsAllowed (s.table.symbol h)) : ((a.attempt h s).2.table.symbol h).attributes =
      a.effect (s.table.symbol h).attributes := by
  rcases attempt_cases h a s with ⟨-, hstep⟩ | ⟨hno, -⟩
  · rw [hstep]
    exact congrArg Symbol.attributes ((SymbolTable.symbol_set ..).trans (if_pos ⟨rfl, hlt⟩))
  · exact absurd ha hno

end Access

/-! ## What accesses write -/

namespace StorageWrite

/-- The type that is written, if one is. -/
def type? : StorageWrite → Option (Option ValueType)
  | type t => some t
  | _ => none

/-- The size that is written. -/
def size? : StorageWrite → Option Int
  | size n => some n
  | _ => none

/-- The offset that is written. -/
def offset? : StorageWrite → Option Int
  | offset n => some n
  | _ => none

/-- The parameter flag that is written. -/
def isParameter? : StorageWrite → Option Bool
  | isParameter flag => some flag
  | _ => none

end StorageWrite

namespace Access

/-- The kind that an access sets. -/
def kindSet? : Access → Option SymbolKind
  | setKind kind => some kind
  | _ => none

/-- What an access writes into a storage, be it through the attributes of a kind or not. -/
def storageWrite? : Access → Option StorageWrite
  | writeVariable write | writeConstant write => some write
  | setOffset n => some (.offset n)
  | setParameter flag => some (.isParameter flag)
  | _ => none

/-- The value that an access writes. -/
def valueWritten? : Access → Option Value
  | writeValue value => some value
  | _ => none

end Access

namespace Attributes

variable {attributes : Attributes}

theorem stored_of_kind (h : attributes.kind? = none ∨ attributes.kind? = some .func) :
    attributes.stored = {} := by
  cases attributes with
  | var storage => rcases h with h | h <;> cases h
  | const storage value => rcases h with h | h <;> cases h
  | _ => rfl

theorem valued_of_kind (h : attributes.kind? ≠ some .const) : attributes.valued = .integer 0 := by
  cases attributes with
  | const storage value => exact absurd rfl h
  | _ => rfl

theorem stored_modifyStored (h : attributes.kind? = some .var ∨ attributes.kind? = some .const)
    (f : Storage → Storage) : (attributes.modifyStored f).stored = f attributes.stored := by
  cases attributes with
  | var storage => rfl
  | const storage value => rfl
  | _ => rcases h with h | h <;> cases h

theorem valued_modifyStored (f : Storage → Storage) :
    (attributes.modifyStored f).valued = attributes.valued := by
  cases attributes <;> rfl

theorem kind?_modifyStored (f : Storage → Storage) :
    (attributes.modifyStored f).kind? = attributes.kind? := by
  cases attributes <;> rfl

theorem kind?_ofKind (kind : SymbolKind) : (ofKind kind).kind? = some kind := by
  cases kind <;> rfl

end Attributes

namespace Access

open Attributes

variable {a : Access} {s : Symbol}

theorem stored_effect (ha : a.IsAllowed s) : (a.effect s.attributes).stored =
    (a.storageWrite?.map (·.apply s.attributes.stored)).getD s.attributes.stored := by
  cases a with
  | setKind kind =>
    refine Eq.trans ?_ (stored_of_kind (Or.inl ha)).symm
    cases kind <;> rfl
  | writeFunction f => exact (stored_of_kind (Or.inr ha)).symm
  | setOffset n => exact stored_modifyStored ha _
  | setParameter flag => exact stored_modifyStored ha _
  | _ => rfl

theorem valued_effect (ha : a.IsAllowed s) :
    (a.effect s.attributes).valued = a.valueWritten?.getD s.attributes.valued := by
  have hother : ∀ {kind : Option SymbolKind}, s.kind? = kind → kind ≠ some .const →
      s.attributes.valued = .integer 0 := fun hk hne =>
    valued_of_kind fun hc => hne (hk.symm.trans hc)
  cases a with
  | setKind kind =>
    refine Eq.trans ?_ (hother ha nofun).symm
    cases kind <;> rfl
  | writeVariable write => exact (hother ha nofun).symm
  | writeFunction f => exact (hother ha nofun).symm
  | setOffset n => exact valued_modifyStored _
  | setParameter flag => exact valued_modifyStored _
  | _ => rfl

theorem kind?_effect (ha : a.IsAllowed s) :
    (a.effect s.attributes).kind? = a.kindSet?.or s.kind? := by
  cases a with
  | setKind kind => exact kind?_ofKind kind
  | writeVariable write => exact ha.symm
  | writeConstant write => exact ha.symm
  | writeValue value => exact ha.symm
  | writeFunction f => exact ha.symm
  | setOffset n => exact kind?_modifyStored _
  | setParameter flag => exact kind?_modifyStored _
  | _ => rfl

end Access

/-! ## Histories -/

/-- An access that was tried, and what came of it. -/
structure Event where
  handle : Handle
  access : Access
  result : Except Failure Reply

/-- Tries accesses one after another, each in the state that the one before it left. -/
def history : List (Handle × Access) → State → List Event × State
  | [], s => ([], s)
  | (h, a) :: rest, s =>
    let after := a.attempt h s
    (⟨h, a, after.1⟩ :: (history rest after.2).1, (history rest after.2).2)

/-- What the accesses to a symbol have written that were done, the first one first. -/
def written {α : Type} (value? : Access → Option α) (h : Handle) (events : List Event) : List α :=
  events.flatMap fun e => if e.handle = h ∧ e.result.isOk then (value? e.access).toList else []

section Histories

variable {α : Type} {get : Attributes → α} {value? : Access → Option α} {h : Handle} {s : State}
  {ops : List (Handle × Access)}

theorem written_singleton (e : Event) : written value? h [e] =
    if e.handle = h ∧ e.result.isOk then (value? e.access).toList else [] := List.append_nil _

theorem written_cons (e : Event) (events : List Event) :
    written value? h (e :: events) = written value? h [e] ++ written value? h events := by
  rw [written_singleton]
  rfl

/-- Every access that is allowed leaves in a part of the attributes what it writes there. -/
def Tracks (get : Attributes → α) (value? : Access → Option α) : Prop :=
  ∀ (a : Access) (s : Symbol), a.IsAllowed s →
    get (a.effect s.attributes) = (value? a).getD (get s.attributes)

/-- So does an access that is tried. -/
theorem Tracks.attempt (ht : Tracks get value?) (hlt : h < s.table.symbols.size) (h' : Handle)
    (a : Access) : get ((a.attempt h' s).2.table.symbol h).attributes =
      (written value? h [⟨h', a, (a.attempt h' s).1⟩]).getLast?.getD
        (get (s.table.symbol h).attributes) := by
  by_cases hh : h' = h
  · subst hh
    rcases a.attempt_cases h' s with ⟨ha, hstep⟩ | ⟨-, fault, -, hstep⟩
    · rw [Access.attributes_attempt hlt ha, ht a _ ha, hstep, written_singleton,
        if_pos ⟨rfl, rfl⟩]
      cases value? a <;> rfl
    · rw [hstep, written_singleton, if_neg fun hc => nomatch hc.2]
      rfl
  · rw [Access.symbol_attempt_of_ne a s (Ne.symm hh), written_singleton, if_neg fun hc => hh hc.1]
    rfl

/-- What is there after a history is what was written last. -/
theorem Tracks.history (ht : Tracks get value?) (hlt : h < s.table.symbols.size)
    (ops : List (Handle × Access)) : get ((history ops s).2.table.symbol h).attributes =
      (written value? h (history ops s).1).getLast?.getD (get (s.table.symbol h).attributes) := by
  induction ops generalizing s with
  | nil => rfl
  | cons op ops ih =>
    obtain ⟨h', a⟩ := op
    have hstep := ht.attempt hlt h' a
    have hrest := ih (s := (a.attempt h' s).2) (by rwa [Access.size_attempt])
    rw [hstep] at hrest
    rw [← Option.getD_or, ← List.getLast?_append, ← written_cons] at hrest
    exact hrest

theorem tracks_stored {field : Storage → α} {value? : StorageWrite → Option α}
    (hfield : ∀ write storage, field (write.apply storage) = (value? write).getD (field storage)) :
    Tracks (fun attributes => field attributes.stored) fun a => a.storageWrite?.bind value? := by
  intro a s ha
  show field (a.effect s.attributes).stored =
    (a.storageWrite?.bind value?).getD (field s.attributes.stored)
  rw [Access.stored_effect ha]
  cases a.storageWrite? with
  | none => rfl
  | some write => exact hfield write _

/-- Either the access sets no kind, or the kind was unset and is the one that it sets. -/
theorem kind?_attempt (hlt : h < s.table.symbols.size) (h' : Handle) (a : Access) :
    written Access.kindSet? h [⟨h', a, (a.attempt h' s).1⟩] = [] ∧
        ((a.attempt h' s).2.table.symbol h).kind? = (s.table.symbol h).kind? ∨
      ∃ kind, written Access.kindSet? h [⟨h', a, (a.attempt h' s).1⟩] = [kind] ∧
        (s.table.symbol h).kind? = none ∧
        ((a.attempt h' s).2.table.symbol h).kind? = some kind := by
  rw [written_singleton]
  by_cases hh : h' = h
  · subst hh
    rcases a.attempt_cases h' s with ⟨ha, hstep⟩ | ⟨-, fault, -, hstep⟩
    · have hkind := (congrArg Attributes.kind? (Access.attributes_attempt hlt ha)).trans
        (Access.kind?_effect ha)
      rw [if_pos ⟨rfl, by rw [hstep]; rfl⟩]
      cases a with
      | setKind kind => exact Or.inr ⟨kind, rfl, ha, hkind⟩
      | _ => exact Or.inl ⟨rfl, hkind⟩
    · rw [hstep, if_neg fun hc => nomatch hc.2]
      exact Or.inl ⟨rfl, rfl⟩
  · rw [Access.symbol_attempt_of_ne a s (Ne.symm hh), if_neg fun hc => hh hc.1]
    exact Or.inl ⟨rfl, rfl⟩

/-- A kind that is set stays, and none is set again. -/
theorem history_of_kind {kind : SymbolKind} (hlt : h < s.table.symbols.size)
    (hkind : (s.table.symbol h).kind? = some kind) (ops : List (Handle × Access)) :
    written Access.kindSet? h (history ops s).1 = [] ∧
      ((history ops s).2.table.symbol h).kind? = some kind := by
  induction ops generalizing s with
  | nil => exact ⟨rfl, hkind⟩
  | cons op ops ih =>
    obtain ⟨h', a⟩ := op
    obtain ⟨hnone, hsame⟩ | ⟨_, -, hunset, -⟩ := kind?_attempt hlt h' a
    · obtain ⟨hrest, hend⟩ := ih (s := (a.attempt h' s).2) (by rwa [Access.size_attempt])
        (hsame.trans hkind)
      exact ⟨by rw [history, written_cons, hnone, hrest, List.nil_append], hend⟩
    · cases hkind.symm.trans hunset

/-- The kinds that are set of a symbol without a kind are those that it has in the end: none or
one. -/
theorem history_of_unset (hlt : h < s.table.symbols.size)
    (hunset : (s.table.symbol h).kind? = none) (ops : List (Handle × Access)) :
    written Access.kindSet? h (history ops s).1 =
      ((history ops s).2.table.symbol h).kind?.toList := by
  induction ops generalizing s with
  | nil => rw [history, hunset]; rfl
  | cons op ops ih =>
    obtain ⟨h', a⟩ := op
    have hlt' : h < (a.attempt h' s).2.table.symbols.size := by rwa [Access.size_attempt]
    rw [history, written_cons]
    obtain ⟨hnone, hsame⟩ | ⟨kind, hset, -, hkind⟩ := kind?_attempt hlt h' a
    · rw [hnone, List.nil_append, ih hlt' (hsame.trans hunset)]
    · obtain ⟨hrest, hend⟩ := history_of_kind hlt' hkind ops
      rw [hset, hrest, hend]
      rfl

end Histories

/-! ## New symbols -/

/-- The storage with the fields that were written last. -/
def lastStorage (h : Handle) (events : List Event) : Storage where
  type := (written (·.storageWrite?.bind StorageWrite.type?) h events).getLast?.getD none
  size := (written (·.storageWrite?.bind StorageWrite.size?) h events).getLast?.getD 0
  offset := (written (·.storageWrite?.bind StorageWrite.offset?) h events).getLast?.getD 0
  isParameter := (written (·.storageWrite?.bind StorageWrite.isParameter?) h events).getLast?.getD
    false

/-- The value that was written last. -/
def lastValue (h : Handle) (events : List Event) : Value :=
  (written Access.valueWritten? h events).getLast?.getD (.integer 0)

/-- What holds of symbols after a history of accesses to them. -/
structure Consistent (events : List Event) (s : State) : Prop where
  /-- The kind of a symbol has been set once at most. -/
  kindsSet : ∀ h < s.table.symbols.size,
    written Access.kindSet? h events = (s.table.symbol h).kind?.toList
  /-- It never changes from then on. -/
  kindKept : ∀ h kind, (s.table.symbol h).kind? = some kind → ∀ more,
    ((history more s).2.table.symbol h).kind? = some kind
  /-- An access succeeds exactly if the kind of the symbol allows it. -/
  allowed : ∀ h (a : Access), (a.attempt h s).1.isOk ↔ a.IsAllowed (s.table.symbol h)
  /-- An access that fails changes nothing. -/
  refused : ∀ h (a : Access), ¬ a.IsAllowed (s.table.symbol h) →
    ∃ fault, a.IsRefusal (s.table.symbol h) fault ∧ a.attempt h s = (.error (.fault fault), s)
  /-- An access to a symbol changes no other symbol. -/
  others : ∀ h (a : Access) h', h' ≠ h → (a.attempt h s).2.table.symbol h' = s.table.symbol h'
  /-- The attributes of a variable are those written last. -/
  readVariable : ∀ h, (s.table.symbol h).kind? = some .var →
    Access.readVariable.attempt h s = (.ok (.storage (lastStorage h events)), s)
  /-- So are those of a constant. -/
  readConstant : ∀ h, (s.table.symbol h).kind? = some .const →
    Access.readConstant.attempt h s =
      (.ok (.constant (lastStorage h events) (lastValue h events)), s)
  /-- What variables and constants have in common reads the same. -/
  readCommon : ∀ h, (s.table.symbol h).kind? = some .var ∨ (s.table.symbol h).kind? = some .const →
    Access.readOffset.attempt h s = (.ok (.number (lastStorage h events).offset), s) ∧
    Access.readSize.attempt h s = (.ok (.number (lastStorage h events).size), s) ∧
    Access.readParameter.attempt h s = (.ok (.flag (lastStorage h events).isParameter), s) ∧
    Access.readType.attempt h s = (.ok (.type (lastStorage h events).type), s)

section NewSymbols

variable {s : State} {h : Handle} {a : Access} {ops : List (Handle × Access)}

theorem Access.attempt_of_isAllowed (ha : a.IsAllowed (s.table.symbol h)) : a.attempt h s =
    (.ok (a.reply (s.table.symbol h)),
      withAttributes h (a.effect (s.table.symbol h).attributes) s) := by
  rcases a.attempt_cases h s with ⟨-, hstep⟩ | ⟨hno, -⟩
  · exact hstep
  · exact absurd ha hno

/-- Reading leaves everything as it is. -/
theorem Access.attempt_of_reads (ha : a.IsAllowed (s.table.symbol h))
    (hread : a.effect (s.table.symbol h).attributes = (s.table.symbol h).attributes) :
    a.attempt h s = (.ok (a.reply (s.table.symbol h)), s) := by
  rw [attempt_of_isAllowed ha, hread, withAttributes_self]

theorem Access.isOk_attempt_iff : (a.attempt h s).1.isOk ↔ a.IsAllowed (s.table.symbol h) := by
  rcases a.attempt_cases h s with ⟨ha, hstep⟩ | ⟨hno, fault, -, hstep⟩
  · exact iff_of_true (by rw [hstep]; rfl) ha
  · exact iff_of_false (by rw [hstep]; nofun) hno

theorem SymbolTable.lt_size_of_kind {t : SymbolTable} {kind : SymbolKind}
    (hkind : (t.symbol h).kind? = some kind) : h < t.symbols.size := by
  by_contra hge
  rw [symbol, Array.getD_eq_getD_getElem?, Array.getElem?_eq_none (Nat.le_of_not_lt hge)] at hkind
  cases hkind

theorem field_history {α : Type} {field : Storage → α} {value? : StorageWrite → Option α}
    (hlt : h < s.table.symbols.size) (hnew : (s.table.symbol h).kind? = none)
    (hfield : ∀ write storage, field (write.apply storage) = (value? write).getD (field storage)) :
    field ((history ops s).2.table.symbol h).attributes.stored =
      (written (·.storageWrite?.bind value?) h (history ops s).1).getLast?.getD (field {}) := by
  have htracks := (tracks_stored hfield).history hlt ops
  rwa [Attributes.stored_of_kind (Or.inl hnew)] at htracks

theorem stored_history (hlt : h < s.table.symbols.size) (hnew : (s.table.symbol h).kind? = none) :
    ((history ops s).2.table.symbol h).attributes.stored = lastStorage h (history ops s).1 := by
  generalize hafter : ((history ops s).2.table.symbol h).attributes.stored = after
  have htype : after.type = (lastStorage h (history ops s).1).type :=
    hafter ▸ field_history hlt hnew fun write storage => by cases write <;> rfl
  have hsize : after.size = (lastStorage h (history ops s).1).size :=
    hafter ▸ field_history hlt hnew fun write storage => by cases write <;> rfl
  have hoffset : after.offset = (lastStorage h (history ops s).1).offset :=
    hafter ▸ field_history hlt hnew fun write storage => by cases write <;> rfl
  have hflag : after.isParameter = (lastStorage h (history ops s).1).isParameter :=
    hafter ▸ field_history hlt hnew fun write storage => by cases write <;> rfl
  obtain ⟨type, size, offset, isParameter⟩ := after
  rw [lastStorage]
  exact Storage.mk.injEq .. ▸ ⟨htype, hsize, hoffset, hflag⟩

theorem valued_history (hlt : h < s.table.symbols.size) (hnew : (s.table.symbol h).kind? = none) :
    ((history ops s).2.table.symbol h).attributes.valued = lastValue h (history ops s).1 := by
  have htracks : Tracks Attributes.valued Access.valueWritten? := fun _ _ => Access.valued_effect
  have hvalue := htracks.history hlt ops
  have hnone : (s.table.symbol h).attributes.valued = .integer 0 :=
    Attributes.valued_of_kind fun hc => nomatch hnew.symm.trans hc
  rwa [hnone] at hvalue

theorem size_history (ops : List (Handle × Access)) (s : State) :
    (history ops s).2.table.symbols.size = s.table.symbols.size := by
  induction ops generalizing s with
  | nil => rfl
  | cons op ops ih => exact (ih _).trans (Access.size_attempt ..)

end NewSymbols

/-- Whatever accesses are tried with new symbols, their kinds are set at most once, what is not allowed
changes nothing, and what is read was written last. -/
theorem consistent_history (s : State) (hnew : ∀ h, (s.table.symbol h).kind? = none)
    (ops : List (Handle × Access)) : Consistent (history ops s).1 (history ops s).2 := by
  have hlt : ∀ {h kind}, ((history ops s).2.table.symbol h).kind? = some kind →
      h < s.table.symbols.size := fun hkind =>
    size_history ops s ▸ SymbolTable.lt_size_of_kind hkind
  refine ⟨fun h hh => ?_, fun h kind hkind more => ?_, fun h a => Access.isOk_attempt_iff,
    fun h a hno => ?_, fun h a h' hne => Access.symbol_attempt_of_ne a _ hne, fun h hkind => ?_,
    fun h hkind => ?_, fun h hkind => ?_⟩
  · exact history_of_unset (by rwa [size_history] at hh) (hnew h) ops
  · exact (history_of_kind (SymbolTable.lt_size_of_kind hkind) hkind more).2
  · rcases a.attempt_cases h (history ops s).2 with ⟨ha, -⟩ | ⟨-, hstep⟩
    · exact absurd ha hno
    · exact hstep
  · rw [← stored_history (hlt hkind) (hnew h)]
    exact Access.attempt_of_reads hkind rfl
  · rw [← stored_history (hlt hkind) (hnew h), ← valued_history (hlt hkind) (hnew h)]
    exact Access.attempt_of_reads hkind rfl
  · rw [← stored_history (hkind.elim hlt hlt) (hnew h)]
    exact ⟨Access.attempt_of_reads hkind rfl, Access.attempt_of_reads hkind rfl,
      Access.attempt_of_reads (fun hnone => by rw [hnone] at hkind; exact hkind.elim nofun nofun)
        rfl, Access.attempt_of_reads trivial rfl⟩

/-- Two new symbols. -/
def twoSymbols : State :=
  { State.ofSource (.ofText "") false with
    table := ((SymbolTable.empty.create "x" 1).2.create "P" 0).2 }

/-- The offset of the first of them is written in two ways, between accesses that fail. -/
def offsetWrites : List (Handle × Access) :=
  [(0, .setOffset 1), (0, .setKind .var), (0, .setKind .const), (1, .setKind .func),
   (0, .writeVariable (.offset 6)), (1, .setOffset 7), (0, .writeConstant (.offset 9)),
   (0, .setOffset 8), (0, .readRow)]

theorem consistent_history_offsetWrites :
    (∀ h, (twoSymbols.table.symbol h).kind? = none) ∧
      Consistent (history offsetWrites twoSymbols).1 (history offsetWrites twoSymbols).2 ∧
      (lastStorage 0 (history offsetWrites twoSymbols).1).offset = 8 := by
  have hnew : ∀ h, (twoSymbols.table.symbol h).kind? = none := by
    intro h
    show ((((SymbolTable.empty.create "x" 1).2.create "P" 0).2).symbol h).kind? = none
    rw [SymbolTable.symbol_create, SymbolTable.symbol_create]
    split
    · rfl
    · split <;> rfl
  exact ⟨hnew, consistent_history twoSymbols hnew offsetWrites, by rfl⟩

end ProcLang
