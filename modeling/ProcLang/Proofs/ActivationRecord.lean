import Mathlib
import ProcLang.SymbolTable.Symbol

/-!
# Activation records

Variables and constants that are placed one behind the other tile the stretch from the first
address to the last (`tile_placeFrom`). An activation record has two such stretches: its parameters
lie above the header, the last one lowest, and its local names above the base, the first one lowest
(`LaidOut`).
-/

namespace ProcLang

/-! ## Storages and addresses -/

namespace Storage

/-- The address belongs to the storage. -/
def Covers (p : Storage) (address : Int) : Prop :=
  p.offset ≤ address ∧ address < p.offset + p.size

/-- The storage is one of a type and has its size. -/
def IsSized (p : Storage) : Prop := ∃ type, p.type = some type ∧ p.size = type.size

theorem IsSized.size_pos {p : Storage} (h : p.IsSized) : 0 < p.size := by
  obtain ⟨type, -, hsize⟩ := h
  rw [hsize]
  cases type <;> decide

/-- The size of several storages together. -/
def totalSize (ps : List Storage) : Int := (ps.map size).sum

theorem totalSize_cons (p : Storage) (ps : List Storage) :
    totalSize (p :: ps) = p.size + totalSize ps := by
  simp [totalSize]

theorem totalSize_append (ps qs : List Storage) :
    totalSize (ps ++ qs) = totalSize ps + totalSize qs := by
  simp [totalSize]

theorem totalSize_reverse (ps : List Storage) : totalSize ps.reverse = totalSize ps := by
  simp [totalSize, List.sum_reverse]

theorem totalSize_nonneg {ps : List Storage} (h : ∀ p ∈ ps, p.IsSized) : 0 ≤ totalSize ps := by
  induction ps with
  | nil => exact Int.le_refl 0
  | cons p rest ih =>
    have hp := (h p List.mem_cons_self).size_pos
    have hrest := ih fun q hm => h q (List.mem_cons_of_mem _ hm)
    rw [totalSize_cons]
    omega

/-- Each address from `low` up to `high` belongs to one of the storages alone, and no other address
belongs to any of them. -/
structure Tile (ps : List Storage) (low high : Int) : Prop where
  apart : ps.Pairwise fun p q => ∀ address, ¬ (p.Covers address ∧ q.Covers address)
  covered : ∀ address, (∃ p ∈ ps, p.Covers address) ↔ low ≤ address ∧ address < high

theorem Tile.reverse {ps : List Storage} {low high : Int} (h : Tile ps low high) :
    Tile ps.reverse low high where
  apart := List.pairwise_reverse.mpr (h.apart.imp fun hpq address hc => hpq address hc.symm)
  covered := fun address => by
    simp only [List.mem_reverse]
    exact h.covered address

/-! ## Placing storages -/

/-- The storages placed one behind the other from an offset on. -/
def placeFrom : Int → List Storage → List Storage
  | _, [] => []
  | offset, p :: rest => { p with offset := offset } :: placeFrom (offset + p.size) rest

variable {offset : Int} {ps : List Storage}

@[simp] theorem length_placeFrom : (placeFrom offset ps).length = ps.length := by
  induction ps generalizing offset with
  | nil => rfl
  | cons p rest ih => rw [placeFrom, List.length_cons, ih, List.length_cons]

@[simp] theorem totalSize_placeFrom : totalSize (placeFrom offset ps) = totalSize ps := by
  induction ps generalizing offset with
  | nil => rfl
  | cons p rest ih => rw [placeFrom, totalSize_cons, ih, totalSize_cons]

theorem offset_of_mem_head?_placeFrom : ∀ q ∈ (placeFrom offset ps).head?, q.offset = offset := by
  intro q hq
  cases ps with
  | nil => cases hq
  | cons p rest =>
    cases hq
    rfl

/-- Each storage is placed where the one before it ends. -/
theorem isChain_placeFrom :
    (placeFrom offset ps).IsChain fun p q => q.offset = p.offset + p.size := by
  induction ps generalizing offset with
  | nil => exact List.isChain_nil
  | cons p rest ih =>
    rw [placeFrom, List.isChain_cons]
    exact ⟨offset_of_mem_head?_placeFrom, ih⟩

/-- By induction on the storages: the first one takes up the lowest addresses. -/
theorem tile_placeFrom (h : ∀ p ∈ ps, p.IsSized) :
    Tile (placeFrom offset ps) offset (offset + totalSize ps) := by
  induction ps generalizing offset with
  | nil =>
    refine ⟨List.Pairwise.nil, fun address => ?_⟩
    simp only [placeFrom, totalSize, List.not_mem_nil, false_and, exists_false, List.map_nil,
      List.sum_nil, false_iff]
    omega
  | cons p rest ih =>
    have hp := (h p List.mem_cons_self).size_pos
    have hsized : ∀ q ∈ rest, q.IsSized := fun q hm => h q (List.mem_cons_of_mem _ hm)
    have hrest := totalSize_nonneg hsized
    obtain ⟨hapart, hcovered⟩ := @ih (offset + p.size) hsized
    rw [placeFrom, totalSize_cons]
    refine ⟨List.pairwise_cons.mpr ⟨fun q hm address hc => ?_, hapart⟩, fun address => ?_⟩
    · have hq := (hcovered address).mp ⟨q, hm, hc.2⟩
      have hlt : address < offset + p.size := hc.1.2
      omega
    · rw [List.exists_mem_cons_iff, hcovered]
      show (offset ≤ address ∧ address < offset + p.size) ∨ _ ↔ _
      omega

end Storage

/-! ## The layout of a procedure -/

open Storage (Tile totalSize placeFrom)

/-- The layout of an activation record with the parameters `ps` and the local names `vs`, both in
the order of their declaration, as the signature of the procedure tells it. -/
structure LaidOut (ps vs : List Storage) (g : Signature) : Prop where
  parameterCount : g.parameterCount = ps.length
  parametersSize : g.parametersSize = totalSize ps
  localsSize : g.localsSize = totalSize vs
  lastParameter : ∀ p ∈ ps.getLast?, p.offset = 4
  parameters : ps.IsChain fun p q => p.offset = q.offset + q.size
  firstLocal : ∀ v ∈ vs.head?, v.offset = 2
  locals : vs.IsChain fun v w => w.offset = v.offset + v.size
  parametersTile : Tile ps 4 (4 + g.parametersSize)
  localsTile : Tile vs 2 (2 + g.localsSize)

/-- The layout that comes of placing the parameters from the last one on and the local names from
the first one on. -/
theorem laidOut_placeFrom {ps vs : List Storage} {g : Signature} (hps : ∀ p ∈ ps, p.IsSized)
    (hvs : ∀ v ∈ vs, v.IsSized) (hcount : g.parameterCount = ps.length)
    (hparameters : g.parametersSize = totalSize ps) (hlocals : g.localsSize = totalSize vs) :
    LaidOut (placeFrom 4 ps.reverse).reverse (placeFrom 2 vs) g where
  parameterCount := by simp [hcount]
  parametersSize := by
    rw [hparameters, Storage.totalSize_reverse, Storage.totalSize_placeFrom,
      Storage.totalSize_reverse]
  localsSize := by rw [hlocals, Storage.totalSize_placeFrom]
  lastParameter := by
    rw [List.getLast?_reverse]
    exact Storage.offset_of_mem_head?_placeFrom
  parameters := List.isChain_reverse.mpr Storage.isChain_placeFrom
  firstLocal := Storage.offset_of_mem_head?_placeFrom
  locals := Storage.isChain_placeFrom
  parametersTile := by
    rw [hparameters, ← Storage.totalSize_reverse]
    exact (Storage.tile_placeFrom fun p hm => hps p (List.mem_reverse.mp hm)).reverse
  localsTile := by
    rw [hlocals]
    exact Storage.tile_placeFrom hvs

end ProcLang
