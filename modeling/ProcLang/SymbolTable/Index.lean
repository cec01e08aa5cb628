/-!
# Indexes

An index files values under keys. The values of a key keep the order in which they were filed, and
a key without values is not listed.
-/

namespace ProcLang

/-- Lists of values filed under keys. -/
structure Index (α β : Type) where
  pairs : List (α × List β)
  deriving DecidableEq, Repr

namespace Index

variable {α β : Type} [DecidableEq α]

/-- An index without values. -/
def empty : Index α β := ⟨[]⟩

/-- The keys in the order in which they were first filed. -/
def keys (m : Index α β) : List α := m.pairs.map Prod.fst

/-- The values filed under a key. -/
def get (m : Index α β) (key : α) : List β := (m.pairs.lookup key).getD []

/-- Puts a list in the place of the first one filed under the key, or at the end. -/
def putPairs (key : α) (values : List β) : List (α × List β) → List (α × List β)
  | [] => [(key, values)]
  | (other, old) :: rest =>
    if other = key then (key, values) :: rest else (other, old) :: putPairs key values rest

/-- Files a list of values under a key, in the place of those that were there. -/
def put (m : Index α β) (key : α) (values : List β) : Index α β :=
  ⟨putPairs key values m.pairs⟩

/-- Removes a key with its values. -/
def erase (m : Index α β) (key : α) : Index α β := ⟨m.pairs.filter fun p => p.1 ≠ key⟩

/-- Files one more value under a key. -/
def push (m : Index α β) (key : α) (value : β) : Index α β :=
  m.put key (m.get key ++ [value])

/-- Keeps of a key's values those that pass a test; a key that is left without values is
removed. -/
def filterAt (m : Index α β) (key : α) (keep : β → Bool) : Index α β :=
  let kept := (m.get key).filter keep
  if kept.isEmpty then m.erase key else m.put key kept

/-! ## What is filed under a key after each operation -/

@[simp] theorem get_empty (key : α) : (empty : Index α β).get key = [] := rfl

theorem get_put (m : Index α β) (key other : α) (values : List β) :
    (m.put key values).get other = if other = key then values else m.get other := by
  obtain ⟨pairs⟩ := m
  simp only [get, put]
  induction pairs with
  | nil =>
    by_cases h : other = key
    · simp [putPairs, h]
    · have h' : (other == key) = false := by simpa using h
      simp [putPairs, h, List.lookup_cons, h']
  | cons p rest ih =>
    obtain ⟨head, old⟩ := p
    by_cases hk : head = key
    · by_cases h : other = key
      · simp [putPairs, hk, h]
      · have h' : (other == key) = false := by simpa using h
        simp [putPairs, hk, h, List.lookup_cons, h']
    · by_cases h : other = head
      · subst h
        simp [putPairs, hk]
      · have h' : (other == head) = false := by simpa using h
        simp only [putPairs, hk, if_false, List.lookup_cons, h']
        exact ih

theorem get_erase (m : Index α β) (key other : α) :
    (m.erase key).get other = if other = key then [] else m.get other := by
  obtain ⟨pairs⟩ := m
  simp only [get, erase]
  induction pairs with
  | nil => simp
  | cons p rest ih =>
    obtain ⟨head, old⟩ := p
    by_cases hk : head = key
    · subst hk
      by_cases h : other = head
      · subst h
        simpa using ih
      · have h' : (other == head) = false := by simpa using h
        simpa [h, List.lookup_cons, h'] using ih
    · by_cases h : other = head
      · subst h
        simp [hk]
      · have h' : (other == head) = false := by simpa using h
        simpa [hk, List.lookup_cons, h'] using ih

theorem get_push (m : Index α β) (key other : α) (value : β) :
    (m.push key value).get other =
      if other = key then m.get key ++ [value] else m.get other := by
  rw [push, get_put]

theorem get_filterAt (m : Index α β) (key other : α) (keep : β → Bool) :
    (m.filterAt key keep).get other =
      if other = key then (m.get key).filter keep else m.get other := by
  simp only [filterAt]
  split
  · next h => rw [get_erase, List.isEmpty_iff.mp h]
  · rw [get_put]

end Index

end ProcLang
