/-!
# Finite maps in key order

A `Table` is an association list whose `insert` keeps the keys ascending and replaces an
old entry, so its entries are listed in key order and equal contents are equal tables.
-/

namespace Sema

structure Table (κ α : Type) where
  entries : List (κ × α) := []
  deriving DecidableEq

namespace Table

variable {κ α β : Type}

def empty : Table κ α := ⟨[]⟩

def size (t : Table κ α) : Nat := t.entries.length

def keys (t : Table κ α) : List κ := t.entries.map (·.1)

def isEmpty (t : Table κ α) : Bool := t.entries.isEmpty

/-- Change every value, keeping the keys. -/
def map (f : α → β) (t : Table κ α) : Table κ β := ⟨t.entries.map fun (k, a) => (k, f a)⟩

@[simp] theorem keys_map (f : α → β) (t : Table κ α) : (t.map f).keys = t.keys := by
  simp [keys, map]

section Search

variable [DecidableEq κ]

def find (k : κ) : List (κ × α) → Option α
  | [] => none
  | (j, a) :: r => if k = j then some a else find k r

def get? (t : Table κ α) (k : κ) : Option α := find k t.entries

def contains (t : Table κ α) (k : κ) : Bool := (t.get? k).isSome

@[simp] theorem get?_empty (k : κ) : (empty : Table κ α).get? k = none := rfl

theorem find_map (f : α → β) (k : κ) (l : List (κ × α)) :
    find k (l.map fun (j, a) => (j, f a)) = (find k l).map f := by
  induction l with
  | nil => rfl
  | cons e r ih =>
    obtain ⟨j, a⟩ := e
    by_cases h : k = j <;> simp [find, h, ih]

theorem find_filter_ne {j k : κ} (h : j ≠ k) (l : List (κ × α)) :
    find j (l.filter fun e => e.1 != k) = find j l := by
  induction l with
  | nil => rfl
  | cons e r ih =>
    obtain ⟨i, a⟩ := e
    by_cases hi : i = k
    · subst hi
      simp [find, h, ih]
    · simp [find, hi, ih]

@[simp] theorem get?_map (f : α → β) (t : Table κ α) (k : κ) :
    (t.map f).get? k = (t.get? k).map f := find_map f k t.entries

end Search

section Update

variable [DecidableEq κ] [LT κ] [DecidableLT κ]

def place (k : κ) (a : α) : List (κ × α) → List (κ × α)
  | [] => [(k, a)]
  | (j, b) :: r =>
    if k = j then (k, a) :: r
    else if k < j then (k, a) :: (j, b) :: r
    else (j, b) :: place k a r

/-- Bind `k` to `a`, replacing what `k` was bound to. -/
def insert (t : Table κ α) (k : κ) (a : α) : Table κ α := ⟨place k a t.entries⟩

/-- Bind `k` to `a` unless it is bound already. -/
def insertNew (t : Table κ α) (k : κ) (a : α) : Table κ α :=
  if t.contains k then t else t.insert k a

/-- Insert in list order, so that the last of several entries for one key stays. -/
def insertAll (t : Table κ α) (l : List (κ × α)) : Table κ α :=
  l.foldl (fun t (k, a) => t.insert k a) t

def ofList (l : List (κ × α)) : Table κ α := empty.insertAll l

theorem find_place (k j : κ) (a : α) (l : List (κ × α)) :
    find j (place k a l) = if j = k then some a else find j l := by
  induction l with
  | nil => simp [place, find]
  | cons e r ih =>
    obtain ⟨i, b⟩ := e
    unfold place
    split
    · subst_vars
      by_cases h : j = i <;> simp [find, h]
    · split
      · simp [find]
      · by_cases h : j = i
        · subst h
          simp [find, Ne.symm ‹¬k = j›]
        · simp [find, h, ih]

@[simp] theorem get?_insert (t : Table κ α) (k j : κ) (a : α) :
    (t.insert k a).get? j = if j = k then some a else t.get? j :=
  find_place k j a t.entries

/-- What a list of entries says of a key comes before what the table said. -/
theorem get?_insertAll (t : Table κ α) (l : List (κ × α)) (k : κ) :
    (t.insertAll l).get? k = ((ofList l).get? k).or (t.get? k) := by
  induction l generalizing t with
  | nil => rfl
  | cons e l ih =>
    have hcons : ∀ t : Table κ α, t.insertAll (e :: l) = (t.insert e.1 e.2).insertAll l :=
      fun _ => rfl
    rw [ofList, hcons, hcons, ih, ih (empty.insert e.1 e.2), get?_insert, get?_insert, get?_empty]
    by_cases h : k = e.1 <;> simp [h]

theorem mem_keys_place (k j : κ) (a : α) (l : List (κ × α)) :
    j ∈ (place k a l).map (·.1) ↔ j = k ∨ j ∈ l.map (·.1) := by
  induction l with
  | nil => simp [place]
  | cons e r ih =>
    obtain ⟨i, b⟩ := e
    unfold place
    split
    · subst_vars
      simp
    · split
      · simp
      · simp only [List.map_cons, List.mem_cons, ih]
        exact ⟨fun h => by rcases h with h | h | h <;> simp [h],
          fun h => by rcases h with h | h | h <;> simp [h]⟩

@[simp] theorem mem_keys_insert (t : Table κ α) (k j : κ) (a : α) :
    j ∈ (t.insert k a).keys ↔ j = k ∨ j ∈ t.keys :=
  mem_keys_place k j a t.entries

end Update

end Table

end Sema
