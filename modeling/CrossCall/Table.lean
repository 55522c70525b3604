/-!
Finite tables that remember the order in which their keys were first put in, and finite sets of
names kept in the same way. Every listing that the tool prints follows this order.
-/
namespace CrossCall

/-- A finite table. Keys stand in the order of their first insertion. -/
structure Table (κ ν : Type) where
  entries : List (κ × ν) := []
deriving Repr, DecidableEq

namespace Table

variable {κ ν : Type} [DecidableEq κ]

def empty : Table κ ν := {}

instance : Inhabited (Table κ ν) := ⟨empty⟩

def find (k : κ) : List (κ × ν) → Option ν
  | [] => none
  | (k', v) :: rest => if k' = k then some v else find k rest

def get? (t : Table κ ν) (k : κ) : Option ν := find k t.entries

def getD (t : Table κ ν) (k : κ) (v : ν) : ν := (t.get? k).getD v

def contains (t : Table κ ν) (k : κ) : Bool := (t.get? k).isSome

def put (k : κ) (v : ν) : List (κ × ν) → List (κ × ν)
  | [] => [(k, v)]
  | (k', v') :: rest => if k' = k then (k', v) :: rest else (k', v') :: put k v rest

/-- Replaces the value in place when the key is known, and adds the key at the end otherwise. -/
def insert (t : Table κ ν) (k : κ) (v : ν) : Table κ ν := ⟨put k v t.entries⟩

/-- Inserts only a key that is not yet there. -/
def insertNew (t : Table κ ν) (k : κ) (v : ν) : Table κ ν :=
  if t.contains k then t else t.insert k v

/-- Applies `f` to the value under `k`, starting from `v` when there is none. -/
def alter (t : Table κ ν) (k : κ) (v : ν) (f : ν → ν) : Table κ ν := t.insert k (f (t.getD k v))

def keys (t : Table κ ν) : List κ := t.entries.map (·.1)

def values (t : Table κ ν) : List ν := t.entries.map (·.2)

def size (t : Table κ ν) : Nat := t.entries.length

def isEmpty (t : Table κ ν) : Bool := t.entries.isEmpty

/-- Inserts the pairs one after the other, so the last value of a key stays. -/
def ofList (xs : List (κ × ν)) : Table κ ν := xs.foldl (fun t e => t.insert e.1 e.2) empty

theorem find_put (k k' : κ) (v : ν) (xs : List (κ × ν)) :
    find k' (put k v xs) = if k' = k then some v else find k' xs := by
  induction xs with
  | nil => by_cases h : k' = k <;> grind [put, find]
  | cons e rest ih => by_cases he : e.1 = k <;> by_cases h : k' = k <;> grind [put, find]

@[simp] theorem get?_insert (t : Table κ ν) (k k' : κ) (v : ν) :
    (t.insert k v).get? k' = if k' = k then some v else t.get? k' :=
  find_put k k' v t.entries

theorem mem_keys_put {k k' : κ} {v : ν} {xs : List (κ × ν)} :
    k' ∈ (put k v xs).map (·.1) ↔ k' = k ∨ k' ∈ xs.map (·.1) := by
  induction xs with
  | nil => simp [put]
  | cons e rest ih =>
    unfold put
    split
    · rename_i he
      simp [he]
    · simp only [List.map_cons, List.mem_cons, ih]
      grind

theorem mem_keys_insert {t : Table κ ν} {k k' : κ} {v : ν} :
    k' ∈ (t.insert k v).keys ↔ k' = k ∨ k' ∈ t.keys := mem_keys_put

theorem mem_keys_of_get? {t : Table κ ν} {k : κ} {v : ν} (h : t.get? k = some v) : k ∈ t.keys := by
  obtain ⟨xs⟩ := t
  simp only [get?, keys] at h ⊢
  induction xs with
  | nil => cases h
  | cons e rest ih =>
    unfold find at h
    split at h
    · rename_i hk
      exact List.mem_map.mpr ⟨e, List.mem_cons_self, hk⟩
    · exact List.mem_cons_of_mem _ (ih h)

@[simp] theorem get?_empty (k : κ) : (empty : Table κ ν).get? k = none := rfl

end Table

/-- Adds a member at the end unless it is there already. -/
def insertName {α : Type} [DecidableEq α] (s : List α) (x : α) : List α :=
  if x ∈ s then s else s ++ [x]

/-- Adds the members of `t` to `s`, in order. -/
def unionNames {α : Type} [DecidableEq α] (s t : List α) : List α := t.foldl insertName s

theorem mem_insertName {α : Type} [DecidableEq α] {s : List α} {x y : α} :
    y ∈ insertName s x ↔ y ∈ s ∨ y = x := by
  unfold insertName
  split <;> grind

theorem mem_unionNames {α : Type} [DecidableEq α] {s t : List α} {y : α} :
    y ∈ unionNames s t ↔ y ∈ s ∨ y ∈ t := by
  unfold unionNames
  induction t generalizing s with
  | nil => simp
  | cons x rest ih => simp [ih, mem_insertName, or_assoc]

theorem nodup_insertName {α : Type} [DecidableEq α] {s : List α} {x : α} (h : s.Nodup) :
    (insertName s x).Nodup := by
  unfold insertName
  split
  · exact h
  · rw [List.nodup_append]
    grind

/-- Two listings of the same members. -/
def sameNames {α : Type} [DecidableEq α] (s t : List α) : Bool :=
  s.all (fun x => decide (x ∈ t)) && t.all (fun x => decide (x ∈ s))

/-- Sorted by code points. -/
def sortNames (s : List String) : List String := s.mergeSort (fun a b => decide (a ≤ b))

/-- Sorted by value. -/
def sortIds (s : List Int) : List Int := s.mergeSort (fun a b => decide (a ≤ b))

end CrossCall
