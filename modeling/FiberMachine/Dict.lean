/-!
# Dictionaries keyed by text

A `Dict` keeps one value per name. Storing under a name that is present replaces its value in
place; a new name goes to the end.
-/

namespace FiberMachine

/-- Values under names. -/
structure Dict (α : Type) where
  entries : List (String × α) := []
  /-- No name has two values. -/
  nodup : (entries.map Prod.fst).Nodup := by exact List.nodup_nil

namespace Dict

variable {α β : Type}

instance : Inhabited (Dict α) := ⟨{}⟩

def empty : Dict α := {}

/-- The value of the first entry named `name`. -/
def find (name : String) : List (String × α) → Option α
  | [] => none
  | (k, v) :: rest => if k = name then some v else find name rest

/-- The entries with `value` stored under `name`. -/
def store (name : String) (value : α) : List (String × α) → List (String × α)
  | [] => [(name, value)]
  | (k, v) :: rest => if k = name then (k, value) :: rest else (k, v) :: store name value rest

theorem map_fst_store (name : String) (value : α) (entries : List (String × α)) :
    (store name value entries).map Prod.fst =
      if name ∈ entries.map Prod.fst then entries.map Prod.fst
      else entries.map Prod.fst ++ [name] := by
  induction entries with
  | nil => rfl
  | cons e rest ih =>
    simp only [store]
    by_cases h : e.1 = name
    · simp [h]
    · rw [if_neg h, List.map_cons, ih, List.map_cons]
      simp only [List.mem_cons, Ne.symm h, false_or]
      split <;> rfl

theorem nodup_store {entries : List (String × α)} (h : (entries.map Prod.fst).Nodup)
    (name : String) (value : α) : ((store name value entries).map Prod.fst).Nodup := by
  rw [map_fst_store]
  split
  next => exact h
  next hname =>
    refine List.nodup_append.mpr ⟨h, List.nodup_cons.mpr ⟨List.not_mem_nil, List.nodup_nil⟩, ?_⟩
    intro a ha b hb heq
    exact hname (List.mem_singleton.mp hb ▸ heq ▸ ha)

def get? (d : Dict α) (name : String) : Option α := find name d.entries

def contains (d : Dict α) (name : String) : Bool := (d.get? name).isSome

def insert (d : Dict α) (name : String) (value : α) : Dict α :=
  ⟨store name value d.entries, nodup_store d.nodup name value⟩

def keys (d : Dict α) : List String := d.entries.map Prod.fst

def size (d : Dict α) : Nat := d.entries.length

def isEmpty (d : Dict α) : Bool := d.entries.isEmpty

/-- The entries in the order of their names. -/
def sorted (d : Dict α) : List (String × α) :=
  d.entries.mergeSort fun a b => decide (a.1 ≤ b.1)

@[simp] theorem get?_empty (name : String) : (empty : Dict α).get? name = none := rfl

theorem find_store (name other : String) (value : α) (entries : List (String × α)) :
    find other (store name value entries) =
      if other = name then some value else find other entries := by
  induction entries with
  | nil => simp only [store, find]; grind
  | cons e rest ih => obtain ⟨k, v⟩ := e; simp only [store]; grind [find]

@[simp] theorem get?_insert_self (d : Dict α) (name : String) (value : α) :
    (d.insert name value).get? name = some value := by
  simp [insert, get?, find_store]

theorem get?_insert (d : Dict α) (name other : String) (value : α) :
    (d.insert name value).get? other = if other = name then some value else d.get? other := by
  simp [insert, get?, find_store]

theorem keys_insert (d : Dict α) (name : String) (value : α) :
    (d.insert name value).keys = if name ∈ d.keys then d.keys else d.keys ++ [name] :=
  map_fst_store name value d.entries

theorem find_eq_none_iff {name : String} {entries : List (String × α)} :
    find name entries = none ↔ name ∉ entries.map Prod.fst := by
  induction entries with
  | nil => simp [find]
  | cons e rest ih =>
    rw [find, List.map_cons, List.mem_cons, not_or, ← ih]
    by_cases h : e.1 = name
    · simp [h]
    · simp [h, Ne.symm h]

theorem find_eq_some_iff {name : String} {value : α} {entries : List (String × α)}
    (hnodup : (entries.map Prod.fst).Nodup) :
    find name entries = some value ↔ (name, value) ∈ entries := by
  induction entries with
  | nil => simp [find]
  | cons e rest ih =>
    obtain ⟨k, v⟩ := e
    obtain ⟨hk, hrest⟩ := List.nodup_cons.mp hnodup
    rw [find, List.mem_cons, Prod.mk.injEq]
    by_cases h : k = name
    · subst h
      have hvalue : (k, value) ∉ rest := fun hmem => hk (List.mem_map.mpr ⟨_, hmem, rfl⟩)
      simp [hvalue, eq_comm]
    · simp [h, Ne.symm h, ih hrest]

theorem get?_eq_none_iff {d : Dict α} {name : String} : d.get? name = none ↔ name ∉ d.keys :=
  find_eq_none_iff

theorem get?_eq_some_iff {d : Dict α} {name : String} {value : α} :
    d.get? name = some value ↔ (name, value) ∈ d.entries :=
  find_eq_some_iff d.nodup

end Dict

end FiberMachine
