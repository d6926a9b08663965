/-!
# Tables

A table binds keys to values and holds each key once.  Entries keep the order in
which their keys were first put, and putting a key again replaces its value.

Main results:

- Theorem `find?_put`: a put is seen under its key and nowhere else.
- Theorem `find?_erase`: an erased key is gone and no other key is.
- Theorem `find?_retain`: a table cut down by its keys keeps what it keeps.
-/

namespace SlotGrammar

/-- A binding of keys to values that holds each key once. -/
structure Table (κ β : Type) where
  entries : List (κ × β)
  nodup : (entries.map Prod.fst).Nodup

namespace Table

variable {κ β : Type} [DecidableEq κ]

/-! ## Lists of entries -/

/-- The value of the first entry with the given key. -/
def lookup (key : κ) : List (κ × β) → Option β
  | [] => none
  | entry :: rest => if entry.1 = key then some entry.2 else lookup key rest

/-- Replaces the value of a key, or adds the key at the end. -/
def replace (key : κ) (value : β) : List (κ × β) → List (κ × β)
  | [] => [(key, value)]
  | entry :: rest =>
    if entry.1 = key then (key, value) :: rest else entry :: replace key value rest

/-- Replacing adds the key, and keeps every other. -/
theorem mem_keys_replace {key k : κ} {value : β} {es : List (κ × β)} :
    k ∈ (replace key value es).map Prod.fst ↔ k = key ∨ k ∈ es.map Prod.fst := by
  induction es with
  | nil => simp [replace]
  | cons e es ih =>
    rw [replace]
    split
    · next h => simp [h]
    · next h =>
      rw [List.map_cons, List.mem_cons, ih, List.map_cons, List.mem_cons]
      exact or_left_comm

/-- Replacing keeps every key listed once. -/
theorem nodup_keys_replace {key : κ} {value : β} {es : List (κ × β)}
    (h : (es.map Prod.fst).Nodup) : ((replace key value es).map Prod.fst).Nodup := by
  induction es with
  | nil => simp [replace]
  | cons e es ih =>
    rw [List.map_cons, List.nodup_cons] at h
    rw [replace]
    split
    · next he => rw [List.map_cons, List.nodup_cons]; exact ⟨he ▸ h.1, h.2⟩
    · next he =>
      rw [List.map_cons, List.nodup_cons]
      refine ⟨fun hmem => ?_, ih h.2⟩
      rcases mem_keys_replace.mp hmem with hk | hk
      · exact he hk
      · exact h.1 hk

/-- A replaced key is looked up as its new value, every other key as before. -/
theorem lookup_replace (key k : κ) (value : β) (es : List (κ × β)) :
    lookup k (replace key value es) = if key = k then some value else lookup k es := by
  induction es with
  | nil => simp [replace, lookup]
  | cons e es ih =>
    rw [replace]
    split
    · next he =>
      by_cases hk : key = k
      · simp [lookup, hk]
      · simp [lookup, hk, he]
    · next he =>
      by_cases hek : e.1 = k
      · have : key ≠ k := fun h => he (hek.trans h.symm)
        simp [lookup, hek, this]
      · simp [lookup, hek, ih]

/-- What a filter of keys keeps is looked up as before, the rest in vain. -/
theorem lookup_filter (keep : κ → Bool) (k : κ) (es : List (κ × β)) :
    lookup k (es.filter fun e => keep e.1) = if keep k then lookup k es else none := by
  induction es with
  | nil => simp [lookup]
  | cons e es ih =>
    by_cases hk : e.1 = k
    · subst hk
      cases hkeep : keep e.1
      · simp [List.filter, hkeep, ih]
      · simp [List.filter, lookup, hkeep]
    · cases hkeep : keep e.1
      · simp [List.filter, lookup, hkeep, hk, ih]
      · simp [List.filter, lookup, hkeep, hk, ih]

omit [DecidableEq κ] in
/-- Filtering keeps every key listed once. -/
theorem nodup_keys_filter {keep : κ × β → Bool} {es : List (κ × β)}
    (h : (es.map Prod.fst).Nodup) : ((es.filter keep).map Prod.fst).Nodup :=
  h.sublist ((List.filter_sublist (l := es)).map Prod.fst)

/-! ## Operations -/

/-- The table without entries. -/
def empty : Table κ β := ⟨[], by simp⟩

instance : Inhabited (Table κ β) := ⟨empty⟩

/-- The value bound to a key, if any. -/
def find? (t : Table κ β) (key : κ) : Option β := lookup key t.entries

/-- Binds a key, replacing the value it had. -/
def put (t : Table κ β) (key : κ) (value : β) : Table κ β :=
  ⟨replace key value t.entries, nodup_keys_replace t.nodup⟩

/-- Binds the keys of a list, later ones replacing earlier ones. -/
def putAll (t : Table κ β) (entries : List (κ × β)) : Table κ β :=
  entries.foldl (fun t e => t.put e.1 e.2) t

/-- The entries whose keys satisfy a test. -/
def retain (t : Table κ β) (keep : κ → Bool) : Table κ β :=
  ⟨t.entries.filter fun e => keep e.1, nodup_keys_filter t.nodup⟩

/-- Removes a key. -/
def erase (t : Table κ β) (key : κ) : Table κ β := t.retain fun k => decide (k ≠ key)

/-- The number of keys. -/
def size (t : Table κ β) : Nat := t.entries.length

/-- The bound values, in the order of their keys. -/
def values (t : Table κ β) : List β := t.entries.map Prod.snd

@[simp]
theorem find?_empty (key : κ) : (empty : Table κ β).find? key = none := rfl

omit [DecidableEq κ] in
@[simp]
theorem size_empty : (empty : Table κ β).size = 0 := rfl

/-- A put is seen under its key and nowhere else. -/
theorem find?_put (t : Table κ β) (key k : κ) (value : β) :
    (t.put key value).find? k = if key = k then some value else t.find? k :=
  lookup_replace key k value t.entries

/-- A table cut down by its keys finds exactly the keys that were kept. -/
theorem find?_retain (t : Table κ β) (keep : κ → Bool) (k : κ) :
    (t.retain keep).find? k = if keep k then t.find? k else none :=
  lookup_filter keep k t.entries

/-- An erased key is gone and no other key is. -/
theorem find?_erase (t : Table κ β) (key k : κ) :
    (t.erase key).find? k = if k = key then none else t.find? k := by
  rw [erase, find?_retain]
  by_cases h : k = key
  · simp [h]
  · simp [h]

end Table

end SlotGrammar
