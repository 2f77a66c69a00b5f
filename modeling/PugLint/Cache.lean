/-!
# Bounded caches

A cache is a map that may forget its entries at any time but never changes them:
what is found in it was put in under the same key, and nothing was put in under
that key since. How many entries are kept, and which, is left to the cache.

* `Caching`: what can be done with caches, and what can be found in them
  afterwards;
* `LruCache`: caches that keep the entries used last.
-/

namespace PugLint

/-- Caches that may forget their entries but never change them. -/
class Caching where
  /-- The caches with given keys and values. -/
  Cache (κ ν : Type) : Type
  /-- A cache without entries, with room for some. -/
  empty {κ ν : Type} (capacity : Nat) : Cache κ ν
  /-- The value of a key, if it is found, and the cache after the search. -/
  get? {κ ν : Type} [DecidableEq κ] (cache : Cache κ ν) (key : κ) : Option ν × Cache κ ν
  /-- The cache with a value put in for a key. -/
  put {κ ν : Type} [DecidableEq κ] (cache : Cache κ ν) (key : κ) (value : ν) : Cache κ ν
  /-- The cache with room for another number of entries. -/
  resize {κ ν : Type} (cache : Cache κ ν) (capacity : Nat) : Cache κ ν
  /-- The cache without its entries. -/
  clear {κ ν : Type} (cache : Cache κ ν) : Cache κ ν
  get?_empty {κ ν : Type} [DecidableEq κ] (capacity : Nat) (key : κ) :
    (get? (empty capacity : Cache κ ν) key).1 = none
  get?_of_get? {κ ν : Type} [DecidableEq κ] {cache : Cache κ ν} {key other : κ} {value : ν}
    (h : (get? (get? cache key).2 other).1 = some value) : (get? cache other).1 = some value
  get?_of_put {κ ν : Type} [DecidableEq κ] {cache : Cache κ ν} {key other : κ} {value found : ν}
    (h : (get? (put cache key value) other).1 = some found) :
    if other = key then found = value else (get? cache other).1 = some found
  get?_of_resize {κ ν : Type} [DecidableEq κ] {cache : Cache κ ν} {capacity : Nat} {key : κ}
    {value : ν} (h : (get? (resize cache capacity) key).1 = some value) :
    (get? cache key).1 = some value
  get?_clear {κ ν : Type} [DecidableEq κ] (cache : Cache κ ν) (key : κ) :
    (get? (clear cache) key).1 = none

/-! ### Least recently used -/

/-- A cache that keeps the entries that were asked for or put in last, up to a
    bound. -/
structure LruCache (κ ν : Type) where
  /-- How many entries are kept. -/
  capacity : Nat
  /-- The entries, the most recent first. -/
  entries : List (κ × ν)
  deriving Repr, Inhabited

namespace LruCache

variable {κ ν : Type}

/-- An empty cache; a bound of zero counts as one. -/
def empty (capacity : Nat) : LruCache κ ν := ⟨max 1 capacity, []⟩

/-- The cache with another bound; a bound of zero counts as one. -/
def resize (cache : LruCache κ ν) (capacity : Nat) : LruCache κ ν :=
  ⟨max 1 capacity, cache.entries.take (max 1 capacity)⟩

/-- The cache without its entries. -/
def clear (cache : LruCache κ ν) : LruCache κ ν :=
  { cache with entries := [] }

variable [DecidableEq κ]

/-- The value of a key, if it is kept. -/
def find? (cache : LruCache κ ν) (key : κ) : Option ν :=
  cache.entries.lookup key

/-- The entries without those of a key. -/
def without (cache : LruCache κ ν) (key : κ) : List (κ × ν) :=
  cache.entries.filter fun (k, _) => k != key

/-- The cache with a value for a key as its most recent entry. -/
def put (cache : LruCache κ ν) (key : κ) (value : ν) : LruCache κ ν :=
  { cache with entries := ((key, value) :: cache.without key).take cache.capacity }

/-- The value of a key and the cache in which it is the most recent one. -/
def get? (cache : LruCache κ ν) (key : κ) : Option ν × LruCache κ ν :=
  match cache.find? key with
  | some value => (some value, { cache with entries := (key, value) :: cache.without key })
  | none => (none, cache)

variable {cache : LruCache κ ν} {key other : κ} {value found : ν}

theorem get?_fst (cache : LruCache κ ν) (key : κ) : (cache.get? key).1 = cache.find? key := by
  rw [get?]
  cases cache.find? key <;> rfl

theorem lookup_of_take {entries : List (κ × ν)} {n : Nat}
    (h : (entries.take n).lookup key = some value) : entries.lookup key = some value := by
  rw [← List.take_append_drop n entries, List.lookup_append, h]
  rfl

theorem lookup_without (cache : LruCache κ ν) (hne : other ≠ key) :
    (cache.without key).lookup other = cache.find? other := by
  rw [without, find?]
  induction cache.entries with
  | nil => rfl
  | cons entry entries ih =>
    obtain ⟨k, v⟩ := entry
    by_cases hk : k = key
    · -- The entry that is left out is not the one that is asked for.
      rw [List.filter_cons_of_neg (by simp [hk]), ih, List.lookup_cons, hk,
        beq_eq_false_iff_ne.2 hne]
    · rw [List.filter_cons_of_pos (by simp [hk]), List.lookup_cons, List.lookup_cons, ih]

theorem find?_cons_without :
    LruCache.find? ⟨cache.capacity, (key, value) :: cache.without key⟩ other =
      if other = key then some value else cache.find? other := by
  rw [find?, List.lookup_cons]
  split
  · rename_i heq
    rw [if_pos (beq_iff_eq.1 heq)]
  · rename_i hne
    rw [if_neg (beq_eq_false_iff_ne.1 hne), lookup_without cache (beq_eq_false_iff_ne.1 hne)]

theorem find?_get? (cache : LruCache κ ν) (key other : κ) :
    (cache.get? key).2.find? other = cache.find? other := by
  rw [get?]
  split
  · rename_i value hfound
    rw [find?_cons_without]
    split
    · rename_i heq
      rw [heq, hfound]
    · rfl
  · rfl

theorem find?_of_put (h : (cache.put key value).find? other = some found) :
    if other = key then found = value else cache.find? other = some found := by
  have hfound : LruCache.find? ⟨cache.capacity, (key, value) :: cache.without key⟩ other =
      some found := lookup_of_take h
  rw [find?_cons_without] at hfound
  split at hfound
  · rename_i heq
    rw [if_pos heq, Option.some.inj hfound]
  · rename_i hne
    rwa [if_neg hne]

instance caching : Caching where
  Cache := LruCache
  empty := empty
  get? := get?
  put := put
  resize := resize
  clear := clear
  get?_empty _ _ := by
    rw [get?_fst]
    rfl
  get?_of_get? h := by
    rwa [get?_fst, find?_get?, ← get?_fst] at h
  get?_of_put h := by
    rw [get?_fst] at h ⊢
    exact find?_of_put h
  get?_of_resize h := by
    rw [get?_fst] at h ⊢
    exact lookup_of_take h
  get?_clear _ _ := by
    rw [get?_fst]
    rfl

end LruCache

end PugLint
