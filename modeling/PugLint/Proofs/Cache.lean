import PugLint.Cache

/-!
# What a cache keeps

What is found in a cache has been put in before under the same key. So a
property of all entries that were put in is a property of everything that is
found.

* `Caching.Keeps`: a property of every key and the value found for it;
* `Keeps.put`, `Keeps.get?`, `Keeps.resize`, `Caching.keeps_clear`: every change
  of a cache preserves it.
-/

namespace PugLint.Caching

variable [Caching] {κ ν : Type} [DecidableEq κ] {P : κ → ν → Prop} {cache : Cache κ ν}

/-- Every value that is found in a cache has a property together with its key. -/
def Keeps (P : κ → ν → Prop) (cache : Cache κ ν) : Prop :=
  ∀ key value, (get? cache key).1 = some value → P key value

theorem keeps_empty (capacity : Nat) : Keeps P (empty capacity) := by
  intro key value hfound
  rw [get?_empty] at hfound
  cases hfound

theorem keeps_clear (cache : Cache κ ν) : Keeps P (clear cache) := by
  intro key value hfound
  rw [get?_clear] at hfound
  cases hfound

theorem Keeps.resize (h : Keeps P cache) (capacity : Nat) :
    Keeps P (resize cache capacity) :=
  fun key value hfound => h key value (get?_of_resize hfound)

/-- A search may forget entries, and adds none. -/
theorem Keeps.get? (h : Keeps P cache) (key : κ) : Keeps P (get? cache key).2 :=
  fun other value hfound => h other value (get?_of_get? hfound)

/-- Putting an entry in may forget others, and adds nothing but that entry. -/
theorem Keeps.put (h : Keeps P cache) {key : κ} {value : ν} (hP : P key value) :
    Keeps P (put cache key value) := by
  intro other found hfound
  have hput := get?_of_put hfound
  split at hput
  · rename_i heq
    rw [heq, hput]
    exact hP
  · exact h other found hput

end PugLint.Caching
