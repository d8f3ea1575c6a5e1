import Mathlib.Data.Finset.Card
import WordMachine.Environment

/-!
# The keys of an environment

The bindings of an environment are in strictly increasing order of their keys, so no key is there
twice and **the size counts the keys** (`card_keys`).
-/

set_option autoImplicit false

namespace WordMachine
namespace Environment

/-- The words that an environment binds. -/
def keys (e : Environment) : Finset Text := (e.bindings.map Prod.fst).toFinset

theorem isSome_findBinding?_iff {key : Text} {bindings : List (Text × Value)} :
    (findBinding? key bindings).isSome ↔ key ∈ bindings.map Prod.fst := by
  induction bindings with
  | nil => simp [findBinding?]
  | cons first rest ih =>
    rw [findBinding?, List.map_cons, List.mem_cons]
    by_cases h : key = first.1
    · simp [h]
    · simp [h, ih]

theorem mem_keys {e : Environment} {key : Text} : key ∈ e.keys ↔ e.contains key := by
  rw [keys, List.mem_toFinset, contains, find?, isSome_findBinding?_iff]

theorem nodup_keys (e : Environment) : (e.bindings.map Prod.fst).Nodup :=
  e.sorted.map Prod.fst fun _ _ h => key_ne_of_lt h

theorem card_keys (e : Environment) : e.keys.card = e.size := by
  rw [keys, List.toFinset_card_of_nodup e.nodup_keys, List.length_map, size]

end Environment
end WordMachine
