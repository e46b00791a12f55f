import Mathlib
import Mainboard.OrderedMap

/-! Counts kept under keys, one added after the other. A key's count is the sum of what was added under it, and the
counts together are the sum of all that was added. -/

namespace OrderedMap

variable {κ : Type} [DecidableEq κ]

/-- The counts with one more under a key. -/
def add (entries : List (κ × ℤ)) (pair : κ × ℤ) : List (κ × ℤ) :=
  put entries pair.1 ((get entries pair.1).getD 0 + pair.2)

/-- The counts of a sequence of pairs. -/
def counted (pairs : List (κ × ℤ)) : List (κ × ℤ) := pairs.foldl add []

variable {entries pairs : List (κ × ℤ)}

theorem counted_snoc (pairs : List (κ × ℤ)) (pair : κ × ℤ) : counted (pairs ++ [pair]) = add (counted pairs) pair := by
  rw [counted, List.foldl_append]
  rfl

theorem get_counted (pairs : List (κ × ℤ)) (key : κ) :
    (get (counted pairs) key).getD 0 = ((pairs.filter fun pair => pair.1 = key).map (·.2)).sum := by
  induction pairs using List.reverseRecOn with
  | nil => rfl
  | append_singleton pairs pair ih =>
      rw [counted_snoc, add, get_put, List.filter_append, List.map_append, List.sum_append, ← ih]
      by_cases hkey : pair.1 = key
      · simp [hkey]
      · simp [hkey]

theorem nodup_keys_counted (pairs : List (κ × ℤ)) : ((counted pairs).map (·.1)).Nodup := by
  induction pairs using List.reverseRecOn with
  | nil => exact List.nodup_nil
  | append_singleton pairs pair ih =>
      rw [counted_snoc]
      exact nodup_keys_put ih _ _

/-- A value put under a key changes the sum of the values by as much as the key's own. -/
theorem sum_put (hkeys : (entries.map (·.1)).Nodup) (key : κ) (value : ℤ) :
    ((put entries key value).map (·.2)).sum = (entries.map (·.2)).sum - (get entries key).getD 0 + value := by
  induction entries with
  | nil => simp [put, get]
  | cons entry entries ih =>
      rw [List.map_cons, List.nodup_cons] at hkeys
      unfold put
      split
      · next hkey =>
          have hget : get (entry :: entries) key = some entry.2 := by simp [get, hkey]
          rw [hget, Option.getD_some, List.map_cons, List.sum_cons, List.map_cons, List.sum_cons]
          ring
      · next hkey =>
          have hget : get (entry :: entries) key = get entries key := by simp [get, hkey]
          rw [hget, List.map_cons, List.sum_cons, List.map_cons, List.sum_cons, ih hkeys.2]
          ring

theorem sum_counted (pairs : List (κ × ℤ)) : ((counted pairs).map (·.2)).sum = (pairs.map (·.2)).sum := by
  induction pairs using List.reverseRecOn with
  | nil => rfl
  | append_singleton pairs pair ih =>
      rw [counted_snoc, add, sum_put (nodup_keys_counted pairs), ih, List.map_append, List.sum_append, List.map_singleton,
        List.sum_singleton]
      ring

end OrderedMap
