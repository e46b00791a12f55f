import Mathlib.Data.List.Basic
import Mathlib.Data.List.Induction
import Mathlib.Data.List.Nodup

/-! Maps that remember in which order their keys were first put, as lists of entries. A key put again
keeps its place and takes the new value. -/

namespace OrderedMap

variable {κ ν : Type} [DecidableEq κ]

/-- The value standing under a key. -/
def get (entries : List (κ × ν)) (key : κ) : Option ν :=
  (entries.find? fun entry => entry.1 = key).map (·.2)

/-- The map with a value under a key: in the key's place, or last where it is new. -/
def put : List (κ × ν) → κ → ν → List (κ × ν)
  | [], key, value => [(key, value)]
  | entry :: entries, key, value =>
      if entry.1 = key then (key, value) :: entries else entry :: put entries key value

/-- The map of a sequence of pairs put one after the other. -/
def ofPairs (pairs : List (κ × ν)) : List (κ × ν) :=
  pairs.foldl (fun entries pair => put entries pair.1 pair.2) []

theorem get_put (entries : List (κ × ν)) (key other : κ) (value : ν) :
    get (put entries key value) other = if key = other then some value else get entries other := by
  induction entries with
  | nil =>
      unfold put get
      by_cases hkey : key = other <;> simp [hkey]
  | cons entry entries ih =>
      unfold put
      by_cases hentry : entry.1 = key
      · rw [if_pos hentry]
        by_cases hkey : key = other
        · simp [get, hkey]
        · have hother : entry.1 ≠ other := fun h => hkey (hentry.symm.trans h)
          simp [get, hkey, hother]
      · rw [if_neg hentry]
        by_cases hother : entry.1 = other
        · have hkey : key ≠ other := fun h => hentry (hother.trans h.symm)
          simp [get, hkey, hother]
        · have hskip : ∀ rest : List (κ × ν), get (entry :: rest) other = get rest other := by
            intro rest
            simp [get, hother]
          rw [hskip, hskip, ih]

theorem get_put_of_ne (entries : List (κ × ν)) {key other : κ} (value : ν) (h : other ≠ key) :
    get (put entries key value) other = get entries other := by
  rw [get_put, if_neg (Ne.symm h)]

theorem get_put_self (entries : List (κ × ν)) (key : κ) (value : ν) : get (put entries key value) key = some value := by
  rw [get_put, if_pos rfl]

theorem get_put_ne_none {entries : List (κ × ν)} {key other : κ} {value : ν} (h : get entries other ≠ none) :
    get (put entries key value) other ≠ none := by
  rw [get_put]
  split
  · exact Option.some_ne_none value
  · exact h

theorem keys_put (entries : List (κ × ν)) (key : κ) (value : ν) :
    (put entries key value).map (·.1) =
      if key ∈ entries.map (·.1) then entries.map (·.1) else entries.map (·.1) ++ [key] := by
  induction entries with
  | nil => rfl
  | cons entry entries ih =>
      unfold put
      by_cases hentry : entry.1 = key
      · simp [hentry]
      · have hnot : key ≠ entry.1 := Ne.symm hentry
        rw [if_neg hentry, List.map_cons, List.map_cons, ih]
        by_cases hmem : key ∈ entries.map (·.1)
        · rw [if_pos hmem, if_pos (List.mem_cons_of_mem _ hmem)]
        · rw [if_neg hmem, if_neg (fun h => (List.mem_cons.mp h).elim hnot hmem), List.cons_append]

theorem nodup_keys_put {entries : List (κ × ν)} (h : (entries.map (·.1)).Nodup) (key : κ) (value : ν) :
    ((put entries key value).map (·.1)).Nodup := by
  rw [keys_put]
  split
  · exact h
  · rename_i hnew
    exact List.nodup_append.mpr ⟨h, List.nodup_singleton _, fun one hone other hother => by
      rintro rfl
      rw [List.mem_singleton.mp hother] at hone
      exact hnew hone⟩

/-- Whatever stands in the new map was put, or stood in the map before. -/
theorem eq_or_mem_of_mem_put {entries : List (κ × ν)} {key : κ} {value : ν} {entry : κ × ν}
    (h : entry ∈ put entries key value) : entry = (key, value) ∨ entry ∈ entries := by
  induction entries with
  | nil => exact Or.inl (List.mem_singleton.mp h)
  | cons first entries ih =>
      unfold put at h
      split at h
      · rcases List.mem_cons.mp h with rfl | hlate
        · exact Or.inl rfl
        · exact Or.inr (List.mem_cons_of_mem _ hlate)
      · rcases List.mem_cons.mp h with rfl | hlate
        · exact Or.inr List.mem_cons_self
        · exact (ih hlate).imp_right (List.mem_cons_of_mem _)

theorem self_mem_put (entries : List (κ × ν)) (key : κ) (value : ν) : (key, value) ∈ put entries key value := by
  induction entries with
  | nil => exact List.mem_cons_self
  | cons first entries ih =>
      rw [put]
      split
      · exact List.mem_cons_self
      · exact List.mem_cons_of_mem _ ih

/-- An entry stays when a key is put, unless it is the one found under that key. -/
theorem mem_put_or_get {entries : List (κ × ν)} {entry : κ × ν} (h : entry ∈ entries) (key : κ) (value : ν) :
    entry ∈ put entries key value ∨ get entries key = some entry.2 := by
  induction entries with
  | nil => cases h
  | cons first entries ih =>
      rw [put, get, List.find?_cons]
      by_cases hkey : first.1 = key
      · rw [if_pos hkey, decide_eq_true hkey]
        rcases List.mem_cons.mp h with rfl | hlater
        · exact Or.inr rfl
        · exact Or.inl (List.mem_cons_of_mem _ hlater)
      · rw [if_neg hkey, decide_eq_false hkey]
        rcases List.mem_cons.mp h with rfl | hlater
        · exact Or.inl List.mem_cons_self
        · exact (ih hlater).imp_left (List.mem_cons_of_mem _)

theorem mem_keys_put {entries : List (κ × ν)} {key other : κ} {value : ν} :
    other ∈ (put entries key value).map (·.1) ↔ other = key ∨ other ∈ entries.map (·.1) := by
  rw [keys_put]
  split
  · rename_i hkey
    exact ⟨Or.inr, fun h => h.elim (fun heq => heq ▸ hkey) id⟩
  · rw [List.mem_append, List.mem_singleton, or_comm]

/-- The pairs put one after the other over a map. -/
def putAll (entries pairs : List (κ × ν)) : List (κ × ν) :=
  pairs.foldl (fun entries pair => put entries pair.1 pair.2) entries

theorem mem_of_mem_putAll {entries pairs : List (κ × ν)} {entry : κ × ν} (h : entry ∈ putAll entries pairs) :
    entry ∈ pairs ∨ entry ∈ entries := by
  induction pairs generalizing entries with
  | nil => exact Or.inr h
  | cons pair pairs ih =>
      rcases ih h with hlate | hput
      · exact Or.inl (List.mem_cons_of_mem _ hlate)
      · refine (eq_or_mem_of_mem_put hput).imp_left fun heq => ?_
        rw [heq]
        exact List.mem_cons_self

theorem mem_keys_putAll {entries pairs : List (κ × ν)} {key : κ} :
    key ∈ (putAll entries pairs).map (·.1) ↔ key ∈ pairs.map (·.1) ∨ key ∈ entries.map (·.1) := by
  induction pairs generalizing entries with
  | nil =>
      refine ⟨Or.inr, fun h => h.resolve_left fun hnil => ?_⟩
      cases hnil
  | cons pair pairs ih =>
      have hstep : putAll entries (pair :: pairs) = putAll (put entries pair.1 pair.2) pairs := rfl
      rw [hstep, ih, mem_keys_put, List.map_cons, List.mem_cons, or_left_comm, or_assoc]

theorem put_of_not_mem {entries : List (κ × ν)} {key : κ} (h : key ∉ entries.map (·.1)) (value : ν) :
    put entries key value = entries ++ [(key, value)] := by
  induction entries with
  | nil => rfl
  | cons first entries ih =>
      rw [List.map_cons, List.mem_cons, not_or] at h
      rw [put, if_neg (Ne.symm h.1), ih h.2]
      rfl

/-- Pairs of new and distinct keys are put last, in their order. -/
theorem putAll_of_nodup {entries pairs : List (κ × ν)} (h : ((entries ++ pairs).map (·.1)).Nodup) :
    putAll entries pairs = entries ++ pairs := by
  induction pairs generalizing entries with
  | nil => exact (List.append_nil entries).symm
  | cons pair pairs ih =>
      have hnew : pair.1 ∉ entries.map (·.1) := fun hmem => by
        rw [List.map_append, List.nodup_append] at h
        exact h.2.2 pair.1 hmem pair.1 List.mem_cons_self rfl
      have hstep : putAll entries (pair :: pairs) = putAll (put entries pair.1 pair.2) pairs := rfl
      rw [hstep, put_of_not_mem hnew, ih]
      · rw [List.append_assoc]
        rfl
      · rwa [List.append_assoc]

theorem ofPairs_snoc (pairs : List (κ × ν)) (pair : κ × ν) :
    ofPairs (pairs ++ [pair]) = put (ofPairs pairs) pair.1 pair.2 := by
  rw [ofPairs, ofPairs, List.foldl_append]
  rfl

theorem nodup_keys_ofPairs (pairs : List (κ × ν)) : ((ofPairs pairs).map (·.1)).Nodup := by
  induction pairs using List.reverseRecOn with
  | nil => exact List.nodup_nil
  | append_singleton pairs pair ih =>
      rw [ofPairs_snoc]
      exact nodup_keys_put ih _ _

theorem mem_keys_ofPairs {pairs : List (κ × ν)} {key : κ} :
    key ∈ (ofPairs pairs).map (·.1) ↔ key ∈ pairs.map (·.1) := by
  induction pairs using List.reverseRecOn with
  | nil => exact Iff.rfl
  | append_singleton pairs pair ih =>
      rw [ofPairs_snoc, keys_put, List.map_append, List.mem_append, ← ih]
      split
      · rename_i hold
        refine ⟨Or.inl, fun h => h.elim id fun hlast => ?_⟩
        rw [List.mem_singleton.mp hlast]
        exact hold
      · exact List.mem_append

/-- What stands under a key is the value of the last pair of that key. -/
theorem get_ofPairs (pairs : List (κ × ν)) (key : κ) :
    get (ofPairs pairs) key = (pairs.reverse.find? fun pair => pair.1 = key).map (·.2) := by
  induction pairs using List.reverseRecOn with
  | nil => rfl
  | append_singleton pairs pair ih =>
      rw [ofPairs_snoc, get_put, ih, List.reverse_append, List.reverse_singleton, List.singleton_append,
        List.find?_cons]
      by_cases hkey : pair.1 = key <;> simp [hkey]

theorem get_eq_none_iff (entries : List (κ × ν)) (key : κ) :
    get entries key = none ↔ key ∉ entries.map (·.1) := by
  unfold get
  rw [Option.map_eq_none_iff, List.find?_eq_none]
  simp only [decide_eq_true_eq, List.mem_map, not_exists, not_and]

theorem mem_of_get {entries : List (κ × ν)} {key : κ} {value : ν} (h : get entries key = some value) :
    (key, value) ∈ entries := by
  obtain ⟨entry, hentry, rfl⟩ := Option.map_eq_some_iff.mp h
  have hkey := List.find?_some hentry
  rw [decide_eq_true_eq] at hkey
  exact hkey ▸ List.mem_of_find?_eq_some hentry

theorem get_of_mem {entries : List (κ × ν)} (hkeys : (entries.map (·.1)).Nodup) {entry : κ × ν}
    (h : entry ∈ entries) : get entries entry.1 = some entry.2 := by
  induction entries with
  | nil => cases h
  | cons first entries ih =>
      rw [List.map_cons, List.nodup_cons] at hkeys
      rcases List.mem_cons.mp h with rfl | hlate
      · simp [get]
      · have hne : first.1 ≠ entry.1 := fun hsame => hkeys.1 (hsame ▸ List.mem_map_of_mem hlate)
        rw [← ih hkeys.2 hlate]
        simp [get, hne]

theorem nodup_keys_putAll {entries : List (κ × ν)} (h : (entries.map (·.1)).Nodup) (pairs : List (κ × ν)) :
    ((putAll entries pairs).map (·.1)).Nodup := by
  induction pairs generalizing entries with
  | nil => exact h
  | cons pair pairs ih => exact ih (nodup_keys_put h _ _)

/-- What stands under a key once each of some keys has been put with its own value. -/
theorem get_putAll_map (entries : List (κ × ν)) (keys : List κ) (value : κ → ν) (key : κ) :
    get (putAll entries (keys.map fun one => (one, value one))) key =
      if key ∈ keys then some (value key) else get entries key := by
  induction keys generalizing entries with
  | nil => simp [putAll]
  | cons one keys ih =>
      have hstep : putAll entries ((one :: keys).map fun one => (one, value one)) =
          putAll (put entries one (value one)) (keys.map fun one => (one, value one)) := rfl
      rw [hstep, ih, get_put]
      by_cases hkey : one = key
      · simp [hkey]
      · simp [hkey, Ne.symm hkey]

/-- What stands under a key once the entries of some keys have been dropped. -/
theorem get_filter (entries : List (κ × ν)) (keep : κ → Bool) (key : κ) :
    get (entries.filter fun entry => keep entry.1) key = if keep key then get entries key else none := by
  induction entries with
  | nil => exact (ite_self none).symm
  | cons entry entries ih =>
      unfold get at ih ⊢
      rw [List.filter_cons]
      by_cases hkey : entry.1 = key
      · by_cases hkeep : keep key
        · simp [hkey, hkeep]
        · rw [if_neg hkeep] at ih
          rw [hkey, if_neg hkeep, if_neg hkeep, ih]
      · rw [List.find?_cons_of_neg (by simpa using hkey), ← ih]
        split
        · rw [List.find?_cons_of_neg (by simpa using hkey)]
        · rfl

theorem get_without_of_ne (entries : List (κ × ν)) {key other : κ} (h : other ≠ key) :
    get (entries.filter (·.1 ≠ key)) other = get entries other := by
  have hfilter := get_filter entries (fun name => decide (name ≠ key)) other
  rw [if_pos (decide_eq_true h)] at hfilter
  exact hfilter

theorem get_cons (pair : κ × ν) (entries : List (κ × ν)) (key : κ) :
    get (pair :: entries) key = if pair.1 = key then some pair.2 else get entries key := by
  by_cases hkey : pair.1 = key <;> simp [get, hkey]

/-- Pairs of distinct keys put over a map stand over what it held. -/
theorem get_putAll {pairs : List (κ × ν)} (hkeys : (pairs.map (·.1)).Nodup) (entries : List (κ × ν)) (key : κ) :
    get (putAll entries pairs) key = (get pairs key).or (get entries key) := by
  induction pairs generalizing entries with
  | nil => rfl
  | cons pair pairs ih =>
      rw [List.map_cons, List.nodup_cons] at hkeys
      have hstep : putAll entries (pair :: pairs) = putAll (put entries pair.1 pair.2) pairs := rfl
      rw [hstep, ih hkeys.2, get_put, get_cons]
      by_cases hkey : pair.1 = key
      · have hnone : get pairs key = none := (get_eq_none_iff _ _).mpr (hkey ▸ hkeys.1)
        rw [if_pos hkey, if_pos hkey, hnone]
        rfl
      · rw [if_neg hkey, if_neg hkey]

/-- What stands in a map of pairs is each key's last pair. -/
theorem mem_ofPairs {pairs : List (κ × ν)} {pair : κ × ν} :
    pair ∈ ofPairs pairs ↔ ∃ before after, pairs = before ++ pair :: after ∧ ∀ later ∈ after, later.1 ≠ pair.1 := by
  have hget : pair ∈ ofPairs pairs ↔ get (ofPairs pairs) pair.1 = some pair.2 := by
    constructor
    · exact get_of_mem (nodup_keys_ofPairs pairs)
    · exact fun h => mem_of_get h
  rw [hget, get_ofPairs, Option.map_eq_some_iff]
  constructor
  · rintro ⟨other, hfind, hvalue⟩
    obtain ⟨hkey, late, early, hpairs, hlate⟩ := List.find?_eq_some_iff_append.mp hfind
    have hsame : other = pair := Prod.ext (of_decide_eq_true hkey) hvalue
    refine ⟨early.reverse, late.reverse, ?_, fun later hlater => ?_⟩
    · rw [← List.reverse_inj, hpairs, hsame]
      simp
    · simpa using hlate later (List.mem_reverse.mp hlater)
  · rintro ⟨before, after, rfl, hafter⟩
    refine ⟨pair, List.find?_eq_some_iff_append.mpr ⟨decide_eq_true rfl, after.reverse, before.reverse, ?_, ?_⟩, rfl⟩
    · simp
    · intro later hlater
      simpa using hafter later (List.mem_reverse.mp hlater)

/-! Values gathered under their keys -/

section Gather

/-- The values of a sequence of pairs under their keys, each key's in the order they came. -/
def gather (pairs : List (κ × ν)) : List (κ × List ν) :=
  pairs.foldl (fun groups pair => put groups pair.1 ((get groups pair.1).getD [] ++ [pair.2])) []

variable (pairs : List (κ × ν))

theorem gather_snoc (pair : κ × ν) :
    gather (pairs ++ [pair]) = put (gather pairs) pair.1 ((get (gather pairs) pair.1).getD [] ++ [pair.2]) := by
  rw [gather, List.foldl_append]
  rfl

theorem nodup_keys_gather : ((gather pairs).map (·.1)).Nodup := by
  induction pairs using List.reverseRecOn with
  | nil => exact List.nodup_nil
  | append_singleton pairs pair ih =>
      rw [gather_snoc]
      exact nodup_keys_put ih _ _

theorem getD_gather (key : κ) :
    (get (gather pairs) key).getD [] = (pairs.filter fun pair => pair.1 = key).map (·.2) := by
  induction pairs using List.reverseRecOn with
  | nil => rfl
  | append_singleton pairs pair ih =>
      rw [gather_snoc, get_put, List.filter_append, List.map_append, ← ih]
      by_cases hkey : pair.1 = key
      · subst hkey
        simp
      · simp [hkey]

theorem mem_keys_gather (key : κ) : key ∈ (gather pairs).map (·.1) ↔ key ∈ pairs.map (·.1) := by
  induction pairs using List.reverseRecOn with
  | nil => exact Iff.rfl
  | append_singleton pairs pair ih =>
      rw [gather_snoc, mem_keys_put, ih, List.map_append, List.mem_append, List.map_singleton, List.mem_singleton,
        or_comm]

/-- A key's group is not empty: it holds the values that came under the key. -/
theorem mem_gather {group : κ × List ν} (h : group ∈ gather pairs) :
    group.2 = (pairs.filter fun pair => pair.1 = group.1).map (·.2) ∧ group.2 ≠ [] := by
  have hvalues : group.2 = (pairs.filter fun pair => pair.1 = group.1).map (·.2) := by
    rw [← getD_gather, get_of_mem (nodup_keys_gather pairs) h]
    rfl
  refine ⟨hvalues, fun hnil => ?_⟩
  obtain ⟨pair, hpair, hkey⟩ := List.mem_map.mp ((mem_keys_gather pairs group.1).mp (List.mem_map_of_mem h))
  rw [hvalues, List.map_eq_nil_iff, List.filter_eq_nil_iff] at hnil
  exact hnil pair hpair (decide_eq_true hkey)

end Gather

end OrderedMap
