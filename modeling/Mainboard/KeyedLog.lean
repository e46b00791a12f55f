import Mathlib.Data.List.Basic

/-! An append-only log read through the view "the last entry of each key, unless it is a drop". The
key is a function of the value, so an entry and the key it is filed under cannot disagree. -/

namespace KeyedLog

/-- One appended record: the whole new value of its key, or its removal. -/
structure Entry (α : Type*) where
  value : α
  dropped : Bool
  deriving DecidableEq

variable {α κ : Type*} [DecidableEq κ] (key : α → κ)

/-- The last entry appended under `k`. -/
def last? (log : List (Entry α)) (k : κ) : Option (Entry α) :=
  log.reverse.find? fun entry => key entry.value = k

/-- The value `k` stands at, `none` when it was never appended or its last entry is a drop. -/
def current (log : List (Entry α)) (k : κ) : Option α :=
  (last? key log k).bind fun entry => if entry.dropped then none else some entry.value

/-- The current value of every key, in the order the deciding entries were appended. -/
def live : List (Entry α) → List α
  | [] => []
  | entry :: log =>
      if log.any (fun later => key later.value = key entry.value) || entry.dropped
      then live log
      else entry.value :: live log

theorem current_append_one (log : List (Entry α)) (entry : Entry α) (k : κ) :
    current key (log ++ [entry]) k =
      if key entry.value = k then (if entry.dropped then none else some entry.value)
      else current key log k := by
  simp only [current, last?, List.reverse_append, List.reverse_cons, List.reverse_nil,
    List.nil_append, List.singleton_append, List.find?_cons]
  by_cases hkey : key entry.value = k
  · simp [hkey]
  · simp [hkey]

@[simp] theorem current_put (log : List (Entry α)) (value : α) (k : κ) :
    current key (log ++ [⟨value, false⟩]) k =
      if key value = k then some value else current key log k := by
  simp [current_append_one]

@[simp] theorem current_drop (log : List (Entry α)) (value : α) (k : κ) :
    current key (log ++ [⟨value, true⟩]) k =
      if key value = k then none else current key log k := by
  simp [current_append_one]

/-- What stands under a key is filed under that key. -/
theorem key_of_current {log : List (Entry α)} {k : κ} {value : α}
    (h : current key log k = some value) : key value = k := by
  simp only [current, Option.bind_eq_some_iff] at h
  obtain ⟨entry, hlast, hvalue⟩ := h
  have hkey : key entry.value = k := by simpa using List.find?_some hlast
  split_ifs at hvalue
  cases hvalue
  exact hkey

theorem last?_cons (entry : Entry α) (log : List (Entry α)) (k : κ) :
    last? key (entry :: log) k =
      (last? key log k).or (if key entry.value = k then some entry else none) := by
  simp only [last?, List.reverse_cons, List.find?_append, List.find?_singleton, decide_eq_true_eq]

theorem last?_eq_none {log : List (Entry α)} {k : κ} :
    last? key log k = none ↔ ∀ entry ∈ log, key entry.value ≠ k := by
  simp [last?]

/-- The listing of the view holds exactly the values its keys stand at. -/
theorem mem_live {log : List (Entry α)} {value : α} :
    value ∈ live key log ↔ current key log (key value) = some value := by
  induction log with
  | nil => simp [live, current, last?]
  | cons entry log ih =>
      simp only [live]
      by_cases hlater : log.any (fun later => key later.value = key entry.value)
      · -- a later entry of the same key decides it
        rw [hlater, Bool.true_or, if_pos rfl, ih]
        by_cases hkey : key entry.value = key value
        · have hsome : last? key log (key value) ≠ none := by
            rw [Ne, last?_eq_none]
            obtain ⟨later, hmem, heq⟩ := List.any_eq_true.mp hlater
            intro hnone
            exact hnone later hmem ((of_decide_eq_true heq).trans hkey)
          obtain ⟨found, hfound⟩ := Option.ne_none_iff_exists'.mp hsome
          simp only [current, last?_cons, hfound, Option.some_or]
        · simp only [current, last?_cons, if_neg hkey, Option.or_none]
      · have hnone : last? key log (key entry.value) = none := by
          rw [last?_eq_none]
          intro later hmem heq
          exact hlater (List.any_eq_true.mpr ⟨later, hmem, decide_eq_true heq⟩)
        rw [Bool.eq_false_iff.mpr hlater, Bool.false_or]
        by_cases hkey : key entry.value = key value
        · rw [hkey] at hnone
          have hout : value ∉ live key log := by
            rw [ih]; simp [current, hnone]
          cases hdropped : entry.dropped with
          | true => simp [current, last?_cons, hnone, hkey, hdropped, hout]
          | false =>
              simp only [Bool.false_eq_true, if_false, List.mem_cons, hout, or_false, current,
                last?_cons, hnone, hkey, if_true, Option.none_or, Option.bind_some, hdropped,
                Option.some.injEq]
              exact eq_comm
        · have hne : value ≠ entry.value := fun h => hkey (by rw [h])
          have hsame : current key (entry :: log) (key value) = current key log (key value) := by
            simp only [current, last?_cons, if_neg hkey, Option.or_none]
          cases entry.dropped with
          | true => rw [if_pos rfl, ih, hsame]
          | false =>
              simp only [Bool.false_eq_true, if_false, List.mem_cons, hne, false_or, ih, hsame]

/-- The listing holds one value of a key at most. -/
theorem live_nodup (log : List (Entry α)) : ((live key log).map key).Nodup := by
  induction log with
  | nil => exact List.nodup_nil
  | cons entry log ih =>
      simp only [live]
      split_ifs with hskipped
      · exact ih
      · rw [List.map_cons, List.nodup_cons]
        refine ⟨?_, ih⟩
        intro hmem
        obtain ⟨value, hvalue, hkey⟩ := List.mem_map.mp hmem
        have hnone : last? key log (key entry.value) = none := by
          rw [last?_eq_none]
          intro later hlater heq
          apply hskipped
          rw [Bool.or_eq_true]
          exact .inl (List.any_eq_true.mpr ⟨later, hlater, decide_eq_true heq⟩)
        have hcurrent := (mem_live key).mp hvalue
        simp only [current, hkey, hnone, Option.bind_none] at hcurrent
        cases hcurrent

end KeyedLog
