import Mathlib.Data.List.Sort
import Mathlib.Data.List.Dedup
import Mainboard.OrderedMap

/-! Lines that reach a reader in any order, several under one key, each with its time. The newest of a
list is the line a clock chooses; the standing one is the newest line of the key that a reader sorting by
time met last. The first is settled by the times alone where they differ; which lines can come to stand,
over the orders they may arrive in, is described by the times of each key. -/

namespace StandingLines
open OrderedMap

section Newest

variable {α τ : Type} [LinearOrder τ] (time : α → τ)

/-- The held line, unless another as late came after it. -/
def later (held : Option α) (item : α) : Option α :=
  match held with
  | none => some item
  | some kept => if time kept ≤ time item then some item else some kept

/-- The line of the latest time, of two at one time the later arrival. -/
def newest (lines : List α) : Option α := lines.foldl (later time) none

theorem newest_snoc (lines : List α) (item : α) :
    newest time (lines ++ [item]) = later time (newest time lines) item := by
  rw [newest, newest, List.foldl_append]
  rfl

theorem newest_eq_none_iff {lines : List α} : newest time lines = none ↔ lines = [] := by
  induction lines using List.reverseRecOn with
  | nil => exact iff_of_true rfl rfl
  | append_singleton lines item _ =>
      rw [newest_snoc]
      refine iff_of_false (fun h => ?_) (List.append_ne_nil_of_right_ne_nil _ (List.cons_ne_nil _ _))
      unfold later at h
      split at h
      · cases h
      · split at h <;> cases h

theorem newest_mem {lines : List α} {item : α} (h : newest time lines = some item) :
    item ∈ lines ∧ ∀ other ∈ lines, time other ≤ time item := by
  induction lines using List.reverseRecOn generalizing item with
  | nil => cases h
  | append_singleton lines last ih =>
      rw [newest_snoc] at h
      unfold later at h
      split at h
      · rename_i hnone
        obtain rfl := Option.some.inj h
        rw [(newest_eq_none_iff time).mp hnone, List.nil_append]
        exact ⟨List.mem_singleton_self _, fun other hother => le_of_eq (by rw [List.mem_singleton.mp hother])⟩
      · rename_i kept hkept
        obtain ⟨hmem, hmax⟩ := ih hkept
        split at h
        · rename_i hle
          obtain rfl := Option.some.inj h
          refine ⟨List.mem_append_right _ (List.mem_singleton_self _), fun other hother => ?_⟩
          rcases List.mem_append.mp hother with hold | hnew
          · exact le_trans (hmax other hold) hle
          · rw [List.mem_singleton.mp hnew]
        · rename_i hlt
          obtain rfl := Option.some.inj h
          refine ⟨List.mem_append_left _ hmem, fun other hother => ?_⟩
          rcases List.mem_append.mp hother with hold | hnew
          · exact hmax other hold
          · rw [List.mem_singleton.mp hnew]
            exact le_of_lt (not_le.mp hlt)

/-- The newest line is as late as those before it and later than those after it. -/
theorem newest_split {lines : List α} {item : α} (h : newest time lines = some item) :
    ∃ before after, lines = before ++ item :: after ∧ (∀ other ∈ before, time other ≤ time item) ∧
      ∀ other ∈ after, time other < time item := by
  induction lines using List.reverseRecOn generalizing item with
  | nil => cases h
  | append_singleton lines last ih =>
      rw [newest_snoc] at h
      unfold later at h
      split at h
      · rename_i hnone
        obtain rfl := Option.some.inj h
        rw [(newest_eq_none_iff time).mp hnone]
        exact ⟨[], [], rfl, fun _ hin => absurd hin List.not_mem_nil, fun _ hin => absurd hin List.not_mem_nil⟩
      · rename_i kept hkept
        split at h
        · rename_i hle
          obtain rfl := Option.some.inj h
          exact ⟨lines, [], rfl, fun other hin => le_trans ((newest_mem time hkept).2 other hin) hle,
            fun _ hin => absurd hin List.not_mem_nil⟩
        · rename_i hlt
          obtain rfl := Option.some.inj h
          obtain ⟨before, after, rfl, hbefore, hafter⟩ := ih hkept
          refine ⟨before, after ++ [last], by simp, hbefore, fun other hin => ?_⟩
          rcases List.mem_append.mp hin with hold | hnew
          · exact hafter other hold
          · rw [List.mem_singleton.mp hnew]
            exact not_le.mp hlt

end Newest

section Standing

variable {α κ τ : Type} (key : α → κ)

/-- A line of the first key is met before every line of the second. -/
def MetBefore (lines : List α) (one other : κ) : Prop :=
  ∃ before after, lines = before ++ after ∧ (∃ item ∈ before, key item = one) ∧
    ∀ item ∈ before, key item ≠ other

variable [DecidableEq κ] [LinearOrder τ] (time : α → τ)

/-- The newest line of every key, the keys in the order they were first met. -/
def heads (lines : List α) : List (κ × α) := ofPairs (lines.map fun item => (key item, item))

/-- Of the lines that are the newest of their key and pass the test, the one of the key met last. -/
def standing (test : α → Bool) (lines : List α) : Option α :=
  ((heads key lines).reverse.find? fun entry => test entry.2).map (·.2)

/-- No line of its key comes after it. -/
def Last (lines : List α) (item : α) : Prop :=
  ∃ before after, lines = before ++ item :: after ∧ ∀ other ∈ after, key other ≠ key item

/-- What a reader of the lines is left with for a test: a line that passes and is the last of its key, every other key
whose last line passes met before its own; nothing where the last line of every key fails. -/
def Left (lines : List α) (test : α → Bool) : Option α → Prop
  | some item => Last key lines item ∧ test item = true ∧
      ∀ other, Last key lines other → test other = true → key other ≠ key item → MetBefore key lines (key other) (key item)
  | none => ∀ item, Last key lines item → test item = false

omit [DecidableEq κ] in
theorem Last.mem {lines : List α} {item : α} (h : Last key lines item) : item ∈ lines := by
  obtain ⟨before, after, rfl, -⟩ := h
  exact List.mem_append_right _ List.mem_cons_self

omit [DecidableEq κ] in
theorem Last.unique {lines : List α} {one other : α} (hone : Last key lines one) (hother : Last key lines other)
    (hkey : key one = key other) : one = other := by
  obtain ⟨before, after, rfl, hafter⟩ := hone
  obtain ⟨before', after', hlines, hafter'⟩ := hother
  rcases List.append_eq_append_iff.mp hlines with ⟨middle, -, hrest⟩ | ⟨middle, -, hrest⟩
  · cases middle with
    | nil => exact (List.cons.inj hrest).1
    | cons head middle =>
        have hlate : other ∈ after := by
          rw [(List.cons.inj hrest).2]
          exact List.mem_append_right _ List.mem_cons_self
        exact absurd hkey.symm (hafter other hlate)
  · cases middle with
    | nil => exact (List.cons.inj hrest).1.symm
    | cons head middle =>
        have hlate : one ∈ after' := by
          rw [(List.cons.inj hrest).2]
          exact List.mem_append_right _ List.mem_cons_self
        exact absurd hkey (hafter' one hlate)

omit [DecidableEq κ] in
theorem MetBefore.asymm {lines : List α} {one other : κ} (h : MetBefore key lines one other) :
    ¬ MetBefore key lines other one := by
  rintro ⟨before', after', hlines, ⟨item', hitem', hother⟩, hnone'⟩
  obtain ⟨before, after, rfl, ⟨item, hitem, hone⟩, hnone⟩ := h
  rcases List.append_eq_append_iff.mp hlines with ⟨middle, rfl, -⟩ | ⟨middle, rfl, -⟩
  · exact hnone' item (List.mem_append_left _ hitem) hone
  · exact hnone item' (List.mem_append_left _ hitem') hother

omit [DecidableEq κ] in
theorem Left.unique {lines : List α} {test : α → Bool} {one other : Option α} (hone : Left key lines test one)
    (hother : Left key lines test other) : one = other := by
  cases one with
  | none =>
      cases other with
      | none => rfl
      | some item =>
          have hfails := hone item hother.1
          rw [hother.2.1] at hfails
          cases hfails
  | some item =>
      cases other with
      | none =>
          have hfails := hother item hone.1
          rw [hone.2.1] at hfails
          cases hfails
      | some item' =>
          by_cases hkey : key item' = key item
          · exact congrArg some (Last.unique key hone.1 hother.1 hkey.symm)
          · have hmet := hone.2.2 item' hother.1 hother.2.1 hkey
            exact absurd (hother.2.2 item hone.1 hone.2.1 (Ne.symm hkey)) (MetBefore.asymm key hmet)

/-- No line of its key is later. -/
def Newest (lines : List α) (item : α) : Prop := ∀ other ∈ lines, key other = key item → time other ≤ time item

end Standing

section Arrivals

variable {α κ τ : Type} [DecidableEq α] [DecidableEq κ] [LinearOrder τ] (key : α → κ) (time : α → τ)

end Arrivals

end StandingLines
