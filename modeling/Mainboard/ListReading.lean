import Mathlib.Data.List.Basic
import Mathlib.Data.List.Forall2

/-! A list read element by element, each reading able to fail: what the whole reading answers. -/

namespace ListReading

variable {α β : Type} {f : α → Option β} {g : α → β} {list : List α} {answers : List β}

/-- A list read one by one into another, each answer in its place. -/
theorem mapM_eq_some_iff :
    list.mapM f = some answers ↔ List.Forall₂ (fun one answer => f one = some answer) list answers := by
  induction list generalizing answers with
  | nil => cases answers <;> simp
  | cons one list ih =>
      rw [List.mapM_cons]
      cases hone : f one with
      | none => cases answers <;> simp [hone]
      | some answer =>
          cases hlist : list.mapM f with
          | none =>
              cases answers with
              | nil => simp
              | cons head rest =>
                  rw [List.forall₂_cons, ← ih, hlist]
                  simp
          | some found =>
              cases answers with
              | nil => simp
              | cons head rest =>
                  rw [List.forall₂_cons, ← ih, hlist]
                  simp [hone]

theorem exists_of_mapM (h : list.mapM f = some answers) {one : α} (hone : one ∈ list) :
    ∃ answer ∈ answers, f one = some answer := by
  have hall := mapM_eq_some_iff.mp h
  clear h
  induction hall with
  | nil => exact (List.not_mem_nil hone).elim
  | cons hhead htail ih =>
      rcases List.mem_cons.mp hone with rfl | hone
      · exact ⟨_, List.mem_cons_self, hhead⟩
      · obtain ⟨answer, hmem, hanswer⟩ := ih hone
        exact ⟨answer, List.mem_cons_of_mem _ hmem, hanswer⟩

theorem mem_of_mapM (h : list.mapM f = some answers) {answer : β} (hanswer : answer ∈ answers) : ∃ one ∈ list, f one = some answer := by
  have hall := mapM_eq_some_iff.mp h
  clear h
  induction hall with
  | nil => exact absurd hanswer List.not_mem_nil
  | cons hone _ ih =>
      rcases List.mem_cons.mp hanswer with rfl | hlater
      · exact ⟨_, List.mem_cons_self, hone⟩
      · obtain ⟨one, hmem, hone⟩ := ih hlater
        exact ⟨one, List.mem_cons_of_mem _ hmem, hone⟩

/-- A list is read exactly when each of its elements is. -/
theorem mapM_exists_iff : (∃ answers, list.mapM f = some answers) ↔ ∀ one ∈ list, ∃ answer, f one = some answer := by
  constructor
  · rintro ⟨answers, hanswers⟩ one hone
    obtain ⟨answer, -, hanswer⟩ := exists_of_mapM hanswers hone
    exact ⟨answer, hanswer⟩
  · intro h
    induction list with
    | nil => exact ⟨[], rfl⟩
    | cons one list ih =>
        obtain ⟨answer, hanswer⟩ := h one List.mem_cons_self
        obtain ⟨answers, hanswers⟩ := ih fun other hother => h other (List.mem_cons_of_mem _ hother)
        exact ⟨answer :: answers, by rw [List.mapM_cons, hanswer, hanswers]; rfl⟩

theorem mapM_map_some (h : ∀ one ∈ list, f one = some (g one)) : list.mapM f = some (list.map g) := by
  refine mapM_eq_some_iff.mpr ?_
  induction list with
  | nil => exact List.Forall₂.nil
  | cons one list ih =>
      exact List.Forall₂.cons (h one List.mem_cons_self) (ih fun other hother => h other (List.mem_cons_of_mem _ hother))

/-! Lists each element gives -/

section Given

/-- Where only one element of a list gives anything, the list gives what it does. -/
theorem flatMap_single {f : α → List β} (hnodup : list.Nodup) {one : α} (hone : one ∈ list)
    (h : ∀ other ∈ list, other ≠ one → f other = []) : list.flatMap f = f one := by
  induction list with
  | nil => exact absurd hone List.not_mem_nil
  | cons head list ih =>
      rw [List.nodup_cons] at hnodup
      rw [List.flatMap_cons]
      by_cases hhead : head = one
      · subst hhead
        have hrest : list.flatMap f = [] := List.flatMap_eq_nil_iff.mpr fun other hother =>
          h other (List.mem_cons_of_mem _ hother) fun heq => hnodup.1 (heq ▸ hother)
        rw [hrest, List.append_nil]
      · rw [h head List.mem_cons_self hhead, List.nil_append]
        exact ih hnodup.2 ((List.mem_cons.mp hone).resolve_left (Ne.symm hhead))
          fun other hother => h other (List.mem_cons_of_mem _ hother)

/-- What gives nothing may be left out. -/
theorem flatMap_filter {f : α → List β} {p : α → Bool}
    (h : ∀ one ∈ list, p one = false → f one = []) : (list.filter p).flatMap f = list.flatMap f := by
  induction list with
  | nil => rfl
  | cons one list ih =>
      have hrest := ih fun other hother => h other (List.mem_cons_of_mem _ hother)
      cases hone : p one with
      | true => rw [List.filter_cons_of_pos hone, List.flatMap_cons, List.flatMap_cons, hrest]
      | false =>
          rw [List.filter_cons_of_neg (by rw [hone]; exact Bool.false_ne_true), hrest, List.flatMap_cons,
            h one List.mem_cons_self hone, List.nil_append]

end Given

/-! Steps that can be refused -/

section Refused

variable {ε σ : Type} {step : σ → α → Except ε σ}

/-- What each step keeps, a run of steps keeps. -/
theorem foldlM_keeps (keeps : σ → Prop)
    (hstep : ∀ one ∈ list, ∀ state next, keeps state → step state one = .ok next → keeps next) {state done : σ}
    (hstate : keeps state) (h : list.foldlM step state = .ok done) : keeps done := by
  induction list generalizing state with
  | nil =>
      obtain rfl := Except.ok.inj h
      exact hstate
  | cons one list ih =>
      rw [List.foldlM_cons] at h
      cases hone : step state one with
      | error fault =>
          rw [hone] at h
          cases h
      | ok next =>
          rw [hone] at h
          exact ih (fun other hother => hstep other (List.mem_cons_of_mem _ hother))
            (hstep one List.mem_cons_self state next hstate hone) h

/-- Steps that do the same over a list are the same run of it. -/
theorem foldlM_congr {other : σ → α → Except ε σ} {state : σ}
    (h : ∀ one ∈ list, ∀ state, other state one = step state one) : list.foldlM other state = list.foldlM step state := by
  induction list generalizing state with
  | nil => rfl
  | cons one list ih =>
      rw [List.foldlM_cons, List.foldlM_cons, h one List.mem_cons_self]
      exact congrArg _ (funext fun next => ih fun later hlater => h later (List.mem_cons_of_mem _ hlater))

/-- A run of steps from a state that is kept goes through where each step does. -/
theorem foldlM_ok (keeps : σ → Prop)
    (hstep : ∀ one ∈ list, ∀ state, keeps state → ∃ next, step state one = .ok next ∧ keeps next) {state : σ}
    (hstate : keeps state) : ∃ done, list.foldlM step state = .ok done ∧ keeps done := by
  induction list generalizing state with
  | nil => exact ⟨state, rfl, hstate⟩
  | cons one list ih =>
      obtain ⟨next, hone, hnext⟩ := hstep one List.mem_cons_self state hstate
      obtain ⟨done, hlist, hdone⟩ := ih (fun other hother => hstep other (List.mem_cons_of_mem _ hother)) hnext
      refine ⟨done, ?_, hdone⟩
      rw [List.foldlM_cons, hone]
      exact hlist

/-- A run of steps does not go through where one of them never does. -/
theorem foldlM_ne_ok (keeps : σ → Prop)
    (hstep : ∀ one ∈ list, ∀ state next, keeps state → step state one = .ok next → keeps next) {one : α}
    (hone : one ∈ list) (hrefused : ∀ state next, keeps state → step state one ≠ .ok next) {state done : σ}
    (hstate : keeps state) : list.foldlM step state ≠ .ok done := by
  induction list generalizing state with
  | nil => exact absurd hone List.not_mem_nil
  | cons other list ih =>
      intro h
      rw [List.foldlM_cons] at h
      cases hother : step state other with
      | error fault =>
          rw [hother] at h
          cases h
      | ok next =>
          rw [hother] at h
          rcases List.mem_cons.mp hone with rfl | hlater
          · exact hrefused state next hstate hother
          · exact ih (fun one hin => hstep one (List.mem_cons_of_mem _ hin)) hlater
              (hstep other List.mem_cons_self state next hstate hother) h

/-- What each step makes of its own, and every later one keeps, is made of each at the end. -/
theorem foldlM_each (made : α → σ → Prop)
    (hmade : ∀ one ∈ list, ∀ state next, step state one = .ok next → made one next)
    (hkept : ∀ one ∈ list, ∀ other state next, made other state → step state one = .ok next → made other next)
    {state done : σ} (h : list.foldlM step state = .ok done) : ∀ one ∈ list, made one done := by
  induction list generalizing state with
  | nil => exact fun _ hnone => absurd hnone List.not_mem_nil
  | cons one list ih =>
      rw [List.foldlM_cons] at h
      cases hone : step state one with
      | error fault =>
          rw [hone] at h
          cases h
      | ok next =>
          rw [hone] at h
          refine List.forall_mem_cons.mpr ⟨?_, ?_⟩
          · exact foldlM_keeps (made one) (fun other hother => hkept other (List.mem_cons_of_mem _ hother) one)
              (hmade one List.mem_cons_self state next hone) h
          · exact ih (fun other hother => hmade other (List.mem_cons_of_mem _ hother))
              (fun other hother => hkept other (List.mem_cons_of_mem _ hother)) h

theorem forM_ok_iff {asked : α → Except ε Unit} : list.forM asked = .ok () ↔ ∀ one ∈ list, asked one = .ok () := by
  induction list with
  | nil => exact iff_of_true rfl fun _ hnone => absurd hnone List.not_mem_nil
  | cons one list ih =>
      have hstep : (one :: list).forM asked = (asked one).bind fun _ => list.forM asked := rfl
      rw [hstep, List.forall_mem_cons, ← ih]
      cases hone : asked one with
      | error fault =>
          refine iff_of_false (fun h => ?_) fun h => ?_
          · cases h
          · cases h.1
      | ok answer => exact ⟨fun h => ⟨rfl, h⟩, fun h => h.2⟩

end Refused

end ListReading
