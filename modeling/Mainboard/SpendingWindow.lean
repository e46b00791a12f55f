import Mathlib.Algebra.Order.BigOperators.Group.List

/-! Admissions that each leave room for the ones before them. Entries stand newest first; an admission weighs the
entries older than it, and what a family of entries came to is bounded by the limit as soon as every one of them
was weighed, by the newest of the family, at no less than it came to. -/

namespace Windows

variable {ι μ : Type*} [AddCommMonoid μ] [PartialOrder μ] [IsOrderedAddMonoid μ]

/-- Every bound entry left room, within the limit, for what it weighed the older ones at. -/
def Fits (weight : ι → ι → μ) (cap : ι → μ) (bound : ι → Prop) (limit : μ) : List ι → Prop
  | [] => True
  | entry :: older =>
      (bound entry → (older.map (weight entry)).sum + cap entry ≤ limit) ∧ Fits weight cap bound limit older

variable {weight : ι → ι → μ} {cap bill : ι → μ} {bound : ι → Prop} {limit : μ} {entries : List ι}

/-- Entries that go on at no more weight still fit. -/
theorem Fits.map (h : Fits weight cap bound limit entries) (f : ι → ι) (hbound : ∀ entry, bound (f entry) → bound entry)
    (hcap : ∀ entry, cap (f entry) = cap entry)
    (hweight : ∀ newer ∈ entries, ∀ older ∈ entries, weight (f newer) (f older) ≤ weight newer older) :
    Fits weight cap bound limit (entries.map f) := by
  induction entries with
  | nil => trivial
  | cons entry older ih =>
      refine ⟨fun hentry => ?_, ih h.2 fun newer hnewer before hbefore =>
        hweight newer (List.mem_cons_of_mem _ hnewer) before (List.mem_cons_of_mem _ hbefore)⟩
      have hsum : ((older.map f).map (weight (f entry))).sum ≤ (older.map (weight entry)).sum := by
        rw [List.map_map]
        exact List.sum_le_sum fun before hbefore =>
          hweight entry List.mem_cons_self before (List.mem_cons_of_mem _ hbefore)
      rw [hcap]
      exact (add_le_add_left hsum _).trans (h.1 (hbound entry hentry))

/-- A family of bound entries comes to no more than the limit. -/
theorem Fits.sum_le (h : Fits weight cap bound limit entries) (hlimit : 0 ≤ limit) (family : ι → Bool)
    (hfamily : ∀ entry ∈ entries, family entry → bound entry)
    (hcap : ∀ entry ∈ entries, family entry → bill entry ≤ cap entry)
    (hpos : ∀ newer ∈ entries, ∀ older ∈ entries, 0 ≤ weight newer older)
    (hbill : ∀ newer ∈ entries, family newer → ∀ older ∈ entries, family older → bill older ≤ weight newer older) :
    ((entries.filter family).map bill).sum ≤ limit := by
  induction entries with
  | nil => exact hlimit
  | cons entry older ih =>
      have hrest := ih h.2 (fun before hbefore => hfamily before (List.mem_cons_of_mem _ hbefore))
        (fun before hbefore => hcap before (List.mem_cons_of_mem _ hbefore))
        (fun newer hnewer before hbefore =>
          hpos newer (List.mem_cons_of_mem _ hnewer) before (List.mem_cons_of_mem _ hbefore))
        (fun newer hnewer hin before hbefore =>
          hbill newer (List.mem_cons_of_mem _ hnewer) hin before (List.mem_cons_of_mem _ hbefore))
      by_cases hentry : family entry = true
      · -- The newest of the family weighed every other one of it.
        rw [List.filter_cons_of_pos hentry, List.map_cons, List.sum_cons]
        have hothers : ((older.filter family).map bill).sum ≤ ((older.filter family).map (weight entry)).sum :=
          List.sum_le_sum fun before hbefore => by
            obtain ⟨hin, hboth⟩ := List.mem_filter.mp hbefore
            exact hbill entry List.mem_cons_self hentry before (List.mem_cons_of_mem _ hin) hboth
        have hall : ((older.filter family).map (weight entry)).sum ≤ (older.map (weight entry)).sum :=
          (List.filter_sublist.map _).sum_le_sum fun value hvalue => by
            obtain ⟨before, hbefore, rfl⟩ := List.mem_map.mp hvalue
            exact hpos entry List.mem_cons_self before (List.mem_cons_of_mem _ hbefore)
        calc bill entry + ((older.filter family).map bill).sum
            ≤ cap entry + (older.map (weight entry)).sum :=
              add_le_add (hcap entry List.mem_cons_self hentry) (hothers.trans hall)
          _ = (older.map (weight entry)).sum + cap entry := add_comm _ _
          _ ≤ limit := h.1 (hfamily entry List.mem_cons_self hentry)
      · rw [List.filter_cons_of_neg hentry]
        exact hrest

end Windows
