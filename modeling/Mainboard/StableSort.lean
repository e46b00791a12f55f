import Mathlib.Data.List.Sort
import Mathlib.Data.List.Nodup

/-! The stable sort of a list by a key. Sorting keeps the elements of one key in the order they came, and
nothing else of that order: two lists sort alike exactly when, key by key, they list the same elements in
the same order. Where no two elements share a key, the order they came in does not matter at all. -/

namespace StableSort

variable {α β κ : Type} [LinearOrder κ] (key : α → κ)

/-- One element may stand before another. -/
def Precedes (one other : α) : Prop := key one ≤ key other

instance (one other : α) : Decidable (Precedes key one other) := inferInstanceAs (Decidable (key one ≤ key other))

instance : Std.Total (Precedes key) := ⟨fun one _ => le_total (key one) _⟩

instance : IsTrans α (Precedes key) := ⟨fun _ _ _ => le_trans⟩

/-- The list in the order of its keys, elements of one key as they came. -/
def sortOn (items : List α) : List α := items.insertionSort (Precedes key)

/-- No element of the list has a smaller key than one before it. -/
def Rising (items : List α) : Prop := items.Pairwise (Precedes key)

theorem rising_sortOn (items : List α) : Rising key (sortOn key items) := List.pairwise_insertionSort _ items

theorem sortOn_perm (items : List α) : (sortOn key items).Perm items := List.perm_insertionSort _ items

@[simp] theorem mem_sortOn {items : List α} {item : α} : item ∈ sortOn key items ↔ item ∈ items :=
  List.mem_insertionSort _

@[simp] theorem length_sortOn (items : List α) : (sortOn key items).length = items.length :=
  List.length_insertionSort _ items

/-- A list whose keys rise is left as it is. -/
theorem sortOn_of_rising {items : List α} (h : Rising key items) : sortOn key items = items := h.insertionSort_eq

theorem filter_orderedInsert (p : α → Bool) (item : α) {items : List α} (h : Rising key items) :
    (items.orderedInsert (Precedes key) item).filter p =
      if p item then (items.filter p).orderedInsert (Precedes key) item else items.filter p := by
  induction items with
  | nil => by_cases hp : p item <;> simp [hp]
  | cons first items ih =>
      have hfirst := (List.pairwise_cons.mp h).1
      by_cases hle : Precedes key item first
      · rw [List.orderedInsert_cons_of_le _ _ hle, List.filter_cons]
        by_cases hp : p item
        · rw [if_pos hp, if_pos hp]
          -- the new element goes before all that is kept, whichever that is
          cases hkept : (first :: items).filter p with
          | nil => rfl
          | cons next rest =>
              have hmem : next ∈ first :: items :=
                (List.mem_filter.mp (hkept ▸ List.mem_cons_self : next ∈ (first :: items).filter p)).1
              have hnext : Precedes key item next := by
                rcases List.mem_cons.mp hmem with rfl | hlater
                · exact hle
                · exact le_trans hle (hfirst next hlater)
              rw [List.orderedInsert_cons_of_le _ _ hnext]
        · rw [if_neg hp, if_neg hp]
      · rw [List.orderedInsert_of_not_le _ _ hle, List.filter_cons, List.filter_cons,
          ih (List.pairwise_cons.mp h).2]
        by_cases hp : p item
        · by_cases hkeep : p first
          · simp only [hp, hkeep, if_true, List.orderedInsert_of_not_le _ _ hle]
          · simp only [hp, hkeep, if_true, Bool.false_eq_true, if_false]
        · by_cases hkeep : p first <;> simp [hp, hkeep]

/-- Sorting and then choosing is choosing and then sorting. -/
theorem filter_sortOn (p : α → Bool) (items : List α) :
    (sortOn key items).filter p = sortOn key (items.filter p) := by
  induction items with
  | nil => rfl
  | cons item items ih =>
      rw [sortOn, List.insertionSort_cons]
      rw [filter_orderedInsert key p item (List.pairwise_insertionSort _ items), List.filter_cons]
      by_cases hp : p item
      · rw [if_pos hp, if_pos hp]
        exact congrArg (List.orderedInsert _ item) ih
      · rw [if_neg hp, if_neg hp]
        exact ih

/-- The elements of one key, as the list has them. -/
def atKey (items : List α) (k : κ) : List α := items.filter fun item => key item = k

theorem mem_atKey {items : List α} {k : κ} {item : α} : item ∈ atKey key items k ↔ item ∈ items ∧ key item = k := by
  rw [atKey, List.mem_filter, decide_eq_true_eq]

theorem atKey_sortOn (items : List α) (k : κ) : atKey key (sortOn key items) k = atKey key items k := by
  rw [atKey, filter_sortOn]
  refine sortOn_of_rising key (List.pairwise_of_forall_mem_list fun one hone other hother => ?_)
  exact le_of_eq (((mem_atKey key).mp hone).2.trans ((mem_atKey key).mp hother).2.symm)

theorem atKey_cons (item : α) (items : List α) (k : κ) :
    atKey key (item :: items) k = if key item = k then item :: atKey key items k else atKey key items k := by
  rw [atKey, List.filter_cons]
  by_cases hk : key item = k <;> simp [hk, atKey]

/-- Two lists with rising keys are one list when, key by key, they have the same elements in the same order. -/
theorem eq_of_rising {items others : List α} (hitems : Rising key items) (hothers : Rising key others)
    (h : ∀ k, atKey key items k = atKey key others k) : items = others := by
  induction items generalizing others with
  | nil =>
      cases others with
      | nil => rfl
      | cons other others =>
          have hfirst := h (key other)
          rw [atKey_cons, if_pos rfl] at hfirst
          cases hfirst
  | cons item items ih =>
      cases others with
      | nil =>
          have hfirst := h (key item)
          rw [atKey_cons, if_pos rfl] at hfirst
          cases hfirst
      | cons other others =>
          have hle : key other ≤ key item := by
            have hmem : item ∈ atKey key (other :: others) (key item) := by
              rw [← h, atKey_cons, if_pos rfl]
              exact List.mem_cons_self
            rcases List.mem_cons.mp ((mem_atKey key).mp hmem).1 with rfl | hlater
            · exact le_rfl
            · exact (List.pairwise_cons.mp hothers).1 item hlater
          have hge : key item ≤ key other := by
            have hmem : other ∈ atKey key (item :: items) (key other) := by
              rw [h, atKey_cons, if_pos rfl]
              exact List.mem_cons_self
            rcases List.mem_cons.mp ((mem_atKey key).mp hmem).1 with rfl | hlater
            · exact le_rfl
            · exact (List.pairwise_cons.mp hitems).1 other hlater
          have hsame := le_antisymm hge hle
          have hhead := h (key item)
          rw [atKey_cons, atKey_cons, if_pos rfl, if_pos hsame.symm] at hhead
          obtain rfl := (List.cons.inj hhead).1
          rw [ih (List.pairwise_cons.mp hitems).2 (List.pairwise_cons.mp hothers).2 fun k => ?_]
          have hk := h k
          rw [atKey_cons, atKey_cons] at hk
          by_cases hfirst : key item = k
          · rw [if_pos hfirst, if_pos hfirst] at hk
            exact (List.cons.inj hk).2
          · rwa [if_neg hfirst, if_neg hfirst] at hk

/-- Two lists sort alike exactly when, key by key, they list the same elements in the same order. -/
theorem sortOn_eq_iff {items others : List α} :
    sortOn key items = sortOn key others ↔ ∀ k, atKey key items k = atKey key others k := by
  constructor
  · intro h k
    rw [← atKey_sortOn key items k, h, atKey_sortOn]
  · intro h
    refine eq_of_rising key (rising_sortOn key items) (rising_sortOn key others) fun k => ?_
    rw [atKey_sortOn, atKey_sortOn, h]

/-- Where no two elements share a key, the elements decide how they sort. -/
theorem sortOn_eq_of_perm {items others : List α} (hkeys : (items.map key).Nodup) (h : items.Perm others) :
    sortOn key items = sortOn key others := by
  refine (sortOn_eq_iff key).mpr fun k => ?_
  have hfilter : (atKey key items k).Perm (atKey key others k) := h.filter _
  have hshort : ∀ one ∈ atKey key items k, ∀ other ∈ atKey key items k, one = other :=
    fun one hone other hother =>
      List.inj_on_of_nodup_map hkeys ((mem_atKey key).mp hone).1 ((mem_atKey key).mp hother).1
        (((mem_atKey key).mp hone).2.trans ((mem_atKey key).mp hother).2.symm)
  have hnodup : (atKey key items k).Nodup := (List.Nodup.of_map key hkeys).filter _
  cases hcase : atKey key items k with
  | nil =>
      rw [hcase] at hfilter
      exact (List.nil_perm.mp hfilter).symm
  | cons one rest =>
      cases rest with
      | nil =>
          rw [hcase] at hfilter
          exact (List.singleton_perm.mp hfilter)
      | cons other rest =>
          rw [hcase] at hshort hnodup
          have hsame := hshort one List.mem_cons_self other (List.mem_cons_of_mem _ List.mem_cons_self)
          exact absurd hsame (fun hsame => (List.nodup_cons.mp hnodup).1 (hsame ▸ List.mem_cons_self))

/-- Sorting what a map makes is sorting first, where the map keeps the keys. -/
theorem map_sortOn (f : α → β) (mapped : β → κ) (items : List α) (h : ∀ item ∈ items, mapped (f item) = key item) :
    (sortOn key items).map f = sortOn mapped (items.map f) :=
  List.map_insertionSort _ _ f items fun one hone other hother => by
    rw [Precedes, Precedes, h one hone, h other hother]

theorem atKey_map (f : α → β) (mapped : β → κ) (items : List α) (h : ∀ item, mapped (f item) = key item) (k : κ) :
    atKey mapped (items.map f) k = (atKey key items k).map f := by
  rw [atKey, atKey, List.filter_map]
  refine congrArg (List.map f) (List.filter_congr fun item _ => ?_)
  exact congrArg (fun found => decide (found = k)) (h item)

theorem atKey_eq_filter {items : List α} {k : κ} {p : α → Bool} (h : ∀ item ∈ items, key item = k ↔ p item = true) :
    atKey key items k = items.filter p :=
  List.filter_congr fun item hitem => by rw [Bool.eq_iff_iff, decide_eq_true_eq, h item hitem]

theorem filter_atKey {items : List α} {k : κ} {p : α → Bool} (h : ∀ item ∈ items, p item = true → key item = k) :
    (atKey key items k).filter p = items.filter p := by
  rw [atKey, List.filter_filter]
  refine List.filter_congr fun item hitem => ?_
  by_cases hp : p item = true
  · rw [hp, decide_eq_true (h item hitem hp)]
    rfl
  · rw [Bool.eq_false_iff.mpr hp]
    rfl

/-- The elements below a key. -/
def below (items : List α) (k : κ) : List α := items.filter fun item => key item < k

/-- The elements above a key. -/
def above (items : List α) (k : κ) : List α := items.filter fun item => k < key item

theorem mem_below {items : List α} {k : κ} {item : α} : item ∈ below key items k ↔ item ∈ items ∧ key item < k := by
  rw [below, List.mem_filter, decide_eq_true_eq]

theorem mem_above {items : List α} {k : κ} {item : α} : item ∈ above key items k ↔ item ∈ items ∧ k < key item := by
  rw [above, List.mem_filter, decide_eq_true_eq]

theorem below_eq_filter {items : List α} {k : κ} {p : α → Bool} (h : ∀ item ∈ items, key item < k ↔ p item = true) :
    below key items k = items.filter p :=
  List.filter_congr fun item hitem => by rw [Bool.eq_iff_iff, decide_eq_true_eq, h item hitem]

theorem above_eq_filter {items : List α} {k : κ} {p : α → Bool} (h : ∀ item ∈ items, k < key item ↔ p item = true) :
    above key items k = items.filter p :=
  List.filter_congr fun item hitem => by rw [Bool.eq_iff_iff, decide_eq_true_eq, h item hitem]

/-- A list with rising keys is what is below a key, what has it, and what is above it. -/
theorem rising_split {items : List α} (h : Rising key items) (k : κ) :
    items = below key items k ++ (atKey key items k ++ above key items k) := by
  induction items with
  | nil => rfl
  | cons item items ih =>
      obtain ⟨hfirst, hrest⟩ := List.pairwise_cons.mp h
      rw [below, above, List.filter_cons, List.filter_cons, atKey_cons]
      rcases lt_trichotomy (key item) k with hlt | heq | hgt
      · rw [if_pos (decide_eq_true hlt), if_neg (ne_of_lt hlt), if_neg (by simp [le_of_lt hlt])]
        exact congrArg (List.cons item) (ih hrest)
      · have hnone : below key items k = [] := List.eq_nil_iff_forall_not_mem.mpr fun one hone => by
          obtain ⟨hin, hbelow⟩ := (mem_below key).mp hone
          have hle : key item ≤ key one := hfirst one hin
          exact absurd hbelow (not_lt_of_ge (heq ▸ hle))
        have hih := ih hrest
        rw [hnone, List.nil_append] at hih
        rw [if_neg (by simp [heq]), if_pos heq, if_neg (by simp [heq])]
        change item :: items = below key items k ++ (item :: atKey key items k ++ above key items k)
        rw [hnone, List.nil_append, List.cons_append, ← hih]
      · have habove : ∀ one ∈ items, k < key one := fun one hone => lt_of_lt_of_le hgt (hfirst one hone)
        have hnone : below key items k = [] := List.eq_nil_iff_forall_not_mem.mpr fun one hone => by
          obtain ⟨hin, hbelow⟩ := (mem_below key).mp hone
          exact absurd hbelow (not_lt_of_gt (habove one hin))
        have hat : atKey key items k = [] := List.eq_nil_iff_forall_not_mem.mpr fun one hone => by
          obtain ⟨hin, hsame⟩ := (mem_atKey key).mp hone
          exact absurd hsame (ne_of_gt (habove one hin))
        have hall : above key items k = items :=
          List.filter_eq_self.mpr fun one hone => decide_eq_true (habove one hone)
        rw [if_neg (by simp [le_of_lt hgt]), if_neg (ne_of_gt hgt), if_pos (decide_eq_true hgt)]
        change item :: items = below key items k ++ (atKey key items k ++ item :: above key items k)
        rw [hnone, hat, hall]
        rfl

theorem length_below_sortOn (items : List α) (k : κ) :
    (below key (sortOn key items) k).length = (below key items k).length :=
  ((sortOn_perm key items).filter _).length_eq

/-- In a sorted list an element's place is as many as there are below its key, and its place among those of
the key. -/
theorem getElem?_sortOn (items : List α) (k : κ) {i : ℕ} {item : α} (h : (atKey key items k)[i]? = some item) :
    (sortOn key items)[(below key items k).length + i]? = some item := by
  rw [rising_split key (rising_sortOn key items) k, ← length_below_sortOn, List.getElem?_append_right (Nat.le_add_right _ _),
    Nat.add_sub_cancel_left, atKey_sortOn, List.getElem?_append_left (List.getElem?_eq_some_iff.mp h).1]
  exact h

end StableSort
