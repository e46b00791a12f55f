import Mathlib

/-! Counting items by key over several places, and picking of each key as many items as a quota allows, no more of
each place than the place has room for. A tally is a multiset of keys. -/

namespace Tallies

variable {α κ ι : Type} (key : α → κ)

/-- How often each key is among the items. -/
def tally (items : List α) : Multiset κ := (items.map key : List κ)

@[simp] theorem tally_nil : tally key [] = 0 := rfl

@[simp] theorem tally_cons (item : α) (items : List α) : tally key (item :: items) = key item ::ₘ tally key items := rfl

@[simp] theorem tally_append (items others : List α) : tally key (items ++ others) = tally key items + tally key others := by
  unfold tally
  rw [List.map_append, Multiset.coe_add]

theorem tally_perm {items others : List α} (h : items.Perm others) : tally key items = tally key others :=
  Multiset.coe_eq_coe.mpr (h.map key)

theorem tally_eq_zero_iff {items : List α} : tally key items = 0 ↔ items = [] := by
  unfold tally
  rw [Multiset.coe_eq_zero, List.map_eq_nil_iff]

theorem tally_sublist {items others : List α} (h : items.Sublist others) : tally key items ≤ tally key others :=
  Multiset.coe_le.mpr (h.map key).subperm

/-- Items told apart by place count as they do together, where every item's place is among the places. -/
theorem sum_tally_filter [DecidableEq ι] (place : α → ι) (places : Finset ι) {items : List α}
    (h : ∀ item ∈ items, place item ∈ places) :
    ∑ one ∈ places, tally key (items.filter fun item => place item = one) = tally key items := by
  induction items with
  | nil => exact Finset.sum_eq_zero fun _ _ => rfl
  | cons item items ih =>
      have hsplit : ∀ one ∈ places, tally key ((item :: items).filter fun item => place item = one) =
          (if place item = one then {key item} else 0) + tally key (items.filter fun item => place item = one) := by
        intro one _
        rw [List.filter_cons]
        by_cases hplace : place item = one
        · simp [hplace]
        · simp [hplace]
      rw [Finset.sum_congr rfl hsplit, Finset.sum_add_distrib, Finset.sum_ite_eq, if_pos (h item List.mem_cons_self),
        ih fun one hone => h one (List.mem_cons_of_mem _ hone), tally_cons, Multiset.singleton_add]

variable [DecidableEq κ]

/-- What is left to pick in a place and in all, and what has been picked. -/
structure Picking (α κ : Type) where
  room : Multiset κ
  new : Multiset κ
  picked : List α

/-- An item picked where its place has room for it and the quota is not spent. -/
def Picking.take (state : Picking α κ) (item : α) : Picking α κ :=
  if 0 < state.room.count (key item) ∧ 0 < state.new.count (key item) then
    ⟨state.room.erase (key item), state.new.erase (key item), state.picked ++ [item]⟩
  else state

/-- A place's items picked, one after the other. -/
def Picking.pick (state : Picking α κ) (items : List α) (room : Multiset κ) : Picking α κ :=
  items.foldl (Picking.take key) { state with room := room }

/-- Of each key as many items are picked as there are, as there is room for, and as the quota still allows. -/
theorem count_take (items : List α) (state : Picking α κ) (k : κ) :
    let picks := min ((tally key items).count k) (min (state.room.count k) (state.new.count k))
    (tally key (items.foldl (Picking.take key) state).picked).count k = (tally key state.picked).count k + picks ∧
      (items.foldl (Picking.take key) state).new.count k = state.new.count k - picks := by
  induction items generalizing state with
  | nil => simp
  | cons item items ih =>
      obtain ⟨hpicked, hnew⟩ := ih (state.take key item)
      dsimp only at hpicked hnew ⊢
      rw [List.foldl_cons, hpicked, hnew]
      unfold Picking.take
      by_cases hkey : key item = k
      · subst hkey
        split <;> simp <;> omega
      · have hne : k ≠ key item := Ne.symm hkey
        split <;> simp [hne, Multiset.count_erase_of_ne hne, Multiset.count_cons_of_ne hne]

/-- What is picked of a place comes behind what was, and stands in the place in that order. -/
theorem picked_take (items : List α) (state : Picking α κ) :
    ∃ more : List α, (items.foldl (Picking.take key) state).picked = state.picked ++ more ∧ more.Sublist items := by
  induction items generalizing state with
  | nil => exact ⟨[], (List.append_nil _).symm, List.Sublist.slnil⟩
  | cons item items ih =>
      obtain ⟨more, hpicked, hmore⟩ := ih (state.take key item)
      rw [List.foldl_cons, hpicked]
      unfold Picking.take
      split
      · exact ⟨item :: more, by rw [List.append_assoc, List.singleton_append], hmore.cons_cons item⟩
      · exact ⟨more, rfl, hmore.cons item⟩

variable (items : ι → List α) (room : ι → Multiset κ)

/-- The places picked one after the other. -/
def Picking.pickAll (state : Picking α κ) (places : List ι) : Picking α κ :=
  places.foldl (fun state place => state.pick key (items place) (room place)) state

/-- Of each key as many items are picked as the places have room for together, or as the quota allows. -/
theorem count_pickAll (places : List ι) (state : Picking α κ) (h : ∀ place ∈ places, room place ≤ tally key (items place))
    (k : κ) :
    (tally key (state.pickAll key items room places).picked).count k =
      (tally key state.picked).count k + min ((places.map room).sum.count k) (state.new.count k) := by
  induction places generalizing state with
  | nil => simp [Picking.pickAll]
  | cons place places ih =>
      have hroom := Multiset.count_le_of_le k (h place List.mem_cons_self)
      obtain ⟨hpicked, hnew⟩ := count_take key (items place) { state with room := room place } k
      have hrest := ih (state.pick key (items place) (room place)) fun one hone => h one (List.mem_cons_of_mem _ hone)
      unfold Picking.pickAll at hrest ⊢
      rw [List.foldl_cons, hrest, List.map_cons, List.sum_cons, Multiset.count_add]
      dsimp only [Picking.pick] at hpicked hnew ⊢
      rw [hpicked, hnew]
      omega

/-- The items picked are among those of the places, each at most as often. -/
theorem picked_pickAll (places : List ι) (state : Picking α κ) :
    ∃ more : List α, (state.pickAll key items room places).picked = state.picked ++ more ∧
      more.Sublist (places.flatMap items) := by
  induction places generalizing state with
  | nil => exact ⟨[], (List.append_nil _).symm, List.Sublist.slnil⟩
  | cons place places ih =>
      obtain ⟨first, hfirst, hsub⟩ := picked_take key (items place) { state with room := room place }
      obtain ⟨more, hmore, hrest⟩ := ih (state.pick key (items place) (room place))
      refine ⟨first ++ more, ?_, ?_⟩
      · unfold Picking.pickAll at hmore ⊢
        rw [List.foldl_cons, hmore]
        unfold Picking.pick
        rw [hfirst, List.append_assoc]
      · rw [List.flatMap_cons]
        exact hsub.append hrest

end Tallies
