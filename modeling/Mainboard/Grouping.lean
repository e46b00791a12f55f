import Mathlib.Data.List.Sort
import Mathlib.Data.List.Forall2

/-! Cutting a list into runs: consecutive elements of one key, and consecutive elements within a weight.
What is cut is kept, in its order, and where the keys of a list never fall the runs' keys rise. -/

namespace Grouping

section Keys

variable {α κ : Type} [DecidableEq κ] (key : α → κ)

/-- The runs of consecutive elements of one key, each with its key. -/
def groupBy : List α → List (κ × List α)
  | [] => []
  | item :: items => match groupBy items with
    | [] => [(key item, [item])]
    | (next, run) :: runs =>
        if next = key item then (next, item :: run) :: runs else (key item, [item]) :: (next, run) :: runs

theorem flatMap_groupBy (items : List α) : (groupBy key items).flatMap (·.2) = items := by
  induction items with
  | nil => rfl
  | cons item items ih =>
      unfold groupBy
      split
      · rename_i hnil
        rw [hnil] at ih
        rw [← ih]
        rfl
      · rename_i next run runs hcons
        rw [hcons] at ih
        split
        · rw [← ih]
          rfl
        · rw [← ih]
          rfl

/-- A run is not empty, and all of it has the run's key. -/
theorem mem_groupBy {items : List α} {run : κ × List α} (h : run ∈ groupBy key items) :
    run.2 ≠ [] ∧ ∀ item ∈ run.2, key item = run.1 := by
  induction items generalizing run with
  | nil => cases h
  | cons item items ih =>
      unfold groupBy at h
      split at h
      · rw [List.mem_singleton.mp h]
        exact ⟨List.cons_ne_nil _ _, fun one hone => by rw [List.mem_singleton.mp hone]⟩
      · rename_i next rest runs hcons
        have hhead : (next, rest) ∈ groupBy key items := by
          rw [hcons]
          exact List.mem_cons_self
        split at h
        · rename_i hsame
          rcases List.mem_cons.mp h with rfl | hlate
          · refine ⟨List.cons_ne_nil _ _, fun one hone => ?_⟩
            rcases List.mem_cons.mp hone with rfl | hold
            · exact hsame.symm
            · exact (ih hhead).2 one hold
          · refine ih ?_
            rw [hcons]
            exact List.mem_cons_of_mem _ hlate
        · rcases List.mem_cons.mp h with rfl | hlate
          · exact ⟨List.cons_ne_nil _ _, fun one hone => by rw [List.mem_singleton.mp hone]⟩
          · exact ih (hcons ▸ hlate)

theorem mem_keys_groupBy {items : List α} {run : κ × List α} {item : α} (hrun : run ∈ groupBy key items)
    (hitem : item ∈ run.2) : item ∈ items := by
  rw [← flatMap_groupBy key items]
  exact List.mem_flatMap.mpr ⟨run, hrun, hitem⟩

/-- Every element is in the run of its key. -/
theorem exists_groupBy {items : List α} {item : α} (h : item ∈ items) :
    ∃ run ∈ groupBy key items, item ∈ run.2 ∧ run.1 = key item := by
  rw [← flatMap_groupBy key items] at h
  obtain ⟨run, hrun, hitem⟩ := List.mem_flatMap.mp h
  exact ⟨run, hrun, hitem, ((mem_groupBy key hrun).2 item hitem).symm⟩

/-- Over keys that never fall, the runs' keys rise. -/
theorem groupBy_pairwise [LinearOrder κ] {items : List α} (h : items.Pairwise fun one other => key one ≤ key other) :
    (groupBy key items).Pairwise fun run other => run.1 < other.1 := by
  induction items with
  | nil => exact List.Pairwise.nil
  | cons item items ih =>
      rw [List.pairwise_cons] at h
      have hruns := ih h.2
      unfold groupBy
      split
      · exact List.pairwise_singleton _ _
      · rename_i next run runs hcons
        rw [hcons, List.pairwise_cons] at hruns
        split
        · exact List.pairwise_cons.mpr hruns
        · rename_i hother
          -- The next run starts at an element after this one, so its key is not below.
          have hnext : key item < next := by
            have hhead : (next, run) ∈ groupBy key items := by
              rw [hcons]
              exact List.mem_cons_self
            obtain ⟨hnonempty, hkeys⟩ := mem_groupBy key hhead
            obtain ⟨first, hfirst⟩ := List.exists_mem_of_ne_nil _ hnonempty
            have hle := h.1 first (mem_keys_groupBy key hhead hfirst)
            rw [hkeys first hfirst] at hle
            exact lt_of_le_of_ne hle (Ne.symm hother)
          refine List.pairwise_cons.mpr ⟨fun other hmem => ?_, List.pairwise_cons.mpr hruns⟩
          rcases List.mem_cons.mp hmem with rfl | hlate
          · exact hnext
          · exact lt_trans hnext (hruns.1 other hlate)

end Keys

section Weights

variable {α : Type} (weight : α → ℕ) (limit : ℕ)

/-- The rest of the batches once `batch` is waiting, weighing `size`. -/
def batchesFrom (batch : List α) (size : ℕ) : List α → List (List α)
  | [] => if batch.isEmpty then [] else [batch]
  | item :: items =>
      if !batch.isEmpty && limit < weight item + size then batch :: batchesFrom [item] (weight item) items
      else batchesFrom (batch ++ [item]) (size + weight item) items

/-- Consecutive elements weighing at most `limit` together, one heavier than that alone. -/
def constrainedBatches (items : List α) : List (List α) := batchesFrom weight limit [] 0 items

theorem flatten_batchesFrom (batch : List α) (size : ℕ) (items : List α) :
    (batchesFrom weight limit batch size items).flatten = batch ++ items := by
  induction items generalizing batch size with
  | nil =>
      unfold batchesFrom
      cases batch <;> simp
  | cons item items ih =>
      unfold batchesFrom
      split
      · rw [List.flatten_cons, ih, List.singleton_append]
      · rw [ih, List.append_assoc, List.singleton_append]

theorem flatten_constrainedBatches (items : List α) : (constrainedBatches weight limit items).flatten = items :=
  flatten_batchesFrom weight limit [] 0 items

/-- The rest of the parts once `part` is filling, weighing `size`: a part is closed as soon as it weighs `limit`. -/
def filledFrom (part : List α) (size : ℕ) : List α → List (List α)
  | [] => if part.isEmpty then [] else [part]
  | item :: items =>
      if limit ≤ size + weight item then (part ++ [item]) :: filledFrom [] 0 items
      else filledFrom (part ++ [item]) (size + weight item) items

/-- Consecutive elements up to the one that brings their weight to `limit`. -/
def filled (items : List α) : List (List α) := filledFrom weight limit [] 0 items

theorem flatten_filledFrom (part : List α) (size : ℕ) (items : List α) :
    (filledFrom weight limit part size items).flatten = part ++ items := by
  induction items generalizing part size with
  | nil =>
      unfold filledFrom
      cases part <;> simp
  | cons item items ih =>
      unfold filledFrom
      split
      · rw [List.flatten_cons, ih, List.nil_append, List.append_assoc, List.singleton_append]
      · rw [ih, List.append_assoc, List.singleton_append]

theorem flatten_filled (items : List α) : (filled weight limit items).flatten = items :=
  flatten_filledFrom weight limit [] 0 items

theorem filledFrom_ne_nil {part : List α} {size : ℕ} {items closed : List α}
    (h : closed ∈ filledFrom weight limit part size items) : closed ≠ [] := by
  induction items generalizing part size with
  | nil =>
      unfold filledFrom at h
      split at h
      · exact absurd h List.not_mem_nil
      · next hpart =>
          rw [List.mem_singleton.mp h]
          rintro rfl
          exact hpart rfl
  | cons item items ih =>
      unfold filledFrom at h
      split at h
      · rcases List.mem_cons.mp h with rfl | hlater
        · exact List.append_ne_nil_of_right_ne_nil _ (List.cons_ne_nil _ _)
        · exact ih hlater
      · exact ih h

theorem filled_ne_nil {items part : List α} (h : part ∈ filled weight limit items) : part ≠ [] :=
  filledFrom_ne_nil weight limit h

/-- What elements weigh together. -/
def total (items : List α) : ℕ := items.foldr (fun item rest => weight item + rest) 0

theorem total_append (items others : List α) : total weight (items ++ others) = total weight items + total weight others := by
  induction items with
  | nil => exact (Nat.zero_add _).symm
  | cons item items ih =>
      change weight item + total weight (items ++ others) = weight item + total weight items + total weight others
      rw [ih, Nat.add_assoc]

/-- Until its last element came, a first part was lighter than the limit. -/
theorem total_dropLast_lt {part : List α} {items first : List α} {more : List (List α)} (hlimit : total weight part < limit)
    (h : filledFrom weight limit part (total weight part) items = first :: more) : total weight first.dropLast < limit := by
  induction items generalizing part with
  | nil =>
      unfold filledFrom at h
      split at h
      · cases h
      · next hpart =>
          obtain ⟨rfl, -⟩ := List.cons.inj h
          have hne : part ≠ [] := by
            rintro rfl
            exact hpart rfl
          have hwhole := total_append weight part.dropLast [part.getLast hne]
          rw [List.dropLast_append_getLast] at hwhole
          omega
  | cons item items ih =>
      have hsize : total weight (part ++ [item]) = total weight part + weight item := total_append weight part [item]
      unfold filledFrom at h
      split at h
      · obtain ⟨rfl, -⟩ := List.cons.inj h
        rwa [List.dropLast_concat]
      · next hlight =>
          rw [← hsize] at h hlight
          exact ih (not_le.mp hlight) h

/-- Elements that reach the limit before the last of them do not fit one part. -/
theorem exists_filled_parts {items : List α} (hpos : 0 < limit) (hne : items ≠ [])
    (h : limit ≤ total weight items.dropLast) : ∃ first next more, filled weight limit items = first :: next :: more := by
  have hflatten := flatten_filled weight limit items
  cases hparts : filled weight limit items with
  | nil =>
      rw [hparts] at hflatten
      exact absurd hflatten.symm hne
  | cons first more =>
      cases more with
      | nil =>
          rw [hparts, List.flatten_cons, List.flatten_nil, List.append_nil] at hflatten
          have hlight := @total_dropLast_lt α weight limit [] items first [] hpos hparts
          rw [hflatten] at hlight
          omega
      | cons next more => exact ⟨first, next, more, rfl⟩

end Weights

section Widths

variable {α : Type}

/-- So many pieces of one width, put together again. -/
theorem pieces_flatten (list : List α) (width count : ℕ) :
    ((List.range count).map fun index => (list.drop (index * width)).take width).flatten = list.take (count * width) := by
  induction count with
  | zero => rw [Nat.zero_mul, List.take_zero]; rfl
  | succ count ih =>
      rw [List.range_succ, List.map_append, List.flatten_append, ih, Nat.succ_mul, List.take_add]
      simp

end Widths

/-! Runs of which some are left out -/

section Kept

variable {β : Type} {block : β → List ℕ} {keep : β → Bool}

/-- Where the blocks of a list count up and those kept of them count up from the same start, the kept ones stand before
the others. -/
theorem early_late {items : List β} {start total count : ℕ} (hblock : ∀ item ∈ items, block item ≠ [])
    (hall : items.flatMap block = List.range' start total)
    (hkept : (items.filter keep).flatMap block = List.range' start count) :
    ∃ early late, items = early ++ late ∧ (∀ item ∈ early, keep item = true) ∧ ∀ item ∈ late, keep item = false := by
  induction items generalizing start total count with
  | nil => exact ⟨[], [], rfl, fun _ h => absurd h List.not_mem_nil, fun _ h => absurd h List.not_mem_nil⟩
  | cons item items ih =>
      have hlater : ∀ other ∈ items, block other ≠ [] := fun other hother => hblock other (List.mem_cons_of_mem _ hother)
      -- what the first block counts, the ones after it go on from
      have hrest : ∀ {count rest}, block item ++ rest = List.range' start count →
          rest = List.range' (start + (block item).length) (count - (block item).length) := by
        intro count rest h
        have hdrop := congrArg (List.drop (block item).length) h
        rwa [List.drop_left, List.drop_range', Nat.mul_one] at hdrop
      have hitems := hrest (by rw [← List.flatMap_cons]; exact hall)
      by_cases hkeep : keep item = true
      · rw [List.filter_cons_of_pos hkeep, List.flatMap_cons] at hkept
        obtain ⟨early, late, rfl, hearly, hlate⟩ := ih hlater hitems (hrest hkept)
        exact ⟨item :: early, late, rfl, List.forall_mem_cons.mpr ⟨hkeep, hearly⟩, hlate⟩
      · rw [List.filter_cons_of_neg hkeep] at hkept
        have hlength : 0 < (block item).length := List.length_pos_of_ne_nil (hblock item List.mem_cons_self)
        -- a block kept further on would count from beyond the start
        have hnone : ∀ other ∈ items, keep other = false := by
          intro other hother
          refine Bool.eq_false_iff.mpr fun hother' => ?_
          have hcount : count ≠ 0 := by
            rintro rfl
            rw [List.range'_zero, List.flatMap_eq_nil_iff] at hkept
            exact hlater other hother (hkept other (List.mem_filter.mpr ⟨hother, hother'⟩))
          have hstart : start ∈ (items.filter keep).flatMap block := by
            rw [hkept, List.mem_range'_1]
            omega
          obtain ⟨holder, hholder, hin⟩ := List.mem_flatMap.mp hstart
          have hbeyond : start ∈ items.flatMap block :=
            List.mem_flatMap.mpr ⟨holder, (List.mem_filter.mp hholder).1, hin⟩
          rw [hitems, List.mem_range'_1] at hbeyond
          omega
        exact ⟨[], item :: items, rfl, fun _ h => absurd h List.not_mem_nil,
          List.forall_mem_cons.mpr ⟨Bool.eq_false_iff.mpr hkeep, hnone⟩⟩

end Kept

section Pairs

variable {α : Type}

/-- Neighbours joined two by two, a last one left alone. -/
def joined : List (List α) → List (List α)
  | one :: other :: rest => (one ++ other) :: joined rest
  | rest => rest

theorem flatten_joined : ∀ parts : List (List α), (joined parts).flatten = parts.flatten
  | [] => rfl
  | [_] => rfl
  | one :: other :: rest => by
      rw [joined, List.flatten_cons, List.flatten_cons, List.flatten_cons, flatten_joined rest, List.append_assoc]

theorem length_joined_le : ∀ parts : List (List α), (joined parts).length ≤ parts.length
  | [] => Nat.le_refl _
  | [_] => Nat.le_refl _
  | one :: other :: rest => by
      have := length_joined_le rest
      rw [joined, List.length_cons, List.length_cons, List.length_cons]
      omega

theorem length_joined_lt {parts : List (List α)} (h : 1 < parts.length) : (joined parts).length < parts.length := by
  match parts, h with
  | one :: other :: rest, _ =>
      have := length_joined_le rest
      rw [joined, List.length_cons, List.length_cons, List.length_cons]
      omega

/-- All parts as one, joined in pairs until one remains. -/
def union (parts : List (List α)) : List α :=
  if 1 < parts.length then union (joined parts) else parts.headD []
termination_by parts.length
decreasing_by exact length_joined_lt ‹1 < parts.length›

theorem union_eq_flatten (parts : List (List α)) : union parts = parts.flatten := by
  induction parts using union.induct with
  | case1 parts h ih => rw [union, if_pos h, ih, flatten_joined]
  | case2 parts h =>
      rw [union, if_neg h]
      match parts, h with
      | [], _ => rfl
      | [part], _ => simp
      | one :: other :: rest, h => exact absurd (by simp) h

end Pairs

end Grouping
