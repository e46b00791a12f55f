import Mathlib.Algebra.Order.BigOperators.Group.Finset
import Mathlib.Algebra.Order.Sub.Basic
import Mainboard.SeenHistory

/-! What a check reports. The findings picked are, of each fingerprint, exactly as many as are new: the paths a
fingerprint grew in have room for all its growth together. So a check in a run over all files reports what the law
says, as long as the record it starts from has not been emptied. -/

namespace Mainboard.Findings

open Tallies

variable {classes : Classes} {check : Check} {record : Record}

/-! Reporting -/

namespace Check

theorem eq_fingerprint {found : Keyed} (h : found ∈ check.keyedOf classes check.report) :
    found.rule ∈ check.ran ∧ found.key = check.fingerprint classes found.rule found.row := by
  obtain ⟨entry, hentry, hfound⟩ := List.mem_flatMap.mp h
  obtain ⟨row, -, rfl⟩ := List.mem_map.mp hfound
  exact ⟨List.mem_map_of_mem hentry, rfl⟩

/-- A report made of picked findings holds exactly them. -/
theorem keyedOf_reportOf {picked : List Keyed} (h : ∀ found ∈ picked, found ∈ check.keyedOf classes check.report) :
    check.keyedOf classes (check.reportOf picked) = check.ran.flatMap fun rule => picked.filter fun found =>
      found.rule = rule := by
  unfold keyedOf reportOf
  rw [List.flatMap_map]
  refine List.flatMap_congr fun rule _ => ?_
  rw [List.map_map]
  conv_rhs => rw [← List.map_id (picked.filter fun found => found.rule = rule)]
  refine List.map_congr_left fun found hfound => ?_
  obtain ⟨hpicked, hrule⟩ := List.mem_filter.mp hfound
  obtain rfl := of_decide_eq_true hrule
  have hkey := (eq_fingerprint (h found hpicked)).2
  cases found
  dsimp only at hkey ⊢
  rw [hkey]
  rfl

theorem tally_reportOf {κ : Type} [DecidableEq κ] (key : Keyed → κ) {picked : List Keyed}
    (h : ∀ found ∈ picked, found ∈ check.keyedOf classes check.report) :
    tally key (check.keyedOf classes (check.reportOf picked)) = tally key picked := by
  have hran : check.ran.Nodup := check.report.nodup
  have hflat : ∀ rules : List Rule, tally key (rules.flatMap fun rule => picked.filter fun found => found.rule = rule) =
      (rules.map fun rule => tally key (picked.filter fun found => found.rule = rule)).sum := by
    intro rules
    induction rules with
    | nil => rfl
    | cons rule rules ih => rw [List.flatMap_cons, tally_append, ih, List.map_cons, List.sum_cons]
  rw [keyedOf_reportOf h, hflat, ← List.sum_toFinset _ hran]
  exact sum_tally_filter key (·.rule) _ fun found hfound => List.mem_toFinset.mpr (eq_fingerprint (h found hfound)).1

end Check

/-! Picking -/

theorem flatMap_keyed (paths : List String) :
    ∀ found ∈ paths.flatMap fun path => StableSort.sortOn inOrder (check.keyed classes path),
      found ∈ check.keyedOf classes check.report := by
  intro found hfound
  obtain ⟨path, -, hin⟩ := List.mem_flatMap.mp hfound
  exact List.mem_of_mem_filter ((StableSort.sortOn_perm inOrder _).mem_iff.mp hin)

theorem picked_sublist (paths : List String) : (picked classes check record paths).Sublist
    ((StableSort.sortOn id paths).flatMap fun path => StableSort.sortOn inOrder (check.keyed classes path)) := by
  obtain ⟨more, hpicked, hsub⟩ := picked_pickAll Keyed.key
    (fun path => StableSort.sortOn inOrder (check.keyed classes path))
    (fun path => check.now classes path - record.held check path) (StableSort.sortOn id paths)
    ⟨0, record.unmatched classes check, []⟩
  unfold picked
  rw [hpicked]
  exact hsub

theorem mem_keyedOf_of_picked {paths : List String} :
    ∀ found ∈ picked classes check record paths, found ∈ check.keyedOf classes check.report := fun found hfound =>
  flatMap_keyed _ found ((picked_sublist paths).subset hfound)

/-- The files in order, summed over, are the files as a set. -/
theorem sum_sorted {M : Type} [AddCommMonoid M] (files : List String) (counts : String → M) :
    ((StableSort.sortOn id files.dedup).map counts).sum = ∑ path ∈ files.toFinset, counts path := by
  rw [((StableSort.sortOn_perm id files.dedup).map counts).sum_eq, ← List.sum_toFinset _ (List.nodup_dedup files)]
  refine Finset.sum_congr (Finset.ext fun path => ?_) fun _ _ => rfl
  rw [List.mem_toFinset, List.mem_toFinset, List.mem_dedup]

namespace Check.Whole

variable (h : check.Whole classes record)
include h

/-- The paths a fingerprint grew in have room for all its growth. -/
theorem unmatched_le : record.unmatched classes check ≤
    ∑ path ∈ check.files.toFinset, (check.now classes path - record.held check path) := by
  have hgrown : record.grown classes check ≤
      ∑ path ∈ check.files.toFinset, (check.now classes path - record.held check path) := by
    unfold Record.grown
    rw [h.sum_covered, h.sum_covered, tsub_le_iff_left, ← Finset.sum_add_distrib]
    exact Finset.sum_le_sum fun path _ => le_add_tsub
  exact tsub_le_self.trans hgrown

/-- Of the files, exactly what is unmatched is picked. -/
theorem tally_picked : tally Keyed.key (picked classes check record check.files.dedup) =
    record.unmatched classes check := by
  refine Multiset.ext.mpr fun key => ?_
  unfold picked
  rw [count_pickAll, sum_sorted, tally_nil, Multiset.count_zero, Nat.zero_add]
  · exact Nat.min_eq_right (Multiset.count_le_of_le key h.unmatched_le)
  · intro path _
    rw [tally_perm Keyed.key (StableSort.sortOn_perm inOrder _)]
    exact tsub_le_self

/-- No finding is picked twice. -/
theorem picked_le : tally id (picked classes check record check.files.dedup) ≤
    tally id (check.keyedOf classes check.report) := by
  refine (tally_sublist id (picked_sublist check.files.dedup)).trans ?_
  have hflat : ∀ paths : List String,
      tally id (paths.flatMap fun path => StableSort.sortOn inOrder (check.keyed classes path)) =
        (paths.map fun path => tally id (check.keyed classes path)).sum := by
    intro paths
    induction paths with
    | nil => rfl
    | cons path paths ih =>
        rw [List.flatMap_cons, tally_append, ih, tally_perm id (StableSort.sortOn_perm inOrder _), List.map_cons,
          List.sum_cons]
  rw [hflat, sum_sorted]
  exact le_of_eq (sum_tally_filter id (·.row.path) _ fun found hfound => List.mem_toFinset.mpr (h.placed found hfound))

theorem files_kept : (check.files.dedup.filter fun path => !(check.gone record).any (· == path)) = check.files.dedup := by
  refine List.filter_eq_self.mpr fun path hpath => ?_
  rw [Bool.not_eq_true', List.any_eq_false]
  exact fun one hone hsame => h.not_gone (List.mem_dedup.mp hpath) (eq_of_beq hsame ▸ hone)

/-- A check over all files reports the unmatched growth, and the first one of a record nothing. -/
theorem tally_fresh : tally Keyed.key (check.keyedOf classes (fresh classes record check).1) =
    if record.files = [] ∧ record.pool = 0 then 0 else record.unmatched classes check := by
  have hreport : (fresh classes record check).1 = check.reportOf (picked classes check record
      (if record.files.isEmpty && decide (record.pool = 0) then [] else check.files.dedup)) := by
    unfold fresh
    rw [h.files_kept]
  rw [hreport, Check.tally_reportOf Keyed.key mem_keyedOf_of_picked]
  by_cases hfirst : record.files = [] ∧ record.pool = 0
  · have hempty : (record.files.isEmpty && decide (record.pool = 0)) = true := by
      rw [hfirst.1, hfirst.2]
      rfl
    rw [if_pos hfirst, if_pos hempty]
    rfl
  · have hkept : ¬(record.files.isEmpty && decide (record.pool = 0)) = true := by
      rw [Bool.and_eq_true, List.isEmpty_iff, decide_eq_true_eq]
      exact hfirst
    rw [if_neg hfirst, if_neg hkept, h.tally_picked]

/-- What is reported is among what is found, no finding twice. -/
theorem fresh_le : tally id (check.keyedOf classes (fresh classes record check).1) ≤
    tally id (check.keyedOf classes check.report) := by
  have hreport : (fresh classes record check).1 = check.reportOf (picked classes check record
      (if record.files.isEmpty && decide (record.pool = 0) then [] else check.files.dedup)) := by
    unfold fresh
    rw [h.files_kept]
  rw [hreport, Check.tally_reportOf id mem_keyedOf_of_picked]
  split
  · exact Multiset.zero_le _
  · exact h.picked_le

end Check.Whole

/-! What stands -/

/-- Every count a record holds, over its files and the pool. -/
def Record.total (record : Record) : Multiset String := (record.files.map (·.2)).sum + record.pool

variable {earlier : List Check}

theorem Record.Agrees.seenAt_eq_zero (h : record.Agrees classes earlier) {path : String} (hpath : path ∉ Findings.known earlier) :
    seenAt classes earlier path = 0 := by
  rw [← h.counts]
  exact Record.counts_eq_zero fun hrecorded => hpath (h.known path hrecorded)

theorem Record.Agrees.total_eq (h : record.Agrees classes earlier) :
    record.total = ∑ path ∈ Findings.known earlier, seenAt classes earlier path + poolOf classes earlier := by
  have hvalues : record.files.map (·.2) = (record.files.map (·.1)).map record.counts := by
    rw [List.map_map]
    refine List.map_congr_left fun entry hentry => ?_
    have hget := OrderedMap.get_of_mem record.nodup hentry
    unfold Function.comp Record.counts
    rw [hget]
    rfl
  unfold Record.total
  rw [hvalues, h.pool, ← List.sum_toFinset _ record.nodup]
  congr 1
  refine Finset.sum_congr_of_eq_on_inter ?_ ?_ fun path _ _ => h.counts path
  · exact fun path hrecorded hknown => absurd (h.known path (List.mem_toFinset.mp hrecorded)) hknown
  · intro path _ hrecorded
    rw [← h.counts]
    exact Record.counts_eq_zero fun hin => hrecorded (List.mem_toFinset.mpr hin)

/-- Of the paths seen before, some survive a check and the others vanish. -/
theorem sum_seenAt (check : Check) (earlier : List Check) :
    ∑ path ∈ known earlier, seenAt classes earlier path = survived classes check earlier + vanished classes check earlier :=
  (Finset.sum_filter_add_sum_filter_not _ _ _).symm

/-- After a check the paths hold what it found, and of the rules it did not run what the survivors held. -/
theorem sum_seenAt_cons (h : record.Agrees classes earlier) (hwhole : check.Whole classes record) (key : String) :
    (∑ path ∈ known (check :: earlier), seenAt classes (check :: earlier) path).count key =
      (if check.runs key then 0 else (survived classes check earlier).count key) + (check.found classes).count key := by
  have hknown : known (check :: earlier) = check.files.toFinset ∪ known earlier := by
    unfold known
    rw [List.flatMap_cons, List.toFinset_append]
  have hsplit : ∀ path ∈ known (check :: earlier), (seenAt classes (check :: earlier) path).count key =
      (if check.lexists path = true ∧ check.runs key = false then (seenAt classes earlier path).count key else 0) +
        (check.now classes path).count key := by
    intro path _
    rw [seenAt]
    by_cases hlexists : check.lexists path = true
    · rw [if_pos hlexists, Multiset.count_add, Multiset.count_filter]
      cases check.runs key <;> simp [hlexists]
    · have hfile : path ∉ check.files := fun hfile => hlexists (hwhole.present path hfile)
      rw [if_neg hlexists, hwhole.now_eq_zero hfile, if_neg fun hboth => hlexists hboth.1]
      exact (Nat.zero_add _).symm
  have hfound : ∑ path ∈ known (check :: earlier), (check.now classes path).count key =
      (check.found classes).count key := by
    rw [← Multiset.count_sum']
    congr 1
    refine sum_tally_filter Keyed.key (·.row.path) _ fun found hin => ?_
    rw [hknown]
    exact Finset.mem_union_left _ (List.mem_toFinset.mpr (hwhole.placed found hin))
  rw [Multiset.count_sum', Finset.sum_congr rfl hsplit, Finset.sum_add_distrib, hfound]
  congr 1
  by_cases hruns : check.runs key = true
  · rw [if_pos hruns]
    exact Finset.sum_eq_zero fun path _ => if_neg fun hboth => Bool.noConfusion (hruns.symm.trans hboth.2)
  · have hnot : check.runs key = false := Bool.eq_false_iff.mpr hruns
    have hlexists : ∀ path ∈ known (check :: earlier),
        (if check.lexists path = true ∧ check.runs key = false then (seenAt classes earlier path).count key else 0) =
          if check.lexists path = true then (seenAt classes earlier path).count key else 0 := by
      intro path _
      rw [hnot]
      simp
    rw [if_neg hruns, Finset.sum_congr rfl hlexists, ← Finset.sum_filter, survived, Multiset.count_sum']
    refine (Finset.sum_subset ?_ ?_).symm
    · rw [hknown]
      exact Finset.filter_subset_filter _ Finset.subset_union_right
    · intro path hin hout
      rw [h.seenAt_eq_zero fun hold => hout (Finset.mem_filter.mpr ⟨hold, (Finset.mem_filter.mp hin).2⟩)]
      rfl

/-- A check conserves every count: what stands after it, with what its files lost, is what stood before, with the
news. -/
theorem total_after (h : record.Agrees classes earlier) (hwhole : check.Whole classes record) (key : String) :
    ((fresh classes record check).2.total).count key +
        (if check.runs key then (survived classes check earlier).count key - (check.found classes).count key else 0) =
      record.total.count key + (news classes check earlier).count key := by
  have hafter : (fresh classes record check).2 = record.after classes check := rfl
  have hpool : poolOf classes (check :: earlier) =
      poolOf classes earlier + vanished classes check earlier - growth classes check earlier := rfl
  have hnone : ¬check.runs key = true → (check.found classes).count key = 0 := fun hruns =>
    Multiset.count_eq_zero.mpr fun hkey => hruns (Check.runs_of_found hkey)
  rw [hafter, (h.after hwhole).total_eq, h.total_eq, Multiset.count_add, sum_seenAt_cons h hwhole, sum_seenAt check,
    hpool]
  unfold news growth
  simp only [Multiset.count_add, Multiset.count_sub]
  by_cases hruns : check.runs key = true
  · rw [if_pos hruns, if_pos hruns]
    omega
  · rw [if_neg hruns, if_neg hruns, hnone hruns]
    omega

/-- After a check over all files the record holds no path exactly where there were no files. -/
theorem files_after (hwhole : check.Whole classes record) :
    (record.after classes check).files = [] ↔ check.files = [] := by
  rw [← List.map_eq_nil_iff (f := Prod.fst), List.eq_nil_iff_forall_not_mem, List.eq_nil_iff_forall_not_mem]
  refine forall_congr' fun path => not_congr ?_
  refine OrderedMap.mem_keys_putAll.trans ?_
  rw [List.map_map]
  constructor
  · rintro (hput | hkept)
    · obtain ⟨one, hone, rfl⟩ := List.mem_map.mp hput
      exact hwhole.mem_covered.mp hone
    · obtain ⟨entry, hentry, rfl⟩ := List.mem_map.mp hkept
      obtain ⟨hrecorded, hlexists⟩ := List.mem_filter.mp hentry
      exact hwhole.spans _ (List.mem_map_of_mem hrecorded) hlexists
  · exact fun hfile => Or.inl (List.mem_map.mpr ⟨path, hwhole.mem_covered.mpr hfile, rfl⟩)

/-- In a run over all files, a check after the first reports of each fingerprint exactly what grew over the surviving
paths beyond what the pool of vanished files held, so findings spread anew over the paths are not reported; and it
leaves the counts of the rules it did not run, and conserves those of the rules it ran. All this holds exactly where
the record has not been emptied, or nothing is found. -/
theorem fresh_news (check last : Check) (older : List Check) (h : AllWhole classes (check :: last :: older)) :
    let earlier := last :: older
    let record := recordAfter classes earlier
    let reported := check.keyedOf classes (fresh classes record check).1
    let after := recordAfter classes (check :: earlier)
    (tally Keyed.key reported = news classes check earlier ∧
      tally id reported ≤ tally id (check.keyedOf classes check.report) ∧
      (check.found classes ≤ survived classes check earlier + (poolOf classes earlier + vanished classes check earlier) →
        reported = []) ∧
      (∀ key, check.runs key = false → (∀ path, check.lexists path = true →
        (after.counts path).count key = (record.counts path).count key) ∧ after.total.count key = record.total.count key) ∧
      (∀ key, check.runs key = true →
        after.total.count key + ((survived classes check earlier).count key - (check.found classes).count key) =
          record.total.count key + (tally Keyed.key reported).count key)) ↔
    (last.files ≠ [] ∨ poolOf classes earlier ≠ 0 ∨ check.found classes = 0) := by
  intro earlier record reported after
  have hagrees : record.Agrees classes earlier := recordAfter_agrees classes h.1
  have hwhole : check.Whole classes record := h.2
  have hreported : tally Keyed.key reported =
      if record.files = [] ∧ record.pool = 0 then 0 else news classes check earlier := by
    rw [← hagrees.unmatched_eq hwhole]
    exact hwhole.tally_fresh
  have hfirst : record.files = [] ∧ record.pool = 0 ↔ last.files = [] ∧ poolOf classes earlier = 0 := by
    rw [hagrees.pool]
    exact and_congr_left' (files_after h.1.2)
  constructor
  · rintro ⟨hnews, -⟩
    by_cases hempty : record.files = [] ∧ record.pool = 0
    · refine Or.inr (Or.inr ?_)
      have hnone : ∀ path, seenAt classes earlier path = 0 := fun path => by
        rw [← hagrees.counts]
        refine Record.counts_eq_zero ?_
        rw [hempty.1]
        exact List.not_mem_nil
      have hsurvived : survived classes check earlier = 0 := Finset.sum_eq_zero fun path _ => hnone path
      have hvanished : vanished classes check earlier = 0 := Finset.sum_eq_zero fun path _ => hnone path
      rw [hreported, if_pos hempty, news, growth, hsurvived, hvanished, ← hagrees.pool, hempty.2, add_zero, tsub_zero,
        tsub_zero] at hnews
      exact hnews.symm
    · rcases not_and_or.mp fun hboth => hempty (hfirst.mpr hboth) with hfiles | hpool
      · exact Or.inl hfiles
      · exact Or.inr (Or.inl hpool)
  · intro hcondition
    have hnews : tally Keyed.key reported = news classes check earlier := by
      rw [hreported]
      split
      · rename_i hempty
        obtain ⟨hfiles, hpool⟩ := hfirst.mp hempty
        have hfound := (hcondition.resolve_left fun hne => hne hfiles).resolve_left fun hne => hne hpool
        rw [news, growth, hfound, zero_tsub, zero_tsub]
      · rfl
    refine ⟨hnews, hwhole.fresh_le, fun hspread => ?_, fun key hruns => ⟨fun path hlexists => ?_, ?_⟩,
      fun key hruns => ?_⟩
    · rw [← tally_eq_zero_iff Keyed.key, hnews, news, growth, tsub_tsub]
      exact tsub_eq_zero_of_le hspread
    · have hcounts : after.counts path = _ := (hagrees.after hwhole).counts path
      rw [hcounts, hagrees.counts, seenAt, if_pos hlexists, Multiset.count_add, Multiset.count_filter, hruns]
      have hnone : (check.now classes path).count key = 0 := Multiset.count_eq_zero.mpr fun hin =>
        Bool.noConfusion (hruns.symm.trans (Check.runs_of_found (Multiset.mem_of_le (Check.now_le_found path) hin)))
      rw [hnone]
      rfl
    · have htotal := total_after hagrees hwhole key
      have hfound : (check.found classes).count key = 0 := Multiset.count_eq_zero.mpr fun hin =>
        Bool.noConfusion (hruns.symm.trans (Check.runs_of_found hin))
      have hnone : (news classes check earlier).count key = 0 := by
        unfold news growth
        rw [Multiset.count_sub, Multiset.count_sub, hfound, Nat.zero_sub, Nat.zero_sub]
      rw [hruns, if_neg Bool.false_ne_true, hnone] at htotal
      exact htotal
    · have htotal := total_after hagrees hwhole key
      rw [if_pos hruns, ← hnews] at htotal
      exact htotal

/-! A finding moved, and a project emptied -/

/-- The classes of ASCII text. -/
def ascii : Classes where
  digit := Char.isDigit
  word := fun c => c.isAlphanum || c == '_'
  space := fun c => c == ' '

/-- A check of one rule that finds a long line in each of some files, and reads one line in each. -/
def oneRule (files finding : List String) : Check where
  report := ⟨[(⟨"R1", by decide⟩, finding.map fun path => ⟨path, 1, 0, "a long line"⟩)], List.nodup_singleton _⟩
  files := files
  changed := []
  lexists := fun path => files.any (· == path)
  lines := fun path => if files.any (· == path) then some ["text"] else none

theorem oneRule_whole {files finding : List String} {record : Record} (hplaced : ∀ path ∈ finding, path ∈ files) :
    (oneRule files finding).Whole ascii record := by
  have hlexists : ∀ path, (oneRule files finding).lexists path = true ↔ path ∈ files := by
    intro path
    refine List.any_eq_true.trans ⟨?_, fun hin => ⟨path, hin, beq_self_eq_true path⟩⟩
    rintro ⟨one, hone, hsame⟩
    exact eq_of_beq hsame ▸ hone
  refine ⟨fun found hfound => ?_, fun path hpath => (hlexists path).mpr hpath, fun path _ => (hlexists path).mp⟩
  obtain ⟨entry, hentry, hin⟩ := List.mem_flatMap.mp hfound
  obtain rfl := List.mem_singleton.mp hentry
  obtain ⟨row, hrow, rfl⟩ := List.mem_map.mp hin
  obtain ⟨path, hpath, rfl⟩ := List.mem_map.mp hrow
  exact hplaced path hpath

/-- A finding moved to another file, and one more beside it: the second check reports one. -/
theorem fresh_news_moved : ((oneRule ["b.py", "c.py"] ["b.py", "c.py"]).keyedOf ascii
      (fresh ascii (recordAfter ascii [oneRule ["a.py"] ["a.py"]]) (oneRule ["b.py", "c.py"] ["b.py", "c.py"])).1 ≠ []) ∧
    tally Keyed.key ((oneRule ["b.py", "c.py"] ["b.py", "c.py"]).keyedOf ascii
      (fresh ascii (recordAfter ascii [oneRule ["a.py"] ["a.py"]]) (oneRule ["b.py", "c.py"] ["b.py", "c.py"])).1) =
      news ascii (oneRule ["b.py", "c.py"] ["b.py", "c.py"]) [oneRule ["a.py"] ["a.py"]] ∧
    news ascii (oneRule ["b.py", "c.py"] ["b.py", "c.py"]) [oneRule ["a.py"] ["a.py"]] = {"R1\ta long line\ttext"} := by
  have hwhole : AllWhole ascii [oneRule ["b.py", "c.py"] ["b.py", "c.py"], oneRule ["a.py"] ["a.py"]] :=
    ⟨⟨trivial, oneRule_whole (by decide)⟩, oneRule_whole (by decide)⟩
  have hone : news ascii (oneRule ["b.py", "c.py"] ["b.py", "c.py"]) [oneRule ["a.py"] ["a.py"]] =
      {"R1\ta long line\ttext"} := by decide +kernel
  have hnews := ((fresh_news (oneRule ["b.py", "c.py"] ["b.py", "c.py"]) (oneRule ["a.py"] ["a.py"]) [] hwhole).mpr
    (Or.inl (List.cons_ne_nil _ _))).1
  refine ⟨fun hnil => ?_, hnews, hone⟩
  rw [hnil, hone] at hnews
  exact Multiset.singleton_ne_zero _ hnews.symm

/-- A project whose only file, without findings, is removed, checked and put back with one: the third check takes
itself for the first and reports nothing. -/
theorem fresh_news_fails :
    AllWhole ascii [oneRule ["a.py"] ["a.py"], oneRule [] [], oneRule ["a.py"] []] ∧
    news ascii (oneRule ["a.py"] ["a.py"]) [oneRule [] [], oneRule ["a.py"] []] = {"R1\ta long line\ttext"} ∧
    (oneRule ["a.py"] ["a.py"]).keyedOf ascii
      (fresh ascii (recordAfter ascii [oneRule [] [], oneRule ["a.py"] []]) (oneRule ["a.py"] ["a.py"])).1 = [] :=
  ⟨⟨⟨⟨trivial, oneRule_whole (by decide)⟩, oneRule_whole (by decide)⟩, oneRule_whole (by decide)⟩, by decide +kernel,
    by decide +kernel⟩

end Mainboard.Findings
