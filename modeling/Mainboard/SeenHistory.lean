import Mainboard.SeenFindings

/-! What a run of checks over all files of a project reports. The law is stated over the checks alone: what a path
held at the last check of each rule since it came to be, what the pool of vanished files holds, and how far each
fingerprint grew over the paths that survive. The record follows that law whatever happens between the checks, and a
check reports exactly what grew beyond the pool. -/

namespace Mainboard.Findings

open Tallies

variable (classes : Classes)

/-! The law -/

/-- Every finding of a check, by fingerprint. -/
def Check.found (check : Check) : Multiset String := tally Keyed.key (check.keyedOf classes check.report)

/-- What a path held when last seen, the checks newest first: of each rule what the last check running it found, and
nothing where the path is gone. -/
def seenAt : List Check → String → Multiset String
  | [], _ => 0
  | check :: earlier, path =>
      if check.lexists path then ((seenAt earlier path).filter fun key => !check.runs key) + check.now classes path else 0

/-- Every path a check was asked for. -/
def known (history : List Check) : Finset String := (history.flatMap (·.files)).toFinset

/-- What the paths a check finds gone held. -/
def vanished (check : Check) (earlier : List Check) : Multiset String :=
  ∑ path ∈ (known earlier).filter fun path => ¬check.lexists path, seenAt classes earlier path

/-- What the paths still on disk held. -/
def survived (check : Check) (earlier : List Check) : Multiset String :=
  ∑ path ∈ (known earlier).filter fun path => check.lexists path, seenAt classes earlier path

/-- How far each fingerprint grew over the surviving paths. -/
def growth (check : Check) (earlier : List Check) : Multiset String :=
  check.found classes - survived classes check earlier

/-- What the pool of vanished files holds: what they held, less what later growth was matched with. -/
def poolOf : List Check → Multiset String
  | [] => 0
  | check :: earlier => poolOf earlier + vanished classes check earlier - growth classes check earlier

/-- The growth beyond what the pool of vanished files held. -/
def news (check : Check) (earlier : List Check) : Multiset String :=
  growth classes check earlier - (poolOf classes earlier + vanished classes check earlier)

/-! Runs -/

/-- The record after a run of checks, the newest first. -/
def recordAfter : List Check → Record
  | [] => {}
  | check :: earlier => (fresh classes (recordAfter earlier) check).2

/-- A check over all files of a project: what it finds lies in its files, its files are on disk, and so does every
recorded path that is still on disk. -/
structure Check.Whole (check : Check) (record : Record) : Prop where
  placed : ∀ found ∈ check.keyedOf classes check.report, found.row.path ∈ check.files
  present : ∀ path ∈ check.files, check.lexists path = true
  spans : ∀ path ∈ record.files.map (·.1), check.lexists path = true → path ∈ check.files

/-- A run of such checks, the newest first. -/
def AllWhole : List Check → Prop
  | [] => True
  | check :: earlier => AllWhole earlier ∧ check.Whole classes (recordAfter classes earlier)

/-! One check -/

theorem ruleOf_fingerprint (check : Check) (rule : Rule) (row : Row) :
    ruleOf (check.fingerprint classes rule row) = rule.name := by
  have hplain : ∀ c ∈ rule.name.toList, (c != '\t') = true := fun c hc =>
    bne_iff_ne.mpr fun hsame => rule.plain (hsame ▸ hc)
  unfold ruleOf Check.fingerprint
  have hkey : ("\t".intercalate [rule.name, shape classes row.message, anchor classes check.lines row]).toList =
      rule.name.toList ++ '\t' :: ((shape classes row.message).toList ++ '\t' ::
        (anchor classes check.lines row).toList) := by
    simp [String.intercalate_cons_cons]
  rw [hkey, List.takeWhile_append_of_pos hplain, List.takeWhile_cons_of_neg (by decide), List.append_nil,
    String.ofList_toList]

namespace Check

variable {classes} {check : Check} {record : Record}

theorem runs_of_mem {found : Keyed} (h : found ∈ check.keyedOf classes check.report) : check.runs found.key = true := by
  obtain ⟨entry, hentry, hfound⟩ := List.mem_flatMap.mp h
  obtain ⟨row, -, rfl⟩ := List.mem_map.mp hfound
  refine List.any_eq_true.mpr ⟨entry.1, List.mem_map_of_mem hentry, ?_⟩
  rw [ruleOf_fingerprint]
  exact beq_self_eq_true _

theorem runs_of_found {key : String} (h : key ∈ check.found classes) : check.runs key = true := by
  obtain ⟨found, hfound, rfl⟩ := List.mem_map.mp (Multiset.mem_coe.mp h)
  exact runs_of_mem hfound

theorem now_le_found (path : String) : check.now classes path ≤ check.found classes :=
  tally_sublist Keyed.key List.filter_sublist

theorem mem_gone {path : String} :
    path ∈ check.gone record ↔ path ∈ record.files.map (·.1) ∧ check.lexists path = false := by
  unfold gone
  rw [List.mem_filter, Bool.not_eq_true']

theorem nodup_covered : (check.covered record).Nodup := (List.nodup_dedup _).filter _

namespace Whole

variable (h : check.Whole classes record)
include h

theorem now_eq_zero {path : String} (hpath : path ∉ check.files) : check.now classes path = 0 := by
  refine (tally_eq_zero_iff Keyed.key).mpr (List.filter_eq_nil_iff.mpr fun found hfound => ?_)
  rw [decide_eq_true_eq]
  exact fun hsame => hpath (hsame ▸ h.placed found hfound)

theorem not_gone {path : String} (hpath : path ∈ check.files) : path ∉ check.gone record := fun hgone => by
  have habsent := (mem_gone.mp hgone).2
  rw [h.present path hpath] at habsent
  exact Bool.noConfusion habsent

/-- A check over all files covers exactly them. -/
theorem mem_covered {path : String} : path ∈ check.covered record ↔ path ∈ check.files := by
  unfold covered
  rw [List.mem_filter, List.mem_dedup, List.mem_append, List.mem_filter]
  constructor
  · rintro ⟨hfile | ⟨-, hcounted⟩, hgone⟩
    · exact hfile
    · obtain ⟨one, hone, hsame⟩ := List.any_eq_true.mp hcounted
      obtain rfl := eq_of_beq hsame
      rcases List.mem_append.mp hone with hrecorded | hreported
      · by_cases hlexists : check.lexists one = true
        · exact h.spans one hrecorded hlexists
        · rw [Bool.not_eq_true', List.any_eq_false] at hgone
          refine absurd (beq_self_eq_true one) (hgone one (mem_gone.mpr ⟨hrecorded, ?_⟩))
          exact Bool.eq_false_iff.mpr hlexists
      · obtain ⟨entry, hentry, hrow⟩ := List.mem_flatMap.mp hreported
        obtain ⟨row, hin, rfl⟩ := List.mem_map.mp hrow
        exact h.placed ⟨_, entry.1, row⟩ (List.mem_flatMap.mpr ⟨entry, hentry, List.mem_map_of_mem hin⟩)
  · refine fun hfile => ⟨Or.inl hfile, ?_⟩
    rw [Bool.not_eq_true', List.any_eq_false]
    exact fun one hone hsame => h.not_gone hfile (eq_of_beq hsame ▸ hone)

theorem sum_covered (counts : String → Multiset String) :
    ((check.covered record).map counts).sum = ∑ path ∈ check.files.toFinset, counts path := by
  rw [← List.sum_toFinset counts nodup_covered]
  refine Finset.sum_congr (Finset.ext fun path => ?_) fun _ _ => rfl
  rw [List.mem_toFinset, List.mem_toFinset, h.mem_covered]

theorem sum_now : ((check.covered record).map (check.now classes)).sum = check.found classes := by
  rw [h.sum_covered]
  exact sum_tally_filter Keyed.key (·.row.path) _ fun found hfound => List.mem_toFinset.mpr (h.placed found hfound)

end Whole

end Check

/-! The record follows the law -/

/-- A record holds what the law says of the checks so far. -/
structure Record.Agrees (record : Record) (history : List Check) : Prop where
  known : ∀ path ∈ record.files.map (·.1), path ∈ known history
  counts : ∀ path, record.counts path = seenAt classes history path
  pool : record.pool = poolOf classes history

namespace Record

variable {classes} {record : Record} {check : Check} {earlier : List Check}

theorem counts_eq_zero {path : String} (h : path ∉ record.files.map (·.1)) : record.counts path = 0 := by
  unfold counts
  rw [(OrderedMap.get_eq_none_iff _ _).mpr h]
  rfl

/-- What a path is recorded with by a check over all files. -/
theorem counts_after (hwhole : check.Whole classes record) (path : String) :
    (record.after classes check).counts path =
    if path ∈ check.files then ((record.counts path).filter fun key => !check.runs key) + check.now classes path
    else if check.lexists path then record.counts path else 0 := by
  have hread : (record.after classes check).counts path = (OrderedMap.get (OrderedMap.putAll
      (record.files.filter fun entry => check.lexists entry.1)
      ((check.covered record).map fun path => (path, record.recordedAt classes check path))) path).getD 0 := rfl
  rw [hread, OrderedMap.get_putAll_map, OrderedMap.get_filter]
  by_cases hfile : path ∈ check.files
  · rw [if_pos (hwhole.mem_covered.mpr hfile), if_pos hfile, Option.getD_some]
    unfold recordedAt
    dsimp only
    congr 1
    refine Multiset.filter_eq_self.mpr fun key hkey => Multiset.count_eq_zero.mpr fun hnow => ?_
    have hruns := Check.runs_of_found (Multiset.mem_of_le (Check.now_le_found path) hnow)
    have hkept := (Multiset.mem_filter.mp hkey).2
    rw [hruns] at hkept
    exact Bool.noConfusion hkept
  · rw [if_neg fun hcovered => hfile (hwhole.mem_covered.mp hcovered), if_neg hfile]
    by_cases hlexists : check.lexists path = true
    · rw [if_pos hlexists, if_pos hlexists]
      rfl
    · rw [if_neg hlexists, if_neg hlexists]
      rfl

namespace Agrees

variable (h : record.Agrees classes earlier)
include h

theorem sum_gone : ((check.gone record).map record.counts).sum = vanished classes check earlier := by
  have hnodup : (check.gone record).Nodup := record.nodup.filter _
  rw [← List.sum_toFinset _ hnodup]
  unfold vanished
  refine Finset.sum_congr_of_eq_on_inter ?_ ?_ fun path _ _ => h.counts path
  · intro path hgone hknown
    obtain ⟨hrecorded, habsent⟩ := Check.mem_gone.mp (List.mem_toFinset.mp hgone)
    refine absurd (Finset.mem_filter.mpr ⟨h.known path hrecorded, ?_⟩) hknown
    rw [habsent]
    exact Bool.false_ne_true
  · intro path hknown hgone
    rw [← h.counts]
    refine counts_eq_zero fun hrecorded => hgone (List.mem_toFinset.mpr (Check.mem_gone.mpr ⟨hrecorded, ?_⟩))
    exact Bool.eq_false_iff.mpr (Finset.mem_filter.mp hknown).2

theorem pooled_eq : record.pooled check = poolOf classes earlier + vanished classes check earlier := by
  unfold pooled
  rw [h.pool, h.sum_gone]

variable (hwhole : check.Whole classes record)
include hwhole

theorem sum_counts : ∑ path ∈ check.files.toFinset, record.counts path = survived classes check earlier := by
  unfold survived
  refine Finset.sum_congr_of_eq_on_inter ?_ ?_ fun path _ _ => h.counts path
  · intro path hfile hknown
    have hlexists := hwhole.present path (List.mem_toFinset.mp hfile)
    exact counts_eq_zero fun hrecorded => hknown (Finset.mem_filter.mpr ⟨h.known path hrecorded, hlexists⟩)
  · intro path hknown hfile
    rw [← h.counts]
    refine counts_eq_zero fun hrecorded => hfile (List.mem_toFinset.mpr ?_)
    exact hwhole.spans path hrecorded (Finset.mem_filter.mp hknown).2

/-- What the code nets over the covered paths is the growth over the surviving ones. -/
theorem grown_eq : record.grown classes check = growth classes check earlier := by
  unfold grown growth
  rw [hwhole.sum_now, hwhole.sum_covered, ← h.sum_counts hwhole]
  refine Multiset.ext.mpr fun key => ?_
  rw [Multiset.count_sub, Multiset.count_sub]
  by_cases hruns : check.runs key = true
  · congr 1
    rw [Multiset.count_sum', Multiset.count_sum']
    exact Finset.sum_congr rfl fun path _ => Multiset.count_filter_of_pos hruns
  · have hnone : (check.found classes).count key = 0 :=
      Multiset.count_eq_zero.mpr fun hkey => hruns (Check.runs_of_found hkey)
    rw [hnone, Nat.zero_sub, Nat.zero_sub]

/-- What is left to report is the news. -/
theorem unmatched_eq : record.unmatched classes check = news classes check earlier := by
  unfold unmatched news
  rw [h.grown_eq hwhole, h.pooled_eq]
  refine Multiset.ext.mpr fun key => ?_
  rw [Multiset.count_sub, Multiset.count_inter, Multiset.count_sub]
  omega

/-- A check over all files keeps the record with the law. -/
theorem after : (record.after classes check).Agrees classes (check :: earlier) := by
  refine ⟨fun path hpath => ?_, fun path => ?_, ?_⟩
  · have hsplit : Findings.known (check :: earlier) = check.files.toFinset ∪ Findings.known earlier := by
      unfold Findings.known
      rw [List.flatMap_cons, List.toFinset_append]
    rw [hsplit, Finset.mem_union, List.mem_toFinset]
    rcases OrderedMap.mem_keys_putAll.mp hpath with hput | hkept
    · rw [List.map_map] at hput
      obtain ⟨one, hone, rfl⟩ := List.mem_map.mp hput
      exact Or.inl (hwhole.mem_covered.mp hone)
    · obtain ⟨entry, hentry, rfl⟩ := List.mem_map.mp hkept
      exact Or.inr (h.known _ (List.mem_map_of_mem (List.mem_of_mem_filter hentry)))
  · rw [counts_after hwhole, seenAt, h.counts]
    by_cases hfile : path ∈ check.files
    · rw [if_pos hfile, if_pos (hwhole.present path hfile)]
    · rw [if_neg hfile, hwhole.now_eq_zero hfile, add_zero]
      by_cases hlexists : check.lexists path = true
      · rw [if_pos hlexists, if_pos hlexists]
        have hzero : seenAt classes earlier path = 0 := by
          rw [← h.counts]
          exact counts_eq_zero fun hrecorded => hfile (hwhole.spans path hrecorded hlexists)
        rw [hzero, Multiset.filter_zero]
      · rw [if_neg hlexists, if_neg hlexists]
  · have hpool : (record.after classes check).pool =
        record.pooled check - record.grown classes check ∩ record.pooled check := rfl
    rw [hpool, h.grown_eq hwhole, h.pooled_eq, poolOf]
    refine Multiset.ext.mpr fun key => ?_
    rw [Multiset.count_sub, Multiset.count_inter, Multiset.count_sub]
    omega

end Agrees

end Record

/-- The record after a run of checks over all files holds what the law says. -/
theorem recordAfter_agrees {history : List Check} (h : AllWhole classes history) :
    (recordAfter classes history).Agrees classes history := by
  induction history with
  | nil => exact ⟨fun _ hnone => absurd hnone List.not_mem_nil, fun _ => rfl, rfl⟩
  | cons check earlier ih => exact (ih h.1).after h.2

end Mainboard.Findings
