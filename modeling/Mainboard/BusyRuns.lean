import Mathlib

/-! The time a device was busy: half-open spans swept in order into runs, each open run extended by what meets it. The
runs are the union of the spans, no two of them overlap or touch, and their lengths together count its instants. -/

namespace Mainboard.Profile

/-- A half-open span of time and what ran in it. -/
structure Span where
  start : ℤ
  stop : ℤ
  name : String
  deriving DecidableEq, Repr

/-- A stretch of busy time, the span that began it and the one that reached its end. -/
structure Run where
  start : ℤ
  stop : ℤ
  first : String
  last : String
  deriving DecidableEq, Repr

/-- Spans in order of their starts, then of their ends, then of their names. -/
def Span.precedes (one other : Span) : Prop :=
  one.start < other.start ∨
    (one.start = other.start ∧ (one.stop < other.stop ∨ (one.stop = other.stop ∧ one.name ≤ other.name)))

instance : DecidableRel Span.precedes := fun one other => by
  unfold Span.precedes
  infer_instance

/-- One span swept: it opens a run behind the last, reaches beyond its end, or lies within it. -/
def swept (runs : List Run) (span : Span) : List Run := match runs.getLast? with
  | none => runs ++ [⟨span.start, span.stop, span.name, span.name⟩]
  | some last =>
      if last.stop < span.start then runs ++ [⟨span.start, span.stop, span.name, span.name⟩]
      else if last.stop < span.stop then runs.dropLast ++ [⟨last.start, span.stop, last.first, span.name⟩]
      else runs

/-- The union of spans as busy runs, empty spans dropped. -/
def busyRuns (spans : List Span) : List Run :=
  ((spans.filter fun span => span.start < span.stop).insertionSort Span.precedes).foldl swept []

/-- How long the device was busy. -/
def busyNs (spans : List (ℤ × ℤ)) : ℤ :=
  ((busyRuns (spans.map fun span => ⟨span.1, span.2, ""⟩)).map fun run => run.stop - run.start).sum

/-- The instants of half-open ranges. -/
noncomputable def instants (ranges : List (ℤ × ℤ)) : Finset ℤ := ranges.toFinset.biUnion fun range => Finset.Ico range.1 range.2

section Instants

variable {ranges more : List (ℤ × ℤ)}

theorem mem_instants {time : ℤ} : time ∈ instants ranges ↔ ∃ range ∈ ranges, range.1 ≤ time ∧ time < range.2 := by
  simp only [instants, Finset.mem_biUnion, List.mem_toFinset, Finset.mem_Ico]

theorem instants_mono (h : ranges ⊆ more) : instants ranges ⊆ instants more := by
  intro time htime
  obtain ⟨range, hrange, hin⟩ := mem_instants.mp htime
  exact mem_instants.mpr ⟨range, h hrange, hin⟩

/-- Ranges one behind the other hold together as many instants as their lengths say. -/
theorem sum_length (hrange : ∀ range ∈ ranges, range.1 ≤ range.2)
    (hapart : ranges.Pairwise fun one other => one.2 ≤ other.1) :
    (ranges.map fun range => range.2 - range.1).sum = (instants ranges).card := by
  induction ranges with
  | nil => rfl
  | cons range ranges ih =>
      rw [List.forall_mem_cons] at hrange
      rw [List.pairwise_cons] at hapart
      have hunion : instants (range :: ranges) = Finset.Ico range.1 range.2 ∪ instants ranges := by
        rw [instants, List.toFinset_cons, Finset.biUnion_insert]
        rfl
      have hdisjoint : Disjoint (Finset.Ico range.1 range.2) (instants ranges) := by
        rw [Finset.disjoint_left]
        intro time hin hlate
        obtain ⟨other, hother, hstart, -⟩ := mem_instants.mp hlate
        have hbehind := hapart.1 other hother
        rw [Finset.mem_Ico] at hin
        omega
      have hlength : ((Finset.Ico range.1 range.2).card : ℤ) = range.2 - range.1 := by
        rw [Int.card_Ico, Int.toNat_of_nonneg (by linarith [hrange.1])]
      rw [List.map_cons, List.sum_cons, ih hrange.2 hapart.2, hunion, Finset.card_union_of_disjoint hdisjoint,
        Nat.cast_add, hlength]

end Instants

section Order

theorem Span.precedes_total (one other : Span) : one.precedes other ∨ other.precedes one := by
  unfold Span.precedes
  rcases lt_trichotomy one.start other.start with hstart | hstart | hstart
  · exact Or.inl (Or.inl hstart)
  · rcases lt_trichotomy one.stop other.stop with hstop | hstop | hstop
    · exact Or.inl (Or.inr ⟨hstart, Or.inl hstop⟩)
    · rcases le_total one.name other.name with hname | hname
      · exact Or.inl (Or.inr ⟨hstart, Or.inr ⟨hstop, hname⟩⟩)
      · exact Or.inr (Or.inr ⟨hstart.symm, Or.inr ⟨hstop.symm, hname⟩⟩)
    · exact Or.inr (Or.inr ⟨hstart.symm, Or.inl hstop⟩)
  · exact Or.inr (Or.inl hstart)

theorem Span.precedes_trans {one middle other : Span} (hone : one.precedes middle) (hother : middle.precedes other) :
    one.precedes other := by
  unfold Span.precedes at hone hother ⊢
  rcases hone with hone | ⟨hone, hone'⟩
  · rcases hother with hother | ⟨hother, -⟩
    · exact Or.inl (hone.trans hother)
    · exact Or.inl (hother ▸ hone)
  · rcases hother with hother | ⟨hother, hother'⟩
    · exact Or.inl (hone ▸ hother)
    · refine Or.inr ⟨hone.trans hother, ?_⟩
      rcases hone' with hstop | ⟨hstop, hname⟩
      · rcases hother' with hlater | ⟨hlater, -⟩
        · exact Or.inl (hstop.trans hlater)
        · exact Or.inl (hlater ▸ hstop)
      · rcases hother' with hlater | ⟨hlater, hlast⟩
        · exact Or.inl (hstop ▸ hlater)
        · exact Or.inr ⟨hstop.trans hlater, hname.trans hlast⟩

instance : Std.Total Span.precedes := ⟨Span.precedes_total⟩

instance : IsTrans Span Span.precedes := ⟨fun _ _ _ => Span.precedes_trans⟩

theorem Span.start_le {one other : Span} (h : one.precedes other) : one.start ≤ other.start := by
  rcases h with hlt | ⟨heq, -⟩
  · exact hlt.le
  · exact heq.le

end Order

/-- What a sweep keeps of the spans behind it: runs one behind the other with time between them, which cover what the
spans cover, each named by a span that begins it and one that ends it. -/
structure Swept (runs : List Run) (spans : List Span) : Prop where
  full : ∀ run ∈ runs, run.start < run.stop
  apart : runs.Pairwise fun one other => one.stop < other.start
  covers : ∀ time, (∃ run ∈ runs, run.start ≤ time ∧ time < run.stop) ↔
    ∃ span ∈ spans, span.start ≤ time ∧ time < span.stop
  first : ∀ run ∈ runs, ∃ span ∈ spans, span.start = run.start ∧ span.name = run.first
  last : ∀ run ∈ runs, ∃ span ∈ spans, span.stop = run.stop ∧ span.name = run.last

section Sweep

variable {runs : List Run} {spans : List Span} {span : Span}

/-- A span that begins no earlier than any before it opens a run behind the last. -/
theorem Swept.opened (h : Swept runs spans) (hspan : span.start < span.stop)
    (hbehind : ∀ run ∈ runs, run.stop < span.start) :
    Swept (runs ++ [⟨span.start, span.stop, span.name, span.name⟩]) (spans ++ [span]) where
  full run hrun := by
    rcases List.mem_append.mp hrun with hold | hnew
    · exact h.full run hold
    · exact List.mem_singleton.mp hnew ▸ hspan
  apart := by
    refine List.pairwise_append.mpr ⟨h.apart, List.pairwise_singleton _ _, fun run hrun other hother => ?_⟩
    rw [List.mem_singleton.mp hother]
    exact hbehind run hrun
  covers time := by
    simp only [List.mem_append, List.mem_singleton, or_and_right, exists_or, exists_eq_left]
    rw [h.covers]
  first run hrun := by
    rcases List.mem_append.mp hrun with hold | hnew
    · obtain ⟨one, hone, heq⟩ := h.first run hold
      exact ⟨one, List.mem_append_left _ hone, heq⟩
    · rw [List.mem_singleton.mp hnew]
      exact ⟨span, List.mem_append_right _ (List.mem_singleton_self _), rfl, rfl⟩
  last run hrun := by
    rcases List.mem_append.mp hrun with hold | hnew
    · obtain ⟨one, hone, heq⟩ := h.last run hold
      exact ⟨one, List.mem_append_left _ hone, heq⟩
    · rw [List.mem_singleton.mp hnew]
      exact ⟨span, List.mem_append_right _ (List.mem_singleton_self _), rfl, rfl⟩

/-- A span within the last run adds nothing. -/
theorem Swept.within {run : Run} (h : Swept runs spans) (hrun : run ∈ runs) (hstart : run.start ≤ span.start)
    (hstop : span.stop ≤ run.stop) : Swept runs (spans ++ [span]) where
  full := h.full
  apart := h.apart
  covers time := by
    simp only [List.mem_append, List.mem_singleton, or_and_right, exists_or, exists_eq_left]
    rw [← h.covers]
    refine ⟨Or.inl, fun hcases => hcases.elim id fun hin => ⟨run, hrun, ?_, ?_⟩⟩
    · omega
    · omega
  first other hother := (h.first other hother).imp fun one hone => hone.imp_left (List.mem_append_left _)
  last other hother := (h.last other hother).imp fun one hone => hone.imp_left (List.mem_append_left _)

/-- A span that meets the last run and reaches beyond it moves its end. -/
theorem Swept.extended {run : Run} (h : Swept (runs ++ [run]) spans) (hstart : run.start ≤ span.start)
    (hmeets : span.start ≤ run.stop) (hbeyond : run.stop < span.stop) :
    Swept (runs ++ [⟨run.start, span.stop, run.first, span.name⟩]) (spans ++ [span]) where
  full other hother := by
    rcases List.mem_append.mp hother with hold | hnew
    · exact h.full other (List.mem_append_left _ hold)
    · rw [List.mem_singleton.mp hnew]
      have hrun := h.full run (List.mem_append_right _ (List.mem_singleton_self _))
      exact hrun.trans hbeyond
  apart := by
    obtain ⟨hruns, -, hlast⟩ := List.pairwise_append.mp h.apart
    refine List.pairwise_append.mpr ⟨hruns, List.pairwise_singleton _ _, fun one hone other hother => ?_⟩
    rw [List.mem_singleton.mp hother]
    exact hlast one hone run (List.mem_singleton_self _)
  covers time := by
    have hcovers := h.covers time
    simp only [List.mem_append, List.mem_singleton, or_and_right, exists_or, exists_eq_left] at hcovers ⊢
    rw [← hcovers, or_assoc]
    refine or_congr_right ⟨fun hin => ?_, fun hcases => ?_⟩
    · by_cases hbefore : time < run.stop
      · exact Or.inl ⟨hin.1, hbefore⟩
      · exact Or.inr ⟨by omega, hin.2⟩
    · omega
  first other hother := by
    rcases List.mem_append.mp hother with hold | hnew
    · obtain ⟨one, hone, heq⟩ := h.first other (List.mem_append_left _ hold)
      exact ⟨one, List.mem_append_left _ hone, heq⟩
    · rw [List.mem_singleton.mp hnew]
      obtain ⟨one, hone, heq⟩ := h.first run (List.mem_append_right _ (List.mem_singleton_self _))
      exact ⟨one, List.mem_append_left _ hone, heq⟩
  last other hother := by
    rcases List.mem_append.mp hother with hold | hnew
    · obtain ⟨one, hone, heq⟩ := h.last other (List.mem_append_left _ hold)
      exact ⟨one, List.mem_append_left _ hone, heq⟩
    · rw [List.mem_singleton.mp hnew]
      exact ⟨span, List.mem_append_right _ (List.mem_singleton_self _), rfl, rfl⟩

/-- Sweeping a span that begins no earlier than any before it keeps what a sweep keeps. -/
theorem Swept.step (h : Swept runs spans) (hspan : span.start < span.stop)
    (hsorted : ∀ one ∈ spans, one.start ≤ span.start) : Swept (swept runs span) (spans ++ [span]) := by
  unfold swept
  cases runs using List.reverseRecOn with
  | nil => exact h.opened hspan fun run hrun => (List.not_mem_nil hrun).elim
  | append_singleton runs run =>
      rw [List.getLast?_concat]
      have hmem : run ∈ runs ++ [run] := List.mem_append_right _ (List.mem_singleton_self _)
      have hstart : run.start ≤ span.start := by
        obtain ⟨one, hone, heq, -⟩ := h.first run hmem
        exact heq ▸ hsorted one hone
      simp only [List.dropLast_concat]
      split
      · rename_i hbehind
        refine h.opened hspan fun other hother => ?_
        rcases List.mem_append.mp hother with hold | hlast
        · have hapart := (List.pairwise_append.mp h.apart).2.2 other hold run (List.mem_singleton_self _)
          have hrun := h.full run hmem
          omega
        · rwa [List.mem_singleton.mp hlast]
      · rename_i hmeets
        split
        · rename_i hbeyond
          exact h.extended hstart (not_lt.mp hmeets) hbeyond
        · rename_i hwithin
          exact h.within hmem hstart (not_lt.mp hwithin)

/-- A sweep of spans in order of their starts. -/
theorem swept_foldl {before : List Span} (h : Swept runs before)
    (hspans : ∀ span ∈ spans, span.start < span.stop)
    (hsorted : (before ++ spans).Pairwise fun one other => one.start ≤ other.start) :
    Swept (spans.foldl swept runs) (before ++ spans) := by
  induction spans generalizing runs before with
  | nil => rwa [List.append_nil]
  | cons span spans ih =>
      rw [List.forall_mem_cons] at hspans
      have hearlier : ∀ one ∈ before, one.start ≤ span.start := fun one hone =>
        (List.pairwise_append.mp hsorted).2.2 one hone span List.mem_cons_self
      have hstep := h.step hspans.1 hearlier
      rw [List.append_cons] at hsorted ⊢
      exact ih hstep hspans.2 hsorted

/-- The runs of any spans are what a sweep keeps of those that are not empty. -/
theorem swept_busyRuns (spans : List Span) :
    Swept (busyRuns spans) (spans.filter fun span => span.start < span.stop) := by
  rw [busyRuns]
  set full := spans.filter fun span => span.start < span.stop
  have hempty : Swept [] [] := ⟨by simp, List.Pairwise.nil, by simp, by simp, by simp⟩
  have hsorted : (full.insertionSort Span.precedes).Pairwise fun one other => one.start ≤ other.start :=
    (List.pairwise_insertionSort _ _).imp Span.start_le
  have hfull : ∀ span ∈ full.insertionSort Span.precedes, span.start < span.stop := fun span hspan =>
    of_decide_eq_true (List.mem_filter.mp ((List.mem_insertionSort _).mp hspan)).2
  have h := swept_foldl hempty hfull hsorted
  rw [List.nil_append] at h
  have hmem : ∀ span, span ∈ full.insertionSort Span.precedes ↔ span ∈ full := fun span => List.mem_insertionSort _
  exact ⟨h.full, h.apart, fun time => by simpa only [hmem] using h.covers time,
    fun run hrun => by simpa only [hmem] using h.first run hrun,
    fun run hrun => by simpa only [hmem] using h.last run hrun⟩

end Sweep

/-- The busy time counts the instants of the spans. -/
theorem busyNs_eq (spans : List (ℤ × ℤ)) : busyNs spans = (instants spans).card := by
  have h := swept_busyRuns (spans.map fun span => ⟨span.1, span.2, ""⟩)
  set runs := busyRuns (spans.map fun span => ⟨span.1, span.2, ""⟩) with hruns
  have hranges : (runs.map fun run => run.stop - run.start) =
      (runs.map fun run => (run.start, run.stop)).map fun range => range.2 - range.1 := by
    rw [List.map_map]
    rfl
  have hsame : instants (runs.map fun run => (run.start, run.stop)) = instants spans := by
    ext time
    have hcovers := h.covers time
    simp only [List.mem_filter, List.mem_map, decide_eq_true_eq] at hcovers
    rw [mem_instants, mem_instants]
    constructor
    · rintro ⟨range, hrange, hin⟩
      obtain ⟨run, hrun, rfl⟩ := List.mem_map.mp hrange
      obtain ⟨span, ⟨⟨pair, hpair, rfl⟩, -⟩, hspan⟩ := hcovers.mp ⟨run, hrun, hin⟩
      exact ⟨pair, hpair, hspan⟩
    · rintro ⟨pair, hpair, hin⟩
      obtain ⟨run, hrun, hrun'⟩ := hcovers.mpr ⟨_, ⟨⟨pair, hpair, rfl⟩, hin.1.trans_lt hin.2⟩, hin⟩
      exact ⟨_, List.mem_map_of_mem hrun, hrun'⟩
  rw [busyNs, ← hruns, hranges, sum_length, hsame]
  · intro range hrange
    obtain ⟨run, hrun, rfl⟩ := List.mem_map.mp hrange
    exact (h.full run hrun).le
  · exact List.pairwise_map.mpr (h.apart.imp fun hlt => hlt.le)

/-- The runs of any spans are in order with time between them, cover what the spans that are not empty cover, and are
each named by a span that begins it and one that ends it. The busy time counts the instants covered, whatever the order
of the spans, and more spans never lessen it. -/
theorem busy_union (spans : List Span) (pairs : List (ℤ × ℤ)) :
    (∀ run ∈ busyRuns spans, run.start < run.stop) ∧
      ((busyRuns spans).Pairwise fun one other => one.stop < other.start) ∧
      (∀ time, (∃ run ∈ busyRuns spans, run.start ≤ time ∧ time < run.stop) ↔
        ∃ span ∈ spans, span.start < span.stop ∧ span.start ≤ time ∧ time < span.stop) ∧
      (∀ run ∈ busyRuns spans, (∃ span ∈ spans, span.start < span.stop ∧ span.start = run.start ∧ span.name = run.first) ∧
        ∃ span ∈ spans, span.start < span.stop ∧ span.stop = run.stop ∧ span.name = run.last) ∧
      busyNs pairs = (instants pairs).card ∧
      (∀ other, other.Perm pairs → busyNs other = busyNs pairs) ∧
      ∀ more, pairs ⊆ more → busyNs pairs ≤ busyNs more := by
  have h := swept_busyRuns spans
  have hfull : ∀ span, span ∈ spans.filter (fun span => span.start < span.stop) ↔ span ∈ spans ∧ span.start < span.stop :=
    fun span => by rw [List.mem_filter, decide_eq_true_eq]
  refine ⟨h.full, h.apart, fun time => ?_, fun run hrun => ⟨?_, ?_⟩, busyNs_eq pairs, fun other hother => ?_,
    fun more hmore => ?_⟩
  · rw [h.covers]
    simp only [hfull, and_assoc]
  · obtain ⟨span, hspan, hnames⟩ := h.first run hrun
    exact ⟨span, ((hfull span).mp hspan).1, ((hfull span).mp hspan).2, hnames⟩
  · obtain ⟨span, hspan, hnames⟩ := h.last run hrun
    exact ⟨span, ((hfull span).mp hspan).1, ((hfull span).mp hspan).2, hnames⟩
  · rw [busyNs_eq, busyNs_eq]
    exact congrArg _ (congrArg _ (Finset.Subset.antisymm (instants_mono hother.subset) (instants_mono hother.symm.subset)))
  · rw [busyNs_eq, busyNs_eq]
    exact_mod_cast Finset.card_le_card (instants_mono hmore)

end Mainboard.Profile
