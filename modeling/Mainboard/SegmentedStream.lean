import Mathlib.Data.List.Basic
import Mathlib.Data.List.Infix

/-! A stream kept in segments, each knowing the position of its first element. Read from a position on, segments that
follow one another give what the whole stream has there; a segment that begins where the last one began, or a reading of
fewer of them, does not. And a stream of records laid end to end, each stamped with the position it begins at. -/

namespace Segmented

variable {α : Type*}

/-- A run of a stream and the position it begins at. -/
structure Segment (α : Type*) where
  start : ℕ
  data : List α
  deriving DecidableEq, Repr

def Segment.stop (segment : Segment α) : ℕ := segment.start + segment.data.length

/-- What segments hold, end to end. -/
def whole (segments : List (Segment α)) : List α := segments.flatMap Segment.data

/-- Where the last segment stops. -/
def endOf (segments : List (Segment α)) : ℕ := (segments.getLast?.map Segment.stop).getD 0

/-- What segments hold from a position on. -/
def readFrom (segments : List (Segment α)) (position : ℕ) : List α :=
  (segments.filter fun segment => position < segment.stop).flatMap fun segment => segment.data.drop (position - segment.start)

/-- Each segment begins where the one before it stops, the first at a given position. -/
def Chained : ℕ → List (Segment α) → Prop
  | _, [] => True
  | position, segment :: segments => segment.start = position ∧ Chained segment.stop segments

section Segments

variable {segments others : List (Segment α)} {position start : ℕ}

@[simp] theorem whole_nil : whole ([] : List (Segment α)) = [] := rfl

@[simp] theorem whole_cons (segment : Segment α) (segments : List (Segment α)) :
    whole (segment :: segments) = segment.data ++ whole segments := rfl

@[simp] theorem whole_append (segments others : List (Segment α)) :
    whole (segments ++ others) = whole segments ++ whole others := List.flatMap_append

theorem Chained.readFrom (h : Chained start segments) (position : ℕ) :
    readFrom segments position = (whole segments).drop (position - start) := by
  induction segments generalizing start with
  | nil => rw [Segmented.readFrom, List.filter_nil, whole_nil, List.drop_nil, List.flatMap_nil]
  | cons segment segments ih =>
      obtain ⟨rfl, hrest⟩ := h
      have ih := ih hrest
      rw [Segmented.readFrom] at ih ⊢
      rw [whole_cons, List.drop_append]
      by_cases hbeyond : position < segment.stop
      · rw [List.filter_cons_of_pos (by simpa using hbeyond), List.flatMap_cons, ih]
        have hnext : position - segment.stop = position - segment.start - segment.data.length := by
          rw [Segment.stop]
          omega
        rw [hnext]
      · have hpast : segment.data.drop (position - segment.start) = [] := by
          rw [Segment.stop] at hbeyond
          exact List.drop_eq_nil_of_le (by omega)
        rw [List.filter_cons_of_neg (by simpa using hbeyond), ih, hpast, List.nil_append, Segment.stop, Nat.sub_add_eq]

theorem Chained.of_append (h : Chained start (segments ++ others)) : Chained start segments := by
  induction segments generalizing start with
  | nil => trivial
  | cons segment segments ih => exact ⟨h.1, ih h.2⟩

theorem Chained.of_prefix (h : Chained start others) (hlead : segments <+: others) : Chained start segments := by
  obtain ⟨rest, rfl⟩ := hlead
  exact h.of_append

/-- A segment of a chain begins where those before it end. -/
theorem Chained.start_eq {segment : Segment α} (h : Chained start (segments ++ segment :: others)) :
    segment.start = start + (whole segments).length := by
  induction segments generalizing start with
  | nil => exact h.1
  | cons other segments ih =>
      obtain ⟨rfl, hrest⟩ := h
      rw [ih hrest, whole_cons, List.length_append, Segment.stop, Nat.add_assoc]

theorem Chained.endOf (h : Chained 0 segments) : endOf segments = (whole segments).length := by
  have hlast : ∀ {start : ℕ} {segments : List (Segment α)}, Chained start segments →
      (segments.getLast?.map Segment.stop).getD start = start + (whole segments).length := by
    intro start segments h
    induction segments generalizing start with
    | nil => rfl
    | cons segment segments ih =>
        obtain ⟨rfl, hrest⟩ := h
        have hrest := ih hrest
        rw [whole_cons, List.length_append, ← Nat.add_assoc, ← Segment.stop, ← hrest]
        cases segments with
        | nil => rfl
        | cons other segments => rfl
  exact (hlast h).trans (Nat.zero_add _)

theorem Chained.concat (h : Chained 0 segments) {segment : Segment α} (hstart : segment.start = (whole segments).length) :
    Chained 0 (segments ++ [segment]) := by
  have hgeneral : ∀ {start : ℕ} {segments : List (Segment α)}, Chained start segments →
      segment.start = start + (whole segments).length → Chained start (segments ++ [segment]) := by
    intro start segments h hstart
    induction segments generalizing start with
    | nil => exact ⟨hstart, trivial⟩
    | cons other segments ih =>
        obtain ⟨rfl, hrest⟩ := h
        refine ⟨rfl, ih hrest ?_⟩
        rw [hstart, whole_cons, List.length_append, Segment.stop, Nat.add_assoc]
  exact hgeneral h (hstart.trans (Nat.zero_add _).symm)

/-- Every segment of a chain stops before the next begins. -/
theorem Chained.pairwise (h : Chained start segments) :
    (segments.Pairwise fun segment other => segment.stop ≤ other.start) ∧ ∀ segment ∈ segments, start ≤ segment.start := by
  induction segments generalizing start with
  | nil => exact ⟨List.Pairwise.nil, fun segment hmem => (List.not_mem_nil hmem).elim⟩
  | cons segment segments ih =>
      obtain ⟨rfl, hrest⟩ := h
      obtain ⟨hpairs, hbounds⟩ := ih hrest
      refine ⟨List.pairwise_cons.mpr ⟨hbounds, hpairs⟩, fun other hmem => ?_⟩
      rcases List.mem_cons.mp hmem with rfl | hmem
      · exact le_rfl
      · exact (Nat.le_add_right _ _).trans (hbounds other hmem)

theorem Chained.stop_le (h : Chained start segments) :
    ∀ segment ∈ segments, segment.stop ≤ start + (whole segments).length := by
  induction segments generalizing start with
  | nil => exact fun segment hmem => (List.not_mem_nil hmem).elim
  | cons segment segments ih =>
      obtain ⟨rfl, hrest⟩ := h
      intro other hmem
      rw [whole_cons, List.length_append, ← Nat.add_assoc, ← Segment.stop]
      rcases List.mem_cons.mp hmem with rfl | hmem
      · exact Nat.le_add_right _ _
      · exact ih hrest other hmem

/-- Every position of a chain lies in one of its segments. -/
theorem Chained.exists_holding (h : Chained start segments) (hstart : start ≤ position)
    (hposition : position < start + (whole segments).length) :
    ∃ segment ∈ segments, segment.start ≤ position ∧ position < segment.stop := by
  induction segments generalizing start with
  | nil =>
      rw [whole_nil, List.length_nil] at hposition
      omega
  | cons segment segments ih =>
      obtain ⟨rfl, hrest⟩ := h
      by_cases hwithin : position < segment.stop
      · exact ⟨segment, List.mem_cons_self, hstart, hwithin⟩
      · rw [whole_cons, List.length_append, ← Nat.add_assoc, ← Segment.stop] at hposition
        obtain ⟨other, hother, hholds⟩ := ih hrest (by omega) hposition
        exact ⟨other, List.mem_cons_of_mem _ hother, hholds⟩

theorem whole_mono (hlead : segments <+: others) : whole segments <+: whole others := by
  obtain ⟨rest, rfl⟩ := hlead
  rw [whole_append]
  exact List.prefix_append _ _

end Segments

/-! Records laid end to end -/

section Records

variable {ρ : Type*} (place : ρ → ℕ) (bytes : ρ → List α)

/-- Each record is stamped with the position it is laid at. -/
def Laid : ℕ → List ρ → Prop
  | _, [] => True
  | position, record :: records => place record = position ∧ Laid (position + (bytes record).length) records

/-- A position where a record begins or the stream ends. -/
def Boundary (records : List ρ) (position : ℕ) : Prop :=
  ∃ taken, taken <+: records ∧ position = (taken.flatMap bytes).length

variable {place bytes} {records later taken : List ρ} {record : ρ} {position start : ℕ}

theorem Laid.append (h : Laid place bytes start records)
    (hlater : Laid place bytes (start + (records.flatMap bytes).length) later) :
    Laid place bytes start (records ++ later) := by
  induction records generalizing start with
  | nil => exact hlater
  | cons record records ih =>
      refine ⟨h.1, ih h.2 ?_⟩
      rwa [List.flatMap_cons, List.length_append, ← Nat.add_assoc] at hlater

theorem Laid.bounds (h : Laid place bytes start records) : ∀ record ∈ records, start ≤ place record ∧
    place record + (bytes record).length ≤ start + (records.flatMap bytes).length := by
  induction records generalizing start with
  | nil => exact fun record hmem => (List.not_mem_nil hmem).elim
  | cons record records ih =>
      intro other hmem
      rw [List.flatMap_cons, List.length_append]
      rcases List.mem_cons.mp hmem with rfl | hmem
      · rw [h.1]
        omega
      · have hother := ih h.2 other hmem
        omega

theorem Laid.of_append (h : Laid place bytes start (records ++ later)) : Laid place bytes start records ∧
    Laid place bytes (start + (records.flatMap bytes).length) later := by
  induction records generalizing start with
  | nil => exact ⟨trivial, h⟩
  | cons record records ih =>
      obtain ⟨hfirst, hrest⟩ := ih h.2
      refine ⟨⟨h.1, hfirst⟩, ?_⟩
      rwa [List.flatMap_cons, List.length_append, ← Nat.add_assoc]

theorem Boundary.append (h : Boundary bytes records position) (later : List ρ) : Boundary bytes (records ++ later) position := by
  obtain ⟨taken, hlead, rfl⟩ := h
  exact ⟨taken, hlead.trans (List.prefix_append _ _), rfl⟩

theorem Boundary.le (h : Boundary bytes records position) : position ≤ (records.flatMap bytes).length := by
  obtain ⟨taken, ⟨rest, rfl⟩, rfl⟩ := h
  rw [List.flatMap_append, List.length_append]
  exact Nat.le_add_right _ _

/-- Cut between two records, a stream is those that begin before and those that begin there or later. -/
theorem Laid.split (hsolid : ∀ record, bytes record ≠ []) (h : Laid place bytes 0 (taken ++ later)) :
    ((taken ++ later).filter fun record => (taken.flatMap bytes).length ≤ place record) = later ∧
      ((taken ++ later).filter fun record => place record < (taken.flatMap bytes).length) = taken := by
  obtain ⟨htaken, hlater⟩ := h.of_append
  rw [Nat.zero_add] at hlater
  have hbefore : ∀ record ∈ taken, place record < (taken.flatMap bytes).length := fun record hmem => by
    have hbounds := (htaken.bounds record hmem).2
    have hlength := List.length_pos_iff.mpr (hsolid record)
    omega
  have hafter : ∀ record ∈ later, (taken.flatMap bytes).length ≤ place record := fun record hmem =>
    (hlater.bounds record hmem).1
  constructor
  · rw [List.filter_append, List.filter_eq_nil_iff.mpr, List.nil_append, List.filter_eq_self.mpr]
    · exact fun record hmem => decide_eq_true (hafter record hmem)
    · exact fun record hmem => by simpa using hbefore record hmem
  · rw [List.filter_append, List.filter_eq_self.mpr, List.filter_eq_nil_iff.mpr, List.append_nil]
    · exact fun record hmem => by simpa using hafter record hmem
    · exact fun record hmem => decide_eq_true (hbefore record hmem)

end Records

end Segmented
