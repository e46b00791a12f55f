import Mainboard.TextWeaving

/-! A file's edits spliced with every byte remembering where it comes from, and where a byte of the file stands after
edits that overlap none: a byte they keep moves with what the edits before it write and take out, a byte one of them
covers falls on the start of its text. -/

namespace Mainboard.Analysis

/-- A file's bytes, each with its offset. -/
def traced (data : Bytes) : List Atom := data.zipIdx.map fun byte => .kept byte.2 byte.1

/-- A file's bytes with edits in file order applied, from what is already kept. -/
def tracedFrom (data : Bytes) : ℕ → List TextEdit → List Atom
  | kept, [] => (traced data).drop kept
  | kept, edit :: edits =>
      ((traced data).take edit.start).drop kept ++ edit.text.map (Atom.put edit.start edit.stop) ++
        tracedFrom data edit.stop edits

/-- An edit covers an offset. -/
def TextEdit.Covers (edit : TextEdit) (offset : ℕ) : Prop := edit.start ≤ offset ∧ offset < edit.stop

/-- Edits that are ranges of bytes, no two of which overlap. -/
structure Apart (edits : List TextEdit) : Prop where
  ranges : ∀ edit ∈ edits, edit.start ≤ edit.stop
  apart : edits.Pairwise fun one other => ¬ (one.start < other.stop ∧ other.start < one.stop)

/-- Where byte `offset` stands after edits in file order, with what those before shift it by. -/
def shiftedFrom (offset : ℤ) : ℤ → List TextEdit → ℤ
  | shift, [] => offset + shift
  | shift, edit :: edits =>
      if offset < edit.start then offset + shift
      else if offset < edit.stop then edit.start + shift
      else shiftedFrom offset (shift + (edit.text.length - (edit.stop - edit.start))) edits

/-- `_shifted`: where byte `offset` stands after edits in file order. -/
def shifted (edits : List TextEdit) (offset : ℤ) : ℤ := shiftedFrom offset 0 edits

section Bytes

variable {data : Bytes} {kept : ℕ} {edits : List TextEdit}

theorem byte_traced (data : Bytes) : (traced data).map Atom.byte = data := by
  rw [traced, List.map_map]
  exact List.zipIdx_map_fst 0 data

theorem length_traced (data : Bytes) : (traced data).length = data.length := by
  rw [traced, List.length_map, List.length_zipIdx]

theorem traced_getElem? {offset : ℕ} {byte : UInt8} (h : data[offset]? = some byte) :
    (traced data)[offset]? = some (.kept offset byte) := by
  rw [traced, List.getElem?_map, List.getElem?_zipIdx, h, Option.map_some, Option.map_some, Nat.zero_add]

/-- Every atom of a stretch is a byte the file has there. -/
theorem mem_traced {start stop : ℕ} {atom : Atom} (h : atom ∈ ((traced data).take stop).drop start) :
    ∃ offset byte, atom = .kept offset byte ∧ start ≤ offset ∧ offset < stop := by
  obtain ⟨index, hindex, rfl⟩ := List.mem_iff_getElem.mp h
  rw [List.length_drop, List.length_take] at hindex
  rw [length_traced] at hindex
  have hinside : start + index < data.length := by omega
  refine ⟨start + index, data[start + index], ?_, Nat.le_add_right _ _, by omega⟩
  simp [traced]

theorem byte_tracedFrom (data : Bytes) (kept : ℕ) (edits : List TextEdit) :
    (tracedFrom data kept edits).map Atom.byte = splicedFrom data kept edits := by
  induction edits generalizing kept with
  | nil => rw [tracedFrom, splicedFrom, List.map_drop, byte_traced]
  | cons edit edits ih =>
      have htext : (edit.text.map (Atom.put edit.start edit.stop)).map Atom.byte = edit.text := by
        rw [List.map_map]
        exact List.map_id _
      rw [tracedFrom, splicedFrom, List.map_append, List.map_append, ih, htext, List.map_drop, List.map_take, byte_traced,
        slice]

end Bytes

/-! Where bytes stand -/

section Shifted

variable {data : Bytes} {kept offset : ℕ} {edits : List TextEdit}

/-- Of two ranges in file order that do not overlap, the first ends where the second starts or before. -/
theorem stop_le_start {one other : TextEdit} (horder : Plan.inOrder one other = true) (hother : other.start ≤ other.stop)
    (hapart : ¬ (one.start < other.stop ∧ other.start < one.stop)) :
    one.stop ≤ other.start := by
  simp only [Plan.inOrder, Bool.or_eq_true, Bool.and_eq_true, decide_eq_true_eq, beq_iff_eq] at horder
  omega

/-- Ranges in file order that do not overlap follow one another. -/
theorem Apart.follows (h : Apart edits) (horder : edits.Pairwise fun one other => Plan.inOrder one other = true) :
    edits.Pairwise fun one other => one.stop ≤ other.start :=
  List.Pairwise.imp_of_mem (fun _ hother hboth => stop_le_start hboth.1 (h.ranges _ hother) hboth.2) (horder.and h.apart)

/-- A byte that no edit covers stands where the shift of its offset says. -/
theorem tracedFrom_kept {byte : UInt8} (hbyte : data[offset]? = some byte) (hkept : kept ≤ offset)
    (hranges : ∀ edit ∈ edits, edit.start ≤ edit.stop)
    (hfollows : edits.Pairwise fun one other => one.stop ≤ other.start) (hstarts : ∀ edit ∈ edits, kept ≤ edit.start)
    (hnot : ∀ edit ∈ edits, ¬ edit.Covers offset) (shift : ℤ) :
    ∃ index : ℕ, shiftedFrom offset shift edits = kept + shift + index ∧
      (tracedFrom data kept edits)[index]? = some (.kept offset byte) := by
  have hlength : offset < data.length := (List.getElem?_eq_some_iff.mp hbyte).1
  induction edits generalizing kept shift with
  | nil =>
      refine ⟨offset - kept, ?_, ?_⟩
      · rw [shiftedFrom]
        omega
      · rw [tracedFrom, List.getElem?_drop, Nat.add_sub_cancel' hkept]
        exact traced_getElem? hbyte
  | cons edit edits ih =>
      rw [List.forall_mem_cons] at hranges hstarts hnot
      obtain ⟨hbehind, hlater⟩ := List.pairwise_cons.mp hfollows
      rw [shiftedFrom, tracedFrom]
      by_cases hbefore : offset < edit.start
      · refine ⟨offset - kept, ?_, ?_⟩
        · rw [if_pos (by exact_mod_cast hbefore)]
          omega
        · rw [List.append_assoc, List.getElem?_append_left, List.getElem?_drop, Nat.add_sub_cancel' hkept,
            List.getElem?_take_of_lt hbefore]
          · exact traced_getElem? hbyte
          · rw [List.length_drop, List.length_take, length_traced]
            omega
      · have hstop : edit.stop ≤ offset := by
          by_contra hshort
          exact hnot.1 ⟨by omega, by omega⟩
        obtain ⟨index, hindex, hatom⟩ := ih hstop hranges.2 hlater hbehind hnot.2
          (shift + (edit.text.length - (edit.stop - edit.start)))
        have hhead : (((traced data).take edit.start).drop kept ++
            edit.text.map (Atom.put edit.start edit.stop)).length = edit.start - kept + edit.text.length := by
          rw [List.length_append, List.length_drop, List.length_take, length_traced, List.length_map]
          have := hranges.1
          omega
        refine ⟨edit.start - kept + edit.text.length + index, ?_, ?_⟩
        · rw [if_neg (by exact_mod_cast hbefore), if_neg (by exact_mod_cast Nat.not_lt.mpr hstop), hindex]
          have := hstarts.1
          push_cast [this]
          omega
        · rw [List.getElem?_append_right (by omega), hhead, Nat.add_sub_cancel_left]
          exact hatom

/-- The text of an edit among others, with what stands before it and behind it. -/
structure Lands (atoms : List Atom) (edit : TextEdit) (index : ℤ) : Prop where
  parts : ∃ before after, atoms = before ++ edit.text.map (Atom.put edit.start edit.stop) ++ after ∧
    (before.length : ℤ) = index ∧ (∀ offset byte, .kept offset byte ∈ before → offset < edit.start) ∧
      ∀ offset byte, .kept offset byte ∈ after → edit.stop ≤ offset

/-- What a tail of edits leaves of a file are bytes from where it starts. -/
theorem kept_le_of_mem {byte : UInt8} (hranges : ∀ edit ∈ edits, edit.start ≤ edit.stop)
    (hfollows : edits.Pairwise fun one other => one.stop ≤ other.start) (hstarts : ∀ edit ∈ edits, kept ≤ edit.start)
    (h : .kept offset byte ∈ tracedFrom data kept edits) : kept ≤ offset := by
  induction edits generalizing kept with
  | nil =>
      rw [tracedFrom, ← List.take_length (l := traced data)] at h
      obtain ⟨other, value, heq, hle, -⟩ := mem_traced h
      cases heq
      exact hle
  | cons edit edits ih =>
      rw [List.forall_mem_cons] at hranges hstarts
      obtain ⟨hbehind, hlater⟩ := List.pairwise_cons.mp hfollows
      rw [tracedFrom, List.mem_append, List.mem_append] at h
      rcases h with (hearly | htext) | hlate
      · obtain ⟨other, value, heq, hle, -⟩ := mem_traced hearly
        cases heq
        exact hle
      · obtain ⟨value, -, heq⟩ := List.mem_map.mp htext
        cases heq
      · exact (hstarts.1.trans hranges.1).trans (ih hranges.2 hlater hbehind hlate)

/-- A byte that an edit covers falls on the start of what the edit writes. -/
theorem tracedFrom_covered (hlength : offset < data.length) (hranges : ∀ edit ∈ edits, edit.start ≤ edit.stop)
    (hfollows : edits.Pairwise fun one other => one.stop ≤ other.start) (hstarts : ∀ edit ∈ edits, kept ≤ edit.start)
    {edit : TextEdit} (hedit : edit ∈ edits) (hcovers : edit.Covers offset) (shift : ℤ) :
    Lands (tracedFrom data kept edits) edit (shiftedFrom offset shift edits - (kept + shift)) := by
  induction edits generalizing kept shift with
  | nil => cases hedit
  | cons first edits ih =>
      rw [List.forall_mem_cons] at hranges hstarts
      obtain ⟨hbehind, hlater⟩ := List.pairwise_cons.mp hfollows
      obtain ⟨hge, hlt⟩ := hcovers
      rw [shiftedFrom, tracedFrom]
      rcases List.mem_cons.mp hedit with rfl | hlate
      · refine ⟨((traced data).take edit.start).drop kept, tracedFrom data edit.stop edits, rfl, ?_, ?_, ?_⟩
        · rw [if_neg (by exact_mod_cast Nat.not_lt.mpr hge), if_pos (by exact_mod_cast hlt), List.length_drop,
            List.length_take, length_traced, Nat.min_eq_left (by omega)]
          have := hstarts.1
          push_cast [this]
          omega
        · intro other value hmem
          obtain ⟨_, _, heq, -, hstart⟩ := mem_traced hmem
          cases heq
          exact hstart
        · exact fun other value hmem => kept_le_of_mem hranges.2 hlater hbehind hmem
      · have hpast := hbehind edit hlate
        obtain ⟨before, after, hparts, hindex, hearly, hafter⟩ := (ih hranges.2 hlater hbehind hlate
          (shift + (first.text.length - (first.stop - first.start)))).parts
        refine ⟨((traced data).take first.start).drop kept ++ first.text.map (Atom.put first.start first.stop) ++ before,
          after, ?_, ?_, ?_, hafter⟩
        · rw [hparts]
          simp only [List.append_assoc]
        · rw [if_neg (by have := hranges.1; omega), if_neg (by omega), List.length_append,
            List.length_append, List.length_drop, List.length_take, length_traced, List.length_map,
            Nat.min_eq_left (by have := hranges.1; omega)]
          have := hstarts.1
          push_cast [this]
          omega
        · intro other value hmem
          rw [List.mem_append, List.mem_append] at hmem
          rcases hmem with (hstretch | htext) | hmem
          · obtain ⟨_, _, heq, -, hstart⟩ := mem_traced hstretch
            cases heq
            have := hranges.1
            omega
          · obtain ⟨value, -, heq⟩ := List.mem_map.mp htext
            cases heq
          · exact hearly other value hmem

end Shifted

end Mainboard.Analysis
