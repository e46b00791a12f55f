import Mathlib.Data.List.Range
import Mathlib.Data.List.Sort
import Mainboard.PlanTaking

/-! A file's edits applied one after the other, each at the bytes it was planned on: bytes remember the offset they
had, so an edit takes out what it covers and puts its text where its start stands now. What that leaves is every byte
no edit covers, and every text once, in file order. A file's edits spliced all at once leave the same where the bytes
between each edit's end and the next one's start are covered by none. -/

namespace Mainboard.Analysis

/-- A byte of an edited file: one it had, with its offset, or one an edit put there, with that edit's range. -/
inductive Atom where
  | kept (offset : ℕ) (byte : UInt8)
  | put (start stop : ℕ) (byte : UInt8)
  deriving DecidableEq, Repr

namespace Atom

def byte : Atom → UInt8
  | kept _ byte | put _ _ byte => byte

/-- The edit takes the byte out. -/
def covered (edit : TextEdit) : Atom → Bool
  | kept offset _ => edit.start ≤ offset && offset < edit.stop
  | put _ _ _ => false

/-- The byte stands before an edit's text: an insertion comes before what an edit from the same offset puts there. -/
def before (edit : TextEdit) : Atom → Bool
  | kept offset _ => offset < edit.start
  | put start stop _ => start < edit.start || (start == edit.start && stop ≤ edit.stop)

end Atom

/-- An edit applied to a file that was edited before. -/
def applyEdit (atoms : List Atom) (edit : TextEdit) : List Atom :=
  let rest := atoms.filter fun atom => !atom.covered edit
  rest.takeWhile (Atom.before edit) ++ edit.text.map (Atom.put edit.start edit.stop) ++ rest.dropWhile (Atom.before edit)

/-- The bytes from one offset to another that are not gone. -/
def remaining (gone : ℕ → Bool) (data : Bytes) (first last : ℕ) : List Atom :=
  ((List.range' first (last - first)).filter fun offset => !gone offset).filterMap fun offset =>
    data[offset]?.map (Atom.kept offset)

/-- A file's bytes with edits applied one after the other. -/
def edited (data : Bytes) (edits : List TextEdit) : List Atom :=
  edits.foldl applyEdit (remaining (fun _ => false) data 0 data.length)

def editedBytes (data : Bytes) (edits : List TextEdit) : Bytes := (edited data edits).map Atom.byte

/-- One of the edits covers the offset. -/
def coveredBy (edits : List TextEdit) (offset : ℕ) : Bool :=
  edits.any fun edit => edit.start ≤ offset && offset < edit.stop

/-- What remains of a file from an offset, and each edit's text, in file order. -/
def woven (gone : ℕ → Bool) (data : Bytes) : ℕ → List TextEdit → List Atom
  | first, [] => remaining gone data first data.length
  | first, edit :: edits =>
      remaining gone data first edit.start ++ edit.text.map (Atom.put edit.start edit.stop) ++
        woven gone data edit.start edits

/-- An edit put into file order, behind those it ties with. -/
def insertLast (edit : TextEdit) : List TextEdit → List TextEdit
  | [] => [edit]
  | other :: edits => if Plan.inOrder other edit then other :: insertLast edit edits else edit :: other :: edits

section Remaining

variable {gone : ℕ → Bool} {data : Bytes} {first middle last : ℕ}

theorem remaining_append (hfirst : first ≤ middle) (hlast : middle ≤ last) :
    remaining gone data first last = remaining gone data first middle ++ remaining gone data middle last := by
  have hrange : List.range' first (last - first) =
      List.range' first (middle - first) ++ List.range' middle (last - middle) := by
    have happend := List.range'_append_1 (s := first) (m := middle - first) (n := last - middle)
    rw [Nat.add_sub_cancel' hfirst] at happend
    rw [happend]
    congr 1
    omega
  rw [remaining, hrange, List.filter_append, List.filterMap_append]
  rfl

theorem remaining_past (h : data.length ≤ first) : remaining gone data first last = [] := by
  rw [remaining, List.filterMap_eq_nil_iff]
  intro offset hoffset
  have hge := (List.mem_range'_1.mp (List.mem_filter.mp hoffset).1).1
  rw [List.getElem?_eq_none (h.trans hge)]
  rfl

/-- What remains to the end of a file, in two parts. -/
theorem remaining_split (hfirst : first ≤ middle) :
    remaining gone data first data.length =
      remaining gone data first middle ++ remaining gone data middle data.length := by
  rcases Nat.le_total middle data.length with hle | hle
  · exact remaining_append hfirst hle
  · rw [remaining_past hle, List.append_nil]
    rcases Nat.le_total first data.length with hlt | hge
    · rw [remaining_append hlt hle, remaining_past (Nat.le_refl _), List.append_nil]
    · rw [remaining_past hge, remaining_past hge]

theorem mem_remaining {atom : Atom} (h : atom ∈ remaining gone data first last) :
    ∃ offset byte, atom = .kept offset byte ∧ first ≤ offset ∧ offset < last := by
  obtain ⟨offset, hoffset, hatom⟩ := List.mem_filterMap.mp h
  obtain ⟨byte, -, rfl⟩ := Option.map_eq_some_iff.mp hatom
  have hrange := List.mem_range'_1.mp (List.mem_filter.mp hoffset).1
  exact ⟨offset, byte, rfl, hrange.1, by omega⟩

/-- Nothing remains of bytes that are all gone. -/
theorem remaining_gone (h : ∀ offset, first ≤ offset → offset < last → offset < data.length → gone offset = true) :
    remaining gone data first last = [] := by
  rw [remaining, List.filterMap_eq_nil_iff]
  intro offset hoffset
  obtain ⟨hrange, hkept⟩ := List.mem_filter.mp hoffset
  have hbounds := List.mem_range'_1.mp hrange
  rw [Option.map_eq_none_iff, List.getElem?_eq_none_iff]
  by_contra hshort
  rw [h offset hbounds.1 (by omega) (by omega)] at hkept
  cases hkept

/-- Bytes that are not gone remain as they were. -/
theorem remaining_slice (h : ∀ offset, first ≤ offset → offset < last → offset < data.length → gone offset = false) :
    (remaining gone data first last).map Atom.byte = slice data first last := by
  obtain ⟨count, hcount⟩ : ∃ count, count = last - first := ⟨_, rfl⟩
  induction count generalizing first with
  | zero =>
      rw [remaining, ← hcount, slice, List.drop_eq_nil_of_le]
      · rfl
      · rw [List.length_take]
        omega
  | succ count ih =>
      have hnext := ih (fun offset hfirst => h offset (by omega)) (show count = last - (first + 1) by omega)
      rw [remaining_append (Nat.le_add_right first 1) (by omega), List.map_append, hnext]
      by_cases hshort : first < data.length
      · have hone : remaining gone data first (first + 1) = [Atom.kept first data[first]] := by
          rw [remaining, Nat.add_sub_cancel_left, List.range'_one, List.filter_cons_of_pos, List.filter_nil,
            List.filterMap_cons, List.getElem?_eq_getElem hshort]
          · rfl
          · rw [h first (Nat.le_refl _) (by omega) hshort]
            rfl
        have htake : first < (data.take last).length := by rw [List.length_take]; omega
        rw [hone, slice, slice, List.drop_eq_getElem_cons htake, List.getElem_take]
        rfl
      · rw [remaining_past (by omega), slice, slice, List.drop_eq_nil_of_le, List.drop_eq_nil_of_le]
        · rfl
        · rw [List.length_take]
          omega
        · rw [List.length_take]
          omega

theorem remaining_filter (gone more : ℕ → Bool) (edit : TextEdit)
    (h : ∀ offset, more offset = (gone offset || (edit.start ≤ offset && offset < edit.stop))) :
    (remaining gone data first last).filter (fun atom => !atom.covered edit) = remaining more data first last := by
  rw [remaining, remaining, List.filter_filterMap, List.filterMap_filter, List.filterMap_filter]
  refine congrArg (fun pick => List.filterMap pick _) (funext fun offset => ?_)
  rw [h offset]
  cases data[offset]? with
  | none => simp
  | some byte => cases gone offset <;> simp [Atom.covered, Option.filter]

end Remaining

section Weaving

variable {gone more : ℕ → Bool} {data : Bytes} {first kept : ℕ} {edit : TextEdit} {edits : List TextEdit}

theorem put_filter (edit other : TextEdit) : (other.text.map (Atom.put other.start other.stop)).filter
    (fun atom => !atom.covered edit) = other.text.map (Atom.put other.start other.stop) := by
  rw [List.filter_eq_self]
  intro atom hatom
  obtain ⟨byte, -, rfl⟩ := List.mem_map.mp hatom
  rfl

/-- What an edit takes out of woven bytes is what it covers. -/
theorem woven_filter (h : ∀ offset, more offset = (gone offset || (edit.start ≤ offset && offset < edit.stop))) :
    (woven gone data first edits).filter (fun atom => !atom.covered edit) = woven more data first edits := by
  induction edits generalizing first with
  | nil => exact remaining_filter gone more edit h
  | cons other edits ih =>
      rw [woven, woven, List.filter_append, List.filter_append, remaining_filter gone more edit h, put_filter, ih]

/-- Nothing stands before an edit behind its start and among edits that follow it. -/
theorem woven_not_before (hfirst : edit.start ≤ first) (hstarts : ∀ other ∈ edits, first ≤ other.start)
    (hsorted : edits.Pairwise fun one other => Plan.inOrder one other = true)
    (hafter : ∀ other ∈ edits, Plan.inOrder other edit = false) :
    ∀ atom ∈ woven gone data first edits, Atom.before edit atom = false := by
  have hremaining : ∀ {first last}, edit.start ≤ first → ∀ atom ∈ remaining gone data first last,
      Atom.before edit atom = false := fun hle atom hatom => by
    obtain ⟨offset, byte, rfl, hoffset, -⟩ := mem_remaining hatom
    exact decide_eq_false (by omega)
  induction edits generalizing first with
  | nil => exact hremaining hfirst
  | cons other edits ih =>
      have hother := hstarts other List.mem_cons_self
      rw [List.pairwise_cons] at hsorted
      intro atom hatom
      rw [woven, List.mem_append, List.mem_append] at hatom
      rcases hatom with (hatom | hatom) | hatom
      · exact hremaining hfirst atom hatom
      · obtain ⟨byte, -, rfl⟩ := List.mem_map.mp hatom
        exact hafter other List.mem_cons_self
      · exact ih (hfirst.trans hother) (fun later hlater => Plan.inOrder_start (hsorted.1 later hlater)) hsorted.2
          (fun later hlater => hafter later (List.mem_cons_of_mem _ hlater)) atom hatom

theorem placed_append {before after : List Atom} (hbefore : ∀ atom ∈ before, Atom.before edit atom = true)
    (hafter : ∀ atom ∈ after, Atom.before edit atom = false) (text : List Atom) :
    (before ++ after).takeWhile (Atom.before edit) ++ text ++ (before ++ after).dropWhile (Atom.before edit) =
      before ++ text ++ after := by
  have htake : after.takeWhile (Atom.before edit) = [] ∧ after.dropWhile (Atom.before edit) = after := by
    cases after with
    | nil => exact ⟨rfl, rfl⟩
    | cons atom after =>
        have hatom := hafter atom List.mem_cons_self
        constructor
        · rw [List.takeWhile_cons, hatom, if_neg Bool.false_ne_true]
        · rw [List.dropWhile_cons, hatom, if_neg Bool.false_ne_true]
  rw [List.takeWhile_append_of_pos hbefore, List.dropWhile_append_of_pos hbefore, htake.1, htake.2, List.append_nil]

/-- An edit's text put where its start stands is its text in file order. -/
theorem woven_insert (hfirst : first ≤ edit.start) (hstarts : ∀ other ∈ edits, first ≤ other.start)
    (hsorted : edits.Pairwise fun one other => Plan.inOrder one other = true) :
    (woven gone data first edits).takeWhile (Atom.before edit) ++ edit.text.map (Atom.put edit.start edit.stop) ++
      (woven gone data first edits).dropWhile (Atom.before edit) = woven gone data first (insertLast edit edits) := by
  have hbefore : ∀ {first last}, last ≤ edit.start → ∀ atom ∈ remaining gone data first last,
      Atom.before edit atom = true := fun hle atom hatom => by
    obtain ⟨offset, byte, rfl, -, hoffset⟩ := mem_remaining hatom
    exact decide_eq_true (by omega)
  induction edits generalizing first with
  | nil =>
      rw [woven, remaining_split hfirst, placed_append (hbefore (Nat.le_refl _))]
      · rfl
      · intro atom hatom
        obtain ⟨offset, byte, rfl, hoffset, -⟩ := mem_remaining hatom
        exact decide_eq_false (by omega)
  | cons other edits ih =>
      have hother := hstarts other List.mem_cons_self
      have hpairs := List.pairwise_cons.mp hsorted
      have hlater : ∀ later ∈ edits, other.start ≤ later.start := fun later h => Plan.inOrder_start (hpairs.1 later h)
      unfold insertLast
      split
      · rename_i horder
        have hstart := Plan.inOrder_start horder
        have hearlier : ∀ atom ∈ remaining gone data first other.start ++
            other.text.map (Atom.put other.start other.stop), Atom.before edit atom = true := by
          intro atom hatom
          rcases List.mem_append.mp hatom with hatom | hatom
          · exact hbefore hstart atom hatom
          · obtain ⟨byte, -, rfl⟩ := List.mem_map.mp hatom
            exact horder
        rw [woven, woven, ← ih hstart hlater hpairs.2, List.takeWhile_append_of_pos hearlier,
          List.dropWhile_append_of_pos hearlier]
        simp only [List.append_assoc]
      · rename_i horder
        rw [Bool.not_eq_true] at horder
        have hnot : ∀ later ∈ other :: edits, Plan.inOrder later edit = false := by
          intro later hmem
          rcases List.mem_cons.mp hmem with rfl | hmem
          · exact horder
          · rw [← Bool.not_eq_true]
            intro hle
            exact Bool.eq_false_iff.mp horder (Plan.inOrder_trans (hpairs.1 later hmem) hle)
        have hstart : edit.start ≤ other.start := by
          simp only [Plan.inOrder, Bool.or_eq_false_iff, Bool.and_eq_false_iff, decide_eq_false_iff_not] at horder
          omega
        have hsplit : woven gone data first (other :: edits) =
            remaining gone data first edit.start ++ woven gone data edit.start (other :: edits) := by
          rw [woven, woven, remaining_append hfirst hstart]
          simp only [List.append_assoc]
        have hstarts' : ∀ later ∈ other :: edits, edit.start ≤ later.start :=
          List.forall_mem_cons.mpr ⟨hstart, fun later hmem => hstart.trans (hlater later hmem)⟩
        rw [hsplit, placed_append (hbefore (Nat.le_refl _)) (woven_not_before (Nat.le_refl _) hstarts' hsorted hnot)]
        rfl

/-- Of two edits put into file order, the one taken first may be put in last. -/
theorem orderedInsert_insertLast (edits : List TextEdit) (first : TextEdit) :
    (insertLast edit edits).orderedInsert (fun one other => Plan.inOrder one other = true) first =
      insertLast edit (edits.orderedInsert (fun one other => Plan.inOrder one other = true) first) := by
  induction edits with
  | nil =>
      by_cases h : Plan.inOrder first edit = true <;> simp [insertLast, List.orderedInsert, h]
  | cons other edits ih =>
      by_cases hfirst : Plan.inOrder first other = true
      · by_cases hother : Plan.inOrder other edit = true
        · have h := Plan.inOrder_trans hfirst hother
          simp [insertLast, List.orderedInsert, hfirst, hother, h]
        · by_cases h : Plan.inOrder first edit = true <;>
            simp [insertLast, List.orderedInsert, hfirst, hother, h]
      · by_cases hother : Plan.inOrder other edit = true
        · simp [insertLast, List.orderedInsert, hfirst, hother, ih]
        · have h : ¬ Plan.inOrder first edit = true := fun h => by
            refine hfirst (Plan.inOrder_trans h ?_)
            simp only [Plan.inOrder, Bool.or_eq_true, Bool.and_eq_true, decide_eq_true_eq, beq_iff_eq] at hother ⊢
            omega
          simp [insertLast, List.orderedInsert, hfirst, hother, h]

/-- A list's file order takes its last edit in last. -/
theorem sorted_concat (edits : List TextEdit) (edit : TextEdit) :
    Plan.fileOrder (edits ++ [edit]) = insertLast edit (Plan.fileOrder edits) := by
  unfold Plan.fileOrder
  induction edits with
  | nil => rfl
  | cons first edits ih =>
      rw [List.cons_append, List.insertionSort_cons, List.insertionSort_cons, ih, orderedInsert_insertLast]

/-- A file's edits applied one after the other leave what no edit covers, and each text once, in file order. -/
theorem edited_eq (data : Bytes) (edits : List TextEdit) : edited data edits =
    woven (coveredBy edits) data 0 (Plan.fileOrder edits) := by
  induction edits using List.reverseRecOn with
  | nil => rfl
  | append_singleton edits edit ih =>
      have hmore : ∀ offset, coveredBy (edits ++ [edit]) offset =
          (coveredBy edits offset || (edit.start ≤ offset && offset < edit.stop)) := fun offset => by
        simp [coveredBy]
      rw [edited, List.foldl_append]
      change applyEdit (edited data edits) edit = _
      rw [ih, applyEdit, woven_filter hmore, sorted_concat]
      exact woven_insert (Nat.zero_le _) (fun _ _ => Nat.zero_le _) (Plan.pairwise_fileOrder _)

end Weaving

/-- Edits in file order whose ends the bytes up to the next start, or the file's end, are covered by no edit behind. -/
def Parted (gone : ℕ → Bool) (length : ℕ) : List TextEdit → Prop
  | [] => True
  | edit :: edits => edit.start ≤ edit.stop ∧
      (∀ offset, edit.stop ≤ offset → offset < length → (∀ next ∈ edits.head?, offset < next.start) →
        gone offset = false) ∧ Parted gone length edits

/-- Edits spliced all at once, from an offset up to which nothing remains. -/
theorem splicedFrom_eq {gone : ℕ → Bool} {data : Bytes} {first kept : ℕ} {edits : List TextEdit}
    (hfirst : first ≤ kept) (hkept : ∀ offset, first ≤ offset → offset < kept → offset < data.length → gone offset = true)
    (hopen : ∀ offset, kept ≤ offset → offset < data.length → (∀ next ∈ edits.head?, offset < next.start) →
      gone offset = false)
    (hsorted : (first :: edits.map TextEdit.start).Pairwise (· ≤ ·))
    (hcovers : ∀ edit ∈ edits, ∀ offset, edit.start ≤ offset → offset < edit.stop → gone offset = true)
    (hparted : Parted gone data.length edits) :
    splicedFrom data kept edits = (woven gone data first edits).map Atom.byte := by
  induction edits generalizing first kept with
  | nil =>
      rw [woven, remaining_split hfirst, remaining_gone hkept, List.nil_append, remaining_slice, splicedFrom, slice,
        List.take_length]
      exact fun offset hle hlt _ => hopen offset hle hlt fun next hnext => by cases hnext
  | cons edit edits ih =>
      rw [List.map_cons, List.pairwise_cons] at hsorted
      have hstart : first ≤ edit.start := hsorted.1 _ List.mem_cons_self
      obtain ⟨horder, hbehind, hrest⟩ := hparted
      have hslice : slice data kept edit.start = (remaining gone data first edit.start).map Atom.byte := by
        rcases Nat.le_total kept edit.start with hle | hle
        · rw [remaining_append hfirst hle, remaining_gone hkept, List.nil_append, remaining_slice]
          exact fun offset hoffset hlt hlength => hopen offset hoffset hlength fun next hnext => by
            cases hnext
            exact hlt
        · rw [remaining_gone fun offset hoffset hlt => hkept offset hoffset (hlt.trans_le hle), slice,
            List.drop_eq_nil_of_le]
          · rfl
          · rw [List.length_take]
            omega
      have htext : (edit.text.map (Atom.put edit.start edit.stop)).map Atom.byte = edit.text := by
        rw [List.map_map]
        exact List.map_id _
      have hlater := ih horder (fun offset hge hlt _ => hcovers edit List.mem_cons_self offset hge hlt) hbehind hsorted.2
        (fun other hother => hcovers other (List.mem_cons_of_mem _ hother)) hrest
      rw [splicedFrom, woven, List.map_append, List.map_append, ← hslice, htext, hlater]

/-- A file's edits spliced all at once leave what they leave one after the other. -/
theorem splicedFrom_edited {data : Bytes} {edits : List TextEdit}
    (hparted : Parted (coveredBy edits) data.length (Plan.fileOrder edits)) :
    splicedFrom data 0 (Plan.fileOrder edits) = editedBytes data edits := by
  have hpairs := Plan.pairwise_fileOrder edits
  rw [editedBytes, edited_eq]
  refine splicedFrom_eq (Nat.le_refl _) (fun offset _ hlt => absurd hlt (Nat.not_lt_zero _)) ?_ ?_ ?_ hparted
  · intro offset _ _ hnext
    rw [coveredBy, List.any_eq_false]
    intro edit hedit hcovers
    rw [Bool.and_eq_true, decide_eq_true_eq, decide_eq_true_eq] at hcovers
    have hmem := Plan.mem_fileOrder.mpr hedit
    cases hlist : Plan.fileOrder edits with
    | nil =>
        rw [hlist] at hmem
        cases hmem
    | cons least rest =>
        rw [hlist] at hmem hpairs hnext
        have hleast : offset < least.start := hnext least rfl
        rcases List.mem_cons.mp hmem with rfl | hlate
        · omega
        · have hle := Plan.inOrder_start ((List.pairwise_cons.mp hpairs).1 edit hlate)
          omega
  · exact List.pairwise_cons.mpr ⟨fun _ _ => Nat.zero_le _, List.pairwise_map.mpr (hpairs.imp Plan.inOrder_start)⟩
  · intro edit hedit offset hge hlt
    rw [coveredBy, List.any_eq_true]
    exact ⟨edit, Plan.mem_fileOrder.mp hedit, by simp [hge, hlt]⟩

end Mainboard.Analysis
