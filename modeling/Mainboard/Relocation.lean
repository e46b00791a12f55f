import Mathlib
import Mainboard.ApplyPlan
import Mainboard.ListReading
import Mainboard.OrderedCounts
import Mainboard.TracedSplices

/-! Findings put where a plan's edits put their starts: the offset of a finding is shifted by the edits of its file and
read back as a line and a column of the new bytes, and its path is the one the first of the plan's renames that holds
it gives. A byte the plan keeps is found again; its path is right unless a later rename takes along what an earlier one
moved. -/

namespace Mainboard.Analysis

/-- A finding's place and rule. -/
structure Spot where
  path : Place
  line : ℕ
  column : ℤ
  rule : Text
  deriving DecidableEq

/-- The line and the column of an offset, by the line feeds before it. -/
def placeOf (data : Bytes) (offset : ℕ) : ℕ × ℤ :=
  ((data.take offset).count 10 + 1, ((data.take offset).reverse.takeWhile (· ≠ 10)).length)

namespace Source

variable (source : Source)

/-- `bisect_right` on the lines' starts: the line holding a byte. -/
def line (offset : ℤ) : ℕ := (source.starts.takeWhile fun start : ℕ => (start : ℤ) ≤ offset).length

/-- The line of an offset and its column there. -/
def place (offset : ℤ) : Option (ℕ × ℤ) :=
  (source.lineStart (source.line offset)).map fun start : ℕ => (source.line offset, offset - start)

variable {source} {data : Bytes} {base count : ℕ}

theorem takeWhile_ne_concat (bytes : Bytes) (byte : UInt8) :
    ((bytes ++ [byte]).takeWhile (· ≠ 10)).length =
      if 10 ∈ bytes then (bytes.takeWhile (· ≠ 10)).length else bytes.length + if byte = 10 then 0 else 1 := by
  induction bytes with
  | nil => by_cases h : byte = 10 <;> simp [h]
  | cons first bytes ih =>
      by_cases hfirst : first = 10
      · simp [hfirst]
      · have hmem : 10 ∈ first :: bytes ↔ 10 ∈ bytes := by simp [Ne.symm hfirst]
        rw [List.cons_append, List.takeWhile_cons_of_pos (by simpa using hfirst), List.length_cons, ih]
        simp only [hmem]
        split
        · rw [List.takeWhile_cons_of_pos (by simpa using hfirst), List.length_cons]
        · rw [List.length_cons]
          omega

theorem lt_lineEnds : ∀ stop ∈ lineEnds base data, base < stop := by
  induction data generalizing base with
  | nil => exact fun stop hstop => absurd hstop List.not_mem_nil
  | cons byte data ih =>
      intro stop hstop
      rw [lineEnds] at hstop
      split at hstop
      · rcases List.mem_cons.mp hstop with rfl | hlate
        · exact Nat.lt_succ_self base
        · exact (Nat.lt_succ_self base).trans (ih _ hlate)
      · exact (Nat.lt_succ_self base).trans (ih _ hstop)

/-- As many lines end before an offset as line feeds stand before it. -/
theorem lineEnds_before (count : ℕ) :
    ((lineEnds base data).takeWhile fun stop : ℕ => (stop : ℤ) ≤ (base + count : ℕ)).length = (data.take count).count 10 := by
  induction data generalizing base count with
  | nil => rw [List.take_nil]; rfl
  | cons byte data ih =>
      cases count with
      | zero =>
          rw [List.take_zero, List.count_nil, List.length_eq_zero_iff, List.takeWhile_eq_nil_iff]
          intro hne
          have hlt := lt_lineEnds _ (List.getElem_mem hne)
          simp only [decide_eq_true_eq, not_le]
          exact_mod_cast hlt
      | succ count =>
          have hbase : (base + (count + 1) : ℕ) = (base + 1 + count : ℕ) := by omega
          rw [List.take_succ_cons, lineEnds, hbase]
          split
          · next h =>
              rw [h, List.takeWhile_cons_of_pos (by rw [decide_eq_true_eq]; omega), List.length_cons, ih,
                List.count_cons_self]
          · next h => rw [ih, List.count_cons_of_ne (by simpa using h)]

/-- The line of an offset starts as far before it as the last line feed stands. -/
theorem lineEnds_at (hcount : count ≤ data.length) :
    (base :: lineEnds base data)[(data.take count).count 10]? =
      some (base + (count - ((data.take count).reverse.takeWhile (· ≠ 10)).length)) := by
  induction data generalizing base count with
  | nil =>
      obtain rfl := Nat.le_zero.mp hcount
      rfl
  | cons byte data ih =>
      cases count with
      | zero => rfl
      | succ count =>
          have hle := Nat.le_of_succ_le_succ hcount
          have hlater := @ih (base + 1) count hle
          have hlength : (data.take count).length = count := List.length_take_of_le hle
          have hshort := (data.take count).reverse.takeWhile_sublist (· ≠ 10) |>.length_le
          rw [List.length_reverse, hlength] at hshort
          rw [List.take_succ_cons, List.reverse_cons, takeWhile_ne_concat, lineEnds]
          simp only [List.mem_reverse, List.length_reverse, hlength]
          by_cases hbyte : byte = 10
          · subst hbyte
            rw [if_pos rfl, List.count_cons_self, List.getElem?_cons_succ, hlater, if_pos rfl]
            split
            · congr 1
              omega
            · next hnone =>
                have hall : ((data.take count).reverse.takeWhile (· ≠ 10)).length = count := by
                  rw [List.takeWhile_eq_self_iff.mpr, List.length_reverse, hlength]
                  intro byte hmem
                  exact decide_eq_true fun heq => hnone (heq ▸ List.mem_reverse.mp hmem)
                rw [hall]
                congr 1
                omega
          · rw [if_neg hbyte, if_neg hbyte, List.count_cons_of_ne hbyte]
            split
            · next hsome =>
                obtain ⟨lines, hlines⟩ := Nat.exists_eq_succ_of_ne_zero (List.count_pos_iff.mpr hsome).ne'
                rw [hlines, List.getElem?_cons_succ] at hlater ⊢
                rw [hlater]
                congr 1
                omega
            · next hnone =>
                rw [List.count_eq_zero.mpr hnone, Nat.sub_self]
                rfl

/-- A byte's line and column are those the line feeds before it give. -/
theorem place_eq {offset : ℕ} (h : offset < source.data.length) :
    source.place offset = some (placeOf source.data offset) := by
  obtain ⟨more, hmore, hpast⟩ : ∃ more, source.starts = (0 :: lineEnds 0 source.data) ++ more ∧
      more.takeWhile (fun start : ℕ => (start : ℤ) ≤ offset) = [] := by
    unfold starts
    dsimp only
    split
    · exact ⟨[], (List.append_nil _).symm, rfl⟩
    · refine ⟨[source.data.length], rfl, List.takeWhile_cons_of_neg ?_⟩
      rw [decide_eq_true_eq]
      omega
  have hbefore := @lineEnds_before source.data 0 offset
  have hat := @lineEnds_at source.data 0 offset h.le
  rw [Nat.zero_add] at hbefore hat
  have hfirst : (0 :: lineEnds 0 source.data).takeWhile (fun start : ℕ => (start : ℤ) ≤ offset) =
      0 :: (lineEnds 0 source.data).takeWhile fun start : ℕ => (start : ℤ) ≤ offset :=
    List.takeWhile_cons_of_pos (decide_eq_true (by simp))
  have hline : source.line offset = (source.data.take offset).count 10 + 1 := by
    rw [line, hmore, List.takeWhile_append, hpast, List.append_nil]
    split
    · next hall =>
        rw [← hall, hfirst, List.length_cons, hbefore]
    · rw [hfirst, List.length_cons, hbefore]
  have hstart : source.lineStart (source.line offset) =
      some (offset - ((source.data.take offset).reverse.takeWhile (· ≠ 10)).length) := by
    rw [hline, lineStart, hmore, List.getElem?_append_left (List.getElem?_eq_some_iff.mp hat).1, hat]
  have hshort := ((source.data.take offset).reverse.takeWhile_sublist (· ≠ 10)).length_le
  rw [List.length_reverse, List.length_take_of_le h.le] at hshort
  rw [place, hstart, hline, placeOf, Option.map_some, Nat.cast_sub hshort]
  congr 2
  omega

/-- A line and a column read back are the offset they were given for. -/
theorem offset_place {offset : ℤ} {found : ℕ × ℤ} (h : source.place offset = some found) :
    ∃ start, source.lineStart found.1 = some start ∧ start + found.2 = offset := by
  obtain ⟨start, hstart, rfl⟩ := Option.map_eq_some_iff.mp h
  exact ⟨start, hstart, by omega⟩

/-- Every offset of a file, its end among them, has a line and a column. -/
theorem place_of_nonneg {offset : ℤ} (h : 0 ≤ offset) : ∃ found, source.place offset = some found ∧ 0 < found.1 ∧
    found.1 ≤ source.starts.length := by
  have hfirst : ∃ rest, source.starts = 0 :: rest := by
    unfold starts
    dsimp only
    split
    · exact ⟨_, rfl⟩
    · exact ⟨_, rfl⟩
  obtain ⟨rest, hrest⟩ := hfirst
  have hline : source.line offset = (rest.takeWhile fun start : ℕ => (start : ℤ) ≤ offset).length + 1 := by
    rw [line, hrest, List.takeWhile_cons_of_pos (by simpa using h), List.length_cons]
  have hle : source.line offset ≤ source.starts.length := (List.takeWhile_sublist _).length_le
  obtain ⟨start, hstart⟩ : ∃ start, source.lineStart (source.line offset) = some start := by
    rw [hline] at hle ⊢
    exact ⟨_, List.getElem?_eq_getElem hle⟩
  exact ⟨_, by rw [place, hstart, Option.map_some], by rw [hline]; exact Nat.succ_pos _, hle⟩

end Source

/-! Renames -/

/-- Where a path stands after renames made one after the other, of it or of a folder holding it. -/
def through (renames : List (Place × Place)) (path : Place) : Place :=
  renames.foldl (fun path entry => if entry.1 <+: path then entry.2 ++ path.drop entry.1.length else path) path

/-- Where the first rename that holds a path puts it, the renames behind that one leave it. -/
def Settles : List (Place × Place) → Place → Prop
  | [], _ => True
  | (old, new) :: renames, path =>
      if old <+: path then through renames (new ++ path.drop old.length) = new ++ path.drop old.length
      else Settles renames path

/-- Where the first rename that holds a path puts it. -/
def movedBy (renames : List (Place × Place)) (path : Place) : Place :=
  match renames.find? fun entry => entry.1 <+: path with
  | some (old, new) => new ++ path.drop old.length
  | none => path

theorem movedBy_eq_through_iff (renames : List (Place × Place)) (path : Place) :
    movedBy renames path = through renames path ↔ Settles renames path := by
  induction renames with
  | nil => exact iff_of_true rfl trivial
  | cons entry renames ih =>
      rw [movedBy, through, List.foldl_cons, Settles]
      by_cases hlead : entry.1 <+: path
      · have hfind : (entry :: renames).find? (fun entry => entry.1 <+: path) = some entry :=
          List.find?_cons_of_pos (by simpa using hlead)
        rw [if_pos hlead, if_pos hlead, hfind, eq_comm]
        rfl
      · have hfind : (entry :: renames).find? (fun entry => entry.1 <+: path) =
            renames.find? fun entry => entry.1 <+: path := List.find?_cons_of_neg (by simpa using hlead)
        rw [if_neg hlead, if_neg hlead, hfind]
        exact ih

/-- A plan's own answer is where its renames put a path exactly when they leave it there. -/
theorem moved_eq_through_iff (plan : Plan) (path : Place) :
    plan.moved path = through plan.renamed path ↔ Settles plan.renamed path :=
  movedBy_eq_through_iff plan.renamed path

/-- None of the renames lands on the file itself. -/
def Spared : List (Place × Place) → Place → Prop
  | [], _ => True
  | (old, new) :: renames, path =>
      (¬ old <+: path → new ≠ path) ∧ Spared renames (if old <+: path then new ++ path.drop old.length else path)

/-- A file goes along with a rename that holds it, and stays under any other that does not land on it. -/
theorem renamed_file {tree next : Project} {old new path : Place} {data : Bytes} (h : tree.rename old new = .ok next)
    (hfile : tree.entry path = some (.file data)) (hspared : ¬ old <+: path → new ≠ path) :
    next.entry (if old <+: path then new ++ path.drop old.length else path) = some (.file data) := by
  obtain ⟨-, ⟨rfl, rfl⟩ | ⟨hinside, hentry⟩⟩ := FileTree.Tree.rename_eq h
  · split
    · next hlead =>
        obtain ⟨rest, rfl⟩ := hlead
        rwa [List.drop_left]
    · exact hfile
  · rw [hentry]
    dsimp only
    split
    · next hlead =>
        obtain ⟨rest, rfl⟩ := hlead
        rw [List.drop_left, if_pos (List.prefix_append new rest), List.drop_left]
        exact hfile
    · next hlead =>
        have hself : old ≠ new := fun heq => hinside (heq ▸ List.prefix_rfl)
        have hnew : ¬ new <+: path := fun hnew => by
          have hfolder : tree.entry new = some .folder :=
            tree.folder_of_prefix hnew (hspared hlead) (by rw [hfile]; exact Option.some_ne_none _)
          have hguards := FileTree.Tree.rename_guards h hself
          cases hold : tree.isFolder old with
          | true =>
              have hholding : tree.holding new = true := List.any_eq_true.mpr
                ⟨path, tree.mem_places path (by rw [hfile]; exact Option.some_ne_none _), by
                  rw [Bool.and_eq_true, decide_eq_true_eq, hfile]
                  exact ⟨⟨hnew, (hspared hlead).symm⟩, rfl⟩⟩
              rw [(hguards.1 hold).2] at hholding
              cases hholding
          | false =>
              have hnot := hguards.2 hold
              rw [tree.isFolder_iff.mpr hfolder] at hnot
              cases hnot
        rwa [if_neg hnew]

/-- Where a mirror's renames all go through, a file that none of them lands on stands where they put its path. -/
theorem stands_through {plan : Plan} {renames : List (Place × Place)} {tree : Project} {path : Place} {data : Bytes}
    {changed : List Place} (hfile : tree.entry path = some (.file data)) (hspared : Spared renames path)
    (h : (plan.applyFrom tree changed (renames.map fun entry => .rename entry.1 entry.2)).raised = false) :
    (plan.applyFrom tree changed (renames.map fun entry => .rename entry.1 entry.2)).project.entry
      (through renames path) = some (.file data) := by
  induction renames generalizing tree path changed with
  | nil => exact hfile
  | cons entry renames ih =>
      rw [List.map_cons, Plan.applyFrom_cons] at h ⊢
      split at h
      · cases h
      · next hraised =>
          rw [if_neg hraised]
          obtain ⟨made, hmade, hrename⟩ := FileTree.Outcome.within_ok (Bool.eq_false_iff.mpr hraised)
          exact ih (renamed_file hrename ((FileTree.Tree.file_mkdirs hmade).mpr hfile) hspared.1) hspared.2 h

/-! Findings -/

namespace Plan

variable (project : Project) (grammar : Grammar) (plan : Plan)

/-- `_relocated`: where a finding at a line and a column of a file stands in its new bytes. -/
def relocated (source after : Source) (edits : List TextEdit) (line : ℕ) (column : ℤ) : Option (ℕ × ℤ) := do
  let start ← source.lineStart (min line source.starts.length)
  after.place (shifted edits (start + column))

/-- One finding after the plan. -/
def spotAfter (written : List (Place × Bytes)) (edits : List (Place × List TextEdit)) (spot : Spot) : Option Spot :=
  match OrderedMap.get written spot.path with
  | none => some { spot with path := plan.moved spot.path }
  | some data => do
      let source ← source project plan spot.path
      let place ← relocated source ⟨data⟩ ((OrderedMap.get edits spot.path).getD []) spot.line spot.column
      return { spot with path := plan.moved spot.path, line := place.1, column := place.2 }

/-- Each finding where the plan's edits put its start, with how often it was found. -/
def relocate (findings : List (Spot × ℤ)) : Option (List (Spot × ℤ)) := do
  let written ← plan.written project grammar
  let edits ← plan.edits project grammar
  let spots ← findings.mapM fun finding => (spotAfter project plan written edits finding.1).map (·, finding.2)
  return OrderedMap.counted spots

/-- A byte of a file in the file's new bytes: where it stands with its line and column if no edit covers it, and on the
start of what an edit writes if that covers it. -/
structure Found (data : Bytes) (edits : List TextEdit) (offset : ℕ) (byte : UInt8) (line : ℕ) (column : ℤ) : Prop where
  kept : (∀ edit ∈ edits, ¬ edit.Covers offset) → ∃ index : ℕ, shifted edits offset = index ∧
    (tracedFrom data 0 edits)[index]? = some (.kept offset byte) ∧
      placeOf (splicedFrom data 0 edits) index = (line, column)
  covered : ∀ edit ∈ edits, edit.Covers offset → ∃ start,
    Source.lineStart ⟨splicedFrom data 0 edits⟩ line = some start ∧ start + column = shifted edits offset ∧
      Lands (tracedFrom data 0 edits) edit (shifted edits offset)

/-- What relocating findings promises: a byte of a file whose edits do not overlap is found again, in the file its
renames make of it, and findings keep their counts. -/
structure Follows : Prop where
  byte : ∀ written edits, plan.written project grammar = some written → plan.edits project grammar = some edits →
    ∀ path data, source project plan path = some ⟨data⟩ → Apart ((OrderedMap.get edits path).getD []) →
      (OrderedMap.get written path).getD data = splicedFrom data 0 ((OrderedMap.get edits path).getD []) ∧
        ∀ offset byte rule, data[offset]? = some byte → ∃ spot,
          spotAfter project plan written edits ⟨path, (placeOf data offset).1, (placeOf data offset).2, rule⟩ = some spot ∧
            spot.path = through plan.renamed path ∧ spot.rule = rule ∧
              Found data ((OrderedMap.get edits path).getD []) offset byte spot.line spot.column
  counts : ∀ findings written edits spots, plan.written project grammar = some written →
    plan.edits project grammar = some edits →
      findings.mapM (fun finding => (spotAfter project plan written edits finding.1).map (·, finding.2)) = some spots →
        ∃ moved, relocate project grammar plan findings = some moved ∧
          (moved.map (·.2)).sum = (findings.map (·.2)).sum ∧ ∀ spot,
            (OrderedMap.get moved spot).getD 0 = ((spots.filter fun found => found.1 = spot).map (·.2)).sum

variable {project grammar plan} {written : List (Place × Bytes)} {edits : List (Place × List TextEdit)}

/-- What a plan writes at a path are the path's bytes with its edits, which stand in file order. -/
theorem get_written (hwritten : plan.written project grammar = some written)
    (hedits : plan.edits project grammar = some edits) (path : Place) :
    (∀ pieces, OrderedMap.get edits path = some pieces → pieces.Pairwise fun one other => inOrder one other = true) ∧
      (OrderedMap.get written path = none ∧ OrderedMap.get edits path = none ∨
        ∃ pieces source', OrderedMap.get edits path = some pieces ∧ source project plan path = some source' ∧
          OrderedMap.get written path = some (splicedFrom source'.data 0 pieces)) := by
  rw [Plan.written, hedits, Option.bind_eq_bind, Option.bind_some] at hwritten
  constructor
  · intro pieces hpieces
    simp only [Plan.edits, Option.bind_eq_bind, Option.bind_eq_some_iff] at hedits
    obtain ⟨imports, -, hedits⟩ := hedits
    cases hedits
    obtain ⟨path, -, hentry⟩ := List.mem_map.mp (OrderedMap.mem_of_get hpieces)
    cases hentry
    exact pairwise_fileOrder _
  · clear hedits
    induction edits generalizing written with
    | nil =>
        cases hwritten
        exact .inl ⟨rfl, rfl⟩
    | cons entry edits ih =>
        simp only [splicedAll, Option.bind_eq_bind, Option.bind_eq_some_iff] at hwritten
        obtain ⟨data, hdata, rest, hrest, heq⟩ := hwritten
        cases heq
        rw [spliced, Option.map_eq_some_iff] at hdata
        obtain ⟨source', hsource, rfl⟩ := hdata
        by_cases hpath : entry.1 = path
        · subst hpath
          exact .inr ⟨entry.2, source', by simp [OrderedMap.get], hsource, by simp [OrderedMap.get]⟩
        · have hskip : ∀ {ν : Type} (value : ν) (rest : List (Place × ν)),
              OrderedMap.get ((entry.1, value) :: rest) path = OrderedMap.get rest path := fun value rest => by
            simp [OrderedMap.get, hpath]
          rw [hskip, show OrderedMap.get (entry :: edits) path = _ from hskip entry.2 edits]
          exact ih hrest

/-- A byte of a file is found again in its new bytes. -/
theorem found_relocated {data : Bytes} {pieces : List TextEdit} (hapart : Apart pieces)
    (horder : pieces.Pairwise fun one other => inOrder one other = true) {offset : ℕ} {byte : UInt8}
    (hbyte : data[offset]? = some byte) : ∃ place, relocated ⟨data⟩ ⟨splicedFrom data 0 pieces⟩ pieces
      (placeOf data offset).1 (placeOf data offset).2 = some place ∧ Found data pieces offset byte place.1 place.2 := by
  have hlength : offset < data.length := (List.getElem?_eq_some_iff.mp hbyte).1
  have hplace := @Source.place_eq ⟨data⟩ offset hlength
  obtain ⟨start, hstart, hoffset⟩ := Source.offset_place hplace
  obtain ⟨found, hfound, -, hshort⟩ := @Source.place_of_nonneg ⟨data⟩ offset (Int.natCast_nonneg offset)
  obtain rfl := Option.some.inj (hfound.symm.trans hplace)
  have hrelocated : relocated ⟨data⟩ ⟨splicedFrom data 0 pieces⟩ pieces (placeOf data offset).1 (placeOf data offset).2 =
      Source.place ⟨splicedFrom data 0 pieces⟩ (shifted pieces offset) := by
    rw [relocated, Nat.min_eq_left hshort, hstart, Option.bind_eq_bind, Option.bind_some, hoffset]
  have hfollows := hapart.follows horder
  rw [hrelocated]
  by_cases hcovered : ∃ edit ∈ pieces, edit.Covers offset
  · obtain ⟨edit, hedit, hcovers⟩ := hcovered
    have hlands : ∀ edit ∈ pieces, edit.Covers offset →
        Lands (tracedFrom data 0 pieces) edit (shifted pieces offset) := fun edit hedit hcovers => by
      simpa [shifted] using tracedFrom_covered hlength hapart.ranges hfollows (fun _ _ => Nat.zero_le _) hedit hcovers 0
    obtain ⟨before, after, -, hindex, -, -⟩ := (hlands edit hedit hcovers).parts
    obtain ⟨place, hnew, -, -⟩ := @Source.place_of_nonneg ⟨splicedFrom data 0 pieces⟩ (shifted pieces offset) (by omega)
    refine ⟨place, hnew, ⟨fun hnot => absurd hcovers (hnot edit hedit), fun other hother hits => ?_⟩⟩
    obtain ⟨first, hfirst, hback⟩ := Source.offset_place hnew
    exact ⟨first, hfirst, hback, hlands other hother hits⟩
  · push Not at hcovered
    obtain ⟨index, hindex, hatom⟩ := tracedFrom_kept hbyte (Nat.zero_le _) hapart.ranges hfollows
      (fun _ _ => Nat.zero_le _) hcovered 0
    have hshifted : shifted pieces offset = index := by simpa [shifted] using hindex
    have hin : index < (splicedFrom data 0 pieces).length := by
      rw [← byte_tracedFrom, List.length_map]
      exact (List.getElem?_eq_some_iff.mp hatom).1
    refine ⟨_, by rw [hshifted]; exact @Source.place_eq ⟨splicedFrom data 0 pieces⟩ index hin, ⟨fun _ =>
      ⟨index, hshifted, hatom, rfl⟩, fun edit hedit hcovers => absurd hcovers (hcovered edit hedit)⟩⟩

/-- A plan's relocation follows the bytes of its files exactly where the renames behind the first that holds a file
leave the file there. -/
theorem follows_iff (project : Project) (grammar : Grammar) (plan : Plan) :
    Follows project grammar plan ↔ ∀ written edits, plan.written project grammar = some written →
      plan.edits project grammar = some edits → ∀ path data, source project plan path = some ⟨data⟩ → data ≠ [] →
        Apart ((OrderedMap.get edits path).getD []) → Settles plan.renamed path := by
  constructor
  · intro h written edits hwritten hedits path data hsource hdata hapart
    obtain ⟨byte, data, rfl⟩ := List.exists_cons_of_ne_nil hdata
    obtain ⟨spot, hspot, hpath, -, -⟩ :=
      (h.byte written edits hwritten hedits path _ hsource hapart).2 0 byte [] rfl
    rw [← moved_eq_through_iff, ← hpath]
    unfold spotAfter at hspot
    split at hspot
    · rw [← Option.some.inj hspot]
    · simp only [Option.bind_eq_bind, Option.bind_eq_some_iff] at hspot
      obtain ⟨source', -, place, -, heq⟩ := hspot
      rw [← Option.some.inj heq]
  · intro h
    refine ⟨?_, ?_⟩
    · intro written edits hwritten hedits path data hsource hapart
      obtain ⟨horder, hget⟩ := get_written hwritten hedits path
      have hmoved : data ≠ [] → plan.moved path = through plan.renamed path := fun hdata =>
        (moved_eq_through_iff plan path).mpr (h written edits hwritten hedits path data hsource hdata hapart)
      have hdata : ∀ {offset : ℕ} {byte : UInt8}, data[offset]? = some byte → data ≠ [] := by
        rintro offset byte hbyte rfl
        cases hbyte
      rcases hget with ⟨hnone, hpieces⟩ | ⟨pieces, source', hpieces, hread, hnew⟩
      · rw [hnone, hpieces]
        refine ⟨(List.drop_zero).symm, fun offset byte rule hbyte => ?_⟩
        obtain ⟨place, hplace, hfound⟩ := found_relocated ⟨fun _ hnil => absurd hnil List.not_mem_nil, .nil⟩ .nil hbyte
        refine ⟨⟨plan.moved path, (placeOf data offset).1, (placeOf data offset).2, rule⟩, ?_, hmoved (hdata hbyte), rfl, ?_⟩
        · rw [spotAfter, hnone]
        · -- with no edit the file's own line and column are those of the new bytes
          have hlength : offset < data.length := (List.getElem?_eq_some_iff.mp hbyte).1
          refine ⟨fun _ => ⟨offset, ?_, ?_, rfl⟩, fun _ hnil => absurd hnil List.not_mem_nil⟩
          · simp [shifted, shiftedFrom]
          · change ((traced data).drop 0)[offset]? = _
            rw [List.drop_zero]
            exact traced_getElem? hbyte
      · obtain rfl := Option.some.inj (hread.symm.trans hsource)
        rw [hpieces, Option.getD_some] at hapart ⊢
        rw [hnew, Option.getD_some]
        refine ⟨rfl, fun offset byte rule hbyte => ?_⟩
        obtain ⟨place, hplace, hfound⟩ := found_relocated hapart (horder pieces hpieces) hbyte
        refine ⟨⟨plan.moved path, place.1, place.2, rule⟩, ?_, hmoved (hdata hbyte), rfl, hfound⟩
        rw [spotAfter, hnew]
        simp only [hsource, hpieces, Option.bind_eq_bind, Option.bind_some, Option.getD_some, hplace, Option.pure_def]
    · intro findings written edits spots hwritten hedits hspots
      refine ⟨OrderedMap.counted spots, ?_, ?_, fun spot => OrderedMap.get_counted spots spot⟩
      · rw [relocate, hwritten, hedits]
        simp only [Option.bind_eq_bind, Option.bind_some, hspots, Option.pure_def]
      · rw [OrderedMap.sum_counted]
        have hall := ListReading.mapM_eq_some_iff.mp hspots
        clear hspots
        induction hall with
        | nil => rfl
        | cons hfound _ ih =>
            obtain ⟨spot, -, rfl⟩ := Option.map_eq_some_iff.mp hfound
            rw [List.map_cons, List.map_cons, List.sum_cons, List.sum_cons, ih]

/-- A file to move into a folder, and the folder. -/
def shelvedProject : Project := FileTree.Tree.ofFiles [(["c.py"], utf8 "x\n".toList), (["a", "q.py"], utf8 "y\n".toList)]

/-- A file moved into a folder that the next rename takes along. -/
theorem follows_fails : ¬ ∀ (project : Project) (grammar : Grammar) (offers : List (List Edit)) (plan : Plan)
    (taken : List (List Edit)), Plan.offer project {} offers = some (plan, taken) → Follows project grammar plan := by
  intro hall
  have hfollows := hall shelvedProject ⟨fun _ => none, fun _ => none⟩
    [[.rename ["c.py"] ["a", "z.py"]], [.rename ["a"] ["b"]]]
    { renamed := [(["c.py"], ["a", "z.py"]), (["a"], ["b"])] }
    [[.rename ["c.py"] ["a", "z.py"]], [.rename ["a"] ["b"]]] (by decide +kernel)
  have hsettles := (follows_iff _ _ _).mp hfollows [] [] (by decide +kernel) (by decide +kernel) ["c.py"]
    (utf8 "x\n".toList) (by decide +kernel) (by decide +kernel) ⟨fun _ hnil => absurd hnil List.not_mem_nil, .nil⟩
  have hthrough : through [(["a"], ["b"])] (["a", "z.py"] : Place) = ["b", "z.py"] := by decide +kernel
  exact absurd (hthrough.symm.trans hsettles) (by decide)

end Plan

end Mainboard.Analysis
