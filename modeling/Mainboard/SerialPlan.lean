import Mainboard.ApplyPlan
import Mainboard.TextWeaving
import Mainboard.WriteSets

/-! A plan against its findings applied one after the other: each finding's byte edits at the bytes they were planned
on, its renames and its removals at where the findings before it left their places, and the imports last. Where that
goes through, no finding reaches into what one before it moved away, removed or put down, and no file's edits reach
past the next one's end, writing the plan ends and leaves the same tree. -/

namespace Mainboard.Analysis

open FileTree Sequence

/-- What one finding's edits do: byte edits, claims aside, renames and removals. -/
structure Finding where
  pieces : List TextEdit
  renames : List (Place × Place)
  removes : List Place
  deriving DecidableEq, Repr

/-- The findings of lists taken one after the other. -/
def findings (project : Project) : List Place → List (List Edit) → Option (List Finding)
  | _, [] => some []
  | created, edits :: taken => do
      let expanded ← Plan.expandAll project { created := created } edits
      let later ← findings project (created ++ edits.filterMap Edit.createdPath) taken
      return ⟨expanded.filter fun piece => !piece.claims, edits.filterMap Edit.renamePair,
        edits.filterMap Edit.removedPath⟩ :: later

/-- A path's bytes in the project, none where no file stands. -/
def contents (project : Project) (path : Place) : Bytes := match project.read path with
  | .ok data => data
  | .error _ => []

/-- The pieces of one path. -/
def piecesAt (pieces : List TextEdit) (path : Place) : List TextEdit := pieces.filter fun piece => piece.path = path

def paths (pieces : List TextEdit) : List Place := (pieces.map TextEdit.path).eraseDups

/-- The files a finding's pieces stand at, each with its edits so far applied one after the other. -/
def editedFiles (project : Project) (pieces : List TextEdit) (places : List Place) : List (Place × Bytes) :=
  places.map fun path => (path, editedBytes (contents project path) (piecesAt pieces path))

/-- The changes findings make one after the other, behind the pieces of those before them. -/
def serialCalls (project : Project) : List TextEdit → List Finding → List Change
  | _, [] => []
  | earlier, finding :: later =>
      let pieces := earlier ++ finding.pieces
      writeCalls (editedFiles project pieces (paths finding.pieces)) ++
        (renameCalls finding.renames ++ (removeCalls finding.removes ++ serialCalls project pieces later))

namespace Plan

/-- The byte edits of a plan, claims aside and its imports last. -/
def pieces (project : Project) (grammar : Grammar) (plan : Plan) : Option (List TextEdit) :=
  (imported project grammar plan).map fun imports => (plan.text ++ imports).filter fun piece => !piece.claims

/-- The changes of the lists a plan took, one after the other, and of its imports. -/
def serialChanges (project : Project) (grammar : Grammar) (plan : Plan) (taken : List (List Edit)) :
    Option (List Change) := do
  let imports ← imported project grammar plan
  let found ← findings project [] taken
  return serialCalls project [] (found ++ [⟨imports.filter fun piece => !piece.claims, [], []⟩])

end Plan

/-- Writing a plan ended and left the tree its changes leave one after the other, in which every edited file stands
with each of its edits and every renamed entry stands. -/
structure Serializable (project : Project) (grammar : Grammar) (plan : Plan) (pieces : List TextEdit)
    (serial : Sequence String Bytes) : Prop where
  ended : (plan.apply project grammar).raised = false
  same : (plan.apply project grammar).project.entry = serial.tree.entry
  edited : ∀ path ∈ paths pieces, (plan.apply project grammar).project.entry (now serial.renames path) =
    some (.file (editedBytes (contents project path) (piecesAt pieces path)))
  landed : ∀ place ∈ serial.landed, (plan.apply project grammar).project.entry place ≠ none

section Last

variable {project : Project} {pieces : List TextEdit} {places : List Place} {path : Place}

theorem last_append (writes others : List (Place × Bytes)) (path : Place) :
    last (writes ++ others) path = (last others path).or (last writes path) := by
  unfold last
  rw [OrderedMap.get_ofPairs, OrderedMap.get_ofPairs, OrderedMap.get_ofPairs, List.reverse_append, List.find?_append]
  cases others.reverse.find? fun pair => decide (pair.1 = path) <;> rfl

/-- What is last written at each of some places by their names. -/
theorem last_map (bytes : Place → Bytes) (places : List Place) (path : Place) :
    last (places.map fun path => (path, bytes path)) path = if path ∈ places then some (bytes path) else none := by
  induction places with
  | nil => rfl
  | cons place places ih =>
      rw [List.map_cons, last_cons, ih]
      by_cases hlate : path ∈ places
      · rw [if_pos hlate, if_pos (List.mem_cons_of_mem _ hlate)]
      · rw [if_neg hlate]
        by_cases hsame : place = path
        · rw [if_pos hsame, if_pos (hsame ▸ List.mem_cons_self), hsame]
        · rw [if_neg hsame, if_neg fun hmem => (List.mem_cons.mp hmem).elim (fun heq => hsame heq.symm) hlate]

theorem mem_paths : path ∈ paths pieces ↔ ∃ piece ∈ pieces, piece.path = path := by
  rw [paths, List.mem_eraseDups, List.mem_map]

theorem piecesAt_append (pieces more : List TextEdit) (path : Place) :
    piecesAt (pieces ++ more) path = piecesAt pieces path ++ piecesAt more path := List.filter_append ..

theorem piecesAt_of_not_mem (h : path ∉ paths pieces) : piecesAt pieces path = [] :=
  List.filter_eq_nil_iff.mpr fun piece hpiece heq =>
    h (mem_paths.mpr ⟨piece, hpiece, of_decide_eq_true heq⟩)

theorem written_writeCalls (writes : List (Place × Bytes)) : (writeCalls writes).filterMap Call.written = writes := by
  rw [writeCalls, List.filterMap_map]
  exact List.filterMap_some

theorem written_renameCalls (renames : List (Place × Place)) :
    (renameCalls renames : List Change).filterMap Call.written = [] := by
  rw [renameCalls, List.filterMap_map]
  exact List.filterMap_eq_nil_iff.mpr fun _ _ => rfl

theorem written_removeCalls (removes : List Place) :
    (removeCalls removes : List Change).filterMap Call.written = [] := by
  rw [removeCalls, List.filterMap_map]
  exact List.filterMap_eq_nil_iff.mpr fun _ _ => rfl

/-- The renames and the removals of findings made one after the other are theirs, in order. -/
theorem serialCalls_lists (found : List Finding) (earlier : List TextEdit) :
    (serialCalls project earlier found).filterMap Call.renamePair = found.flatMap Finding.renames ∧
      (serialCalls project earlier found).filterMap Call.removal = found.flatMap Finding.removes := by
  induction found generalizing earlier with
  | nil => exact ⟨rfl, rfl⟩
  | cons finding later ih =>
      obtain ⟨hrenames, hremoves⟩ := ih (earlier ++ finding.pieces)
      rw [serialCalls, List.flatMap_cons, List.flatMap_cons, ← hrenames, ← hremoves]
      simp only [List.filterMap_append, writeCalls, renameCalls, removeCalls, List.filterMap_map]
      have hnone : ∀ {α β : Type} (items : List α), items.filterMap (fun _ => (none : Option β)) = [] := fun items =>
        List.filterMap_eq_nil_iff.mpr fun _ _ => rfl
      constructor
      · rw [show Call.renamePair ∘ (fun entry : Place × Bytes => Call.write entry.1 entry.2) = fun _ => none from rfl,
          show Call.renamePair ∘ (Call.remove : Place → Change) = fun _ => none from rfl, hnone, hnone]
        exact congrArg (· ++ _) List.filterMap_some
      · rw [show Call.removal ∘ (fun entry : Place × Bytes => Call.write entry.1 entry.2) = fun _ => none from rfl,
          show Call.removal ∘ (fun entry : Place × Place => (Call.rename entry.1 entry.2 : Change)) = fun _ => none
            from rfl, hnone, hnone]
        exact congrArg (· ++ _) List.filterMap_some

/-- What findings made one after the other last write at a path: its bytes with all their edits at that path. -/
theorem last_serialCalls (found : List Finding) (earlier : List TextEdit) (path : Place) :
    last ((serialCalls project earlier found).filterMap Call.written) path =
      if path ∈ paths (found.flatMap Finding.pieces) then
        some (editedBytes (contents project path) (piecesAt (earlier ++ found.flatMap Finding.pieces) path))
      else none := by
  induction found generalizing earlier with
  | nil => rfl
  | cons finding later ih =>
      rw [serialCalls, List.filterMap_append, List.filterMap_append, List.filterMap_append, written_writeCalls,
        written_renameCalls, written_removeCalls, List.nil_append, List.nil_append, last_append, ih, editedFiles,
        last_map, List.flatMap_cons, ← List.append_assoc]
      have hmem : path ∈ paths (finding.pieces ++ later.flatMap Finding.pieces) ↔
          path ∈ paths finding.pieces ∨ path ∈ paths (later.flatMap Finding.pieces) := by
        simp only [mem_paths, List.mem_append, or_and_right, exists_or]
      by_cases hlate : path ∈ paths (later.flatMap Finding.pieces)
      · rw [if_pos hlate, if_pos (hmem.mpr (Or.inr hlate))]
        rfl
      · rw [if_neg hlate, Option.none_or]
        by_cases hnow : path ∈ paths finding.pieces
        · rw [if_pos hnow, if_pos (hmem.mpr (Or.inl hnow)), piecesAt_append (earlier ++ finding.pieces),
            piecesAt_of_not_mem hlate, List.append_nil]
        · rw [if_neg hnow, if_neg fun h => (hmem.mp h).elim hnow hlate]

end Last

section Taking

variable {project : Project} {plan : Plan} {created : List Place} {edits : List Edit} {taken : List (List Edit)}

theorem expandAll_congr (edits : List Edit) :
    Plan.expandAll project plan edits = Plan.expandAll project { created := plan.created } edits := by
  have hexpand : ∀ edit, Plan.expand project plan edit = Plan.expand project { created := plan.created } edit := by
    intro edit
    cases edit <;> rfl
  induction edits with
  | nil => rfl
  | cons edit edits ih =>
      rw [Plan.expandAll, Plan.expandAll, ih, hexpand]

/-- One more list taken is one more finding. -/
theorem findings_concat {found : List Finding} (h : findings project created taken = some found)
    {expanded : List TextEdit} (hexpanded : Plan.expandAll project
      { created := created ++ taken.flatten.filterMap Edit.createdPath } edits = some expanded) :
    findings project created (taken ++ [edits]) = some (found ++ [⟨expanded.filter fun piece => !piece.claims,
      edits.filterMap Edit.renamePair, edits.filterMap Edit.removedPath⟩]) := by
  induction taken generalizing created found with
  | nil =>
      cases h
      rw [List.flatten_nil, List.filterMap_nil, List.append_nil] at hexpanded
      simp [findings, hexpanded]
  | cons first taken ih =>
      simp only [findings, Option.bind_eq_bind, Option.bind_eq_some_iff] at h
      obtain ⟨pieces, hpieces, later, hlater, h⟩ := h
      cases h
      rw [List.flatten_cons, List.filterMap_append, ← List.append_assoc] at hexpanded
      simp [findings, hpieces, ih hlater hexpanded]

/-- What a plan holds, told by the findings of the lists it took. -/
structure Holds (project : Project) (plan : Plan) (taken : List (List Edit)) (found : List Finding) : Prop where
  reads : findings project [] taken = some found
  text : (plan.text.filter fun piece => !piece.claims) = found.flatMap Finding.pieces
  renamed : plan.renamed =
    found.foldl (fun renamed finding => OrderedMap.putAll renamed (OrderedMap.ofPairs finding.renames)) []
  removed : plan.removed = found.flatMap Finding.removes
  created : plan.created = taken.flatten.filterMap Edit.createdPath
  fresh : plan.Fresh project
  sources : ∀ piece ∈ plan.text, ∃ source, Plan.source project plan piece.path = some source

theorem source_taking {path : Place} {read : Source} {expanded : List TextEdit}
    (h : Plan.source project plan path = some read) :
    ∃ read, Plan.source project (plan.taking edits expanded) path = some read := by
  by_cases hcreated : path ∈ (plan.taking edits expanded).created
  · exact ⟨_, if_pos hcreated⟩
  · have hold : path ∉ plan.created := fun hmem => hcreated (List.mem_append_left _ hmem)
    refine ⟨read, ?_⟩
    unfold Plan.source at h ⊢
    rw [if_neg hold] at h
    rw [if_neg hcreated]
    exact h

/-- A list taken is one more finding. -/
theorem Holds.taking {found : List Finding} (h : Holds project plan taken found) {expanded : List TextEdit}
    (hexpanded : Plan.expandAll project plan edits = some expanded)
    (hfree : Plan.collides project plan edits expanded = false) :
    Holds project (plan.taking edits expanded) (taken ++ [edits]) (found ++ [⟨expanded.filter fun piece => !piece.claims,
      edits.filterMap Edit.renamePair, edits.filterMap Edit.removedPath⟩]) := by
  have hcreated := h.created
  refine ⟨findings_concat h.reads ?_, ?_, ?_, ?_, ?_, ?_, ?_⟩
  · rw [expandAll_congr, hcreated] at hexpanded
    exact hexpanded
  · rw [Plan.taking, List.filter_append, h.text, List.flatMap_append, List.flatMap_singleton]
  · rw [Plan.taking, h.renamed, List.foldl_append]
    rfl
  · rw [Plan.taking, h.removed, List.flatMap_append, List.flatMap_singleton]
  · rw [Plan.taking, hcreated, List.flatten_append, List.filterMap_append, List.flatten_singleton]
  · intro path hpath
    rcases List.mem_append.mp hpath with hold | hnew
    · exact h.fresh path hold
    · exact (Plan.absent_of_collides hfree).1 path hnew
  · intro piece hpiece
    rcases List.mem_append.mp hpiece with hold | hnew
    · obtain ⟨read, hread⟩ := h.sources piece hold
      exact source_taking hread
    · obtain ⟨edit, hedit, pieces, hpieces, hmem⟩ := (Plan.mem_expandAll hexpanded).mp hnew
      rcases Plan.expand_source hpieces piece hmem with ⟨read, hread⟩ | hmade
      · exact source_taking hread
      · exact ⟨⟨[]⟩, if_pos (List.mem_append_right _ (List.mem_filterMap.mpr ⟨edit, hedit, hmade⟩))⟩

theorem holds_offer {offers : List (List Edit)} (h : Plan.offer project {} offers = some (plan, taken)) :
    ∃ found, Holds project plan taken found := by
  have hdefer : ∀ (plan : Plan) (taken : List (List Edit)) (deferred : ℕ), (∃ found, Holds project plan taken found) →
      ∃ found, Holds project { plan with deferred } taken found := fun plan taken deferred ⟨found, hfound⟩ =>
    ⟨found, { hfound with }⟩
  have htake : ∀ (plan : Plan) (taken : List (List Edit)) (edits : List Edit) (expanded : List TextEdit),
      (∃ found, Holds project plan taken found) → Plan.anySealed project edits = some false →
      Plan.expandAll project plan edits = some expanded → Plan.collides project plan edits expanded = false →
      ∃ found, Holds project (plan.taking edits expanded) (taken ++ [edits]) found :=
    fun plan taken edits expanded ⟨found, hfound⟩ _ hexpanded hfree => ⟨_, hfound.taking hexpanded hfree⟩
  have hinit : ∃ found, Holds project {} [] found :=
    ⟨[], rfl, rfl, rfl, rfl, rfl, fun path hpath => (List.not_mem_nil hpath).elim,
      fun piece hpiece => (List.not_mem_nil hpiece).elim⟩
  exact Plan.offer_induct hdefer htake hinit h

/-- Renames of distinct paths are held in the order they were taken. -/
theorem renamed_of_nodup {found : List Finding} (renamed : List (Place × Place))
    (h : ((renamed ++ found.flatMap Finding.renames).map (·.1)).Nodup) :
    found.foldl (fun renamed finding => OrderedMap.putAll renamed (OrderedMap.ofPairs finding.renames)) renamed =
      renamed ++ found.flatMap Finding.renames := by
  induction found generalizing renamed with
  | nil => exact (List.append_nil renamed).symm
  | cons finding later ih =>
      rw [List.flatMap_cons, ← List.append_assoc] at h ⊢
      have hfirst : ((renamed ++ finding.renames).map (·.1)).Nodup := by
        rw [List.map_append] at h
        exact (List.nodup_append.mp h).1
      have hown : OrderedMap.ofPairs finding.renames = finding.renames := by
        have hpairs : ((([] : List (Place × Place)) ++ finding.renames).map (·.1)).Nodup := by
          rw [List.map_append] at hfirst
          exact (List.nodup_append.mp hfirst).2.1
        exact OrderedMap.putAll_of_nodup hpairs
      rw [List.foldl_cons, hown, OrderedMap.putAll_of_nodup hfirst]
      exact ih _ h

end Taking

section Leading

variable {t u : Project} {plan : Plan} {e : Standing String Bytes} {calls more : List Change}

theorem applyFrom_of_leads {changed : List Place} (h : Leads t calls e) :
    (plan.applyFrom t changed calls).raised = false ∧ (plan.applyFrom t changed calls).project.entry = e := by
  induction calls generalizing t changed with
  | nil => exact ⟨rfl, h⟩
  | cons call calls ih =>
      rw [Plan.applyFrom_cons, if_neg (Bool.eq_false_iff.mp h.1)]
      exact ih h.2

theorem Leads.split (h : Leads t (calls ++ more) e) : ∃ u : Project, Leads t calls u.entry ∧ Leads u more e := by
  induction calls generalizing t with
  | nil => exact ⟨t, rfl, h⟩
  | cons call calls ih =>
      obtain ⟨u, hu, hmore⟩ := ih h.2
      exact ⟨u, ⟨h.1, hu⟩, hmore⟩

theorem Leads.join (hmore : ∀ call ∈ more, call.Proper) (h : Leads t calls u.entry) (hu : Leads u more e) :
    Leads t (calls ++ more) e := by
  induction calls generalizing t with
  | nil => exact hu.congr hmore (Eq.symm h)
  | cons call calls ih => exact ⟨h.1, ih h.2⟩

end Leading

section Serial

variable {project : Project} {grammar : Grammar} {plan : Plan} {taken : List (List Edit)} {found : List Finding}
  {imports : List TextEdit}

/-- A path a plan read stands with its contents in the project. -/
theorem source_contents (hfresh : plan.Fresh project) {path : Place} {read : Source}
    (h : Plan.source project plan path = some read) : Plan.source project plan path = some ⟨contents project path⟩ := by
  unfold Plan.source at h ⊢
  unfold contents
  split
  · rename_i hcreated
    unfold FileTree.Tree.read
    rw [hfresh path hcreated]
  · rename_i hcreated
    rw [if_neg hcreated] at h
    cases hread : project.read path with
    | ok data => rfl
    | error refusal =>
        rw [hread] at h
        cases refusal <;> first | rfl | cases h

/-- What a plan holds is what its findings say, the imports among them last. -/
theorem Holds.pieces (h : Holds project plan taken found) :
    (plan.text ++ imports).filter (fun piece => !piece.claims) =
      (found ++ [(⟨imports.filter fun piece => !piece.claims, [], []⟩ : Finding)]).flatMap Finding.pieces := by
  rw [List.filter_append, h.text, List.flatMap_append, List.flatMap_singleton]

/-- The files a plan writes, where no file's edits reach past the next one's end. -/
theorem Holds.written (h : Holds project plan taken found)
    (himports : Plan.imported project grammar plan = some imports) {pieces : List TextEdit}
    (hpieces : (plan.text ++ imports).filter (fun piece => !piece.claims) = pieces)
    (hparted : ∀ path, Parted (coveredBy (piecesAt pieces path)) (contents project path).length
      (Plan.fileOrder (piecesAt pieces path))) :
    plan.written project grammar = some (editedFiles project pieces (paths pieces)) := by
  have hsources : ∀ piece ∈ (plan.text ++ imports).filter fun piece => !piece.claims,
      Plan.source project plan piece.path = some ⟨contents project piece.path⟩ := by
    intro piece hpiece
    obtain ⟨read, hread⟩ : ∃ read, Plan.source project plan piece.path = some read := by
      rcases List.mem_append.mp (List.mem_filter.mp hpiece).1 with htext | himport
      · exact h.sources piece htext
      · exact Plan.imports_source himports piece himport
    exact source_contents h.fresh hread
  rw [Plan.written_of_sources himports hsources, hpieces]
  refine congrArg some (List.map_congr_left fun path _ => ?_)
  exact congrArg (Prod.mk path) (splicedFrom_edited (hparted path))

/-- Writing a plan's files, then its renames and removals, is what a sound sequence of the same calls has left. -/
theorem applied_of_sound {serial : Sequence String Bytes} {written : List (Place × Bytes)}
    (hsound : Sequence.Sound project serial) (hwritten : plan.written project grammar = some written)
    (hlast : ∀ path, last serial.writes path = last written path) (hrenames : serial.renames = plan.renamed)
    (hremoved : serial.removed = plan.removed) : (plan.apply project grammar).raised = false ∧
      (plan.apply project grammar).project.entry = serial.tree.entry := by
  have hplaces : ∀ path, path ∈ serial.writes.map (·.1) ↔ path ∈ written.map (·.1) := fun path => by
    have hnone : last serial.writes path = none ↔ path ∉ serial.writes.map (·.1) := last_eq_none_iff
    rw [hlast, last_eq_none_iff] at hnone
    exact not_iff_not.mp hnone.symm
  obtain ⟨middle, hwrites, hrest⟩ := Leads.split hsound.leads
  have hproper : ∀ call ∈ (renameCalls serial.renames ++ removeCalls serial.removed : List Change), call.Proper :=
    fun call hcall => (List.mem_append.mp hcall).elim (proper_renameCalls hsound.proper call)
      (proper_removeCalls call)
  have hleads := Leads.join hproper (hwrites.rewrite hplaces hlast) hrest
  rw [hrenames, hremoved] at hleads
  unfold Plan.apply
  rw [hwritten]
  dsimp only
  rw [Plan.changes, List.append_assoc]
  exact applyFrom_of_leads hleads

/-- A plan whose changes go through one after the other, each keeping apart from those before it, is written to the
same tree, with every accepted edit in it. -/
theorem plan_serializable (project : Project) (grammar : Grammar) {offers : List (List Edit)} {plan : Plan}
    {taken : List (List Edit)} (h : Plan.offer project {} offers = some (plan, taken)) {changes : List Change}
    (hchanges : plan.serialChanges project grammar taken = some changes)
    (hraised : (Runs.run Sequence.step { tree := project } changes).raised = false)
    (hapart : Runs.Each Sequence.step Sequence.Apart { tree := project } changes) {pieces : List TextEdit}
    (hpieces : plan.pieces project grammar = some pieces)
    (hparted : ∀ path, Parted (coveredBy (piecesAt pieces path)) (contents project path).length
      (Plan.fileOrder (piecesAt pieces path))) :
    Serializable project grammar plan pieces (Runs.run Sequence.step { tree := project } changes) := by
  obtain ⟨found, hholds⟩ := holds_offer h
  simp only [Plan.serialChanges, Option.bind_eq_bind, Option.bind_eq_some_iff] at hchanges
  obtain ⟨imports, himports, found', hfound, hchanges⟩ := hchanges
  obtain rfl : found = found' := Option.some.inj (hholds.reads.symm.trans hfound)
  obtain rfl := Option.some.inj hchanges
  obtain rfl : (plan.text ++ imports).filter (fun piece => !piece.claims) = pieces := by
    rw [Plan.pieces, himports] at hpieces
    exact Option.some.inj hpieces
  have hwritten := hholds.written himports rfl hparted
  have hsound := Sequence.sound_run hapart hraised
  obtain ⟨hwrites, hrenames, hremoved⟩ := Sequence.run_lists hapart hraised
  generalize Runs.run Sequence.step { tree := project } _ = serial at hsound hwrites hrenames hremoved ⊢
  rw [List.nil_append] at hwrites hrenames hremoved
  rw [(serialCalls_lists _ _).1, List.flatMap_append, List.flatMap_singleton, List.append_nil] at hrenames
  rw [(serialCalls_lists _ _).2, List.flatMap_append, List.flatMap_singleton, List.append_nil] at hremoved
  have hlast : ∀ path, last serial.writes path =
      if path ∈ paths ((plan.text ++ imports).filter fun piece => !piece.claims) then
        some (editedBytes (contents project path)
          (piecesAt ((plan.text ++ imports).filter fun piece => !piece.claims) path)) else none := fun path => by
    rw [hwrites, last_serialCalls, ← hholds.pieces, List.nil_append]
  have hplanned : serial.renames = plan.renamed := by
    have hdistinct := hsound.distinct
    rw [hrenames] at hdistinct
    rw [hrenames, hholds.renamed]
    exact (renamed_of_nodup [] hdistinct).symm
  obtain ⟨hended, hsame⟩ := applied_of_sound hsound hwritten (fun path => by rw [hlast, editedFiles, last_map]) hplanned
    (hremoved.trans hholds.removed.symm)
  refine ⟨hended, hsame, fun path hpath => ?_, fun place hplace => ?_⟩
  · rw [hsame]
    exact hsound.stands path _ ((hlast path).trans (if_pos hpath))
  · rw [hsame]
    exact hsound.landed place hplace

/-- A module with an import, and a file to rename. -/
def importingProject : Project := FileTree.Tree.ofFiles
  [(["m.py"], utf8 "import a\nx\n".toList), (["n.py"], utf8 "y\n".toList)]

/-- How that module and the statement added to it parse. -/
def importingGrammar : Grammar where
  parse data := if data = utf8 "import a\nx\n".toList then
      some [⟨.imports [⟨['a'], none⟩], some 1⟩, ⟨.other, some 2⟩]
    else none
  parseText text := if text = "import b".toList then some [⟨.imports [⟨['b'], none⟩], some 1⟩] else none

/-- A line deleted, an import added before it and another file renamed. -/
theorem plan_serializable_renaming :
    let plan : Plan := { text := [⟨["m.py"], 9, 11, [], false, false⟩], renamed := [(["n.py"], ["k.py"])],
                         imports := [(["m.py"], ["import b".toList])] }
    let changes : List Change := [.write ["m.py"] (utf8 "import a\n".toList), .rename ["n.py"] ["k.py"],
      .write ["m.py"] (utf8 "import a\nimport b\n".toList)]
    Serializable importingProject importingGrammar plan
      [⟨["m.py"], 9, 11, [], false, false⟩, ⟨["m.py"], 9, 9, utf8 "import b\n".toList, false, false⟩]
      (Runs.run Sequence.step { tree := importingProject } changes) := by
  refine plan_serializable importingProject importingGrammar
    (by decide +kernel : Plan.offer importingProject {} [[.delete { path := ["m.py"], startLine := 2 }],
        [.rename ["n.py"] ["k.py"], .imports ["m.py"] "import b".toList]] =
      some ({ text := [⟨["m.py"], 9, 11, [], false, false⟩], renamed := [(["n.py"], ["k.py"])],
              imports := [(["m.py"], ["import b".toList])] },
        [[.delete { path := ["m.py"], startLine := 2 }], [.rename ["n.py"] ["k.py"], .imports ["m.py"] "import b".toList]]))
    (by decide +kernel) (by decide +kernel) (by decide +kernel) (by decide +kernel) fun path => ?_
  by_cases hpath : ["m.py"] = path
  · subst hpath
    have horder : Plan.fileOrder (piecesAt [⟨["m.py"], 9, 11, [], false, false⟩,
        ⟨["m.py"], 9, 9, utf8 "import b\n".toList, false, false⟩] ["m.py"]) =
        [⟨["m.py"], 9, 9, utf8 "import b\n".toList, false, false⟩, ⟨["m.py"], 9, 11, [], false, false⟩] := by
      decide +kernel
    have hlength : (contents importingProject ["m.py"]).length = 11 := by decide +kernel
    rw [horder, hlength]
    refine ⟨Nat.le_refl _, fun offset hge hlt hnext => ?_, by decide, fun offset hge hlt _ => ?_, trivial⟩
    · exact absurd (hnext _ rfl) (Nat.not_lt.mpr hge)
    · exact absurd hlt (Nat.not_lt.mpr hge)
  · rw [piecesAt_of_not_mem fun hmem => ?_]
    · trivial
    · rw [mem_paths] at hmem
      obtain ⟨piece, hpiece, rfl⟩ := hmem
      revert hpath
      rcases List.mem_pair.mp hpiece with rfl | rfl <;> exact fun hpath => hpath rfl

/-- The lines an import and the statement behind it stand on deleted, and an import added: it goes where the import
stood, in the middle of what was deleted, and brings the other line back. -/
theorem plan_serializable_fails :
    let plan : Plan := { text := [⟨["m.py"], 0, 11, [], false, false⟩],
                         imports := [(["m.py"], ["import b".toList])] }
    let taken : List (List Edit) := [[.delete { path := ["m.py"], startLine := 1, endLine := some 2 }],
      [.imports ["m.py"] "import b".toList]]
    Plan.offer importingProject {} taken = some (plan, taken) ∧
      (plan.apply importingProject importingGrammar).raised = false ∧
      (plan.apply importingProject importingGrammar).project.entry ["m.py"] =
        some (.file (utf8 "import b\nx\n".toList)) ∧
      ∃ changes, plan.serialChanges importingProject importingGrammar taken = some changes ∧
        (Runs.run Sequence.step { tree := importingProject } changes).raised = false ∧
        (Runs.run Sequence.step { tree := importingProject } changes).tree.entry ["m.py"] =
          some (.file (utf8 "import b\n".toList)) := by
  refine ⟨by decide +kernel, by decide +kernel, by decide +kernel,
    [.write ["m.py"] [], .write ["m.py"] (utf8 "import b\n".toList)], by decide +kernel, by decide +kernel,
    by decide +kernel⟩

end Serial

end Mainboard.Analysis
