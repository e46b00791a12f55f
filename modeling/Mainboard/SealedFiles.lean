import Mathlib.Algebra.Order.BigOperators.Group.List
import Mathlib.Algebra.Order.Ring.Nat
import Mainboard.PlanTaking
import Mainboard.ApplyPlan

/-! Whether a plan leaves every sealed file at its path with its bytes. The guard asks about the one path an edit
names, so what is taken leaves them as far as no folder that is or holds a registered node is removed or renamed, and
no move puts lines into a sealed file: its other end is a path the guard does not ask about. -/

namespace Mainboard.Analysis

/-- Every sealed file stands at its path with its bytes. -/
def Untouched (project after : Project) : Prop :=
  ∀ path data, Sealed.Seals project path → project.entry path = some (.file data) →
    after.entry path = some (.file data)

/-- The edit reaches no sealed file past the path it names: it removes or renames no folder that is a registered node
or holds one, and moves no line into a sealed file. -/
def Edit.Spares (project : Project) : Edit → Prop
  | .remove path | .rename path _ => ∀ folder, path <+: folder → Sealed.registers project folder ≠ some true
  | .move span before after => ∀ landing contents, anchor before after = some landing →
      Sealed.Seals project landing.path → project.entry landing.path = some (.file contents) →
        ∀ data, project.entry span.path = some (.file data) → Plan.movedText ⟨data⟩ span = some []
  | _ => True

namespace Plan

/-- What a move inserts: one piece at its anchor's path that covers no byte, blank where no line was moved. -/
def Landed (project : Project) (span : Span) (before after : Option Span) (piece : TextEdit) : Prop :=
  ∃ landing source' moved, anchor before after = some landing ∧ piece.path = landing.path ∧
    piece.stop = piece.start ∧ piece.claims = false ∧ (piece.text = [] ↔ moved = []) ∧
    movedText source' span = some moved ∧
    (∀ data, project.entry span.path = some (.file data) → source'.data = data) ∧
    ((∀ data, project.entry span.path ≠ some (.file data)) → source'.data = [])

/-- What the plan holds is what the lists it took say, and each of their edits names an open path. -/
structure Account (project : Project) (plan : Plan) (taken : List (List Edit)) : Prop where
  fresh : plan.Fresh project
  opened : ∀ edit ∈ taken.flatten, ∃ path, edit.file = some path ∧ ¬ Sealed.Seals project path
  text : ∀ piece ∈ plan.text, Sealed.Seals project piece.path →
    ∃ span before after, .move span before after ∈ taken.flatten ∧ Landed project span before after piece
  landed : ∀ span before after, .move span before after ∈ taken.flatten →
    ∃ piece ∈ plan.text, Landed project span before after piece
  renamed : ∀ entry ∈ plan.renamed, .rename entry.1 entry.2 ∈ taken.flatten ∧ project.entry entry.2 = none
  renames : ∀ path target, .rename path target ∈ taken.flatten → path ∈ plan.renamed.map (·.1)
  removed : ∀ path, path ∈ plan.removed ↔ .remove path ∈ taken.flatten
  imports : ∀ path ∈ plan.imports.map (·.1), ¬ Sealed.Seals project path

variable {project : Project} {grammar : Grammar} {plan : Plan} {taken : List (List Edit)} {edits : List Edit}
  {expanded : List TextEdit}

theorem movedText_nil {source' : Source} {span : Span} {moved : Text} (hdata : source'.data = [])
    (h : movedText source' span = some moved) : moved = [] := by
  simp only [movedText, Option.bind_eq_bind, Option.bind_eq_some_iff] at h
  obtain ⟨range, -, indent, -, lines, hlines, h⟩ := h
  rw [hdata, slice, List.take_nil, List.drop_nil] at hlines
  cases hlines
  cases h
  rfl

/-- What a move inserts is blank exactly where its span holds no line. -/
theorem Landed.blank {span : Span} {before after : Option Span} {piece : TextEdit}
    (h : Landed project span before after piece) :
    piece.text = [] ↔ ∀ data, project.entry span.path = some (.file data) → movedText ⟨data⟩ span = some [] := by
  obtain ⟨landing, source', moved, -, -, -, -, htext, hmoved, hfile, hother⟩ := h
  refine htext.trans ⟨fun hblank data hdata => ?_, fun hblank => ?_⟩
  · obtain rfl := hfile data hdata
    rw [← hblank]
    exact hmoved
  · by_cases hnone : ∀ data, project.entry span.path ≠ some (.file data)
    · exact movedText_nil (hother hnone) hmoved
    · push Not at hnone
      obtain ⟨data, hdata⟩ := hnone
      obtain rfl := hfile data hdata
      exact Option.some.inj (hmoved.symm.trans (hblank _ hdata))

/-- A move that expands inserts one piece where it lands, and its other piece stands at its own path. -/
theorem landed_of_expand (hfresh : plan.Fresh project) {span : Span} {before after : Option Span}
    {pieces : List TextEdit} (h : expand project plan (.move span before after) = some pieces) :
    ∃ first piece, first.path = span.path ∧ pieces = [first, piece] ∧ Landed project span before after piece := by
  simp only [expand, Option.bind_eq_bind, Option.bind_eq_some_iff] at h
  obtain ⟨source', hsource, range, -, moved, hmoved, landed, hland, h⟩ := h
  cases h
  obtain ⟨landing, piece, hlanding, rfl, hpath, hstop, hclaims, htext⟩ := inserted_eq hland
  refine ⟨_, piece, rfl, rfl, landing, source', moved, hlanding, hpath, hstop, hclaims, htext, hmoved, ?_, ?_⟩
  · intro data hdata
    rw [source_file hfresh hdata] at hsource
    exact (Option.some.inj hsource) ▸ rfl
  · exact source_other hsource

/-- A list taken keeps the account. -/
theorem Account.taking (h : Account project plan taken) (hsealed : anySealed project edits = some false)
    (hexpanded : expandAll project plan edits = some expanded) (hfree : collides project plan edits expanded = false) :
    Account project (plan.taking edits expanded) (taken ++ [edits]) := by
  have hflatten : ∀ edit, edit ∈ (taken ++ [edits]).flatten ↔ edit ∈ taken.flatten ∨ edit ∈ edits := fun edit => by
    rw [List.flatten_append, List.flatten_singleton, List.mem_append]
  have hopen := anySealed_of_false hsealed
  obtain ⟨hmade, htargets⟩ := absent_of_collides hfree
  refine ⟨?_, ?_, ?_, ?_, ?_, ?_, ?_, ?_⟩
  · intro path hpath
    rcases List.mem_append.mp hpath with hold | hnew
    · exact h.fresh path hold
    · exact hmade path hnew
  · intro edit hedit
    exact ((hflatten edit).mp hedit).elim (h.opened edit) (hopen edit)
  · intro piece hpiece hseals
    rcases List.mem_append.mp hpiece with hold | hnew
    · obtain ⟨span, before, after, hmove, hlanded⟩ := h.text piece hold hseals
      exact ⟨span, before, after, (hflatten _).mpr (Or.inl hmove), hlanded⟩
    · obtain ⟨edit, hedit, pieces, hpieces, hmem⟩ := (mem_expandAll hexpanded).mp hnew
      obtain ⟨path, hfile, hnot⟩ := hopen edit hedit
      rcases expand_eq hpieces with hsame | ⟨span, before, after, rfl⟩
      · have hpath := Option.some.inj (hfile.symm.trans (hsame piece hmem))
        exact absurd (hpath ▸ hseals) hnot
      · obtain ⟨first, landed, hfirst, rfl, hlanded⟩ := landed_of_expand h.fresh hpieces
        rcases List.mem_cons.mp hmem with rfl | hlast
        · have hpath := Option.some.inj hfile
          exact absurd (hpath ▸ hfirst ▸ hseals) hnot
        · exact ⟨span, before, after, (hflatten _).mpr (Or.inr hedit), List.mem_singleton.mp hlast ▸ hlanded⟩
  · intro span before after hmove
    rcases (hflatten _).mp hmove with hold | hnew
    · obtain ⟨piece, hpiece, hlanded⟩ := h.landed span before after hold
      exact ⟨piece, List.mem_append_left _ hpiece, hlanded⟩
    · obtain ⟨pieces, hpieces⟩ := exists_expand hexpanded _ hnew
      obtain ⟨first, piece, -, rfl, hlanded⟩ := landed_of_expand h.fresh hpieces
      refine ⟨piece, List.mem_append_right _ ((mem_expandAll hexpanded).mpr ⟨_, hnew, _, hpieces, ?_⟩), hlanded⟩
      exact List.mem_cons_of_mem _ List.mem_cons_self
  · intro entry hentry
    rcases OrderedMap.mem_of_mem_putAll hentry with hnew | hold
    · have hpair := (OrderedMap.mem_of_mem_putAll hnew).resolve_right List.not_mem_nil
      have hedit := mem_renamePair.mp hpair
      exact ⟨(hflatten _).mpr (Or.inr hedit), htargets entry hpair⟩
    · exact ⟨(hflatten _).mpr (Or.inl (h.renamed entry hold).1), (h.renamed entry hold).2⟩
  · intro path target hrename
    refine OrderedMap.mem_keys_putAll.mpr ?_
    rcases (hflatten _).mp hrename with hold | hnew
    · exact Or.inr (h.renames path target hold)
    · refine Or.inl (OrderedMap.mem_keys_putAll.mpr (Or.inl (List.mem_map.mpr ⟨(path, target), ?_, rfl⟩)))
      exact mem_renamePair.mpr hnew
  · intro path
    rw [hflatten, ← h.removed, ← mem_removedPath]
    exact List.mem_append
  · intro path hpath
    rcases mem_keys_imports hpath with hold | ⟨statement, hnew⟩
    · exact h.imports path hold
    · obtain ⟨other, hother, hnot⟩ := hopen _ hnew
      exact Option.some.inj hother ▸ hnot

/-- The account holds of every plan a sequence of offers leaves. -/
theorem account_offer {offers : List (List Edit)} (h : offer project {} offers = some (plan, taken)) :
    Account project plan taken := by
  have hinit : Account project {} [] := by
    refine ⟨?_, ?_, ?_, ?_, ?_, ?_, ?_, ?_⟩ <;> simp [Fresh]
  refine offer_induct (fun plan taken deferred hplan => ?_) (fun plan taken edits expanded hplan => ?_) hinit h
  · exact { hplan with }
  · exact hplan.taking

variable {imports : List TextEdit} {path : Place} {data : Bytes}

/-- Only moves write a piece into a sealed file. -/
theorem Account.sealed_pieces (h : Account project plan taken) (himports : imported project grammar plan = some imports)
    (hseals : Sealed.Seals project path) {contents : Bytes} {pieces : List TextEdit}
    (hwritten : Written project plan imports path contents pieces) :
    ∀ piece ∈ pieces, ∃ span before after, .move span before after ∈ taken.flatten ∧
      Landed project span before after piece := by
  intro piece hpiece
  obtain ⟨hmem, -, rfl⟩ := (hwritten.mem piece).mp hpiece
  rcases hmem with htext | himport
  · exact h.text piece htext hseals
  · exact absurd hseals (h.imports _ (path_mem_imports himports piece himport))

/-- A place that names nothing above a sealed file and is no part of a registered node holds no sealed file. -/
theorem not_prefix_of_spares {other : Place} (hopen : ¬ Sealed.Seals project other)
    (hspares : ∀ folder, other <+: folder → Sealed.registers project folder ≠ some true)
    (hseals : Sealed.Seals project path) : ¬ other <+: path := by
  intro hlead
  obtain ⟨folder, hfolder, hregistered⟩ := hseals
  obtain ⟨habove, -⟩ := FileTree.mem_above.mp hfolder
  rcases List.prefix_or_prefix_of_prefix hlead habove with hunder | hover
  · exact hspares folder hunder hregistered
  · by_cases hsame : folder = other
    · exact hspares folder (hsame ▸ List.prefix_refl _) hregistered
    · exact hopen ⟨folder, FileTree.mem_above.mpr ⟨hover, hsame⟩, hregistered⟩

/-- A rename never lands above a file of the project. -/
theorem Account.target_free (h : Account project plan taken) (hdata : project.entry path = some (.file data)) :
    ∀ entry ∈ plan.renamed, ¬ entry.2 <+: path := by
  intro entry hentry hlead
  refine project.entry_of_prefix hlead ?_ (h.renamed entry hentry).2
  rw [hdata]
  exact Option.some_ne_none _

/-- Where every edit taken spares the sealed files, every change keeps each of them. -/
theorem Account.keeps (h : Account project plan taken) (hspares : ∀ edit ∈ taken.flatten, edit.Spares project)
    {written : List (Place × Bytes)} (hwritten : plan.written project grammar = some written)
    (hseals : Sealed.Seals project path) (hdata : project.entry path = some (.file data)) :
    ∀ change ∈ plan.changes written, change.Keeps path data := by
  have hopen : ∀ edit ∈ taken.flatten, ∀ other, edit.file = some other → ¬ Sealed.Seals project other := by
    intro edit hedit other hother
    obtain ⟨file, hfile, hnot⟩ := h.opened edit hedit
    exact Option.some.inj (hfile.symm.trans hother) ▸ hnot
  intro change hchange
  simp only [changes, List.mem_append, List.mem_map] at hchange
  rcases hchange with (⟨entry, hentry, rfl⟩ | ⟨entry, hentry, rfl⟩) | ⟨other, hother, rfl⟩
  · intro hpath
    obtain ⟨imports, himports, hpieces, -⟩ := written_eq hwritten
    obtain ⟨pieces, hmade⟩ := hpieces entry hentry
    rw [hpath] at hmade
    have hblank : ∀ piece ∈ pieces, piece.stop = piece.start ∧ piece.text = [] := by
      intro piece hpiece
      obtain ⟨span, before, after, hmove, hlanded⟩ := h.sealed_pieces himports hseals hmade piece hpiece
      have hspared := hspares _ hmove
      refine ⟨?_, hlanded.blank.mpr fun bytes hbytes => ?_⟩
      · obtain ⟨landing, source', moved, -, -, hstop, -⟩ := hlanded
        exact hstop
      · obtain ⟨landing, source', moved, hanchor, hlanding, -⟩ := hlanded
        have hsame : landing.path = path := hlanding.symm.trans ((hmade.mem piece).mp hpiece).2.2
        exact hspared landing data hanchor (hsame ▸ hseals) (hsame ▸ hdata) bytes hbytes
    obtain ⟨source', hsource, hbytes⟩ := hmade.bytes
    rw [source_file h.fresh hdata] at hsource
    obtain rfl := Option.some.inj hsource
    rw [hbytes, splicedFrom_blank hblank hmade.starts, List.drop_zero]
  · have hedit := (h.renamed entry hentry).1
    exact ⟨not_prefix_of_spares (hopen _ hedit _ rfl) (hspares _ hedit) hseals, h.target_free hdata entry hentry⟩
  · have hedit := (h.removed other).mp hother
    exact not_prefix_of_spares (hopen _ hedit _ rfl) (hspares _ hedit) hseals

/-- A file whose bytes a change took, before changes that write nothing, is not back when they are done. -/
theorem Account.lost (h : Account project plan taken) (hdata : project.entry path = some (.file data))
    {written : List (Place × Bytes)} (change : Change) (before after : List Change)
    (hsplit : plan.changes written = before ++ change :: after)
    (hafter : ∀ later ∈ after, ∀ other contents, later = .write other contents → other = path → contents ≠ data)
    (hmade : ∀ tree : Project, (change.make tree).raised = false →
      (change.make tree).tree.entry path ≠ some (.file data))
    (hraised : (plan.applyFrom project [] (plan.changes written)).raised = false) :
    (plan.applyFrom project [] (plan.changes written)).project.entry path ≠ some (.file data) := by
  rw [hsplit] at hraised ⊢
  obtain ⟨tree, more, hdone, heq⟩ := applyFrom_append hraised
  rw [heq]
  refine applyFrom_preserves (fun tree => tree.entry path ≠ _) (FileTree.Call.Leaves path data)
    (fun _ _ hleaves => FileTree.Call.leaves_make hleaves) (fun later hlater => ?_) (hmade tree hdone)
  have hmem : later ∈ plan.changes written := hsplit ▸ List.mem_append_right _ (List.mem_cons_of_mem _ hlater)
  simp only [changes, List.mem_append, List.mem_map] at hmem
  rcases hmem with (⟨entry, -, rfl⟩ | ⟨entry, hentry, rfl⟩) | ⟨other, -, rfl⟩
  · exact hafter _ hlater _ _ rfl
  · exact h.target_free hdata entry hentry
  · trivial

/-- A sealed file that a move puts a line into is written with other bytes. -/
theorem Account.written_ne (h : Account project plan taken) (himports : imported project grammar plan = some imports)
    (hseals : Sealed.Seals project path) (hdata : project.entry path = some (.file data)) {piece : TextEdit}
    (hpiece : piece ∈ plan.text) (hclaims : piece.claims = false) (hpath : piece.path = path)
    (htext : piece.text ≠ []) {contents : Bytes} {pieces : List TextEdit}
    (hwritten : Written project plan imports path contents pieces) : contents ≠ data := by
  obtain ⟨source', hsource, hbytes⟩ := hwritten.bytes
  rw [source_file h.fresh hdata] at hsource
  obtain rfl := Option.some.inj hsource
  have hstop : ∀ piece ∈ pieces, piece.stop = piece.start := fun piece hmem => by
    obtain ⟨span, before, after, -, landing, source', moved, -, -, hstop, -⟩ :=
      h.sealed_pieces himports hseals hwritten piece hmem
    exact hstop
  have hlength : (splicedFrom data 0 pieces).length = _ := length_splicedFrom hstop hwritten.starts
  rw [← hbytes, Nat.sub_zero] at hlength
  have hmem : piece ∈ pieces := (hwritten.mem piece).mpr ⟨Or.inl hpiece, hclaims, hpath⟩
  have hlong : piece.text.length ≤ (pieces.map fun edit => edit.text.length).sum :=
    List.single_le_sum (fun _ _ => Nat.zero_le _) _ (List.mem_map_of_mem hmem)
  have hsome : 0 < piece.text.length := List.length_pos_of_ne_nil htext
  rintro rfl
  omega

/-- Where a plan was written to its end and left every sealed file alone, every edit it took spares them. -/
theorem Account.spares (h : Account project plan taken) {written : List (Place × Bytes)}
    (hwritten : plan.written project grammar = some written)
    (hraised : (plan.applyFrom project [] (plan.changes written)).raised = false)
    (huntouched : Untouched project (plan.applyFrom project [] (plan.changes written)).project) :
    ∀ edit ∈ taken.flatten, edit.Spares project := by
  intro edit hedit
  cases edit with
  | remove path =>
      intro folder hlead hregistered
      obtain ⟨data, hdata⟩ := Sealed.isFile_of_registers hregistered
      have hnode : path <+: folder ++ ["node.md"] := hlead.trans (List.prefix_append _ _)
      obtain ⟨earlier, later, hsplit⟩ := List.append_of_mem ((h.removed path).mpr hedit)
      refine h.lost hdata (.remove path) (written.map (fun entry => .write entry.1 entry.2) ++
          plan.renamed.map (fun entry => .rename entry.1 entry.2) ++ earlier.map .remove) (later.map .remove)
        ?_ ?_ (fun tree hmade => ?_) hraised (huntouched _ _ (Sealed.seals_node hregistered) hdata)
      · rw [changes, hsplit, List.map_append, List.map_cons, ← List.append_assoc]
      · intro change hchange other contents heq
        obtain ⟨_, -, rfl⟩ := List.mem_map.mp hchange
        cases heq
      · rw [FileTree.Call.made_remove hmade hnode]
        exact fun heq => by cases heq
  | rename path target =>
      intro folder hlead hregistered
      obtain ⟨data, hdata⟩ := Sealed.isFile_of_registers hregistered
      have hnode : path <+: folder ++ ["node.md"] := hlead.trans (List.prefix_append _ _)
      obtain ⟨⟨old, new⟩, hentry, hold⟩ := List.mem_map.mp (h.renames path target hedit)
      obtain rfl : old = path := hold
      obtain ⟨earlier, later, hsplit⟩ := List.append_of_mem hentry
      refine h.lost hdata (.rename old new)
        (written.map (fun entry => .write entry.1 entry.2) ++ earlier.map fun entry => .rename entry.1 entry.2)
        (later.map (fun entry => .rename entry.1 entry.2) ++ plan.removed.map .remove)
        ?_ ?_ (fun tree hmade => ?_) hraised (huntouched _ _ (Sealed.seals_node hregistered) hdata)
      · rw [changes, hsplit, List.map_append, List.map_cons]
        simp only [List.append_assoc, List.cons_append]
      · intro change hchange other contents heq
        rcases List.mem_append.mp hchange with hrename | hremove
        · obtain ⟨_, -, rfl⟩ := List.mem_map.mp hrename
          cases heq
        · obtain ⟨_, -, rfl⟩ := List.mem_map.mp hremove
          cases heq
      · rw [FileTree.Call.made_rename hmade hnode (h.target_free hdata _ hentry)]
        exact fun heq => by cases heq
  | move span before after =>
      intro landing contents hanchor hseals hcontents
      obtain ⟨piece, hpiece, hlanded⟩ := h.landed span before after hedit
      by_contra hmoved
      have htext : piece.text ≠ [] := fun hblank => hmoved (hlanded.blank.mp hblank)
      obtain ⟨other, source', moved, hother, hpath, -, hclaims, -⟩ := hlanded
      obtain rfl := Option.some.inj (hanchor.symm.trans hother)
      obtain ⟨imports, himports, hpieces, hpaths⟩ := written_eq hwritten
      have hne : ∀ entry ∈ written, entry.1 = landing.path → entry.2 ≠ contents := by
        intro entry hentry hsame
        obtain ⟨pieces, hmade⟩ := hpieces entry hentry
        rw [hsame] at hmade
        exact h.written_ne himports hseals hcontents hpiece hclaims hpath htext hmade
      obtain ⟨⟨place, bytes⟩, hentry, hplace⟩ :=
        List.mem_map.mp ((hpaths landing.path).mpr ⟨piece, Or.inl hpiece, hclaims, hpath⟩)
      obtain rfl : place = landing.path := hplace
      obtain ⟨earlier, later, hsplit⟩ := List.append_of_mem hentry
      refine h.lost hcontents (.write landing.path bytes) (earlier.map fun entry => .write entry.1 entry.2)
        (later.map (fun entry => .write entry.1 entry.2) ++
          (plan.renamed.map (fun entry => .rename entry.1 entry.2) ++ plan.removed.map .remove))
        ?_ ?_ (fun tree hmade => ?_) hraised (huntouched _ _ hseals hcontents)
      · rw [changes]
        simp only [hsplit, List.map_append, List.map_cons, List.append_assoc, List.cons_append]
      · intro change hchange other bytes' heq hsame
        subst heq
        simp only [List.mem_append, List.mem_map] at hchange
        rcases hchange with ⟨entry, hlater, heq⟩ | ⟨entry, -, heq⟩ | ⟨entry, -, heq⟩
        · cases heq
          exact hne entry (hsplit ▸ List.mem_append_right _ (List.mem_cons_of_mem _ hlater)) hsame
        · cases heq
        · cases heq
      · rw [FileTree.Call.made_write hmade]
        intro heq
        cases heq
        exact hne _ hentry rfl rfl
  | _ => trivial

/-- For every project, grammar and sequence of edit lists offered to an empty plan: where every edit taken spares the
sealed files, each of them stands at its path with its bytes in whatever tree writing the plan leaves, at its end or
at the step that raised; and where it was written to its end and each of them stands so, every edit taken spares
them. -/
theorem sealed_untouched (project : Project) (grammar : Grammar) {offers taken : List (List Edit)} {plan : Plan}
    (h : offer project {} offers = some (plan, taken)) :
    ((∀ edit ∈ taken.flatten, edit.Spares project) → Untouched project (plan.apply project grammar).project) ∧
      ((plan.apply project grammar).raised = false → Untouched project (plan.apply project grammar).project →
        ∀ edit ∈ taken.flatten, edit.Spares project) := by
  have haccount := account_offer h
  unfold apply
  split
  · rename_i written hwritten
    refine ⟨fun hspares path data hseals hdata => ?_, haccount.spares hwritten⟩
    exact applyFrom_preserves (fun tree => tree.entry path = some (.file data)) (FileTree.Call.Keeps path data)
      (fun _ _ hkeeps => FileTree.Call.keeps_make hkeeps) (haccount.keeps hspares hwritten hseals hdata) hdata
  · exact ⟨fun _ path data _ hdata => hdata, fun hraised => by cases hraised⟩

/-- A project with a registered node beside an open module. -/
def registeredProject : Project := .ofFiles [
  (["node", "node.md"], utf8 ("---\nregistration_sha256: ".toList ++ List.replicate 64 'c' ++ "\n---\n".toList)),
  (["node", "protocol.py"], utf8 "x = 1\n".toList), (["free.py"], utf8 "x = 1\ny = 2\n".toList)]

/-- A grammar that reads no statement. -/
def noStatements : Grammar := ⟨fun _ => some [], fun _ => some []⟩

/-- No folder below an open module is a node. -/
theorem spares_rename_free (target : Place) : (Edit.rename ["free.py"] target).Spares registeredProject := by
  intro folder hfolder hregisters
  obtain ⟨data, hdata⟩ := Sealed.isFile_of_registers hregisters
  have hlead : ["free.py"] <+: folder ++ ["node.md"] := hfolder.trans (List.prefix_append _ _)
  have hne : ["free.py"] ≠ folder ++ ["node.md"] := fun hsame => by
    obtain ⟨rest, rfl⟩ := hfolder
    have hlength := congrArg List.length hsame
    simp only [List.length_append, List.length_cons, List.length_nil] at hlength
    omega
  have hfolder := registeredProject.folder_of_prefix hlead hne (by rw [hdata]; exact Option.some_ne_none _)
  have hfile : registeredProject.entry ["free.py"] ≠ some .folder := by decide +kernel
  exact hfile hfolder

/-- The open module with its first line deleted, put at another name. -/
def renamedPlan : Plan :=
  { text := [⟨["free.py"], 0, 6, [], false, false⟩], renamed := [(["free.py"], ["spare.py"])], deferred := 1 }

/-- A deletion in the open module is taken, the one in the sealed module put off, the open module renamed, and the
sealed files stand. -/
theorem sealed_untouched_renamed :
    Untouched registeredProject (renamedPlan.apply registeredProject noStatements).project ∧
      (renamedPlan.apply registeredProject noStatements).raised = false :=
  ⟨(sealed_untouched registeredProject noStatements
    (by decide +kernel : offer registeredProject {}
      [[.delete { path := ["free.py"], startLine := 1 }], [.delete { path := ["node", "protocol.py"], startLine := 1 }],
        [.rename ["free.py"] ["spare.py"]]] =
        some (renamedPlan,
          [[.delete { path := ["free.py"], startLine := 1 }], [.rename ["free.py"] ["spare.py"]]]))).1
    (fun edit hedit => by
      rcases List.mem_cons.mp hedit with rfl | hedit
      · trivial
      · rw [List.mem_singleton.mp hedit]
        exact spares_rename_free _), by decide +kernel⟩

/-- The removal of the folder that holds a registered node is taken, and the sealed files are gone. -/
theorem sealed_untouched_fails :
    offer registeredProject {} [[.remove ["node"]]] = some ({ removed := [["node"]] }, [[.remove ["node"]]]) ∧
      (Plan.apply { removed := [["node"]] } registeredProject noStatements).raised = false ∧
      ¬ Untouched registeredProject (Plan.apply { removed := [["node"]] } registeredProject noStatements).project := by
  refine ⟨by decide +kernel, by decide +kernel, fun h => ?_⟩
  have hstands := h ["node", "protocol.py"] (utf8 "x = 1\n".toList) ⟨["node"], by decide +kernel⟩ (by decide +kernel)
  revert hstands
  decide +kernel

end Plan

end Mainboard.Analysis
