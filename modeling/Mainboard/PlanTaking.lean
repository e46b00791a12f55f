import Mathlib.Algebra.GroupWithZero.Nat
import Mainboard.EditPlan

/-! What a plan holds: each answer of an offer, what an edit expands to, and what the written bytes are made of. A
fact that each list taken preserves holds of the plan a sequence of offers leaves. -/

namespace Mainboard.Analysis

section Lines

variable {α : Type} [DecidableEq α] {cr lf : α} {breaks : α → Bool}

theorem splitLines_eq_nil {text : List α} : splitLines cr lf breaks text = [] ↔ text = [] := by
  refine ⟨fun h => ?_, fun h => h ▸ rfl⟩
  induction text with
  | nil => rfl
  | cons char rest ih =>
      unfold splitLines at h
      split at h
      · rename_i hpair
        rw [ih h] at hpair
        cases hpair.2
      · split at h
        · cases h
        · split at h
          · cases h
          · cases h

end Lines

theorem Source.newline_ne_nil (source : Source) : source.newline ≠ [] := by
  unfold Source.newline
  split
  · exact List.cons_ne_nil _ _
  · exact List.cons_ne_nil _ _

section Splicing

variable {data : Bytes} {kept : ℕ} {edits : List TextEdit}

theorem length_slice (start stop : ℕ) : (slice data start stop).length = min stop data.length - start := by
  rw [slice, List.length_drop, List.length_take]

/-- Insertions in file order make a file longer by the bytes they insert. -/
theorem length_splicedFrom (hstop : ∀ edit ∈ edits, edit.stop = edit.start)
    (hsorted : (kept :: edits.map TextEdit.start).Pairwise (· ≤ ·)) :
    (splicedFrom data kept edits).length = data.length - kept + (edits.map fun edit => edit.text.length).sum := by
  induction edits generalizing kept with
  | nil => rw [splicedFrom, List.length_drop, List.map_nil, List.sum_nil, Nat.add_zero]
  | cons edit edits ih =>
      have hedit := hstop edit List.mem_cons_self
      rw [List.map_cons, List.pairwise_cons] at hsorted
      have hkept : kept ≤ edit.start := hsorted.1 _ List.mem_cons_self
      rw [splicedFrom, hedit, List.length_append, List.length_append, length_slice, List.map_cons, List.sum_cons,
        ih (fun other hother => hstop other (List.mem_cons_of_mem _ hother)) hsorted.2]
      omega

/-- Insertions of nothing in file order leave a file as it was. -/
theorem splicedFrom_blank (htext : ∀ edit ∈ edits, edit.stop = edit.start ∧ edit.text = [])
    (hsorted : (kept :: edits.map TextEdit.start).Pairwise (· ≤ ·)) :
    splicedFrom data kept edits = data.drop kept := by
  induction edits generalizing kept with
  | nil => rfl
  | cons edit edits ih =>
      obtain ⟨hedit, hblank⟩ := htext edit List.mem_cons_self
      rw [List.map_cons, List.pairwise_cons] at hsorted
      have hkept : kept ≤ edit.start := hsorted.1 _ List.mem_cons_self
      rw [splicedFrom, hedit, hblank, List.append_nil,
        ih (fun other hother => htext other (List.mem_cons_of_mem _ hother)) hsorted.2]
      conv_rhs => rw [← List.take_append_drop edit.start data]
      rw [slice]
      rcases Nat.le_total edit.start data.length with hle | hle
      · rw [List.drop_append_of_le_length (by rw [List.length_take]; omega)]
      · rw [List.drop_eq_nil_of_le hle, List.append_nil, List.append_nil]

end Splicing

namespace Plan

variable {project : Project} {grammar : Grammar} {plan next : Plan} {edits : List Edit} {expanded : List TextEdit}

/-- A plan only creates what the project does not hold. -/
def Fresh (project : Project) (plan : Plan) : Prop := ∀ path ∈ plan.created, project.entry path = none

/-- A file of the project is read with its bytes. -/
theorem source_file (hfresh : plan.Fresh project) {path : Place} {data : Bytes}
    (h : project.entry path = some (.file data)) : source project plan path = some ⟨data⟩ := by
  have hnot : path ∉ plan.created := fun hmem => by
    rw [hfresh path hmem] at h
    cases h
  unfold source FileTree.Tree.read
  rw [if_neg hnot, h]

/-- What is no file of the project is read as empty, where it is read. -/
theorem source_other {path : Place} {source' : Source} (h : source project plan path = some source')
    (hfile : ∀ data, project.entry path ≠ some (.file data)) : source'.data = [] := by
  unfold source at h
  split at h
  · obtain rfl := Option.some.inj h
    rfl
  · split at h
    · rename_i data hread
      unfold FileTree.Tree.read at hread
      split at hread
      · rename_i contents hentry
        exact absurd hentry (hfile contents)
      · cases hread
      · cases hread
    · obtain rfl := Option.some.inj h
      rfl
    · cases h

/-- What an offer does that is answered: it is put off, or its edits change no sealed file, expand and collide with
nothing, and are taken. -/
theorem add_cases {taken : Bool} (h : add project plan edits = some (next, taken)) :
    (taken = false ∧ next = { plan with deferred := plan.deferred + 1 }) ∨
      (taken = true ∧ ∃ expanded, anySealed project edits = some false ∧
        expandAll project plan edits = some expanded ∧ collides project plan edits expanded = false ∧
        next = plan.taking edits expanded) := by
  simp only [add, Option.bind_eq_some_iff] at h
  obtain ⟨held, hheld, expanded, hexpanded, h⟩ := h
  have hanswer := Option.some.inj h
  split at hanswer
  · obtain ⟨rfl, rfl⟩ := Prod.mk.inj hanswer
    exact Or.inl ⟨rfl, rfl⟩
  · rename_i hfree
    obtain ⟨rfl, rfl⟩ := Prod.mk.inj hanswer
    rw [Bool.or_eq_true, not_or, Bool.not_eq_true, Bool.not_eq_true] at hfree
    rw [hfree.1] at hheld
    rw [hfree.1, if_neg Bool.false_ne_true] at hexpanded
    exact Or.inr ⟨rfl, expanded, hheld, hexpanded, hfree.2, rfl⟩

/-- What every list taken preserves holds of the plan and the lists a sequence of offers leaves. -/
theorem offer_induct {I : Plan → List (List Edit) → Prop} {offers taken more : List (List Edit)}
    (hdefer : ∀ plan taken deferred, I plan taken → I { plan with deferred } taken)
    (htake : ∀ plan taken edits expanded, I plan taken → anySealed project edits = some false →
      expandAll project plan edits = some expanded → collides project plan edits expanded = false →
      I (plan.taking edits expanded) (taken ++ [edits]))
    (hplan : I plan taken) (h : offer project plan offers = some (next, more)) : I next (taken ++ more) := by
  induction offers generalizing plan taken more with
  | nil =>
      cases h
      rwa [List.append_nil]
  | cons edits offers ih =>
      simp only [offer, Option.bind_eq_bind, Option.bind_eq_some_iff] at h
      obtain ⟨⟨middle, answer⟩, hadd, ⟨last, later⟩, hrest, h⟩ := h
      cases h
      rcases add_cases hadd with ⟨rfl, rfl⟩ | ⟨rfl, expanded, hsealed, hexpanded, hfree, rfl⟩
      · exact ih (hdefer _ _ _ hplan) hrest
      · have hnext := ih (htake _ _ _ _ hplan hsealed hexpanded hfree) hrest
        rwa [List.append_assoc] at hnext

theorem anySealed_of_false (h : anySealed project edits = some false) :
    ∀ edit ∈ edits, ∃ path, edit.file = some path ∧ ¬ Sealed.Seals project path := by
  induction edits with
  | nil =>
      intro edit hedit
      cases hedit
  | cons first edits ih =>
      simp only [anySealed, Option.bind_eq_bind, Option.bind_eq_some_iff] at h
      obtain ⟨path, hpath, held, hheld, h⟩ := h
      split at h
      · cases h
      · rename_i hfree
        rw [Bool.not_eq_true] at hfree
        rw [hfree] at hheld
        intro edit hedit
        rcases List.mem_cons.mp hedit with rfl | hlate
        · exact ⟨path, hpath, Sealed.not_seals_of_holds hheld⟩
        · exact ih h edit hlate

/-- A piece of an expanded list is a piece of one of its edits. -/
theorem mem_expandAll (h : expandAll project plan edits = some expanded) {piece : TextEdit} :
    piece ∈ expanded ↔ ∃ edit ∈ edits, ∃ pieces, expand project plan edit = some pieces ∧ piece ∈ pieces := by
  induction edits generalizing expanded with
  | nil =>
      cases h
      simp
  | cons first edits ih =>
      simp only [expandAll, Option.bind_eq_bind, Option.bind_eq_some_iff] at h
      obtain ⟨pieces, hpieces, rest, hrest, h⟩ := h
      cases h
      simp [ih hrest, hpieces]

/-- An edit of an expanded list expands. -/
theorem exists_expand (h : expandAll project plan edits = some expanded) :
    ∀ edit ∈ edits, ∃ pieces, expand project plan edit = some pieces := by
  induction edits generalizing expanded with
  | nil =>
      intro edit hedit
      cases hedit
  | cons first edits ih =>
      simp only [expandAll, Option.bind_eq_bind, Option.bind_eq_some_iff] at h
      obtain ⟨pieces, hpieces, rest, hrest, -⟩ := h
      intro edit hedit
      rcases List.mem_cons.mp hedit with rfl | hlate
      · exact ⟨pieces, hpieces⟩
      · exact ih hrest edit hlate

/-- An insertion is one piece at its anchor's path that covers no byte, blank where the text is. -/
theorem inserted_eq {text : Text} {before after : Option Span} {pieces : List TextEdit}
    (h : inserted project plan text before after = some pieces) :
    ∃ landing piece, anchor before after = some landing ∧ pieces = [piece] ∧ piece.path = landing.path ∧
      piece.stop = piece.start ∧ piece.claims = false ∧ (piece.text = [] ↔ text = []) := by
  simp only [inserted, Option.bind_eq_bind, Option.bind_eq_some_iff] at h
  obtain ⟨landing, hlanding, source, -, start, -, indent, -, h⟩ := h
  cases h
  refine ⟨landing, _, hlanding, rfl, rfl, rfl, rfl, ?_⟩
  rw [List.flatMap_eq_nil_iff]
  refine ⟨fun hblank => ?_, ?_⟩
  · have hnone : textLines text = [] := List.eq_nil_iff_forall_not_mem.mpr fun line hline =>
      source.newline_ne_nil (List.append_eq_nil_iff.mp (hblank line hline)).2
    exact splitLines_eq_nil.mp hnone
  · rintro rfl line hline
    cases hline

/-- The pieces of an edit that is no move stand at the path it changes. -/
theorem expand_eq {edit : Edit} {pieces : List TextEdit} (h : expand project plan edit = some pieces) :
    (∀ piece ∈ pieces, edit.file = some piece.path) ∨ ∃ span before after, edit = .move span before after := by
  have hone : ∀ {piece : TextEdit}, edit.file = some piece.path →
      ∀ other ∈ [piece], edit.file = some other.path := fun hfile other hother => by
    rwa [List.mem_singleton.mp hother]
  cases edit with
  | move span before after => exact Or.inr ⟨span, before, after, rfl⟩
  | insert text before after =>
      obtain ⟨landing, piece, hlanding, rfl, hpath, -⟩ := inserted_eq h
      refine Or.inl (hone ?_)
      rw [hpath, Edit.file, hlanding]
      rfl
  | replace span text =>
      simp only [expand, Option.bind_eq_bind, Option.bind_eq_some_iff] at h
      obtain ⟨source', -, range, -, h⟩ := h
      cases h
      exact Or.inl (hone rfl)
  | delete span =>
      simp only [expand, Option.bind_eq_bind, Option.bind_eq_some_iff] at h
      obtain ⟨source', -, range, -, h⟩ := h
      cases h
      exact Or.inl (hone rfl)
  | append path text =>
      simp only [expand, Option.bind_eq_bind, Option.bind_eq_some_iff] at h
      obtain ⟨source', -, h⟩ := h
      cases h
      exact Or.inl (hone rfl)
  | claim span =>
      simp only [expand, Option.bind_eq_bind, Option.bind_eq_some_iff] at h
      obtain ⟨source', -, range, -, h⟩ := h
      cases h
      exact Or.inl (hone rfl)
  | create path text =>
      cases h
      exact Or.inl (hone rfl)
  | remove path =>
      cases h
      exact Or.inl fun piece hpiece => (List.not_mem_nil hpiece).elim
  | rename path target =>
      cases h
      exact Or.inl fun piece hpiece => (List.not_mem_nil hpiece).elim
  | imports path statement =>
      cases h
      exact Or.inl fun piece hpiece => (List.not_mem_nil hpiece).elim

/-- A piece stands at a path that was read, or at one its edit creates. -/
theorem expand_source {edit : Edit} {pieces : List TextEdit} (h : expand project plan edit = some pieces) :
    ∀ piece ∈ pieces, (∃ read, source project plan piece.path = some read) ∨ edit.createdPath = some piece.path := by
  have hone : ∀ {path : Place} {read : Source}, source project plan path = some read → ∀ {piece : TextEdit},
      piece.path = path → ∃ read, source project plan piece.path = some read :=
    fun hread piece hpath => ⟨_, hpath ▸ hread⟩
  have hinserted : ∀ {text : Text} {before after : Option Span} {pieces : List TextEdit},
      inserted project plan text before after = some pieces →
      ∀ piece ∈ pieces, ∃ read, source project plan piece.path = some read := by
    intro text before after pieces h piece hpiece
    simp only [inserted, Option.bind_eq_bind, Option.bind_eq_some_iff] at h
    obtain ⟨landing, -, read, hread, start, -, indent, -, h⟩ := h
    cases h
    exact hone hread ((List.mem_singleton.mp hpiece) ▸ rfl)
  intro piece hpiece
  cases edit with
  | insert text before after => exact Or.inl (hinserted h piece hpiece)
  | move span before after =>
      simp only [expand, Option.bind_eq_bind, Option.bind_eq_some_iff] at h
      obtain ⟨read, hread, range, -, moved, -, landed, hlanded, h⟩ := h
      cases h
      rcases List.mem_cons.mp hpiece with rfl | hlate
      · exact Or.inl ⟨read, hread⟩
      · exact Or.inl (hinserted hlanded piece hlate)
  | replace span text =>
      simp only [expand, Option.bind_eq_bind, Option.bind_eq_some_iff] at h
      obtain ⟨read, hread, range, -, h⟩ := h
      cases h
      exact Or.inl (hone hread ((List.mem_singleton.mp hpiece) ▸ rfl))
  | delete span =>
      simp only [expand, Option.bind_eq_bind, Option.bind_eq_some_iff] at h
      obtain ⟨read, hread, range, -, h⟩ := h
      cases h
      exact Or.inl (hone hread ((List.mem_singleton.mp hpiece) ▸ rfl))
  | append path text =>
      simp only [expand, Option.bind_eq_bind, Option.bind_eq_some_iff] at h
      obtain ⟨read, hread, h⟩ := h
      cases h
      exact Or.inl (hone hread ((List.mem_singleton.mp hpiece) ▸ rfl))
  | claim span =>
      simp only [expand, Option.bind_eq_bind, Option.bind_eq_some_iff] at h
      obtain ⟨read, hread, range, -, h⟩ := h
      cases h
      exact Or.inl (hone hread ((List.mem_singleton.mp hpiece) ▸ rfl))
  | create path text =>
      cases h
      exact Or.inr ((List.mem_singleton.mp hpiece) ▸ rfl)
  | remove path =>
      cases h
      cases hpiece
  | rename path target =>
      cases h
      cases hpiece
  | imports path statement =>
      cases h
      cases hpiece

theorem mem_renamePair {entry : Place × Place} :
    entry ∈ edits.filterMap Edit.renamePair ↔ .rename entry.1 entry.2 ∈ edits := by
  rw [List.mem_filterMap]
  refine ⟨?_, fun h => ⟨_, h, rfl⟩⟩
  rintro ⟨edit, hedit, hpair⟩
  unfold Edit.renamePair at hpair
  split at hpair
  · cases hpair
    exact hedit
  · cases hpair

theorem mem_removedPath {path : Place} : path ∈ edits.filterMap Edit.removedPath ↔ .remove path ∈ edits := by
  rw [List.mem_filterMap]
  refine ⟨?_, fun h => ⟨_, h, rfl⟩⟩
  rintro ⟨edit, hedit, hpath⟩
  unfold Edit.removedPath at hpath
  split at hpath
  · cases hpath
    exact hedit
  · cases hpath

theorem mem_importPair {entry : Place × Text} :
    entry ∈ edits.filterMap Edit.importPair ↔ .imports entry.1 entry.2 ∈ edits := by
  rw [List.mem_filterMap]
  refine ⟨?_, fun h => ⟨_, h, rfl⟩⟩
  rintro ⟨edit, hedit, hpair⟩
  unfold Edit.importPair at hpair
  split at hpair
  · cases hpair
    exact hedit
  · cases hpair

/-- What an accepted list creates, and where its renames go, the project does not hold. -/
theorem absent_of_collides (h : collides project plan edits expanded = false) :
    (∀ path ∈ edits.filterMap Edit.createdPath, project.entry path = none) ∧
      ∀ entry ∈ edits.filterMap Edit.renamePair, project.entry entry.2 = none := by
  simp only [collides, Bool.or_eq_false_iff, List.any_eq_false, Bool.not_eq_true, Option.isSome_eq_false_iff,
    Option.isNone_iff_eq_none, List.mem_append] at h
  exact ⟨fun path hpath => h.1.2 path (Or.inr hpath),
    fun entry hentry => h.1.2 entry.2 (Or.inl (List.mem_map_of_mem hentry))⟩

/-- A path a plan imports into after a list is one it imported into before, or one the list names. -/
theorem mem_keys_imports {path : Place} (h : path ∈ (plan.taking edits expanded).imports.map (·.1)) :
    path ∈ plan.imports.map (·.1) ∨ ∃ statement, .imports path statement ∈ edits := by
  have hfold : ∀ (pairs : List (Place × Text)) (imports : List (Place × List Text)),
      path ∈ (pairs.foldl (fun imports entry =>
        let statements := (OrderedMap.get imports entry.1).getD []
        OrderedMap.put imports entry.1 (if entry.2 ∈ statements then statements else statements ++ [entry.2]))
          imports).map (·.1) →
        path ∈ imports.map (·.1) ∨ ∃ statement, (path, statement) ∈ pairs := by
    intro pairs
    induction pairs with
    | nil => exact fun imports h => Or.inl h
    | cons pair pairs ih =>
        intro imports h
        rcases ih _ h with hput | ⟨statement, hlate⟩
        · rcases OrderedMap.mem_keys_put.mp hput with rfl | hold
          · exact Or.inr ⟨pair.2, List.mem_cons_self⟩
          · exact Or.inl hold
        · exact Or.inr ⟨statement, List.mem_cons_of_mem _ hlate⟩
  exact (hfold _ _ h).imp_right fun ⟨statement, hpair⟩ => ⟨statement, mem_importPair.mp hpair⟩

/-- An import insertion stands at a path that was read. -/
theorem imports_source {pieces : List TextEdit} (h : imported project grammar plan = some pieces) :
    ∀ piece ∈ pieces, ∃ read, source project plan piece.path = some read := by
  have hfrom : ∀ (imports : List (Place × List Text)) (pieces : List TextEdit),
      importedFrom project grammar plan imports = some pieces →
      ∀ piece ∈ pieces, ∃ read, source project plan piece.path = some read := by
    intro imports
    induction imports with
    | nil =>
        intro pieces h piece hpiece
        cases h
        cases hpiece
    | cons entry imports ih =>
        intro pieces h piece hpiece
        obtain ⟨path, statements⟩ := entry
        simp only [importedFrom, Option.bind_eq_bind, Option.bind_eq_some_iff] at h
        obtain ⟨edit, hedit, rest, hrest, h⟩ := h
        cases h
        rcases List.mem_append.mp hpiece with hfirst | hlate
        · simp only [importInto, Option.bind_eq_bind, Option.bind_eq_some_iff] at hedit
          obtain ⟨read, hread, body, -, names, -, hedit⟩ := hedit
          split at hedit
          · cases hedit
            cases hfirst
          · simp only [Option.bind_eq_some_iff] at hedit
            obtain ⟨start, -, hedit⟩ := hedit
            cases hedit
            obtain rfl := List.mem_singleton.mp hfirst
            exact ⟨read, hread⟩
        · exact ih rest hrest piece hlate
  exact hfrom plan.imports pieces h

/-- An import insertion stands at a path the plan imports into. -/
theorem path_mem_imports {pieces : List TextEdit} (h : imported project grammar plan = some pieces) :
    ∀ piece ∈ pieces, piece.path ∈ plan.imports.map (·.1) := by
  have hfrom : ∀ (imports : List (Place × List Text)) (pieces : List TextEdit),
      importedFrom project grammar plan imports = some pieces → ∀ piece ∈ pieces, piece.path ∈ imports.map (·.1) := by
    intro imports
    induction imports with
    | nil =>
        intro pieces h piece hpiece
        cases h
        cases hpiece
    | cons entry imports ih =>
        intro pieces h piece hpiece
        obtain ⟨path, statements⟩ := entry
        simp only [importedFrom, Option.bind_eq_bind, Option.bind_eq_some_iff] at h
        obtain ⟨edit, hedit, rest, hrest, h⟩ := h
        cases h
        rcases List.mem_append.mp hpiece with hfirst | hlate
        · have hpath : piece.path = path := by
            simp only [importInto, Option.bind_eq_bind, Option.bind_eq_some_iff] at hedit
            obtain ⟨source', -, body, -, read, -, hedit⟩ := hedit
            split at hedit
            · cases hedit
              cases hfirst
            · simp only [Option.bind_eq_some_iff] at hedit
              obtain ⟨start, -, hedit⟩ := hedit
              cases hedit
              exact (List.mem_singleton.mp hfirst) ▸ rfl
          exact hpath ▸ List.mem_cons_self
        · exact List.mem_cons_of_mem _ (ih rest hrest piece hlate)
  exact hfrom plan.imports pieces h

instance : Std.Total fun one other : TextEdit => inOrder one other = true := ⟨fun one other => by
  simp only [inOrder, Bool.or_eq_true, Bool.and_eq_true, decide_eq_true_eq, beq_iff_eq]
  omega⟩

theorem inOrder_trans {one middle other : TextEdit} (hone : inOrder one middle = true)
    (hother : inOrder middle other = true) : inOrder one other = true := by
  simp only [inOrder, Bool.or_eq_true, Bool.and_eq_true, decide_eq_true_eq, beq_iff_eq] at hone hother ⊢
  omega

instance : IsTrans TextEdit fun one other => inOrder one other = true := ⟨fun _ _ _ => inOrder_trans⟩

/-- Where every piece's path is read, the written bytes are those of each path with its pieces in file order. -/
theorem written_of_sources {imports : List TextEdit} (himports : imported project grammar plan = some imports)
    {bytes : Place → Bytes} (hsources : ∀ piece ∈ (plan.text ++ imports).filter fun edit => !edit.claims,
      source project plan piece.path = some ⟨bytes piece.path⟩) :
    plan.written project grammar = some
      ((((plan.text ++ imports).filter fun edit => !edit.claims).map TextEdit.path).eraseDups.map fun path =>
        (path, splicedFrom (bytes path) 0 (fileOrder
          (((plan.text ++ imports).filter fun edit => !edit.claims).filter fun edit => edit.path = path)))) := by
  have hall : ∀ places : List Place, (∀ path ∈ places, source project plan path = some ⟨bytes path⟩) →
      ∀ pieces : Place → List TextEdit, splicedAll project plan (places.map fun path => (path, pieces path)) =
        some (places.map fun path => (path, splicedFrom (bytes path) 0 (pieces path))) := by
    intro places
    induction places with
    | nil => exact fun _ _ => rfl
    | cons path places ih =>
        intro hplaces pieces
        rw [List.forall_mem_cons] at hplaces
        simp [splicedAll, spliced, hplaces.1, ih hplaces.2]
  simp only [Plan.written, Plan.edits, himports, Option.bind_eq_bind, Option.bind_some, Option.pure_def]
  refine hall _ (fun path hpath => ?_) _
  rw [List.mem_eraseDups, List.mem_map] at hpath
  obtain ⟨piece, hpiece, rfl⟩ := hpath
  exact hsources piece hpiece

theorem inOrder_start {one other : TextEdit} (h : inOrder one other = true) : one.start ≤ other.start := by
  simp only [inOrder, Bool.or_eq_true, Bool.and_eq_true, decide_eq_true_eq, beq_iff_eq] at h
  omega

theorem mem_fileOrder {edits : List TextEdit} {edit : TextEdit} : edit ∈ fileOrder edits ↔ edit ∈ edits :=
  List.mem_insertionSort _

theorem pairwise_fileOrder (edits : List TextEdit) :
    (fileOrder edits).Pairwise fun one other => inOrder one other = true :=
  List.pairwise_insertionSort _ _

/-- What a written path is made of: the plan's pieces at that path and its imports, claims aside, in file order. -/
structure Written (project : Project) (plan : Plan) (imports : List TextEdit) (path : Place) (data : Bytes)
    (pieces : List TextEdit) : Prop where
  mem : ∀ piece, piece ∈ pieces ↔ (piece ∈ plan.text ∨ piece ∈ imports) ∧ piece.claims = false ∧ piece.path = path
  sorted : pieces.Pairwise fun one other => inOrder one other = true
  bytes : ∃ source', source project plan path = some source' ∧ data = splicedFrom source'.data 0 pieces

theorem Written.starts {imports : List TextEdit} {path : Place} {data : Bytes} {pieces : List TextEdit}
    (h : Written project plan imports path data pieces) :
    (0 :: pieces.map TextEdit.start).Pairwise (· ≤ ·) :=
  List.pairwise_cons.mpr ⟨fun _ _ => Nat.zero_le _, List.pairwise_map.mpr (h.sorted.imp inOrder_start)⟩

/-- The written paths are those the pieces and the imports stand at. -/
theorem written_eq {written : List (Place × Bytes)} (h : plan.written project grammar = some written) :
    ∃ imports, imported project grammar plan = some imports ∧
      (∀ entry ∈ written, ∃ pieces, Written project plan imports entry.1 entry.2 pieces) ∧
      ∀ path, path ∈ written.map (·.1) ↔
        ∃ piece, (piece ∈ plan.text ∨ piece ∈ imports) ∧ piece.claims = false ∧ piece.path = path := by
  simp only [Plan.written, Plan.edits, Option.bind_eq_bind, Option.bind_eq_some_iff] at h
  obtain ⟨edits, ⟨imports, himports, hedits⟩, h⟩ := h
  cases hedits
  refine ⟨imports, himports, ?_⟩
  set pieces := (plan.text ++ imports).filter fun edit => !edit.claims with hpieces
  have hmem : ∀ piece, piece ∈ pieces ↔ (piece ∈ plan.text ∨ piece ∈ imports) ∧ piece.claims = false := fun piece => by
    rw [hpieces, List.mem_filter, List.mem_append, Bool.not_eq_true']
  have hall : ∀ (paths : List Place) (written : List (Place × Bytes)),
      splicedAll project plan (paths.map fun path =>
        (path, fileOrder (pieces.filter fun edit => edit.path = path))) = some written →
      (∀ entry ∈ written, ∃ pieces, Written project plan imports entry.1 entry.2 pieces) ∧
        written.map (·.1) = paths := by
    intro paths
    induction paths with
    | nil =>
        intro written h
        cases h
        exact ⟨fun entry hentry => (List.not_mem_nil hentry).elim, rfl⟩
    | cons path paths ih =>
        intro written h
        rw [List.map_cons] at h
        simp only [splicedAll, Option.bind_eq_bind, Option.bind_eq_some_iff] at h
        obtain ⟨data, hdata, rest, hrest, h⟩ := h
        cases h
        obtain ⟨hrests, hpaths⟩ := ih rest hrest
        rw [spliced, Option.map_eq_some_iff] at hdata
        obtain ⟨source', hsource, hbytes⟩ := hdata
        refine ⟨fun entry hentry => ?_, by rw [List.map_cons, hpaths]⟩
        rcases List.mem_cons.mp hentry with rfl | hlate
        · refine ⟨_, fun piece => ?_, pairwise_fileOrder _, source', hsource, hbytes.symm⟩
          rw [mem_fileOrder, List.mem_filter, hmem, decide_eq_true_eq, and_assoc]
        · exact hrests entry hlate
  obtain ⟨hwritten, hpaths⟩ := hall _ _ h
  refine ⟨hwritten, fun path => ?_⟩
  rw [hpaths, List.mem_eraseDups, List.mem_map]
  simp only [hmem, and_assoc]

end Plan

end Mainboard.Analysis
