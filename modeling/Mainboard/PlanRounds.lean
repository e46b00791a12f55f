import Mathlib.Data.Finset.Card
import Mathlib.Data.List.TakeWhile
import Mathlib.Logic.Relation
import Mainboard.PassPlanning

/-! The loop that plans a pass leaves it exactly when every round that goes again names one of its repairs: a file it
finds broken, up to the first colon of its path, is what an edit of a taken repair is filed under. Such a round closes
a repair for good, and one that names none comes to itself for ever. -/

namespace Mainboard.Analysis.Planning

section Names

theorem takeWhile_append_mark {text rest : List Char} {mark : Char} :
    (text ++ mark :: rest).takeWhile (· != mark) = text.takeWhile (· != mark) := by
  induction text with
  | nil => simp
  | cons char text ih =>
      rw [List.cons_append, List.takeWhile_cons, List.takeWhile_cons, ih]

/-- A complaint names its path up to the first colon. -/
theorem named_line (path why : String) : named (path ++ ": " ++ why) = named path := by
  have hline : (path ++ ": " ++ why).toList = path.toList ++ ':' :: (' ' :: why.toList) := by
    rw [String.toList_append, String.toList_append, List.append_assoc]
    rfl
  rw [named, named, hline, takeWhile_append_mark]

/-- A path without a colon is named whole. -/
theorem named_of_plain {path : String} (h : ':' ∉ path.toList) : named path = path := by
  have hwhole : path.toList.takeWhile (· != ':') = path.toList :=
    List.takeWhile_eq_self_iff.mpr fun char hchar => bne_iff_ne.mpr fun hmark => h (hmark ▸ hchar)
  rw [named, hwhole, String.ofList_toList]

variable {path : Place} {roots more : List String}

theorem isUnder_iff : isUnder path roots = true ↔ ∃ root ∈ roots, root = spelled path ∨ root ∈ parents path := by
  rw [isUnder, Bool.or_eq_true, decide_eq_true_eq, List.any_eq_true]
  constructor
  · rintro (hself | ⟨parent, hparent, hroot⟩)
    · exact ⟨_, hself, Or.inl rfl⟩
    · exact ⟨parent, of_decide_eq_true hroot, Or.inr hparent⟩
  · rintro ⟨root, hroot, rfl | hparent⟩
    · exact Or.inl hroot
    · exact Or.inr ⟨root, hparent, decide_eq_true hroot⟩

theorem isUnder_append : isUnder path (roots ++ more) = true ↔ isUnder path roots = true ∨ isUnder path more = true := by
  simp only [isUnder_iff, List.mem_append, or_and_right, exists_or]

/-- A path lies in several roots when it lies in one of them. -/
theorem isUnder_iff_one : isUnder path roots = true ↔ ∃ root ∈ roots, isUnder path [root] = true := by
  simp only [isUnder_iff, List.mem_singleton, exists_eq_left]

theorem isUnder_self : isUnder path [spelled path] = true := isUnder_iff.mpr ⟨_, List.mem_singleton_self _, Or.inl rfl⟩

end Names

section Held

variable {held more : List String} {edits : List Edit}

/-- A repair none of whose edits is withheld files each of them somewhere else. -/
theorem isHeld_eq_false : isHeld held edits = some false ↔
    ∀ edit ∈ edits, ∃ path, edit.file = some path ∧ isUnder path held = false := by
  induction edits with
  | nil => simp [isHeld]
  | cons edit edits ih =>
      cases hfile : edit.file with
      | none => simp [isHeld, hfile]
      | some path =>
          cases hunder : isUnder path held with
          | true => simp [isHeld, hfile, hunder]
          | false => simp [isHeld, hfile, hunder, ih]

/-- A repair whose edits are all filed somewhere is withheld by one of them. -/
theorem isHeld_eq_true (hfiled : ∀ edit ∈ edits, ∃ path, edit.file = some path) : isHeld held edits = some true ↔
    ∃ edit ∈ edits, ∃ path, edit.file = some path ∧ isUnder path held = true := by
  induction edits with
  | nil => simp [isHeld]
  | cons edit edits ih =>
      rw [List.forall_mem_cons] at hfiled
      obtain ⟨path, hfile⟩ := hfiled.1
      cases hunder : isUnder path held with
      | true => simp [isHeld, hfile, hunder]
      | false => simp [isHeld, hfile, hunder, ih hfiled.2]

/-- What is withheld stays so when more is. -/
theorem isHeld_mono (h : isHeld held edits = some true) : isHeld (held ++ more) edits = some true := by
  induction edits with
  | nil => cases h
  | cons edit edits ih =>
      cases hfile : edit.file with
      | none => simp [isHeld, hfile] at h
      | some path =>
          cases hunder : isUnder path (held ++ more) with
          | true => simp [isHeld, hfile, hunder]
          | false =>
              have hbefore : isUnder path held = false := Bool.eq_false_iff.mpr fun htrue =>
                Bool.eq_false_iff.mp hunder (isUnder_append.mpr (Or.inl htrue))
              simp only [isHeld, hfile, hbefore, Option.bind_eq_bind, Option.bind_some, Bool.false_eq_true, if_false] at h
              simp only [isHeld, hfile, hunder, Option.bind_eq_bind, Option.bind_some, Bool.false_eq_true, if_false, ih h]

end Held

section Complaints

variable {planner : Planner} {plan : Plan}

/-- A plan leaves a file unparsable. -/
def Spoils (planner : Planner) (plan : Plan) (path : Place) : Prop :=
  ∃ written trees, plan.written planner.project planner.grammar = some written ∧
    planner.parsers.trees planner.project plan written = some trees ∧
      ((∃ data, (path, data) ∈ written ∧ (planner.parsers.unparsed path data).isSome) ∨
        ∃ old new, (path, old, new) ∈ trees ∧ (planner.parsers.grown path old new).isSome)

/-- A plan takes from a module what a consumer imports. -/
def Breaks (planner : Planner) (plan : Plan) (path : Place) : Prop :=
  (∃ written source data, plan.written planner.project planner.grammar = some written ∧
    plan.source planner.project path = some source ∧ (path, data) ∈ written ∧ Consumers.isModule path ∧
      planner.consumers.narrowed path source.data data ≠ []) ∨
    (path ∈ plan.removed ++ plan.renamed.map (·.1) ∧ (planner.consumers.gone path).isSome)

theorem unparsed_named {parsers : Parsers} {path : Place} {data : Bytes} {line : String}
    (h : parsers.unparsed path data = some line) : named line = named (spelled path) := by
  rw [Parsers.unparsed, Option.map_eq_some_iff] at h
  obtain ⟨why, -, rfl⟩ := h
  exact named_line _ _

theorem grown_named {parsers : Parsers} {path : Place} {old new : Bytes} {line : String}
    (h : parsers.grown path old new = some line) : named line = named (spelled path) := by
  simp only [Parsers.grown] at h
  split at h
  · cases h
  · obtain rfl := Option.some.inj h
    exact named_line _ _

theorem gone_named {consumers : Consumers} {path : Place} {line : String} (h : consumers.gone path = some line) :
    named line = named (spelled path) := by
  unfold Consumers.gone at h
  split at h
  · rw [Option.map_eq_some_iff] at h
    obtain ⟨consumer, -, rfl⟩ := h
    exact named_line _ _
  · cases h

theorem narrowed_named {consumers : Consumers} {path : Place} {before after : Bytes} {line : String}
    (h : line ∈ consumers.narrowed path before after) : named line = named (spelled path) := by
  unfold Consumers.narrowed at h
  split at h
  · cases h
  · rcases List.mem_append.mp h with hlost | hfewer
    · obtain ⟨name, -, hline⟩ := List.mem_filterMap.mp hlost
      obtain ⟨consumer, -, rfl⟩ := Option.map_eq_some_iff.mp hline
      exact named_line _ _
    · obtain ⟨name, -, hline⟩ := List.mem_filterMap.mp hfewer
      obtain ⟨consumer, -, rfl⟩ := Option.map_eq_some_iff.mp hline
      exact named_line _ _

/-- The parsers' complaints name the files a plan spoils. -/
theorem named_broken {newly : List String}
    (h : planner.parsers.broken planner.project planner.grammar plan = some newly) (name : String) :
    name ∈ newly.map named ↔ ∃ path, Spoils planner plan path ∧ named (spelled path) = name := by
  simp only [Parsers.broken, Option.bind_eq_bind, Option.bind_eq_some_iff] at h
  obtain ⟨written, hwritten, trees, htrees, hnewly⟩ := h
  obtain rfl := Option.some.inj hnewly
  rw [List.mem_map]
  constructor
  · rintro ⟨line, hline, rfl⟩
    rcases List.mem_append.mp hline with hplain | htree
    · obtain ⟨⟨path, data⟩, hentry, hwhy⟩ := List.mem_filterMap.mp hplain
      exact ⟨path, ⟨written, trees, hwritten, htrees, Or.inl ⟨data, hentry, hwhy ▸ rfl⟩⟩, (unparsed_named hwhy).symm⟩
    · obtain ⟨⟨path, old, new⟩, hentry, hwhy⟩ := List.mem_filterMap.mp htree
      exact ⟨path, ⟨written, trees, hwritten, htrees, Or.inr ⟨old, new, hentry, hwhy ▸ rfl⟩⟩, (grown_named hwhy).symm⟩
  · rintro ⟨path, ⟨written', trees', hwritten', htrees', hspoils⟩, rfl⟩
    obtain rfl := Option.some.inj (hwritten'.symm.trans hwritten)
    obtain rfl := Option.some.inj (htrees'.symm.trans htrees)
    rcases hspoils with ⟨data, hentry, hwhy⟩ | ⟨old, new, hentry, hwhy⟩
    · obtain ⟨line, hline⟩ := Option.isSome_iff_exists.mp hwhy
      exact ⟨line, List.mem_append_left _ (List.mem_filterMap.mpr ⟨_, hentry, hline⟩), unparsed_named hline⟩
    · obtain ⟨line, hline⟩ := Option.isSome_iff_exists.mp hwhy
      exact ⟨line, List.mem_append_right _ (List.mem_filterMap.mpr ⟨_, hentry, hline⟩), grown_named hline⟩

theorem mem_lostBy {consumers : Consumers} {project : Project} {edited : List (Place × Bytes)} {lost : List String}
    (h : consumers.lostBy project plan edited = some lost) (line : String) :
    line ∈ lost ↔ ∃ path data source, (path, data) ∈ edited ∧ plan.source project path = some source ∧
      line ∈ consumers.narrowed path source.data data := by
  induction edited generalizing lost with
  | nil =>
      cases h
      simp
  | cons entry edited ih =>
      obtain ⟨path, data⟩ := entry
      simp only [Consumers.lostBy, Option.bind_eq_bind, Option.bind_eq_some_iff] at h
      obtain ⟨source, hsource, rest, hrest, h⟩ := h
      obtain rfl := Option.some.inj h
      rw [List.mem_append, ih hrest]
      constructor
      · rintro (hfirst | ⟨path', data', source', hentry, hread, hline⟩)
        · exact ⟨path, data, source, List.mem_cons_self, hsource, hfirst⟩
        · exact ⟨path', data', source', List.mem_cons_of_mem _ hentry, hread, hline⟩
      · rintro ⟨path', data', source', hentry, hread, hline⟩
        rcases List.mem_cons.mp hentry with hsame | hlate
        · cases hsame
          obtain rfl := Option.some.inj (hread.symm.trans hsource)
          exact Or.inl hline
        · exact Or.inr ⟨path', data', source', hlate, hread, hline⟩

/-- The consumers' complaints name the modules a plan breaks for them. -/
theorem named_lost {lost : List String}
    (h : planner.consumers.broken planner.project planner.grammar plan = some lost) (name : String) :
    name ∈ lost.map named ↔ ∃ path, Breaks planner plan path ∧ named (spelled path) = name := by
  simp only [Consumers.broken, Option.bind_eq_bind, Option.bind_eq_some_iff] at h
  obtain ⟨written, hwritten, edited, hedited, hlost⟩ := h
  obtain rfl := Option.some.inj hlost
  rw [List.mem_map]
  constructor
  · rintro ⟨line, hline, rfl⟩
    rcases List.mem_append.mp hline with hnarrow | hgone
    · obtain ⟨path, data, source, hentry, hsource, hnarrow⟩ := (mem_lostBy hedited line).mp hnarrow
      obtain ⟨hentry, hmodule⟩ := List.mem_filter.mp hentry
      exact ⟨path, Or.inl ⟨written, source, data, hwritten, hsource, hentry, hmodule, List.ne_nil_of_mem hnarrow⟩,
        (narrowed_named hnarrow).symm⟩
    · obtain ⟨path, hpath, hwhy⟩ := List.mem_filterMap.mp hgone
      exact ⟨path, Or.inr ⟨hpath, hwhy ▸ rfl⟩, (gone_named hwhy).symm⟩
  · rintro ⟨path, ⟨written', source, data, hwritten', hsource, hentry, hmodule, hnarrow⟩ | ⟨hpath, hwhy⟩, rfl⟩
    · obtain rfl := Option.some.inj (hwritten'.symm.trans hwritten)
      obtain ⟨line, hline⟩ := List.exists_mem_of_ne_nil _ hnarrow
      have hlost := (mem_lostBy hedited line).mpr
        ⟨path, data, source, List.mem_filter.mpr ⟨hentry, hmodule⟩, hsource, hline⟩
      exact ⟨line, List.mem_append_left _ hlost, narrowed_named hline⟩
    · obtain ⟨line, hline⟩ := Option.isSome_iff_exists.mp hwhy
      exact ⟨line, List.mem_append_right _ (List.mem_filterMap.mpr ⟨_, hpath, hline⟩), gone_named hline⟩

end Complaints

section Rounds

variable {planner : Planner} {start state next : State} {plan : Plan} {groups : List Candidate}

/-- The repairs taken were neither refused nor withheld. -/
theorem takenFrom_open {project : Project} {candidates : List Candidate} {last : Plan}
    (h : takenFrom project state plan candidates = some (last, groups)) :
    ∀ group ∈ groups, group ∈ candidates ∧ group.id ∉ state.refused ∧ isHeld state.held group.edits = some false := by
  induction candidates generalizing plan last groups with
  | nil =>
      cases h
      exact fun group hgroup => (List.not_mem_nil hgroup).elim
  | cons first candidates ih =>
      simp only [takenFrom, Option.bind_eq_bind, Option.bind_eq_some_iff] at h
      obtain ⟨held, hheld, h⟩ := h
      split at h
      · intro group hgroup
        obtain ⟨hmem, hopen⟩ := ih h group hgroup
        exact ⟨List.mem_cons_of_mem _ hmem, hopen⟩
      · rename_i hfree
        rw [not_or, Bool.not_eq_true] at hfree
        simp only [Option.bind_eq_some_iff] at h
        obtain ⟨answer, -, ⟨rest, later⟩, hrest, h⟩ := h
        obtain ⟨-, rfl⟩ := Prod.mk.inj (Option.some.inj h)
        have hlater : ∀ group ∈ later, group ∈ first :: candidates ∧ group.id ∉ state.refused ∧
            isHeld state.held group.edits = some false := fun group hgroup =>
          (ih hrest group hgroup).imp_left (List.mem_cons_of_mem _)
        cases htaken : answer.2 with
        | false => exact hlater
        | true =>
            intro group hgroup
            rcases List.mem_cons.mp hgroup with rfl | hlate
            · exact ⟨List.mem_cons_self, hfree.1, hfree.2 ▸ hheld⟩
            · exact hlater group hlate

theorem alone_subset {taken alone : List Candidate} (h : planner.alone taken = some alone) : alone ⊆ taken := by
  induction taken generalizing alone with
  | nil =>
      cases h
      exact List.Subset.refl _
  | cons group taken ih =>
      simp only [Planner.alone, Option.bind_eq_bind, Option.bind_eq_some_iff] at h
      obtain ⟨trial, -, lost, -, rest, hrest, h⟩ := h
      obtain rfl := Option.some.inj h
      split
      · exact List.subset_cons_of_subset _ (ih hrest)
      · exact List.cons_subset_cons _ (ih hrest)

/-- What is refused are some of the repairs in the files named, and none only where no repair edits one. -/
theorem refuse_eq {lost : List String} {refused : List ℕ} (h : planner.refuse groups lost = some refused) :
    ∃ causes, refused = causes.map Candidate.id ∧ causes ⊆ Planner.near (lost.map named) groups ∧
      (causes = [] → Planner.near (lost.map named) groups = []) := by
  simp only [Planner.refuse, Option.bind_eq_bind, Option.bind_eq_some_iff] at h
  obtain ⟨alone, halone, h⟩ := h
  obtain rfl := Option.some.inj h
  refine ⟨_, rfl, ?_, fun hnone => ?_⟩
  · split
    · exact List.Subset.refl _
    · exact alone_subset halone
  · split at hnone
    · exact hnone
    · contradiction

/-- What a round does that goes again: it withholds the files its plan spoils, or, where it spoils none, refuses
repairs for the modules it breaks. -/
theorem again_cases (h : planner.round state = .again next) : ∃ plan groups, planner.taken state = some (plan, groups) ∧
    ((∃ newly, planner.parsers.broken planner.project planner.grammar plan = some newly ∧ newly ≠ [] ∧
        next = { state with broken := state.broken ++ newly, held := state.held ++ newly.map named }) ∨
      (planner.parsers.broken planner.project planner.grammar plan = some [] ∧
        ∃ lost refused, planner.consumers.broken planner.project planner.grammar plan = some lost ∧ lost ≠ [] ∧
          planner.refuse groups lost = some refused ∧
          next = { state with refused := state.refused ++ refused,
                              refusals := (state.refusals ++ lost).eraseDups })) := by
  have hround : (planner.taken state).bind (fun taken => planner.judged state taken.1 taken.2) = some (.again next) := by
    unfold Planner.round at h
    split at h
    · cases h
    · rename_i round hround
      rw [hround, h]
  obtain ⟨⟨plan, groups⟩, htaken, hjudged⟩ := Option.bind_eq_some_iff.mp hround
  refine ⟨plan, groups, htaken, ?_⟩
  simp only [Planner.judged, Option.bind_eq_bind, Option.bind_eq_some_iff] at hjudged
  obtain ⟨newly, hnewly, hjudged⟩ := hjudged
  split at hjudged
  · rename_i hsome
    cases hjudged
    exact Or.inl ⟨newly, hnewly, hsome, rfl⟩
  · rename_i hnone
    obtain rfl := not_not.mp hnone
    simp only [Option.bind_eq_some_iff] at hjudged
    obtain ⟨lost, hlost, hjudged⟩ := hjudged
    split at hjudged
    · rename_i hsome
      obtain ⟨refused, hrefused, hjudged⟩ := Option.bind_eq_some_iff.mp hjudged
      cases hjudged
      exact Or.inr ⟨hnewly, lost, refused, hlost, hsome, hrefused, rfl⟩
    · cases hjudged

variable (planner)

/-- A round withholds or refuses one of the repairs it took. -/
def Progress (state next : State) : Prop :=
  ∃ plan groups, planner.taken state = some (plan, groups) ∧
    ∃ group ∈ groups, group.id ∈ next.refused ∨ isHeld next.held group.edits = some true

/-- The files a round finds broken name one of the repairs it took. Up to its first colon, the path of a file its plan
spoils is what an edit of a repair is filed under, or a folder of it; where its plan spoils none, the path of a module
it breaks is, up to its first colon, what an edit of a repair is filed under. -/
def Named (state : State) : Prop :=
  ∃ plan groups, planner.taken state = some (plan, groups) ∧
    ∃ path, ∃ group ∈ groups, ∃ edit ∈ group.edits, ∃ file, edit.file = some file ∧
      ((Spoils planner plan path ∧ isUnder file [named (spelled path)] = true) ∨
        ((∀ other, ¬ Spoils planner plan other) ∧ Breaks planner plan path ∧ spelled file = named (spelled path)))

/-- A state the rounds of the loop come to. -/
def Reached (start state : State) : Prop :=
  Relation.ReflTransGen (fun state next => planner.round state = .again next) start state

/-- The loop is left after so many rounds. -/
def Ends (start : State) : Prop := ∃ rounds, planner.plan rounds start ≠ none

variable {planner}

theorem mem_near {names : List String} {group : Candidate} : group ∈ Planner.near names groups ↔
    group ∈ groups ∧ ∃ edit ∈ group.edits, ∃ file, edit.file = some file ∧ spelled file ∈ names := by
  simp only [Planner.near, List.mem_filter, List.any_eq_true, List.mem_filterMap, decide_eq_true_eq]
  refine and_congr_right fun _ => ⟨?_, ?_⟩
  · rintro ⟨file, ⟨edit, hedit, hfile⟩, hnamed⟩
    exact ⟨edit, hedit, file, hfile, hnamed⟩
  · rintro ⟨edit, hedit, file, hfile, hnamed⟩
    exact ⟨file, ⟨edit, hedit, hfile⟩, hnamed⟩

/-- A round that goes again closes one of its repairs exactly when what it finds broken names one. -/
theorem progress_iff_named (h : planner.round state = .again next) : Progress planner state next ↔ Named planner state := by
  obtain ⟨plan, groups, htaken, hcases⟩ := again_cases h
  have hopen := takenFrom_open htaken
  have hfiled : ∀ group ∈ groups, ∀ edit ∈ group.edits, ∃ path, edit.file = some path ∧
      isUnder path state.held = false := fun group hgroup => isHeld_eq_false.mp (hopen group hgroup).2.2
  have hprogress : Progress planner state next ↔
      ∃ group ∈ groups, group.id ∈ next.refused ∨ isHeld next.held group.edits = some true := by
    constructor
    · rintro ⟨plan', groups', htaken', hclosed⟩
      obtain ⟨-, rfl⟩ := Prod.mk.inj (Option.some.inj (htaken'.symm.trans htaken))
      exact hclosed
    · exact fun hclosed => ⟨plan, groups, htaken, hclosed⟩
  have hnamed : Named planner state ↔ ∃ path, ∃ group ∈ groups, ∃ edit ∈ group.edits, ∃ file, edit.file = some file ∧
      ((Spoils planner plan path ∧ isUnder file [named (spelled path)] = true) ∨
        ((∀ other, ¬ Spoils planner plan other) ∧ Breaks planner plan path ∧ spelled file = named (spelled path))) := by
    constructor
    · rintro ⟨plan', groups', htaken', hnames⟩
      obtain ⟨rfl, rfl⟩ := Prod.mk.inj (Option.some.inj (htaken'.symm.trans htaken))
      exact hnames
    · exact fun hnames => ⟨plan, groups, htaken, hnames⟩
  rw [hprogress, hnamed]
  rcases hcases with ⟨newly, hnewly, hsome, rfl⟩ | ⟨hnewly, lost, refused, hlost, -, hrefused, rfl⟩
  · have hspoils := named_broken hnewly
    obtain ⟨line, hline⟩ := List.exists_mem_of_ne_nil _ hsome
    obtain ⟨spoilt, hspoilt, -⟩ := (hspoils _).mp (List.mem_map_of_mem hline)
    constructor
    · rintro ⟨group, hgroup, hrefused | hheld⟩
      · exact absurd hrefused (hopen group hgroup).2.1
      · obtain ⟨edit, hedit, file, hfile, hunder⟩ := (isHeld_eq_true fun edit hedit =>
          (hfiled group hgroup edit hedit).imp fun _ => And.left).mp hheld
        obtain ⟨path, hpath, hfree⟩ := hfiled group hgroup edit hedit
        obtain rfl := Option.some.inj (hpath.symm.trans hfile)
        rcases isUnder_append.mp hunder with hbefore | hnew
        · exact absurd hbefore (Bool.eq_false_iff.mp hfree)
        · obtain ⟨name, hname, hunder⟩ := isUnder_iff_one.mp hnew
          obtain ⟨broken, hbroken, rfl⟩ := (hspoils name).mp hname
          exact ⟨broken, group, hgroup, edit, hedit, path, hfile, Or.inl ⟨hbroken, hunder⟩⟩
    · rintro ⟨path, group, hgroup, edit, hedit, file, hfile, ⟨hbroken, hunder⟩ | ⟨hnone, -⟩⟩
      · refine ⟨group, hgroup, Or.inr ((isHeld_eq_true fun edit hedit =>
          (hfiled group hgroup edit hedit).imp fun _ => And.left).mpr ⟨edit, hedit, file, hfile, ?_⟩)⟩
        exact isUnder_append.mpr (Or.inr (isUnder_iff_one.mpr ⟨_, (hspoils _).mpr ⟨path, hbroken, rfl⟩, hunder⟩))
      · exact absurd hspoilt (hnone spoilt)
  · have hclean : ∀ other, ¬ Spoils planner plan other := fun other hother =>
      List.not_mem_nil ((named_broken hnewly _).mpr ⟨other, hother, rfl⟩)
    obtain ⟨causes, rfl, hcauses, hnear⟩ := refuse_eq hrefused
    constructor
    · rintro ⟨group, hgroup, hclosed | hheld⟩
      · rcases List.mem_append.mp hclosed with hbefore | hnew
        · exact absurd hbefore (hopen group hgroup).2.1
        · obtain ⟨cause, hcause, -⟩ := List.mem_map.mp hnew
          obtain ⟨hcause, edit, hedit, file, hfile, hname⟩ := mem_near.mp (hcauses hcause)
          obtain ⟨path, hbreaks, hpath⟩ := (named_lost hlost _).mp hname
          exact ⟨path, cause, hcause, edit, hedit, file, hfile, Or.inr ⟨hclean, hbreaks, hpath.symm⟩⟩
      · rw [(hopen group hgroup).2.2] at hheld
        cases hheld
    · rintro ⟨path, group, hgroup, edit, hedit, file, hfile, ⟨hspoils, -⟩ | ⟨-, hbreaks, hname⟩⟩
      · exact absurd hspoils (hclean path)
      · have hmem : group ∈ Planner.near (lost.map named) groups := mem_near.mpr
          ⟨hgroup, edit, hedit, file, hfile, (named_lost hlost _).mpr ⟨path, hbreaks, hname.symm⟩⟩
        have hsome : causes ≠ [] := fun hnone => List.ne_nil_of_mem hmem (hnear hnone)
        obtain ⟨cause, hcause⟩ := List.exists_mem_of_ne_nil _ hsome
        refine ⟨cause, (mem_near.mp (hcauses hcause)).1, Or.inl ?_⟩
        exact List.mem_append_right _ (List.mem_map_of_mem hcause)

/-- A round withholds and refuses what was withheld and refused before it. -/
theorem again_grows (h : planner.round state = .again next) :
    (∃ more, next.held = state.held ++ more) ∧ ∃ more, next.refused = state.refused ++ more := by
  obtain ⟨plan, groups, -, ⟨newly, -, -, rfl⟩ | ⟨-, lost, refused, -, -, -, rfl⟩⟩ := again_cases h
  · exact ⟨⟨_, rfl⟩, ⟨[], (List.append_nil _).symm⟩⟩
  · exact ⟨⟨[], (List.append_nil _).symm⟩, ⟨_, rfl⟩⟩

variable (planner) in
/-- The repairs that are neither refused nor withheld. -/
def openings (state : State) : Finset Candidate :=
  planner.repairs.toFinset.filter fun group => group.id ∉ state.refused ∧ isHeld state.held group.edits ≠ some true

/-- A round that names one of its repairs leaves fewer open. -/
theorem openings_lt (h : planner.round state = .again next) (hnamed : Named planner state) :
    (openings planner next).card < (openings planner state).card := by
  obtain ⟨⟨held, hheld⟩, refused, hrefused⟩ := again_grows h
  obtain ⟨plan, groups, htaken, group, hgroup, hclosed⟩ := (progress_iff_named h).mpr hnamed
  obtain ⟨hmem, hopen⟩ := takenFrom_open htaken group hgroup
  refine Finset.card_lt_card ⟨fun other hother => ?_, fun hsubset => ?_⟩
  · rw [openings, Finset.mem_filter] at hother ⊢
    obtain ⟨hother, hfree, hout⟩ := hother
    refine ⟨hother, fun hin => hfree ?_, fun hin => hout ?_⟩
    · exact hrefused ▸ List.mem_append_left _ hin
    · exact hheld ▸ isHeld_mono hin
  · have hstill : group ∈ openings planner next := hsubset (Finset.mem_filter.mpr
      ⟨List.mem_toFinset.mpr hmem, hopen.1, hopen.2 ▸ by decide⟩)
    obtain ⟨-, hfree, hout⟩ := Finset.mem_filter.mp hstill
    exact hclosed.elim hfree hout

theorem plan_again (h : planner.round state = .again next) (rounds : ℕ) :
    planner.plan (rounds + 1) state = planner.plan rounds next := by
  rw [Planner.plan, h]

theorem ends_again (h : planner.round state = .again next) : Ends planner state ↔ Ends planner next := by
  constructor
  · rintro ⟨rounds, hleft⟩
    cases rounds with
    | zero => exact absurd rfl hleft
    | succ rounds => exact ⟨rounds, plan_again h rounds ▸ hleft⟩
  · rintro ⟨rounds, hleft⟩
    exact ⟨rounds + 1, (plan_again h rounds).symm ▸ hleft⟩

/-- Where every round that goes again names one of its repairs, the loop is left. -/
theorem ends_of_named (hnamed : ∀ state next, Reached planner start state → planner.round state = .again next →
    Named planner state) : Ends planner start := by
  induction hcount : (openings planner start).card using Nat.strongRecOn generalizing start with
  | ind count ih =>
      cases hround : planner.round start with
      | raised => exact ⟨1, by rw [Planner.plan, hround]; exact Option.some_ne_none _⟩
      | planned plan groups broken => exact ⟨1, by rw [Planner.plan, hround]; exact Option.some_ne_none _⟩
      | again next =>
          have hlt := openings_lt hround (hnamed start next Relation.ReflTransGen.refl hround)
          refine (ends_again hround).mpr (ih _ (hcount ▸ hlt) (fun state later hreached hagain => ?_) rfl)
          exact hnamed state later (Relation.ReflTransGen.head hround hreached) hagain

end Rounds

section Stalled

variable {project : Project} {grammar : Grammar} {plan last : Plan} {edits : List Edit} (deferred : ℕ)

/-! How many findings a plan put off bears on nothing else it holds. -/

theorem expandAll_deferred : Plan.expandAll project { plan with deferred } edits = Plan.expandAll project plan edits := by
  induction edits with
  | nil => rfl
  | cons edit edits ih =>
      have hone : Plan.expand project { plan with deferred } edit = Plan.expand project plan edit := by
        cases edit <;> rfl
      rw [Plan.expandAll, Plan.expandAll, hone, ih]

theorem add_deferred {taken : Bool} (h : Plan.add project plan edits = some (last, taken)) :
    ∃ later, Plan.add project { plan with deferred } edits = some ({ last with deferred := later }, taken) := by
  simp only [Plan.add, Option.bind_eq_some_iff] at h
  obtain ⟨held, hheld, expanded, hexpanded, h⟩ := h
  have hexpanded' : (if held then some [] else Plan.expandAll project { plan with deferred } edits) = some expanded := by
    rw [expandAll_deferred, hexpanded]
  have hcollides : Plan.collides project { plan with deferred } edits expanded = Plan.collides project plan edits expanded :=
    rfl
  rw [Plan.add, hheld, Option.bind_some, hexpanded', Option.bind_some, hcollides]
  split at h
  · obtain ⟨rfl, rfl⟩ := Prod.mk.inj (Option.some.inj h)
    rename_i hfree
    rw [if_pos hfree]
    exact ⟨deferred + 1, rfl⟩
  · obtain ⟨rfl, rfl⟩ := Prod.mk.inj (Option.some.inj h)
    rename_i hfree
    rw [if_neg hfree]
    exact ⟨deferred, rfl⟩

theorem written_deferred : Plan.written project grammar { plan with deferred } = Plan.written project grammar plan := by
  have himported : ∀ imports : List (Place × List Text), Plan.importedFrom project grammar { plan with deferred } imports =
      Plan.importedFrom project grammar plan imports := by
    intro imports
    induction imports with
    | nil => rfl
    | cons entry imports ih =>
        rw [Plan.importedFrom, Plan.importedFrom, ih]
        rfl
  have hspliced : ∀ edits : List (Place × List TextEdit), Plan.splicedAll project { plan with deferred } edits =
      Plan.splicedAll project plan edits := by
    intro edits
    induction edits with
    | nil => rfl
    | cons entry edits ih =>
        rw [Plan.splicedAll, Plan.splicedAll, ih]
        rfl
  have hedits : Plan.edits project grammar { plan with deferred } = Plan.edits project grammar plan := by
    rw [Plan.edits, Plan.edits, Plan.imported, Plan.imported, himported]
  rw [Plan.written, Plan.written, hedits]
  simp only [hspliced]

variable {planner : Planner}

theorem trees_deferred {written : List (Place × Bytes)} :
    planner.parsers.trees project { plan with deferred } written = planner.parsers.trees project plan written := by
  induction written with
  | nil => rfl
  | cons entry written ih =>
      rw [Parsers.trees, Parsers.trees, ih]
      rfl

theorem parsers_deferred : planner.parsers.broken project grammar { plan with deferred } =
    planner.parsers.broken project grammar plan := by
  rw [Parsers.broken, Parsers.broken, written_deferred]
  simp only [trees_deferred]

theorem consumers_deferred : planner.consumers.broken project grammar { plan with deferred } =
    planner.consumers.broken project grammar plan := by
  have hlost : ∀ edited : List (Place × Bytes), planner.consumers.lostBy project { plan with deferred } edited =
      planner.consumers.lostBy project plan edited := by
    intro edited
    induction edited with
    | nil => rfl
    | cons entry edited ih =>
        rw [Consumers.lostBy, Consumers.lostBy, ih]
        rfl
  rw [Consumers.broken, Consumers.broken, written_deferred]
  simp only [hlost]

theorem isHeld_answers {held : List String} {answer : Bool} (h : isHeld held edits = some answer) (more : List String) :
    ∃ later, isHeld (held ++ more) edits = some later := by
  cases answer with
  | true => exact ⟨true, isHeld_mono h⟩
  | false =>
      have hfiled := isHeld_eq_false.mp h
      cases hlater : isHeld (held ++ more) edits with
      | some later => exact ⟨later, rfl⟩
      | none =>
          have hnot : ¬ ∀ edit ∈ edits, ∃ path, edit.file = some path ∧ isUnder path (held ++ more) = false := fun hall => by
            rw [isHeld_eq_false.mpr hall] at hlater
            cases hlater
          have hunder : isHeld (held ++ more) edits = some true :=
            (isHeld_eq_true fun edit hedit => (hfiled edit hedit).imp fun _ => And.left).mpr <| by
              by_contra hnone
              refine hnot fun edit hedit => ?_
              obtain ⟨path, hfile, -⟩ := hfiled edit hedit
              exact ⟨path, hfile, Bool.eq_false_iff.mpr fun htrue => hnone ⟨edit, hedit, path, hfile, htrue⟩⟩
          rw [hunder] at hlater
          cases hlater

/-- A round that withholds and refuses none of the repairs taken takes the same ones. -/
theorem takenFrom_again {state next : State} {candidates groups : List Candidate}
    (h : takenFrom project state plan candidates = some (last, groups)) (hrefused : next.refused = state.refused)
    {more : List String} (hheld : next.held = state.held ++ more)
    (hfree : ∀ group ∈ groups, isHeld next.held group.edits = some false) :
    ∃ later, takenFrom project next { plan with deferred } candidates = some ({ last with deferred := later }, groups) := by
  induction candidates generalizing plan last groups deferred with
  | nil =>
      cases h
      exact ⟨deferred, rfl⟩
  | cons first candidates ih =>
      simp only [takenFrom, Option.bind_eq_bind, Option.bind_eq_some_iff] at h
      obtain ⟨answer, hanswer, h⟩ := h
      obtain ⟨later, hlater⟩ := isHeld_answers hanswer more
      rw [← hheld] at hlater
      simp only [takenFrom, hlater, hrefused, Option.bind_eq_bind, Option.bind_some]
      split at h
      · rename_i hout
        have hstill : first.id ∈ state.refused ∨ later = true := hout.imp_right fun hanswered => by
          rw [hanswered] at hanswer
          rw [hheld, isHeld_mono hanswer] at hlater
          exact (Option.some.inj hlater).symm
        rw [if_pos hstill]
        exact ih deferred h hfree
      · rename_i hin
        rw [not_or, Bool.not_eq_true] at hin
        simp only [Option.bind_eq_some_iff] at h
        obtain ⟨⟨middle, taken⟩, hadd, ⟨rest, others⟩, hrest, h⟩ := h
        obtain ⟨rfl, rfl⟩ := Prod.mk.inj (Option.some.inj h)
        obtain ⟨put, hput⟩ := add_deferred deferred hadd
        cases taken with
        | true =>
            have hopen : later = false := by
              rw [hfree first List.mem_cons_self] at hlater
              exact (Option.some.inj hlater).symm
            obtain ⟨count, hcount⟩ := ih put hrest fun group hgroup => hfree group (List.mem_cons_of_mem _ hgroup)
            rw [if_neg (by simp [hin.1, hopen]), hput, Option.bind_some, hcount]
            exact ⟨count, rfl⟩
        | false =>
            have hmiddle : ∀ count, ({ middle with deferred := count } : Plan) = { plan with deferred := count } := by
              obtain ⟨-, rfl⟩ | ⟨hfalse, -⟩ := Plan.add_cases hadd
              · exact fun count => rfl
              · cases hfalse
            by_cases hwithheld : later = true
            · rw [if_pos (Or.inr hwithheld), ← hmiddle deferred]
              exact ih deferred hrest hfree
            · obtain ⟨count, hcount⟩ := ih put hrest hfree
              rw [if_neg (by simp [hin.1, hwithheld]), hput, Option.bind_some, hcount]
              exact ⟨count, rfl⟩

/-- A round whose plan differs in what it put off from one that goes again goes again. -/
theorem round_again {state next : State} {groups : List Candidate} (htaken : planner.taken state = some (plan, groups))
    (h : planner.round state = .again next) {other : State}
    (hother : planner.taken other = some ({ plan with deferred }, groups)) :
    ∃ later, planner.round other = .again later := by
  obtain ⟨plan', groups', htaken', hcases⟩ := again_cases h
  obtain ⟨rfl, rfl⟩ := Prod.mk.inj (Option.some.inj (htaken'.symm.trans htaken))
  rw [Planner.round, hother]
  simp only [Option.bind_some, Planner.judged, parsers_deferred, consumers_deferred, Option.bind_eq_bind]
  rcases hcases with ⟨newly, hnewly, hsome, -⟩ | ⟨hnewly, lost, refused, hlost, hsome, hrefused, -⟩
  · rw [hnewly, Option.bind_some, if_pos hsome]
    exact ⟨_, rfl⟩
  · rw [hnewly, Option.bind_some, if_neg (not_not.mpr rfl), hlost, Option.bind_some, if_pos hsome, hrefused]
    exact ⟨_, rfl⟩

theorem spoils_deferred {path : Place} : Spoils planner { plan with deferred } path ↔ Spoils planner plan path := by
  simp only [Spoils, written_deferred, trees_deferred]

theorem breaks_deferred {path : Place} : Breaks planner { plan with deferred } path ↔ Breaks planner plan path := by
  have hsource : Plan.source planner.project { plan with deferred } path = Plan.source planner.project plan path := rfl
  simp only [Breaks, written_deferred, hsource]

/-- A round that goes again and names none of its repairs comes to another such round. -/
theorem stalled_again {state next : State} (h : planner.round state = .again next) (hstalled : ¬ Named planner state) :
    ∃ later, planner.round next = .again later ∧ ¬ Named planner next := by
  have hstuck : ¬ Progress planner state next := fun hprogress => hstalled ((progress_iff_named h).mp hprogress)
  obtain ⟨⟨held, hheld⟩, -⟩ := again_grows h
  obtain ⟨plan, groups, htaken, hcases⟩ := again_cases h
  have hopen := takenFrom_open htaken
  have hfree : ∀ group ∈ groups, isHeld next.held group.edits = some false := by
    intro group hgroup
    obtain ⟨answer, hanswer⟩ := isHeld_answers (hopen group hgroup).2.2 held
    rw [← hheld] at hanswer
    cases answer with
    | false => exact hanswer
    | true => exact absurd ⟨plan, groups, htaken, group, hgroup, Or.inr hanswer⟩ hstuck
  have hrefused : next.refused = state.refused := by
    rcases hcases with ⟨newly, -, -, rfl⟩ | ⟨-, lost, refused, -, -, hrefused, rfl⟩
    · rfl
    · obtain ⟨causes, rfl, hcauses, -⟩ := refuse_eq hrefused
      cases causes with
      | nil => exact List.append_nil _
      | cons cause causes =>
          have hmem : cause ∈ groups := (mem_near.mp (hcauses List.mem_cons_self)).1
          have hclosed : cause.id ∈ state.refused ++ (cause :: causes).map Candidate.id :=
            List.mem_append_right _ (List.mem_map_of_mem List.mem_cons_self)
          exact absurd ⟨plan, groups, htaken, cause, hmem, Or.inl hclosed⟩ hstuck
  obtain ⟨deferred, hnext⟩ := takenFrom_again 0 htaken hrefused hheld hfree
  refine (round_again deferred htaken h hnext).imp fun later hlater => ⟨hlater, ?_⟩
  rintro ⟨plan', groups', htaken', path, group, hgroup, edit, hedit, file, hfile, hbroken⟩
  obtain ⟨rfl, rfl⟩ := Prod.mk.inj (Option.some.inj (htaken'.symm.trans hnext))
  simp only [spoils_deferred, breaks_deferred] at hbroken
  exact hstalled ⟨plan, groups', htaken, path, group, hgroup, edit, hedit, file, hfile, hbroken⟩

theorem ends_reached {start state : State} (hends : Ends planner start) (hreached : Reached planner start state) :
    Ends planner state := by
  induction hreached with
  | refl => exact hends
  | tail hearlier hstep ih => exact (ends_again hstep).mp ih

/-- A loop that is left names a repair in every round that goes again. -/
theorem named_of_ends {start state next : State} (hends : Ends planner start) (hreached : Reached planner start state)
    (h : planner.round state = .again next) : Named planner state := by
  have hforever : ∀ rounds state, (∃ next, planner.round state = .again next ∧ ¬ Named planner state) →
      planner.plan rounds state = none := by
    intro rounds
    induction rounds with
    | zero => exact fun state _ => rfl
    | succ rounds ih =>
        rintro state ⟨next, hagain, hstalled⟩
        obtain ⟨later, hlater, hstill⟩ := stalled_again hagain hstalled
        rw [plan_again hagain]
        exact ih next ⟨later, hlater, hstill⟩
  by_contra hstalled
  obtain ⟨rounds, hleft⟩ := ends_reached hends hreached
  exact hleft (hforever rounds state ⟨next, h, hstalled⟩)

/-- The loop is left, and each round that goes again withholds or refuses one of the repairs it took, exactly when each
such round names one of them. -/
theorem planned_iff (planner : Planner) (start : State) :
    (Ends planner start ∧ ∀ state next, Reached planner start state → planner.round state = .again next →
        Progress planner state next) ↔
      ∀ state next, Reached planner start state → planner.round state = .again next → Named planner state := by
  constructor
  · rintro ⟨hends, -⟩ state next hreached hagain
    exact named_of_ends hends hreached hagain
  · intro hnamed
    refine ⟨ends_of_named hnamed, fun state next hreached hagain => ?_⟩
    exact (progress_iff_named hagain).mpr (hnamed state next hreached hagain)

end Stalled

section Home

variable {planner : Planner} {start state next : State} {plan last : Plan} {groups more : List Candidate}

/-- A repair whose edits change the files they are filed under and no others, none of them with a colon in its path. -/
def Candidate.Home (group : Candidate) : Prop :=
  ∀ edit ∈ group.edits, (∀ file, edit.file = some file → ':' ∉ (spelled file).toList) ∧
    ∀ span before after, edit = .move span before after → ∃ landing, anchor before after = some landing ∧
      landing.path = span.path

/-- Every path a plan writes, takes away or renames is one an edit of its repairs is filed under. -/
structure Filed (plan : Plan) (groups : List Candidate) : Prop where
  text : ∀ piece ∈ plan.text, ∃ group ∈ groups, ∃ edit ∈ group.edits, edit.file = some piece.path
  imports : ∀ path ∈ plan.imports.map (·.1), ∃ group ∈ groups, ∃ edit ∈ group.edits, edit.file = some path
  gone : ∀ path ∈ plan.removed ++ plan.renamed.map (·.1), ∃ group ∈ groups, ∃ edit ∈ group.edits, edit.file = some path

theorem home_piece {project : Project} {edit : Edit} {pieces : List TextEdit}
    (hhome : ∀ span before after, edit = .move span before after → ∃ landing, anchor before after = some landing ∧
      landing.path = span.path) (h : Plan.expand project plan edit = some pieces) :
    ∀ piece ∈ pieces, edit.file = some piece.path := by
  rcases Plan.expand_eq h with hplain | ⟨span, before, after, rfl⟩
  · exact hplain
  · obtain ⟨landing, hlanding, hpath⟩ := hhome span before after rfl
    simp only [Plan.expand, Option.bind_eq_bind, Option.bind_eq_some_iff] at h
    obtain ⟨source, -, range, -, moved, -, landed, hlanded, h⟩ := h
    cases h
    obtain ⟨landing', piece', hlanding', rfl, hpiece', -⟩ := Plan.inserted_eq hlanded
    obtain rfl := Option.some.inj (hlanding'.symm.trans hlanding)
    intro piece hpiece
    rcases List.mem_cons.mp hpiece with rfl | hlate
    · rfl
    · rw [List.mem_singleton.mp hlate, hpiece', hpath]
      rfl

/-- Taking a repair at home keeps what a plan changes filed. -/
theorem Filed.taking {project : Project} {group : Candidate} {expanded : List TextEdit} (hfiled : Filed plan groups)
    (hhome : group.Home) (hexpanded : Plan.expandAll project plan group.edits = some expanded) :
    Filed (plan.taking group.edits expanded) (groups ++ [group]) := by
  have hbefore : ∀ {path : Place}, (∃ group ∈ groups, ∃ edit ∈ group.edits, edit.file = some path) →
      ∃ other ∈ groups ++ [group], ∃ edit ∈ other.edits, edit.file = some path := fun ⟨other, hother, hedit⟩ =>
    ⟨other, List.mem_append_left _ hother, hedit⟩
  have hnew : ∀ {path : Place}, (∃ edit ∈ group.edits, edit.file = some path) →
      ∃ other ∈ groups ++ [group], ∃ edit ∈ other.edits, edit.file = some path := fun hedit =>
    ⟨group, List.mem_append_right _ (List.mem_singleton_self _), hedit⟩
  refine ⟨fun piece hpiece => ?_, fun path hpath => ?_, fun path hpath => ?_⟩
  · rcases List.mem_append.mp hpiece with hold | hlate
    · exact hbefore (hfiled.text piece hold)
    · obtain ⟨edit, hedit, pieces, hpieces, hmem⟩ := (Plan.mem_expandAll hexpanded).mp hlate
      exact hnew ⟨edit, hedit, home_piece (hhome edit hedit).2 hpieces piece hmem⟩
  · rcases Plan.mem_keys_imports hpath with hold | ⟨statement, hedit⟩
    · exact hbefore (hfiled.imports path hold)
    · exact hnew ⟨_, hedit, rfl⟩
  · rcases List.mem_append.mp hpath with hremoved | hrenamed
    · rcases List.mem_append.mp hremoved with hold | hlate
      · exact hbefore (hfiled.gone path (List.mem_append_left _ hold))
      · exact hnew ⟨_, Plan.mem_removedPath.mp hlate, rfl⟩
    · rcases OrderedMap.mem_keys_putAll.mp hrenamed with hlate | hold
      · obtain ⟨entry, hentry, rfl⟩ := List.mem_map.mp (OrderedMap.mem_keys_ofPairs.mp hlate)
        exact hnew ⟨_, Plan.mem_renamePair.mp hentry, rfl⟩
      · exact hbefore (hfiled.gone path (List.mem_append_right _ hold))

theorem Filed.takenFrom {project : Project} {candidates : List Candidate} (hfiled : Filed plan groups)
    (hhome : ∀ group ∈ candidates, group.Home) (h : takenFrom project state plan candidates = some (last, more)) :
    Filed last (groups ++ more) := by
  induction candidates generalizing plan groups last more with
  | nil =>
      cases h
      rwa [List.append_nil]
  | cons first candidates ih =>
      rw [List.forall_mem_cons] at hhome
      simp only [Planning.takenFrom, Option.bind_eq_bind, Option.bind_eq_some_iff] at h
      obtain ⟨held, -, h⟩ := h
      split at h
      · exact ih hfiled hhome.2 h
      · simp only [Option.bind_eq_some_iff] at h
        obtain ⟨⟨middle, taken⟩, hadd, ⟨rest, later⟩, hrest, h⟩ := h
        obtain ⟨rfl, rfl⟩ := Prod.mk.inj (Option.some.inj h)
        rcases Plan.add_cases hadd with ⟨rfl, rfl⟩ | ⟨rfl, expanded, -, hexpanded, -, rfl⟩
        · have hsame : Filed { plan with deferred := plan.deferred + 1 } groups :=
            ⟨hfiled.text, hfiled.imports, hfiled.gone⟩
          exact ih hsame hhome.2 hrest
        · have hnext := ih (hfiled.taking hhome.1 hexpanded) hhome.2 hrest
          rwa [List.append_assoc] at hnext

theorem mem_of_trees {parsers : Parsers} {project : Project} {written : List (Place × Bytes)}
    {trees : List (Place × Bytes × Bytes)} (h : parsers.trees project plan written = some trees) :
    ∀ tree ∈ trees, tree.1 ∈ written.map (·.1) := by
  induction written generalizing trees with
  | nil =>
      cases h
      exact fun tree htree => (List.not_mem_nil htree).elim
  | cons entry written ih =>
      simp only [Parsers.trees, Option.bind_eq_bind, Option.bind_eq_some_iff] at h
      obtain ⟨rest, hrest, h⟩ := h
      split at h
      · obtain rfl := Option.some.inj h
        exact fun tree htree => List.mem_cons_of_mem _ (ih hrest tree htree)
      · obtain ⟨source, -, h⟩ := Option.bind_eq_some_iff.mp h
        obtain rfl := Option.some.inj h
        intro tree htree
        rcases List.mem_cons.mp htree with rfl | hlate
        · exact List.mem_cons_self
        · exact List.mem_cons_of_mem _ (ih hrest tree hlate)

theorem Filed.written {written : List (Place × Bytes)} {path : Place} (hfiled : Filed plan groups)
    (h : plan.written planner.project planner.grammar = some written) (hpath : path ∈ written.map (·.1)) :
    ∃ group ∈ groups, ∃ edit ∈ group.edits, edit.file = some path := by
  obtain ⟨imports, himports, -, hpaths⟩ := Plan.written_eq h
  obtain ⟨piece, htext | himport, -, rfl⟩ := (hpaths path).mp hpath
  · exact hfiled.text piece htext
  · exact hfiled.imports _ (Plan.path_mem_imports himports piece himport)

theorem Filed.spoils {path : Place} (hfiled : Filed plan groups) (h : Spoils planner plan path) :
    ∃ group ∈ groups, ∃ edit ∈ group.edits, edit.file = some path := by
  obtain ⟨written, trees, hwritten, htrees, ⟨data, hentry, -⟩ | ⟨old, new, hentry, -⟩⟩ := h
  · exact hfiled.written hwritten (List.mem_map_of_mem hentry)
  · exact hfiled.written hwritten (mem_of_trees htrees _ hentry)

theorem Filed.breaks {path : Place} (hfiled : Filed plan groups) (h : Breaks planner plan path) :
    ∃ group ∈ groups, ∃ edit ∈ group.edits, edit.file = some path := by
  rcases h with ⟨written, source, data, hwritten, -, hentry, -⟩ | ⟨hgone, -⟩
  · exact hfiled.written hwritten (List.mem_map_of_mem hentry)
  · exact hfiled.gone path hgone

/-- Planning a pass of repairs at home ends. -/
theorem ends_of_home (hhome : ∀ group ∈ planner.repairs, group.Home) (start : State) : Ends planner start := by
  refine ends_of_named fun state next _ hagain => ?_
  obtain ⟨plan, groups, htaken, hcases⟩ := again_cases hagain
  have hfiled : Filed plan groups := by
    have hempty : Filed {} [] := ⟨fun _ h => (List.not_mem_nil h).elim, fun _ h => (List.not_mem_nil h).elim,
      fun _ h => (List.not_mem_nil h).elim⟩
    simpa using hempty.takenFrom hhome htaken
  have hplain : ∀ {group edit file}, group ∈ groups → edit ∈ group.edits → edit.file = some file →
      named (spelled file) = spelled file := fun hgroup hedit hfile =>
    named_of_plain ((hhome _ (takenFrom_open htaken _ hgroup).1 _ hedit).1 _ hfile)
  refine ⟨plan, groups, htaken, ?_⟩
  rcases hcases with ⟨newly, hnewly, hsome, -⟩ | ⟨hnewly, lost, refused, hlost, hsome, -, -⟩
  · obtain ⟨line, hline⟩ := List.exists_mem_of_ne_nil _ hsome
    obtain ⟨path, hspoils, -⟩ := (named_broken hnewly _).mp (List.mem_map_of_mem hline)
    obtain ⟨group, hgroup, edit, hedit, hfile⟩ := hfiled.spoils hspoils
    refine ⟨path, group, hgroup, edit, hedit, path, hfile, Or.inl ⟨hspoils, ?_⟩⟩
    rw [hplain hgroup hedit hfile]
    exact isUnder_self
  · obtain ⟨line, hline⟩ := List.exists_mem_of_ne_nil _ hsome
    obtain ⟨path, hbreaks, -⟩ := (named_lost hlost _).mp (List.mem_map_of_mem hline)
    obtain ⟨group, hgroup, edit, hedit, hfile⟩ := hfiled.breaks hbreaks
    refine ⟨path, group, hgroup, edit, hedit, path, hfile, Or.inr ⟨fun other hother => ?_, hbreaks, ?_⟩⟩
    · exact List.not_mem_nil ((named_broken hnewly _).mpr ⟨other, hother, rfl⟩)
    · exact (hplain hgroup hedit hfile).symm

end Home

/-! A line is moved into another file, which it leaves unparsable. That file is withheld, the move is filed under the
file it comes from, and the rounds never end. -/

section Moved

def movedLine : Candidate := ⟨0, "PY-MOVE".toList,
  [.move ⟨["a.py"], 1, 0, none, none⟩ none (some ⟨["b.py"], 1, 0, none, none⟩)]⟩

def movingProject : Project :=
  FileTree.Tree.ofFiles [(["a.py"], utf8 "y\n".toList), (["b.py"], utf8 "x = (\n1)\n".toList)]

def movingPlanner : Planner where
  project := movingProject
  grammar := ⟨fun _ => some [], fun _ => none⟩
  parsers := {
    python := fun data => if data = utf8 "x = (\ny\n1)\n".toList then
      some "invalid syntax. Perhaps you forgot a comma? (line 2)" else none
    toml := fun _ => none
    language := fun _ => false
    errors := fun _ _ => 0 }
  consumers := ⟨fun _ => some [], fun _ => some [], fun _ _ => none, fun _ => none⟩
  repairs := [movedLine]

def movingRound : State := { held := ["b.py"], broken := ["b.py: invalid syntax. Perhaps you forgot a comma? (line 2)"] }

theorem moving_again : movingPlanner.round { held := [] } = .again movingRound := by decide +kernel

theorem moving_taken : (movingPlanner.taken { held := [] }).map (·.2) = some [movedLine] := by decide +kernel

/-- The loop never comes to an end, whatever the rounds. -/
theorem moving_stalls : ¬ Ends movingPlanner { held := [] } := by
  intro hends
  obtain ⟨plan, groups, htaken, group, hgroup, hclosed⟩ :=
    (progress_iff_named moving_again).mpr (named_of_ends hends Relation.ReflTransGen.refl moving_again)
  have hgroups := moving_taken
  rw [htaken, Option.map_some] at hgroups
  obtain rfl := Option.some.inj hgroups
  obtain rfl := List.mem_singleton.mp hgroup
  exact hclosed.elim (by decide) (by decide +kernel)

/-- Planning a pass need not come to an end. -/
theorem planned_fails : ¬ ∀ (planner : Planner) (start : State), Ends planner start ∧
    ∀ state next, Reached planner start state → planner.round state = .again next → Progress planner state next :=
  fun hall => moving_stalls (hall movingPlanner _).1

end Moved

end Mainboard.Analysis.Planning
