import Mainboard.IgnoreScopes

/-! Whether the two ends of a mirror agree on what is excluded. The center's scope is followed from the
ignore files of a tree through every question asked of it, the target's is rebuilt from the scope sent;
they agree on every path exactly when no directory left unread has the last word against those read. -/

namespace Mainboard.Ignores

variable {Pattern : Type} {regex : Regex Pattern}

namespace Rules

variable {rules : Rules Pattern} {base path : Path} {directory : Bool}

/-- What the bases read so far answer, an unread one being silent. -/
def readAnswer (rules : Rules Pattern) (base : Path) : Rows Pattern × Bool :=
  if (rules.rows base).isSome then rules.answer base else ([], false)

/-- The rules of a tree: what every directory declares, and the bases asked so far. -/
def asked (declares : Path → Rows Pattern × Bool) (reads : List Path) : Rules Pattern :=
  reads.foldl declared { discover := some declares }

/-- Every repository known begins at a base read. -/
def RepositoriesRead (rules : Rules Pattern) : Prop :=
  ∀ base ∈ rules.repositories, (rules.rows base).isSome

theorem isSome_rows_declared {other : Path} (h : (rules.rows other).isSome) :
    ((rules.declared base).rows other).isSome := by
  unfold declared
  split
  · exact h
  · simp only [rows, List.lookup_append] at h ⊢
    rw [Option.isSome_or, h, Bool.true_or]

theorem RepositoriesRead.declared (h : rules.RepositoriesRead) : (rules.declared base).RepositoriesRead := by
  intro other hother
  by_cases hread : (rules.rows other).isSome
  · exact isSome_rows_declared hread
  · have hsame : other = base := by
      unfold Rules.declared at hother
      split at hother
      · exact absurd (h other hother) hread
      · simp only at hother
        split at hother
        · rcases List.mem_cons.mp hother with hsame | hold
          · exact hsame
          · exact absurd (h other hold) hread
        · exact absurd (h other hother) hread
    rw [hsame]
    exact rows_declared_self

theorem foldl_declared_invariant (P : Rules Pattern → Prop) (hstep : ∀ rules base, P rules → P (rules.declared base))
    (hinit : P rules) (reads : List Path) : P (reads.foldl declared rules) := by
  induction reads generalizing rules with
  | nil => exact hinit
  | cons base reads ih => exact ih (hstep _ _ hinit)

theorem repositoriesRead_asked (declares : Path → Rows Pattern × Bool) (reads : List Path) :
    (asked declares reads).RepositoriesRead := by
  refine foldl_declared_invariant _ (fun _ _ => RepositoriesRead.declared) ?_ reads
  intro base hbase
  cases hbase

theorem answer_foldl_declared (reads : List Path) :
    (reads.foldl declared rules).answer = rules.answer :=
  foldl_declared_invariant (fun now => now.answer = rules.answer)
    (fun _ _ h => answer_declared.trans h) rfl reads

@[simp] theorem paths_declared : (rules.declared base).paths = rules.paths := by
  unfold declared
  split <;> rfl

theorem paths_foldl_declared (reads : List Path) : (reads.foldl declared rules).paths = rules.paths :=
  foldl_declared_invariant (fun now => now.paths = rules.paths)
    (fun _ _ h => paths_declared.trans h) rfl reads

theorem lookup_filter_nonempty {learned : List (Path × Rows Pattern)} (hnodup : (learned.map (·.1)).Nodup) :
    ((learned.filter fun declared => !declared.2.isEmpty).lookup base).getD [] =
      (learned.lookup base).getD [] := by
  induction learned with
  | nil => rfl
  | cons declared learned ih =>
      obtain ⟨other, rows⟩ := declared
      rw [List.map_cons, List.nodup_cons] at hnodup
      by_cases hsame : base = other
      · subst hsame
        have hrest : (learned.filter fun declared => !declared.2.isEmpty).lookup base = none := by
          rw [List.lookup_eq_none_iff]
          intro declared hmem
          have hin : declared.1 ∈ learned.map (·.1) := List.mem_map_of_mem (List.mem_of_mem_filter hmem)
          exact bne_iff_ne.mpr fun hkey => hnodup.1 (hkey ▸ hin)
        cases rows with
        | nil =>
            rw [List.filter_cons_of_neg (by simp), hrest, List.lookup_cons_self]
            rfl
        | cons row rows =>
            rw [List.filter_cons_of_pos (by simp), List.lookup_cons_self, List.lookup_cons_self]
      · have hdiffer : (base == other) = false := beq_false_of_ne hsame
        by_cases hempty : rows = []
        · rw [List.filter_cons_of_neg (by simp [hempty]), ih hnodup.2]
          rw [List.lookup_cons, hdiffer]
        · rw [List.filter_cons_of_pos (by simp [hempty])]
          simp only [List.lookup_cons, hdiffer]
          exact ih hnodup.2

/-- A rule set sent answers what its read bases answer, once its repositories are read ones. -/
theorem answer_of_spec (h : rules.RepositoriesRead) : (of rules.spec).answer = rules.readAnswer := by
  funext base
  have hrows : ((of rules.spec).rows base).getD [] = (rules.rows base).getD [] :=
    lookup_filter_nonempty rules.learned_nodup
  have hrepo : (base ∈ (of rules.spec).repositories) ↔ base ∈ rules.repositories := List.mem_mergeSort
  have htarget : (of rules.spec).answer base =
      ((rules.rows base).getD [], decide (base ∈ rules.repositories)) := by
    rw [← hrows, ← decide_eq_decide.mpr hrepo]
    unfold answer discovered
    cases (of rules.spec).rows base with
    | none => simp [of]
    | some rows => rfl
  rw [htarget]
  unfold readAnswer answer
  cases hread : rules.rows base with
  | some rows => simp
  | none =>
      have hnot : base ∉ rules.repositories := fun hin => by simpa [hread] using h base hin
      simp [hnot]

/-- A rule set that discovers nothing answers on the target what it answers here. -/
theorem answer_of_spec_plain (h : rules.discover = none) : (of rules.spec).answer = rules.answer := by
  funext base
  have hrows : ((of rules.spec).rows base).getD [] = (rules.rows base).getD [] :=
    lookup_filter_nonempty rules.learned_nodup
  have hrepo : (base ∈ (of rules.spec).repositories) ↔ base ∈ rules.repositories := List.mem_mergeSort
  have hplain : ∀ given : Rules Pattern, given.discover = none →
      given.answer base = ((given.rows base).getD [], decide (base ∈ given.repositories)) := by
    intro given hnone
    unfold answer discovered
    rw [hnone]
    cases given.rows base <;> simp
  rw [hplain _ rfl, hplain _ h, hrows, decide_eq_decide.mpr hrepo]

/-- Whether a rule set claims a path, in what it answers. -/
def Claims (regex : Regex Pattern) (rules : Rules Pattern) (path : Path) (directory : Bool) : Bool :=
  (rules.paths.any fun literal => literal.isPrefixOf path) || judge regex rules.answer path directory

theorem claims_congr {other : Rules Pattern} (hpaths : other.paths = rules.paths)
    (hanswer : other.answer = rules.answer) : other.Claims regex path directory = rules.Claims regex path directory := by
  rw [Claims, Claims, hpaths, hanswer]

theorem lastWord_eq_some {answer : Path → Rows Pattern × Bool} {said : Bool} :
    lastWord regex answer path directory = some (base, said) ↔
      ∃ deeper shallower, (bases path).reverse = deeper ++ base :: shallower ∧
        word regex answer path directory base = some said ∧
        ∀ other ∈ deeper, word regex answer path directory other = none := by
  unfold lastWord
  rw [List.findSome?_eq_some_iff]
  constructor
  · rintro ⟨deeper, speaker, shallower, hsplit, hword, hsilent⟩
    obtain ⟨_, hsaid, heq⟩ := Option.map_eq_some_iff.mp hword
    cases heq
    exact ⟨deeper, shallower, hsplit, hsaid, fun other hother => Option.map_eq_none_iff.mp (hsilent other hother)⟩
  · rintro ⟨deeper, shallower, hsplit, hword, hsilent⟩
    refine ⟨deeper, base, shallower, hsplit, by rw [hword]; rfl, fun other hother => ?_⟩
    rw [hsilent other hother]
    rfl

theorem lastWord_eq_none {answer : Path → Rows Pattern × Bool} :
    lastWord regex answer path directory = none ↔
      ∀ base ∈ bases path, word regex answer path directory base = none := by
  simp [lastWord, List.findSome?_eq_none_iff]

theorem verdict_nil : regex.verdict [] path directory = none := by
  simp [Regex.verdict]

/-- A read directory says on both ends what it says, an unread one is silent on the target. -/
theorem word_readAnswer : word regex rules.readAnswer path directory base =
    if (rules.rows base).isSome then word regex rules.answer path directory base else none := by
  unfold word readAnswer
  split
  · rfl
  · simp [verdict_nil]

/-- A directory that claims or frees a path by a rule is one whose rows are not empty. -/
theorem rows_ne_nil_of_claims {answer : Path → Rows Pattern × Bool}
    (h : word regex answer path directory base = some true) : (answer base).1 ≠ [] := by
  intro hempty
  unfold word at h
  rw [hempty, verdict_nil] at h
  split at h
  · simp at h
  · simp at h

/-- Where a read directory has the last word, the target judges by it. -/
theorem judge_readAnswer_of_read {said : Bool}
    (h : lastWord regex rules.answer path directory = some (base, said)) (hread : (rules.rows base).isSome) :
    judge regex rules.readAnswer path directory = said := by
  obtain ⟨deeper, shallower, hsplit, hword, hsilent⟩ := lastWord_eq_some.mp h
  have htarget : lastWord regex rules.readAnswer path directory = some (base, said) := by
    refine lastWord_eq_some.mpr ⟨deeper, shallower, hsplit, ?_, fun other hother => ?_⟩
    · rw [word_readAnswer, if_pos hread, hword]
    · rw [word_readAnswer, hsilent other hother, ite_self]
  rw [judge_eq_lastWord, htarget]
  rfl

/-- Where no directory has a word, the target has none either. -/
theorem judge_readAnswer_of_silent (h : lastWord regex rules.answer path directory = none) :
    judge regex rules.readAnswer path directory = false := by
  have htarget : lastWord regex rules.readAnswer path directory = none := by
    refine lastWord_eq_none.mpr fun base hbase => ?_
    rw [word_readAnswer, lastWord_eq_none.mp h base hbase, ite_self]
  rw [judge_eq_lastWord, htarget]
  rfl

/-- The rules of a tree are those of the bases asked, whatever was asked in between. -/
theorem asked_matchesPath {declares : Path → Rows Pattern × Bool} {reads : List Path} :
    ∃ later, ((asked declares reads).matchesPath regex path directory).2 = asked declares later := by
  have hasked := @matchesPath_snd Pattern regex (asked declares reads) path directory
  rcases hasked with hsame | hread
  · exact ⟨reads, hsame⟩
  · refine ⟨reads ++ bases path, ?_⟩
    rw [hread, asked, asked, List.foldl_append]

end Rules

namespace Scope

variable {scope : Scope Pattern} {path base : Path} {directory : Bool}

theorem excluded_fst : (scope.excluded regex path directory).1 =
    (scope.deny.Claims regex path directory ||
      (!scope.kept path directory && scope.ignore.Claims regex path directory)) := by
  unfold excluded
  simp only [← Rules.matchesPath_fst, Rules.Claims]
  split
  · rename_i hdenied
    simp [hdenied]
  · rename_i hdenied
    split
    · rename_i hkept
      simp [hdenied, hkept]
    · rename_i hkept
      simp [hdenied, hkept]

/-- The target's scope and the center's agree on every path, and the scope sent carries the rules of
every directory that claims a path. -/
def Agrees (regex : Regex Pattern) (scope : Scope Pattern) : Prop :=
  (∀ path directory, ((of regex scope.spec).excluded regex path directory).1 =
    (scope.excluded regex path directory).1) ∧
  ∀ path directory base, Rules.lastWord regex scope.ignore.answer path directory = some (base, true) →
    (base, (scope.ignore.answer base).1) ∈ scope.spec.ignore.patterns

/-- No directory left unread has the last word on a path to claim it, nor to free one that the
directories read claim and neither the deny rules nor the kept files decide. -/
def UnreadSilent (regex : Regex Pattern) (scope : Scope Pattern) : Prop :=
  ∀ path directory base said,
    Rules.lastWord regex scope.ignore.answer path directory = some (base, said) →
    scope.ignore.rows base = none →
      said = false ∧ (scope.deny.Claims regex path directory ∨ scope.kept path directory ∨
        Rules.judge regex scope.ignore.readAnswer path directory = false)

/-- A scope as the center holds one: its ignore rules are a tree's, its deny rules are given whole. -/
structure Centered (declares : Path → Rows Pattern × Bool) (scope : Scope Pattern) : Prop where
  ignore : ∃ reads, scope.ignore = Rules.asked declares reads
  deny : scope.deny.discover = none

theorem discover_declared {rules : Rules Pattern} : (rules.declared base).discover = rules.discover := by
  unfold Rules.declared
  split <;> rfl

theorem discover_matchesPath {rules : Rules Pattern} :
    (rules.matchesPath regex path directory).2.discover = rules.discover := by
  have hasked := @Rules.matchesPath_snd Pattern regex rules path directory
  rcases hasked with hsame | hread
  · rw [hsame]
  · rw [hread]
    exact Rules.foldl_declared_invariant (fun now => now.discover = rules.discover)
      (fun _ _ h => discover_declared.trans h) rfl _

variable {declares : Path → Rows Pattern × Bool}

theorem Centered.make {reads roots keep : List Path} {listed : Option (List Path)} {deny : RulesSpec Pattern} :
    Centered declares (make regex roots (Rules.asked declares reads) (Rules.of deny) keep listed) where
  ignore := ⟨reads ++ upfront (listed.map (allowed regex (Rules.of deny))), by
    rw [Scope.make, Rules.asked, Rules.asked, List.foldl_append]⟩
  deny := rfl

theorem Centered.excluded (h : Centered declares scope) :
    Centered declares (scope.excluded regex path directory).2 := by
  obtain ⟨⟨reads, hreads⟩, hdeny⟩ := h
  have hplain : (scope.deny.matchesPath regex path directory).2.discover = none := by
    rw [discover_matchesPath, hdeny]
  unfold Scope.excluded
  simp only
  split
  · exact ⟨⟨reads, hreads⟩, hplain⟩
  · split
    · exact ⟨⟨reads, hreads⟩, hplain⟩
    · refine ⟨?_, hplain⟩
      simp only [hreads]
      exact Rules.asked_matchesPath

/-- A scope once some paths were asked about, a walk among them. -/
def questioned (regex : Regex Pattern) (scope : Scope Pattern) (questions : List (Path × Bool)) : Scope Pattern :=
  questions.foldl (fun scope question => (scope.excluded regex question.1 question.2).2) scope

theorem Centered.questioned (h : Centered declares scope) (questions : List (Path × Bool)) :
    Centered declares (scope.questioned regex questions) := by
  induction questions generalizing scope with
  | nil => exact h
  | cons question questions ih => exact ih h.excluded

theorem kept_of_spec : (of regex scope.spec).kept path directory = scope.kept path directory := by
  have hkeep : ∀ path, path ∈ (of regex scope.spec).keep ↔ path ∈ scope.keep := by
    intro path
    exact List.mem_mergeSort.trans List.mem_dedup
  unfold kept holding
  simp only [List.mem_flatMap, hkeep]

/-- What the target excludes: the same deny rules and kept files, the read directories alone. -/
theorem excluded_of_spec (h : Centered declares scope) :
    ((of regex scope.spec).excluded regex path directory).1 =
      (scope.deny.Claims regex path directory ||
        (!scope.kept path directory && Rules.judge regex scope.ignore.readAnswer path directory)) := by
  obtain ⟨⟨reads, hreads⟩, hdeny⟩ := h
  have hread : scope.ignore.RepositoriesRead := hreads ▸ Rules.repositoriesRead_asked declares reads
  have hpaths : scope.ignore.paths = [] := by
    rw [hreads]
    exact Rules.paths_foldl_declared reads
  rw [excluded_fst, kept_of_spec]
  have hignore : (of regex scope.spec).ignore.Claims regex path directory =
      Rules.judge regex scope.ignore.readAnswer path directory := by
    unfold Rules.Claims of make
    rw [Rules.paths_foldl_declared, Rules.answer_foldl_declared]
    change (_ || Rules.judge regex (Rules.of scope.ignore.spec).answer path directory) = _
    rw [Rules.answer_of_spec hread]
    change ((scope.ignore.paths.any fun literal => literal.isPrefixOf path) || _) = _
    rw [hpaths]
    rfl
  have hdenied : (of regex scope.spec).deny.Claims regex path directory =
      scope.deny.Claims regex path directory :=
    Rules.claims_congr rfl (Rules.answer_of_spec_plain hdeny)
  rw [hignore, hdenied]

theorem excluded_center (h : Centered declares scope) : (scope.excluded regex path directory).1 =
    (scope.deny.Claims regex path directory ||
      (!scope.kept path directory && Rules.judge regex scope.ignore.answer path directory)) := by
  obtain ⟨⟨reads, hreads⟩, -⟩ := h
  have hpaths : scope.ignore.paths = [] := by
    rw [hreads]
    exact Rules.paths_foldl_declared reads
  rw [excluded_fst, Rules.Claims, Rules.Claims, hpaths]
  simp

/-- A directory whose rules are read and not empty is carried. -/
theorem mem_spec_patterns (hread : (scope.ignore.rows base).isSome) (hrows : (scope.ignore.answer base).1 ≠ []) :
    (base, (scope.ignore.answer base).1) ∈ scope.spec.ignore.patterns := by
  obtain ⟨rows, hrows'⟩ := Option.isSome_iff_exists.mp hread
  have hanswer : (scope.ignore.answer base).1 = rows := by rw [Rules.answer, hrows']
  rw [hanswer] at hrows ⊢
  refine List.mem_filter.mpr ⟨?_, by simpa using hrows⟩
  obtain ⟨before, after, hlearned, -⟩ := List.lookup_eq_some_iff.mp hrows'
  rw [hlearned]
  exact List.mem_append_right _ List.mem_cons_self

/-- The two ends agree exactly when the directories left unread do not have the last word. -/
theorem agrees_iff_unreadSilent (h : Centered declares scope) :
    Agrees regex scope ↔ UnreadSilent regex scope := by
  unfold Agrees
  simp only [excluded_of_spec h, excluded_center h]
  constructor
  · rintro ⟨hagree, hcarried⟩ path directory base said hlast hunread
    have hfalse : said = false := by
      by_contra htrue
      rw [Bool.not_eq_false] at htrue
      subst htrue
      have hmem := List.mem_of_mem_filter (hcarried path directory base hlast)
      exact Rules.rows_eq_none_iff.mp hunread (List.mem_map_of_mem hmem)
    refine ⟨hfalse, ?_⟩
    have hjudge : Rules.judge regex scope.ignore.answer path directory = false := by
      rw [Rules.judge_eq_lastWord, hlast, hfalse]
      rfl
    have hsame := hagree path directory
    rw [hjudge] at hsame
    by_cases hdenied : scope.deny.Claims regex path directory
    · exact .inl hdenied
    · by_cases hkept : scope.kept path directory
      · exact .inr (.inl hkept)
      · refine .inr (.inr ?_)
        simpa [hdenied, hkept] using hsame
  · intro hsilent
    refine ⟨fun path directory => ?_, fun path directory base hlast => ?_⟩
    · cases hlast : Rules.lastWord regex scope.ignore.answer path directory with
      | none =>
          rw [Rules.judge_readAnswer_of_silent hlast, Rules.judge_eq_lastWord, hlast]
          rfl
      | some last =>
          obtain ⟨base, said⟩ := last
          have hcenter : Rules.judge regex scope.ignore.answer path directory = said := by
            rw [Rules.judge_eq_lastWord, hlast]
            rfl
          by_cases hread : (scope.ignore.rows base).isSome
          · rw [Rules.judge_readAnswer_of_read hlast hread, hcenter]
          · rw [Option.not_isSome_iff_eq_none] at hread
            obtain ⟨hfalse, hdecided⟩ := hsilent path directory base said hlast hread
            rw [hcenter, hfalse]
            rcases hdecided with hdenied | hkept | hjudge
            · simp [hdenied]
            · simp [hkept]
            · rw [hjudge]
    · have hread : (scope.ignore.rows base).isSome := by
        by_contra hunread
        rw [Option.not_isSome_iff_eq_none] at hunread
        exact absurd (hsilent path directory base true hlast hunread).1 (by decide)
      obtain ⟨-, -, -, hword, -⟩ := Rules.lastWord_eq_some.mp hlast
      exact mem_spec_patterns hread (Rules.rows_ne_nil_of_claims hword)

end Scope

/-- The two ends of a mirror agree, for a scope of any tree of ignore files, listed or not, after any
questions, exactly when the directories left unread do not have the last word. -/
theorem scope_agreement {Pattern : Type} (regex : Regex Pattern) (declares : Path → Rows Pattern × Bool)
    (reads roots keep : List Path) (listed : Option (List Path)) (deny : RulesSpec Pattern)
    (questions : List (Path × Bool)) :
    Scope.Agrees regex ((Scope.make regex roots (Rules.asked declares reads) (Rules.of deny) keep
        listed).questioned regex questions) ↔
      Scope.UnreadSilent regex ((Scope.make regex roots (Rules.asked declares reads) (Rules.of deny) keep
        listed).questioned regex questions) :=
  Scope.agrees_iff_unreadSilent (Scope.Centered.make.questioned questions)

/-- The one pattern `*`, which names no exact path and matches every name. -/
def star : Regex Unit where
  hits := fun _ text => text ≠ ""
  literal := fun _ => none

/-- A repository whose `pkg/.cache` ignores everything in itself, as a tool leaves it there. -/
def cacheTree (base : Path) : Rows Unit × Bool :=
  if base = [] then ([], true) else if base = ["pkg", ".cache"] then ([((), true)], false) else ([], false)

/-- What `.cache` ignores is excluded on the center and not on the target, which prunes it. -/
theorem scope_agreement_fails_unlisted :
    ¬ ∀ (Pattern : Type) (regex : Regex Pattern) (declares : Path → Rows Pattern × Bool)
      (reads roots keep : List Path) (listed : Option (List Path)) (deny : RulesSpec Pattern)
      (questions : List (Path × Bool)),
      Scope.Agrees regex ((Scope.make regex roots (Rules.asked declares reads) (Rules.of deny) keep
        listed).questioned regex questions) := by
  intro hall
  have hagree := (hall Unit star cacheTree [] [["pkg"]] [] (some [["pkg", "run.py"]]) ⟨[], [], [], by simp⟩ []).1
    ["pkg", ".cache", "run.json"] false
  have hcentered : Scope.Centered cacheTree (Scope.make star [["pkg"]] (Rules.asked cacheTree [])
      (Rules.of ⟨[], [], [], by simp⟩) [] (some [["pkg", "run.py"]])) := Scope.Centered.make
  rw [Scope.questioned, List.foldl_nil, Scope.excluded_of_spec hcentered,
    Scope.excluded_center hcentered] at hagree
  revert hagree
  decide +kernel

end Mainboard.Ignores
