import Mathlib.Data.List.Infix
import Mathlib.Data.List.Dedup

/-! The ignore rules a mirror walks by, on both ends. The center reads each ignore file when a question
first reaches its directory; the target judges by the bases the center had read when it sent the
scope. Reading never changes an answer, so the two ends agree exactly when no directory left unread
has the last word on a path against the directories that were read. -/

namespace Mainboard.Ignores

/-- A workspace path below the root, its names from the root down. -/
abbrev Path := List String

instance lawfulBEqPath : LawfulBEq Path := inferInstance

/-- How a compiled pattern is asked: whether it matches a text from its start, and the one path it
names when it can name no other. -/
structure Regex (Pattern : Type) where
  hits : Pattern → String → Bool
  literal : Pattern → Option String

/-- A directory's rules in the order it declares them, each with its verdict. -/
abbrev Rows (Pattern : Type) := List (Pattern × Bool)

def spelled (path : Path) : String := "/".intercalate path

/-- Every directory above a path, outermost first, the root left out. -/
def ancestors (path : Path) : List Path := (List.range' 1 (path.length - 1)).map path.take

/-- Every directory whose rules judge a path, from the root down. -/
def bases (path : Path) : List Path := (List.range path.length).map path.take

/-- The index of the last row that holds, -1 when none does. -/
def lastIndex {α : Type} (holds : α → Bool) (rows : List α) : Int :=
  (rows.zipIdx.reverse.find? fun row => holds row.1).elim (-1) fun row => (row.2 : Int)

namespace Regex

variable {Pattern : Type} (regex : Regex Pattern)

/-- The last rule naming the path or a directory above it literally, -1 for none. -/
def literally (rows : Rows Pattern) (relative : Path) : Int :=
  ((List.range' 1 relative.length).map fun length =>
    lastIndex (fun row => regex.literal row.1 = some (spelled (relative.take length))) rows).foldl max (-1)

/-- Which rule decides a path below the directory declaring them, -1 when none matches. -/
def deciding (rows : Rows Pattern) (relative : Path) (directory : Bool) : Int :=
  let text := if directory then spelled relative ++ "/" else spelled relative
  max (lastIndex (fun row => (regex.literal row.1).isNone && regex.hits row.1 text) rows)
    (regex.literally rows relative)

/-- The verdict of the deciding rule. -/
def verdict (rows : Rows Pattern) (relative : Path) (directory : Bool) : Option Bool :=
  if 0 ≤ regex.deciding rows relative directory then
    rows[(regex.deciding rows relative directory).toNat]?.map (·.2) else none

end Regex

/-- One ordered rule set as it crosses the wire; its patterns name each base once. -/
structure RulesSpec (Pattern : Type) where
  patterns : List (Path × Rows Pattern)
  paths : List Path
  repositories : List Path
  patterns_nodup : (patterns.map (·.1)).Nodup

/-- One ordered rule set: the bases learned with their rows, literal paths, and the bases where a
repository begins. `discover` answers a base not yet learned; a target has none. -/
structure Rules (Pattern : Type) where
  learned : List (Path × Rows Pattern) := []
  paths : List Path := []
  repositories : List Path := []
  discover : Option (Path → Rows Pattern × Bool) := none
  learned_nodup : (learned.map (·.1)).Nodup := by simp

namespace Rules

variable {Pattern : Type}

def rows (rules : Rules Pattern) (base : Path) : Option (Rows Pattern) := rules.learned.lookup base

/-- What asking a base not yet learned answers. -/
def discovered (rules : Rules Pattern) (base : Path) : Rows Pattern × Bool :=
  rules.discover.elim ([], false) fun discover => discover base

theorem rows_eq_none_iff {rules : Rules Pattern} {base : Path} :
    rules.rows base = none ↔ base ∉ rules.learned.map (·.1) := by
  unfold rows
  rw [List.lookup_eq_none_iff]
  simp only [List.mem_map, not_exists, not_and, bne_iff_ne, ne_eq]
  exact ⟨fun h declared hmem hsame => h declared hmem hsame.symm, fun h declared hmem hsame => h declared hmem hsame.symm⟩

/-- The rules once a base is learned, which may find a repository beginning there. -/
def declared (rules : Rules Pattern) (base : Path) : Rules Pattern :=
  if hread : (rules.rows base).isSome then rules else
    { rules with
      learned := rules.learned ++ [(base, (rules.discovered base).1)]
      repositories := if (rules.discovered base).2 then base :: rules.repositories else rules.repositories
      learned_nodup := by
        rw [Option.not_isSome_iff_eq_none, rows_eq_none_iff] at hread
        rw [List.map_append, List.nodup_append_comm]
        exact List.nodup_cons.mpr ⟨hread, rules.learned_nodup⟩ }

/-- One step of a judgement from the root down: the verdict so far, and the rules asked so far. -/
def judged (regex : Regex Pattern) (path : Path) (directory : Bool) (state : Bool × Rules Pattern)
    (base : Path) : Bool × Rules Pattern :=
  let rules := state.2.declared base
  let started := if base ∈ rules.repositories then false else state.1
  ((regex.verdict ((rules.rows base).getD []) (path.drop base.length) directory).getD started, rules)

/-- Whether the rule set claims a path, and the rule set that has learned every base asked for it. -/
def matchesPath (regex : Regex Pattern) (rules : Rules Pattern) (path : Path) (directory : Bool) :
    Bool × Rules Pattern :=
  if rules.paths.any fun literal => literal.isPrefixOf path then (true, rules)
  else (bases path).foldl (judged regex path directory) (false, rules)

/-- The rule set as it crosses the wire, every base read so far included. -/
def spec (rules : Rules Pattern) : RulesSpec Pattern where
  patterns := rules.learned.filter fun declared => !declared.2.isEmpty
  paths := rules.paths
  repositories := rules.repositories.mergeSort fun one other => decide (spelled one ≤ spelled other)
  patterns_nodup := rules.learned_nodup.sublist (List.filter_sublist.map _)

/-- The rule set a spec describes. -/
def of (spec : RulesSpec Pattern) : Rules Pattern where
  learned := spec.patterns
  paths := spec.paths
  repositories := spec.repositories
  learned_nodup := spec.patterns_nodup

end Rules

/-- One scope as it crosses the wire. -/
structure ScopeSpec (Pattern : Type) where
  roots : List Path
  ignore : RulesSpec Pattern
  deny : RulesSpec Pattern
  keep : List Path

/-- The trees one walk covers and the rules that prune them. -/
structure Scope (Pattern : Type) where
  roots : List Path
  ignore : Rules Pattern
  deny : Rules Pattern
  listed : Option (List Path)
  keep : List Path

namespace Scope

variable {Pattern : Type} (regex : Regex Pattern)

/-- The listed files the deny rules leave, directly and through every directory. -/
def allowed (deny : Rules Pattern) (listed : List Path) : List Path :=
  listed.filter fun path =>
    !(ancestors path).any (fun folder => (deny.matchesPath regex folder true).1) &&
      !(deny.matchesPath regex path false).1

/-- The directories a new scope reads up front: the root and every one above a listed file. -/
def upfront (listed : Option (List Path)) : List Path :=
  [] :: ((listed.getD []).flatMap ancestors).dedup

def make (roots : List Path) (ignore deny : Rules Pattern) (keep : List Path)
    (listed : Option (List Path)) : Scope Pattern :=
  let listed := listed.map (allowed regex deny)
  { roots := roots
    ignore := (upfront listed).foldl Rules.declared ignore
    deny := deny
    listed := listed
    keep := keep }

def holding (scope : Scope Pattern) : List Path := scope.keep.flatMap ancestors

/-- Whether a path is kept whatever the ignore rules say. -/
def kept (scope : Scope Pattern) (path : Path) (directory : Bool) : Bool :=
  if directory then decide (path ∈ scope.holding) else decide (path ∈ scope.keep)

/-- Whether the deny rules claim a path, or the ignore rules do and it is not kept. -/
def excluded (scope : Scope Pattern) (path : Path) (directory : Bool) : Bool × Scope Pattern :=
  let denied := scope.deny.matchesPath regex path directory
  if denied.1 then (true, { scope with deny := denied.2 })
  else if scope.kept path directory then (false, { scope with deny := denied.2 })
  else
    let ignored := scope.ignore.matchesPath regex path directory
    (ignored.1, { scope with deny := denied.2, ignore := ignored.2 })

/-- The scope as it crosses the wire. -/
def spec (scope : Scope Pattern) : ScopeSpec Pattern where
  roots := scope.roots
  ignore := scope.ignore.spec
  deny := scope.deny.spec
  keep := scope.keep.dedup.mergeSort fun one other => decide (spelled one ≤ spelled other)

/-- The scope a spec describes. -/
def of (spec : ScopeSpec Pattern) : Scope Pattern :=
  make regex spec.roots (Rules.of spec.ignore) (Rules.of spec.deny) spec.keep none

end Scope

/-! What a rule set answers, learned or not -/

namespace Rules

variable {Pattern : Type} {regex : Regex Pattern} {rules : Rules Pattern} {path base : Path} {directory : Bool}

/-- The rows of a base and whether a repository begins there, whether or not it was asked before. -/
def answer (rules : Rules Pattern) (base : Path) : Rows Pattern × Bool :=
  match rules.rows base with
  | some rows => (rows, decide (base ∈ rules.repositories))
  | none => ((rules.discovered base).1, decide (base ∈ rules.repositories) || (rules.discovered base).2)

theorem lookup_append_singleton {learned : List (Path × Rows Pattern)} {rows : Rows Pattern} {other : Path}
    (h : learned.lookup base = none) : (learned ++ [(base, rows)]).lookup other =
      if other = base then some rows else learned.lookup other := by
  rw [List.lookup_append]
  split
  · rename_i hsame
    subst hsame
    simp [h]
  · rename_i hother
    have hlast : List.lookup other [(base, rows)] = none := by
      rw [List.lookup_cons, beq_false_of_ne hother]
      rfl
    rw [hlast, Option.or_none]

theorem rows_declared_self : ((rules.declared base).rows base).isSome := by
  unfold declared
  split
  · assumption
  · rename_i hunread
    rw [Option.not_isSome_iff_eq_none] at hunread
    simp only [rows] at hunread ⊢
    rw [lookup_append_singleton hunread, if_pos rfl]
    rfl

/-- Reading a base changes no answer. -/
theorem answer_declared : (rules.declared base).answer = rules.answer := by
  funext other
  unfold declared
  split
  · rfl
  · rename_i hunread
    rw [Option.not_isSome_iff_eq_none] at hunread
    simp only [answer, rows, discovered] at hunread ⊢
    rw [lookup_append_singleton hunread]
    by_cases hother : other = base
    · subst hother
      rw [if_pos rfl, hunread]
      by_cases hrepo : (rules.discover.elim ([], false) fun discover => discover other).2 <;>
        simp [hrepo]
    · rw [if_neg hother]
      by_cases hrepo : (rules.discover.elim ([], false) fun discover => discover base).2 <;>
        simp [hrepo, hother]

/-- What one directory says of a path: its deciding rule's verdict, or that a repository starts. -/
def word (regex : Regex Pattern) (answer : Path → Rows Pattern × Bool) (path : Path) (directory : Bool)
    (base : Path) : Option Bool :=
  (regex.verdict (answer base).1 (path.drop base.length) directory).or
    (if (answer base).2 then some false else none)

/-- The judgement of the directories from the root down over what a rule set answers. -/
def judge (regex : Regex Pattern) (answer : Path → Rows Pattern × Bool) (path : Path) (directory : Bool) :
    Bool :=
  (bases path).foldl (fun verdict base => (word regex answer path directory base).getD verdict) false

theorem judged_eq {state : Bool × Rules Pattern} : judged regex path directory state base =
    ((word regex state.2.answer path directory base).getD state.1, state.2.declared base) := by
  have hrows : ((state.2.declared base).rows base).getD [] = (state.2.answer base).1 ∧
      decide (base ∈ (state.2.declared base).repositories) = (state.2.answer base).2 := by
    have hanswer : state.2.answer = (state.2.declared base).answer := answer_declared.symm
    rw [hanswer]
    unfold answer
    have hself : ((state.2.declared base).rows base).isSome := rows_declared_self
    obtain ⟨rows, hrows⟩ := Option.isSome_iff_exists.mp hself
    rw [hrows]
    exact ⟨rfl, rfl⟩
  unfold judged word
  simp only [hrows.1]
  cases regex.verdict (state.2.answer base).1 (path.drop base.length) directory with
  | some verdict => rfl
  | none =>
      rw [← hrows.2]
      by_cases hrepo : base ∈ (state.2.declared base).repositories <;> simp [hrepo]

theorem foldl_judged (chain : List Path) (verdict : Bool) :
    (chain.foldl (judged regex path directory) (verdict, rules)).1 =
      chain.foldl (fun verdict base => (word regex rules.answer path directory base).getD verdict) verdict ∧
    (chain.foldl (judged regex path directory) (verdict, rules)).2 = chain.foldl declared rules := by
  induction chain generalizing verdict rules with
  | nil => exact ⟨rfl, rfl⟩
  | cons base chain ih =>
      simp only [List.foldl_cons, judged_eq]
      obtain ⟨hverdict, hrules⟩ := @ih (rules.declared base) ((word regex rules.answer path directory base).getD verdict)
      rw [answer_declared] at hverdict
      exact ⟨hverdict, hrules⟩

/-- A rule set claims a path by a literal one or by the judgement of what it answers. -/
theorem matchesPath_fst : (rules.matchesPath regex path directory).1 =
    ((rules.paths.any fun literal => literal.isPrefixOf path) || judge regex rules.answer path directory) := by
  unfold matchesPath
  split
  · rename_i hliteral
    simp [hliteral]
  · rename_i hliteral
    rw [(foldl_judged _ _).1]
    simp [hliteral, judge]

theorem matchesPath_snd :
    (rules.matchesPath regex path directory).2 = rules ∨
      (rules.matchesPath regex path directory).2 = (bases path).foldl declared rules := by
  unfold matchesPath
  split
  · exact .inl rfl
  · exact .inr (foldl_judged _ _).2

/-- The deepest directory with a word on a path, and its word. -/
def lastWord (regex : Regex Pattern) (answer : Path → Rows Pattern × Bool) (path : Path)
    (directory : Bool) : Option (Path × Bool) :=
  (bases path).reverse.findSome? fun base => (word regex answer path directory base).map (base, ·)

theorem foldl_getD_eq {α : Type} (f : α → Option Bool) (chain : List α) (verdict : Bool) :
    chain.foldl (fun verdict base => (f base).getD verdict) verdict =
      ((chain.reverse.findSome? fun base => (f base).map (base, ·)).map (·.2)).getD verdict := by
  induction chain using List.reverseRecOn with
  | nil => rfl
  | append_singleton chain base ih =>
      rw [List.foldl_append, List.reverse_append]
      simp only [List.foldl_cons, List.foldl_nil, List.reverse_singleton, List.singleton_append,
        List.findSome?_cons]
      cases hword : f base with
      | none => simpa using ih
      | some word => simp

/-- The last word on a path is the judgement of it. -/
theorem judge_eq_lastWord {answer : Path → Rows Pattern × Bool} : judge regex answer path directory =
    ((lastWord regex answer path directory).map (·.2)).getD false :=
  foldl_getD_eq _ _ _

end Rules

end Mainboard.Ignores
