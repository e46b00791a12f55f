import Mainboard.BlockLines
import Mainboard.IgnoreScopes

/-! How a rule set asks its patterns. A directory's patterns are texts of regular expressions; those naming
one exact path are looked up by path, and the others are joined into one expression, the last first, each
in a group named after its place, so that one match finds the deciding one. A joined expression cannot
repeat a group's name, so the named groups inside a pattern are first respelled as plain ones, by a
substitution over the pattern's text. The engine compiling and matching the texts is a parameter. -/

namespace Mainboard.Ignores

abbrev Text := List Char

/-- What compiling a pattern and matching it at a text's start answers: an error, no match, or a match with
the name of its last group. -/
inductive Answer
  | malformed
  | missed
  | found (lastgroup : Option Text)
  deriving DecidableEq

namespace Answer

def isFound : Answer → Bool
  | found _ => true
  | _ => false

end Answer

/-- A regular-expression engine: what it answers for a pattern and a text, and its word characters. -/
structure Engine where
  asked : Text → Text → Answer
  word : Char → Bool

/-- How a pattern naming one exact path, file or directory, ends. -/
def literalTail : Text := "(?:(?P<ps_d>/)|$)".toList

/-- The path a pattern's body spells, where it is escaped non-word characters and plain ones only. -/
def unescaped (word : Char → Bool) : Text → Option Text
  | [] => some []
  | '\\' :: c :: rest => if word c ∧ c ≠ '_' then none else (unescaped word rest).map (c :: ·)
  | c :: rest => if "\\.^$*+?\x7b\x7d[]|()".toList.any (· = c) then none else (unescaped word rest).map (c :: ·)

/-- The path a pattern names exactly, none when it can match more than one spelling. -/
def literalOf (word : Char → Bool) (regex : Text) : Option Text :=
  match regex with
  | '^' :: rest =>
      if literalTail <:+ rest then
        (unescaped word (rest.take (rest.length - literalTail.length))).filter fun path => path ≠ []
      else none
  | _ => none

/-- The text behind the opening of a named group, where one opens. -/
def behindName : Text → Option Text
  | '(' :: '?' :: 'P' :: '<' :: rest =>
      let name := rest.takeWhile (· ≠ '>')
      if name = [] ∨ rest.length = name.length then none else some (rest.drop (name.length + 1))
  | _ => none

/-- A pattern with its named groups respelled, one opening after the other; an opening right behind a
backslash is taken for an escaped one. -/
def unnamedFrom : ℕ → Option Char → Text → Text
  | 0, _, text => text
  | _, _, [] => []
  | fuel + 1, before, c :: rest =>
      match if before = some '\\' then none else behindName (c :: rest) with
      | some behind => "(?:".toList ++ unnamedFrom fuel (some '>') behind
      | none => c :: unnamedFrom fuel (some c) rest

/-- A pattern with its named groups respelled. -/
def unnamed (regex : Text) : Text := unnamedFrom regex.length none regex

/-- The patterns that name no exact path, last first, each with its place. -/
def alternatives (word : Char → Bool) (rows : Rows Text) : List (ℕ × Text) :=
  rows.zipIdx.reverse.filterMap fun row =>
    if (literalOf word row.1.1).isNone then some (row.2, unnamed row.1.1) else none

/-- The name of the group around a pattern. -/
def groupName (index : ℕ) : Text := 'r' :: Nat.toDigits 10 index

/-- The patterns joined into one expression, where there are any. -/
def joined (word : Char → Bool) (rows : Rows Text) : Option Text :=
  if alternatives word rows = [] then none else
    some (['|'].intercalate ((alternatives word rows).map fun alternative =>
      "(?P<".toList ++ groupName alternative.1 ++ ">".toList ++ alternative.2 ++ ")".toList))

/-- How a path below a directory is asked for: with its trailing slash where it is a directory. -/
def asText (relative : Path) (directory : Bool) : Text :=
  if directory then (spelled relative).toList ++ ['/'] else (spelled relative).toList

/-- The rule sets over texts, and what exact path each text names. -/
def Engine.regex (engine : Engine) : Regex Text where
  hits := fun pattern text => (engine.asked (unnamed pattern) text.toList).isFound
  literal := fun pattern => (literalOf engine.word pattern).map String.ofList

/-- The index of the deciding pattern of the joined expression, -1 when none matches; none where the expression
does not compile. -/
def Engine.pattern (engine : Engine) (rows : Rows Text) (text : Text) : Option Int :=
  match joined engine.word rows with
  | none => some (-1)
  | some expression => match engine.asked expression text with
    | .malformed => none
    | .missed => some (-1)
    | .found none => some (-1)
    | .found (some name) => some (Nat.ofDigitChars 10 (name.drop 1) 0)

/-- Which rule decides a path, its index, -1 when none matches. -/
def Engine.deciding (engine : Engine) (rows : Rows Text) (relative : Path) (directory : Bool) : Option Int :=
  (engine.pattern rows (asText relative directory)).map fun deciding =>
    max deciding (engine.regex.literally rows relative)

/-- One step of a judgement from the root down. -/
def Engine.judged (engine : Engine) (path : Path) (directory : Bool) (state : Bool × Rules Text) (base : Path) :
    Option (Bool × Rules Text) :=
  let rules := state.2.declared base
  let rows := (rules.rows base).getD []
  (engine.deciding rows (path.drop base.length) directory).map fun deciding =>
    let started := if base ∈ rules.repositories then false else state.1
    ((if 0 ≤ deciding then rows[deciding.toNat]?.map (·.2) else none).getD started, rules)

/-- Whether the rule set claims a path, and the rule set that has learned every base asked for it; none where
a joined expression does not compile. -/
def Engine.matchesPath (engine : Engine) (rules : Rules Text) (path : Path) (directory : Bool) :
    Option (Bool × Rules Text) :=
  if rules.paths.any fun literal => literal.isPrefixOf path then some (true, rules)
  else (bases path).foldlM (engine.judged path directory) (false, rules)

/-! What the engine is relied on for -/

/-- Where in a pattern its reading stands. -/
inductive Mode
  | outside
  | escaped
  | opened
  | inside
  | insideEscaped
  deriving DecidableEq

/-- The reading behind a character: an escape takes the next character, and a character class ends at the first
closing bracket that does not open it. -/
def Mode.next : Mode → Char → Mode
  | outside, '\\' => escaped
  | outside, '[' => opened
  | outside, _ => outside
  | escaped, _ => outside
  | opened, '^' => opened
  | opened, '\\' => insideEscaped
  | opened, _ => inside
  | inside, '\\' => insideEscaped
  | inside, ']' => outside
  | inside, _ => inside
  | insideEscaped, _ => inside

/-- Whether the substitution respells exactly the groups from here on: an opening is respelled unless a backslash
stands before it, and is a group's outside a class where it is not escaped. -/
def groupedFrom : Mode → Option Char → Text → Bool
  | _, _, [] => true
  | mode, before, c :: rest =>
      (!(behindName (c :: rest)).isSome || (decide (mode = .outside) != decide (before = some '\\'))) &&
        groupedFrom (mode.next c) (some c) rest

/-- The pattern spells no opening of a named group inside a class or right behind an escaped backslash. -/
def Grouped (regex : Text) : Prop := groupedFrom .outside none regex = true

/-- What an engine implementing its patterns does over a directory's rules: an alternation of named groups is
found at the first that matches, and says its name; a plain group matches what a named one does; and an exact
path matches itself and what is beneath it, and is not written with a slash at its end. -/
structure Engine.Reads (engine : Engine) (rows : Rows Text) : Prop where
  joins : (∀ row ∈ rows, Grouped row.1) → ∀ expression, joined engine.word rows = some expression → ∀ text,
    engine.asked expression text =
      match (alternatives engine.word rows).find? fun alternative => (engine.asked alternative.2 text).isFound with
      | some alternative => .found (some (groupName alternative.1))
      | none => .missed
  plain : ∀ row ∈ rows, Grouped row.1 → ∀ text,
    (engine.asked (unnamed row.1) text).isFound = (engine.asked row.1 text).isFound
  exact : ∀ row ∈ rows, ∀ path, literalOf engine.word row.1 = some path → path.getLast? ≠ some '/' ∧
    ∀ text, '\n' ∉ text → ((engine.asked row.1 text).isFound = true ↔ text = path ∨ path ++ ['/'] <+: text)

/-- The judgement of a path rule by rule: from the root down, started over at each repository, the last rule
whose pattern matches decides. -/
def law (engine : Engine) (answer : Path → Rows Text × Bool) (path : Path) (directory : Bool) : Bool :=
  (bases path).foldl (fun verdict base => (answer base).1.foldl (fun verdict row =>
      if (engine.asked row.1 (asText (path.drop base.length) directory)).isFound then row.2 else verdict)
    (if (answer base).2 then false else verdict)) false

/-! The last index -/

theorem lastIndex_snoc {α : Type} (holds : α → Bool) (rows : List α) (row : α) :
    lastIndex holds (rows ++ [row]) = if holds row then (rows.length : Int) else lastIndex holds rows := by
  rw [lastIndex, List.zipIdx_append, List.reverse_append]
  by_cases hrow : holds row <;> simp [hrow, lastIndex]

theorem lastIndex_lt {α : Type} (holds : α → Bool) (rows : List α) : lastIndex holds rows < rows.length := by
  induction rows using List.reverseRecOn with
  | nil => exact (by decide : (-1 : Int) < 0)
  | append_singleton rows row ih =>
      rw [lastIndex_snoc, List.length_append, List.length_singleton]
      split <;> omega

theorem max_lastIndex {α : Type} (one other : α → Bool) (rows : List α) :
    max (lastIndex one rows) (lastIndex other rows) = lastIndex (fun row => one row || other row) rows := by
  induction rows using List.reverseRecOn with
  | nil => rfl
  | append_singleton rows row ih =>
      have hone := lastIndex_lt one rows
      have hother := lastIndex_lt other rows
      rw [lastIndex_snoc, lastIndex_snoc, lastIndex_snoc, ← ih]
      cases one row <;> cases other row <;> simp <;> omega

theorem lastIndex_congr {α : Type} {one other : α → Bool} {rows : List α} (h : ∀ row ∈ rows, one row = other row) :
    lastIndex one rows = lastIndex other rows := by
  induction rows using List.reverseRecOn with
  | nil => rfl
  | append_singleton rows row ih =>
      rw [lastIndex_snoc, lastIndex_snoc, h row (List.mem_append_right _ List.mem_cons_self),
        ih fun one hone => h one (List.mem_append_left _ hone)]

/-- The greatest of the last indices for several questions is the last index for any of them. -/
theorem foldl_max_lastIndex {α β : Type} (holds : β → α → Bool) (rows : List α) (asked : List β) (start : α → Bool) :
    (asked.map fun question => lastIndex (holds question) rows).foldl max (lastIndex start rows) =
      lastIndex (fun row => start row || asked.any fun question => holds question row) rows := by
  induction asked generalizing start with
  | nil => exact lastIndex_congr fun row _ => (Bool.or_false _).symm
  | cons question asked ih =>
      rw [List.map_cons, List.foldl_cons, max_lastIndex, ih]
      exact lastIndex_congr fun row _ => by rw [List.any_cons, Bool.or_assoc]

theorem lastIndex_none {α : Type} (rows : List α) : lastIndex (fun _ => false) rows = -1 := by
  induction rows using List.reverseRecOn with
  | nil => rfl
  | append_singleton rows row ih => rw [lastIndex_snoc, if_neg Bool.false_ne_true, ih]

/-- The row at the last index is the last that holds. -/
theorem getElem?_lastIndex {α : Type} (holds : α → Bool) (verdict : α → Bool) (rows : List α) (started : Bool) :
    (if 0 ≤ lastIndex holds rows then rows[(lastIndex holds rows).toNat]?.map verdict else none).getD started =
      rows.foldl (fun said row => if holds row then verdict row else said) started := by
  induction rows using List.reverseRecOn with
  | nil => rfl
  | append_singleton rows row ih =>
      rw [List.foldl_append, List.foldl_cons, List.foldl_nil, ← ih, lastIndex_snoc]
      by_cases hrow : holds row
      · simp [hrow]
      · have hlt := lastIndex_lt holds rows
        simp only [hrow, Bool.false_eq_true, if_false]
        by_cases hnone : 0 ≤ lastIndex holds rows
        · rw [if_pos hnone, if_pos hnone, List.getElem?_append_left (by omega)]
        · rw [if_neg hnone, if_neg hnone]

/-! Exact paths -/

/-- The names of a path, each with a slash behind it. -/
def slashed (names : Path) : Text := names.flatMap fun name => name.toList ++ ['/']

theorem spelled_slash {names : Path} (h : names ≠ []) : (spelled names).toList ++ ['/'] = slashed names := by
  induction names with
  | nil => exact absurd rfl h
  | cons name names ih =>
      cases names with
      | nil => simp [spelled, slashed]
      | cons next rest =>
          have hrest := ih (List.cons_ne_nil _ _)
          rw [slashed, List.flatMap_cons, ← slashed, ← hrest]
          simp [spelled]

theorem slashed_append (names others : Path) : slashed (names ++ others) = slashed names ++ slashed others :=
  List.flatMap_append

/-- A text that ends at a slash of a path is the path's first names. -/
theorem eq_slashed_take {names : Path} (hclean : ∀ name ∈ names, '/' ∉ name.toList) {text rest : Text}
    (h : text ++ '/' :: rest = slashed names) :
    ∃ length, 1 ≤ length ∧ length ≤ names.length ∧ text ++ ['/'] = slashed (names.take length) := by
  induction names generalizing text with
  | nil => exact absurd h (List.append_ne_nil_of_right_ne_nil _ (List.cons_ne_nil _ _))
  | cons name names ih =>
      have hslash : ∀ tail : Text, ∀ c ∈ ('/' :: tail).head?, ¬c ≠ '/' := fun tail c hc => by
        rw [List.head?_cons, Option.mem_some_iff] at hc
        exact not_not.mpr hc.symm
      have hplain : ∀ text : Text, '/' ∉ text → ∀ c ∈ text, c ≠ '/' := fun text htext c hc hsame => htext (hsame ▸ hc)
      have hname := hclean name List.mem_cons_self
      rw [slashed, List.flatMap_cons, List.append_assoc, List.singleton_append, ← slashed] at h
      by_cases hin : '/' ∈ text
      · obtain ⟨before, behind, hsplit, hbefore⟩ := List.eq_append_cons_of_mem hin
        rw [hsplit, List.append_assoc, List.cons_append] at h
        obtain ⟨hsame, hrest⟩ := BlockLines.section_inj (hplain before hbefore) (hplain _ hname) (hslash _) (hslash _) h
        obtain ⟨length, hone, hle, htake⟩ := ih (fun one hone => hclean one (List.mem_cons_of_mem _ hone))
          (List.cons.inj hrest).2
        refine ⟨length + 1, by omega, by rw [List.length_cons]; omega, ?_⟩
        rw [hsplit, hsame, List.append_assoc, List.cons_append, htake, List.take_succ_cons, slashed, slashed,
          List.flatMap_cons, List.append_assoc]
        rfl
      · obtain ⟨hsame, -⟩ := BlockLines.section_inj (hplain text hin) (hplain _ hname) (hslash _) (hslash _) h
        refine ⟨1, le_refl 1, by rw [List.length_cons]; omega, ?_⟩
        rw [hsame]
        exact (List.append_nil _).symm

/-- A text names a path or a directory above it exactly where the path is the text, or has it before a slash. -/
theorem names_iff {names : Path} (hclean : ∀ name ∈ names, '/' ∉ name.toList) (hne : names ≠ []) {text : Text}
    (hlast : text.getLast? ≠ some '/') (directory : Bool) :
    (∃ length ∈ List.range' 1 names.length, (spelled (names.take length)).toList = text) ↔
      asText names directory = text ∨ text ++ ['/'] <+: asText names directory := by
  have hslashed : (spelled names).toList ++ ['/'] = slashed names := spelled_slash hne
  constructor
  · rintro ⟨length, hlength, rfl⟩
    obtain ⟨hone, hlt⟩ := List.mem_range'_1.mp hlength
    have htake : names.take length ≠ [] := fun hnil => by
      have hzero := congrArg List.length hnil
      rw [List.length_take, List.length_nil] at hzero
      omega
    have hsplit : slashed names = (spelled (names.take length)).toList ++ ['/'] ++ slashed (names.drop length) := by
      rw [spelled_slash htake, ← slashed_append, List.take_append_drop]
    cases directory with
    | true =>
        refine Or.inr ⟨slashed (names.drop length), ?_⟩
        rw [← hsplit, ← hslashed]
        rfl
    | false =>
        by_cases hall : names.drop length = []
        · refine Or.inl ?_
          have hwhole : names.take length = names := List.take_of_length_le (List.drop_eq_nil_iff.mp hall)
          rw [hwhole]
          rfl
        · refine Or.inr ⟨(spelled (names.drop length)).toList, ?_⟩
          rw [← spelled_slash hall, ← hslashed, ← List.append_assoc] at hsplit
          exact (List.append_cancel_right hsplit).symm
  · intro hasked
    have hfound : ∀ length, 1 ≤ length → length ≤ names.length → text ++ ['/'] = slashed (names.take length) →
        ∃ length ∈ List.range' 1 names.length, (spelled (names.take length)).toList = text := by
      intro length hone hle hsame
      have htake : names.take length ≠ [] := fun hnil => by
        have hzero := congrArg List.length hnil
        rw [List.length_take, List.length_nil] at hzero
        omega
      refine ⟨length, List.mem_range'_1.mpr ⟨hone, by omega⟩, ?_⟩
      rw [← spelled_slash htake] at hsame
      exact (List.append_cancel_right hsame).symm
    have hpositive : 1 ≤ names.length := List.length_pos_iff.mpr hne
    rcases hasked with hsame | ⟨rest, hrest⟩
    · cases directory with
      | true =>
          refine absurd ?_ hlast
          rw [← hsame, asText, if_pos rfl, List.getLast?_concat]
      | false =>
          refine hfound names.length hpositive (le_refl _) ?_
          rw [List.take_length, ← hslashed, ← hsame]
          rfl
    · have hwhole : ∃ behind, text ++ '/' :: behind = slashed names := by
        rw [List.append_assoc, List.singleton_append] at hrest
        cases directory with
        | true => exact ⟨rest, hrest.trans hslashed⟩
        | false => exact ⟨rest ++ ['/'], by rw [← List.cons_append, ← List.append_assoc, hrest]; exact hslashed⟩
      obtain ⟨behind, hbehind⟩ := hwhole
      obtain ⟨length, hone, hle, hsame⟩ := eq_slashed_take hclean hbehind
      exact hfound length hone hle hsame

/-! The fast path -/

theorem literally_eq (engine : Engine) (rows : Rows Text) (relative : Path) :
    engine.regex.literally rows relative = lastIndex (fun row => (List.range' 1 relative.length).any fun length =>
      engine.regex.literal row.1 = some (spelled (relative.take length))) rows := by
  have hmax := foldl_max_lastIndex (fun length row => engine.regex.literal row.1 = some (spelled (relative.take length)))
    rows (List.range' 1 relative.length) fun _ => false
  rw [lastIndex_none] at hmax
  exact hmax.trans (lastIndex_congr fun row _ => Bool.false_or _)

/-- The first alternative that matches is the last pattern that does. -/
theorem find?_alternatives (engine : Engine) (rows : List ((Text × Bool) × ℕ)) (text : Text) :
    ((rows.filterMap fun row => if (literalOf engine.word row.1.1).isNone then some (row.2, unnamed row.1.1) else none).find?
        fun alternative => (engine.asked alternative.2 text).isFound).map (·.1) =
      (rows.find? fun row => (literalOf engine.word row.1.1).isNone &&
        (engine.asked (unnamed row.1.1) text).isFound).map (·.2) := by
  induction rows with
  | nil => rfl
  | cons row rows ih =>
      rw [List.filterMap_cons, List.find?_cons]
      cases hliteral : (literalOf engine.word row.1.1).isNone with
      | false =>
          rw [if_neg Bool.false_ne_true, Bool.false_and]
          exact ih
      | true =>
          rw [if_pos rfl, List.find?_cons, Bool.true_and]
          cases (engine.asked (unnamed row.1.1) text).isFound with
          | true => rfl
          | false => exact ih

/-- The joined expression decides by the last pattern that matches and names no exact path. -/
theorem Engine.Reads.pattern_eq {engine : Engine} {rows : Rows Text} (h : engine.Reads rows)
    (hgrouped : ∀ row ∈ rows, Grouped row.1) (text : Text) :
    engine.pattern rows text = some (lastIndex (fun row =>
      (literalOf engine.word row.1).isNone && (engine.asked (unnamed row.1) text).isFound) rows) := by
  have hfind := find?_alternatives engine rows.zipIdx.reverse text
  rw [← alternatives] at hfind
  by_cases hnone : alternatives engine.word rows = []
  · have hjoined : joined engine.word rows = none := if_pos hnone
    rw [hnone, List.find?_nil, Option.map_none] at hfind
    rw [pattern, hjoined, lastIndex, Option.map_eq_none_iff.mp hfind.symm]
    rfl
  · obtain ⟨expression, hjoined⟩ : ∃ expression, joined engine.word rows = some expression := ⟨_, if_neg hnone⟩
    have hasked := h.joins hgrouped expression hjoined text
    rw [pattern, hjoined]
    dsimp only
    rw [hasked, lastIndex]
    cases halternative : (alternatives engine.word rows).find? fun alternative =>
        (engine.asked alternative.2 text).isFound with
    | none =>
        rw [halternative, Option.map_none] at hfind
        rw [Option.map_eq_none_iff.mp hfind.symm]
        rfl
    | some alternative =>
        rw [halternative, Option.map_some] at hfind
        obtain ⟨row, hrow, hindex⟩ := Option.map_eq_some_iff.mp hfind.symm
        rw [hrow]
        have hdigits : Nat.ofDigitChars 10 ((groupName alternative.1).drop 1) 0 = alternative.1 :=
          Nat.ofDigitChars_ten_toDigits
        dsimp only [Option.elim]
        rw [hdigits, hindex]

/-- Over a directory's rules, what the fast path asks is whether each rule's pattern matches. -/
theorem Engine.Reads.deciding_eq {engine : Engine} {rows : Rows Text} (h : engine.Reads rows)
    (hgrouped : ∀ row ∈ rows, Grouped row.1) {relative : Path} (hclean : ∀ name ∈ relative, '/' ∉ name.toList)
    (hne : relative ≠ []) (directory : Bool) (hline : '\n' ∉ asText relative directory) :
    engine.deciding rows relative directory =
      some (lastIndex (fun row => (engine.asked row.1 (asText relative directory)).isFound) rows) := by
  rw [deciding, h.pattern_eq hgrouped, Option.map_some, literally_eq, max_lastIndex]
  refine congrArg some (lastIndex_congr fun row hrow => ?_)
  rw [h.plain row hrow (hgrouped row hrow)]
  cases hliteral : literalOf engine.word row.1 with
  | none =>
      have hnone : ((List.range' 1 relative.length).any fun length =>
          decide (engine.regex.literal row.1 = some (spelled (relative.take length)))) = false := by
        refine List.any_eq_false.mpr fun length _ => ?_
        simp [Engine.regex, hliteral]
      rw [hnone]
      simp
  | some path =>
      obtain ⟨hlast, hexact⟩ := h.exact row hrow path hliteral
      rw [Bool.eq_iff_iff, hexact _ hline, ← names_iff hclean hne hlast directory]
      simp only [Engine.regex, hliteral, Option.isNone_some, Bool.false_and, Bool.false_or, List.any_eq_true,
        decide_eq_true_eq, Option.map_some, Option.some.injEq]
      refine exists_congr fun length => and_congr_right fun _ => ?_
      constructor
      · intro hsame
        rw [← hsame, String.toList_ofList]
      · intro hsame
        rw [← hsame, String.ofList_toList]

/-- One step of the judgement: the verdict of the last rule that matches, and the same answers after. -/
theorem Engine.Reads.judged_eq {engine : Engine} {rules : Rules Text} {base path : Path}
    (h : engine.Reads (rules.answer base).1) (hgrouped : ∀ row ∈ (rules.answer base).1, Grouped row.1)
    (hclean : ∀ name ∈ path.drop base.length, '/' ∉ name.toList) (hne : path.drop base.length ≠ []) (directory : Bool)
    (hline : '\n' ∉ asText (path.drop base.length) directory) (verdict : Bool) :
    engine.judged path directory (verdict, rules) base = some ((rules.answer base).1.foldl (fun verdict row =>
        if (engine.asked row.1 (asText (path.drop base.length) directory)).isFound then row.2 else verdict)
      (if (rules.answer base).2 then false else verdict), rules.declared base) := by
  have hrows : ((rules.declared base).rows base).getD [] = (rules.answer base).1 ∧
      decide (base ∈ (rules.declared base).repositories) = (rules.answer base).2 := by
    have hanswer : rules.answer = (rules.declared base).answer := Rules.answer_declared.symm
    rw [hanswer]
    unfold Rules.answer
    have hself : ((rules.declared base).rows base).isSome := Rules.rows_declared_self
    obtain ⟨rows, hread⟩ := Option.isSome_iff_exists.mp hself
    rw [hread]
    exact ⟨rfl, rfl⟩
  dsimp only [judged]
  rw [hrows.1, h.deciding_eq hgrouped hclean hne directory hline, Option.map_some, getElem?_lastIndex, ← hrows.2]
  by_cases hrepository : base ∈ (rules.declared base).repositories <;> simp [hrepository]

/-- Where the substitution respells exactly the groups, the fast path gives the law's answer: of the rules asked
from the root down, started over at each repository, the last one that matches decides. -/
theorem matches_law {engine : Engine} {rules : Rules Text} {path : Path}
    (hreads : ∀ base ∈ bases path, engine.Reads (rules.answer base).1)
    (hgrouped : ∀ base ∈ bases path, ∀ row ∈ (rules.answer base).1, Grouped row.1)
    (hpath : ∀ name ∈ path, '/' ∉ name.toList ∧ '\n' ∉ name.toList) (directory : Bool) :
    (engine.matchesPath rules path directory).map (·.1) = some
      ((rules.paths.any fun literal => literal.isPrefixOf path) || law engine rules.answer path directory) := by
  have hline : ∀ relative : Path, (∀ name ∈ relative, '\n' ∉ name.toList) → relative ≠ [] →
      '\n' ∉ asText relative directory := by
    intro relative hnames hne hin
    have hslashed : '\n' ∈ slashed relative := by
      rw [← spelled_slash hne]
      unfold asText at hin
      split at hin
      · exact hin
      · exact List.mem_append_left _ hin
    obtain ⟨name, hname, hchar⟩ := List.mem_flatMap.mp hslashed
    rcases List.mem_append.mp hchar with hown | hslash
    · exact hnames name hname hown
    · exact absurd (List.mem_singleton.mp hslash) (by decide)
  have hchain : ∀ (chain : List Path) (verdict : Bool) (state : Rules Text), state.answer = rules.answer →
      (∀ base ∈ chain, base ∈ bases path ∧ path.drop base.length ≠ []) →
      (chain.foldlM (engine.judged path directory) (verdict, state)).map (·.1) =
        some (chain.foldl (fun verdict base => (rules.answer base).1.foldl (fun verdict row =>
            if (engine.asked row.1 (asText (path.drop base.length) directory)).isFound then row.2 else verdict)
          (if (rules.answer base).2 then false else verdict)) verdict) := by
    intro chain
    induction chain with
    | nil => intro verdict state _ _; rfl
    | cons base chain ih =>
        intro verdict state hanswer hbases
        have hdrop : ∀ name ∈ path.drop base.length, '/' ∉ name.toList ∧ '\n' ∉ name.toList :=
          fun name hname => hpath name (List.mem_of_mem_drop hname)
        obtain ⟨hasked, hne⟩ := hbases base List.mem_cons_self
        have hstep := Engine.Reads.judged_eq (hanswer ▸ hreads base hasked) (hanswer ▸ hgrouped base hasked)
          (fun name hname => (hdrop name hname).1) hne directory (hline _ (fun name hname => (hdrop name hname).2) hne)
          verdict
        rw [List.foldlM_cons, hstep, List.foldl_cons, hanswer]
        exact ih _ _ (Rules.answer_declared.trans hanswer) fun one hone => hbases one (List.mem_cons_of_mem _ hone)
  rw [Engine.matchesPath]
  by_cases hliteral : (rules.paths.any fun literal => literal.isPrefixOf path) = true
  · rw [if_pos hliteral, hliteral]
    rfl
  · rw [if_neg hliteral, Bool.eq_false_iff.mpr hliteral, Bool.false_or]
    refine hchain (bases path) false rules rfl fun base hbase => ⟨hbase, ?_⟩
    obtain ⟨length, hlength, rfl⟩ := List.mem_map.mp hbase
    have hlt := List.mem_range.mp hlength
    intro hnil
    have hshort := List.drop_eq_nil_iff.mp hnil
    rw [List.length_take] at hshort
    omega

/-! A file naming one path and re-including another -/

/-- Letters, digits and the underscore. -/
def asciiWord (c : Char) : Bool := c.isAlphanum || c = '_'

/-- What the line `/a` is compiled to. -/
def exactPattern : Text := "^a(?:(?P<ps_d>/)|$)".toList

/-- What the line `!b` is compiled to. -/
def floatingPattern : Text := "^(?:.+/)?b(?:(?P<ps_d>/)|$)".toList

/-- The expression the two lines are joined into: the exact path stays out of it. -/
def floatingJoined : Text := "(?P<r1>^(?:.+/)?b(?:(?:/)|$))".toList

/-- An engine for these patterns. -/
def twoLineEngine : Engine where
  word := asciiWord
  asked := fun pattern text =>
    let named := (text.splitOn '/').any fun name => name = ['b']
    if pattern = exactPattern ∨ pattern = unnamed exactPattern then
      (if text = ['a'] ∨ ['a', '/'] <+: text then .found none else .missed)
    else if pattern = floatingJoined then (if named then .found (some "r1".toList) else .missed)
    else if pattern = floatingPattern ∨ pattern = unnamed floatingPattern then (if named then .found none else .missed)
    else .malformed

/-- The two lines, at the root. -/
def twoLines : Rules Text where
  learned := [([], [(exactPattern, true), (floatingPattern, false)])]

theorem twoLineEngine_exact {pattern : Text} (h : pattern = exactPattern ∨ pattern = unnamed exactPattern) (text : Text) :
    twoLineEngine.asked pattern text = if text = ['a'] ∨ ['a', '/'] <+: text then .found none else .missed :=
  if_pos h

theorem twoLineEngine_floating {pattern : Text} (h : pattern = floatingPattern ∨ pattern = unnamed floatingPattern)
    (text : Text) : twoLineEngine.asked pattern text =
      if (text.splitOn '/').any (fun name => name = ['b']) then .found none else .missed := by
  have hexact : ¬(pattern = exactPattern ∨ pattern = unnamed exactPattern) := by
    rcases h with rfl | rfl <;> decide +kernel
  have hjoined : ¬pattern = floatingJoined := by
    rcases h with rfl | rfl <;> decide +kernel
  exact (if_neg hexact).trans ((if_neg hjoined).trans (if_pos h))

theorem twoLineEngine_joined {pattern : Text} (h : pattern = floatingJoined) (text : Text) :
    twoLineEngine.asked pattern text =
      if (text.splitOn '/').any (fun name => name = ['b']) then .found (some "r1".toList) else .missed := by
  have hexact : ¬(pattern = exactPattern ∨ pattern = unnamed exactPattern) := by
    subst h
    decide +kernel
  exact (if_neg hexact).trans (if_pos h)

theorem twoLines_answer {base : Path} (h : base ≠ []) : (twoLines.answer base).1 = [] := by
  have hrows : twoLines.rows base = none := by
    rw [Rules.rows_eq_none_iff]
    exact fun hin => h (List.mem_singleton.mp hin)
  rw [Rules.answer, hrows]
  rfl

theorem twoLineEngine_reads (base : Path) : twoLineEngine.Reads (twoLines.answer base).1 := by
  by_cases hbase : base = []
  · subst hbase
    have hrows : (twoLines.answer []).1 = [(exactPattern, true), (floatingPattern, false)] := rfl
    have hjoined : joined asciiWord [(exactPattern, true), (floatingPattern, false)] = some floatingJoined := by
      decide +kernel
    have halternatives : alternatives asciiWord [(exactPattern, true), (floatingPattern, false)] =
        [(1, unnamed floatingPattern)] := by decide +kernel
    have hnames : groupName 1 = "r1".toList := by decide +kernel
    have hliterals : literalOf asciiWord exactPattern = some ['a'] ∧ literalOf asciiWord floatingPattern = none := by
      decide +kernel
    rw [hrows]
    refine ⟨fun _ expression hexpression text => ?_, fun row hrow _ text => ?_, fun row hrow path hpath => ?_⟩
    · obtain rfl := Option.some.inj (hjoined.symm.trans hexpression)
      rw [twoLineEngine_joined rfl, show twoLineEngine.word = asciiWord from rfl, halternatives, List.find?_cons,
        twoLineEngine_floating (Or.inr rfl)]
      by_cases hnamed : ((text.splitOn '/').any fun name => name = ['b']) = true
      · rw [if_pos hnamed, if_pos hnamed, ← hnames]
        rfl
      · rw [if_neg hnamed, if_neg hnamed]
        rfl
    · rcases List.mem_cons.mp hrow with rfl | hrow
      · rw [twoLineEngine_exact (Or.inr rfl), twoLineEngine_exact (Or.inl rfl)]
      · obtain rfl := List.mem_singleton.mp hrow
        rw [twoLineEngine_floating (Or.inr rfl), twoLineEngine_floating (Or.inl rfl)]
    · rcases List.mem_cons.mp hrow with rfl | hrow
      · obtain rfl := Option.some.inj (hliterals.1.symm.trans hpath)
        refine ⟨by decide, fun text _ => ?_⟩
        rw [twoLineEngine_exact (Or.inl rfl)]
        by_cases hnames : text = ['a'] ∨ ['a', '/'] <+: text
        · rw [if_pos hnames]
          exact ⟨fun _ => hnames, fun _ => rfl⟩
        · rw [if_neg hnames]
          exact ⟨fun hfound => absurd hfound Bool.false_ne_true, fun hsame => absurd hsame hnames⟩
      · obtain rfl := List.mem_singleton.mp hrow
        exact absurd (hliterals.2.symm.trans hpath) (by simp)
  · rw [twoLines_answer hbase]
    exact ⟨fun _ _ hnone => absurd hnone (by simp [joined, alternatives]), fun _ hrow => absurd hrow List.not_mem_nil,
      fun _ hrow => absurd hrow List.not_mem_nil⟩

theorem twoLines_grouped (base : Path) : ∀ row ∈ (twoLines.answer base).1, Grouped row.1 := by
  intro row hrow
  by_cases hbase : base = []
  · subst hbase
    have hboth : Grouped exactPattern ∧ Grouped floatingPattern := by
      unfold Grouped
      decide +kernel
    rcases List.mem_cons.mp hrow with rfl | hrow
    · exact hboth.1
    · obtain rfl := List.mem_singleton.mp hrow
      exact hboth.2
  · rw [twoLines_answer hbase] at hrow
    exact absurd hrow List.not_mem_nil

/-- A file under `a` is ignored by the exact line, unless it is named `b`. -/
theorem matches_law_two : (twoLineEngine.matchesPath twoLines ["a", "c"] false).map (·.1) =
      some ((twoLines.paths.any fun literal => literal.isPrefixOf ["a", "c"]) ||
        law twoLineEngine twoLines.answer ["a", "c"] false) ∧
    law twoLineEngine twoLines.answer ["a", "c"] false = true ∧
    law twoLineEngine twoLines.answer ["a", "b"] false = false :=
  ⟨matches_law (fun base _ => twoLineEngine_reads base) (fun base _ => twoLines_grouped base) (by decide) false, by decide +kernel, by decide +kernel⟩

/-- What the line `[(?P<x>]` is compiled to: a class of six characters, not a group. -/
def classPattern : Text := "^(?:.+/)?[(?P<x>](?:(?P<ps_d>/)|$)".toList

/-- What that line is joined as: the class has lost four of its characters. -/
def classJoined : Text := "(?P<r0>^(?:.+/)?[(?:](?:(?:/)|$))".toList

/-- Whether a path has a name of one character of a class. -/
def hasNameOf (characters : List Char) (text : Text) : Bool :=
  (text.splitOn '/').any fun name => characters.any fun c => name = [c]

/-- An engine for the two patterns. -/
def classEngine : Engine where
  word := asciiWord
  asked := fun pattern text =>
    if pattern = classPattern then (if hasNameOf "(?P<x>".toList text then .found none else .missed)
    else if pattern = classJoined then (if hasNameOf "(?:".toList text then .found (some "r0".toList) else .missed)
    else if pattern = unnamed classPattern then (if hasNameOf "(?:".toList text then .found none else .missed)
    else .malformed

/-- The line, at the root. -/
def classLine : Rules Text where
  learned := [([], [(classPattern, true)])]

/-- The substitution reaches into a character class: the file `x` the line ignores is not matched. -/
theorem matches_law_fails : (∀ base, classEngine.Reads (classLine.answer base).1) ∧
    joined classEngine.word (classLine.answer []).1 = some classJoined ∧
    law classEngine classLine.answer ["x"] false = true ∧
    (classEngine.matchesPath classLine ["x"] false).map (·.1) = some false := by
  have hjoined : joined asciiWord [(classPattern, true)] = some classJoined := by decide +kernel
  have hgrouped : ¬Grouped classPattern := by
    unfold Grouped
    decide +kernel
  have hliteral : literalOf asciiWord classPattern = none := by decide +kernel
  refine ⟨fun base => ?_, hjoined, by decide +kernel, by decide +kernel⟩
  by_cases hbase : base = []
  · subst hbase
    have hrows : (classLine.answer []).1 = [(classPattern, true)] := rfl
    rw [hrows]
    refine ⟨fun hall => absurd (hall _ (List.mem_singleton_self _)) hgrouped, fun row hrow hown => ?_,
      fun row hrow path hpath => ?_⟩
    · obtain rfl := List.mem_singleton.mp hrow
      exact absurd hown hgrouped
    · obtain rfl := List.mem_singleton.mp hrow
      exact absurd (hliteral.symm.trans hpath) (by simp)
  · have hread : classLine.rows base = none := by
      rw [Rules.rows_eq_none_iff]
      exact fun hin => hbase (List.mem_singleton.mp hin)
    have hnone : (classLine.answer base).1 = [] := by
      rw [Rules.answer, hread]
      rfl
    rw [hnone]
    exact ⟨fun _ _ hexpression => absurd hexpression (by simp [joined, alternatives]),
      fun _ hrow => absurd hrow List.not_mem_nil, fun _ hrow => absurd hrow List.not_mem_nil⟩

end Mainboard.Ignores
