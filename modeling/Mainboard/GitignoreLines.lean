import Mathlib.Data.List.DropRight
import Mathlib.Data.List.Infix

/-! Lines of the gitignore format over paths of names: what a line says, the last line that has a word on a path, and a
path excluded with the first of the folders above it that is. How one part of a pattern fits one name is a parameter. -/

namespace Gitignore

abbrev Text := List Char

/-- What one line says: it excludes, or takes back what was excluded, where its parts reach. -/
structure Rule where
  negated : Bool
  directory : Bool
  parts : List Text
  deriving DecidableEq, Repr

def stars : Text := ['*', '*']

/-- A line without the blanks at its end, the first of them kept where a backslash quotes it. -/
def unspaced (line : Text) : Text :=
  let bare := line.rdropWhile (· == ' ')
  if bare ≠ line ∧ (bare.rtakeWhile (· == '\\')).length % 2 = 1 then bare ++ [' '] else bare

/-- What is written between the slash a pattern starts with and the one it ends with. -/
def body (bare : Text) : Text := if bare.getLast? = some '/' then bare.dropLast else bare

/-- A pattern's parts: at any depth unless a slash stands before its end. -/
def partsOf (bare : Text) : List Text :=
  let body := body bare
  let parts := (if body.head? = some '/' then body.tail else body).splitOn '/'
  if '/' ∈ body then parts else stars :: parts

def ruled (negated : Bool) (bare : Text) : Option Rule :=
  if bare = [] then none else some { negated, directory := bare.getLast? = some '/', parts := partsOf bare }

/-- What a line says, nothing where it is blank or a comment. -/
def rule (line : Text) : Option Rule :=
  match unspaced line with
  | [] => none
  | '#' :: _ => none
  | '!' :: bare => ruled true bare
  | bare => ruled false bare

section Reaching

variable (fits : Text → Text → Bool)

/-- Whether a part is a path's first name and the rest reaches what comes under it. -/
def stepped (part : Text) (rest : List Text → Bool) : List Text → Bool
  | [] => false
  | name :: names => decide (part ≠ []) && fits part name && rest names

/-- Whether a pattern's parts are the names of a path, `**` any of them. -/
def reaches : List Text → List Text → Bool
  | [], path => path.isEmpty
  | part :: parts, path =>
      if part = stars then if parts = [] then !path.isEmpty else path.tails.any (reaches parts)
      else stepped fits part (reaches parts) path

def Rule.holds (rule : Rule) (path : List Text) (directory : Bool) : Bool :=
  (!rule.directory || directory) && reaches fits rule.parts path

/-- What a line says of a path, nothing where it does not reach it. -/
def opinion (line : Text) (path : List Text) (directory : Bool) : Option Bool :=
  ((rule line).filter fun rule => rule.holds fits path directory).map fun rule => !rule.negated

/-- The last word of a list of lines on a path: whether it is excluded. -/
def word (lines : List Text) (path : List Text) (directory : Bool) : Option Bool :=
  lines.foldl (fun verdict line => (opinion fits line path directory).or verdict) none

/-- A path is excluded with the first folder above it that is, or by a word of its own. -/
def excluded (lines : List Text) (path : List Text) : Bool :=
  path.inits.any fun above => word fits lines above (decide (above ≠ path)) == some true

end Reaching

section Words

variable {fits : Text → Text → Bool} {parts path : List Text} {directory : Bool}

theorem foldl_opinion (lines : List Text) (verdict : Option Bool) :
    lines.foldl (fun verdict line => (opinion fits line path directory).or verdict) verdict =
      (word fits lines path directory).or verdict := by
  unfold word
  induction lines generalizing verdict with
  | nil => rfl
  | cons line lines ih => rw [List.foldl_cons, List.foldl_cons, ih, ih (Option.or _ none), Option.or_none, Option.or_assoc]

/-- Lines after others have the last word where they have one. -/
theorem word_append (lines later : List Text) :
    word fits (lines ++ later) path directory = (word fits later path directory).or (word fits lines path directory) := by
  rw [word, List.foldl_append]
  exact foldl_opinion later _

theorem word_cons (line : Text) (lines : List Text) :
    word fits (line :: lines) path directory =
      (word fits lines path directory).or (opinion fits line path directory) := by
  have hone : word fits [line] path directory = opinion fits line path directory := Option.or_none
  rw [← hone]
  exact word_append [line] lines

theorem excluded_iff (lines : List Text) : excluded fits lines path = true ↔
    ∃ above, above <+: path ∧ word fits lines above (decide (above ≠ path)) = some true := by
  unfold excluded
  simp only [List.any_eq_true, List.mem_inits, beq_iff_eq]

/-- A pattern with an empty part reaches nothing. -/
theorem reaches_of_empty (h : [] ∈ parts) : reaches fits parts path = false := by
  induction parts generalizing path with
  | nil => cases h
  | cons part parts ih =>
      rw [reaches]
      split
      · rename_i hstars
        have hrest : [] ∈ parts := (List.mem_cons.mp h).resolve_left fun hpart => by
          rw [← hpart] at hstars
          exact absurd hstars (by decide)
        rw [if_neg (List.ne_nil_of_mem hrest), Bool.eq_false_iff, ne_eq, List.any_eq_true]
        rintro ⟨later, -, hlater⟩
        rw [ih hrest] at hlater
        cases hlater
      · cases path with
        | nil => rfl
        | cons name names =>
            rcases List.mem_cons.mp h with rfl | hrest
            · rfl
            · rw [stepped, ih hrest, Bool.and_false]

/-- Names that fit only themselves. -/
def Literal (fits : Text → Text → Bool) (base : List Text) : Prop :=
  ∀ part ∈ base, part ≠ stars ∧ part ≠ [] ∧ ∀ name, fits part name = decide (name = part)

/-- A pattern under a literal folder reaches what is under that folder and the rest reaches. -/
theorem reaches_under {base : List Text} (h : Literal fits base) (path : List Text) :
    reaches fits (base ++ parts) path = (decide (base <+: path) && reaches fits parts (path.drop base.length)) := by
  induction base generalizing path with
  | nil => simp
  | cons part base ih =>
      obtain ⟨hstars, hsome, hfits⟩ := h part List.mem_cons_self
      rw [List.cons_append, reaches, if_neg hstars]
      cases path with
      | nil => simp [stepped]
      | cons name names =>
          rw [stepped, ih (fun other hother => h other (List.mem_cons_of_mem _ hother)), hfits]
          by_cases hname : name = part
          · subst hname
            simp [hsome]
          · have hother : ¬ part :: base <+: name :: names := fun hunder => hname (List.cons_prefix_cons.mp hunder).1.symm
            simp [hname, hother]

end Words

end Gitignore
