import Mathlib.Data.List.Infix

/-! What an owner's grant covers: targets, the scopes that name them, and the window of time a grant
holds in. A scope is one target, or every target below a prefix; that nothing else is ever covered is
shown for every scope the validator lets through. -/

namespace Mainboard.Policy

abbrev Text := List Char

/-- What an unattended process may need the owner's leave for. -/
inductive Act
  | card
  | launch
  | push
  | rent
  deriving DecidableEq, Repr

namespace Act

def value : Act → String
  | card => "card"
  | launch => "launch"
  | push => "push"
  | rent => "rent"

def ofValue (text : String) : Option Act := [card, launch, push, rent].find? (·.value = text)

@[simp] theorem ofValue_value (act : Act) : ofValue act.value = some act := by
  cases act <;> decide

end Act

/-- Why a record of the grants is refused. -/
inductive Fault
  | noTarget (text : Text)
  | noScope (text : Text)
  | ended («until» : Int)
  | noAct
  | notPositive
  | notFinite
  deriving DecidableEq, Repr

/-- The reason as its validator writes it; `shown` and `stamp` spell a text and an instant. -/
def Fault.text (shown : Text → String) (stamp : Int → String) : Fault → String
  | noTarget text => shown text ++ " is no target: words of letters, digits and `_.@+-` joined by `/` or `:`, "
      ++ "no `.` or `..` among them, at most 200 characters"
  | noScope text => shown text ++ " is no scope: `*` only ends one, right after `/` or `:`"
  | ended moment => "a grant until " ++ stamp moment ++ " ends before it was granted"
  | noAct => "Input should be 'card', 'launch', 'push' or 'rent'"
  | notPositive => "Input should be greater than 0"
  | notFinite => "Input should be a finite number"

def longest : Nat := 200

/-- The two characters the words of a target are joined by. -/
def separator (char : Char) : Bool := char == '/' || char == ':'

/-- A character of a word: an ASCII letter or digit, or one of `_.@+-`. -/
def wordly (char : Char) : Bool := char.isAlphanum || "_.@+-".toList.contains char

def words (text : Text) : List Text := text.splitOnP separator

/-- Whether a text is a target: words joined by separators, none of them `.` or `..`. -/
def named (text : Text) : Bool :=
  decide (text.length ≤ longest) && (words text).all (fun word => !word.isEmpty && word.all wordly) &&
    !(words text).contains ".".toList && !(words text).contains "..".toList

def target (text : Text) : Except Fault Text :=
  if named text then .ok text else .error (.noTarget text)

/-- A text without the `*` it ends in, if it ends in one. -/
def removeStar (text : Text) : Text := if text.getLast? = some '*' then text.dropLast else text

def endsAtSeparator (text : Text) : Bool := text.getLast?.any separator

/-- A text as a scope: a target, or a target, one separator and a trailing `*`. -/
def scope (text : Text) : Except Fault Text :=
  if removeStar text = text then target text
  else if endsAtSeparator (removeStar text) then do
    let _ ← target (removeStar text).dropLast
    return text
  else .error (.noScope text)

/-- A text the validator of targets lets through. -/
structure Target where
  text : Text
  valid : target text = .ok text
  deriving DecidableEq

/-- A text the validator of scopes lets through. -/
structure Scope where
  text : Text
  valid : scope text = .ok text
  deriving DecidableEq

/-- The owner's leave for one act within one scope, from `granted` up to `until`. -/
structure Grant where
  act : Act
  scope : Scope
  granted : Int
  «until» : Int
  ask : String
  deriving DecidableEq

namespace Grant

/-- Whether the grant is in force at a moment. -/
def inForce (grant : Grant) (moment : Int) : Bool :=
  decide (grant.granted ≤ moment) && decide (moment < grant.until)

/-- Whether the grant lets `act` on `target` happen: act, scope and time all match. -/
def covers (grant : Grant) (act : Act) (target : Text) (moment : Int) : Bool :=
  let prefixed := removeStar grant.scope.text
  let within := decide (target = grant.scope.text) ||
    (decide (prefixed ≠ grant.scope.text) && prefixed.isPrefixOf target)
  let timely := grant.inForce moment
  decide (act = grant.act) && named target && within && timely

end Grant

theorem removeStar_eq_self_iff {text : Text} : removeStar text = text ↔ text.getLast? ≠ some '*' := by
  unfold removeStar
  split
  · rename_i hstar
    refine iff_of_false ?_ (by simpa using hstar)
    intro hsame
    have hlength := congrArg List.length hsame
    have hpos : 0 < text.length := by
      cases text with
      | nil => simp at hstar
      | cons => simp
    simp only [List.length_dropLast] at hlength
    omega
  · rename_i hstar
    simp [hstar]

theorem eq_concat_star {text : Text} (h : text.getLast? = some '*') : text = text.dropLast ++ ['*'] :=
  (List.dropLast_append_getLast? '*' h).symm

/-- A target names a word after its last separator. -/
theorem named_append_separator {base : Text} {sep : Char} (hsep : separator sep) :
    named (base ++ [sep]) = false := by
  have hwords : words (base ++ [sep]) = words base ++ [[]] := by
    unfold words
    rw [List.splitOnP_append_cons _ _ hsep, List.splitOnP_nil]
  simp [named, hwords]

/-- What a scope is: one target, or a target, a separator and a star. -/
theorem scope_ok {text : Text} (h : scope text = .ok text) :
    (text.getLast? ≠ some '*' ∧ named text) ∨
      ∃ base sep, separator sep ∧ named base ∧ text = base ++ [sep, '*'] := by
  unfold scope at h
  split at h
  · rename_i hplain
    refine .inl ⟨removeStar_eq_self_iff.mp hplain, ?_⟩
    unfold target at h
    split at h
    · assumption
    · cases h
  · rename_i hstarred
    have hstar : text.getLast? = some '*' := by
      by_contra hno
      exact hstarred (removeStar_eq_self_iff.mpr hno)
    have hbase : removeStar text = text.dropLast := if_pos hstar
    split at h
    · rename_i hsep
      obtain ⟨sep, hlast, hsep⟩ : ∃ sep, (removeStar text).getLast? = some sep ∧ separator sep := by
        simpa [endsAtSeparator, Option.any_eq_true] using hsep
      refine .inr ⟨(removeStar text).dropLast, sep, hsep, ?_, ?_⟩
      · cases hnamed : named (removeStar text).dropLast
        · simp [target, hnamed] at h
        · rfl
      · have hinner := List.dropLast_append_getLast? sep hlast
        have houter := eq_concat_star hstar
        rw [← hbase, ← hinner, List.append_assoc] at houter
        exact houter
    · cases h

/-- Strictly below a scope's prefix: the target goes on after the separator its star follows. -/
def Below (scope target : Text) : Prop :=
  ∃ base sep rest, separator sep ∧ named base ∧ rest ≠ [] ∧
    scope = base ++ [sep, '*'] ∧ target = base ++ sep :: rest

namespace Grant

variable {grant : Grant} {act : Act} {target : Text} {moment : Int}

theorem inForce_iff : grant.inForce moment ↔ grant.granted ≤ moment ∧ moment < grant.until := by
  simp [inForce]

/-- The scope part of `covers`, for a well-formed target. -/
theorem within_iff (hnamed : named target) :
    (target = grant.scope.text ∨
      (removeStar grant.scope.text ≠ grant.scope.text ∧ (removeStar grant.scope.text).isPrefixOf target)) ↔
      (target = grant.scope.text ∨ Below grant.scope.text target) := by
  refine or_congr_right ⟨?_, ?_⟩
  · rintro ⟨hstarred, hstarts⟩
    rcases scope_ok grant.scope.valid with ⟨hplain, -⟩ | ⟨base, sep, hsep, hbase, htext⟩
    · exact absurd (removeStar_eq_self_iff.mpr hplain) hstarred
    · have hlonger : removeStar grant.scope.text = base ++ [sep] := by
        rw [htext, removeStar, if_pos (by simp)]
        simp [List.dropLast_append_of_ne_nil]
      rw [hlonger, List.isPrefixOf_iff_prefix] at hstarts
      obtain ⟨rest, rfl⟩ := hstarts
      refine ⟨base, sep, rest, hsep, hbase, ?_, htext, by simp⟩
      rintro rfl
      rw [List.append_nil, named_append_separator hsep] at hnamed
      exact absurd hnamed Bool.false_ne_true
  · rintro ⟨base, sep, rest, -, -, -, htext, rfl⟩
    have hstar : grant.scope.text.getLast? = some '*' := by simp [htext]
    refine ⟨fun hsame => removeStar_eq_self_iff.mp hsame hstar, ?_⟩
    rw [removeStar, if_pos hstar, List.isPrefixOf_iff_prefix, htext]
    exact ⟨rest, by simp [List.dropLast_append_of_ne_nil]⟩

/-- A grant covers its very act on a target that is its scope or strictly below it, in its window. -/
theorem covers_iff : grant.covers act target moment ↔
    act = grant.act ∧ named target ∧ (target = grant.scope.text ∨ Below grant.scope.text target) ∧
      grant.granted ≤ moment ∧ moment < grant.until := by
  unfold covers
  simp only [Bool.and_eq_true, Bool.or_eq_true, decide_eq_true_eq, inForce_iff, and_assoc]
  refine and_congr_right fun _ => and_congr_right fun hnamed => and_congr_left fun _ => ?_
  exact within_iff hnamed

end Grant

end Mainboard.Policy
