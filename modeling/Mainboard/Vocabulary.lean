import Mathlib.Data.List.Basic
import Mathlib.Logic.Function.Basic

/-! The one-word verdict vocabulary of a dispatched job and the moves a recorded verdict may make.
Records and status artifacts carry verdicts as texts, so every word comes with its spelling. -/

namespace Mainboard

/-- The one word a dispatched job's verdict is. -/
inductive Word
  | queued
  | running
  | prepared
  | submitting
  | finished
  | ok
  | failed
  | vanished
  | unknown
  | timeout
  | cancelled
  | held
  | skipped
  deriving DecidableEq, Repr

namespace Word

/-- The text of a word, its lowercased name. -/
def value : Word → String
  | queued => "queued"
  | running => "running"
  | prepared => "prepared"
  | submitting => "submitting"
  | finished => "finished"
  | ok => "ok"
  | failed => "failed"
  | vanished => "vanished"
  | unknown => "unknown"
  | timeout => "timeout"
  | cancelled => "cancelled"
  | held => "held"
  | skipped => "skipped"

def all : List Word :=
  [queued, running, prepared, submitting, finished, ok, failed, vanished, unknown, timeout, cancelled,
    held, skipped]

/-- `Word(text)`; a text no word is spelled as is refused. -/
def ofValue (text : String) : Option Word := all.find? fun word => word.value = text

/-- The moves declared for a word, `none` for the one word that is no key of `_MOVES`. -/
def moves : Word → Option (List Word)
  | prepared => some [submitting, failed, cancelled]
  | submitting => some [prepared, queued, running]
  | held => some [queued, running, failed, vanished, cancelled]
  | queued => some [running, ok, failed, timeout, vanished, unknown, cancelled]
  | running => some [queued, ok, failed, vanished, unknown, timeout, cancelled]
  | ok | failed | vanished | unknown | timeout | cancelled | skipped => some []
  | finished => none

/-- The words settled for good: declared, and declared to move nowhere. -/
def settled (word : Word) : Bool := word.moves = some []

/-- The move from `word` to `next` is one of the table. -/
def Transition (word next : Word) : Prop := next ∈ word.moves.getD []

instance (word next : Word) : Decidable (Transition word next) :=
  inferInstanceAs (Decidable (_ ∈ _))

@[simp] theorem ofValue_value (word : Word) : ofValue word.value = some word := by
  cases word <;> rfl

theorem value_injective : Function.Injective value := by
  intro left right h
  have hsome : some left = some right := by rw [← ofValue_value left, h, ofValue_value]
  exact Option.some.inj hsome

@[simp] theorem value_inj {left right : Word} : left.value = right.value ↔ left = right :=
  value_injective.eq_iff

theorem ofValue_eq_some {text : String} {word : Word} : ofValue text = some word ↔ word.value = text := by
  constructor
  · intro h
    simpa using List.find?_some h
  · rintro rfl
    exact ofValue_value word

/-- A settled word moves nowhere. -/
theorem not_transition_of_settled {word next : Word} (h : word.settled = true) :
    ¬ Transition word next := by
  have hmoves : word.moves = some [] := by simpa [settled] using h
  simp [Transition, hmoves]

/-- No word moves to HELD. -/
theorem not_transition_held (word : Word) : ¬ Transition word held := by
  cases word <;> decide

end Word

/-- `func.coalesce(verdict, "")` is one of the sorted terminal words. -/
def terminal (verdict : Option String) : Bool :=
  ((Word.ofValue (verdict.getD "")).map Word.settled).getD false

@[simp] theorem terminal_value (word : Word) : terminal (some word.value) = word.settled := by
  simp [terminal]

@[simp] theorem terminal_none : terminal none = false := rfl

theorem terminal_iff {verdict : Option String} :
    terminal verdict = true ↔ ∃ word : Word, word.settled = true ∧ verdict = some word.value := by
  constructor
  · intro h
    cases verdict with
    | none => simp at h
    | some text =>
        cases hword : Word.ofValue text with
        | none => simp [terminal, hword] at h
        | some word =>
            refine ⟨word, ?_, ?_⟩
            · simpa [terminal, hword] using h
            · rw [Word.ofValue_eq_some.mp hword]
  · rintro ⟨word, hsettled, rfl⟩
    rw [terminal_value, hsettled]

/-- The lifecycle a verdict is moved along, taken from a package outside the repository: it allows
exactly the moves it was given. -/
structure Lifecycle where
  allowed : Word → Word → Bool
  allowed_iff : ∀ current next, allowed current next = true ↔ Word.Transition current next

/-- The lifecycle read directly off the table. -/
def Lifecycle.table : Lifecycle where
  allowed current next := decide (Word.Transition current next)
  allowed_iff _ _ := decide_eq_true_iff

end Mainboard
