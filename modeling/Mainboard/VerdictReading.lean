import Mainboard.VerdictOrder

/-! Reading a stream to an exit code. A row takes the standing line under its target and handle for its own
evidence, and the newest settled line of its job for its own settlement. A handle reissued on one target makes
the first another submission's line, and a late line of an earlier submission the second; the stream then
exits clean over evidence that is still open, or reads differently by the order its lines came in. -/

namespace Mainboard.Verdicts
open OrderedMap StandingLines Receipts

/-- The verdicts of work that is over and well. -/
def Clean (verdict : String) : Prop :=
  verdict = Word.ok.value ∨ verdict = "passed" ∨ verdict = Word.skipped.value

instance (verdict : String) : Decidable (Clean verdict) := inferInstanceAs (Decidable (_ ∨ _ ∨ _))

section Reading

variable {τ : Type} [LinearOrder τ]

/-- The delivery is not over: waiting, copied and not checked, or not to be checked. -/
def Open (line : Event τ) : Prop :=
  line.data.status = "pending" ∨ line.data.status = "copied" ∨ line.data.status = unverified

/-- The evidence lines that belong to the submission. -/
def ownEvidence (events : List (Event τ)) (answer : Event τ) : List (Event τ) :=
  (evidence events).filter (belongs answer)

/-- The lines of a topic that belong to the job's submission. -/
def ownLines (events : List (Event τ)) (topic : Topic) (job : String) (answer : Event τ) : List (Event τ) :=
  (about (identified events) [topic] job).filter (belongs answer)

/-- What a submission's own lines say it came to: its newest settled line, else its newest state line. -/
def reading (events : List (Event τ)) (job : String) (answer : Event τ) : String :=
  (((newest Event.published (ownLines events .settled job answer)).or
    (newest Event.published (ownLines events .state job answer))).map (·.data.verdict)).getD ""

/-- The job's newest answer is a submission that settled clean and whose newest evidence is not open; a job
never offered was left out. -/
structure Settled (events : List (Event τ)) (job : String) : Prop where
  submitted : ∀ answer, newestAnswer events job = some answer → answer.topic = .submitted
  clean : ∀ answer, newestAnswer events job = some answer → Clean (reading events job answer)
  delivered : ∀ answer, newestAnswer events job = some answer →
    ∀ line, newest Event.published (ownEvidence events answer) = some line → ¬ Open line
  skipped : newestAnswer events job = none → ∃ skip ∈ events, skip.topic = .skipped ∧ skip.job = job

/-- The evidence lines by time, those of one time as they came. -/
def heard (events : List (Event τ)) : List (Event τ) := (sorted events).filter fun event => event.topic = .evidence

end Reading

end Mainboard.Verdicts
