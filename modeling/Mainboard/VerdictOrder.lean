import Mainboard.VerdictRows

/-! What the order of a stream's lines decides. The rows folded from the computation's own lines do not
depend on it where a job's lines have distinct times. The delivery status a row is read under is the standing
line of the evidence that speaks for the row, so which statuses some order gives is known from the times. -/

namespace Mainboard.Verdicts
open OrderedMap StandingLines Receipts

section Order

variable {τ : Type} [LinearOrder τ]

/-- The lines of one job have one time each. -/
def DistinctTimes (events : List (Event τ)) : Prop :=
  ∀ one ∈ events, ∀ other ∈ events, one.job = other.job → one.published = other.published → one = other

/-- The same lines, in any order and any of them any number of times. -/
def Redelivered (arrived events : List (Event τ)) : Prop := ∀ event, event ∈ arrived ↔ event ∈ events

omit [LinearOrder τ] in
theorem Redelivered.filter {arrived events : List (Event τ)} (h : Redelivered arrived events)
    (p : Event τ → Bool) : Redelivered (arrived.filter p) (events.filter p) := by
  intro event
  rw [List.mem_filter, List.mem_filter, h event]

omit [LinearOrder τ] in
theorem DistinctTimes.identified {events : List (Event τ)} (h : DistinctTimes events) :
    DistinctTimes (identified events) := fun one hone other hother =>
  h one (List.mem_filter.mp hone).1 other (List.mem_filter.mp hother).1

end Order

section Statuses

variable {τ : Type} [LinearOrder τ]

/-- The evidence lines of a stream. -/
def evidence (events : List (Event τ)) : List (Event τ) := events.filter fun event => event.topic = .evidence

/-- The line is kept under the target and the handle. -/
def under (target handle : String) (event : Event τ) : Bool :=
  event.data.target.getD "" = target && event.data.handle.getD "" = handle

/-- The line names the case of the run. -/
def names (run job : String) (event : Event τ) : Bool := (cases event).any fun case => case = (run, job)

/-- The job's newest answer to being offered. -/
def newestAnswer (events : List (Event τ)) (job : String) : Option (Event τ) :=
  newest Event.published (about events [.submitted, .refused, .held] job)

/-- The target and the handle a job's evidence is kept under: those of its submission, else the target alone that it
was refused or held on or left out of. -/
def address (events : List (Event τ)) (job : String) : String × String :=
  match newestAnswer events job with
  | some answer => (answer.data.target.getD "", if answer.topic = .submitted then answer.data.handle.getD "" else "")
  | none => (((newest Event.published (about events [.skipped] job)).bind (·.data.target)).getD "", "")

end Statuses

end Mainboard.Verdicts
