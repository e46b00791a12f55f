import Mainboard.StandingLines
import Mainboard.Vocabulary

/-! The lines a batch publishes and the cursors read back out of them: the newest line of some topics for
each job, by the envelope's time and not by arrival. -/

namespace Mainboard.Receipts
open OrderedMap StandingLines

/-- Every routing key a batch publishes under. -/
inductive Topic
  | opened
  | prepared
  | estimated
  | submitted
  | refused
  | held
  | skipped
  | state
  | attested
  | sample
  | settled
  | evidence
  | cost
  | closed
  deriving DecidableEq, Repr

/-- What the readers here take out of a line's payload. A field an identity is compared by may be absent;
a text read with an empty default is that text. -/
structure Data where
  handle : Option String := none
  target : Option String := none
  submittedAt : Option String := none
  state : String := ""
  verdict : String := ""
  exitCode : Option Int := none
  detail : String := ""
  node : String := ""
  reason : String := ""
  status : String := ""
  trials : List (List String) := []
  idle : Bool := false
  gpuPct : String := "0"
  deriving DecidableEq, Repr

/-- One published line: when, about which job, and what it says. -/
structure Event (τ : Type) where
  published : τ
  topic : Topic
  job : String := ""
  data : Data := {}
  deriving DecidableEq, Repr

section Cursors

variable {τ : Type} [LinearOrder τ]

/-- The most recent event of any of the topics per job. A tie keeps the later arrival. -/
def latest (events : List (Event τ)) (topics : List Topic) : List (String × Event τ) :=
  events.foldl (fun newest event =>
    if event.topic ∈ topics ∧ (get newest event.job).all (fun held => held.published ≤ event.published)
    then put newest event.job event else newest) []

/-- Every job's newest answer to being offered: submitted, refused or held. -/
def offered (events : List (Event τ)) : List (String × Event τ) :=
  latest events [.submitted, .refused, .held]

/-- The lines of some topics about one job. -/
def about (events : List (Event τ)) (topics : List Topic) (job : String) : List (Event τ) :=
  events.filter fun event => event.topic ∈ topics ∧ event.job = job

theorem latest_snoc (events : List (Event τ)) (event : Event τ) (topics : List Topic) :
    latest (events ++ [event]) topics =
      if event.topic ∈ topics ∧ (get (latest events topics) event.job).all (fun held => held.published ≤ event.published)
      then put (latest events topics) event.job event else latest events topics := by
  rw [latest, latest, List.foldl_append]
  rfl

theorem nodup_keys_latest (events : List (Event τ)) (topics : List Topic) :
    ((latest events topics).map (·.1)).Nodup := by
  induction events using List.reverseRecOn with
  | nil => exact List.nodup_nil
  | append_singleton events event ih =>
      rw [latest_snoc]
      split
      · exact nodup_keys_put ih _ _
      · exact ih

/-- What the cursor holds for a job is the newest of the job's lines of those topics. -/
theorem get_latest (events : List (Event τ)) (topics : List Topic) (job : String) :
    get (latest events topics) job = newest Event.published (about events topics job) := by
  induction events using List.reverseRecOn with
  | nil => rfl
  | append_singleton events event ih =>
      rw [latest_snoc, about, List.filter_append]
      by_cases htopic : event.topic ∈ topics
      · by_cases hjob : event.job = job
        · have hkept : ([event].filter fun event => event.topic ∈ topics ∧ event.job = job) = [event] := by
            simp [htopic, hjob]
          rw [hkept, newest_snoc, ← about, ← ih, hjob]
          cases hheld : get (latest events topics) job with
          | none => simp [htopic, later, get_put]
          | some held =>
              by_cases hle : held.published ≤ event.published
              · simp [htopic, later, hle, get_put]
              · simp [later, hle, hheld]
        · have hdropped : ([event].filter fun event => event.topic ∈ topics ∧ event.job = job) = [] := by
            simp [hjob]
          rw [hdropped, List.append_nil, ← about, ← ih]
          split
          · rw [get_put, if_neg hjob]
          · rfl
      · have hdropped : ([event].filter fun event => event.topic ∈ topics ∧ event.job = job) = [] := by
          simp [htopic]
        rw [hdropped, List.append_nil, ← about, ← ih, if_neg fun h => htopic h.1]

omit [LinearOrder τ] in
theorem mem_about {events : List (Event τ)} {topics : List Topic} {job : String} {event : Event τ} :
    event ∈ about events topics job ↔ event ∈ events ∧ event.topic ∈ topics ∧ event.job = job := by
  simp [about, List.mem_filter]

/-- A job is a key of the cursor where one of its lines is of those topics. -/
theorem mem_keys_latest {events : List (Event τ)} {topics : List Topic} {job : String} :
    job ∈ (latest events topics).map (·.1) ↔ ∃ event ∈ events, event.topic ∈ topics ∧ event.job = job := by
  have hget := get_latest events topics job
  have hnone := get_eq_none_iff (latest events topics) job
  rw [hget, newest_eq_none_iff] at hnone
  rw [← not_iff_not, ← hnone, List.eq_nil_iff_forall_not_mem]
  simp only [mem_about, not_exists]

end Cursors

end Mainboard.Receipts
