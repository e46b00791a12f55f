import Mainboard.Registry

/-! The registry's operations. Each one that reads first holds the registry lock across its read
and its append, so one operation is one step; what it raises leaves the log as it was. -/

namespace Mainboard

namespace RunRecord

/-- The computation fields a resolved outcome replaces. -/
def resolved (run : RunRecord) (state : Option String) (exitCode : Option Int) (verdict : String) :
    RunRecord :=
  { run with state, exitCode, verdict := some verdict }

def withReported (run : RunRecord) (verdict : String) : RunRecord := { run with reported := some verdict }

def withEvidence (run : RunRecord) (status : String) : RunRecord := { run with evidence := status }

def withLease (run : RunRecord) (lease : Lease) : RunRecord := { run with lease := some lease }

/-- A creation moved on from PREPARED; a terminal word is reported at once, so no sweep owes it. -/
def movedOn (run : RunRecord) (verdict : String) (lease : Option Lease) : RunRecord :=
  { run with
    state := some verdict
    verdict := some verdict
    reported := if terminal (some verdict) then some verdict else none
    lease }

/-- A declined creation, back to PREPARED. -/
def reopened (run : RunRecord) : RunRecord :=
  { run with state := some Word.prepared.value, verdict := some Word.prepared.value, lease := none }

/-- A creation whose provider handle replaced its intent. -/
def bound (run : RunRecord) (handle : String) : RunRecord :=
  { run with handle, state := some Word.queued.value, verdict := some Word.queued.value }

variable (run : RunRecord)

section Fields

variable (state : Option String) (exitCode : Option Int) (verdict status : String) (lease : Lease)

@[simp] theorem identity_resolved : (run.resolved state exitCode verdict).identity = run.identity := rfl
@[simp] theorem verdict_resolved : (run.resolved state exitCode verdict).verdict = some verdict := rfl
@[simp] theorem reported_resolved : (run.resolved state exitCode verdict).reported = run.reported := rfl
@[simp] theorem evidence_resolved : (run.resolved state exitCode verdict).evidence = run.evidence := rfl
@[simp] theorem identity_withReported : (run.withReported verdict).identity = run.identity := rfl
@[simp] theorem verdict_withReported : (run.withReported verdict).verdict = run.verdict := rfl
@[simp] theorem evidence_withReported : (run.withReported verdict).evidence = run.evidence := rfl
@[simp] theorem identity_withEvidence : (run.withEvidence status).identity = run.identity := rfl
@[simp] theorem verdict_withEvidence : (run.withEvidence status).verdict = run.verdict := rfl
@[simp] theorem reported_withEvidence : (run.withEvidence status).reported = run.reported := rfl
@[simp] theorem evidence_withEvidence : (run.withEvidence status).evidence = status := rfl
@[simp] theorem identity_withLease : (run.withLease lease).identity = run.identity := rfl
@[simp] theorem verdict_withLease : (run.withLease lease).verdict = run.verdict := rfl

end Fields

@[simp] theorem identity_movedOn (verdict : String) (lease : Option Lease) :
    (run.movedOn verdict lease).identity = run.identity := rfl
@[simp] theorem verdict_movedOn (verdict : String) (lease : Option Lease) :
    (run.movedOn verdict lease).verdict = some verdict := rfl
@[simp] theorem identity_reopened : run.reopened.identity = run.identity := rfl
@[simp] theorem verdict_reopened : run.reopened.verdict = some Word.prepared.value := rfl
@[simp] theorem identity_bound (handle : String) :
    (run.bound handle).identity = ⟨run.target, handle, run.submittedAt⟩ := rfl
@[simp] theorem verdict_bound (handle : String) : (run.bound handle).verdict = some Word.queued.value := rfl

end RunRecord

/-- Whether a run recorded at `current` may be recorded at `verdict`; a text that is no word moves
only to itself. -/
def reaches (lifecycle : Lifecycle) (current : Option String) (verdict : String) : Bool :=
  match current with
  | none => true
  | some text => verdict = text ||
      match Word.ofValue text, Word.ofValue verdict with
      | some word, some next => lifecycle.allowed word next
      | _, _ => false

theorem reaches_of_transition {word next : Word} (lifecycle : Lifecycle) (h : Word.Transition word next) :
    reaches lifecycle (some word.value) next.value = true := by
  simp only [reaches, Word.ofValue_value, (lifecycle.allowed_iff word next).mpr h, Bool.or_true]

/-- A settled verdict reaches nothing but itself. -/
theorem eq_of_reaches_of_terminal {lifecycle : Lifecycle} {current : Option String} {word : Word}
    (hterminal : terminal current = true) (h : reaches lifecycle current word.value = true) :
    current = some word.value := by
  obtain ⟨settled, hsettled, rfl⟩ := terminal_iff.mp hterminal
  simp only [reaches, Word.ofValue_value, Bool.or_eq_true, decide_eq_true_eq] at h
  rcases h with heq | hallowed
  · rw [heq]
  · exact absurd ((lifecycle.allowed_iff settled word).mp hallowed) (Word.not_transition_of_settled hsettled)

namespace Registry

variable (log : Registry) (lifecycle : Lifecycle)

/-- What an operation wrote and answered, or what it raised. -/
abbrev Outcome := Except Refusal (Registry × RunRecord)

/-- The log an operation leaves: raising leaves it alone. -/
def after : Outcome → Registry
  | .ok (written, _) => written
  | .error _ => log

/-- Update one registered identity and answer its complete current record. `refuses` is the check of
a verdict among the fields; a refused change answers the record as it stands. -/
def change (run : RunRecord) (refuses : RunRecord → Bool) (update : RunRecord → RunRecord) : Outcome :=
  match log.at? run.identity with
  | none => .error (.unregistered run.handle run.target)
  | some current =>
      if refuses current then .ok (log, current)
      else .ok (log.put (update current), update current)

def resolve (run : RunRecord) (state : Option String) (exitCode : Option Int) (verdict : String) :
    Outcome :=
  log.change run (fun current => !reaches lifecycle current.verdict verdict)
    (·.resolved state exitCode verdict)

def report (run : RunRecord) (verdict : String) : Outcome :=
  log.change run (fun _ => false) (·.withReported verdict)

def delivery (run : RunRecord) (status : String) : Outcome :=
  log.change run (fun _ => false) (·.withEvidence status)

def relet (run : RunRecord) (lease : Lease) : Outcome :=
  log.change run (fun _ => false) (·.withLease lease)

/-- Record a dispatched run, replacing whatever its identity recorded before. -/
def record (run : RunRecord) : Registry := log.put run

/-- Drop one run's record entirely. -/
def forget (run : RunRecord) : Registry := log.drop run

/-- Move a run on only while its current verdict is `expected`, raising `missing` else. -/
def transition (run : RunRecord) (expected : Word) (update : RunRecord → RunRecord)
    (missing : Refusal) : Outcome :=
  match log.at? run.identity with
  | none => .error missing
  | some current =>
      if current.verdict = some expected.value then .ok (log.put (update current), update current)
      else .error missing

/-- Claim preparation once, so cancellation and creation cannot both win. -/
def prepared (run : RunRecord) (verdict : String) (lease : Option Lease) : Outcome :=
  if reaches lifecycle (some Word.prepared.value) verdict
  then log.transition run .prepared (·.movedOn verdict lease) (.notPrepared run.creation)
  else .error (.invalidPrepared verdict)

/-- Return a submitting creation to prepared, once the provider has declined it. -/
def reopen (run : RunRecord) : Outcome :=
  log.transition run .submitting (·.reopened) (.notSubmitting run.creation)

/-- Replace the intent identity in one commit, preserving its provenance and time. -/
def bind (run : RunRecord) (handle : String) : Outcome :=
  match log.at? run.identity with
  | none => .error (.noSubmittingCreation run.creation run.target)
  | some current =>
      if current.verdict = some Word.submitting.value
      then .ok ((log.drop current).put (current.bound handle), current.bound handle)
      else .error (.noSubmittingCreation run.creation run.target)

/-- Another creation of the same script and tree waits on the target, prepared or submitting. -/
def duplicated (run : RunRecord) : Bool :=
  (log.on run.target).any fun other =>
    (other.verdict = some Word.prepared.value ∨ other.verdict = some Word.submitting.value) ∧
      other.script = run.script ∧ other.digest = run.digest

/-- Reserve a creation once; unresolved identical requests cannot allocate twice. -/
def reserve (run : RunRecord) : Outcome :=
  if log.duplicated run then .error (.unresolvedCreation run.label run.target)
  else .ok (log.put run, run)

/-- Read the same request before or after its provider handle replaced the intent. -/
def named (label target : String) : Except Refusal RunRecord :=
  match (log.on target).find? fun run => run.creation = label with
  | some run => .ok run
  | none => .error (.noCreation label target)

variable {log lifecycle}

/-- A change raises on an identity that is not registered, and else answers the row as it stands or as it
wrote it. -/
theorem change_cases (log : Registry) (run : RunRecord) (refuses : RunRecord → Bool)
    (update : RunRecord → RunRecord) :
    (∃ refusal, log.change run refuses update = .error refusal) ∨
      ∃ current, log.at? run.identity = some current ∧
        log.change run refuses update =
          if refuses current then .ok (log, current) else .ok (log.put (update current), update current) := by
  cases hcurrent : log.at? run.identity with
  | none => exact .inl ⟨_, by simp only [change, hcurrent]; rfl⟩
  | some current => exact .inr ⟨current, rfl, by simp only [change, hcurrent]⟩

theorem delivery_ok {run row : RunRecord} {status : String} {written : Registry}
    (h : log.delivery run status = .ok (written, row)) :
    ∃ current, log.at? run.identity = some current ∧ row = current.withEvidence status ∧
      written = log.put row := by
  rcases change_cases log run (fun _ => false) (·.withEvidence status) with
    ⟨refusal, herror⟩ | ⟨current, hcurrent, hok⟩
  · cases herror.symm.trans h
  · cases hok.symm.trans h
    exact ⟨current, hcurrent, rfl, rfl⟩

theorem report_ok {run row : RunRecord} {verdict : String} {written : Registry}
    (h : log.report run verdict = .ok (written, row)) :
    ∃ current, log.at? run.identity = some current ∧ row = current.withReported verdict ∧
      written = log.put row := by
  rcases change_cases log run (fun _ => false) (·.withReported verdict) with
    ⟨refusal, herror⟩ | ⟨current, hcurrent, hok⟩
  · cases herror.symm.trans h
  · cases hok.symm.trans h
    exact ⟨current, hcurrent, rfl, rfl⟩

theorem resolve_ok {run row : RunRecord} {state : Option String} {exitCode : Option Int} {verdict : String}
    {written : Registry} (h : log.resolve lifecycle run state exitCode verdict = .ok (written, row)) :
    ∃ current, log.at? run.identity = some current ∧
      (reaches lifecycle current.verdict verdict = false ∧ row = current ∧ written = log ∨
        reaches lifecycle current.verdict verdict = true ∧ row = current.resolved state exitCode verdict ∧
          written = log.put row) := by
  rcases change_cases log run (fun current => !reaches lifecycle current.verdict verdict)
    (·.resolved state exitCode verdict) with ⟨refusal, herror⟩ | ⟨current, hcurrent, hok⟩
  · cases herror.symm.trans h
  · refine ⟨current, hcurrent, ?_⟩
    cases hreaches : reaches lifecycle current.verdict verdict with
    | false =>
        simp only [hreaches, Bool.not_false, if_true] at hok
        cases hok.symm.trans h
        exact .inl ⟨rfl, rfl, rfl⟩
    | true =>
        simp only [hreaches, Bool.not_true, Bool.false_eq_true, if_false] at hok
        cases hok.symm.trans h
        exact .inr ⟨rfl, rfl, rfl⟩

/-- What a change leaves of every identity. -/
theorem at?_change {run : RunRecord} {refuses : RunRecord → Bool} {update : RunRecord → RunRecord}
    (hkeeps : ∀ current, (update current).identity = current.identity) (identity : Identity) :
    (log.after (log.change run refuses update)).at? identity =
      if run.identity = identity
      then (log.at? identity).map fun current => if refuses current then current else update current
      else log.at? identity := by
  cases hcurrent : log.at? run.identity with
  | none =>
      simp only [change, hcurrent]
      split_ifs with hidentity
      · rw [← hidentity, hcurrent]
        simp [after, hcurrent]
      · simp [after]
  | some current =>
      have hsame := identity_of_at? hcurrent
      simp only [change, hcurrent]
      by_cases hrefused : refuses current = true
      · rw [if_pos hrefused]
        split_ifs with hidentity
        · rw [← hidentity, hcurrent]
          simp [after, hcurrent, hrefused]
        · simp [after]
      · rw [if_neg hrefused]
        simp only [after, at?_put, hkeeps, hsame]
        split_ifs with hidentity
        · rw [← hidentity, hcurrent]
          simp [hrefused]
        · rfl

/-- Where an operation rewrites one row in place, a row found after it is the one before, or its rewrite. -/
theorem row_of_map {log' : Registry} {run before after : RunRecord} {update : RunRecord → RunRecord}
    {identity : Identity}
    (h : log'.at? identity = if run.identity = identity then (log.at? identity).map update else log.at? identity)
    (hbefore : log.at? identity = some before) (hafter : log'.at? identity = some after) :
    after = update before ∨ after = before := by
  rw [h, hbefore] at hafter
  split_ifs at hafter
  · exact .inl (Option.some.inj hafter).symm
  · exact .inr (Option.some.inj hafter).symm

theorem at?_resolve (log : Registry) (lifecycle : Lifecycle) (run : RunRecord) (state : Option String)
    (exitCode : Option Int) (verdict : String) (identity : Identity) :
    (log.after (log.resolve lifecycle run state exitCode verdict)).at? identity =
      if run.identity = identity
      then (log.at? identity).map fun current =>
        if reaches lifecycle current.verdict verdict then current.resolved state exitCode verdict
        else current
      else log.at? identity := by
  rw [resolve, at?_change fun current => current.identity_resolved ..]
  simp only [Bool.not_eq_true', Bool.eq_false_iff, ne_eq, ite_not]

@[simp] theorem at?_report (run : RunRecord) (verdict : String) (identity : Identity) :
    (log.after (log.report run verdict)).at? identity =
      if run.identity = identity then (log.at? identity).map (·.withReported verdict)
      else log.at? identity := by
  rw [report, at?_change fun current => current.identity_withReported _]
  simp

@[simp] theorem at?_delivery (run : RunRecord) (status : String) (identity : Identity) :
    (log.after (log.delivery run status)).at? identity =
      if run.identity = identity then (log.at? identity).map (·.withEvidence status)
      else log.at? identity := by
  rw [delivery, at?_change fun current => current.identity_withEvidence _]
  simp

@[simp] theorem at?_relet (run : RunRecord) (lease : Lease) (identity : Identity) :
    (log.after (log.relet run lease)).at? identity =
      if run.identity = identity then (log.at? identity).map (·.withLease lease)
      else log.at? identity := by
  rw [relet, at?_change fun current => current.identity_withLease _]
  simp

/-- What a compare-and-set leaves of every identity. -/
theorem at?_transition {run : RunRecord} {expected : Word} {update : RunRecord → RunRecord}
    {missing : Refusal} (hkeeps : ∀ current, (update current).identity = current.identity)
    (identity : Identity) :
    (log.after (log.transition run expected update missing)).at? identity =
      if run.identity = identity
      then (log.at? identity).map fun current =>
        if current.verdict = some expected.value then update current else current
      else log.at? identity := by
  cases hcurrent : log.at? run.identity with
  | none =>
      simp only [transition, hcurrent]
      split_ifs with hidentity
      · rw [← hidentity, hcurrent]
        simp [after, hcurrent]
      · simp [after]
  | some current =>
      have hsame := identity_of_at? hcurrent
      simp only [transition, hcurrent]
      by_cases hexpected : current.verdict = some expected.value
      · rw [if_pos hexpected]
        simp only [after, at?_put, hkeeps, hsame]
        split_ifs with hidentity
        · rw [← hidentity, hcurrent]
          simp [hexpected]
        · rfl
      · rw [if_neg hexpected]
        split_ifs with hidentity
        · rw [← hidentity, hcurrent]
          simp [after, hcurrent, hexpected]
        · simp [after]

theorem at?_prepared (run : RunRecord) (verdict : String) (lease : Option Lease) (identity : Identity) :
    (log.after (log.prepared lifecycle run verdict lease)).at? identity =
      if run.identity = identity
      then (log.at? identity).map fun current =>
        if reaches lifecycle (some Word.prepared.value) verdict = true ∧
            current.verdict = some Word.prepared.value
        then current.movedOn verdict lease else current
      else log.at? identity := by
  rw [prepared]
  by_cases hreaches : reaches lifecycle (some Word.prepared.value) verdict = true
  · rw [if_pos hreaches, at?_transition fun current => current.identity_movedOn _ _]
    simp [hreaches]
  · rw [if_neg hreaches]
    simp [after, hreaches]

theorem at?_reopen (run : RunRecord) (identity : Identity) :
    (log.after (log.reopen run)).at? identity =
      if run.identity = identity
      then (log.at? identity).map fun current =>
        if current.verdict = some Word.submitting.value then current.reopened else current
      else log.at? identity :=
  at?_transition (fun current => current.identity_reopened) identity

/-- A compare-and-set raises, or rewrites the row that stood at the expected verdict. -/
theorem transition_cases (log : Registry) (run : RunRecord) (expected : Word)
    (update : RunRecord → RunRecord) (missing : Refusal) :
    (∃ refusal, log.transition run expected update missing = .error refusal) ∨
      ∃ current, log.at? run.identity = some current ∧ current.verdict = some expected.value ∧
        log.transition run expected update missing = .ok (log.put (update current), update current) := by
  cases hcurrent : log.at? run.identity with
  | none => exact .inl ⟨_, by simp only [transition, hcurrent]; rfl⟩
  | some current =>
      simp only [transition, hcurrent]
      by_cases hverdict : current.verdict = some expected.value
      · exact .inr ⟨current, rfl, hverdict, if_pos hverdict⟩
      · exact .inl ⟨_, if_neg hverdict⟩

theorem prepared_cases (log : Registry) (lifecycle : Lifecycle) (run : RunRecord) (verdict : String)
    (lease : Option Lease) :
    (∃ refusal, log.prepared lifecycle run verdict lease = .error refusal) ∨
      ∃ current, log.at? run.identity = some current ∧
        current.verdict = some Word.prepared.value ∧
          log.prepared lifecycle run verdict lease =
            .ok (log.put (current.movedOn verdict lease), current.movedOn verdict lease) := by
  rw [prepared]
  split_ifs
  · exact transition_cases log run .prepared _ _
  · exact .inl ⟨_, rfl⟩

/-- Binding raises, or moves the submitting intent to the identity of its new handle. -/
theorem bind_cases (log : Registry) (run : RunRecord) (handle : String) :
    (∃ refusal, log.bind run handle = .error refusal) ∨
      ∃ current, log.at? run.identity = some current ∧ current.verdict = some Word.submitting.value ∧
        log.bind run handle = .ok ((log.drop current).put (current.bound handle), current.bound handle) := by
  cases hcurrent : log.at? run.identity with
  | none => exact .inl ⟨_, by simp only [bind, hcurrent]; rfl⟩
  | some current =>
      simp only [bind, hcurrent]
      by_cases hverdict : current.verdict = some Word.submitting.value
      · exact .inr ⟨current, rfl, hverdict, if_pos hverdict⟩
      · exact .inl ⟨_, if_neg hverdict⟩

theorem at?_bound (log : Registry) (current : RunRecord) (handle : String) (identity : Identity) :
    ((log.drop current).put (current.bound handle)).at? identity =
      if (current.bound handle).identity = identity then some (current.bound handle)
      else if current.identity = identity then none
      else log.at? identity := by
  rw [at?_put, at?_drop]

/-- Reserving raises, or appends a request no pending row of the target duplicates. -/
theorem reserve_cases (log : Registry) (run : RunRecord) :
    (log.duplicated run = true ∧ ∃ refusal, log.reserve run = .error refusal) ∨
      log.duplicated run = false ∧ log.reserve run = .ok (log.put run, run) := by
  rw [reserve]
  cases hduplicated : log.duplicated run with
  | true => exact .inl ⟨rfl, _, if_pos rfl⟩
  | false => exact .inr ⟨rfl, if_neg Bool.false_ne_true⟩

end Registry

end Mainboard
