import Mainboard.SettlementIdentity

/-! What a submission's verdict, evidence status and report say together while settlement passes and
deadline passes write them. A status is written unconditionally, so the three agree as long as a pass
writes over the row it last saw and takes up no run whose evidence is verified already. -/

namespace Mainboard

/-- What one row's verdict, evidence status and report say together. -/
structure RunRecord.Agrees (row : RunRecord) : Prop where
  stands : row.verdict = none ∨ row.verdict = some Word.queued.value ∨
    row.verdict = some Word.running.value ∨ terminal row.verdict = true
  reported : row.reported ≠ none →
    row.reported = row.verdict ∧ terminal row.verdict = true ∧ row.evidence ∈ finalStatuses
  verified : row.evidence = "verified" → terminal row.verdict = true

/-- The row of a settled run as a settlement pass took it up: unreported, at the probed word. -/
structure Probe.Took (probe : Probe) (seen : RunRecord) : Prop where
  identity : seen.identity = probe.record.identity
  verdict : seen.verdict = some probe.verdict.1.value
  settled : probe.verdict.1.settled = true
  reported : seen.reported = none

/-- What a settlement pass knows of the row in its hand. -/
def SettleStage.Sees : SettleStage → Prop
  | .ready => True
  | .unlaunched probe _ seen | .unlaunchedReleased probe seen | .recorded probe seen =>
      probe.Took seen ∧ (seen.evidence = "not_started" ∨ seen.evidence = "unverified")
  | .harvesting probe seen => probe.Took seen ∧ seen.evidence ≠ "verified"
  | .copied probe _ seen | .released probe _ seen => probe.Took seen ∧ seen.evidence = "copied"
  | .delivered probe seen => probe.Took seen ∧ seen.evidence ∈ finalStatuses

/-- What a deadline pass knows of the row in its hand. -/
def DeadlineStage.Sees : DeadlineStage → Prop
  | .ready => True
  | .taken current copied =>
      current.Agrees ∧ current.evidence ≠ "verified" ∧ copied = copiedStatus current.evidence
  | .written current _ seen | .cancelled current _ seen =>
      seen.identity = current.identity ∧ seen.Agrees ∧ seen.evidence ≠ "verified"
  | .resolved current _ => current.Agrees ∧ current.evidence ≠ "verified" ∧ terminal current.verdict = true
  | .closed current seen =>
      seen.identity = current.identity ∧ seen.Agrees ∧ seen.verdict = current.verdict ∧
        terminal current.verdict = true ∧ seen.evidence ∈ finalStatuses

namespace Settling

/-- The row a step writes over, as its pass last read or wrote it. -/
def overwriting (s : Settling) : SettlingStep → Option RunRecord
  | .settle move =>
      match move, s.pass with
      | .advance, some ⟨_, .unlaunchedReleased _ seen⟩ => some seen
      | .advance, some ⟨_, .recorded _ seen⟩ => some seen
      | .harvest _, some ⟨_, .harvesting _ seen⟩ => some seen
      | .release false, some ⟨_, .copied _ _ seen⟩ => some seen
      | .advance, some ⟨_, .released _ _ seen⟩ => some seen
      | .advance, some ⟨_, .delivered _ seen⟩ => some seen
      | _, _ => none
  | .deadline index move =>
      match move, s.deadlines[index]? with
      | .write true, some ⟨_, .taken current _⟩ => some current
      | .advance, some ⟨_, .cancelled _ _ seen⟩ => some seen
      | .advance, some ⟨_, .resolved current _⟩ => some current
      | .advance, some ⟨_, .closed _ seen⟩ => some seen
      | _, _ => none
  | _ => none

/-- The row of a run a settlement pass takes up as settled, and the word its target answered. -/
def settling (s : Settling) : SettlingStep → Option (RunRecord × Word)
  | .settle .take =>
      match s.pass with
      | some ⟨probe :: _, .ready⟩ =>
          if probe.verdict.1.settled
          then (s.log.at? probe.record.identity).map fun row => (row, probe.verdict.1)
          else none
      | _ => none
  | _ => none

/-- The row of a rental a deadline pass takes up as expired. -/
def expiring (s : Settling) : SettlingStep → Option RunRecord
  | .deadline index (.take now) =>
      match s.deadlines[index]? with
      | some ⟨record :: _, .ready⟩ =>
          match s.log.run record.handle record.target with
          | .ok current =>
              if current.submittedAt = record.submittedAt ∧ leaseExpired current now then some current else none
          | .error _ => none
      | _ => none
  | _ => none

/-- A step that writes finds the row as its pass last saw it; a pass takes up no run whose evidence is
verified already, and a settlement pass none that is reported or recorded at another settled verdict;
and a run is concluded while no later submission stands under its handle. -/
def Undisturbed (lifecycle : Lifecycle) (s : Settling) (label : SettlingStep) : Prop :=
  (∀ seen ∈ s.overwriting label, s.log.at? seen.identity = some seen) ∧
    (∀ taken ∈ s.settling label, taken.1.reported = none ∧ taken.1.evidence ≠ "verified" ∧
      reaches lifecycle taken.1.verdict taken.2.value = true) ∧
    (∀ current ∈ s.expiring label, current.evidence ≠ "verified") ∧ s.Newest label

instance (lifecycle : Lifecycle) (s : Settling) (label : SettlingStep) :
    Decidable (s.Undisturbed lifecycle label) :=
  inferInstanceAs (Decidable (_ ∧ _))

/-- What every registered row says, and what the passes know of the rows in their hands. -/
structure Upheld (s : Settling) : Prop where
  rows : ∀ identity row, s.log.at? identity = some row → row.Agrees
  verified : ∀ identity, .recorded identity "verified" ∈ s.deeds →
    ∃ row, s.log.at? identity = some row ∧ row.evidence = "verified"
  pass : ∀ pass, s.pass = some pass → pass.stage.Sees
  deadlines : ∀ pass ∈ s.deadlines, pass.stage.Sees

end Settling

namespace RunRecord.Agrees

variable {row : RunRecord} {lifecycle : Lifecycle}

/-- A resolved outcome leaves what a settled row says alone. -/
theorem resolved (h : row.Agrees) {word : Word}
    (hword : word = .queued ∨ word = .running ∨ word.settled = true)
    (hreaches : reaches lifecycle row.verdict word.value = true) (state : Option String)
    (exitCode : Option Int) : (row.resolved state exitCode word.value).Agrees where
  stands := by
    rcases hword with rfl | rfl | hsettled
    · exact .inr (.inl rfl)
    · exact .inr (.inr (.inl rfl))
    · rw [verdict_resolved, terminal_value]
      exact .inr (.inr (.inr hsettled))
  reported hreported := by
    obtain ⟨hsame, hterminal, hfinal⟩ := h.reported hreported
    have hverdict := eq_of_reaches_of_terminal hterminal hreaches
    rw [reported_resolved, verdict_resolved, ← hverdict]
    exact ⟨hsame, hterminal, hfinal⟩
  verified hverified := by
    have hterminal := h.verified hverified
    rw [verdict_resolved, ← eq_of_reaches_of_terminal hterminal hreaches]
    exact hterminal

end RunRecord.Agrees

namespace Settling

variable {lifecycle : Lifecycle} {s : Settling}

/-- A written row upholds the invariant when it agrees and takes no verified evidence back. -/
theorem Upheld.put (h : Upheld s) {row : RunRecord} {more : List Deed} (hrow : row.Agrees)
    (hkept : ∀ current, s.log.at? row.identity = some current → current.evidence = "verified" →
      row.evidence = "verified")
    (hmore : ∀ identity, .recorded identity "verified" ∈ more →
      row.identity = identity ∧ row.evidence = "verified") :
    Upheld { s with log := s.log.put row, deeds := s.deeds ++ more } where
  rows identity other hother := by
    rw [Registry.at?_put] at hother
    split_ifs at hother
    · cases hother
      exact hrow
    · exact h.rows identity other hother
  verified identity hdeed := by
    rw [Registry.at?_put]
    rcases List.mem_append.mp hdeed with hold | hnew
    · obtain ⟨current, hcurrent, hverified⟩ := h.verified identity hold
      split_ifs with hidentity
      · exact ⟨row, rfl, hkept current (hidentity ▸ hcurrent) hverified⟩
      · exact ⟨current, hcurrent, hverified⟩
    · obtain ⟨hidentity, hverified⟩ := hmore identity hnew
      exact ⟨row, if_pos hidentity, hverified⟩
  pass := h.pass
  deadlines := h.deadlines

/-- A status written over the row last seen. -/
theorem Upheld.evidence (h : Upheld s) {run seen row : RunRecord} {status : String} {next : Settling}
    (hfresh : s.log.at? run.identity = some seen) (hrow : (seen.withEvidence status).Agrees)
    (hkept : seen.evidence = "verified" → status = "verified")
    (hevidence : s.evidence run status = some (next, row)) :
    Upheld next ∧ row = seen.withEvidence status := by
  obtain ⟨current, hcurrent, rfl, rfl⟩ := evidence_some hevidence
  obtain rfl : seen = current := Option.some.inj (hfresh.symm.trans hcurrent)
  have hidentity := Registry.identity_of_at? hfresh
  refine ⟨h.put hrow ?_ ?_, rfl⟩
  · intro current hcurrent' hverified
    rw [RunRecord.identity_withEvidence, hidentity, hfresh] at hcurrent'
    cases hcurrent'
    exact hkept hverified
  · intro identity hdeed
    rw [List.mem_singleton] at hdeed
    cases hdeed
    exact ⟨hidentity, rfl⟩

/-- A report written over the row last seen. -/
theorem Upheld.report (h : Upheld s) {run seen : RunRecord} {verdict : String} {next : Settling}
    (hfresh : s.log.at? run.identity = some seen) (hrow : (seen.withReported verdict).Agrees)
    (hreport : s.report run verdict = some next) : Upheld next := by
  obtain ⟨current, hcurrent, rfl⟩ := report_some hreport
  obtain rfl : seen = current := Option.some.inj (hfresh.symm.trans hcurrent)
  rw [← List.append_nil s.deeds]
  refine h.put hrow ?_ fun _ hdeed => absurd hdeed List.not_mem_nil
  intro current hcurrent' hverified
  rw [RunRecord.identity_withReported, Registry.identity_of_at? hfresh, hfresh] at hcurrent'
  cases hcurrent'
  exact hverified

/-- A resolved outcome, of whatever row the run stands at. -/
theorem Upheld.resolve (h : Upheld s) {run row : RunRecord} {state : Option String} {exitCode : Option Int}
    {word : Word} {next : Settling} (hword : word = .queued ∨ word = .running ∨ word.settled = true)
    (hresolve : s.resolve lifecycle run state exitCode word.value = some (next, row)) : Upheld next := by
  obtain ⟨current, hcurrent, ⟨-, rfl, rfl⟩ | ⟨hreaches, rfl, rfl⟩⟩ := resolve_some hresolve
  · exact h
  · have hidentity := Registry.identity_of_at? hcurrent
    rw [← List.append_nil s.deeds]
    refine h.put ((h.rows _ _ hcurrent).resolved hword hreaches state exitCode) ?_
      fun _ hdeed => absurd hdeed List.not_mem_nil
    intro other hother hverified
    rw [RunRecord.identity_resolved, hidentity, hcurrent] at hother
    cases hother
    exact hverified

theorem Upheld.release (h : Upheld s) (run : RunRecord) : Upheld (s.release run) where
  rows := h.rows
  verified identity hdeed := by
    refine h.verified identity ?_
    rcases List.mem_append.mp hdeed with hold | hnew
    · exact hold
    · cases List.mem_singleton.mp hnew
  pass := h.pass
  deadlines := h.deadlines

theorem Upheld.stand (h : Upheld s) {todo : List Probe} {stage : SettleStage} (hstage : stage.Sees) :
    Upheld (s.stand todo stage) where
  rows := h.rows
  verified := h.verified
  pass pass hpass := by
    cases hpass
    exact hstage
  deadlines := h.deadlines

theorem Upheld.closed (h : Upheld s) : Upheld s.closed where
  rows := h.rows
  verified := h.verified
  pass _ hpass := absurd hpass nofun
  deadlines := h.deadlines

theorem Upheld.expireTo (h : Upheld s) (index : Nat) {todo : List RunRecord} {stage : DeadlineStage}
    (hstage : stage.Sees) : Upheld (s.expireTo index todo stage) where
  rows := h.rows
  verified := h.verified
  pass := h.pass
  deadlines pass hpass := by
    rcases List.mem_or_eq_of_mem_set hpass with hold | rfl
    · exact h.deadlines pass hold
    · exact hstage

end Settling

namespace Probe.Took

variable {probe : Probe} {seen : RunRecord}

theorem withEvidence (h : probe.Took seen) (status : String) : probe.Took (seen.withEvidence status) :=
  ⟨h.identity, h.verdict, h.settled, h.reported⟩

theorem terminal (h : probe.Took seen) : Mainboard.terminal seen.verdict = true := by
  rw [h.verdict, terminal_value, h.settled]

/-- A taken row agrees, whatever its evidence: it is settled and not reported. -/
theorem agrees (h : probe.Took seen) : seen.Agrees where
  stands := .inr (.inr (.inr h.terminal))
  reported hreported := absurd h.reported hreported
  verified _ := h.terminal

end Probe.Took

namespace Settling

variable {lifecycle : Lifecycle} {s : Settling}

/-- Where a pass takes a settled run it sees an unreported row without verified evidence. -/
theorem taken_sees {probe : Probe} {row : RunRecord}
    (htook : probe.verdict.1.settled = true → probe.Took row ∧ row.evidence ≠ "verified") :
    (probe.taken row).Sees := by
  unfold Probe.taken
  dsimp only
  split_ifs with hsettled hunlaunched
  · refine ⟨(htook hsettled).1, ?_⟩
    rcases hunlaunched with hstatus | hdiscarded
    · exact .inl hstatus
    · exact .inr (of_decide_eq_true hdiscarded).2
  · exact htook hsettled
  · trivial

/-- What taking up a probed run comes to. -/
theorem Upheld.take (h : Upheld s) {probe : Probe} {todo : List Probe} {next : Settling} {row : RunRecord}
    (hpass : s.pass = some ⟨probe :: todo, .ready⟩) (hcond : s.Undisturbed lifecycle (.settle .take))
    (hresolve : s.resolve lifecycle probe.record probe.state probe.exitCode probe.verdict.1.value =
      some (next, row)) : Upheld (next.stand todo (probe.taken row)) := by
  refine (h.resolve probe.verdict.2 hresolve).stand (taken_sees fun hsettled => ?_)
  obtain ⟨current, hcurrent, hwritten⟩ := resolve_some hresolve
  have htaken : (current, probe.verdict.1) ∈ s.settling (.settle .take) := by
    simp [settling, hpass, hsettled, hcurrent]
  obtain ⟨hreported, hevidence, hreaches⟩ := hcond.2.1 _ htaken
  rcases hwritten with ⟨hstays, -, -⟩ | ⟨-, rfl, -⟩
  · rw [hreaches] at hstays
    cases hstays
  · refine ⟨⟨?_, rfl, hsettled, hreported⟩, hevidence⟩
    rw [RunRecord.identity_resolved, Registry.identity_of_at? hcurrent]

section Overlapping

private def rented : RunRecord where
  handle := "pod"
  target := "cloud"
  submittedAt := 1
  verdict := some "running"
  lease := some ⟨5⟩

/-- One settlement pass, up to the rental's evidence recorded as verified. -/
private def harvested : List SettlingStep :=
  [.begin [.completed rented], .settle .take, .settle (.harvest .verified), .settle (.release true),
    .settle .advance]

end Overlapping

end Settling

end Mainboard
