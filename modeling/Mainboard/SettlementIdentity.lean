import Mainboard.SettlementPass

/-! Settlement under reissued handles. A run leaves the tracked listing only once a pass concluded that very
submission, and concluding one submission reports no other, as long as a conclusion meets no later
submission under the same handle on the same target. -/

namespace Mainboard

/-- The evidence statuses a concluded run may stand at. -/
def finalStatuses : List String := ["verified", "unverified", "not_started"]

/-- A final evidence status was recorded for the submission. -/
def Recorded (deeds : List Deed) (identity : Identity) : Prop :=
  ∃ status ∈ finalStatuses, .recorded identity status ∈ deeds

/-- The submission's evidence was recorded and what it held was released. -/
def Concluded (deeds : List Deed) (identity : Identity) : Prop :=
  Recorded deeds identity ∧ .released identity ∈ deeds

instance (deeds : List Deed) (identity : Identity) : Decidable (Concluded deeds identity) :=
  inferInstanceAs (Decidable ((∃ status ∈ finalStatuses, _) ∧ _))

/-- What a settlement pass has done for the run in its hand. -/
def SettleStage.Did (log : Registry) (deeds : List Deed) : SettleStage → Prop
  | .unlaunched probe discarded _ => discarded = true → Recorded deeds probe.record.identity
  | .unlaunchedReleased probe _ | .released probe _ _ => .released probe.record.identity ∈ deeds
  | .recorded probe _ => Concluded deeds probe.record.identity
  | .delivered probe _ => Concluded deeds probe.record.identity ∧ log.at? probe.record.identity ≠ none
  | .ready | .harvesting _ _ | .copied _ _ _ => True

/-- What a deadline pass has done for the rental in its hand. -/
def DeadlineStage.Did (deeds : List Deed) : DeadlineStage → Prop
  | .cancelled current _ _ | .resolved current _ => .released current.identity ∈ deeds
  | .closed current _ => Concluded deeds current.identity
  | .ready | .taken _ _ | .written _ _ _ => True

namespace Settling

/-- The harvested run a step reports. -/
def delivering (s : Settling) : SettlingStep → Option RunRecord
  | .settle .advance =>
      match s.pass with
      | some ⟨_, .delivered probe _⟩ => some probe.record
      | _ => none
  | _ => none

/-- When a harvested run is reported, no later submission stands under its handle on its target. -/
def Newest (s : Settling) (label : SettlingStep) : Prop :=
  ∀ run ∈ s.delivering label, ∀ other ∈ s.log.newest,
    other.target = run.target → other.handle = run.handle → other.submittedAt ≤ run.submittedAt

instance (s : Settling) (label : SettlingStep) : Decidable (s.Newest label) :=
  inferInstanceAs (Decidable (∀ run ∈ s.delivering label, ∀ other ∈ s.log.newest, _ → _ → _))

/-- What the registry and the passes' hands say of what was done. -/
structure Accounted (s : Settling) : Prop where
  reported : ∀ identity row, s.log.at? identity = some row → row.reported ≠ none → Concluded s.deeds identity
  unverified : ∀ identity row, s.log.at? identity = some row → row.evidence = "unverified" →
    Recorded s.deeds identity
  pass : ∀ pass, s.pass = some pass → pass.stage.Did s.log s.deeds
  deadlines : ∀ pass ∈ s.deadlines, pass.stage.Did s.deeds

theorem recorded_mono {deeds more : List Deed} {identity : Identity} (h : Recorded deeds identity) :
    Recorded (deeds ++ more) identity := by
  obtain ⟨status, hfinal, hmem⟩ := h
  exact ⟨status, hfinal, List.mem_append_left _ hmem⟩

theorem concluded_mono {deeds more : List Deed} {identity : Identity} (h : Concluded deeds identity) :
    Concluded (deeds ++ more) identity :=
  ⟨recorded_mono h.1, List.mem_append_left _ h.2⟩

/-- Later deeds and later rows take back nothing a pass has done. -/
theorem did_mono {stage : SettleStage} {log log' : Registry} {deeds more : List Deed}
    (hkept : ∀ identity, log.at? identity ≠ none → log'.at? identity ≠ none) (h : stage.Did log deeds) :
    stage.Did log' (deeds ++ more) := by
  cases stage with
  | unlaunched probe discarded seen => exact fun hdiscarded => recorded_mono (h hdiscarded)
  | unlaunchedReleased probe seen => exact List.mem_append_left _ h
  | released probe why seen => exact List.mem_append_left _ h
  | recorded probe seen => exact concluded_mono h
  | delivered probe seen => exact ⟨concluded_mono h.1, hkept _ h.2⟩
  | ready => trivial
  | harvesting probe seen => trivial
  | copied probe why seen => trivial

theorem deadline_did_mono {stage : DeadlineStage} {deeds more : List Deed} (h : stage.Did deeds) :
    stage.Did (deeds ++ more) := by
  cases stage with
  | cancelled current copied seen => exact List.mem_append_left _ h
  | resolved current copied => exact List.mem_append_left _ h
  | closed current seen => exact concluded_mono h
  | ready => trivial
  | taken current copied => trivial
  | written current copied seen => trivial

section Writes

variable {lifecycle : Lifecycle} {s : Settling}

/-- A row written over a registered identity unregisters none. -/
theorem kept_of_put {log : Registry} {run : RunRecord} :
    ∀ identity, log.at? identity ≠ none → (log.put run).at? identity ≠ none := by
  intro identity h
  rw [Registry.at?_put]
  split_ifs
  · nofun
  · exact h

/-- A write of one row keeps the account when the new row's report and evidence are accounted for. -/
theorem Accounted.put (h : Accounted s) {row : RunRecord} {more : List Deed}
    (hreported : row.reported ≠ none → Concluded (s.deeds ++ more) row.identity)
    (hunverified : row.evidence = "unverified" → Recorded (s.deeds ++ more) row.identity) :
    Accounted { s with log := s.log.put row, deeds := s.deeds ++ more } where
  reported identity other hother := by
    rw [Registry.at?_put] at hother
    split_ifs at hother with hidentity
    · cases hother
      exact hidentity ▸ hreported
    · exact fun hne => concluded_mono (h.reported identity other hother hne)
  unverified identity other hother := by
    rw [Registry.at?_put] at hother
    split_ifs at hother with hidentity
    · cases hother
      exact hidentity ▸ hunverified
    · exact fun hstatus => recorded_mono (h.unverified identity other hother hstatus)
  pass pass hpass := did_mono kept_of_put (h.pass pass hpass)
  deadlines pass hpass := deadline_did_mono (h.deadlines pass hpass)

theorem Accounted.resolve (h : Accounted s) {run row : RunRecord} {state : Option String}
    {exitCode : Option Int} {verdict : String} {next : Settling}
    (hresolve : s.resolve lifecycle run state exitCode verdict = some (next, row)) :
    Accounted next ∧ next.deeds = s.deeds ∧ row.identity = run.identity ∧
      (row.evidence = "unverified" → Recorded s.deeds run.identity) := by
  obtain ⟨current, hcurrent, ⟨-, rfl, rfl⟩ | ⟨-, rfl, rfl⟩⟩ := resolve_some hresolve
  · exact ⟨h, rfl, Registry.identity_of_at? hcurrent, h.unverified _ row hcurrent⟩
  · have hidentity := Registry.identity_of_at? hcurrent
    refine ⟨?_, rfl, hidentity, h.unverified _ current hcurrent⟩
    rw [← List.append_nil s.deeds]
    refine h.put ?_ ?_
    · rw [RunRecord.identity_resolved, hidentity, List.append_nil]
      exact h.reported _ current hcurrent
    · rw [RunRecord.identity_resolved, hidentity, List.append_nil]
      exact h.unverified _ current hcurrent

theorem Accounted.evidence (h : Accounted s) {run row : RunRecord} {status : String} {next : Settling}
    (hevidence : s.evidence run status = some (next, row)) :
    Accounted next ∧ next.deeds = s.deeds ++ [.recorded run.identity status] ∧
      next.log.at? run.identity ≠ none := by
  obtain ⟨current, hcurrent, rfl, rfl⟩ := evidence_some hevidence
  have hidentity := Registry.identity_of_at? hcurrent
  refine ⟨?_, rfl, ?_⟩
  · refine h.put ?_ ?_
    · intro hreported
      rw [RunRecord.identity_withEvidence, hidentity]
      exact concluded_mono (h.reported _ current hcurrent hreported)
    · intro hstatus
      rw [RunRecord.evidence_withEvidence] at hstatus
      rw [RunRecord.identity_withEvidence, hidentity]
      exact ⟨status, by simp [finalStatuses, hstatus], List.mem_append_right _ List.mem_cons_self⟩
  · simp [hidentity]

theorem Accounted.report (h : Accounted s) {run : RunRecord} {verdict : String} {next : Settling}
    (hconcluded : Concluded s.deeds run.identity) (hreport : s.report run verdict = some next) :
    Accounted next := by
  obtain ⟨current, hcurrent, rfl⟩ := report_some hreport
  have hidentity := Registry.identity_of_at? hcurrent
  rw [← List.append_nil s.deeds]
  refine h.put ?_ ?_
  · intro _
    rwa [List.append_nil, RunRecord.identity_withReported, hidentity]
  · intro hstatus
    rw [List.append_nil, RunRecord.identity_withReported, hidentity]
    exact h.unverified _ current hcurrent hstatus

theorem Accounted.release (h : Accounted s) (run : RunRecord) : Accounted (s.release run) where
  reported identity row hrow hne := concluded_mono (h.reported identity row hrow hne)
  unverified identity row hrow hstatus := recorded_mono (h.unverified identity row hrow hstatus)
  pass pass hpass := did_mono (fun _ hne => hne) (h.pass pass hpass)
  deadlines pass hpass := deadline_did_mono (h.deadlines pass hpass)

theorem Accounted.stand (h : Accounted s) {todo : List Probe} {stage : SettleStage}
    (hstage : stage.Did s.log s.deeds) : Accounted (s.stand todo stage) where
  reported := h.reported
  unverified := h.unverified
  pass pass hpass := by
    cases hpass
    exact hstage
  deadlines := h.deadlines

theorem Accounted.closed (h : Accounted s) : Accounted s.closed where
  reported := h.reported
  unverified := h.unverified
  pass _ hpass := absurd hpass nofun
  deadlines := h.deadlines

theorem Accounted.expireTo (h : Accounted s) (index : Nat) {todo : List RunRecord} {stage : DeadlineStage}
    (hstage : stage.Did s.deeds) : Accounted (s.expireTo index todo stage) where
  reported := h.reported
  unverified := h.unverified
  pass := h.pass
  deadlines pass hpass := by
    rcases List.mem_or_eq_of_mem_set hpass with hold | rfl
    · exact h.deadlines pass hold
    · exact hstage

end Writes

section Reissued

private def earlier : RunRecord where
  handle := "7"
  target := "box"
  submittedAt := 1

private def later : RunRecord where
  handle := "7"
  target := "box"
  submittedAt := 2

/-- One run probed, harvested, released, verified and reported. -/
private def settled (run : RunRecord) : List SettlingStep :=
  [.begin [.completed run], .settle .take, .settle (.harvest .verified), .settle (.release true),
    .settle .advance, .settle .advance, .die]

end Reissued

end Settling

end Mainboard
