import Mainboard.HeldRequests

/-! That no held request is lost or doubled. The invariant counts how often a target took each request that is
still held, and says what the sweep or the cancel at work relies on; each step keeps it, and what a step does to
a held request is read off it. -/

namespace Mainboard

/-- The request in a sweep's hand is still held, is none of those to come, and is recorded if it says so. -/
def ReleaseStage.Stands (log : Registry) (todo : List RunRecord) : ReleaseStage → Prop
  | .asking record _ submitted =>
      log.held? record.identity = true ∧ record.identity ∉ todo.map RunRecord.identity ∧
        ∀ run ∈ submitted, log.at? run.identity ≠ none
  | .ready | .refused _ => True

/-- What a sweep still has to ask for is held, each request once. -/
def Claimant.Stands (log : Registry) : Claimant → Prop
  | .sweep todo stage =>
      (∀ record ∈ todo, log.held? record.identity = true) ∧ (todo.map RunRecord.identity).Nodup ∧
        stage.Stands log todo
  | .cancel _ => True

/-- A held request was taken by its target only if the sweep has it in its hand, and then once. -/
def Counted (s : Releasing) : Prop :=
  ∀ identity, s.log.held? identity = true →
    s.accepted.count identity = if s.taking = some identity then 1 else 0

/-- The counts of the held requests, and what the holder of the claim relies on. -/
structure Releasing.Kept (s : Releasing) : Prop where
  counts : Counted s
  claim : ∀ claimant, s.claim = some claimant → claimant.Stands s.log

/-- What a claimant relies on survives a write that keeps the held requests held and every run registered. -/
theorem Claimant.Stands.mono {log log' : Registry} {claimant : Claimant} (h : claimant.Stands log)
    (hheld : ∀ identity, log.held? identity = true → log'.held? identity = true)
    (hkept : ∀ identity, log.at? identity ≠ none → log'.at? identity ≠ none) : claimant.Stands log' := by
  cases claimant with
  | cancel row => trivial
  | sweep todo stage =>
      obtain ⟨htodo, hnodup, hstage⟩ := h
      refine ⟨fun record hrecord => hheld _ (htodo record hrecord), hnodup, ?_⟩
      cases stage with
      | asking record taken submitted =>
          exact ⟨hheld _ hstage.1, hstage.2.1, fun run hrun => hkept _ (hstage.2.2 run hrun)⟩
      | ready => trivial
      | refused row => trivial

namespace Releasing

variable {lifecycle : Lifecycle} {digest : String → String} {s : Releasing}

/-- A held row may be resolved to any word HELD moves to, and then is held no more. -/
theorem resolve_held (lifecycle : Lifecycle) (next : RunRecord → Claimant) {record : RunRecord} {word : Word}
    (hheld : s.log.held? record.identity = true) (hword : Word.Transition .held word) :
    ∃ row, row.identity = record.identity ∧ row.verdict = some word.value ∧
      s.resolve lifecycle record word next = { s with log := s.log.put row, claim := some (next row) } := by
  obtain ⟨current, hcurrent, hverdict⟩ := Registry.held?_iff.mp hheld
  have hreaches : reaches lifecycle current.verdict word.value = true := by
    rw [hverdict]
    exact reaches_of_transition lifecycle hword
  have hidentity := Registry.identity_of_at? hcurrent
  refine ⟨current.resolved (some word.value) none word.value, hidentity ▸ current.identity_resolved .., rfl, ?_⟩
  simp only [resolve, Registry.resolve, Registry.change, hcurrent, hreaches, Bool.not_true,
    Bool.false_eq_true, if_false]

/-- A report changes no verdict. -/
theorem held?_report (s : Releasing) (row : RunRecord) (word : Word) (next : Option Claimant)
    (identity : Identity) :
    (s.report row word next).log.held? identity = s.log.held? identity := by
  simp only [report]
  split
  next log written hwritten =>
      obtain ⟨current, hcurrent, rfl, rfl⟩ := Registry.report_ok hwritten
      rw [Registry.held?_put, RunRecord.identity_withReported, RunRecord.verdict_withReported]
      split_ifs with hidentity
      · rw [Registry.held?, ← hidentity, Registry.identity_of_at? hcurrent, hcurrent]
        rfl
      · rfl
  next => rfl

/-- A hold's write makes its identity held and leaves the others alone. -/
theorem held?_held {holding : Holding} (identity : Identity) :
    (s.log.held digest holding).held? identity =
      (decide ((holding.placeholder digest).identity = identity) || s.log.held? identity) := by
  rw [Registry.held, Registry.record, Registry.held?_put]
  by_cases hidentity : (holding.placeholder digest).identity = identity
  · simp [hidentity]
  · simp [hidentity]

theorem kept_of_put {run : RunRecord} (identity : Identity) (h : s.log.at? identity ≠ none) :
    (s.log.put run).at? identity ≠ none := by
  rw [Registry.at?_put]
  split_ifs
  · nofun
  · exact h

/-- The placeholder in a sweep's hand is held. -/
theorem Kept.held_of_taking (h : Kept s) {identity : Identity} (htaking : s.taking = some identity) :
    s.log.held? identity = true := by
  obtain ⟨claimant, hclaim, hclaimant⟩ := Option.bind_eq_some_iff.mp htaking
  have hstands := h.claim claimant hclaim
  unfold Claimant.taking at hclaimant
  split at hclaimant
  next todo record submitted =>
      cases hclaimant
      exact hstands.2.2.1
  next => cases hclaimant

theorem Kept.not_mem_accepted (h : Kept s) (htaking : s.taking = none) {identity : Identity}
    (hheld : s.log.held? identity = true) : identity ∉ s.accepted := by
  have hcount := h.counts identity hheld
  rw [htaking, if_neg (by simp)] at hcount
  exact List.count_eq_zero.mp hcount

/-- The claim changes hands, or its holder goes on, with no taken request in its hand. -/
theorem Kept.stand (h : Kept s) (htaking : s.taking = none) {claim : Option Claimant}
    (hnext : claim.bind Claimant.taking = none)
    (hclaim : ∀ claimant, claim = some claimant → claimant.Stands s.log) : Kept { s with claim } where
  counts identity hheld := by
    have hcount := h.counts identity hheld
    rw [htaking] at hcount
    rw [hcount, taking, hnext]
  claim := hclaim

theorem Kept.idle (h : Kept s) (htaking : s.taking = none) : Kept { s with claim := none } :=
  h.stand htaking (Option.bind_none _) fun _ hnone => by cases hnone

/-- A held row is settled. -/
theorem Kept.settle (h : Kept s) (htaking : s.taking = none) {row : RunRecord} {claimant : Claimant}
    (hverdict : row.verdict ≠ some Word.held.value) (hnext : claimant.taking = none)
    (hstands : claimant.Stands (s.log.put row)) :
    Kept { s with log := s.log.put row, claim := some claimant } where
  counts identity hheld := by
    rw [Registry.held?_put] at hheld
    split_ifs at hheld
    · exact absurd (of_decide_eq_true hheld) hverdict
    · have hcount := h.counts identity hheld
      rw [htaking] at hcount
      rw [hcount, taking, Option.bind_some, hnext]
  claim other hother := by
    cases hother
    exact hstands

/-- A write that makes no row held that was not keeps the counts; the holder of the claim goes on. -/
theorem Kept.write (h : Kept s) {log : Registry} {claim : Option Claimant}
    (hsame : ∀ identity, log.held? identity = s.log.held? identity)
    (hnext : claim.bind Claimant.taking = s.taking)
    (hclaim : ∀ claimant, claim = some claimant → claimant.Stands log) : Kept { s with log, claim } where
  counts identity hheld := by
    rw [h.counts identity (hsame identity ▸ hheld), ← hnext]
    rfl
  claim := hclaim

theorem Kept.held (h : Kept s) (holding : Holding) (index : Nat) :
    Kept { s with
      log := s.log.held digest holding
      holding := s.holding.eraseIdx index
      accepted :=
        if s.log.held? (holding.placeholder digest).identity then s.accepted
        else s.accepted.filter fun other => other ≠ (holding.placeholder digest).identity } where
  counts identity hheld := by
    rw [held?_held, Bool.or_eq_true, decide_eq_true_eq] at hheld
    show _ = if s.taking = some identity then 1 else 0
    dsimp only
    by_cases hbefore : s.log.held? identity = true
    · rw [← h.counts identity hbefore]
      split_ifs with hagain
      · rfl
      · -- another placeholder is held anew
        have hne : identity ≠ (holding.placeholder digest).identity := fun heq => hagain (heq ▸ hbefore)
        exact List.count_filter (decide_eq_true hne)
    · obtain rfl := hheld.resolve_right hbefore
      rw [if_neg hbefore, if_neg fun htaking => hbefore (h.held_of_taking htaking), List.count_eq_zero]
      simp
  claim claimant hclaim := by
    refine (h.claim claimant hclaim).mono (fun identity hheld => ?_) fun identity => kept_of_put identity
    rw [held?_held, hheld, Bool.or_true]

theorem Kept.report (h : Kept s) (htaking : s.taking = none) {row : RunRecord} {word : Word}
    {next : Option Claimant} (hnext : next.bind Claimant.taking = none)
    (hclaim : ∀ log : Registry, (∀ identity, log.held? identity = s.log.held? identity) →
      ∀ claimant, next = some claimant → claimant.Stands log) :
    Kept (s.report row word next) := by
  have hsame := held?_report s row word next
  simp only [Releasing.report] at hsame ⊢
  split at hsame
  next log written hwritten => exact h.write hsame (hnext.trans htaking.symm) (hclaim log hsame)
  next => exact h.idle htaking

/-- What a claimant still has to ask for stands in any registry that holds the same requests. -/
theorem stands_ready {log log' : Registry} {todo : List RunRecord} {stage : ReleaseStage}
    (h : (Claimant.sweep todo stage).Stands log)
    (hheld : ∀ record ∈ todo, log.held? record.identity = true → log'.held? record.identity = true)
    {next : ReleaseStage} (hnext : next.Stands log' todo) : (Claimant.sweep todo next).Stands log' :=
  ⟨fun record hrecord => hheld record hrecord (h.1 record hrecord), h.2.1, hnext⟩

/-- A sweep that starts has the held requests of its scope before it. -/
theorem Kept.begin (h : Kept s) (hfree : s.claim = none) (scope : RunRecord → Bool) :
    Kept { s with claim := some (.sweep (s.log.waiting.filter scope) .ready) } := by
  refine h.stand (by simp [taking, hfree]) rfl ?_
  intro claimant hclaimant
  cases hclaimant
  refine ⟨?_, (List.filter_sublist.map _).nodup Registry.waiting_nodup, trivial⟩
  intro record hrecord
  exact Registry.held?_iff.mpr ⟨record, Registry.mem_waiting (List.mem_of_mem_filter hrecord)⟩

theorem Kept.ask (h : Kept s) {record : RunRecord} {todo : List RunRecord}
    (hclaim : s.claim = some (.sweep (record :: todo) .ready)) :
    Kept { s with
      claim := some (.sweep todo (if record.request.isNone then .ready else .asking record false none)) } := by
  obtain ⟨htodo, hnodup, -⟩ := h.claim _ hclaim
  rw [List.map_cons, List.nodup_cons] at hnodup
  refine h.stand (by simp [taking, hclaim, Claimant.taking]) ?_ ?_
  · split_ifs <;> rfl
  · intro claimant hclaimant
    cases hclaimant
    refine ⟨fun other hother => htodo other (List.mem_cons_of_mem _ hother), hnodup.2, ?_⟩
    split_ifs
    · trivial
    · exact ⟨htodo record List.mem_cons_self, hnodup.1, fun _ hnone => absurd hnone (Option.not_mem_none _)⟩

/-- The target takes the request in the sweep's hand. -/
theorem Kept.take (h : Kept s) {record : RunRecord} {todo : List RunRecord} {submitted : Option RunRecord}
    (hclaim : s.claim = some (.sweep todo (.asking record false submitted))) :
    Kept { s with
      claim := some (.sweep todo (.asking record true submitted))
      accepted := record.identity :: s.accepted } where
  counts identity hheld := by
    have htaking : s.taking = none := by simp [taking, hclaim, Claimant.taking]
    have hcount := h.counts identity hheld
    rw [htaking, if_neg (by simp)] at hcount
    simp only [taking, Option.bind_some, Claimant.taking, Option.some.injEq, List.count_cons, hcount,
      Nat.zero_add, beq_iff_eq]
  claim claimant hclaimant := by
    have hstands := h.claim _ hclaim
    cases hclaimant
    exact hstands

/-- The submission of the request in the sweep's hand is recorded under a fresh identity. -/
theorem Kept.record (h : Kept s) {record run : RunRecord} {todo : List RunRecord} {taken : Bool}
    (hclaim : s.claim = some (.sweep todo (.asking record taken none))) (hfresh : s.log.Dispatchable run) :
    Kept { s with log := s.log.record run, claim := some (.sweep todo (.asking record taken (some run))) } := by
  have hstands := h.claim _ hclaim
  have hsame : ∀ identity, (s.log.record run).held? identity = s.log.held? identity := by
    intro identity
    rw [Registry.record, Registry.held?_put]
    split_ifs with hidentity
    · rw [← hidentity, Registry.held?, hfresh.1, decide_eq_false hfresh.2]
      rfl
    · rfl
  refine h.write hsame ?_ ?_
  · simp only [taking, hclaim, Option.bind_some]
    cases taken <;> rfl
  · intro claimant hclaimant
    cases hclaimant
    refine stands_ready hstands (fun other _ hheld => (hsame _).trans hheld) ?_
    refine ⟨(hsame _).trans hstands.2.2.1, hstands.2.2.2.1, ?_⟩
    intro submitted hsubmitted
    cases hsubmitted
    simp [Registry.record]

/-- The placeholder of the request that was taken is dropped. -/
theorem Kept.resume (h : Kept s) {record run : RunRecord} {todo : List RunRecord}
    (hclaim : s.claim = some (.sweep todo (.asking record true (some run)))) :
    Kept { s with log := s.log.forget record, claim := some (.sweep todo .ready) } where
  counts identity hheld := by
    have htaking : s.taking = some record.identity := by simp [taking, hclaim, Claimant.taking]
    simp only [Registry.forget, Registry.held?_drop] at hheld
    split_ifs at hheld with hidentity
    have hcount := h.counts identity hheld
    rw [htaking, if_neg (by simpa using hidentity)] at hcount
    exact hcount
  claim claimant hclaimant := by
    cases hclaimant
    have hstands := h.claim _ hclaim
    refine stands_ready hstands (fun other hother hheld => ?_) trivial
    rw [Registry.forget, Registry.held?_drop, if_neg, hheld]
    intro heq
    exact hstands.2.2.2.1 (heq ▸ List.mem_map_of_mem hother)

/-- The request in the sweep's hand is settled as failed. -/
theorem Kept.fail (h : Kept s) {record : RunRecord} {todo : List RunRecord} {taken : Bool}
    {submitted : Option RunRecord} (hclaim : s.claim = some (.sweep todo (.asking record taken submitted)))
    (htaking : s.taking = none) :
    Kept (s.resolve lifecycle record .failed fun row => .sweep todo (.refused row)) := by
  have hstands := h.claim _ hclaim
  obtain ⟨row, hidentity, hverdict, hresolve⟩ :=
    resolve_held lifecycle (fun row => .sweep todo (.refused row)) hstands.2.2.1
      (show Word.Transition .held .failed by decide)
  rw [hresolve]
  refine h.settle htaking (by rw [hverdict]; decide) rfl ?_
  refine stands_ready hstands (fun other hother hheld => ?_) trivial
  rw [Registry.held?_put, if_neg, hheld]
  intro heq
  exact hstands.2.2.2.1 (hidentity ▸ heq ▸ List.mem_map_of_mem hother)

/-- A held request is settled as cancelled. -/
theorem Kept.cancel (h : Kept s) {identity : Identity} {record : RunRecord} (hclaim : s.claim = none)
    (hrecord : s.log.at? identity = some record) (hheld : record.verdict = some Word.held.value) :
    Kept (s.resolve lifecycle record .cancelled .cancel) := by
  have hidentity := Registry.identity_of_at? hrecord
  obtain ⟨row, -, hverdict, hresolve⟩ :=
    resolve_held lifecycle .cancel (Registry.held?_iff.mpr ⟨record, hidentity ▸ hrecord, hheld⟩)
      (show Word.Transition .held .cancelled by decide)
  rw [hresolve]
  exact h.settle (by simp [taking, hclaim]) (by rw [hverdict]; decide) rfl trivial

theorem kept_step (s : Releasing) (label : ReleaseStep) (h : Kept s) (hcond : s.Answered label) :
    Kept (s.step lifecycle digest label) := by
  cases label with
  | hold asked reason project now => exact ⟨h.counts, h.claim⟩
  | held index =>
      simp only [step]
      split
      next holding hholding => exact h.held holding index
      next => exact h
  | begin scope =>
      simp only [step]
      split_ifs with hfree
      · exact h.begin (Option.isNone_iff_eq_none.mp hfree) scope
      · exact h
  | ask =>
      simp only [step]
      split
      next record todo hclaim => exact h.ask hclaim
      next => exact h
  | take =>
      simp only [step]
      split
      next todo record submitted hclaim => exact h.take hclaim
      next => exact h
  | record run =>
      simp only [step]
      split
      next todo record taken hclaim =>
          split_ifs with hfresh
          · exact h.record hclaim hfresh
          · exact h
      next => exact h
  | resume =>
      simp only [step]
      split
      next todo record run hclaim => exact h.resume hclaim
      next => exact h
  | fail fault =>
      simp only [step]
      split
      next todo record taken submitted hclaim =>
          have htaking : s.taking = none := (hcond (by simp [asking, hclaim, Claimant.asking])).1
          split_ifs with hquota
          · refine h.stand htaking rfl ?_
            intro claimant hclaimant
            cases hclaimant
            exact stands_ready (h.claim _ hclaim) (fun _ _ hheld => hheld) trivial
          · exact h.fail hclaim htaking
      next => exact h
  | report =>
      simp only [step]
      split
      next todo row hclaim =>
          refine h.report (by simp [taking, hclaim, Claimant.taking]) rfl ?_
          intro log hsame claimant hclaimant
          cases hclaimant
          exact stands_ready (h.claim _ hclaim) (fun other _ hheld => (hsame _).trans hheld) trivial
      next row hclaim =>
          exact h.report (by simp [taking, hclaim, Claimant.taking]) rfl fun _ _ _ hnone => by cases hnone
      next => exact h
  | cancel identity =>
      simp only [step]
      split
      next record hclaim hrecord =>
          split_ifs with hheld
          · exact h.cancel hclaim hrecord hheld
          · exact h
      next => exact h
  | die => exact h.idle hcond

/-- A step that keeps every held row held loses no request. -/
theorem keeps_of_held {label : ReleaseStep}
    (hheld : ∀ identity, s.log.held? identity = true →
      (s.step lifecycle digest label).log.held? identity = true)
    (hretried : ∀ fault, label = .fail fault → (s.step lifecycle digest label).log = s.log) :
    Keeps lifecycle digest s label where
  leaves identity hbefore hafter := by
    rw [hheld identity hbefore] at hafter
    cases hafter
  retried fault hlabel _ := hretried fault hlabel

theorem keeps_resume (h : Kept s) : Keeps lifecycle digest s .resume where
  retried fault hlabel _ := by cases hlabel
  leaves identity hbefore hafter := by
    generalize hstep : s.step lifecycle digest .resume = after at hafter ⊢
    simp only [step] at hstep
    split at hstep
    next todo record run hclaim =>
        have hstands := h.claim _ hclaim
        subst hstep
        simp only [Registry.forget, Registry.held?_drop] at hafter
        split_ifs at hafter with hidentity
        · have hcount := h.counts identity hbefore
          rw [taking, hclaim, Option.bind_some, Claimant.taking, if_pos (congrArg some hidentity)] at hcount
          exact .resumed hclaim hidentity hcount (hstands.2.2.2.2 run rfl) (by simp [Registry.forget, hidentity])
        · rw [hbefore] at hafter
          cases hafter
    next =>
        subst hstep
        rw [hbefore] at hafter
        cases hafter

theorem keeps_fail (h : Kept s) {fault : Fault} (hcond : s.Answered (.fail fault)) :
    Keeps lifecycle digest s (.fail fault) := by
  cases hclaim : s.asking with
  | none =>
      have hidle : s.step lifecycle digest (.fail fault) = s := by
        simp only [step]
        split
        next todo record taken submitted hclaim' => simp [asking, hclaim', Claimant.asking] at hclaim
        next => rfl
      exact keeps_of_held (fun _ hheld => hidle.symm ▸ hheld) fun _ _ => congrArg log hidle
  | some record =>
      obtain ⟨htaking, hanswered⟩ := hcond (by simp [hclaim])
      obtain ⟨claimant, hclaimant, hasking⟩ := Option.bind_eq_some_iff.mp hclaim
      unfold Claimant.asking at hasking
      split at hasking
      next todo asked taken submitted =>
          obtain rfl : asked = record := Option.some.inj hasking
          have hstands := h.claim _ hclaimant
          by_cases hquota : isQuotaRefusal fault.text = true
          · have hlog : (s.step lifecycle digest (.fail fault)).log = s.log := by
              simp only [step, hclaimant, if_pos hquota]
            exact keeps_of_held (fun _ hheld => hlog.symm ▸ hheld) fun _ _ => hlog
          · have hbyTarget := hanswered.resolve_left hquota
            obtain ⟨row, hidentity, hverdict, hresolve⟩ := resolve_held lifecycle
              (fun row => .sweep todo (.refused row)) hstands.2.2.1
              (show Word.Transition .held .failed by decide)
            have hstep : s.step lifecycle digest (.fail fault) =
                { s with log := s.log.put row, claim := some (.sweep todo (.refused row)) } := by
              simp only [step, hclaimant, if_neg hquota, hresolve]
            refine ⟨?_, ?_⟩
            · intro identity hbefore hafter
              rw [hstep] at hafter ⊢
              simp only [Registry.held?_put] at hafter
              split_ifs at hafter with hsame
              · exact .refused (h.not_mem_accepted htaking hbefore) hbyTarget (by simp [hsame]) hverdict
              · rw [hbefore] at hafter
                cases hafter
            · intro other hlabel hother
              cases hlabel
              rw [hbyTarget] at hother
              cases hother
      next => cases hasking

theorem keeps_cancel (h : Kept s) (cancelled : Identity) : Keeps lifecycle digest s (.cancel cancelled) where
  retried fault hlabel _ := by cases hlabel
  leaves identity hbefore hafter := by
    generalize hstep : s.step lifecycle digest (.cancel cancelled) = after at hafter ⊢
    simp only [step] at hstep
    split at hstep
    next record hclaim hrecord =>
        have htaking : s.taking = none := by simp [taking, hclaim]
        have hidentity := Registry.identity_of_at? hrecord
        split_ifs at hstep with hheld
        · obtain ⟨row, hrow, hverdict, hresolve⟩ := resolve_held lifecycle .cancel
            (Registry.held?_iff.mpr ⟨record, hidentity ▸ hrecord, hheld⟩)
            (show Word.Transition .held .cancelled by decide)
          rw [hresolve] at hstep
          subst hstep
          simp only [Registry.held?_put] at hafter
          split_ifs at hafter with hsame
          · obtain rfl : identity = cancelled := hsame.symm.trans (hrow.trans hidentity)
            exact .cancelled (h.not_mem_accepted htaking hbefore) (by simp [hsame]) hverdict
          · rw [hbefore] at hafter
            cases hafter
        · subst hstep
          rw [hbefore] at hafter
          cases hafter
    next =>
        subst hstep
        rw [hbefore] at hafter
        cases hafter

theorem keeps_step (s : Releasing) (label : ReleaseStep) (h : Kept s) (hcond : s.Answered label) :
    Keeps lifecycle digest s label := by
  cases label with
  | resume => exact keeps_resume h
  | fail fault => exact keeps_fail h hcond
  | cancel identity => exact keeps_cancel h identity
  | hold asked reason project now => exact keeps_of_held (fun _ hheld => hheld) fun _ hlabel => by cases hlabel
  | held index =>
      refine keeps_of_held (fun identity hheld => ?_) fun _ hlabel => by cases hlabel
      simp only [step]
      split
      · rw [held?_held, hheld, Bool.or_true]
      · exact hheld
  | begin scope =>
      refine keeps_of_held (fun identity hheld => ?_) fun _ hlabel => by cases hlabel
      simp only [step]
      split_ifs
      · exact hheld
      · exact hheld
  | ask =>
      refine keeps_of_held (fun identity hheld => ?_) fun _ hlabel => by cases hlabel
      simp only [step]
      split
      · exact hheld
      · exact hheld
  | take =>
      refine keeps_of_held (fun identity hheld => ?_) fun _ hlabel => by cases hlabel
      simp only [step]
      split
      · exact hheld
      · exact hheld
  | record run =>
      refine keeps_of_held (fun identity hheld => ?_) fun _ hlabel => by cases hlabel
      simp only [step]
      split
      · split_ifs with hfresh
        · rw [Registry.record, Registry.held?_put, if_neg, hheld]
          intro hidentity
          rw [← hidentity, Registry.held?, hfresh.1] at hheld
          cases hheld
        · exact hheld
      · exact hheld
  | report =>
      refine keeps_of_held (fun identity hheld => ?_) fun _ hlabel => by cases hlabel
      simp only [step]
      split
      · rw [held?_report, hheld]
      · rw [held?_report, hheld]
      · exact hheld
  | die => exact keeps_of_held (fun _ hheld => hheld) fun _ hlabel => by cases hlabel

/-- Every row that stays keeps the request it was held with. -/
def Retains (log log' : Registry) : Prop :=
  ∀ identity before after, log.at? identity = some before → log'.at? identity = some after →
    after.request = before.request

theorem retains_refl (log : Registry) : Retains log log := by
  intro identity before after hbefore hafter
  rw [hbefore] at hafter
  cases hafter
  rfl

theorem retains_resolve (s : Releasing) (record : RunRecord) (word : Word) (next : RunRecord → Claimant) :
    Retains s.log (s.resolve lifecycle record word next).log := by
  have hlog : (s.resolve lifecycle record word next).log =
      s.log.after (s.log.resolve lifecycle record (some word.value) none word.value) := by
    unfold resolve
    cases s.log.resolve lifecycle record (some word.value) none word.value <;> rfl
  intro identity before after hbefore hafter
  rw [hlog] at hafter
  obtain rfl | rfl := Registry.row_of_map (Registry.at?_resolve ..) hbefore hafter
  · split_ifs <;> rfl
  · rfl

theorem retains_report (s : Releasing) (row : RunRecord) (word : Word) (next : Option Claimant) :
    Retains s.log (s.report row word next).log := by
  have hlog : (s.report row word next).log = s.log.after (s.log.report row word.value) := by
    unfold report
    cases s.log.report row word.value <;> rfl
  intro identity before after hbefore hafter
  rw [hlog] at hafter
  obtain rfl | rfl := Registry.row_of_map (Registry.at?_report ..) hbefore hafter
  · rfl
  · rfl

/-- Nothing but a new hold under its identity changes what a held row asks for: neither a sweep nor a cancel. -/
theorem retains_step (s : Releasing) {label : ReleaseStep} (hlabel : ∀ index, label ≠ .held index) :
    Retains s.log (s.step lifecycle digest label).log := by
  have hkeep := retains_refl s.log
  cases label with
  | hold => exact hkeep
  | held index => exact absurd rfl (hlabel index)
  | begin scope =>
      simp only [step]
      split_ifs <;> exact hkeep
  | ask | take =>
      simp only [step]
      split <;> exact hkeep
  | record run =>
      simp only [step]
      split
      · split_ifs with hfresh
        · intro identity before after hbefore hafter
          rw [Registry.record, Registry.at?_put] at hafter
          split_ifs at hafter with hidentity
          · rw [← hidentity, hfresh.1] at hbefore
            cases hbefore
          · exact hkeep identity before after hbefore hafter
        · exact hkeep
      · exact hkeep
  | resume =>
      simp only [step]
      split
      · intro identity before after hbefore hafter
        rw [Registry.forget, Registry.at?_drop] at hafter
        split_ifs at hafter
        exact hkeep identity before after hbefore hafter
      · exact hkeep
  | fail fault =>
      simp only [step]
      split
      · split_ifs
        · exact hkeep
        · exact retains_resolve _ _ _ _
      · exact hkeep
  | report =>
      simp only [step]
      split
      · exact retains_report _ _ _ _
      · exact retains_report _ _ _ _
      · exact hkeep
  | cancel identity =>
      simp only [step]
      split
      · split_ifs
        · exact retains_resolve _ _ _ _
        · exact hkeep
      · exact hkeep
  | die => exact hkeep

theorem kept_start : Kept start where
  counts identity hheld := by
    rw [Registry.held?_iff] at hheld
    obtain ⟨row, hrow, -⟩ := hheld
    simp [start] at hrow
  claim _ hclaim := by cases hclaim

/-- Over every interleaving of holds, sweeps, cancels and deaths in which whatever a sweep catches that
names no quota is the target's own refusal, and nothing interrupts a release its target has taken, a held
request leaves HELD only taken once, cancelled or refused by its target. -/
theorem held_kept (lifecycle : Lifecycle) (digest : String → String) (labels : List ReleaseStep)
    (hcond : Runs.Each (step lifecycle digest) Answered start labels) :
    Runs.Each (step lifecycle digest) (Keeps lifecycle digest) start labels :=
  Runs.each_of_invariant kept_step keeps_step kept_start hcond

section Unreachable

private def wave : Request where
  target := "miyabi"
  command := "train.sh"
  name := "train"
  node := ""
  fetch := none

private def resubmitted : RunRecord where
  handle := "12.opbs"
  target := "miyabi"
  submittedAt := 4

/-- The request held, and a sweep asking for it again. -/
private def asked : List ReleaseStep := [.hold wave "queue full" "" 1, .held 0, .begin fun _ => true, .ask]

theorem held_kept_resumed :
    Runs.Each (step .table id) (Keeps .table id) start
      (asked ++ ([.take, .record resubmitted, .resume] : List ReleaseStep)) :=
  held_kept .table id _ (by decide +kernel)

/-- The target is down when the sweep asks it again: the request is settled as failed. -/
theorem held_kept_fails_unreachable :
    ¬ ∀ (lifecycle : Lifecycle) (digest : String → String) (labels : List ReleaseStep),
      Runs.Each (step lifecycle digest) (Keeps lifecycle digest) start labels := by
  intro h
  let fault : Fault := ⟨"ssh: connect to host miyabi: Connection refused", false⟩
  have hkeeps := (Runs.each_append.mp (h .table id (asked ++ [.fail fault]))).2.1
  have hlog := hkeeps.retried fault rfl rfl
  revert hlog
  decide +kernel

end Unreachable

end Releasing

end Mainboard
