import Mainboard.AllocationProtocol
import Mathlib.Tactic.Tauto

/-! The invariant of the creation protocol: for each label, what its intent row, its create requests, its claims
and its submitter may be together. The promises of the protocol are read off it, and the frame lemmas say what a
step that touches one label has to show. -/

namespace Mainboard

namespace Provisioning

/-- Every create request sent for the label was declined. -/
def Quiet (s : Provisioning) (label : String) : Prop := ∀ call ∈ s.calls label, call = .declined

/-- The intent row stands at SUBMITTING. -/
def Submitting (s : Provisioning) (record : RunRecord) : Prop :=
  ∃ row, s.log.at? record.identity = some row ∧ row.verdict = some Word.submitting.value

/-- A record read from the registry is the machine-bound row of its label, or its intent row. -/
def Refers (s : Provisioning) (run : RunRecord) : Prop :=
  (run.creation, run.handle) ∈ s.machines ∨
    ∃ record, s.intent run.creation = some record ∧ record.identity = run.identity ∧
      (Pending run ∨ terminal run.verdict = true)

/-- What the row at an intent's identity says of the label's requests, claims and bindings. -/
def Stands (s : Provisioning) (label : String) (record : RunRecord) : Prop :=
  match s.log.at? record.identity with
  | none => (s.binds label).length = 1 ∧ (s.won label).length ≤ 1
  | some row => row.creation = label ∧ s.binds label = [] ∧
      ((row.verdict = some Word.prepared.value ∧ s.Quiet label ∧ s.won label = []) ∨
        (row.verdict = some Word.submitting.value ∧ (s.won label).length ≤ 1) ∨
        ((row.verdict = some Word.failed.value ∨ row.verdict = some Word.cancelled.value) ∧
          s.Quiet label ∧ (s.won label).length ≤ 1))

/-- What the submitter of a label knows where it stands. -/
def Attends (s : Provisioning) (label : String) (record : RunRecord) : Prop :=
  match s.submitter label with
  | .begun | .declined => s.Quiet label ∧ s.Submitting record
  | .refusing current => s.Quiet label ∧ s.Submitting record ∧ current.identity = record.identity
  | .sent => (∀ call ∈ (s.calls label).dropLast, call = .declined) ∧
      ∀ row, s.log.at? record.identity = some row → row.verdict = some Word.submitting.value
  | .answered handle => handle = "" ∨ handle = "None" ∨ (label, handle) ∈ s.machines
  | .interrupting current => current.creation = label ∧ s.Refers current
  | .reserved | .leaving | .ended => True

/-- What a current row may be: the intent row of its label, or a resolved row that no label goes by. -/
def Rowed (s : Provisioning) (identity : Identity) (row : RunRecord) : Prop :=
  (∃ record, s.intent row.creation = some record ∧ record.identity = identity) ∨
    (¬ Pending row ∧ s.intent identity.handle = none ∧
      (((row.creation, identity.handle) ∈ s.machines ∧ s.binds row.creation ≠ []) ∨
        s.intent row.creation = none))

structure Inv (s : Provisioning) : Prop where
  rows : ∀ identity row, s.log.at? identity = some row → s.Rowed identity row
  handles : ∀ label record, s.intent label = some record → record.handle = label
  stands : ∀ label record, s.intent label = some record → s.Stands label record
  attends : ∀ label record, s.intent label = some record → s.Attends label record
  machines : ∀ label handle, (label, handle) ∈ s.machines →
    s.intent label ≠ none ∧ s.intent handle = none ∧ .accepted ∈ s.calls label
  named : ∀ run handle, (run, handle) ∈ s.named →
    (run.creation, handle) ∈ s.machines ∧ s.Refers run
  unallocated : ∀ label, s.intent label = none →
    s.calls label = [] ∧ s.binds label = [] ∧ s.won label = []
  bound : ∀ label, s.binds label ≠ [] → .accepted ∈ s.calls label
  pending : ∀ left right leftRow rightRow, s.log.at? left = some leftRow →
    s.log.at? right = some rightRow → Pending leftRow → Pending rightRow →
      leftRow.target = rightRow.target → leftRow.script = rightRow.script →
        leftRow.digest = rightRow.digest → left = right
  sends : ∀ sent ∈ s.sends, sent.2 = some Word.submitting.value

section Promises

variable {s : Provisioning}

/-- The invariant carries every promise of the protocol. -/
theorem safe_of_inv (hinv : Inv s) : Safe s := by
  have hwon : ∀ label, (s.won label).length ≤ 1 ∧ (s.binds label).length ≤ 1 := by
    intro label
    cases hintent : s.intent label with
    | none =>
        obtain ⟨-, hbinds, hwon⟩ := hinv.unallocated label hintent
        simp [hbinds, hwon]
    | some record =>
        have hstands := hinv.stands label record hintent
        rw [Stands] at hstands
        split at hstands
        · exact ⟨hstands.2, hstands.1.le⟩
        · obtain ⟨-, hbinds, hcases⟩ := hstands
          refine ⟨?_, by simp [hbinds]⟩
          rcases hcases with ⟨-, -, hwon⟩ | ⟨-, hwon⟩ | ⟨-, -, hwon⟩
          · simp [hwon]
          · exact hwon
          · exact hwon
  refine ⟨fun label => (hwon label).1, hinv.sends, fun label => (hwon label).2, hinv.pending, ?_, ?_⟩
  · rintro identity row hrow hfailed ⟨⟨call, hcall, hopen⟩, hbinds⟩
    rcases hinv.rows identity row hrow with ⟨record, hintent, rfl⟩ | ⟨-, -, ⟨-, hbound⟩ | hnone⟩
    · have hstands := hinv.stands row.creation record hintent
      simp only [Stands, hrow, hfailed] at hstands
      rcases hstands.2.2 with ⟨h, -⟩ | ⟨h, -⟩ | ⟨-, hquiet, -⟩
      · simp at h
      · simp at h
      · exact hopen (hquiet call hcall)
    · exact hbound hbinds
    · rw [(hinv.unallocated row.creation hnone).1] at hcall
      cases hcall
  · rintro label ⟨⟨call, hcall, hopen⟩, hbinds⟩
    cases hintent : s.intent label with
    | none =>
        rw [(hinv.unallocated label hintent).1] at hcall
        cases hcall
    | some record =>
        have hstands := hinv.stands label record hintent
        cases hrow : s.log.at? record.identity with
        | none =>
            simp only [Stands, hrow, hbinds] at hstands
            simp at hstands
        | some row =>
            simp only [Stands, hrow] at hstands
            obtain ⟨hcreation, -, ⟨-, hquiet, -⟩ | ⟨hsubmitting, -⟩ | ⟨-, hquiet, -⟩⟩ := hstands
            · exact absurd (hquiet call hcall) hopen
            · exact ⟨record, row, rfl, hrow, hcreation, hsubmitting⟩
            · exact absurd (hquiet call hcall) hopen

theorem inv_initial (h : Initial s) : Inv s where
  rows identity row hrow :=
    .inr ⟨h.resolved identity row hrow, h.intent _, .inr (h.intent _)⟩
  handles label record hintent := by rw [h.intent] at hintent; cases hintent
  stands label record hintent := by rw [h.intent] at hintent; cases hintent
  attends label record hintent := by rw [h.intent] at hintent; cases hintent
  machines label handle hmem := by rw [h.machines] at hmem; cases hmem
  named run handle hmem := by rw [h.named] at hmem; cases hmem
  unallocated label _ := ⟨h.calls label, h.binds label, h.won label⟩
  bound label hbound := absurd (h.binds label) hbound
  pending left _ leftRow _ hleft _ hpending := absurd hpending (h.resolved left leftRow hleft)
  sends sent hsent := by rw [h.sends] at hsent; cases hsent

end Promises

section Frame

variable {s : Provisioning} {label : String} {record : RunRecord}

/-- A pending row is the intent row of its label. -/
theorem Inv.intent_of_pending (hinv : Inv s) {identity : Identity} {row : RunRecord}
    (hrow : s.log.at? identity = some row) (hpending : Pending row) :
    ∃ record, s.intent row.creation = some record ∧ record.identity = identity := by
  rcases hinv.rows identity row hrow with h | ⟨hresolved, -⟩
  · exact h
  · exact absurd hpending hresolved

theorem Inv.handle_of_identity (hinv : Inv s) (hintent : s.intent label = some record) :
    record.identity.handle = label := hinv.handles label record hintent

/-- Two labels have two intent identities. -/
theorem Inv.identity_ne (hinv : Inv s) {other : String} {otherRecord : RunRecord}
    (hintent : s.intent label = some record) (hother : s.intent other = some otherRecord)
    (hne : other ≠ label) : otherRecord.identity ≠ record.identity := by
  intro h
  exact hne ((hinv.handle_of_identity hother).symm.trans
    ((congrArg Identity.handle h).trans (hinv.handle_of_identity hintent)))

theorem not_quiet_of_accepted (h : .accepted ∈ s.calls label) : ¬ s.Quiet label :=
  fun hquiet => absurd (hquiet _ h) (by decide)

/-- A quiet label with an intent is bound to nothing, so its intent row is still there. -/
theorem Inv.row_of_quiet (hinv : Inv s) (hintent : s.intent label = some record)
    (hquiet : s.Quiet label) : ∃ row, s.log.at? record.identity = some row := by
  have hstands := hinv.stands label record hintent
  cases hrow : s.log.at? record.identity with
  | some row => exact ⟨row, rfl⟩
  | none =>
      simp only [Stands, hrow] at hstands
      have hbinds : s.binds label ≠ [] := by
        intro h
        simp [h] at hstands
      exact absurd hquiet (not_quiet_of_accepted (hinv.bound label hbinds))

/-- A step on one label's request: whatever it changes lies at that intent's identity or at an identity no
label goes by, and the label's own facts hold again after it. -/
theorem Inv.frame (hinv : Inv s) (hintent : s.intent label = some record) (log : Registry)
    (submitter : String → Submitter) (won : String → List Word) (binds : String → List String)
    (hlog : ∀ identity, s.intent identity.handle ≠ none → identity ≠ record.identity →
      log.at? identity = s.log.at? identity)
    (hothers : ∀ other, other ≠ label →
      submitter other = s.submitter other ∧ won other = s.won other ∧ binds other = s.binds other)
    (hrows : ∀ identity row, log.at? identity = some row →
      Rowed { s with log, submitter, won, binds } identity row)
    (hpending : ∀ identity row, log.at? identity = some row → Pending row →
      ∃ old, s.log.at? identity = some old ∧ Pending old ∧ old.target = row.target ∧
        old.script = row.script ∧ old.digest = row.digest)
    (hbound : binds label ≠ [] → .accepted ∈ s.calls label)
    (hstands : Stands { s with log, submitter, won, binds } label record)
    (hattends : Attends { s with log, submitter, won, binds } label record) :
    Inv { s with log, submitter, won, binds } where
  rows := hrows
  handles := hinv.handles
  stands other otherRecord hother := by
    by_cases hne : other = label
    · subst hne
      cases hintent.symm.trans hother
      exact hstands
    · have hsame : log.at? otherRecord.identity = s.log.at? otherRecord.identity := by
        refine hlog _ ?_ (hinv.identity_ne hintent hother hne)
        rw [hinv.handle_of_identity hother, hother]
        simp
      have h := hinv.stands other otherRecord hother
      obtain ⟨-, hwon, hbinds⟩ := hothers other hne
      simpa only [Stands, Quiet, hsame, hwon, hbinds] using h
  attends other otherRecord hother := by
    by_cases hne : other = label
    · subst hne
      cases hintent.symm.trans hother
      exact hattends
    · have hsame : log.at? otherRecord.identity = s.log.at? otherRecord.identity := by
        refine hlog _ ?_ (hinv.identity_ne hintent hother hne)
        rw [hinv.handle_of_identity hother, hother]
        simp
      have h := hinv.attends other otherRecord hother
      obtain ⟨hsubmitter, -, -⟩ := hothers other hne
      simpa only [Attends, Quiet, Submitting, Refers, hsame, hsubmitter] using h
  machines := hinv.machines
  named := hinv.named
  unallocated other hnone := by
    have hne : other ≠ label := by
      rintro rfl
      rw [hintent] at hnone
      cases hnone
    obtain ⟨-, hwon, hbinds⟩ := hothers other hne
    simpa only [hwon, hbinds] using hinv.unallocated other hnone
  bound other hother := by
    by_cases hne : other = label
    · subst hne
      exact hbound hother
    · obtain ⟨-, -, hbinds⟩ := hothers other hne
      exact hinv.bound other (hbinds ▸ hother)
  pending left right leftRow rightRow hleft hright hleftPending hrightPending htarget hscript hdigest := by
    obtain ⟨leftOld, hleftOld, hleftWas, hlt, hls, hld⟩ := hpending left leftRow hleft hleftPending
    obtain ⟨rightOld, hrightOld, hrightWas, hrt, hrs, hrd⟩ := hpending right rightRow hright hrightPending
    exact hinv.pending left right leftOld rightOld hleftOld hrightOld hleftWas hrightWas
      (by rw [hlt, hrt, htarget]) (by rw [hls, hrs, hscript]) (by rw [hld, hrd, hdigest])
  sends := hinv.sends

/-- A step that only moves one submitter. -/
theorem Inv.moveTo (hinv : Inv s) {next : Submitter}
    (hattends : ∀ record, s.intent label = some record → (s.moveTo label next).Attends label record) :
    Inv (s.moveTo label next) := by
  cases hintent : s.intent label with
  | some record =>
      refine hinv.frame hintent s.log _ s.won s.binds (fun _ _ _ => rfl) ?_ hinv.rows ?_ (hinv.bound label)
        (hinv.stands label record hintent)
        (hattends record hintent)
      · intro other hne
        exact ⟨Function.update_of_ne hne _ _, rfl, rfl⟩
      · intro identity row hrow hpending
        exact ⟨row, hrow, hpending, rfl, rfl, rfl⟩
  | none =>
      refine { hinv with attends := ?_ }
      intro other record hother
      have hne : other ≠ label := by
        rintro rfl
        exact absurd (hother.symm.trans hintent) (Option.some_ne_none _)
      have h := hinv.attends other record hother
      simpa only [Attends, Provisioning.moveTo, Function.update_of_ne hne, Quiet, Submitting, Refers] using h

/-- A step of the provider or a send, on a label whose intent row, if it is still there, is
submitting. -/
theorem Inv.called (hinv : Inv s) (hintent : s.intent label = some record) (submitter : String → Submitter)
    (calls : List Call) (machines : List (String × String)) (sends : List (String × Option String))
    (hopen : ∀ row, s.log.at? record.identity = some row → row.verdict = some Word.submitting.value)
    (hothers : ∀ other, other ≠ label → submitter other = s.submitter other)
    (haccepted : .accepted ∈ s.calls label → .accepted ∈ calls)
    (hkept : ∀ machine ∈ s.machines, machine ∈ machines)
    (hmachines : ∀ machine ∈ machines, machine ∈ s.machines ∨
      machine.1 = label ∧ s.intent machine.2 = none ∧ .accepted ∈ calls)
    (hsends : ∀ sent ∈ sends, sent.2 = some Word.submitting.value)
    (hattends : Attends { s with submitter, machines, sends, calls := Function.update s.calls label calls }
      label record) :
    Inv { s with submitter, machines, sends, calls := Function.update s.calls label calls } := by
  have hrefers : ∀ run, s.Refers run →
      Refers { s with submitter, machines, sends, calls := Function.update s.calls label calls } run := by
    rintro run (hmachine | hrecord)
    · exact .inl (hkept _ hmachine)
    · exact .inr hrecord
  refine {
    rows := ?rows, handles := hinv.handles, stands := ?stands, attends := ?attends, machines := ?machines,
    named := ?named, unallocated := ?unallocated, bound := ?bound, pending := hinv.pending, sends := hsends }
  case rows =>
    intro identity row hrow
    rcases hinv.rows identity row hrow with h | ⟨hresolved, hhandle, ⟨hmachine, hbinds⟩ | hnone⟩
    · exact .inl h
    · exact .inr ⟨hresolved, hhandle, .inl ⟨hkept _ hmachine, hbinds⟩⟩
    · exact .inr ⟨hresolved, hhandle, .inr hnone⟩
  case stands =>
    intro other otherRecord hother
    have h := hinv.stands other otherRecord hother
    by_cases hne : other = label
    · subst hne
      cases hintent.symm.trans hother
      simp only [Stands] at h ⊢
      cases hrow : s.log.at? record.identity with
      | none => simpa only [hrow] using h
      | some row =>
          simp only [hrow] at h ⊢
          have hsubmitting := hopen row hrow
          obtain ⟨hcreation, hbinds, ⟨hverdict, -⟩ | h | ⟨hverdict, -⟩⟩ := h
          · simp [hsubmitting] at hverdict
          · exact ⟨hcreation, hbinds, .inr (.inl h)⟩
          · simp [hsubmitting] at hverdict
    · simpa only [Stands, Quiet, Function.update_of_ne hne] using h
  case attends =>
    intro other otherRecord hother
    by_cases hne : other = label
    · subst hne
      cases hintent.symm.trans hother
      exact hattends
    · have h := hinv.attends other otherRecord hother
      simp only [Attends, hothers other hne] at h ⊢
      cases hsubmitter : s.submitter other with
      | answered handle =>
          simp only [hsubmitter] at h ⊢
          exact h.imp_right (Or.imp_right (hkept _))
      | interrupting current =>
          simp only [hsubmitter] at h ⊢
          exact ⟨h.1, hrefers current h.2⟩
      | begun | sent | declined | refusing =>
          simp only [hsubmitter] at h ⊢
          simpa only [Quiet, Submitting, Function.update_of_ne hne] using h
      | reserved | leaving | ended => trivial
  case machines =>
    intro other handle hmem
    rcases hmachines _ hmem with hold | ⟨rfl, hnone, hin⟩
    · obtain ⟨hallocated, hnone, hin⟩ := hinv.machines other handle hold
      refine ⟨hallocated, hnone, ?_⟩
      by_cases hne : other = label
      · subst hne
        simpa using haccepted hin
      · simpa [Function.update_of_ne hne] using hin
    · refine ⟨?_, hnone, by simpa using hin⟩
      show s.intent other ≠ none
      rw [hintent]
      exact Option.some_ne_none _
  case named =>
    intro run handle hmem
    obtain ⟨hmachine, hread⟩ := hinv.named run handle hmem
    exact ⟨hkept _ hmachine, hrefers run hread⟩
  case unallocated =>
    intro other hnone
    have hne : other ≠ label := by
      rintro rfl
      exact absurd (hintent.symm.trans hnone) (Option.some_ne_none _)
    simpa only [Function.update_of_ne hne] using hinv.unallocated other hnone
  case bound =>
    intro other hother
    by_cases hne : other = label
    · subst hne
      simpa using haccepted (hinv.bound other hother)
    · simpa [Function.update_of_ne hne] using hinv.bound other hother

end Frame

end Provisioning

end Mainboard
