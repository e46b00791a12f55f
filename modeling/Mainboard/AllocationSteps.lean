import Mainboard.AllocationInvariant

/-! What each party of the creation protocol does to the invariant: the claims, the bindings and the interrupt of
the registry's rows, then the submitter's, the provider's and the reaper's own steps. -/

namespace Mainboard

namespace Provisioning

section Steps

variable {lifecycle : Lifecycle} {s : Provisioning}

/-- A claim that wins moved a prepared row. -/
theorem claim_cases {run : RunRecord} {word : Word} {lease : Option Lease} {claimed : Provisioning}
    (h : s.claim lifecycle run word lease = some claimed) :
    ∃ current, s.log.at? run.identity = some current ∧ current.verdict = some Word.prepared.value ∧
      claimed = { s with
        log := s.log.put (current.movedOn word.value lease)
        won := Function.update s.won current.creation (s.won current.creation ++ [word]) } := by
  rcases Registry.prepared_cases s.log lifecycle run word.value lease with
    ⟨refusal, hprepared⟩ | ⟨current, hcurrent, hverdict, hprepared⟩
  · simp only [claim, hprepared] at h
    cases h
  · simp only [claim, hprepared, Option.some.injEq] at h
    exact ⟨current, hcurrent, hverdict, h.symm⟩

/-- A binding that goes through moved a submitting row to the machine's identity. -/
theorem attach_cases {run : RunRecord} {handle : String} {attached : Provisioning}
    (h : s.attach run handle = some attached) :
    ¬ (handle = "" ∨ handle = "None") ∧ ∃ current, s.log.at? run.identity = some current ∧
      current.verdict = some Word.submitting.value ∧
      attached = { s with
        log := (s.log.drop current).put (current.bound handle)
        binds := Function.update s.binds current.creation (s.binds current.creation ++ [handle]) } := by
  rw [attach] at h
  split_ifs at h with hhandle
  refine ⟨hhandle, ?_⟩
  rcases Registry.bind_cases s.log run handle with
    ⟨refusal, hbind⟩ | ⟨current, hcurrent, hverdict, hbind⟩
  · simp only [hbind] at h
    cases h
  · simp only [hbind, Option.some.injEq] at h
    exact ⟨current, hcurrent, hverdict, h.symm⟩

/-- The row a claim may win is the intent row of a quiet label, and no claim on it has won. -/
theorem Inv.prepared_row (hinv : Inv s) {identity : Identity} {row : RunRecord}
    (hrow : s.log.at? identity = some row) (hverdict : row.verdict = some Word.prepared.value) :
    ∃ record, s.intent row.creation = some record ∧ record.identity = identity ∧
      s.Quiet row.creation ∧ s.won row.creation = [] ∧ s.binds row.creation = [] := by
  obtain ⟨record, hintent, rfl⟩ := hinv.intent_of_pending hrow (.inl hverdict)
  have hstands := hinv.stands row.creation record hintent
  simp only [Stands, hrow, hverdict] at hstands
  obtain ⟨-, hbinds, ⟨-, hquiet, hwon⟩ | ⟨h, -⟩ | ⟨h, -⟩⟩ := hstands
  · exact ⟨record, hintent, rfl, hquiet, hwon, hbinds⟩
  · simp at h
  · simp at h

/-- The intent row of a submitting request is the one a binding moves. -/
theorem Inv.submitting_row (hinv : Inv s) {identity : Identity} {row : RunRecord}
    (hrow : s.log.at? identity = some row) (hverdict : row.verdict = some Word.submitting.value) :
    ∃ record, s.intent row.creation = some record ∧ record.identity = identity ∧
      (s.won row.creation).length ≤ 1 ∧ s.binds row.creation = [] := by
  obtain ⟨record, hintent, rfl⟩ := hinv.intent_of_pending hrow (.inr hverdict)
  have hstands := hinv.stands row.creation record hintent
  simp only [Stands, hrow, hverdict] at hstands
  obtain ⟨-, hbinds, ⟨h, -⟩ | ⟨-, hwon⟩ | ⟨h, -⟩⟩ := hstands
  · simp at h
  · exact ⟨record, hintent, rfl, hwon, hbinds⟩
  · simp at h

/-- A submitter whose row is prepared is not past its begin. -/
theorem Inv.attends_prepared (hinv : Inv s) {record row : RunRecord} {label : String}
    (hintent : s.intent label = some record) (hrow : s.log.at? record.identity = some row)
    (hverdict : row.verdict = some Word.prepared.value) {log : Registry} {won : String → List Word} :
    Attends { s with log, won } label record := by
  have hnot : ¬ s.Submitting record := by
    rintro ⟨other, hother, hsubmitting⟩
    rw [hrow] at hother
    cases hother
    simp [hverdict] at hsubmitting
  have h := hinv.attends label record hintent
  simp only [Attends] at h ⊢
  cases hsubmitter : s.submitter label with
  | begun => simp only [hsubmitter] at h; exact absurd h.2 hnot
  | declined => simp only [hsubmitter] at h; exact absurd h.2 hnot
  | refusing current => simp only [hsubmitter] at h; exact absurd h.2.1 hnot
  | sent =>
      simp only [hsubmitter] at h
      have hsubmitting := h.2 row hrow
      simp [hverdict] at hsubmitting
  | answered handle => simpa only [hsubmitter] using h
  | interrupting current => simpa only [hsubmitter, Refers] using h
  | reserved | leaving | ended => trivial

theorem Inv.claim (hinv : Inv s) {run : RunRecord} {word : Word} {lease : Option Lease}
    {claimed : Provisioning} (hword : word = .submitting ∨ word = .failed ∨ word = .cancelled)
    (h : s.claim lifecycle run word lease = some claimed) : Inv claimed := by
  obtain ⟨current, hcurrent, hverdict, rfl⟩ := claim_cases h
  have hsame := Registry.identity_of_at? hcurrent
  obtain ⟨record, hintent, hidentity, hquiet, hwon, hbinds⟩ := hinv.prepared_row hcurrent hverdict
  have hat : ∀ identity, (s.log.put (current.movedOn word.value lease)).at? identity =
      if record.identity = identity then some (current.movedOn word.value lease)
      else s.log.at? identity := by
    intro identity
    rw [Registry.at?_put, RunRecord.identity_movedOn, hsame, hidentity]
  have hcurrent' : s.log.at? record.identity = some current := hidentity ▸ hcurrent
  refine hinv.frame hintent _ s.submitter _ s.binds ?_ ?_ ?_ ?_ (hinv.bound _) ?_
    (hinv.attends_prepared hintent hcurrent' hverdict)
  · intro identity _ hne
    rw [hat, if_neg hne.symm]
  · intro other hne
    exact ⟨rfl, Function.update_of_ne hne _ _, rfl⟩
  · intro identity row hrow
    rw [hat] at hrow
    split_ifs at hrow with heq
    · cases hrow
      exact .inl ⟨record, hintent, heq⟩
    · exact hinv.rows identity row hrow
  · intro identity row hrow hpending
    rw [hat] at hrow
    split_ifs at hrow with heq
    · cases hrow
      exact ⟨current, heq ▸ hcurrent', .inl hverdict, rfl, rfl, rfl⟩
    · exact ⟨row, hrow, hpending, rfl, rfl, rfl⟩
  · simp only [Stands, hat, if_true, Function.update_self, hwon]
    refine ⟨rfl, hbinds, ?_⟩
    rcases hword with rfl | rfl | rfl
    · exact .inr (.inl ⟨rfl, by simp⟩)
    · exact .inr (.inr ⟨.inl rfl, hquiet, by simp⟩)
    · exact .inr (.inr ⟨.inr rfl, hquiet, by simp⟩)

/-- Reopening is done by a submitter whose every request was declined. -/
theorem Inv.reopen (hinv : Inv s) {label : String} {current row : RunRecord} {log : Registry}
    (hsubmitter : s.submitter label = .refusing current) (hallocated : s.intent label ≠ none)
    (h : s.log.reopen current = .ok (log, row)) :
    Inv { s with
      log
      submitter := Function.update s.submitter label .reserved
      won := Function.update s.won row.creation [] } := by
  obtain ⟨record, hintent⟩ := Option.ne_none_iff_exists'.mp hallocated
  have hattends := hinv.attends label record hintent
  simp only [Attends, hsubmitter] at hattends
  obtain ⟨hquiet, -, hread⟩ := hattends
  rcases Registry.transition_cases s.log current .submitting (·.reopened) (.notSubmitting current.creation)
    with ⟨refusal, hreopen⟩ | ⟨stored, hstored, hverdict, hreopen⟩
  · cases hreopen.symm.trans h
  · cases hreopen.symm.trans h
    have hsame := Registry.identity_of_at? hstored
    have hstored' : s.log.at? record.identity = some stored := hread ▸ hstored
    have hcreation : stored.creation = label := by
      have hstands := hinv.stands label record hintent
      simp only [Stands, hstored'] at hstands
      exact hstands.1
    have hbinds : s.binds label = [] := by
      obtain ⟨-, -, -, -, hbinds⟩ := hinv.submitting_row hstored' hverdict
      rwa [hcreation] at hbinds
    have hat : ∀ identity, (s.log.put stored.reopened).at? identity =
        if record.identity = identity then some stored.reopened else s.log.at? identity := by
      intro identity
      rw [Registry.at?_put, RunRecord.identity_reopened, hsame, hread]
    have hlabel : stored.reopened.creation = label := hcreation
    rw [hlabel]
    refine hinv.frame hintent _ _ _ s.binds ?_ ?_ ?_ ?_ (hinv.bound _) ?_ ?_
    · intro identity _ hne
      rw [hat, if_neg hne.symm]
    · intro other hne
      exact ⟨Function.update_of_ne hne _ _, Function.update_of_ne hne _ _, rfl⟩
    · intro identity row hrow
      rw [hat] at hrow
      split_ifs at hrow with heq
      · cases hrow
        exact .inl ⟨record, hlabel ▸ hintent, heq⟩
      · exact hinv.rows identity row hrow
    · intro identity row hrow hpending
      rw [hat] at hrow
      split_ifs at hrow with heq
      · cases hrow
        exact ⟨stored, heq ▸ hstored', .inr hverdict, rfl, rfl, rfl⟩
      · exact ⟨row, hrow, hpending, rfl, rfl, rfl⟩
    · simp only [Stands, hat, if_true, Function.update_self]
      exact ⟨hlabel, hbinds, .inl ⟨rfl, hquiet, trivial⟩⟩
    · simp only [Attends, Function.update_self]

/-- A label with a machine has no submitter that knows its requests declined. -/
theorem Inv.attends_bound (hinv : Inv s) {record : RunRecord} {label : String}
    (hintent : s.intent label = some record) (haccepted : .accepted ∈ s.calls label) {log : Registry}
    {binds : String → List String} (hgone : log.at? record.identity = none) :
    Attends { s with log, binds } label record := by
  have hnot := not_quiet_of_accepted haccepted
  have h := hinv.attends label record hintent
  simp only [Attends] at h ⊢
  cases hsubmitter : s.submitter label with
  | begun => simp only [hsubmitter] at h; exact absurd h.1 hnot
  | declined => simp only [hsubmitter] at h; exact absurd h.1 hnot
  | refusing current => simp only [hsubmitter] at h; exact absurd h.1 hnot
  | sent =>
      simp only [hsubmitter] at h ⊢
      exact ⟨h.1, fun row hrow => absurd (hgone.symm.trans hrow).symm (Option.some_ne_none _)⟩
  | answered handle => simpa only [hsubmitter] using h
  | interrupting current => simpa only [hsubmitter, Refers] using h
  | reserved | leaving | ended => trivial

theorem Inv.attach (hinv : Inv s) {run : RunRecord} {handle : String} {attached : Provisioning}
    (hmachine : ∀ current, s.log.at? run.identity = some current →
      current.verdict = some Word.submitting.value → (current.creation, handle) ∈ s.machines)
    (h : s.attach run handle = some attached) : Inv attached := by
  obtain ⟨-, current, hcurrent, hverdict, rfl⟩ := attach_cases h
  have hmachine := hmachine current hcurrent hverdict
  have hsame := Registry.identity_of_at? hcurrent
  obtain ⟨record, hintent, hidentity, hwon, hbinds⟩ := hinv.submitting_row hcurrent hverdict
  obtain ⟨-, hhandle, haccepted⟩ := hinv.machines _ _ hmachine
  have hnew : ∀ identity : Identity, s.intent identity.handle ≠ none →
      (current.bound handle).identity ≠ identity := by
    rintro identity hallocated rfl
    exact hallocated hhandle
  have hrecord : s.intent record.identity.handle ≠ none := by
    rw [hinv.handle_of_identity hintent, hintent]
    exact Option.some_ne_none _
  have hat := fun identity => Registry.at?_bound s.log current handle identity
  have hgone : ((s.log.drop current).put (current.bound handle)).at? record.identity = none := by
    rw [hat, if_neg (hnew _ hrecord), if_pos (hsame.trans hidentity.symm)]
  refine hinv.frame hintent _ s.submitter s.won _ ?_ ?_ ?_ ?_ (fun _ => haccepted) ?_
    (hinv.attends_bound hintent haccepted hgone)
  · intro identity hallocated hne
    rw [hat, if_neg (hnew identity hallocated), if_neg]
    rw [hsame, ← hidentity]
    exact hne.symm
  · intro other hne
    exact ⟨rfl, rfl, Function.update_of_ne hne _ _⟩
  · intro identity row hrow
    rw [hat] at hrow
    split_ifs at hrow with hbound hdropped
    · cases hrow
      refine .inr ⟨by simp [Pending], ?_, .inl ⟨?_, ?_⟩⟩
      · rw [← hbound]
        exact hhandle
      · rw [← hbound]
        exact hmachine
      · simp [RunRecord.bound]
    · rcases hinv.rows identity row hrow with h | ⟨hresolved, hnone, ⟨hmem, hboundTo⟩ | hfree⟩
      · exact .inl h
      · refine .inr ⟨hresolved, hnone, .inl ⟨hmem, ?_⟩⟩
        by_cases hlabel : row.creation = current.creation
        · simp [hlabel]
        · simpa only [Function.update_of_ne hlabel] using hboundTo
      · exact .inr ⟨hresolved, hnone, .inr hfree⟩
  · intro identity row hrow hpending
    rw [hat] at hrow
    split_ifs at hrow with hbound hdropped
    · cases hrow
      simp [Pending] at hpending
    · exact ⟨row, hrow, hpending, rfl, rfl, rfl⟩
  · simp only [Stands, hgone, Function.update_self, hbinds]
    exact ⟨rfl, hwon⟩

/-- Resolving the machine-bound row of a label touches no intent. -/
theorem Inv.resolve (hinv : Inv s) {run : RunRecord} (hmachine : (run.creation, run.handle) ∈ s.machines) :
    Inv { s with
      log := s.log.after (s.log.resolve lifecycle run (some Word.failed.value) none Word.failed.value) } := by
  obtain ⟨hallocated, hhandle, -⟩ := hinv.machines _ _ hmachine
  obtain ⟨record, hintent⟩ := Option.ne_none_iff_exists'.mp hallocated
  have hat := fun identity => Registry.at?_resolve s.log lifecycle run (some Word.failed.value) none
    Word.failed.value identity
  have hnew : ∀ identity : Identity, s.intent identity.handle ≠ none → run.identity ≠ identity := by
    rintro identity hlabelled rfl
    exact hlabelled hhandle
  have hsame : ∀ identity : Identity, s.intent identity.handle ≠ none →
      (s.log.after (s.log.resolve lifecycle run (some Word.failed.value) none Word.failed.value)).at? identity =
        s.log.at? identity := by
    intro identity hlabelled
    rw [hat, if_neg (hnew identity hlabelled)]
  have hrecord : s.intent record.identity.handle ≠ none := by
    rw [hinv.handle_of_identity hintent, hintent]
    exact Option.some_ne_none _
  have hwas : ∀ identity row,
      (s.log.after (s.log.resolve lifecycle run (some Word.failed.value) none Word.failed.value)).at? identity =
        some row → ∃ old, s.log.at? identity = some old ∧ row.creation = old.creation ∧
          (row = old ∨ s.intent identity.handle = none ∧ ¬ Pending row) := by
    intro identity row hrow
    rw [hat] at hrow
    split_ifs at hrow with hidentity
    · obtain ⟨old, hold, rfl⟩ := Option.map_eq_some_iff.mp hrow
      split_ifs
      · exact ⟨old, hold, rfl, .inr ⟨hidentity ▸ hhandle, by simp [Pending]⟩⟩
      · exact ⟨old, hold, rfl, .inl rfl⟩
    · exact ⟨row, hrow, rfl, .inl rfl⟩
  refine hinv.frame hintent _ s.submitter s.won s.binds (fun identity hlabelled _ => hsame identity hlabelled)
    (fun other _ => ⟨rfl, rfl, rfl⟩) ?_ ?_ (hinv.bound _) ?_ ?_
  · intro identity row hrow
    obtain ⟨old, hold, hcreation, rfl | ⟨hnone, hresolved⟩⟩ := hwas identity row hrow
    · exact hinv.rows identity row hold
    · rcases hinv.rows identity old hold with ⟨other, hother, rfl⟩ | ⟨-, -, hclaimed⟩
      · rw [hinv.handle_of_identity hother, hother] at hnone
        cases hnone
      · rw [← hcreation] at hclaimed
        exact .inr ⟨hresolved, hnone, hclaimed⟩
  · intro identity row hrow hpending
    obtain ⟨old, hold, -, rfl | ⟨-, hresolved⟩⟩ := hwas identity row hrow
    · exact ⟨row, hold, hpending, rfl, rfl, rfl⟩
    · exact absurd hpending hresolved
  · have h := hinv.stands _ record hintent
    simpa only [Stands, Quiet, hsame _ hrecord] using h
  · have h := hinv.attends _ record hintent
    simpa only [Attends, Quiet, Submitting, Refers, hsame _ hrecord] using h

/-- What an interrupted submitter writes keeps the invariant, whatever became of its row since it read it. -/
theorem Inv.interrupt (hinv : Inv s) {current : RunRecord} (hread : s.Refers current) :
    Inv (s.interrupt lifecycle current) := by
  rw [Provisioning.interrupt]
  split_ifs with hprepared hsubmitting hunsettled
  · cases hclaim : s.claim lifecycle current .failed none with
    | none => exact hinv
    | some claimed => exact hinv.claim (.inr (.inl rfl)) hclaim
  · exact hinv
  · refine hinv.resolve (hread.resolve_right ?_)
    rintro ⟨-, -, -, (h | h) | hterminal⟩
    · exact hprepared h
    · exact hsubmitting h
    · simp [RunRecord.unsettled, hterminal] at hunsettled
  · exact hinv

/-- A reservation that goes through meets no pending row of its script and tree on its target. -/
theorem not_duplicated {log : Registry} {record row : RunRecord} {identity : Identity}
    (hfree : log.duplicated record = false) (hrow : log.at? identity = some row) (hpending : Pending row)
    (htarget : row.target = record.target) (hscript : row.script = record.script) :
    row.digest ≠ record.digest := by
  intro hdigest
  have hmem : row ∈ log.on record.target :=
    Registry.mem_on.mpr ⟨Registry.identity_of_at? hrow ▸ hrow, .inr htarget⟩
  have htrue : log.duplicated record = true :=
    List.any_eq_true.mpr ⟨row, hmem, decide_eq_true ⟨hpending, hscript, hdigest⟩⟩
  rw [hfree] at htrue
  cases htrue

/-- A fresh request is reserved beside no pending row of its script and tree. -/
theorem Inv.reserve (hinv : Inv s) {record : RunRecord} (hfresh : s.Fresh record.creation)
    (hhandle : record.handle = record.creation) (hverdict : record.verdict = some Word.prepared.value)
    (hfree : s.log.duplicated record = false) :
    Inv { s with
      log := s.log.put record
      intent := Function.update s.intent record.creation (some record)
      submitter := Function.update s.submitter record.creation .reserved } := by
  obtain ⟨-, hnone, hrowless, hmachineless⟩ := hfresh
  obtain ⟨hcalls, hbinds, hwon⟩ := hinv.unallocated _ hnone
  have hcurrent : ∀ identity row, s.log.at? identity = some row →
      identity.handle ≠ record.creation ∧ row.creation ≠ record.creation := by
    intro identity row hrow
    have hidentity := Registry.identity_of_at? hrow
    have hmem := Registry.mem_newest.mpr (hidentity.symm ▸ hrow)
    rw [← hidentity]
    exact hrowless row hmem
  have hrefers : ∀ run, s.Refers run → Refers { s with
      log := s.log.put record
      intent := Function.update s.intent record.creation (some record)
      submitter := Function.update s.submitter record.creation .reserved } run := by
    rintro run (hmachine | ⟨other, hother, hidentity, hread⟩)
    · exact .inl hmachine
    · have hne : run.creation ≠ record.creation := by
        intro h
        rw [h, hnone] at hother
        cases hother
      exact .inr ⟨other, by simpa only [Function.update_of_ne hne] using hother, hidentity, hread⟩
  have hidentity : ∀ label other, label ≠ record.creation → s.intent label = some other →
      record.identity ≠ other.identity := by
    intro label other hne hother hsame
    have hlabel := congrArg Identity.handle hsame
    rw [hinv.handle_of_identity hother] at hlabel
    exact hne (hlabel.symm.trans hhandle)
  refine {
    rows := ?rows, handles := ?handles, stands := ?stands, attends := ?attends, machines := ?machines,
    named := ?named, unallocated := ?unallocated, bound := hinv.bound, pending := ?pending,
    sends := hinv.sends }
  case rows =>
    intro identity row hrow
    rw [Registry.at?_put] at hrow
    split_ifs at hrow with heq
    · cases hrow
      exact .inl ⟨record, by simp, heq⟩
    · obtain ⟨hother, hcreation⟩ := hcurrent identity row hrow
      rcases hinv.rows identity row hrow with ⟨old, hold, hidentity⟩ | ⟨hresolved, hunlabelled, hclaimed | hfree⟩
      · exact .inl ⟨old, by simpa only [Function.update_of_ne hcreation] using hold, hidentity⟩
      · exact .inr ⟨hresolved, by simpa only [Function.update_of_ne hother] using hunlabelled, .inl hclaimed⟩
      · exact .inr ⟨hresolved, by simpa only [Function.update_of_ne hother] using hunlabelled,
          .inr (by simpa only [Function.update_of_ne hcreation] using hfree)⟩
  case handles =>
    intro label other hother
    by_cases hne : label = record.creation
    · subst hne
      obtain rfl : record = other := by simpa using hother
      exact hhandle
    · exact hinv.handles label other (by simpa only [Function.update_of_ne hne] using hother)
  case stands =>
    intro label other hother
    by_cases hne : label = record.creation
    · subst hne
      obtain rfl : record = other := by simpa using hother
      simp [Stands, Quiet, hcalls, hbinds, hwon, hverdict]
    · have hold : s.intent label = some other := by simpa only [Function.update_of_ne hne] using hother
      have h := hinv.stands label other hold
      simpa only [Stands, Quiet, Registry.at?_put, if_neg (hidentity label other hne hold)] using h
  case attends =>
    intro label other hother
    by_cases hne : label = record.creation
    · subst hne
      simp [Attends]
    · have hold : s.intent label = some other := by simpa only [Function.update_of_ne hne] using hother
      have h := hinv.attends label other hold
      simp only [Attends, Function.update_of_ne hne] at h ⊢
      cases hsubmitter : s.submitter label with
      | interrupting current =>
          simp only [hsubmitter] at h ⊢
          exact ⟨h.1, hrefers current h.2⟩
      | begun | sent | declined | refusing | answered =>
          simp only [hsubmitter] at h ⊢
          simpa only [Quiet, Submitting, Registry.at?_put, if_neg (hidentity label other hne hold)] using h
      | reserved | leaving | ended => trivial
  case machines =>
    intro label handle hmem
    obtain ⟨hallocated, hunlabelled, haccepted⟩ := hinv.machines label handle hmem
    have hlabel : label ≠ record.creation := fun h => hallocated (h ▸ hnone)
    have hother : handle ≠ record.creation := hmachineless (label, handle) hmem
    refine ⟨?_, ?_, haccepted⟩
    · simpa only [Function.update_of_ne hlabel] using hallocated
    · simpa only [Function.update_of_ne hother] using hunlabelled
  case named =>
    intro run handle hmem
    obtain ⟨hmachine, hread⟩ := hinv.named run handle hmem
    exact ⟨hmachine, hrefers run hread⟩
  case unallocated =>
    intro label hunallocated
    have hne : label ≠ record.creation := by
      rintro rfl
      simp at hunallocated
    exact hinv.unallocated label (by simpa only [Function.update_of_ne hne] using hunallocated)
  case pending =>
    intro left right leftRow rightRow hleft hright hleftPending hrightPending htarget hscript hdigest
    rw [Registry.at?_put] at hleft hright
    split_ifs at hleft hright with heqLeft heqRight heqRight
    · exact heqLeft.symm.trans heqRight
    · cases hleft
      exact absurd hdigest.symm (not_duplicated hfree hright hrightPending htarget.symm hscript.symm)
    · cases hright
      exact absurd hdigest (not_duplicated hfree hleft hleftPending htarget hscript)
    · exact hinv.pending left right leftRow rightRow hleft hright hleftPending hrightPending htarget hscript
        hdigest

/-- What the registry answers for a label is a current row of that creation. -/
theorem named_ok {log : Registry} {label target : String} {run : RunRecord}
    (h : log.named label target = .ok run) : log.at? run.identity = some run ∧ run.creation = label := by
  simp only [Registry.named] at h
  split at h
  next found hfound =>
      cases h
      refine ⟨(Registry.mem_on.mp (List.mem_of_find?_eq_some hfound)).1, ?_⟩
      simpa using List.find?_some hfound
  next => cases h

/-- A row just read by its label is the label's intent row or a row bound to one of its machines. -/
theorem Inv.refers_of_current (hinv : Inv s) {run : RunRecord} (hrow : s.log.at? run.identity = some run)
    (hallocated : s.intent run.creation ≠ none) : s.Refers run := by
  rcases hinv.rows run.identity run hrow with ⟨record, hintent, hidentity⟩ | ⟨-, -, ⟨hmachine, -⟩ | hnone⟩
  · refine .inr ⟨record, hintent, hidentity, ?_⟩
    have hstands := hinv.stands run.creation record hintent
    simp only [Stands, hidentity, hrow] at hstands
    obtain ⟨-, -, ⟨h, -⟩ | ⟨h, -⟩ | ⟨h | h, -⟩⟩ := hstands
    · exact .inl (.inl h)
    · exact .inl (.inr h)
    · exact .inr (by rw [h]; rfl)
    · exact .inr (by rw [h]; rfl)
  · exact .inl hmachine
  · exact absurd hnone hallocated

theorem Inv.creation_of_row (hinv : Inv s) {label : String} {record row : RunRecord}
    (hintent : s.intent label = some record) (hrow : s.log.at? record.identity = some row) :
    row.creation = label := by
  have hstands := hinv.stands label record hintent
  simp only [Stands, hrow] at hstands
  exact hstands.1

/-- A claim to SUBMITTING that wins leaves the submitter with a submitting row and no request open. -/
theorem Inv.begin (hinv : Inv s) {label : String} {record : RunRecord} {lease : Option Lease}
    {begun : Provisioning} (hintent : s.intent label = some record)
    (h : s.claim lifecycle record .submitting lease = some begun) : Inv (begun.moveTo label .begun) := by
  have hclaimed := hinv.claim (.inl rfl) h
  obtain ⟨current, hcurrent, hverdict, rfl⟩ := claim_cases h
  refine hclaimed.moveTo ?_
  intro other hother
  obtain rfl : record = other := Option.some.inj (hintent.symm.trans hother)
  obtain ⟨-, -, -, hquiet, -⟩ := hinv.prepared_row hcurrent hverdict
  rw [hinv.creation_of_row hintent hcurrent] at hquiet
  simp only [Attends, Provisioning.moveTo, Function.update_self]
  refine ⟨hquiet, current.movedOn Word.submitting.value lease, ?_, rfl⟩
  rw [Registry.at?_put, RunRecord.identity_movedOn, if_pos (Registry.identity_of_at? hcurrent)]

theorem Inv.send (hinv : Inv s) {label : String} {record : RunRecord}
    (hintent : s.intent label = some record) (hsubmitter : s.submitter label = .begun) :
    Inv { s with
      submitter := Function.update s.submitter label .sent
      calls := Function.update s.calls label (s.calls label ++ [.inFlight])
      sends := s.sends ++ [(label, (s.log.at? record.identity).bind (·.verdict))] } := by
  have hattends := hinv.attends label record hintent
  simp only [Attends, hsubmitter] at hattends
  obtain ⟨hquiet, row, hrow, hverdict⟩ := hattends
  have hopen : ∀ row, s.log.at? record.identity = some row →
      row.verdict = some Word.submitting.value := by
    intro other hother
    rw [hrow] at hother
    cases hother
    exact hverdict
  refine hinv.called hintent _ _ s.machines _ hopen (fun other hne => Function.update_of_ne hne _ _) ?_
    (fun machine hmem => hmem) (fun machine hmem => .inl hmem) ?_ ?_
  · exact fun haccepted => List.mem_append_left _ haccepted
  · intro sent hsent
    rcases List.mem_append.mp hsent with hold | hnew
    · exact hinv.sends sent hold
    · rw [List.mem_singleton.mp hnew, hrow]
      exact hverdict
  · simp only [Attends, Function.update_self, List.dropLast_concat]
    exact ⟨hquiet, hopen⟩

/-- A label with a request not declined has no intent row but a submitting one. -/
theorem Inv.open_row (hinv : Inv s) {label : String} {record : RunRecord}
    (hintent : s.intent label = some record) (hloud : ¬ s.Quiet label) :
    ∀ row, s.log.at? record.identity = some row → row.verdict = some Word.submitting.value := by
  intro row hrow
  have hstands := hinv.stands label record hintent
  simp only [Stands, hrow] at hstands
  obtain ⟨-, -, ⟨-, hquiet, -⟩ | ⟨hverdict, -⟩ | ⟨-, hquiet, -⟩⟩ := hstands
  · exact absurd hquiet hloud
  · exact hverdict
  · exact absurd hquiet hloud

/-- A provider's answer to one request touches only the request and, if it made one, its machine. -/
theorem Inv.answer (hinv : Inv s) {label : String} {call : Nat} {was now : Call}
    {machines : List (String × String)} (hcall : (s.calls label)[call]? = some was)
    (hopen : was ≠ .declined) (hnow : was = .accepted → now = .accepted)
    (hkept : ∀ machine ∈ s.machines, machine ∈ machines)
    (hmachines : ∀ machine ∈ machines, machine ∈ s.machines ∨
      machine.1 = label ∧ s.intent machine.2 = none ∧ now = .accepted) :
    Inv { s with machines, calls := Function.update s.calls label ((s.calls label).set call now) } := by
  have hloud : ¬ s.Quiet label := fun hquiet => hopen (hquiet was (List.mem_of_getElem? hcall))
  have hallocated : s.intent label ≠ none := by
    intro hnone
    rw [(hinv.unallocated label hnone).1] at hcall
    simp at hcall
  obtain ⟨record, hintent⟩ := Option.ne_none_iff_exists'.mp hallocated
  have hlength : call < (s.calls label).length := (List.getElem?_eq_some_iff.mp hcall).1
  have hset : now = .accepted → .accepted ∈ (s.calls label).set call now := by
    rintro rfl
    exact List.mem_set hlength _
  refine hinv.called hintent s.submitter _ machines s.sends (hinv.open_row hintent hloud) (fun _ _ => rfl)
    ?_ hkept ?_ hinv.sends ?_
  · intro haccepted
    obtain ⟨index, hindex⟩ := List.mem_iff_getElem?.mp haccepted
    by_cases hsame : call = index
    · rw [← hsame, hcall] at hindex
      exact hset (hnow (Option.some.inj hindex))
    · exact List.mem_of_getElem? ((List.getElem?_set_ne hsame).trans hindex)
  · intro machine hmem
    exact (hmachines machine hmem).imp_right fun h => ⟨h.1, h.2.1, hset h.2.2⟩
  · have hattends := hinv.attends label record hintent
    simp only [Attends] at hattends ⊢
    cases hsubmitter : s.submitter label with
    | begun => simp only [hsubmitter] at hattends; exact absurd hattends.1 hloud
    | declined => simp only [hsubmitter] at hattends; exact absurd hattends.1 hloud
    | refusing current => simp only [hsubmitter] at hattends; exact absurd hattends.1 hloud
    | sent =>
        simp only [hsubmitter, Function.update_self] at hattends ⊢
        refine ⟨?_, hattends.2⟩
        -- the request answered is the last one, since those before it were declined
        have hlast : (s.calls label).length - 1 ≤ call := by
          by_contra hbefore
          have hin : (s.calls label).dropLast[call]? = some was := by
            rw [List.getElem?_dropLast, if_pos (not_le.mp hbefore)]
            exact hcall
          exact hopen (hattends.1 was (List.mem_of_getElem? hin))
        rw [List.dropLast_eq_take, List.length_set, List.take_set_of_le hlast, ← List.dropLast_eq_take]
        exact hattends.1
    | answered handle =>
        simp only [hsubmitter] at hattends ⊢
        exact hattends.imp_right (Or.imp_right (hkept _))
    | interrupting current =>
        simp only [hsubmitter] at hattends ⊢
        exact ⟨hattends.1, hattends.2.imp_left (hkept _)⟩
    | reserved | leaving | ended => trivial

/-- A submitter whose last request was declined has a quiet label and a submitting row. -/
theorem Inv.replyRefused (hinv : Inv s) {label : String} (hsubmitter : s.submitter label = .sent)
    (hdeclined : (s.calls label).getLast? = some .declined) : Inv (s.moveTo label .declined) := by
  refine hinv.moveTo ?_
  intro record hintent
  have hattends := hinv.attends label record hintent
  simp only [Attends, hsubmitter] at hattends
  have hquiet : s.Quiet label := by
    intro call hcall
    obtain ⟨earlier, hcalls⟩ := List.getLast?_eq_some_iff.mp hdeclined
    rw [hcalls] at hcall hattends
    rcases List.mem_append.mp hcall with hold | hlast
    · exact hattends.1 call (by rwa [List.dropLast_concat])
    · exact List.mem_singleton.mp hlast
  obtain ⟨row, hrow⟩ := hinv.row_of_quiet hintent hquiet
  simp only [Attends, Provisioning.moveTo, Function.update_self]
  exact ⟨hquiet, row, hrow, hattends.2 row hrow⟩

/-- The reaper binds a machine only to the request it was created for. -/
theorem Inv.creation_of_named (hinv : Inv s) {run current : RunRecord} (hread : s.Refers run)
    (hcurrent : s.log.at? run.identity = some current)
    (hverdict : current.verdict = some Word.submitting.value) : current.creation = run.creation := by
  obtain ⟨record, hintent, hidentity, -⟩ := hinv.submitting_row hcurrent hverdict
  have hhandle : run.handle = current.creation := by
    rw [← hinv.handle_of_identity hintent, hidentity]
    rfl
  rcases hread with hmachine | ⟨other, hother, hsame, -⟩
  · have hnone := (hinv.machines _ _ hmachine).2.1
    rw [hhandle, hintent] at hnone
    cases hnone
  · rw [← hhandle, ← hinv.handle_of_identity hother, hsame]
    rfl

/-- A submitter that holds nothing may stand anywhere. -/
theorem Inv.rests (hinv : Inv s) (label : String) {next : Submitter}
    (hnext : next = .reserved ∨ next = .leaving ∨ next = .ended) : Inv (s.moveTo label next) := by
  refine hinv.moveTo fun record _ => ?_
  simp only [Attends, Provisioning.moveTo, Function.update_self]
  rcases hnext with rfl | rfl | rfl
  · trivial
  · trivial
  · trivial

/-- The provider allocates a machine for a request it has not declined. -/
theorem Inv.accept (hinv : Inv s) {label handle : String} {call : Nat}
    (hopen : (s.calls label)[call]? = some .inFlight ∨ (s.calls label)[call]? = some .accepted)
    (hhandle : s.intent handle = none) :
    Inv { s with
      calls := Function.update s.calls label ((s.calls label).set call .accepted)
      machines := s.machines ++ [(label, handle)] } := by
  have hkept : ∀ machine ∈ s.machines, machine ∈ s.machines ++ [(label, handle)] :=
    fun machine hmem => List.mem_append_left _ hmem
  have hmachines : ∀ machine ∈ s.machines ++ [(label, handle)], machine ∈ s.machines ∨
      machine.1 = label ∧ s.intent machine.2 = none ∧ Call.accepted = .accepted := by
    intro machine hmem
    rcases List.mem_append.mp hmem with hold | hnew
    · exact .inl hold
    · obtain rfl := List.mem_singleton.mp hnew
      exact .inr ⟨rfl, hhandle, rfl⟩
  rcases hopen with hcall | hcall
  · exact hinv.answer hcall (by decide) (by decide) hkept hmachines
  · exact hinv.answer hcall (by decide) (fun _ => rfl) hkept hmachines

/-- A declined submitter that reads its row still submitting may reopen it. -/
theorem Inv.refused (hinv : Inv s) {label : String} {record current : RunRecord}
    (hintent : s.intent label = some record) (hsubmitter : s.submitter label = .declined)
    (hnamed : s.log.named label record.target = .ok current)
    (hverdict : current.verdict = some Word.submitting.value) : Inv (s.moveTo label (.refusing current)) := by
  obtain ⟨hrow, hcreation⟩ := named_ok hnamed
  obtain ⟨other, hother, hidentity, -⟩ := hinv.submitting_row hrow hverdict
  rw [hcreation] at hother
  have hattends := hinv.attends label record hintent
  simp only [Attends, hsubmitter] at hattends
  refine hinv.moveTo fun known hknown => ?_
  obtain rfl : record = known := Option.some.inj (hintent.symm.trans hknown)
  obtain rfl : record = other := Option.some.inj (hintent.symm.trans hother)
  simp only [Attends, Provisioning.moveTo, Function.update_self]
  exact ⟨hattends.1, hattends.2, hidentity.symm⟩

/-- A submitter told of a machine binds the row it submitted to it. -/
theorem Inv.created (hinv : Inv s) {label handle : String} {record : RunRecord} {bound : Provisioning}
    (hintent : s.intent label = some record) (hsubmitter : s.submitter label = .answered handle)
    (hattach : s.attach record handle = some bound) : Inv (bound.moveTo label .leaving) := by
  have hattends := hinv.attends label record hintent
  simp only [Attends, hsubmitter] at hattends
  obtain ⟨hnamed, -⟩ := attach_cases hattach
  refine (hinv.attach ?_ hattach).rests label (.inr (.inl rfl))
  intro current hcurrent _
  rw [hinv.creation_of_row hintent hcurrent]
  tauto

/-- A submitter that leaves reads the row it may have to settle. -/
theorem Inv.interrupted (hinv : Inv s) {label : String} {record current : RunRecord}
    (hintent : s.intent label = some record) (hnamed : s.log.named label record.target = .ok current) :
    Inv (s.moveTo label (.interrupting current)) := by
  obtain ⟨hrow, hcreation⟩ := named_ok hnamed
  refine hinv.moveTo fun known _ => ?_
  simp only [Attends, Provisioning.moveTo, Function.update_self]
  refine ⟨hcreation, hinv.refers_of_current hrow ?_⟩
  rw [hcreation, hintent]
  exact Option.some_ne_none _

/-- The reaper reads the row of a machine it found by the machine's label. -/
theorem Inv.reapNamed (hinv : Inv s) {label target handle : String} {run : RunRecord}
    (hmachine : (label, handle) ∈ s.machines) (hnamed : s.log.named label target = .ok run) :
    Inv { s with named := s.named ++ [(run, handle)] } := by
  obtain ⟨hrow, hcreation⟩ := named_ok hnamed
  refine { hinv with named := ?_ }
  intro other known hmem
  rcases List.mem_append.mp hmem with hold | hnew
  · exact hinv.named other known hold
  · obtain ⟨rfl, rfl⟩ := Prod.mk.inj (List.mem_singleton.mp hnew)
    refine ⟨hcreation ▸ hmachine, hinv.refers_of_current hrow ?_⟩
    rw [hcreation]
    exact (hinv.machines label known hmachine).1

/-- The reaper binds the row it read to the machine it read it for. -/
theorem Inv.reapCreated (hinv : Inv s) {run : RunRecord} {handle : String} {attached : Provisioning}
    (hnamed : (run, handle) ∈ s.named) (hattach : s.attach run handle = some attached) : Inv attached := by
  obtain ⟨hmachine, hread⟩ := hinv.named run handle hnamed
  refine hinv.attach ?_ hattach
  intro current hcurrent hverdict
  rw [hinv.creation_of_named hread hcurrent hverdict]
  exact hmachine

end Steps

end Provisioning

end Mainboard
