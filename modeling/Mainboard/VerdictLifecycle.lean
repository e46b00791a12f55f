import Mainboard.HeldPlaceholder
import Mainboard.Runs
import Mathlib.Tactic.Tauto

/-! The verdict stored for a run identity, over every interleaving of the registry's operations and of
holds. The operations that check the stored word keep to the table of moves; the four that write a
whole row (a record, a reservation, a hold, the new identity of a binding) keep to it exactly when
the row they meet may make the move. -/

namespace Mainboard

/-- The moves a stored verdict may make: off no verdict at all, to itself, or along the table. -/
def Moved (before after : Option String) : Prop :=
  before = none ∨ after = before ∨
    ∃ word next : Word, before = some word.value ∧ after = some next.value ∧ Word.Transition word next

theorem Moved.refl (verdict : Option String) : Moved verdict verdict := .inr (.inl rfl)

/-- A settled verdict never changes to another one. -/
theorem Moved.settled {before after : Option String} (h : Moved before after)
    (hsettled : terminal before = true) : after = before := by
  rcases h with rfl | rfl | ⟨word, next, rfl, rfl, hnext⟩
  · simp at hsettled
  · rfl
  · rw [terminal_value] at hsettled
    exact absurd hnext (Word.not_transition_of_settled hsettled)

/-- Nothing but an unresolved row and a held one may be recorded as held. -/
theorem moved_held {before : Option String} :
    Moved before (some Word.held.value) ↔ before = none ∨ before = some Word.held.value := by
  constructor
  · rintro (h | h | ⟨word, next, -, hnext, htransition⟩)
    · exact .inl h
    · exact .inr h.symm
    · obtain rfl : Word.held = next := Word.value_injective (Option.some.inj hnext)
      exact absurd htransition (Word.not_transition_held word)
  · rintro (h | h)
    · exact .inl h
    · exact .inr (.inl h.symm)

/-- The check before a resolve asks exactly for a move of the table. -/
theorem reaches_iff {lifecycle : Lifecycle} {current : Option String} {verdict : String} :
    reaches lifecycle current verdict = true ↔ Moved current (some verdict) := by
  cases current with
  | none => simp [reaches, Moved]
  | some text =>
      simp only [reaches, Moved, Bool.or_eq_true, decide_eq_true_eq, reduceCtorEq, Option.some.injEq,
        false_or]
      refine or_congr_right ⟨fun h => ?_, ?_⟩
      · split at h
        next word next hword hnext =>
          exact ⟨word, next, (Word.ofValue_eq_some.mp hword).symm, (Word.ofValue_eq_some.mp hnext).symm,
            (lifecycle.allowed_iff word next).mp h⟩
        next => cases h
      · rintro ⟨word, next, rfl, rfl, htransition⟩
        simp only [Word.ofValue_value]
        exact (lifecycle.allowed_iff word next).mpr htransition

/-- One call of the registry, with its arguments, or one half of a hold. -/
inductive Operation
  | record (run : RunRecord)
  | resolve (run : RunRecord) (state : Option String) (exitCode : Option Int) (verdict : String)
  | report (run : RunRecord) (verdict : String)
  | delivery (run : RunRecord) (status : String)
  | relet (run : RunRecord) (lease : Lease)
  | prepared (run : RunRecord) (verdict : String) (lease : Option Lease)
  | reopen (run : RunRecord)
  | bind (run : RunRecord) (handle : String)
  | reserve (run : RunRecord)
  | forget (run : RunRecord)
  | hold (asked : Request) (reason project : String) (now : Int)
  | held (index : Nat)

/-- The registry, and the holds that have read it and not yet written. -/
structure Workspace where
  log : Registry
  holding : List Holding

namespace Workspace

variable (lifecycle : Lifecycle) (digest : String → String)

/-- What the checked operations answer or raise; the others answer nothing. -/
def outcome (s : Workspace) : Operation → Option Registry.Outcome
  | .resolve run state exitCode verdict => some (s.log.resolve lifecycle run state exitCode verdict)
  | .report run verdict => some (s.log.report run verdict)
  | .delivery run status => some (s.log.delivery run status)
  | .relet run lease => some (s.log.relet run lease)
  | .prepared run verdict lease => some (s.log.prepared lifecycle run verdict lease)
  | .reopen run => some (s.log.reopen run)
  | .bind run handle => some (s.log.bind run handle)
  | .reserve run => some (s.log.reserve run)
  | .record _ | .forget _ | .hold .. | .held _ => none

/-- One operation of one process. -/
def step (s : Workspace) : Operation → Workspace
  | .record run => { s with log := s.log.record run }
  | .resolve run state exitCode verdict =>
      { s with log := s.log.after (s.log.resolve lifecycle run state exitCode verdict) }
  | .report run verdict => { s with log := s.log.after (s.log.report run verdict) }
  | .delivery run status => { s with log := s.log.after (s.log.delivery run status) }
  | .relet run lease => { s with log := s.log.after (s.log.relet run lease) }
  | .prepared run verdict lease => { s with log := s.log.after (s.log.prepared lifecycle run verdict lease) }
  | .reopen run => { s with log := s.log.after (s.log.reopen run) }
  | .bind run handle => { s with log := s.log.after (s.log.bind run handle) }
  | .reserve run => { s with log := s.log.after (s.log.reserve run) }
  | .forget run => { s with log := s.log.forget run }
  | .hold asked reason project now =>
      { s with holding := s.holding ++ [s.log.hold digest asked reason project now] }
  | .held index =>
      match s.holding[index]? with
      | some holding => ⟨s.log.held digest holding, s.holding.eraseIdx index⟩
      | none => s

/-- The verdict an operation asks to move a row to. -/
def askedVerdict : Operation → Option String
  | .resolve _ _ _ verdict => some verdict
  | .prepared _ verdict _ => some verdict
  | .reopen _ => some Word.prepared.value
  | .bind _ _ => some Word.queued.value
  | _ => none

/-- The operation raised, or answered a record that did not move to the verdict asked for. -/
def Refuses (s : Workspace) (operation : Operation) : Prop :=
  match s.outcome lifecycle operation with
  | some (.error _) => True
  | some (.ok (_, answer)) => ∃ verdict, askedVerdict operation = some verdict ∧ answer.verdict ≠ some verdict
  | none => False

/-- Every identity recorded on both sides of a step moved along the table. -/
def Preserves (log log' : Registry) : Prop :=
  ∀ identity before after, log.at? identity = some before → log'.at? identity = some after →
    Moved before.verdict after.verdict

/-- What the lifecycle asks of one step: stored verdicts move along the table, a settled one stays, and
a refused move leaves the whole registry as it was. -/
structure Lawful (s : Workspace) (operation : Operation) : Prop where
  moves : Preserves s.log (step lifecycle digest s operation).log
  settled : ∀ identity before after, s.log.at? identity = some before →
    (step lifecycle digest s operation).log.at? identity = some after →
    terminal before.verdict = true → after.verdict = before.verdict
  refused : Refuses lifecycle s operation → (step lifecycle digest s operation).log = s.log

/-- The row `run` is written over may move to the verdict it is written with. -/
def Admits (log : Registry) (run : RunRecord) : Prop :=
  ∀ stored, log.at? run.identity = some stored → Moved stored.verdict run.verdict

/-- What the unchecked writes need: a record, a reservation and the new identity of a binding meet no
row they may not move, a hold meets no row but an unresolved or a held one. -/
def Guarded (s : Workspace) : Operation → Prop
  | .record run => Admits s.log run
  | .reserve run => s.log.duplicated run = false → Admits s.log run
  | .bind run handle => ∀ current, s.log.at? run.identity = some current →
      current.verdict = some Word.submitting.value → handle ≠ run.handle →
        Admits s.log (current.bound handle)
  | .held index => ∀ holding stored, s.holding[index]? = some holding →
      s.log.at? (holding.placeholder digest).identity = some stored →
        stored.verdict = none ∨ stored.verdict = some Word.held.value
  | _ => True

/-- Every whole row is written under an identity the registry does not know. -/
def Fresh (s : Workspace) : Operation → Prop
  | .record run => s.log.at? run.identity = none
  | .reserve run => s.log.duplicated run = false → s.log.at? run.identity = none
  | .bind run handle => ∀ current, s.log.at? run.identity = some current → handle ≠ run.handle →
      s.log.at? (current.bound handle).identity = none
  | .held index => ∀ holding, s.holding[index]? = some holding →
      s.log.at? (holding.placeholder digest).identity = none
  | _ => True

section Steps

variable {lifecycle digest} {log : Registry} {run : RunRecord}

theorem preserves_refl (log : Registry) : Preserves log log := by
  intro identity before after hbefore hafter
  rw [hbefore] at hafter
  cases hafter
  exact Moved.refl _

/-- Writing a whole row keeps to the table exactly when the row it meets may move there. -/
theorem preserves_put : Preserves log (log.put run) ↔ Admits log run := by
  constructor
  · intro h stored hstored
    exact h run.identity stored run hstored (by simp)
  · intro h identity before after hbefore hafter
    rw [Registry.at?_put] at hafter
    split_ifs at hafter with hidentity
    · cases hafter
      exact h before (hidentity ▸ hbefore)
    · exact preserves_refl log identity before after hbefore hafter

theorem preserves_drop : Preserves log (log.drop run) := by
  intro identity before after hbefore hafter
  rw [Registry.at?_drop] at hafter
  split_ifs at hafter
  exact preserves_refl log identity before after hbefore hafter

/-- An operation that rewrites one row in place keeps to the table when its update does. -/
theorem preserves_of_map {log' : Registry} {update : RunRecord → RunRecord}
    (h : ∀ identity, log'.at? identity =
      if run.identity = identity then (log.at? identity).map update else log.at? identity)
    (hupdate : ∀ current, Moved current.verdict (update current).verdict) : Preserves log log' := by
  intro identity before after hbefore hafter
  obtain rfl | rfl := Registry.row_of_map (h identity) hbefore hafter
  · exact hupdate before
  · exact Moved.refl _

theorem preserves_resolve (state : Option String) (exitCode : Option Int) (verdict : String) :
    Preserves log (log.after (log.resolve lifecycle run state exitCode verdict)) := by
  refine preserves_of_map (Registry.at?_resolve log lifecycle run state exitCode verdict) ?_
  intro current
  split_ifs with hreaches
  · exact reaches_iff.mp hreaches
  · exact Moved.refl _

theorem preserves_report (verdict : String) : Preserves log (log.after (log.report run verdict)) :=
  preserves_of_map (Registry.at?_report run verdict) fun current => Moved.refl current.verdict

theorem preserves_delivery (status : String) : Preserves log (log.after (log.delivery run status)) :=
  preserves_of_map (Registry.at?_delivery run status) fun current => Moved.refl current.verdict

theorem preserves_relet (lease : Lease) : Preserves log (log.after (log.relet run lease)) :=
  preserves_of_map (Registry.at?_relet run lease) fun current => Moved.refl current.verdict

theorem preserves_prepared (verdict : String) (lease : Option Lease) :
    Preserves log (log.after (log.prepared lifecycle run verdict lease)) := by
  refine preserves_of_map (Registry.at?_prepared run verdict lease) ?_
  intro current
  split_ifs with hprepared
  · rw [hprepared.2]
    exact reaches_iff.mp hprepared.1
  · exact Moved.refl _

theorem preserves_reopen : Preserves log (log.after (log.reopen run)) := by
  refine preserves_of_map (Registry.at?_reopen run) ?_
  intro current
  split_ifs with hsubmitting
  · rw [hsubmitting]
    exact .inr (.inr ⟨.submitting, .prepared, rfl, rfl, by decide⟩)
  · exact Moved.refl _

theorem preserves_reserve : Preserves log (log.after (log.reserve run)) ↔
    (log.duplicated run = false → Admits log run) := by
  rcases Registry.reserve_cases log run with ⟨hduplicated, refusal, hreserve⟩ | ⟨hfree, hreserve⟩
  · rw [hreserve, hduplicated]
    simp only [Registry.after, preserves_refl, Bool.true_eq_false, false_implies]
  · rw [hreserve, hfree]
    simp only [Registry.after, preserves_put, true_implies]

/-- The identity a binding leaves is dropped and the one it takes is written, so only the row met at
the new handle can be moved off the table. -/
theorem preserves_bind (handle : String) : Preserves log (log.after (log.bind run handle)) ↔
    ∀ current, log.at? run.identity = some current → current.verdict = some Word.submitting.value →
      handle ≠ run.handle → Admits log (current.bound handle) := by
  rcases Registry.bind_cases log run handle with ⟨refusal, hbind⟩ | ⟨current, hcurrent, hverdict, hbind⟩
  · rw [hbind]
    refine iff_of_true (preserves_refl log) ?_
    intro current hcurrent hverdict
    simp [Registry.bind, hcurrent, hverdict] at hbind
  · rw [hbind]
    have hsame : current.identity = run.identity := Registry.identity_of_at? hcurrent
    by_cases hhandle : handle = run.handle
    · refine iff_of_true ?_ fun _ _ _ hne => absurd hhandle hne
      intro identity before after hbefore hafter
      simp only [Registry.after, Registry.at?_bound] at hafter
      split_ifs at hafter with hbound hdropped
      · have hidentity : run.identity = identity := by
          rw [← hbound, ← hsame, RunRecord.identity_eq_iff]
          exact ⟨rfl, (RunRecord.identity_eq_iff.mp hsame).2.1.trans hhandle.symm, rfl⟩
        rw [← hidentity, hcurrent] at hbefore
        cases hbefore
        cases hafter
        rw [hverdict]
        exact .inr (.inr ⟨.submitting, .queued, rfl, rfl, by decide⟩)
      · exact preserves_refl log identity before after hbefore hafter
    · have hother : current.identity ≠ (current.bound handle).identity := by
        intro h
        exact hhandle ((RunRecord.identity_eq_iff.mp h).2.1.symm.trans (RunRecord.identity_eq_iff.mp hsame).2.1)
      constructor
      · intro h known hknown _ _
        rw [hcurrent] at hknown
        cases hknown
        intro stored hstored
        exact h (current.bound handle).identity stored (current.bound handle) hstored
          (by simp only [Registry.after, Registry.at?_bound, if_pos])
      · intro h identity before after hbefore hafter
        have hadmits := h current hcurrent hverdict hhandle
        simp only [Registry.after, Registry.at?_bound] at hafter
        split_ifs at hafter with hbound hdropped
        · cases hafter
          exact hadmits before (hbound ▸ hbefore)
        · exact preserves_refl log identity before after hbefore hafter

theorem resolve_verdict {state : Option String} {exitCode : Option Int} {verdict : String}
    {written : Registry} {answer : RunRecord}
    (h : log.resolve lifecycle run state exitCode verdict = .ok (written, answer)) :
    answer.verdict = some verdict ∨ written = log := by
  simp only [Registry.resolve, Registry.change] at h
  split at h
  · cases h
  · split_ifs at h
    · cases h
      exact .inr rfl
    · cases h
      exact .inl rfl

theorem prepared_verdict {verdict : String} {lease : Option Lease} {written : Registry}
    {answer : RunRecord} (h : log.prepared lifecycle run verdict lease = .ok (written, answer)) :
    answer.verdict = some verdict := by
  rcases Registry.prepared_cases log lifecycle run verdict lease with
    ⟨refusal, hprepared⟩ | ⟨current, -, -, hprepared⟩
  · rw [hprepared] at h
    cases h
  · rw [hprepared] at h
    cases h
    rfl

theorem reopen_verdict {written : Registry} {answer : RunRecord}
    (h : log.reopen run = .ok (written, answer)) : answer.verdict = some Word.prepared.value := by
  rcases Registry.transition_cases log run .submitting (·.reopened) (.notSubmitting run.creation) with
    ⟨refusal, hreopen⟩ | ⟨current, -, -, hreopen⟩
  · cases hreopen.symm.trans h
  · cases hreopen.symm.trans h
    rfl

theorem bind_verdict {handle : String} {written : Registry} {answer : RunRecord}
    (h : log.bind run handle = .ok (written, answer)) : answer.verdict = some Word.queued.value := by
  rcases Registry.bind_cases log run handle with ⟨refusal, hbind⟩ | ⟨current, -, -, hbind⟩
  · rw [hbind] at h
    cases h
  · rw [hbind] at h
    cases h
    rfl

/-- A move that is refused, by raising or by answering the record as it stands, writes nothing. -/
theorem step_of_refuses {s : Workspace} {operation : Operation} (h : Refuses lifecycle s operation) :
    (step lifecycle digest s operation).log = s.log := by
  cases operation with
  | resolve run state exitCode verdict =>
      simp only [Refuses, outcome, step] at h ⊢
      cases hresolve : s.log.resolve lifecycle run state exitCode verdict with
      | error refusal => rfl
      | ok written =>
          simp only [hresolve, askedVerdict] at h
          obtain ⟨_, ⟨⟩, hverdict⟩ := h
          exact (resolve_verdict hresolve).resolve_left hverdict
  | prepared run verdict lease =>
      simp only [Refuses, outcome, step] at h ⊢
      cases hprepared : s.log.prepared lifecycle run verdict lease with
      | error refusal => rfl
      | ok written =>
          simp only [hprepared, askedVerdict] at h
          obtain ⟨_, ⟨⟩, hverdict⟩ := h
          exact absurd (prepared_verdict hprepared) hverdict
  | reopen run =>
      simp only [Refuses, outcome, step] at h ⊢
      cases hreopen : s.log.reopen run with
      | error refusal => rfl
      | ok written =>
          simp only [hreopen, askedVerdict] at h
          obtain ⟨_, ⟨⟩, hverdict⟩ := h
          exact absurd (reopen_verdict hreopen) hverdict
  | bind run handle =>
      simp only [Refuses, outcome, step] at h ⊢
      cases hbind : s.log.bind run handle with
      | error refusal => rfl
      | ok written =>
          simp only [hbind, askedVerdict] at h
          obtain ⟨_, ⟨⟩, hverdict⟩ := h
          exact absurd (bind_verdict hbind) hverdict
  | report run verdict =>
      simp only [Refuses, outcome, step] at h ⊢
      cases hreport : s.log.report run verdict with
      | error refusal => rfl
      | ok written => simp [hreport, askedVerdict] at h
  | delivery run status =>
      simp only [Refuses, outcome, step] at h ⊢
      cases hdelivery : s.log.delivery run status with
      | error refusal => rfl
      | ok written => simp [hdelivery, askedVerdict] at h
  | relet run lease =>
      simp only [Refuses, outcome, step] at h ⊢
      cases hrelet : s.log.relet run lease with
      | error refusal => rfl
      | ok written => simp [hrelet, askedVerdict] at h
  | reserve run =>
      simp only [Refuses, outcome, step] at h ⊢
      cases hreserve : s.log.reserve run with
      | error refusal => rfl
      | ok written => simp [hreserve, askedVerdict] at h
  | record _ => simp [Refuses, outcome] at h
  | forget _ => simp [Refuses, outcome] at h
  | hold _ _ _ _ => simp [Refuses, outcome] at h
  | held _ => simp [Refuses, outcome] at h

/-- One step moves verdicts along the table exactly when its write, if unchecked, is guarded. -/
theorem preserves_step (s : Workspace) (operation : Operation) :
    Preserves s.log (step lifecycle digest s operation).log ↔ Guarded digest s operation := by
  cases operation with
  | record run => exact preserves_put
  | resolve run state exitCode verdict => exact iff_of_true (preserves_resolve state exitCode verdict) trivial
  | report run verdict => exact iff_of_true (preserves_report verdict) trivial
  | delivery run status => exact iff_of_true (preserves_delivery status) trivial
  | relet run lease => exact iff_of_true (preserves_relet lease) trivial
  | prepared run verdict lease => exact iff_of_true (preserves_prepared verdict lease) trivial
  | reopen run => exact iff_of_true preserves_reopen trivial
  | bind run handle => exact preserves_bind handle
  | reserve run => exact preserves_reserve
  | forget run => exact iff_of_true preserves_drop trivial
  | hold asked reason project now => exact iff_of_true (preserves_refl s.log) trivial
  | held index =>
      simp only [step, Guarded]
      cases hholding : s.holding[index]? with
      | none => exact iff_of_true (preserves_refl s.log) (by simp)
      | some holding =>
          have hput : Preserves s.log (s.log.held digest holding) ↔
              Admits s.log (holding.placeholder digest) := preserves_put
          simp only [hput, Admits, Holding.verdict_placeholder, moved_held]
          constructor
          · rintro h _ stored ⟨⟩ hstored
            exact h stored hstored
          · intro h stored hstored
            exact h holding stored rfl hstored

theorem lawful_iff (s : Workspace) (operation : Operation) :
    Lawful lifecycle digest s operation ↔ Guarded digest s operation := by
  rw [← @preserves_step lifecycle digest s operation]
  constructor
  · exact Lawful.moves
  · intro h
    exact ⟨h, fun identity before after hbefore hafter => (h identity before after hbefore hafter).settled,
      step_of_refuses⟩

/-- A row that is written where none stands meets none it may not move. -/
theorem guarded_of_fresh {s : Workspace} {operation : Operation} (h : Fresh digest s operation) :
    Guarded digest s operation := by
  have hadmits : ∀ {run : RunRecord}, s.log.at? run.identity = none → Admits s.log run := by
    intro run hnone stored hstored
    rw [hnone] at hstored
    cases hstored
  cases operation with
  | record run => exact hadmits h
  | reserve run => exact fun hfree => hadmits (h hfree)
  | bind run handle => exact fun current hcurrent _ hhandle => hadmits (h current hcurrent hhandle)
  | held index =>
      intro holding stored hholding hstored
      rw [h holding hholding] at hstored
      cases hstored
  | _ => trivial

/-- Where identities are fresh, every interleaving keeps the verdict lifecycle. -/
theorem lawful_of_fresh {s : Workspace} {operations : List Operation}
    (h : Runs.Each (step lifecycle digest) (Fresh digest) s operations) :
    Runs.Each (step lifecycle digest) (Lawful lifecycle digest) s operations :=
  h.mono fun s operation hfresh => (lawful_iff s operation).mpr (guarded_of_fresh hfresh)

end Steps

/-- Over any interleaving, from any registry, every step keeps the verdict lifecycle exactly when every
whole row written unchecked meets a row that may move to it. -/
theorem lifecycle_iff_guarded (s : Workspace) (operations : List Operation) :
    Runs.Each (step lifecycle digest) (Lawful lifecycle digest) s operations ↔
      Runs.Each (step lifecycle digest) (Guarded digest) s operations :=
  Runs.each_congr lawful_iff

section Reheld

private def asked : Request := ⟨"gpu", "train.sh", "train", "", none⟩

private def placeholder : RunRecord := Holding.placeholder (fun _ => "0a") ⟨asked, "quota", "", 1⟩

/-- A held request is cancelled, then dispatched again while the quota is still full. -/
private def reheld : List Operation :=
  [.hold asked "quota" "" 1, .held 0, .resolve placeholder (some "cancelled") none "cancelled",
    .hold asked "quota" "" 2, .held 0]

/-- The second hold writes HELD over the CANCELLED row. -/
theorem lifecycle_fails_reheld :
    ¬ ∀ (lifecycle : Lifecycle) (digest : String → String) (s : Workspace) (operations : List Operation),
      Runs.Each (step lifecycle digest) (Lawful lifecycle digest) s operations := by
  intro h
  have hlast := (h .table (fun _ => "0a") ⟨[], []⟩ reheld).2.2.2.2.1
  have hbefore := hlast.settled placeholder.identity
    (placeholder.resolved (some "cancelled") none "cancelled") placeholder (by decide) (by decide) (by decide)
  revert hbefore
  decide

end Reheld

end Workspace

end Mainboard
