import Mainboard.Registry

/-! The reap pass's policy: what is done with each machine a provider lists, from the listing, the
creations the registry keeps, the held machines and the clock. A machine is ended or bound only when
its label proves it ours; both directions of that are shown over arbitrary listings. -/

namespace Mainboard.Reaper

/-- What the pass leaves to the process that owns a creation or a deadline, ten minutes. -/
def grace : Int := 600000000

/-- One machine a provider says the account is renting right now. -/
structure Rented where
  handle : String
  label : String
  status : String
  deriving DecidableEq, Repr

/-- What the pass does with one listed machine. -/
inductive Action
  | bind
  | «end»
  | keep
  | report
  deriving DecidableEq, Repr

/-- How far a creation got, and what is still owed for it. -/
inductive Stage
  | prepared
  | submitting
  | live
  | owed
  | done
  deriving DecidableEq, Repr

/-- Why a machine is ruled on as it is, with the values the reason names. -/
inductive Reason
  | mintedElsewhere (label provider : String)
  | neverSent
  | inFlight
  | unrecorded
  | otherHandle (handle : String)
  | settled
  | expired (releaseBy : Option Int)
  | owed
  | liveRun
  | listedTwice (label : String) (count : Nat)
  | held (name : String)
  | gone
  | unlabelled
  | notMinted (label : String)
  deriving DecidableEq, Repr

/-- The reason as it is logged; `stamp` is the spelling of an instant. -/
def Reason.text (stamp : Option Int → String) : Reason → String
  | mintedElsewhere label provider => "label " ++ label ++ " was minted for " ++ provider
  | neverSent => "its record says no create was ever sent"
  | inFlight => "its create may still be in flight"
  | unrecorded => "a create with no recorded handle, bound to this machine"
  | otherHandle handle => "its label is recorded against handle " ++ handle
  | settled => "its run settled and was reported, so nothing here releases it"
  | expired releaseBy => "past its release deadline " ++ stamp releaseBy
  | owed => "its run settled and settlement still owes its report"
  | liveRun => "a live run owns it"
  | listedTwice label count =>
      "label " ++ label ++ " is listed " ++ toString count ++ " times, so it proves nothing"
  | held name => "held as " ++ name
  | gone => "the provider reports it already ended"
  | unlabelled => "it carries no label, so nothing proves it ours"
  | notMinted label => "label " ++ label ++ " was not minted here"

abbrev Ruling := Action × Reason

/-- The action and reason of the first rule that holds. -/
def firstRule (rules : List (Bool × Ruling)) : Option Ruling :=
  (rules.find? (·.1)).map (·.2)

/-- One creation this center minted, as the registry holds it. Only a labelled one is kept. -/
structure Kept where
  label : String
  target : String
  provider : String
  handle : String
  stage : Stage
  submitted : Int
  releaseBy : Option Int
  label_nonempty : label ≠ ""

namespace Kept

/-- Where a record stands: unsent, possibly sent, running, awaiting its report, or done. -/
def staged (record : RunRecord) : Stage :=
  if record.verdict = some Word.prepared.value then .prepared
  else if record.verdict = some Word.submitting.value then .submitting
  else if record.unsettled then .live
  else if record.reported ≠ record.verdict then .owed else .done

/-- The creation a record retains, `none` for a run no provider was asked to create. -/
def of (record : RunRecord) : Option Kept :=
  if hcreation : record.creation = "" then none
  else some {
    label := record.creation
    target := record.target
    provider := record.kind
    handle := record.handle
    stage := staged record
    submitted := record.submittedAt
    releaseBy := record.lease.map (·.releaseBy)
    label_nonempty := hcreation }

/-- Its lease ran out by more than the grace a deadline pass is given to end it. -/
def expired (creation : Kept) (now : Int) : Bool :=
  creation.releaseBy.any fun releaseBy => grace < now - releaseBy

/-- What to do with a machine listed by `provider` under this creation's label. -/
def ruling (creation : Kept) (rented : Rented) (provider : String) (now : Int) : Ruling :=
  let submitting : Bool := creation.stage = .submitting
  (firstRule [
    (creation.provider ≠ provider, .report, .mintedElsewhere creation.label creation.provider),
    (creation.stage = .prepared, .report, .neverSent),
    (submitting && decide (now - creation.submitted < grace), .keep, .inFlight),
    (submitting, .bind, .unrecorded),
    (creation.handle ≠ rented.handle, .report, .otherHandle creation.handle),
    (creation.stage = .done, .end, .settled),
    (creation.expired now, .end, .expired creation.releaseBy),
    (creation.stage = .owed, .keep, .owed)]).getD (.keep, .liveRun)

end Kept

/-- The ruling on one listed machine, with the creation that justified it. -/
structure Decision where
  provider : String
  rented : Rented
  action : Action
  reason : Reason
  kept : Option Kept

/-- Whether the pass changes anything for this machine. -/
def Decision.selected (decision : Decision) : Bool :=
  decision.action = .bind ∨ decision.action = .end

/-- Kept whatever its label says: a session holds it, or it already ended. -/
def spared (rented : Rented) (held : String → Option String) : Option Ruling :=
  firstRule [
    ((held rented.handle).isSome, .keep, .held ((held rented.handle).getD "None")),
    (rented.status = "gone", .keep, .gone)]

/-- How often a label is listed; machines without one are not counted. -/
def labels (listing : List Rented) (label : String) : Nat :=
  ((listing.map (·.label)).filter (· ≠ "")).count label

/-- Reported when its label is listed more than once, however it was minted. -/
def repeated (rented : Rented) (listing : List Rented) : Option Ruling :=
  if 1 < labels listing rented.label
  then some (.report, .listedTwice rented.label (labels listing rented.label))
  else none

/-- A machine no creation here claims is reported, never ended. -/
def stranger (rented : Rented) : Ruling :=
  if rented.label = "" then (.report, .unlabelled) else (.report, .notMinted rented.label)

/-- The creation minted under a label, the last one kept under it. -/
def minted (kept : List Kept) (label : String) : Option Kept :=
  kept.reverse.find? fun creation => creation.label = label

def judged (rented : Rented) (creation : Option Kept) (provider : String) (spare : Option Ruling)
    (now : Int) : Decision :=
  let ruling := spare.getD
    (match creation with
      | some creation => creation.ruling rented provider now
      | none => stranger rented)
  ⟨provider, rented, ruling.1, ruling.2, creation⟩

/-- The ruling on every machine `provider` lists. -/
def decide (listing : List Rented) (provider : String) (kept : List Kept)
    (held : String → Option String) (now : Int) : List Decision :=
  listing.map fun rented =>
    judged rented (minted kept rented.label) provider
      ((spared rented held).or (repeated rented listing)) now

@[simp] theorem firstRule_nil : firstRule [] = none := rfl

@[simp] theorem firstRule_cons (holds : Bool) (ruling : Ruling) (rules : List (Bool × Ruling)) :
    firstRule ((holds, ruling) :: rules) = if holds then some ruling else firstRule rules := by
  cases holds <;> rfl

/-- The label proves the machine ours: it is the only one listed under it, the last creation kept under
it was minted through this provider, no session holds the machine and it has not already ended. -/
structure Owned (listing : List Rented) (provider : String) (kept : List Kept)
    (held : String → Option String) (rented : Rented) (creation : Kept) : Prop where
  labelled : rented.label ≠ ""
  once : (listing.map (·.label)).count rented.label = 1
  minted : minted kept rented.label = some creation
  provider : creation.provider = provider
  notHeld : held rented.handle = none
  notGone : rented.status ≠ "gone"

/-- An owned machine is ended when its creation was bound to it and is done or past its lease. -/
def Ends (creation : Kept) (rented : Rented) (now : Int) : Prop :=
  creation.stage ≠ .prepared ∧ creation.stage ≠ .submitting ∧ creation.handle = rented.handle ∧
    (creation.stage = .done ∨ creation.expired now = true)

/-- An owned machine is bound when its creation is submitting, at least a grace old. -/
def Binds (creation : Kept) (now : Int) : Prop :=
  creation.stage = .submitting ∧ grace ≤ now - creation.submitted

section Rulings

variable {listing : List Rented} {provider : String} {kept : List Kept} {held : String → Option String}
  {rented : Rented} {creation : Kept} {now : Int}

/-- A creation minted elsewhere, or never sent, has its machine reported. -/
theorem ruling_report (h : creation.provider ≠ provider ∨ creation.stage = .prepared) :
    (creation.ruling rented provider now).1 = .report := by
  by_cases hprovider : creation.provider = provider
  · have hstage := h.resolve_left (not_not_intro hprovider)
    simp [Kept.ruling, hprovider, hstage]
  · simp [Kept.ruling, hprovider]

/-- A submitting creation is left alone for its grace and bound from then on. -/
theorem ruling_submitting (hprovider : creation.provider = provider) (hstage : creation.stage = .submitting) :
    (creation.ruling rented provider now).1 = if now - creation.submitted < grace then .keep else .bind := by
  by_cases hgrace : now - creation.submitted < grace
  · simp [Kept.ruling, hprovider, hstage, hgrace]
  · simp [Kept.ruling, hprovider, hstage, hgrace]

/-- A bound creation ends its own machine once it is done or past its lease. -/
theorem ruling_bound (hprovider : creation.provider = provider) (hprepared : creation.stage ≠ .prepared)
    (hsubmitting : creation.stage ≠ .submitting) :
    (creation.ruling rented provider now).1 =
      if creation.handle = rented.handle then
        if creation.stage = .done ∨ creation.expired now = true then .end else .keep
      else .report := by
  by_cases hhandle : creation.handle = rented.handle
  · by_cases hdone : creation.stage = .done
    · simp [Kept.ruling, hprovider, hhandle, hdone]
    · by_cases hexpired : creation.expired now = true
      · simp [Kept.ruling, hprovider, hprepared, hsubmitting, hhandle, hdone, hexpired]
      · by_cases howed : creation.stage = .owed
        · simp [Kept.ruling, hprovider, hhandle, hexpired, howed]
        · simp [Kept.ruling, hprovider, hprepared, hsubmitting, hhandle, hdone, hexpired, howed]
  · simp [Kept.ruling, hprovider, hprepared, hsubmitting, hhandle]

theorem ruling_end_iff : (creation.ruling rented provider now).1 = .end ↔
    creation.provider = provider ∧ Ends creation rented now := by
  by_cases hreport : creation.provider ≠ provider ∨ creation.stage = .prepared
  · rw [ruling_report hreport]
    refine iff_of_false nofun ?_
    rintro ⟨hprovider, hprepared, -⟩
    exact hreport.elim (· hprovider) hprepared
  · obtain ⟨hprovider, hprepared⟩ := not_or.mp hreport
    have hprovider := not_not.mp hprovider
    by_cases hsubmitting : creation.stage = .submitting
    · rw [ruling_submitting hprovider hsubmitting]
      refine iff_of_false (by split_ifs <;> nofun) ?_
      rintro ⟨-, -, hne, -⟩
      exact hne hsubmitting
    · rw [ruling_bound hprovider hprepared hsubmitting]
      split_ifs with hhandle hdone
      · exact iff_of_true rfl ⟨hprovider, hprepared, hsubmitting, hhandle, hdone⟩
      · exact iff_of_false nofun fun h => hdone h.2.2.2.2
      · exact iff_of_false nofun fun h => hhandle h.2.2.2.1

theorem ruling_bind_iff : (creation.ruling rented provider now).1 = .bind ↔
    creation.provider = provider ∧ Binds creation now := by
  by_cases hreport : creation.provider ≠ provider ∨ creation.stage = .prepared
  · rw [ruling_report hreport]
    refine iff_of_false nofun ?_
    rintro ⟨hprovider, hsubmitting, -⟩
    rcases hreport with hother | hprepared
    · exact hother hprovider
    · rw [hsubmitting] at hprepared
      cases hprepared
  · obtain ⟨hprovider, hprepared⟩ := not_or.mp hreport
    have hprovider := not_not.mp hprovider
    by_cases hsubmitting : creation.stage = .submitting
    · rw [ruling_submitting hprovider hsubmitting]
      split_ifs with hgrace
      · exact iff_of_false nofun fun h => absurd hgrace (not_lt.mpr h.2.2)
      · exact iff_of_true rfl ⟨hprovider, hsubmitting, not_lt.mp hgrace⟩
    · rw [ruling_bound hprovider hprepared hsubmitting]
      refine iff_of_false (by split_ifs <;> nofun) fun h => hsubmitting h.2.1

theorem label_of_minted (h : minted kept rented.label = some creation) : creation.label = rented.label := by
  simpa using List.find?_some h

/-- A machine is spared exactly when it is held, gone, or listed again under its label. -/
theorem spare_eq_none_iff : (spared rented held).or (repeated rented listing) = none ↔
    held rented.handle = none ∧ rented.status ≠ "gone" ∧ labels listing rented.label ≤ 1 := by
  simp only [spared, repeated, firstRule_cons, firstRule_nil, Option.or_eq_none_iff]
  cases held rented.handle with
  | none => split_ifs <;> simp_all
  | some name => simp

/-- What spares a machine never ends or binds it. -/
theorem spare_action {ruling : Ruling}
    (h : (spared rented held).or (repeated rented listing) = some ruling) :
    ruling.1 ≠ .end ∧ ruling.1 ≠ .bind := by
  simp only [spared, repeated, firstRule_cons, firstRule_nil] at h
  split_ifs at h <;> simp at h <;> subst h <;> exact ⟨nofun, nofun⟩

theorem stranger_action : (stranger rented).1 = .report := by
  rw [stranger]
  split_ifs <;> rfl

theorem labels_eq (h : rented.label ≠ "") :
    labels listing rented.label = (listing.map (·.label)).count rented.label := by
  rw [labels, List.count_filter (by simpa using h)]

/-- A listed machine is ruled on by its creation alone once its label proves it ours. -/
theorem judged_selected_iff {action : Action} (hselected : action = .end ∨ action = .bind)
    (hlisted : rented ∈ listing) :
    (judged rented (minted kept rented.label) provider
        ((spared rented held).or (repeated rented listing)) now).action = action ↔
      ∃ creation, minted kept rented.label = some creation ∧ held rented.handle = none ∧
        rented.status ≠ "gone" ∧ rented.label ≠ "" ∧
        (listing.map (·.label)).count rented.label = 1 ∧
        (creation.ruling rented provider now).1 = action := by
  have hreport : Action.report ≠ action := by rcases hselected with rfl | rfl <;> decide
  cases hspare : (spared rented held).or (repeated rented listing) with
  | some ruling =>
      have hruling : ruling.1 ≠ action := by
        rcases hselected with rfl | rfl
        · exact (spare_action hspare).1
        · exact (spare_action hspare).2
      refine iff_of_false hruling ?_
      rintro ⟨creation, -, hheld, hgone, hlabel, honce, -⟩
      have hnone := spare_eq_none_iff.mpr ⟨hheld, hgone, ((labels_eq hlabel).trans honce).le⟩
      rw [hspare] at hnone
      cases hnone
  | none =>
      obtain ⟨hheld, hgone, hcount⟩ := spare_eq_none_iff.mp hspare
      cases hminted : minted kept rented.label with
      | none =>
          refine iff_of_false ?_ (by simp)
          simp only [judged, Option.getD_none, stranger_action]
          exact hreport
      | some creation =>
          have hlabel : rented.label ≠ "" := by
            rw [← label_of_minted hminted]
            exact creation.label_nonempty
          have honce : (listing.map (·.label)).count rented.label = 1 := by
            refine le_antisymm ((labels_eq hlabel).symm.le.trans hcount) ?_
            exact List.count_pos_iff.mpr (List.mem_map_of_mem hlisted)
          simp [judged, hheld, hgone, hlabel, honce]

end Rulings

/-- The creations the registry keeps, read as the pass reads them. -/
def keptOf (log : Registry) : List Kept := log.newest.filterMap Kept.of

theorem of_fields {record : RunRecord} {creation : Kept} (h : Kept.of record = some creation) :
    creation.label = record.creation ∧ creation.provider = record.kind ∧
      creation.handle = record.handle ∧ creation.stage = Kept.staged record := by
  rw [Kept.of] at h
  split at h
  · cases h
  · cases h
    exact ⟨rfl, rfl, rfl, rfl⟩

/-- What the pass acts on is recorded: the registry holds a current run created under the machine's label
through the provider that lists it. -/
theorem selected_recorded {log : Registry} {listing : List Rented} {provider : String}
    {held : String → Option String} {now : Int} {decision : Decision}
    (hdecision : decision ∈ decide listing provider (keptOf log) held now)
    (hselected : decision.selected = true) :
    ∃ record, log.at? record.identity = some record ∧ record.creation = decision.rented.label ∧
      record.kind = provider := by
  obtain ⟨rented, hlisted, rfl⟩ := List.mem_map.mp hdecision
  have haction : ∃ action, (action = .end ∨ action = .bind) ∧
      (judged rented (minted (keptOf log) rented.label) provider
        ((spared rented held).or (repeated rented listing)) now).action = action := by
    rcases of_decide_eq_true hselected with hbind | hend
    · exact ⟨.bind, .inr rfl, hbind⟩
    · exact ⟨.end, .inl rfl, hend⟩
  obtain ⟨action, hkind, haction⟩ := haction
  obtain ⟨creation, hminted, -, -, -, -, hruling⟩ := (judged_selected_iff hkind hlisted).mp haction
  have hprovider : creation.provider = provider := by
    rcases hkind with rfl | rfl
    · exact (ruling_end_iff.mp hruling).1
    · exact (ruling_bind_iff.mp hruling).1
  obtain ⟨record, hrecord, hof⟩ := List.mem_filterMap.mp (List.mem_reverse.mp (List.mem_of_find?_eq_some hminted))
  obtain ⟨hlabel, hrecorded, -, -⟩ := of_fields hof
  refine ⟨record, Registry.mem_newest.mp hrecord, ?_, ?_⟩
  · rw [← hlabel, label_of_minted hminted]
    rfl
  · rw [← hrecorded, hprovider]

/-- Every listed machine is ruled on, and it is ended (or bound) exactly when its label proves it ours and
its creation says it is to be. -/
theorem decide_selects (listing : List Rented) (provider : String) (kept : List Kept)
    (held : String → Option String) (now : Int) :
    (decide listing provider kept held now).map (·.rented) = listing ∧
      ∀ decision ∈ decide listing provider kept held now,
        (decision.action = .end ↔ ∃ creation,
          Owned listing provider kept held decision.rented creation ∧ Ends creation decision.rented now) ∧
        (decision.action = .bind ↔ ∃ creation,
          Owned listing provider kept held decision.rented creation ∧ Binds creation now) := by
  refine ⟨?_, ?_⟩
  · simp [decide, judged, Function.comp_def]
  · intro decision hdecision
    obtain ⟨rented, hlisted, rfl⟩ := List.mem_map.mp hdecision
    refine ⟨?_, ?_⟩
    · rw [judged_selected_iff (.inl rfl) hlisted]
      refine exists_congr fun creation => ?_
      rw [ruling_end_iff]
      constructor
      · rintro ⟨hminted, hheld, hgone, hlabel, honce, hprovider, hends⟩
        exact ⟨⟨hlabel, honce, hminted, hprovider, hheld, hgone⟩, hends⟩
      · rintro ⟨howned, hends⟩
        exact ⟨howned.minted, howned.notHeld, howned.notGone, howned.labelled, howned.once, howned.provider,
          hends⟩
    · rw [judged_selected_iff (.inr rfl) hlisted]
      refine exists_congr fun creation => ?_
      rw [ruling_bind_iff]
      constructor
      · rintro ⟨hminted, hheld, hgone, hlabel, honce, hprovider, hbinds⟩
        exact ⟨⟨hlabel, honce, hminted, hprovider, hheld, hgone⟩, hbinds⟩
      · rintro ⟨howned, hbinds⟩
        exact ⟨howned.minted, howned.notHeld, howned.notGone, howned.labelled, howned.once, howned.provider,
          hbinds⟩

section Edges

private def unsent : Kept := ⟨"mainboard-1", "vast-1", "vast", "mainboard-1", .prepared, 0, some 0, by decide⟩

private def submitted : Kept := ⟨"mainboard-2", "vast-1", "vast", "mainboard-2", .submitting, 0, none, by decide⟩

/-- An owned machine recorded under its own handle with an expired lease is reported, not ended, when its
record was never sent; and a submitting creation is bound already when it is exactly a grace old. -/
theorem decide_edges :
    (¬ ∀ (listing : List Rented) (provider : String) (kept : List Kept) (held : String → Option String)
      (now : Int), ∀ decision ∈ decide listing provider kept held now, ∀ creation,
        Owned listing provider kept held decision.rented creation →
        creation.handle = decision.rented.handle → creation.stage = .done ∨ creation.expired now = true →
          decision.action = .end ∨ decision.action = .bind) ∧
    ¬ ∀ (listing : List Rented) (provider : String) (kept : List Kept) (held : String → Option String)
      (now : Int), ∀ decision ∈ decide listing provider kept held now, decision.action = .bind →
        ∃ creation ∈ kept, creation.label = decision.rented.label ∧ grace < now - creation.submitted := by
  constructor
  · intro h
    have hreported := h [⟨"mainboard-1", "mainboard-1", "running"⟩] "vast" [unsent] (fun _ => none)
      (grace + 1) _ List.mem_cons_self unsent ⟨by decide, by decide, rfl, rfl, rfl, by decide⟩ rfl (.inr rfl)
    revert hreported
    decide
  · intro h
    obtain ⟨creation, hkept, -, hold⟩ := h [⟨"34", "mainboard-2", "running"⟩] "vast" [submitted]
      (fun _ => none) grace _ List.mem_cons_self (by decide)
    rw [List.mem_singleton.mp hkept] at hold
    revert hold
    decide

end Edges

end Mainboard.Reaper
