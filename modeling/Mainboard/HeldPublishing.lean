import Mathlib.Data.List.Basic

/-! How a job for a held line is published. The center writes the job's entry into the line's inbox on the host,
under a name no other entry may have, over a channel that can lose the reply of a write it applies, and apply it
late. A write whose reply is lost is followed by a reading of the inbox, and by one more write. The job's creation
intent, recorded before, is closed as failed where the job is refused, and left open where nothing is known. -/

namespace Mainboard.Dispatch

/-- One queued job. -/
structure Submission where
  handle : String
  label : String
  script : String
  cwd : String
  walltime : String
  submitted : String
  deriving DecidableEq

/-- What a line was asked for, in seconds and gigabytes. -/
structure LineSpec where
  walltime : ℕ
  mem : ℕ
  deadline : ℕ

/-- What a job needs beyond its walltime inside an allocation. -/
def LineSpec.grace : ℕ := 120

/-- What the spool said of the line: the host's clock, the line, and whether it was released. -/
structure Facts where
  now : ℕ
  line : Option LineSpec
  stopped : Bool

/-- What a job asks for: the seconds of its walltime, none where that is not spelled as one, and its memory. -/
structure Resources where
  walltime : Option ℕ
  mem : ℕ

/-- Why a job is refused before it is written: no line is held, it ends too early, its allocations are too short or
too small; or its walltime cannot be read. -/
inductive Unfit
  | noLine
  | lineEnds
  | tooShort
  | tooSmall
  | unreadable
  deriving DecidableEq

/-- Whether an allocation of a live line could run the job to its end. -/
def Facts.admit (facts : Facts) (resources : Resources) : Except Unfit Unit :=
  match if facts.stopped then none else facts.line, resources.walltime with
  | none, _ => .error .noLine
  | some _, none => .error .unreadable
  | some line, some walltime =>
      if line.deadline < facts.now + (walltime + LineSpec.grace) then .error .lineEnds
      else if line.walltime < walltime + LineSpec.grace then .error .tooShort
      else if line.mem < resources.mem then .error .tooSmall
      else .ok ()

/-- How a write's round trip goes: its exit status comes back, the temporary file staged or not and the link made or
not; or the reply is lost, and the write is applied after so many of the center's next steps, or never. -/
inductive Trip
  | answered (staged linked : Bool)
  | lost (lag : Option ℕ)

/-- How a reading goes: its reply is lost, the spool cannot be read, or it is answered. -/
inductive Reading (Answer : Type)
  | lost
  | refused
  | answered (answer : Answer)

/-- One write, and the reading that follows where its reply is lost. -/
structure Round where
  trip : Trip
  read : Reading Unit

/-- The inbox, and the writes of the entry under way, each with the steps left before it is applied. -/
structure Inbox where
  entries : List Submission
  flying : List ℕ := []

/-- What the center is answered with. -/
inductive Outcome
  | queued (handle : String)
  | refused
  | unreachable
  | malformed
  deriving DecidableEq

variable (entry : Submission)

/-- Whether an entry of this name is in the inbox. -/
def taken (entries : List Submission) : Bool := entries.any fun other => other.handle == entry.handle

/-- The entry linked into the inbox, unless its name is taken. -/
def land (entries : List Submission) : List Submission :=
  if taken entry entries then entries else entries ++ [entry]

/-- A write as the host runs it: exit 0 where the entry is made, 3 where the link fails, 4 where nothing could be
staged. -/
def put (entries : List Submission) (staged linked : Bool) : List Submission × ℕ :=
  if !staged then (entries, 4)
  else if taken entry entries || !linked then (entries, 3)
  else (entries ++ [entry], 0)

/-- One step of the center passes: the writes due are applied. -/
def Inbox.elapse (inbox : Inbox) : Inbox :=
  { entries := if inbox.flying.any (· == 0) then land entry inbox.entries else inbox.entries
    flying := (inbox.flying.filter (· != 0)).map (· - 1) }

/-- The inbox once every write under way has been applied. -/
def Inbox.eventual (inbox : Inbox) : List Submission :=
  if inbox.flying = [] then inbox.entries else land entry inbox.entries

/-- The entry written, confirmed by name where the reply is lost, and written once more where it is not there. -/
def publish : List Round → Inbox → Outcome × Inbox
  | [], inbox => (.unreachable, inbox)
  | round :: rounds, inbox =>
      match round.trip with
      | .answered staged linked =>
          let made := put entry inbox.entries staged linked
          (if made.2 = 0 then .queued entry.handle else .refused, { inbox with entries := made.1 })
      | .lost lag =>
          let sent := Inbox.elapse entry { inbox with flying := inbox.flying ++ lag.toList }
          match round.read with
          | .lost => (.unreachable, sent)
          | .refused => (.refused, sent)
          | .answered () =>
              if taken entry sent.entries then (.queued entry.handle, sent) else publish rounds (sent.elapse entry)

/-- The job queued for the line: admitted by what the spool says of it, then published, in two rounds at most. -/
def enqueue (resources : Resources) (opening : Reading Facts) (first second : Round) (inbox : Inbox) :
    Outcome × Inbox :=
  match opening with
  | .lost => (.unreachable, inbox)
  | .refused => (.refused, inbox)
  | .answered facts => match facts.admit resources with
    | .error .unreadable => (.malformed, inbox)
    | .error _ => (.refused, inbox)
    | .ok () => publish entry [first, second] inbox

/-! The creation intent -/

/-- Where a creation intent stands. -/
inductive Intent
  | prepared
  | submitting
  | failed
  | bound (handle : String)
  deriving DecidableEq

/-- The uncertain boundary is recorded before the request crosses it. -/
def Intent.begin : Intent → Intent
  | prepared => submitting
  | intent => intent

/-- The request was declined: it stands as prepared again. -/
def Intent.refused : Intent → Intent
  | submitting => prepared
  | intent => intent

/-- A request known not to have crossed is closed. -/
def Intent.interrupted : Intent → Intent
  | prepared => failed
  | intent => intent

/-- The handle the host answered with is attached. -/
def Intent.created (handle : String) : Intent → Intent
  | submitting => bound handle
  | intent => intent

/-- The job handed to the line, its intent recorded before; a refusal closes the intent. -/
def handed (resources : Resources) (opening : Reading Facts) (first second : Round) (inbox : Inbox) : Intent × Inbox :=
  let intent := Intent.begin .prepared
  let asked := enqueue entry resources opening first second inbox
  match asked.1 with
  | .queued handle => (intent.created handle, asked.2)
  | .refused => (intent.refused.interrupted, asked.2)
  | .unreachable => (intent, asked.2)
  | .malformed => (intent, asked.2)

/-! One entry for one request -/

variable {entry}

theorem taken_append (entries : List Submission) : taken entry (entries ++ [entry]) = true := by
  unfold taken
  rw [List.any_append, Bool.or_eq_true]
  exact Or.inr (by simp)

theorem land_eq_or (entries : List Submission) : land entry entries = entries ∨ land entry entries = entries ++ [entry] := by
  unfold land
  split
  · exact Or.inl rfl
  · exact Or.inr rfl

theorem taken_land (entries : List Submission) : taken entry (land entry entries) = true := by
  unfold land
  split
  · assumption
  · exact taken_append entries

theorem land_of_taken {entries : List Submission} (h : taken entry entries = true) : land entry entries = entries :=
  if_pos h

theorem land_land (entries : List Submission) : land entry (land entry entries) = land entry entries :=
  land_of_taken (taken_land entries)

theorem put_eq_or (entries : List Submission) (staged linked : Bool) :
    (put entry entries staged linked).1 = entries ∨ (put entry entries staged linked).1 = land entry entries := by
  unfold put land
  cases staged <;> cases linked <;> cases taken entry entries <;> simp

/-- The entries are those there were, or those with the entry linked in. -/
def Inbox.Within (entries : List Submission) (entry : Submission) (inbox : Inbox) : Prop :=
  inbox.entries = entries ∨ inbox.entries = land entry entries

theorem Inbox.Within.land {entries : List Submission} {inbox : Inbox} (h : inbox.Within entries entry) :
    Dispatch.land entry inbox.entries = Dispatch.land entry entries := by
  rcases h with h | h <;> rw [h]
  exact land_land entries

theorem Inbox.Within.elapse {entries : List Submission} {inbox : Inbox} (h : inbox.Within entries entry) :
    (inbox.elapse entry).Within entries entry := by
  unfold Inbox.elapse Within
  dsimp only
  split
  · exact Or.inr h.land
  · exact h

theorem Inbox.Within.eventual {entries : List Submission} {inbox : Inbox} (h : inbox.Within entries entry) :
    inbox.eventual entry = entries ∨ inbox.eventual entry = Dispatch.land entry entries := by
  unfold Inbox.eventual
  split
  · exact h
  · exact Or.inr h.land

/-- However the rounds go, the inbox gains the entry at most. -/
theorem publish_within {entries : List Submission} (rounds : List Round) {inbox : Inbox}
    (h : inbox.Within entries entry) : (publish entry rounds inbox).2.Within entries entry := by
  induction rounds generalizing inbox with
  | nil => exact h
  | cons round rounds ih =>
      have hsent : ∀ lag : List ℕ,
          (Inbox.elapse entry { inbox with flying := inbox.flying ++ lag }).Within entries entry := fun lag =>
        @Inbox.Within.elapse _ _ { inbox with flying := inbox.flying ++ lag } h
      unfold publish
      split
      · rename_i staged linked _
        rcases @put_eq_or entry inbox.entries staged linked with hput | hput
        · exact h.imp hput.trans hput.trans
        · exact Or.inr (hput.trans h.land)
      · dsimp only
        split
        · exact hsent _
        · exact hsent _
        · split
          · exact hsent _
          · exact ih (hsent _).elapse

theorem enqueue_within {entries : List Submission} (resources : Resources) (opening : Reading Facts)
    (first second : Round) {inbox : Inbox} (h : inbox.Within entries entry) :
    (enqueue entry resources opening first second inbox).2.Within entries entry := by
  unfold enqueue
  split
  · exact h
  · exact h
  · split
    · exact h
    · exact h
    · exact publish_within _ h

theorem handed_snd (resources : Resources) (opening : Reading Facts) (first second : Round) (inbox : Inbox) :
    (handed entry resources opening first second inbox).2 = (enqueue entry resources opening first second inbox).2 := by
  unfold handed
  dsimp only
  split <;> rfl

theorem handed_failed_iff (resources : Resources) (opening : Reading Facts) (first second : Round) (inbox : Inbox) :
    (handed entry resources opening first second inbox).1 = .failed ↔
      (enqueue entry resources opening first second inbox).1 = .refused := by
  unfold handed
  dsimp only
  cases (enqueue entry resources opening first second inbox).1 <;> simp [Intent.begin, Intent.refused,
    Intent.interrupted, Intent.created]

/-! Which behaviours close an intent wrongly -/

/-- Whether no refusal can follow a write that is applied though its reply was lost: the first reply arrives, or the
reading after it is lost; a refused reading finds no such write under way; and a reading that is answered finds the
entry, or the second write is made before the first one is applied, or neither is ever. -/
def harmless : Round → Round → Bool
  | ⟨.answered _ _, _⟩, _ => true
  | ⟨.lost _, .lost⟩, _ => true
  | ⟨.lost lag, .refused⟩, _ => lag.isNone
  | ⟨.lost none, .answered _⟩, ⟨.answered _ _, _⟩ => true
  | ⟨.lost (some lag), .answered _⟩, ⟨.answered staged linked, _⟩ => lag == 0 || (decide (2 ≤ lag) && staged && linked)
  | ⟨.lost none, .answered _⟩, ⟨.lost lag, .refused⟩ => lag.isNone
  | ⟨.lost (some lag), .answered _⟩, ⟨.lost _, .refused⟩ => lag == 0
  | ⟨.lost _, .answered _⟩, ⟨.lost _, _⟩ => true

/-- Whether the entry is in the inbox or on its way there. -/
def Inbox.Due (entry : Submission) (inbox : Inbox) : Prop := inbox.flying ≠ [] ∨ taken entry inbox.entries = true

theorem Inbox.due_elapse {inbox : Inbox} : (inbox.elapse entry).Due entry ↔ inbox.Due entry := by
  obtain ⟨entries, flying⟩ := inbox
  unfold Inbox.elapse Due
  dsimp only
  by_cases hdue : flying.any (· == 0) = true
  · have hne : flying ≠ [] := fun hnil => by
      rw [hnil] at hdue
      exact Bool.noConfusion hdue
    rw [if_pos hdue]
    exact iff_of_true (Or.inr (taken_land entries)) (Or.inl hne)
  · have hkept : flying.filter (· != 0) = flying := List.filter_eq_self.mpr fun lag hlag => by
      rw [bne_iff_ne]
      exact fun hzero => hdue (List.any_eq_true.mpr ⟨lag, hlag, by rw [hzero]; rfl⟩)
    rw [if_neg hdue, hkept, ne_eq, List.map_eq_nil_iff]

theorem Inbox.mem_eventual_iff {entries : List Submission} (h : entry ∉ entries) (hfree : taken entry entries = false)
    {inbox : Inbox} (hwithin : inbox.Within entries entry) : entry ∈ inbox.eventual entry ↔ inbox.Due entry := by
  have hland : Dispatch.land entry entries = entries ++ [entry] := if_neg (by rw [hfree]; exact Bool.false_ne_true)
  have hin : entry ∈ Dispatch.land entry entries := by
    rw [hland]
    exact List.mem_append_right _ (List.mem_singleton_self entry)
  unfold Inbox.eventual Due
  by_cases hflying : inbox.flying = []
  · rw [if_pos hflying]
    rcases hwithin with hsame | hmade
    · rw [hsame, hfree]
      exact iff_of_false h fun hdue => hdue.elim (fun hne => hne hflying) Bool.false_ne_true
    · rw [hmade]
      exact iff_of_true hin (Or.inr (taken_land entries))
  · rw [if_neg hflying, hwithin.land]
    exact iff_of_true hin (Or.inl hflying)

/-- When the last round refuses an entry that is in the inbox or on its way there. -/
theorem publish_last_iff (round : Round) (inbox : Inbox) :
    ((publish entry [round] inbox).1 = .refused ∧ (publish entry [round] inbox).2.Due entry) ↔
      match round with
      | ⟨.answered staged linked, _⟩ =>
          inbox.Due entry ∧ (taken entry inbox.entries = true ∨ (staged && linked) = false)
      | ⟨.lost lag, .refused⟩ => inbox.Due entry ∨ lag.isSome = true
      | _ => False := by
  obtain ⟨trip, read⟩ := round
  cases trip with
  | answered staged linked =>
      unfold publish put Inbox.Due
      cases staged <;> cases linked <;> cases htaken : taken entry inbox.entries <;> simp [htaken]
  | lost lag =>
      cases read with
      | lost => simp [publish]
      | refused =>
          unfold publish
          dsimp only
          rw [Inbox.due_elapse]
          unfold Inbox.Due
          cases lag <;> simp
      | answered answer =>
          unfold publish
          dsimp only
          split <;> simp [publish]

theorem publish_refused_iff {entries : List Submission} (h : entry ∉ entries) (hfree : taken entry entries = false)
    (first second : Round) :
    ((publish entry [first, second] ⟨entries, []⟩).1 = .refused →
      entry ∉ (publish entry [first, second] ⟨entries, []⟩).2.eventual entry) ↔ harmless first second = true := by
  have hwithin := @publish_within entry entries [first, second] ⟨entries, []⟩ (Or.inl rfl)
  rw [Inbox.mem_eventual_iff h hfree hwithin, ← not_and]
  obtain ⟨trip, read⟩ := first
  have hland : land entry entries = entries ++ [entry] := if_neg (by rw [hfree]; exact Bool.false_ne_true)
  cases trip with
  | answered staged linked =>
      unfold publish put Inbox.Due
      cases staged <;> cases linked <;> simp [hfree, harmless]
  | lost lag =>
      have hdue : ∀ lag : Option ℕ, (Inbox.elapse entry ⟨entries, [] ++ lag.toList⟩).Due entry ↔ lag.isSome = true := by
        intro lag
        rw [Inbox.due_elapse]
        unfold Inbox.Due
        cases lag <;> simp [hfree]
      unfold publish
      dsimp only
      cases read with
      | lost => simp [harmless]
      | refused =>
          rw [hdue]
          cases lag <;> simp [harmless]
      | answered answer =>
          have hsent : ∀ lag : Option ℕ, taken entry (Inbox.elapse entry ⟨entries, [] ++ lag.toList⟩).entries = true ↔
              lag = some 0 := by
            intro lag
            unfold Inbox.elapse
            rcases lag with _ | _ | lag <;> simp [hfree, taken_land]
          have hagain : ∀ lag : Option ℕ, lag ≠ some 0 →
              (taken entry ((Inbox.elapse entry ⟨entries, [] ++ lag.toList⟩).elapse entry).entries = true ↔
                lag = some 1) := by
            intro lag hlag
            unfold Inbox.elapse
            rcases lag with _ | _ | _ | lag <;> simp [hfree, taken_land] at hlag ⊢
          dsimp only
          by_cases hzero : lag = some 0
          · rw [if_pos ((hsent lag).mpr hzero), hzero]
            obtain ⟨trip, read⟩ := second
            cases trip <;> cases read <;> simp [harmless]
          · rw [if_neg fun htaken => hzero ((hsent lag).mp htaken), publish_last_iff]
            obtain ⟨trip, read⟩ := second
            cases trip with
            | answered staged linked =>
                dsimp only
                rw [Inbox.due_elapse, hdue, hagain lag hzero]
                rcases lag with _ | _ | _ | lag
                · simp [harmless]
                · exact absurd rfl hzero
                · simp [harmless]
                · cases staged <;> cases linked <;> simp [harmless]
            | lost other =>
                cases read with
                | lost => cases lag <;> simp [harmless]
                | refused =>
                    dsimp only
                    rw [Inbox.due_elapse, hdue]
                    rcases lag with _ | _ | lag
                    · cases other <;> simp [harmless]
                    · exact absurd rfl hzero
                    · simp [harmless]
                | answered answer => cases lag <;> simp [harmless]

/-- However the channel behaves, a request leaves one entry at most; and its intent is closed as failed only where
the entry is not in the inbox and never will be, exactly where no refusal follows a write that is applied though its
reply was lost. -/
theorem handed_failed_only {entries : List Submission} (h : entry ∉ entries) (resources : Resources)
    (opening : Reading Facts) (first second : Round) :
    ((handed entry resources opening first second ⟨entries, []⟩).1 = .failed →
        entry ∉ (handed entry resources opening first second ⟨entries, []⟩).2.eventual entry) ∧
      ((handed entry resources opening first second ⟨entries, []⟩).2.eventual entry = entries ∨
        (handed entry resources opening first second ⟨entries, []⟩).2.eventual entry = entries ++ [entry]) ↔
    ((∀ facts, opening = .answered facts → facts.admit resources ≠ .ok ()) ∨ taken entry entries = true ∨
      harmless first second = true) := by
  have hwithin : (enqueue entry resources opening first second ⟨entries, []⟩).2.Within entries entry :=
    enqueue_within resources opening first second (Or.inl rfl)
  have hone : (handed entry resources opening first second ⟨entries, []⟩).2.eventual entry = entries ∨
      (handed entry resources opening first second ⟨entries, []⟩).2.eventual entry = entries ++ [entry] := by
    rw [handed_snd]
    rcases hwithin.eventual with hsame | hmade
    · exact Or.inl hsame
    · exact (land_eq_or entries).imp hmade.trans hmade.trans
  rw [and_iff_left hone, handed_failed_iff, handed_snd]
  by_cases hadmitted : ∀ facts, opening = .answered facts → facts.admit resources ≠ .ok ()
  · refine iff_of_true (fun _ => ?_) (Or.inl hadmitted)
    have hsame : (enqueue entry resources opening first second ⟨entries, []⟩).2 = ⟨entries, []⟩ := by
      unfold enqueue
      cases opening with
      | lost => rfl
      | refused => rfl
      | answered facts =>
          dsimp only
          split
          · rfl
          · rfl
          · rename_i hok
            exact absurd hok (hadmitted facts rfl)
    rw [hsame]
    exact h
  · obtain ⟨facts, rfl, hok⟩ : ∃ facts, opening = .answered facts ∧ facts.admit resources = .ok () := by
      simpa only [not_forall, not_not, exists_prop] using hadmitted
    have hpublish : enqueue entry resources (.answered facts) first second ⟨entries, []⟩ =
        publish entry [first, second] ⟨entries, []⟩ := by
      unfold enqueue
      dsimp only
      rw [hok]
    rw [hpublish] at hwithin ⊢
    rw [or_iff_right hadmitted]
    by_cases htaken : taken entry entries = true
    · refine iff_of_true (fun _ => ?_) (Or.inl htaken)
      rcases hwithin.eventual with hsame | hmade
      · rwa [hsame]
      · rwa [hmade, land_of_taken htaken]
    · rw [or_iff_right htaken]
      exact publish_refused_iff h (Bool.eq_false_iff.mpr htaken) first second

/-- A job for a line with room for it. -/
def oneEntry : Submission := ⟨"h1", "mainboard-1", "job.sh", "/work/root", "00:10:00", "2026-09-04T00:00:00"⟩

/-- A line held for an hour more. -/
def oneLine : Facts := ⟨0, some ⟨3600, 64, 3600⟩, false⟩

/-- A write applied before its reply was lost is found by the reading that follows. -/
theorem handed_failed_only_found :
    ((handed oneEntry ⟨some 600, 8⟩ (.answered oneLine) ⟨.lost (some 0), .answered ()⟩ ⟨.lost none, .lost⟩ ⟨[], []⟩).1 =
        .failed →
      oneEntry ∉ (handed oneEntry ⟨some 600, 8⟩ (.answered oneLine) ⟨.lost (some 0), .answered ()⟩ ⟨.lost none, .lost⟩
        ⟨[], []⟩).2.eventual oneEntry) ∧
    (handed oneEntry ⟨some 600, 8⟩ (.answered oneLine) ⟨.lost (some 0), .answered ()⟩ ⟨.lost none, .lost⟩ ⟨[], []⟩).1 =
      .bound "h1" :=
  ⟨((handed_failed_only List.not_mem_nil ⟨some 600, 8⟩ (.answered oneLine) ⟨.lost (some 0), .answered ()⟩
    ⟨.lost none, .lost⟩).mpr (Or.inr (Or.inr rfl))).1, by decide +kernel⟩

/-- A first write whose reply is lost is applied right after the reading that misses it: the second write finds the
entry there, is refused, and the intent of a queued job is closed as failed. -/
theorem handed_failed_only_fails :
    (handed oneEntry ⟨some 600, 8⟩ (.answered oneLine) ⟨.lost (some 1), .answered ()⟩
      ⟨.answered true true, .lost⟩ ⟨[], []⟩).1 = .failed ∧
    oneEntry ∈ (handed oneEntry ⟨some 600, 8⟩ (.answered oneLine) ⟨.lost (some 1), .answered ()⟩
      ⟨.answered true true, .lost⟩ ⟨[], []⟩).2.entries := by
  decide +kernel

end Mainboard.Dispatch
