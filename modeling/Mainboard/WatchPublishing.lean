import Mainboard.BatchWatch

/-! Each settlement a watch reads is published once, whatever passes die and whatever answers arrive between,
in the runs that stay clear of three steps: a settled row silenced by another answer's settlement under its
handle, a pass dying between a cost and its settlement, a settlement stamped before one of the same job. What is
told about an answer and what the pass still owes about it make one cost and one settlement, or nothing. -/

namespace Mainboard.Watch
open OrderedMap StandingLines Receipts

section Publishing

variable {τ : Type} [LinearOrder τ]

/-- The handle a row made from the answer carries. -/
def handleOf (answer : Event τ) : String :=
  if answer.topic = .refused ∨ answer.topic = .held then "" else answer.data.handle.getD ""

omit [LinearOrder τ] in
theorem answered_job (job : String) (answer : Event τ) (swept : Swept) : (answered job answer swept).job = job := by
  unfold answered
  dsimp only
  split
  · rfl
  · split
    · rfl
    · unfold status
      dsimp only
      split <;> rfl

omit [LinearOrder τ] in
theorem answered_handle (job : String) (answer : Event τ) (swept : Swept) :
    (answered job answer swept).handle = handleOf answer := by
  unfold answered handleOf
  dsimp only
  by_cases hrefused : answer.topic = .refused
  · rw [if_pos hrefused, if_pos (Or.inl hrefused)]
  · rw [if_neg hrefused]
    by_cases hheld : answer.topic = .held
    · rw [if_pos hheld, if_pos (Or.inr hheld)]
    · rw [if_neg hheld, if_neg (not_or.mpr ⟨hrefused, hheld⟩)]
      unfold status
      dsimp only
      split <;> rfl

/-- The costs and settlements of a plan about an answer, in order. -/
def planned (plan : List Owed) (about : ℕ) : List Topic :=
  (plan.filter fun owed => owed.note.topic ∈ [Topic.cost, .settled] ∧ owed.about = about).map (·.note.topic)

/-- What the pass under way still owes about an answer. -/
def owes (s : Watching τ) (about : ℕ) : List Topic := (s.pass.map fun pass => planned pass.plan about).getD []

/-- An answer of the journal is about the job, under the handle, named so, and was the job's newest when it came. -/
def Refers (journal : List (Entry τ)) (job : String) (handle : Option String) (about : ℕ) : Prop :=
  ∃ (before : List (Entry τ)) (answer : Entry τ) (after : List (Entry τ)), journal = before ++ answer :: after ∧
    answer.line.topic ∈ offers ∧ answer.line.job = job ∧ handle = some (handleOf answer.line) ∧ answer.about = about ∧
      ∀ other ∈ before, other.line.topic ∈ offers → other.line.job = job →
        other.line.published ≤ answer.line.published

/-- What the journal and the pass under way agree on at every step. -/
structure Sound (s : Watching τ) : Prop where
  stamped : s.journal.Pairwise fun one other => one.line.topic = .settled → other.line.topic = .settled →
    one.line.job = other.line.job → one.line.published ≤ other.line.published
  placed : ∀ entry ∈ s.journal, entry.line.topic ∈ offers → entry.about < s.journal.length
  numbered : s.journal.Pairwise fun one other =>
    one.line.topic ∈ offers → other.line.topic ∈ offers → one.about < other.about
  refers : ∀ entry ∈ s.journal, entry.line.topic = .settled →
    Refers s.journal entry.line.job entry.line.data.handle entry.about
  ordered : s.journal.Pairwise fun one other => one.line.topic = .settled → other.line.topic = .settled →
    one.line.job = other.line.job → one.about ≤ other.about
  blocks : ∀ about, told s.journal about ++ owes s about = [] ∨ told s.journal about ++ owes s about = [.cost, .settled]
  pending : ∀ pass, s.pass = some pass → ∀ owed ∈ pass.plan, owed.note.topic = .settled →
    Refers s.journal owed.note.job owed.note.data.handle owed.about ∧
      ∀ entry ∈ s.journal, entry.line.topic = .settled → entry.line.job = owed.note.job → entry.about ≤ owed.about
  apart : ∀ pass, s.pass = some pass → pass.plan.Pairwise fun one other =>
    one.note.topic = .settled → other.note.topic = .settled → one.note.job ≠ other.note.job
  watching : ∀ pass, s.pass = some pass → ∀ owed ∈ pass.plan, owed.note.topic ∈ watched
  reads : ∀ pass, s.pass = some pass → ∀ about ∈ pass.reads,
    told s.journal about ++ planned pass.plan about = [.cost, .settled]
  seen : ∀ about ∈ s.seen, told s.journal about = [.cost, .settled]

omit [LinearOrder τ] in
theorem told_append (journal : List (Entry τ)) (entry : Entry τ) (about : ℕ) :
    told (journal ++ [entry]) about = told journal about ++
      if entry.line.topic ∈ [Topic.cost, .settled] ∧ entry.about = about then [entry.line.topic] else [] := by
  unfold told
  rw [List.filter_append, List.map_append]
  by_cases hown : entry.line.topic ∈ [Topic.cost, .settled] ∧ entry.about = about
  · rw [if_pos hown, List.filter_cons_of_pos (by simpa using hown)]
    rfl
  · rw [if_neg hown, List.filter_cons_of_neg (by simpa using hown)]
    rfl

theorem planned_cons (owed : Owed) (plan : List Owed) (about : ℕ) :
    planned (owed :: plan) about =
      (if owed.note.topic ∈ [Topic.cost, .settled] ∧ owed.about = about then [owed.note.topic] else []) ++
        planned plan about := by
  unfold planned
  by_cases hown : owed.note.topic ∈ [Topic.cost, .settled] ∧ owed.about = about
  · rw [if_pos hown, List.filter_cons_of_pos (by simpa using hown)]
    rfl
  · rw [if_neg hown, List.filter_cons_of_neg (by simpa using hown)]
    rfl

theorem Refers.append {journal : List (Entry τ)} {job : String} {handle : Option String} {about : ℕ}
    (h : Refers journal job handle about) (entry : Entry τ) : Refers (journal ++ [entry]) job handle about := by
  obtain ⟨before, answer, after, rfl, hrest⟩ := h
  exact ⟨before, answer, after ++ [entry], by simp, hrest⟩

/-- The cursor's line is of its topics and job, as late as the ones before it and later than the ones after it,
and is about what its entry is about. -/
theorem exists_newest {journal : List (Entry τ)} {topics : List Topic} {job : String} {line : Event τ}
    (h : get (latest (journal.map Entry.line) topics) job = some line) :
    ∃ (before : List (Entry τ)) (entry : Entry τ) (after : List (Entry τ)), journal = before ++ entry :: after ∧
      entry.line = line ∧ line.topic ∈ topics ∧ line.job = job ∧ aboutOf journal line = entry.about ∧
        (∀ other ∈ before, other.line.topic ∈ topics → other.line.job = job →
          other.line.published ≤ line.published) ∧
        ∀ other ∈ after, other.line.topic ∈ topics → other.line.job = job →
          other.line.published < line.published := by
  have hlines : about (journal.map Entry.line) topics job =
      (journal.filter fun entry => entry.line.topic ∈ topics ∧ entry.line.job = job).map Entry.line := by
    unfold about
    rw [List.filter_map]
    rfl
  rw [get_latest, hlines] at h
  obtain ⟨early, late, hsplit, hearly, hlate⟩ := newest_split Event.published h
  obtain ⟨kept, rest, hkept, rfl, hrest⟩ := List.map_eq_append_iff.mp hsplit
  obtain ⟨entry, after, rfl, rfl, rfl⟩ := List.map_eq_cons_iff.mp hrest
  obtain ⟨first, second, rfl, rfl, hsecond⟩ := List.filter_eq_append_iff.mp hkept
  obtain ⟨skipped, third, rfl, hskipped, hown, rfl⟩ := List.filter_eq_cons_iff.mp hsecond
  rw [decide_eq_true_eq] at hown
  have hafter : ∀ other ∈ third, other.line.topic ∈ topics → other.line.job = job →
      other.line.published < entry.line.published := fun other hin htopic hjob =>
    hlate _ (List.mem_map_of_mem (List.mem_filter.mpr ⟨hin, decide_eq_true ⟨htopic, hjob⟩⟩))
  refine ⟨first ++ skipped, entry, third, by simp, rfl, hown.1, hown.2, ?_, fun other hin htopic hjob => ?_, hafter⟩
  · -- No later entry is the same line: it would be later than itself.
    unfold aboutOf
    rw [← List.append_assoc, List.reverse_append, List.reverse_cons, List.append_assoc, List.find?_append,
      List.find?_eq_none.mpr, Option.none_or, List.singleton_append, List.find?_cons_of_pos (by simp)]
    · rfl
    · intro other hin hsame
      rw [decide_eq_true_eq] at hsame
      have hlt := hafter other (List.mem_reverse.mp hin) (hsame ▸ hown.1) (hsame ▸ hown.2)
      rw [hsame] at hlt
      exact lt_irrefl _ hlt
  · rcases List.mem_append.mp hin with hfirst | hskip
    · exact hearly _ (List.mem_map_of_mem (List.mem_filter.mpr ⟨hfirst, decide_eq_true ⟨htopic, hjob⟩⟩))
    · exact absurd (decide_eq_true ⟨htopic, hjob⟩) (hskipped other hskip)

/-- A row of a pass is made from the newest answer about its job, and is about that one. -/
theorem exists_answer {journal : List (Entry τ)} {swept : Swept} {row : JobStatus × ℕ}
    (h : row ∈ rowsOf journal swept) :
    ∃ (before : List (Entry τ)) (entry : Entry τ) (after : List (Entry τ)), journal = before ++ entry :: after ∧
      entry.line.topic ∈ offers ∧ entry.line.job = row.1.job ∧ row.1.handle = handleOf entry.line ∧ row.2 = entry.about ∧
        (∀ other ∈ before, other.line.topic ∈ offers → other.line.job = row.1.job →
          other.line.published ≤ entry.line.published) ∧
        ∀ other ∈ after, other.line.topic ∈ offers → other.line.job = row.1.job →
          other.line.published < entry.line.published := by
  obtain ⟨answer, hanswer, rfl⟩ := List.mem_map.mp h
  have hget := get_of_mem (nodup_keys_latest _ _) hanswer
  obtain ⟨before, entry, after, hjournal, hline, htopic, hjob, habout, hbefore, hafter⟩ := exists_newest hget
  dsimp only
  rw [answered_job, answered_handle]
  rw [← hline] at htopic hjob hbefore hafter ⊢
  exact ⟨before, entry, after, hjournal, htopic, hjob, rfl, hline ▸ habout, hbefore, hafter⟩

/-- The answer a row is made from is one the row refers to. -/
theorem refers_row {journal : List (Entry τ)} {swept : Swept} {row : JobStatus × ℕ} (h : row ∈ rowsOf journal swept) :
    Refers journal row.1.job (some row.1.handle) row.2 := by
  obtain ⟨before, answer, after, hjournal, hoffer, hjob, hhandle, habout, hbefore, -⟩ := exists_answer h
  exact ⟨before, answer, after, hjournal, hoffer, hjob, congrArg some hhandle, habout.symm, hbefore⟩

theorem nodup_rowsOf_job (journal : List (Entry τ)) (swept : Swept) :
    ((rowsOf journal swept).map (·.1.job)).Nodup := by
  have hjobs : (rowsOf journal swept).map (·.1.job) = (offered (journal.map Entry.line)).map (·.1) := by
    unfold rowsOf
    rw [List.map_map]
    exact List.map_congr_left fun entry _ => answered_job entry.1 entry.2 swept
  rw [hjobs]
  exact nodup_keys_latest _ _

/-- Of the answers of a job that were its newest once, the one its row is made from has the greatest number. -/
theorem Sound.le_row {s : Watching τ} (h : Sound s) {swept : Swept} {row : JobStatus × ℕ}
    (hrow : row ∈ rowsOf s.journal swept) {job : String} {handle : Option String} {about : ℕ}
    (hrefers : Refers s.journal job handle about) (hjob : job = row.1.job) : about ≤ row.2 := by
  obtain ⟨before, entry, after, hjournal, hoffer, hentryJob, -, habout, -, hafter⟩ := exists_answer hrow
  obtain ⟨early, answer, late, hjournal', htopic, hanswerJob, -, rfl, hearly⟩ := hrefers
  have hnumbered := h.numbered
  rw [habout]
  rw [hjournal] at hjournal' hnumbered
  obtain ⟨-, -, hbefore⟩ := List.pairwise_append.mp hnumbered
  rcases List.append_eq_append_iff.mp hjournal' with ⟨between, rfl, hrest⟩ | ⟨between, rfl, hrest⟩
  · rcases List.cons_eq_append_iff.mp hrest with ⟨-, hsame⟩ | ⟨between, rfl, rfl⟩
    · rw [(List.cons.inj hsame).1]
    · -- An answer after the row's is older than it, though the row's was before it.
      have hlt := hafter answer (List.mem_append_right _ List.mem_cons_self) htopic (hanswerJob.trans hjob)
      have hle := hearly entry (List.mem_append_right _ List.mem_cons_self) hoffer (hentryJob.trans hjob.symm)
      exact absurd hlt (not_lt.mpr hle)
  · rcases List.cons_eq_append_iff.mp hrest with ⟨-, hsame⟩ | ⟨between, rfl, rfl⟩
    · rw [(List.cons.inj hsame).1]
    · exact le_of_lt (hbefore answer (List.mem_append_right _ List.mem_cons_self) entry List.mem_cons_self htopic hoffer)

/-- Two answers of one number are one entry. -/
theorem Sound.answer_unique {s : Watching τ} (h : Sound s) {one other : Entry τ} (hone : one ∈ s.journal)
    (hother : other ∈ s.journal) (htopic : one.line.topic ∈ offers) (htopic' : other.line.topic ∈ offers)
    (habout : one.about = other.about) : one = other := by
  by_contra hne
  have hnumbered := h.numbered
  rcases List.append_of_mem hone with ⟨before, after, hjournal⟩
  rw [hjournal] at hother hnumbered
  obtain ⟨-, hafter, hbefore⟩ := List.pairwise_append.mp hnumbered
  rcases List.mem_append.mp hother with hin | hin
  · have hlt := hbefore other hin one List.mem_cons_self htopic' htopic
    omega
  · rcases List.mem_cons.mp hin with rfl | hin
    · exact hne rfl
    · have hlt := (List.pairwise_cons.mp hafter).1 other hin htopic htopic'
      omega

theorem Sound.nodup_rows {s : Watching τ} (h : Sound s) (swept : Swept) :
    ((rowsOf s.journal swept).map (·.2)).Nodup := by
  have hjobs := nodup_rowsOf_job s.journal swept
  unfold List.Nodup at hjobs ⊢
  rw [List.pairwise_map] at hjobs ⊢
  refine hjobs.imp_of_mem fun {one other} hone hother hne hsame => hne ?_
  obtain ⟨before, entry, after, hjournal, hoffer, hjob, -, habout, -⟩ := exists_answer hone
  obtain ⟨before', entry', after', hjournal', hoffer', hjob', -, habout', -⟩ := exists_answer hother
  have hin : entry ∈ s.journal := hjournal ▸ List.mem_append_right _ List.mem_cons_self
  have hin' : entry' ∈ s.journal := hjournal' ▸ List.mem_append_right _ List.mem_cons_self
  have hentry := h.answer_unique hin hin' hoffer hoffer' (habout.symm.trans (hsame.trans habout'))
  rw [← hjob, ← hjob', hentry]

theorem planned_append (plan rest : List Owed) (about : ℕ) :
    planned (plan ++ rest) about = planned plan about ++ planned rest about := by
  unfold planned
  rw [List.filter_append, List.map_append]

/-- A row puts its cost and its settlement into the plan where its settlement is not in the lines yet. -/
theorem planned_record (row : JobStatus) (events : List (Event τ)) (place about : ℕ) :
    planned ((record row events).map fun note => ⟨note, place⟩) about =
      if landed row events ∧ place = about then [.cost, .settled] else [] := by
  have hother : ∀ notes : List Note, (∀ note ∈ notes, note.topic = .state) →
      planned (notes.map fun note => ⟨note, place⟩) about = [] := by
    intro notes hnotes
    unfold planned
    rw [List.map_eq_nil_iff, List.filter_eq_nil_iff]
    intro owed howed
    obtain ⟨note, hnote, rfl⟩ := List.mem_map.mp howed
    simp [hnotes note hnote]
  unfold record
  dsimp only
  rw [List.map_append, planned_append, hother _ (by split <;> simp), List.nil_append]
  by_cases hlanded : landed row events = true
  · rw [if_pos hlanded]
    by_cases hplace : place = about
    · rw [if_pos ⟨hlanded, hplace⟩]
      simp [planned, hplace]
    · rw [if_neg fun h => hplace h.2]
      simp [planned, hplace]
  · rw [if_neg hlanded, if_neg fun h => hlanded h.1]
    rfl

/-- What a beginning pass plans to tell about an answer: a cost and a settlement, where its row landed. -/
theorem planned_planOf (journal : List (Entry τ)) (swept : Swept) (about : ℕ) :
    planned (planOf journal swept) about = (rowsOf journal swept).flatMap fun row =>
      if landed row.1 (journal.map Entry.line) ∧ row.2 = about then [.cost, .settled] else [] := by
  unfold planOf
  dsimp only
  rw [planned_append]
  have hclose : planned ((close (rows (journal.map Entry.line) swept) (journal.map Entry.line)).map fun note =>
      ⟨note, journal.length⟩) about = [] := by
    unfold close
    split <;> rfl
  rw [hclose, List.append_nil]
  induction rowsOf journal swept with
  | nil => rfl
  | cons row rows ih => rw [List.flatMap_cons, planned_append, ih, planned_record, List.flatMap_cons]

/-- Of rows with answers of their own, at most one contributes to an answer. -/
theorem flatMap_told {rows : List (JobStatus × ℕ)} (hnodup : (rows.map (·.2)).Nodup) (lands : JobStatus → Bool)
    (about : ℕ) :
    (rows.flatMap fun row => if lands row.1 ∧ row.2 = about then [Topic.cost, .settled] else []) = [] ∧
        (∀ row ∈ rows, row.2 = about → lands row.1 = false) ∨
      (rows.flatMap fun row => if lands row.1 ∧ row.2 = about then [Topic.cost, .settled] else []) =
        [.cost, .settled] ∧ ∃ row ∈ rows, row.2 = about ∧ lands row.1 = true := by
  induction rows with
  | nil => exact Or.inl ⟨rfl, fun row hrow => by cases hrow⟩
  | cons row rows ih =>
      rw [List.map_cons, List.nodup_cons] at hnodup
      rw [List.flatMap_cons]
      by_cases hown : lands row.1 = true ∧ row.2 = about
      · -- The rows after it are about other answers.
        have hothers : (rows.flatMap fun row => if lands row.1 ∧ row.2 = about then [Topic.cost, .settled] else []) =
            [] := by
          refine List.flatMap_eq_nil_iff.mpr fun other hother => if_neg fun h => hnodup.1 ?_
          rw [hown.2, ← h.2]
          exact List.mem_map_of_mem hother
        rw [if_pos hown, hothers]
        exact Or.inr ⟨rfl, row, List.mem_cons_self, hown.2, hown.1⟩
      · rw [if_neg hown, List.nil_append]
        rcases ih hnodup.2 with ⟨hnone, hall⟩ | ⟨hsome, other, hother, hrest⟩
        · refine Or.inl ⟨hnone, fun other hother habout => ?_⟩
          rcases List.mem_cons.mp hother with rfl | hother
          · simpa using fun h => hown ⟨h, habout⟩
          · exact hall other hother habout
        · exact Or.inr ⟨hsome, other, List.mem_cons_of_mem _ hother, hrest⟩

omit [LinearOrder τ] in
theorem settled_mem_told {journal : List (Entry τ)} {about : ℕ} :
    Topic.settled ∈ told journal about ↔ ∃ entry ∈ journal, entry.line.topic = .settled ∧ entry.about = about := by
  unfold told
  rw [List.mem_map]
  constructor
  · rintro ⟨entry, hentry, htopic⟩
    obtain ⟨hin, hown⟩ := List.mem_filter.mp hentry
    exact ⟨entry, hin, htopic, (of_decide_eq_true hown).2⟩
  · rintro ⟨entry, hin, htopic, habout⟩
    refine ⟨entry, List.mem_filter.mpr ⟨hin, decide_eq_true ⟨?_, habout⟩⟩, htopic⟩
    rw [htopic]
    decide

theorem Sound.told_idle {s : Watching τ} (h : Sound s) (hpass : s.pass = none) (about : ℕ) :
    told s.journal about = [] ∨ told s.journal about = [.cost, .settled] := by
  have hblocks := h.blocks about
  unfold owes at hblocks
  rw [hpass, Option.map_none, Option.getD_none, List.append_nil] at hblocks
  exact hblocks

/-- A row whose answer has its settlement in the lines does not land again. -/
theorem Sound.not_landed {s : Watching τ} (h : Sound s) {swept : Swept} {row : JobStatus × ℕ}
    (hrow : row ∈ rowsOf s.journal swept) {entry : Entry τ} (hentry : entry ∈ s.journal)
    (htopic : entry.line.topic = .settled) (habout : entry.about = row.2) :
    landed row.1 (s.journal.map Entry.line) = false := by
  obtain ⟨before, answer, after, hjournal, hoffer, hjob, hhandle, hplace, -⟩ := exists_answer hrow
  have hanswer : answer ∈ s.journal := hjournal ▸ List.mem_append_right _ List.mem_cons_self
  -- Any settlement about this answer is of its job and under its handle.
  have hown : ∀ settled ∈ s.journal, settled.line.topic = .settled → settled.about = row.2 →
      settled.line.job = row.1.job ∧ settled.line.data.handle = some row.1.handle := by
    intro settled hsettled hsettledTopic hsame
    obtain ⟨early, other, late, hsplit, hotherOffer, hotherJob, hotherHandle, hotherAbout, -⟩ :=
      h.refers settled hsettled hsettledTopic
    have hother : other ∈ s.journal := hsplit ▸ List.mem_append_right _ List.mem_cons_self
    obtain rfl := h.answer_unique hother hanswer hotherOffer hoffer (hotherAbout.trans (hsame.trans hplace))
    exact ⟨hotherJob.symm.trans hjob, hotherHandle.trans (congrArg some hhandle.symm)⟩
  obtain ⟨hentryJob, -⟩ := hown entry hentry htopic habout
  have hkey : row.1.job ∈ (latest (s.journal.map Entry.line) [.settled]).map (·.1) :=
    mem_keys_latest.mpr ⟨entry.line, List.mem_map_of_mem hentry, by simpa using htopic, hentryJob⟩
  cases hget : get (latest (s.journal.map Entry.line) [.settled]) row.1.job with
  | none => exact absurd hkey ((get_eq_none_iff _ _).mp hget)
  | some line =>
      obtain ⟨early, last, late, hsplit, hline, hlineTopic, hlineJob, -, -, hlate⟩ := exists_newest hget
      have hlast : last ∈ s.journal := hsplit ▸ List.mem_append_right _ List.mem_cons_self
      have hlastTopic : last.line.topic = .settled := by
        rw [hline]
        simpa using hlineTopic
      have hlastJob : last.line.job = row.1.job := by
        rw [hline]
        exact hlineJob
      -- The newest settlement of the job is about no earlier answer, and about none after the row's.
      have hle : entry.about ≤ last.about := by
        have hordered := h.ordered
        have hstamped := h.stamped
        have hin := hentry
        rw [hsplit] at hordered hstamped hin
        rcases List.mem_append.mp hin with hin | hin
        · exact (List.pairwise_append.mp hordered).2.2 entry hin last List.mem_cons_self htopic hlastTopic
            (hentryJob.trans hlastJob.symm)
        · rcases List.mem_cons.mp hin with rfl | hin
          · exact le_rfl
          · have hafter := (List.pairwise_append.mp hstamped).2.1
            have hle := (List.pairwise_cons.mp hafter).1 entry hin hlastTopic htopic (hlastJob.trans hentryJob.symm)
            have hlt := hlate entry hin (by simpa using htopic) hentryJob
            rw [hline] at hle
            exact absurd hlt (not_lt.mpr hle)
      have hge : last.about ≤ row.2 := h.le_row hrow (h.refers last hlast hlastTopic) hlastJob
      have hhandled := (hown last hlast hlastTopic (le_antisymm hge (habout ▸ hle))).2
      rw [hline] at hhandled
      unfold landed
      rw [hget]
      simp [hhandled]

/-- A settled row that does not land has its settlement in the lines. -/
theorem Sound.told_of_not_landed {s : Watching τ} (h : Sound s) (hpass : s.pass = none) {row : JobStatus × ℕ}
    (hsettled : terminal (some row.1.verdict) = true) (hheard : ¬ Silenced s.journal row)
    (hnot : landed row.1 (s.journal.map Entry.line) = false) : told s.journal row.2 = [.cost, .settled] := by
  unfold landed at hnot
  rw [hsettled, Bool.true_and, Bool.not_eq_false', Option.any_eq_true] at hnot
  obtain ⟨line, hget, hhandle⟩ := hnot
  obtain ⟨before, entry, after, hjournal, hline, htopic, -, habout, -⟩ := exists_newest hget
  have hown : aboutOf s.journal line = row.2 := by
    by_contra hother
    exact hheard ⟨line, hget, of_decide_eq_true hhandle, hother⟩
  have hin : entry ∈ s.journal := hjournal ▸ List.mem_append_right _ List.mem_cons_self
  have htold : Topic.settled ∈ told s.journal row.2 := by
    refine settled_mem_told.mpr ⟨entry, hin, ?_, habout.symm.trans hown⟩
    rw [hline]
    simpa using htopic
  rcases h.told_idle hpass row.2 with hnone | hboth
  · rw [hnone] at htold
    cases htold
  · exact hboth

/-- A note of a row is a state, a cost, or the settlement of the row's job under its handle. -/
theorem mem_record {row : JobStatus} {events : List (Event τ)} {note : Note} (h : note ∈ record row events) :
    note.topic = .state ∨ note.topic = .cost ∨
      (note.topic = .settled ∧ note.job = row.job ∧ note.data.handle = some row.handle) := by
  unfold record at h
  dsimp only at h
  rcases List.mem_append.mp h with hstate | hlanded
  · split at hstate
    · rw [List.mem_singleton.mp hstate]
      exact Or.inl rfl
    · cases hstate
  · split at hlanded
    · rcases List.mem_cons.mp hlanded with rfl | hlanded
      · exact Or.inr (Or.inl rfl)
      · rw [List.mem_singleton.mp hlanded]
        exact Or.inr (Or.inr ⟨rfl, rfl, rfl⟩)
    · cases hlanded

/-- What a pass plans is a note of one of its rows, or the announcement of the end. -/
theorem mem_planOf {journal : List (Entry τ)} {swept : Swept} {owed : Owed} (h : owed ∈ planOf journal swept) :
    (∃ row ∈ rowsOf journal swept, owed.about = row.2 ∧ owed.note ∈ record row.1 (journal.map Entry.line)) ∨
      owed.note.topic = .closed := by
  unfold planOf at h
  dsimp only at h
  rcases List.mem_append.mp h with hrows | hclose
  · obtain ⟨row, hrow, howed⟩ := List.mem_flatMap.mp hrows
    obtain ⟨note, hnote, rfl⟩ := List.mem_map.mp howed
    exact Or.inl ⟨row, hrow, rfl, hnote⟩
  · obtain ⟨note, hnote, rfl⟩ := List.mem_map.mp hclose
    unfold close at hnote
    split at hnote
    · rw [List.mem_singleton.mp hnote]
      exact Or.inr rfl
    · cases hnote

/-- A settlement in the plan of a beginning pass is about a row of the pass, its job and its handle. -/
theorem mem_planOf_settled {journal : List (Entry τ)} {swept : Swept} {owed : Owed} (h : owed ∈ planOf journal swept)
    (htopic : owed.note.topic = .settled) : ∃ row ∈ rowsOf journal swept, owed.note.job = row.1.job ∧
      owed.note.data.handle = some row.1.handle ∧ owed.about = row.2 := by
  rcases mem_planOf h with ⟨row, hrow, habout, hnote⟩ | hclosed
  · rcases mem_record hnote with hstate | hcost | ⟨-, hjob, hhandle⟩
    · rw [hstate] at htopic
      cases htopic
    · rw [hcost] at htopic
      cases htopic
    · exact ⟨row, hrow, hjob, hhandle, habout⟩
  · rw [hclosed] at htopic
    cases htopic

theorem mem_planOf_watched {journal : List (Entry τ)} {swept : Swept} {owed : Owed} (h : owed ∈ planOf journal swept) :
    owed.note.topic ∈ watched := by
  have hall : ∀ topic : Topic, topic = .state ∨ topic = .cost ∨ topic = .settled ∨ topic = .closed →
      topic ∈ watched := by
    rintro topic (rfl | rfl | rfl | rfl) <;> decide
  refine hall _ ?_
  rcases mem_planOf h with ⟨row, -, -, hnote⟩ | hclosed
  · rcases mem_record hnote with hstate | hcost | ⟨hsettled, -, -⟩
    · exact Or.inl hstate
    · exact Or.inr (Or.inl hcost)
    · exact Or.inr (Or.inr (Or.inl hsettled))
  · exact Or.inr (Or.inr (Or.inr hclosed))

/-- The settlements a pass plans are of different jobs. -/
theorem planOf_apart (journal : List (Entry τ)) (swept : Swept) : (planOf journal swept).Pairwise fun one other =>
    one.note.topic = .settled → other.note.topic = .settled → one.note.job ≠ other.note.job := by
  have hjobs := nodup_rowsOf_job journal swept
  unfold List.Nodup at hjobs
  rw [List.pairwise_map] at hjobs
  unfold planOf
  refine List.pairwise_append.mpr ⟨List.pairwise_flatMap.mpr ⟨fun row _ => ?_, ?_⟩, ?_, ?_⟩
  · -- Of one row only the last note is a settlement.
    unfold record
    dsimp only
    split
    · split <;> simp
    · split <;> simp
  · refine hjobs.imp fun {one other} hne x hx y hy hxTopic hyTopic => ?_
    obtain ⟨note, hnote, rfl⟩ := List.mem_map.mp hx
    obtain ⟨note', hnote', rfl⟩ := List.mem_map.mp hy
    have hjob : ∀ {row : JobStatus} {note : Note}, note ∈ record row (journal.map Entry.line) →
        note.topic = .settled → note.job = row.job := by
      intro row note hin htopic
      rcases mem_record hin with hstate | hcost | ⟨-, hjob, -⟩
      · rw [hstate] at htopic
        cases htopic
      · rw [hcost] at htopic
        cases htopic
      · exact hjob
    rw [hjob hnote hxTopic, hjob hnote' hyTopic]
    exact hne
  · unfold close
    split <;> simp
  · intro one _ other hother _ htopic
    obtain ⟨note, hnote, rfl⟩ := List.mem_map.mp hother
    unfold close at hnote
    split at hnote
    · rw [List.mem_singleton.mp hnote] at htopic
      cases htopic
    · cases hnote

theorem Sound.begin {s : Watching τ} (h : Sound s) (hpass : s.pass = none) {swept : Swept}
    (hclear : Clear s (.begin swept)) :
    Sound { s with pass := some ⟨planOf s.journal swept, readsOf s.journal swept⟩ } := by
  have hplanned := planned_planOf s.journal swept
  have htold : ∀ about, (planned (planOf s.journal swept) about = [] ∧
      ∀ row ∈ rowsOf s.journal swept, row.2 = about → landed row.1 (s.journal.map Entry.line) = false) ∨
        (planned (planOf s.journal swept) about = [.cost, .settled] ∧ told s.journal about = []) := by
    intro about
    rw [hplanned]
    rcases flatMap_told (h.nodup_rows swept) (fun row => landed row (s.journal.map Entry.line)) about with
      hnone | ⟨hsome, row, hrow, habout, hlanded⟩
    · exact Or.inl hnone
    · refine Or.inr ⟨hsome, (h.told_idle hpass about).resolve_right fun hboth => ?_⟩
      have hin : Topic.settled ∈ told s.journal about := hboth ▸ List.mem_cons_of_mem _ List.mem_cons_self
      obtain ⟨entry, hentry, htopic, hown⟩ := settled_mem_told.mp hin
      have hnot := h.not_landed hrow hentry htopic (hown.trans habout.symm)
      rw [hnot] at hlanded
      cases hlanded
  refine ⟨h.stamped, h.placed, h.numbered, h.refers, h.ordered, fun about => ?_, ?_, ?_, ?_, ?_, h.seen⟩
  · change told s.journal about ++ planned (planOf s.journal swept) about = [] ∨
      told s.journal about ++ planned (planOf s.journal swept) about = [.cost, .settled]
    rcases htold about with ⟨hnone, -⟩ | ⟨hboth, htold⟩
    · rw [hnone, List.append_nil]
      exact h.told_idle hpass about
    · rw [hboth, htold]
      exact Or.inr rfl
  · rintro pass hsome owed howed htopic
    obtain rfl := Option.some.inj hsome
    obtain ⟨row, hrow, hjob, hhandle, habout⟩ := mem_planOf_settled howed htopic
    rw [hjob, hhandle, habout]
    exact ⟨refers_row hrow, fun entry hentry hentryTopic hentryJob =>
      h.le_row hrow (h.refers entry hentry hentryTopic) hentryJob⟩
  · rintro pass hsome
    obtain rfl := Option.some.inj hsome
    exact planOf_apart s.journal swept
  · rintro pass hsome owed howed
    obtain rfl := Option.some.inj hsome
    exact mem_planOf_watched howed
  · rintro pass hsome about habout
    obtain rfl := Option.some.inj hsome
    obtain ⟨row, hrow, rfl⟩ := List.mem_map.mp habout
    obtain ⟨hrow, hsettled⟩ := List.mem_filter.mp hrow
    change told s.journal row.2 ++ planned (planOf s.journal swept) row.2 = _
    rcases htold row.2 with ⟨hnone, hnot⟩ | ⟨hboth, htold⟩
    · rw [hnone, List.append_nil]
      exact h.told_of_not_landed hpass hsettled (hclear row hrow hsettled) (hnot row hrow rfl)
    · rw [hboth, htold]
      rfl

theorem Sound.publish {s : Watching τ} (h : Sound s) {owed : Owed} {plan : List Owed} {reads : List ℕ}
    (hpass : s.pass = some ⟨owed :: plan, reads⟩) {stamp : τ} (hclear : Clear s (.publish stamp)) :
    Sound { s with journal := s.journal ++ [owed.entry stamp], pass := some ⟨plan, reads⟩ } := by
  have hwatched : owed.note.topic ∈ watched := h.watching _ hpass owed List.mem_cons_self
  have hnotOffer : owed.note.topic ∉ offers := by
    have hapart : ∀ topic ∈ watched, topic ∉ offers := by decide
    exact hapart _ hwatched
  obtain ⟨happart, hplan⟩ := List.pairwise_cons.mp (h.apart _ hpass)
  have hmoved : ∀ about, told (s.journal ++ [owed.entry stamp]) about ++ planned plan about =
      told s.journal about ++ planned (owed :: plan) about := by
    intro about
    rw [told_append, planned_cons, List.append_assoc]
    rfl
  have howes : ∀ about, owes s about = planned (owed :: plan) about := by
    intro about
    unfold owes
    rw [hpass]
    rfl
  refine ⟨?_, ?_, ?_, ?_, ?_, fun about => ?_, ?_, ?_, ?_, ?_, fun about habout => ?_⟩
  · refine List.pairwise_append.mpr
      ⟨h.stamped, List.pairwise_singleton _ _, fun one hone other hother honeTopic htopic hjob => ?_⟩
    rw [List.mem_singleton.mp hother] at htopic hjob ⊢
    exact hclear _ hpass owed rfl htopic one hone honeTopic hjob
  · intro entry hentry htopic
    rw [List.length_append, List.length_singleton]
    rcases List.mem_append.mp hentry with hold | hnew
    · exact Nat.lt_succ_of_lt (h.placed entry hold htopic)
    · rw [List.mem_singleton.mp hnew] at htopic
      exact absurd htopic hnotOffer
  · refine List.pairwise_append.mpr ⟨h.numbered, List.pairwise_singleton _ _, fun one _ other hother _ htopic => ?_⟩
    rw [List.mem_singleton.mp hother] at htopic
    exact absurd htopic hnotOffer
  · intro entry hentry htopic
    rcases List.mem_append.mp hentry with hold | hnew
    · exact (h.refers entry hold htopic).append _
    · rw [List.mem_singleton.mp hnew] at htopic ⊢
      exact (h.pending _ hpass owed List.mem_cons_self htopic).1.append _
  · refine List.pairwise_append.mpr
      ⟨h.ordered, List.pairwise_singleton _ _, fun one hone other hother honeTopic htopic hjob => ?_⟩
    rw [List.mem_singleton.mp hother] at htopic hjob ⊢
    exact (h.pending _ hpass owed List.mem_cons_self htopic).2 one hone honeTopic hjob
  · have hblocks := h.blocks about
    rw [howes] at hblocks
    rw [← hmoved] at hblocks
    exact hblocks
  · rintro pass hsome later hlater htopic
    obtain rfl := Option.some.inj hsome
    obtain ⟨hrefers, hle⟩ := h.pending _ hpass later (List.mem_cons_of_mem _ hlater) htopic
    refine ⟨hrefers.append _, fun entry hentry hentryTopic hjob => ?_⟩
    rcases List.mem_append.mp hentry with hold | hnew
    · exact hle entry hold hentryTopic hjob
    · rw [List.mem_singleton.mp hnew] at hentryTopic hjob
      exact absurd hjob (happart later hlater hentryTopic htopic)
  · rintro pass hsome
    obtain rfl := Option.some.inj hsome
    exact hplan
  · rintro pass hsome later hlater
    obtain rfl := Option.some.inj hsome
    exact h.watching _ hpass later (List.mem_cons_of_mem _ hlater)
  · rintro pass hsome about habout
    obtain rfl := Option.some.inj hsome
    rw [hmoved]
    exact h.reads _ hpass about habout
  · -- Nothing more is owed about an answer whose settlement is out.
    have hblocks := h.blocks about
    have hseen := h.seen about habout
    rw [howes, hseen] at hblocks
    have hnone : planned (owed :: plan) about = [] := by
      rcases hblocks with hnil | hboth
      · cases hnil
      · exact List.append_right_eq_self.mp hboth
    have hsplit := hmoved about
    rw [hnone, List.append_nil, hseen] at hsplit
    rw [planned_cons] at hnone
    rw [(List.append_eq_nil_iff.mp hnone).2, List.append_nil] at hsplit
    exact hsplit

theorem Sound.arrive {s : Watching τ} (h : Sound s) {line : Event τ} (hnot : line.topic ∉ watched) :
    Sound { s with journal := s.journal ++ [⟨line, s.journal.length⟩] } := by
  have hsettled : line.topic ≠ .settled := fun hsame => hnot (hsame ▸ by decide)
  have htold : ∀ about, told (s.journal ++ [⟨line, s.journal.length⟩]) about = told s.journal about := by
    intro about
    have hnone : ¬ (line.topic ∈ [Topic.cost, .settled] ∧ s.journal.length = about) := by
      rintro ⟨hin, -⟩
      have hwatched : ∀ topic ∈ [Topic.cost, .settled], topic ∈ watched := by decide
      exact hnot (hwatched _ hin)
    rw [told_append, if_neg hnone, List.append_nil]
  refine ⟨?_, ?_, ?_, ?_, ?_, fun about => ?_, ?_, h.apart, h.watching, ?_, fun about habout => ?_⟩
  · refine List.pairwise_append.mpr ⟨h.stamped, List.pairwise_singleton _ _, fun one _ other hother _ htopic => ?_⟩
    rw [List.mem_singleton.mp hother] at htopic
    exact absurd htopic hsettled
  · intro entry hentry htopic
    rw [List.length_append, List.length_singleton]
    rcases List.mem_append.mp hentry with hold | hnew
    · exact Nat.lt_succ_of_lt (h.placed entry hold htopic)
    · rw [List.mem_singleton.mp hnew]
      exact Nat.lt_succ_self _
  · refine List.pairwise_append.mpr
      ⟨h.numbered, List.pairwise_singleton _ _, fun one hone other hother honeTopic _ => ?_⟩
    rw [List.mem_singleton.mp hother]
    exact h.placed one hone honeTopic
  · intro entry hentry htopic
    rcases List.mem_append.mp hentry with hold | hnew
    · exact (h.refers entry hold htopic).append _
    · rw [List.mem_singleton.mp hnew] at htopic
      exact absurd htopic hsettled
  · refine List.pairwise_append.mpr ⟨h.ordered, List.pairwise_singleton _ _, fun one _ other hother _ htopic => ?_⟩
    rw [List.mem_singleton.mp hother] at htopic
    exact absurd htopic hsettled
  · have hblocks := h.blocks about
    rw [← htold] at hblocks
    exact hblocks
  · rintro pass hsome owed howed htopic
    obtain ⟨hrefers, hle⟩ := h.pending pass hsome owed howed htopic
    refine ⟨hrefers.append _, fun entry hentry hentryTopic hjob => ?_⟩
    rcases List.mem_append.mp hentry with hold | hnew
    · exact hle entry hold hentryTopic hjob
    · rw [List.mem_singleton.mp hnew] at hentryTopic
      exact absurd hentryTopic hsettled
  · rintro pass hsome about habout
    rw [htold]
    exact h.reads pass hsome about habout
  · rw [htold]
    exact h.seen about habout

theorem Sound.finish {s : Watching τ} (h : Sound s) {reads : List ℕ} (hpass : s.pass = some ⟨[], reads⟩) :
    Sound { s with pass := none, seen := s.seen ++ reads } := by
  refine ⟨h.stamped, h.placed, h.numbered, h.refers, h.ordered, fun about => ?_, fun pass hsome => (by cases hsome),
    fun pass hsome => (by cases hsome), fun pass hsome => (by cases hsome), fun pass hsome => (by cases hsome),
    fun about habout => ?_⟩
  · have hblocks := h.blocks about
    unfold owes at hblocks
    rw [hpass] at hblocks
    exact hblocks
  · rcases List.mem_append.mp habout with hold | hnew
    · exact h.seen about hold
    · have hreads := h.reads _ hpass about hnew
      rwa [show planned [] about = [] from rfl, List.append_nil] at hreads

theorem Sound.crash {s : Watching τ} (h : Sound s) (hclear : Clear s .crash) : Sound { s with pass := none } := by
  refine ⟨h.stamped, h.placed, h.numbered, h.refers, h.ordered, fun about => ?_, fun pass hsome => (by cases hsome),
    fun pass hsome => (by cases hsome), fun pass hsome => (by cases hsome), fun pass hsome => (by cases hsome), h.seen⟩
  -- The pass was between answers, so nothing or all was told about each.
  have hnot : told s.journal about ≠ [.cost] := by
    intro htold
    have hin : Topic.cost ∈ told s.journal about := htold ▸ List.mem_cons_self
    obtain ⟨entry, hentry, -⟩ := List.mem_map.mp hin
    obtain ⟨hentry, hown⟩ := List.mem_filter.mp hentry
    refine hclear entry hentry ?_
    rw [(of_decide_eq_true hown).2]
    exact htold
  show told s.journal about ++ [] = [] ∨ told s.journal about ++ [] = [.cost, .settled]
  rw [List.append_nil]
  rcases h.blocks about with hnil | hboth
  · exact Or.inl (List.append_eq_nil_iff.mp hnil).1
  · rcases List.append_eq_cons_iff.mp hboth with ⟨hnil, -⟩ | ⟨rest, htold, hrest⟩
    · exact Or.inl hnil
    · rcases List.append_eq_cons_iff.mp hrest.symm with ⟨hnil, -⟩ | ⟨more, hmore, hnil⟩
      · rw [hnil] at htold
        exact absurd htold hnot
      · rw [(List.append_eq_nil_iff.mp hnil.symm).1] at hmore
        rw [hmore] at htold
        exact Or.inr htold

theorem sound_step (s : Watching τ) (label : WatchStep τ) (h : Sound s) (hclear : Clear s label) :
    Sound (watchStep s label) := by
  cases label with
  | arrive line =>
      dsimp only [watchStep]
      split
      · exact h
      · rename_i hnot
        exact h.arrive hnot
  | begin swept =>
      dsimp only [watchStep]
      split
      · exact h
      · rename_i hpass
        exact h.begin hpass hclear
  | publish stamp =>
      dsimp only [watchStep]
      split
      · rename_i hpass
        exact h.publish hpass hclear
      · exact h
  | finish =>
      dsimp only [watchStep]
      split
      · rename_i hpass
        exact h.finish hpass
      · exact h
  | crash => exact h.crash hclear

theorem Sound.published {s : Watching τ} (h : Sound s) : PublishedOnce s := by
  refine ⟨fun about => ?_, h.seen⟩
  rcases h.blocks about with hnil | hboth
  · rw [(List.append_eq_nil_iff.mp hnil).1]
    exact List.nil_prefix
  · exact ⟨_, hboth⟩

end Publishing

instance (journal : List (Entry ℕ)) (row : JobStatus × ℕ) : Decidable (Silenced journal row) :=
  decidable_of_iff ((get (latest (journal.map Entry.line) [.settled]) row.1.job).any fun line =>
    decide (line.data.handle = some row.1.handle) && decide (aboutOf journal line ≠ row.2)) (by
      unfold Silenced
      rw [Option.any_eq_true]
      exact exists_congr fun line => and_congr_right fun _ => by
        rw [Bool.and_eq_true, decide_eq_true_eq, decide_eq_true_eq])

instance decidableClear (s : Watching ℕ) : (label : WatchStep ℕ) → Decidable (Clear s label)
  | .arrive _ => .isTrue trivial
  | .begin swept => inferInstanceAs (Decidable
      (∀ row ∈ rowsOf s.journal swept, terminal (some row.1.verdict) → ¬ Silenced s.journal row))
  | .publish stamp => inferInstanceAs (Decidable (∀ pass ∈ s.pass, ∀ owed ∈ pass.plan.head?,
      owed.note.topic = .settled → ∀ entry ∈ s.journal, entry.line.topic = .settled →
        entry.line.job = owed.note.job → entry.line.published ≤ stamp))
  | .finish => .isTrue trivial
  | .crash => inferInstanceAs (Decidable (∀ entry ∈ s.journal, told s.journal entry.about ≠ [.cost]))

/-- A registry in which every run ended well. -/
def allWell : Swept where
  registry _ _ := some ("", Word.ok.value)
  said _ := ""

/-- A job taken on this machine under a process id. -/
def taken (stamp : ℕ) (handle : String) : WatchStep ℕ :=
  .arrive { published := stamp, topic := .submitted, job := "train",
            data := { handle := some handle, target := some "local" } }

/-- A pass dies between a cost and its settlement. -/
def torn : List (WatchStep ℕ) :=
  [taken 1 "4242", .begin allWell, .publish 2, .publish 3, .crash, .begin allWell, .publish 4, .publish 5, .finish]

end Mainboard.Watch
