import Mainboard.SpoolServing

/-! A follower beside the writer. It lists the archives, looks for the live file, takes its size and reads it, one after
the other, so that a roll in between gives it another live file than the one it counted on, or none. Where that does not
happen, what it has yielded is every committed frame from its origin up to its cursor, a whole look of a resting spool
yields all there is, and what it returns for leaves none out that was committed before the `ended` heartbeat. -/

namespace Mainboard.Observe

open Analysis (Bytes decode)
open Runs Segmented

variable {Payload : Type} {wire : Wire Payload}

/-- What a follower's next look goes by. -/
def Reads (wire : Wire Payload) (s : State Payload) (cursor : ℕ) : Reading → Prop
  | .resting => True
  | .listed archives | .found archives | .measured archives => archives <+: s.disk.archives
  | .asking _ caught => ∀ seen, caught = some seen → seen ≤ s.committed.length ∧
      ∀ frame ∈ s.committed.take seen, frame.offset < cursor
  | .returned => (∃ count, s.settled = some count ∧ ∀ frame ∈ s.committed.take count, frame.offset < cursor) ∨
      (∀ frame ∈ s.committed, frame.offset < cursor) ∧ ∃ frame ∈ s.committed, wire.ended frame.payload
  | .raised => False

structure Follows (wire : Wire Payload) (s : State Payload) (follower : Follower Payload) : Prop where
  boundary : Boundary (line wire) s.committed follower.cursor
  ordered : follower.origin ≤ follower.cursor
  yielded : follower.yielded = s.committed.filter fun frame =>
    decide (follower.origin ≤ frame.offset) && decide (frame.offset < follower.cursor)
  reads : Reads wire s follower.cursor follower.reading

/-- A follower has yielded every committed frame from its origin up to its cursor, each once. A reading of the whole
stream leaves out none that was committed when it was made, and what it returns for none that was committed before the
`ended` heartbeat. -/
def Followed (s : State Payload) : Prop := ∀ follower, s.follower = some follower →
  follower.reading ≠ .raised ∧
    (follower.yielded = s.committed.filter fun frame =>
      decide (follower.origin ≤ frame.offset) && decide (frame.offset < follower.cursor)) ∧
    (∀ empty seen, follower.reading = .asking empty (some seen) → ∀ frame ∈ s.committed.take seen,
      follower.origin ≤ frame.offset → frame ∈ follower.yielded) ∧
    (follower.reading = .returned → ∀ count, s.settled = some count → ∀ frame ∈ s.committed.take count,
      follower.origin ≤ frame.offset → frame ∈ follower.yielded)

/-- Where the writer rests or is gone, four looks of a resting follower at most have it yield every committed frame from
its origin on. -/
def CatchesUp (wire : Wire Payload) (rollBytes : ℕ) (s : State Payload) : Prop :=
  (∀ writer, s.writer = some writer → writer.phase = .idle) → ∀ follower, s.follower = some follower →
    follower.reading = .resting → ∃ looks ≤ 4, ∃ later,
      (run (State.step wire rollBytes) s (List.replicate looks .poll)).follower = some later ∧
        later.yielded = s.committed.filter fun frame => follower.origin ≤ frame.offset

section Taking

variable {s : State Payload} {follower : Follower Payload} {archives : List (Segment UInt8)}

theorem eq_nil_of_stream (wire : Wire Payload) {frames : List (Frame Payload)} (h : (stream wire frames).length = 0) : frames = [] := by
  cases frames with
  | nil => rfl
  | cons frame frames =>
      have hnil := List.length_eq_zero_iff.mp h
      rw [stream, List.flatMap_cons] at hnil
      exact absurd (List.append_eq_nil_iff.mp hnil).1 (line_ne_nil frame)

/-- The position behind the frames read. -/
theorem nextOffset_eq {taken rest : List (Frame Payload)} (h : Laid Frame.offset (line wire) 0 (taken ++ rest)) :
    nextOffset wire rest (stream wire taken).length = (stream wire (taken ++ rest)).length := by
  unfold nextOffset
  rcases List.eq_nil_or_concat rest with rfl | ⟨earlier, last, rfl⟩
  · rw [List.append_nil]
    rfl
  · rw [List.concat_eq_append, ← List.append_assoc] at h ⊢
    have hlast := h.of_append.2.1
    rw [List.getLast?_concat]
    dsimp only
    rw [hlast, Nat.zero_add, stream_append, List.length_append, stream, stream, List.flatMap_singleton]

/-- What a reading of some of the committed frames from the cursor on leaves of a follower. -/
theorem follows_take (hsound : Sound wire s) (hfollows : Follows wire s follower) {chunks : Bytes} {caught : Option ℕ}
    {taken rest later : List (Frame Payload)} (hcommitted : s.committed = taken ++ rest ++ later)
    (hcursor : follower.cursor = (stream wire taken).length) (hframes : framesOf wire chunks = some rest)
    (hcaught : ∀ seen, caught = some seen → seen ≤ s.committed.length ∧ later = []) :
    Follows wire s (follower.take wire chunks caught) := by
  have hlaid := hsound.laid
  rw [hcommitted] at hlaid
  have hnext : nextOffset wire rest follower.cursor = (stream wire (taken ++ rest)).length := by
    rw [hcursor]
    exact nextOffset_eq hlaid.of_append.1
  have hboundary : Boundary (line wire) s.committed (stream wire (taken ++ rest)).length :=
    ⟨taken ++ rest, ⟨later, hcommitted.symm⟩, rfl⟩
  obtain ⟨-, hbefore⟩ := hlaid.split line_ne_nil
  have hearlier : ((taken ++ rest ++ later).filter fun frame => frame.offset < (stream wire taken).length) = taken := by
    rw [List.append_assoc] at hlaid ⊢
    exact (hlaid.split line_ne_nil).2
  have hrest : ∀ frame ∈ rest, follower.origin ≤ frame.offset := fun frame hframe => by
    have hbounds := hlaid.of_append.1.of_append.2.bounds frame hframe
    rw [Nat.zero_add] at hbounds
    exact (hfollows.ordered.trans hcursor.le).trans hbounds.1
  have hless : ∀ frame ∈ taken ++ rest, frame.offset < (stream wire (taken ++ rest)).length := fun frame hframe => by
    rw [← hbefore] at hframe
    exact of_decide_eq_true (List.mem_filter.mp hframe).2
  have hyielded : follower.yielded ++ rest = s.committed.filter fun frame =>
      decide (follower.origin ≤ frame.offset) && decide (frame.offset < (stream wire (taken ++ rest)).length) := by
    rw [hfollows.yielded, hcommitted, hcursor, ← List.filter_filter, ← List.filter_filter, hearlier, stream, hbefore,
      List.filter_append, List.filter_eq_self.mpr fun frame hframe => decide_eq_true (hrest frame hframe)]
  unfold Follower.take
  rw [hframes]
  dsimp only
  rw [hnext]
  refine ⟨hboundary, ?_, hyielded, ?_⟩
  · refine (hfollows.ordered.trans hcursor.le).trans ?_
    rw [stream_append, List.length_append]
    exact Nat.le_add_right _ _
  · dsimp only
    split
    · rename_i hended
      obtain ⟨last, hlast, hlastEnded⟩ := List.any_eq_true.mp hended
      obtain rfl : later = [] := by
        by_contra hne
        refine absurd hlastEnded (Bool.eq_false_iff.mp (hsound.final last ?_))
        rw [hcommitted, List.dropLast_append_of_ne_nil hne]
        exact List.mem_append_left _ (List.mem_append_right _ hlast)
      rw [List.append_nil] at hcommitted
      refine Or.inr ⟨fun frame hframe => hless frame (hcommitted ▸ hframe), last, ?_, hlastEnded⟩
      rw [hcommitted]
      exact List.mem_append_right _ hlast
    · intro seen hseen
      obtain ⟨hle, rfl⟩ := hcaught seen hseen
      rw [List.append_nil] at hcommitted
      exact ⟨hle, fun frame hframe => hless frame (hcommitted ▸ List.mem_of_mem_take hframe)⟩

/-- A reading of archives alone. -/
theorem archives_reading (hsound : Sound wire s) (hlead : archives <+: s.disk.archives) {cursor : ℕ}
    (hcursor : Boundary (line wire) s.committed cursor) : ∃ taken rest later, s.committed = taken ++ rest ++ later ∧
      cursor = (stream wire taken).length ∧ readFrom archives cursor = stream wire rest ∧
        (whole archives ++ s.disk.live.getD [] = stream wire s.committed ++ s.part →
          (s.disk.live.getD []).drop (cursor - (whole archives).length) = [] → later = []) := by
  obtain ⟨frames, ⟨beyond, hbeyond⟩, hwhole⟩ := hsound.cut archives hlead
  obtain ⟨taken, ⟨after, hafter⟩, rfl⟩ := hcursor
  have hread := (hsound.chained.of_prefix hlead).readFrom (taken.flatMap (line wire)).length
  rw [Nat.sub_zero, hwhole] at hread
  have hjoinedLength : whole archives ++ s.disk.live.getD [] = stream wire s.committed ++ s.part →
      (s.disk.live.getD []).length = (stream wire beyond).length + s.part.length := fun hjoined => by
    have hlength := congrArg List.length hjoined
    rw [← hbeyond, hwhole, stream_append, List.length_append, List.length_append, List.length_append] at hlength
    omega
  rcases List.prefix_or_prefix_of_prefix ⟨after, hafter⟩ ⟨beyond, hbeyond⟩ with ⟨rest, rfl⟩ | ⟨more, rfl⟩
  · refine ⟨taken, rest, beyond, hbeyond.symm, rfl, ?_, fun hjoined hslice => eq_nil_of_stream wire ?_⟩
    · rw [hread, stream_append]
      exact List.drop_left
    · have hlive := List.drop_eq_nil_iff.mp hslice
      rw [hjoinedLength hjoined, hwhole, ← stream, stream_append, List.length_append] at hlive
      omega
  · obtain rfl : beyond = more ++ after := by
      rw [← hafter, List.append_assoc] at hbeyond
      exact List.append_cancel_left hbeyond
    refine ⟨frames ++ more, [], after, ?_, rfl, ?_, fun hjoined hslice => eq_nil_of_stream wire ?_⟩
    · rw [List.append_nil, hafter]
    · rw [hread]
      refine List.drop_eq_nil_of_le ?_
      rw [← stream, stream_append, List.length_append]
      exact Nat.le_add_right _ _
    · have hlive := List.drop_eq_nil_iff.mp hslice
      rw [hjoinedLength hjoined, hwhole, stream_append, List.length_append, ← stream, stream_append, List.length_append]
        at hlive
      omega

/-- A reading of the live file where it was listed reads the whole stream. -/
theorem joined_of_caught (hsound : Sound wire s) (hlead : archives <+: s.disk.archives)
    (hstart : endOf archives = s.liveStart) :
    whole archives ++ s.disk.live.getD [] = stream wire s.committed ++ s.part := by
  have hchained := hsound.chained.of_prefix hlead
  have hsame : ∀ others, whole archives <+: whole others → endOf archives = (whole others).length →
      whole archives = whole others := fun others hprefixes hlength =>
    hprefixes.eq_of_length (hchained.endOf.symm.trans hlength)
  have hplain : Joined wire s → s.liveStart = endOf s.disk.sorted →
      whole archives ++ s.disk.live.getD [] = stream wire s.committed ++ s.part := fun hjoined hlive => by
    rw [hsame s.disk.archives (whole_mono hlead) (hstart.trans (hlive.trans hsound.endOf_sorted))]
    exact hjoined
  have hstands := hsound.stands
  cases hwriter : s.writer with
  | none =>
      rw [hwriter] at hstands
      exact hplain hstands.1 (by rw [State.liveStart, hwriter])
  | some writer =>
      obtain ⟨start, offset, phase⟩ := writer
      rw [hwriter] at hstands
      cases phase with
      | idle | writing frame rest | full => exact hplain hstands.1 (by rw [State.liveStart, hwriter])
      | unlinked => exact hplain hstands.1 (by rw [State.liveStart, hwriter])
      | archived stop =>
          obtain ⟨hpart, ⟨others, data, harchives, hothers, hdata⟩, hwhole, -⟩ := hstands
          have hlive : s.liveStart = start := by rw [State.liveStart, hwriter]
          have hequal : whole archives = whole others := by
            have hprefixes := whole_mono hlead
            rw [harchives, whole_append] at hprefixes
            have hle : (whole archives).length ≤ (whole others).length := by
              rw [← hchained.endOf, hstart, hlive, hothers]
            exact hsame others (List.prefix_of_prefix_length_le hprefixes (List.prefix_append _ _) hle)
              (hstart.trans (hlive.trans hothers))
          rw [harchives, whole_append] at hwhole
          rw [hequal, hdata, Option.getD_some, hpart, List.append_nil, ← hwhole]
          exact congrArg _ (List.append_nil _).symm

theorem caught_eq_some {seen : ℕ} (h : s.caught archives = some seen) :
    endOf archives = s.liveStart ∧ seen = s.committed.length := by
  unfold State.caught at h
  split at h
  · exact ⟨‹_›, (Option.some.inj h).symm⟩
  · cases h

/-- A reading of the archives listed alone, the live file having nothing more for it. -/
theorem follows_archives (hlawful : wire.Lawful) (hsound : Sound wire s) (hfollows : Follows wire s follower)
    (hlead : archives <+: s.disk.archives)
    (hslice : (s.disk.live.getD []).drop (follower.cursor - (whole archives).length) = []) :
    Follows wire s (follower.take wire (readFrom archives follower.cursor) (s.caught archives)) := by
  obtain ⟨taken, rest, later, hcommitted, hcursor, hread, hlater⟩ := archives_reading hsound hlead hfollows.boundary
  refine follows_take hsound hfollows hcommitted hcursor ?_ fun seen hseen => ?_
  · have hframes := framesOf_stream hlawful rest torn_nil
    rwa [List.append_nil, ← hread] at hframes
  · obtain ⟨hstart, rfl⟩ := caught_eq_some hseen
    exact ⟨le_rfl, hlater (joined_of_caught hsound hlead hstart) hslice⟩

/-- One permitted look keeps a follower right. -/
theorem follows_look (hlawful : wire.Lawful) (hsound : Sound wire s) (hfollows : Follows wire s follower)
    (hfollower : s.follower = some follower) (hpermitted : Permitted wire s .poll) :
    Follows wire s (s.look wire follower) := by
  have hpermitted := hpermitted follower hfollower
  have hreads := hfollows.reads
  obtain ⟨origin, cursor, yielded, reading⟩ := follower
  cases reading with
  | resting =>
      refine ⟨hfollows.boundary, hfollows.ordered, hfollows.yielded, ?_⟩
      change s.disk.sorted <+: s.disk.archives
      rw [hsound.sorted]
  | listed archives =>
      dsimp only [State.look]
      split
      · exact ⟨hfollows.boundary, hfollows.ordered, hfollows.yielded, hreads⟩
      · rename_i hnone
        refine follows_archives hlawful hsound hfollows hreads ?_
        rw [hnone, Option.getD_none, List.drop_nil]
  | found archives =>
      obtain ⟨data, hdata⟩ := Option.isSome_iff_exists.mp hpermitted
      dsimp only [State.look]
      rw [hdata]
      dsimp only
      split
      · exact ⟨hfollows.boundary, hfollows.ordered, hfollows.yielded, hreads⟩
      · rename_i hbeyond
        rw [(hsound.chained.of_prefix hreads).endOf] at hbeyond
        refine follows_archives hlawful hsound hfollows hreads ?_
        rw [hdata, Option.getD_some]
        exact List.drop_eq_nil_of_le (by dsimp only; omega)
  | measured archives =>
      obtain ⟨data, hdata, hslice⟩ := hpermitted
      have hend := (hsound.chained.of_prefix hreads).endOf
      dsimp only [State.look]
      rw [hdata]
      dsimp only at hslice ⊢
      rcases hslice with hslice | ⟨hstart, hdecodes⟩
      · rw [hslice, List.append_nil]
        refine follows_archives hlawful hsound hfollows hreads ?_
        rw [hdata, Option.getD_some, ← hend]
        exact hslice
      · have hjoined := joined_of_caught hsound hreads hstart
        rw [hdata, Option.getD_some] at hjoined
        obtain ⟨taken, rest, hcommitted, hcursor, hdrop, -⟩ := hsound.cutAt hfollows.boundary s.part
        rw [← List.append_nil (taken ++ rest)] at hcommitted
        refine follows_take hsound hfollows hcommitted hcursor ?_ fun seen hseen => ⟨?_, rfl⟩
        · rw [(hsound.chained.of_prefix hreads).readFrom, Nat.sub_zero, hend, ← List.drop_append, hjoined, hdrop]
          exact framesOf_stream hlawful rest (hsound.torn hlawful hdecodes)
        · rw [(caught_eq_some hseen).2]
  | asking empty caught =>
      dsimp only [State.look]
      split
      · rename_i hended
        obtain ⟨hempty, hstatus⟩ := Bool.and_eq_true_iff.mp hended
        subst hempty
        obtain ⟨seen, hseen, hcovers⟩ := hpermitted hstatus
        obtain ⟨count, hcount⟩ := Option.isSome_iff_exists.mp (hsound.published hstatus)
        refine ⟨hfollows.boundary, hfollows.ordered, hfollows.yielded, Or.inl ⟨count, hcount, fun frame hframe => ?_⟩⟩
        refine (hreads seen hseen).2 frame ?_
        exact (List.take_prefix_take_left (hcovers count hcount)).subset hframe
      · exact ⟨hfollows.boundary, hfollows.ordered, hfollows.yielded, trivial⟩
  | returned => exact hfollows
  | raised => exact hreads.elim

/-- A follower goes on as it was while the stream grows behind it. -/
theorem Follows.grown {after : State Payload} {more : List (Frame Payload)} (h : Follows wire s follower)
    (hsound : Sound wire s) (hcommitted : after.committed = s.committed ++ more)
    (hmore : ∀ frame ∈ more, (stream wire s.committed).length ≤ frame.offset)
    (hended : more ≠ [] → ∀ frame ∈ s.committed, wire.ended frame.payload = false)
    (harchives : s.disk.archives <+: after.disk.archives)
    (hsettled : ∀ count, s.settled = some count → after.settled = some count) : Follows wire after follower := by
  have htake : ∀ count ≤ s.committed.length, after.committed.take count = s.committed.take count := fun count hcount => by
    rw [hcommitted, List.take_append_of_le_length hcount]
  refine ⟨hcommitted ▸ h.boundary.append more, h.ordered, ?_, ?_⟩
  · have hnone : (more.filter fun frame =>
        decide (follower.origin ≤ frame.offset) && decide (frame.offset < follower.cursor)) = [] := by
      refine List.filter_eq_nil_iff.mpr fun frame hframe hcounts => ?_
      have hlate := hmore frame hframe
      have hearly := of_decide_eq_true (Bool.and_eq_true_iff.mp hcounts).2
      have hcursor : follower.cursor ≤ (stream wire s.committed).length := h.boundary.le
      omega
    rw [hcommitted, List.filter_append, hnone, List.append_nil]
    exact h.yielded
  · have hreads := h.reads
    obtain ⟨origin, cursor, yielded, reading⟩ := follower
    cases reading with
    | resting => trivial
    | listed archives | found archives | measured archives => exact List.IsPrefix.trans hreads harchives
    | asking empty caught =>
        intro seen hseen
        obtain ⟨hle, hless⟩ := hreads seen hseen
        refine ⟨?_, htake seen hle ▸ hless⟩
        rw [hcommitted, List.length_append]
        exact hle.trans (Nat.le_add_right _ _)
    | returned =>
        rcases hreads with ⟨count, hcount, hless⟩ | ⟨hless, frame, hframe, hframeEnded⟩
        · exact Or.inl ⟨count, hsettled count hcount, htake count (hsound.settled count hcount) ▸ hless⟩
        · obtain rfl : more = [] := by
            by_contra hne
            exact absurd hframeEnded (Bool.eq_false_iff.mp (hended hne frame hframe))
          rw [List.append_nil] at hcommitted
          exact Or.inr ⟨hcommitted ▸ hless, frame, hcommitted ▸ hframe, hframeEnded⟩
    | raised => exact hreads

/-- Where nothing is committed, a step that keeps the archives and what was settled keeps a follower right. -/
theorem Follows.kept {after : State Payload} (h : Follows wire s follower) (hsound : Sound wire s)
    (hcommitted : after.committed = s.committed) (harchives : s.disk.archives <+: after.disk.archives)
    (hsettled : ∀ count, s.settled = some count → after.settled = some count) : Follows wire after follower :=
  h.grown hsound (hcommitted.trans (List.append_nil _).symm) (fun _ hframe => (List.not_mem_nil hframe).elim)
    (fun hne => (hne rfl).elim) harchives hsettled

theorem not_ended_of_last (hsound : Sound wire s)
    (hlast : ∀ last, s.committed.getLast? = some last → wire.ended last.payload = false) :
    ∀ frame ∈ s.committed, wire.ended frame.payload = false := by
  intro frame hframe
  have hall := final_concat frame hlast hsound.final
  rw [List.dropLast_concat] at hall
  exact hall frame hframe

/-- A writer's step leaves the follower, and adds to the stream alone: frames behind those committed, an archive behind
those there are. -/
structure Grows (wire : Wire Payload) (s after : State Payload) (more : List (Frame Payload)) : Prop where
  follower : after.follower = s.follower
  committed : after.committed = s.committed ++ more
  placed : ∀ frame ∈ more, (stream wire s.committed).length ≤ frame.offset
  ended : more ≠ [] → ∀ frame ∈ s.committed, wire.ended frame.payload = false
  archives : s.disk.archives <+: after.disk.archives
  settled : ∀ count, s.settled = some count → after.settled = some count

theorem Grows.still {after : State Payload} (hfollower : after.follower = s.follower)
    (hcommitted : after.committed = s.committed) (harchives : s.disk.archives <+: after.disk.archives)
    (hsettled : ∀ count, s.settled = some count → after.settled = some count) : Grows wire s after [] :=
  ⟨hfollower, hcommitted.trans (List.append_nil _).symm, fun _ hframe => (List.not_mem_nil hframe).elim,
    fun hne => (hne rfl).elim, harchives, hsettled⟩

/-- The steps that are the writer's, its crashes and reopenings among them. -/
def Writes : Label Payload → Prop
  | .attach _ | .poll => False
  | _ => True

theorem grows_of_step (hsound : Sound wire s) (rollBytes : ℕ) {label : Label Payload} (hwrites : Writes label) :
    ∃ more, Grows wire s (s.step wire rollBytes label) more := by
  have hrefl := List.prefix_refl s.disk.archives
  cases label with
  | append payload =>
      dsimp only [State.step]
      split <;> exact ⟨[], .still rfl rfl hrefl fun _ hcount => hcount⟩
  | write count =>
      dsimp only [State.step]
      split
      · rename_i start offset frame rest hwriter
        have hstands := hsound.stands
        rw [hwriter] at hstands
        obtain ⟨-, -, -, hoffset, hframe, -, -, hlast⟩ := hstands
        unfold State.wrote
        dsimp only
        split
        · refine ⟨[frame], rfl, rfl, fun other hother => ?_, fun _ => not_ended_of_last hsound hlast, hrefl,
            fun _ hcount => hcount⟩
          rw [List.mem_singleton.mp hother, hframe, hoffset]
        · exact ⟨[], .still rfl rfl hrefl fun _ hcount => hcount⟩
      · exact ⟨[], .still rfl rfl hrefl fun _ hcount => hcount⟩
  | archive =>
      dsimp only [State.step]
      split
      · rename_i start offset data hwriter hdata
        refine ⟨[], .still rfl rfl ?_ fun _ hcount => hcount⟩
        dsimp only
        rw [archives_putArchive hsound hwriter hdata]
        exact List.prefix_append _ _
      · exact ⟨[], .still rfl rfl hrefl fun _ hcount => hcount⟩
  | unlink | reopenLive | reopen =>
      dsimp only [State.step]
      split <;> exact ⟨[], .still rfl rfl hrefl fun _ hcount => hcount⟩
  | heartbeat ended =>
      dsimp only [State.step]
      split
      · refine ⟨[], .still rfl rfl hrefl fun count hcount => ?_⟩
        dsimp only
        split
        · rw [hcount]
          rfl
        · exact hcount
      · exact ⟨[], .still rfl rfl hrefl fun _ hcount => hcount⟩
  | crash => exact ⟨[], .still rfl rfl hrefl fun _ hcount => hcount⟩
  | attach offset => exact hwrites.elim
  | poll => exact hwrites.elim

/-- Every permitted step keeps a follower right. -/
theorem follows_step (hlawful : wire.Lawful) (rollBytes : ℕ) {label : Label Payload} (hsound : Sound wire s)
    (h : ∀ follower, s.follower = some follower → Follows wire s follower) (hpermitted : Permitted wire s label) :
    ∀ follower, (s.step wire rollBytes label).follower = some follower →
      Follows wire (s.step wire rollBytes label) follower := by
  intro follower hfollower
  by_cases hwrites : Writes label
  · obtain ⟨more, hgrows⟩ := grows_of_step hsound rollBytes hwrites
    exact (h follower (hgrows.follower ▸ hfollower)).grown hsound hgrows.committed hgrows.placed hgrows.ended
      hgrows.archives hgrows.settled
  · cases label with
    | attach offset =>
        obtain rfl := Option.some.inj hfollower
        refine ⟨hpermitted, le_rfl, ?_, trivial⟩
        refine (List.filter_eq_nil_iff.mpr fun frame _ hcounts => ?_).symm
        obtain ⟨hlow, hhigh⟩ := Bool.and_eq_true_iff.mp hcounts
        have hlow := of_decide_eq_true hlow
        have hhigh := of_decide_eq_true hhigh
        dsimp only at hlow hhigh
        omega
    | poll =>
        dsimp only [State.step] at hfollower ⊢
        cases hbefore : s.follower with
        | none =>
            rw [hbefore] at hfollower
            exact absurd (hbefore.symm.trans hfollower) (Option.some_ne_none _).symm
        | some earlier =>
            rw [hbefore] at hfollower
            obtain rfl := Option.some.inj hfollower
            exact (follows_look hlawful hsound (h earlier hbefore) hbefore hpermitted).kept
              hsound rfl (List.prefix_refl _) fun _ hcount => hcount
    | _ => exact absurd trivial hwrites

/-- A follower that reads what the spool serves from its cursor on has yielded all there is from its origin on. -/
theorem yielded_of_served (hsound : Sound wire s) (hfollows : Follows wire s follower) {chunks : Bytes}
    (hframes : framesOf wire chunks = some (s.committed.filter fun frame => follower.cursor ≤ frame.offset))
    (caught : Option ℕ) : (follower.take wire chunks caught).yielded =
      s.committed.filter fun frame => follower.origin ≤ frame.offset := by
  obtain ⟨taken, rest, hcommitted, hcursor, -, hrest, htaken⟩ := hsound.cutAt hfollows.boundary []
  rw [hrest] at hframes
  have hbefore : follower.yielded = taken.filter fun frame => follower.origin ≤ frame.offset := by
    rw [hfollows.yielded, ← htaken, List.filter_filter]
  have hafter : (rest.filter fun frame => follower.origin ≤ frame.offset) = rest := by
    refine List.filter_eq_self.mpr fun frame hframe => decide_eq_true (hfollows.ordered.trans ?_)
    rw [← hrest] at hframe
    exact of_decide_eq_true (List.mem_filter.mp hframe).2
  unfold Follower.take
  rw [hframes, hcommitted, List.filter_append, hafter, ← hbefore]

/-- A look leaves all but the follower alone. -/
theorem look_polled (s : State Payload) (other : Option (Follower Payload)) (follower : Follower Payload) :
    State.look wire { s with follower := other } follower = s.look wire follower := rfl

theorem run_polls (rollBytes looks : ℕ) (hfollower : s.follower = some follower) :
    (run (State.step wire rollBytes) s (List.replicate looks .poll)).follower =
      some ((s.look wire)^[looks] follower) := by
  induction looks generalizing s follower with
  | zero => exact hfollower
  | succ looks ih =>
      rw [List.replicate_succ, run_cons, Function.iterate_succ_apply]
      have hstep : s.step wire rollBytes .poll = { s with follower := some (s.look wire follower) } := by
        dsimp only [State.step]
        rw [hfollower]
      rw [hstep]
      exact ih rfl

/-- A whole look of a resting spool. -/
theorem catchesUp (hlawful : wire.Lawful) (rollBytes : ℕ) (hsound : Sound wire s)
    (h : ∀ follower, s.follower = some follower → Follows wire s follower) : CatchesUp wire rollBytes s := by
  intro hrests follower hfollower hresting
  have hfollows := h follower hfollower
  have hserved := hsound.served hlawful hrests follower.cursor hfollows.boundary
  have hyielded := fun caught => yielded_of_served hsound hfollows hserved caught
  obtain ⟨origin, cursor, yielded, reading⟩ := follower
  obtain rfl : reading = .resting := hresting
  dsimp only at hserved hyielded
  unfold Disk.liveFrom at hyielded
  cases hlive : s.disk.live with
  | none =>
      rw [hlive] at hyielded
      refine ⟨2, by omega, _, run_polls rollBytes 2 hfollower, ?_⟩
      simp only [Function.iterate_succ_apply, Function.iterate_zero_apply, State.look, hlive]
      rw [List.append_nil] at hyielded
      exact hyielded _
  | some data =>
      rw [hlive] at hyielded
      dsimp only at hyielded
      by_cases hless : cursor < endOf s.disk.sorted + data.length
      · refine ⟨4, le_rfl, _, run_polls rollBytes 4 hfollower, ?_⟩
        simp only [Function.iterate_succ_apply, Function.iterate_zero_apply, State.look, hlive, if_pos hless]
        rw [if_pos hless] at hyielded
        exact hyielded _
      · refine ⟨3, by omega, _, run_polls rollBytes 3 hfollower, ?_⟩
        simp only [Function.iterate_succ_apply, Function.iterate_zero_apply, State.look, hlive, if_neg hless]
        rw [if_neg hless, List.append_nil] at hyielded
        exact hyielded _

/-- A follower kept right has yielded what it is to. -/
theorem followed_of_follows (h : ∀ follower, s.follower = some follower → Follows wire s follower) : Followed s := by
  intro follower hfollower
  have hfollows := h follower hfollower
  have hreads := hfollows.reads
  refine ⟨fun hraised => ?_, hfollows.yielded, fun empty seen hasking frame hframe horigin => ?_,
    fun hreturned count hcount frame hframe horigin => ?_⟩
  · rw [hraised] at hreads
    exact hreads
  · rw [hasking] at hreads
    have hless := (hreads seen rfl).2 frame hframe
    rw [hfollows.yielded]
    refine List.mem_filter.mpr ⟨List.mem_of_mem_take hframe, ?_⟩
    rw [decide_eq_true horigin, decide_eq_true hless]
    rfl
  · rw [hreturned] at hreads
    have hless : frame.offset < follower.cursor := by
      rcases hreads with ⟨count', hcount', hless⟩ | ⟨hless, -⟩
      · obtain rfl : count = count' := Option.some.inj (hcount.symm.trans hcount')
        exact hless frame hframe
      · exact hless frame (List.mem_of_mem_take hframe)
    rw [hfollows.yielded]
    refine List.mem_filter.mpr ⟨List.mem_of_mem_take hframe, ?_⟩
    rw [decide_eq_true horigin, decide_eq_true hless]
    rfl

end Taking

/-- In every permitted run of a spool and a follower beside it, the spool serves every frame once, and so does the
follower. -/
theorem spool_serves (hlawful : wire.Lawful) (rollBytes : ℕ) (labels : List (Label Payload))
    (h : Each (State.step wire rollBytes) (Permitted wire) {} labels) :
    Always (State.step wire rollBytes) (fun s => Served wire s ∧ Followed s ∧ CatchesUp wire rollBytes s) {} labels := by
  have hstep : ∀ (s : State Payload) (label : Label Payload),
      (Sound wire s ∧ ∀ follower, s.follower = some follower → Follows wire s follower) → Permitted wire s label →
        (Sound wire (s.step wire rollBytes label) ∧ ∀ follower, (s.step wire rollBytes label).follower = some follower →
          Follows wire (s.step wire rollBytes label) follower) := fun s label hkept hpermitted =>
    ⟨sound_step hlawful rollBytes hkept.1 hpermitted, follows_step hlawful rollBytes hkept.1 hkept.2 hpermitted⟩
  have hinit : Sound wire ({} : State Payload) ∧ ∀ follower, ({} : State Payload).follower = some follower →
      Follows wire {} follower := by
    refine ⟨⟨trivial, trivial, fun archives hlead => ?_, fun frame hframe => ?_, fun hstatus => ?_, fun count hcount => ?_,
      rfl, torn_nil⟩, fun follower hfollower => ?_⟩
    · exact ⟨[], List.prefix_refl _, by rw [List.prefix_nil.mp hlead]; rfl⟩
    · exact (List.not_mem_nil hframe).elim
    · cases hstatus
    · cases hcount
    · cases hfollower
  exact always_mono (fun s hkept => ⟨hkept.1.served hlawful, followed_of_follows hkept.2,
      catchesUp hlawful rollBytes hkept.1 hkept.2⟩)
    (invariant_always hstep hinit h)

/-- Frames that say whether the job ended, each line a bar for every byte before it. -/
def barWire : Wire Bool where
  encode frame := List.replicate frame.offset '|' ++ [if frame.payload then 'e' else 'l']
  decode text :=
    let offset := (text.takeWhile (· = '|')).length
    if text.drop offset = ['e'] then some ⟨offset, true⟩
    else if text.drop offset = ['l'] then some ⟨offset, false⟩
    else none
  ended payload := payload

theorem barWire_lawful : barWire.Lawful where
  reads frame := by
    obtain ⟨offset, payload⟩ := frame
    have hbars : ∀ char ∈ List.replicate offset '|', decide (char = '|') = true := fun char hchar =>
      decide_eq_true (List.eq_of_mem_replicate hchar)
    have hlength : (List.replicate offset '|').length = offset := List.length_replicate
    dsimp only [barWire]
    cases payload with
    | true =>
        rw [if_pos rfl, List.takeWhile_append_of_pos hbars, List.takeWhile_cons_of_neg (by decide), List.append_nil,
          List.drop_left, if_pos rfl, hlength]
    | false =>
        rw [if_neg Bool.false_ne_true, List.takeWhile_append_of_pos hbars, List.takeWhile_cons_of_neg (by decide),
          List.append_nil, List.drop_left, if_neg (by decide), if_pos rfl, hlength]
  oneLine frame hmem := by
    rcases List.mem_append.mp hmem with hbar | hmem
    · exact absurd (List.eq_of_mem_replicate hbar) (by decide)
    · have hlast := List.mem_singleton.mp hmem
      split at hlast <;> exact absurd hlast (by decide)
  solid frame := by
    refine List.any_eq_true.mpr ⟨if frame.payload then 'e' else 'l', List.mem_append_right _ List.mem_cons_self, ?_⟩
    split <;> decide

/-- Two frames committed, the second while a follower beside the writer is in its first look, which reads both, and
one more that its second look reads. -/
def followedBeside : List (Label Bool) :=
  [.reopen, .append false, .write 1, .write 7, .attach 0, .poll, .poll, .append false, .write 7, .poll, .poll, .poll,
    .append true, .write 9, .heartbeat true, .poll, .poll, .poll, .poll]

theorem spool_serves_one :
    Always (State.step barWire 4096) (fun s => Served barWire s ∧ Followed s ∧ CatchesUp barWire 4096 s) {}
        followedBeside ∧
      (run (State.step barWire 4096) {} followedBeside).follower =
        some ⟨0, 14, [⟨0, false⟩, ⟨2, false⟩, ⟨6, true⟩], .returned⟩ := by
  refine ⟨spool_serves barWire_lawful 4096 followedBeside ?_, by decide +kernel⟩
  refine ⟨trivial, ⟨rfl, fun last hlast => ?_⟩, trivial, trivial, ⟨[], List.nil_prefix, rfl⟩, ?_, ?_,
    ⟨rfl, fun last hlast => ?_⟩, trivial, ?_, ?_, ?_, ⟨rfl, fun last hlast => ?_⟩, trivial, trivial, ?_, ?_, ?_, ?_,
    trivial⟩
  case refine_1 => exact absurd hlast.symm (Option.some_ne_none last)
  case refine_4 | refine_8 =>
    obtain rfl := Option.some.inj hlast
    rfl
  -- a look that has measured reads the live file it listed, every other finds it or asks nothing of it
  all_goals
    intro follower hfollower
    obtain rfl := Option.some.inj hfollower
    first | trivial | rfl | exact ⟨_, rfl, Or.inr ⟨rfl, rfl⟩⟩

/-- A follower attached where a frame begins or the stream ends. -/
def Attaches (wire : Wire Payload) (s : State Payload) : Label Payload → Prop
  | .attach offset => Boundary (line wire) s.committed offset
  | _ => True

/-- A crash between a roll's archive and the removal of the live file has the spool serve the rolled frames twice. -/
theorem spool_serves_fails : ¬ ∀ (wire : Wire Bool), wire.Lawful → ∀ (rollBytes : ℕ) (labels : List (Label Bool)),
    Each (State.step wire rollBytes) (Attaches wire) {} labels →
      Always (State.step wire rollBytes) (fun s => Served wire s ∧ Followed s ∧ CatchesUp wire rollBytes s) {} labels := by
  intro h
  have hserved := (h barWire barWire_lawful 1 [.reopen, .append false, .write 7, .archive, .crash]
    ⟨trivial, trivial, trivial, trivial, trivial, trivial⟩ _ (List.prefix_refl _)).1
  have htwice := hserved (fun _ hwriter => by cases hwriter) 0 ⟨[], List.nil_prefix, rfl⟩
  revert htwice
  decide +kernel

end Mainboard.Observe
