import Mainboard.ListReading
import Mainboard.Spool
import Mainboard.TextBytes

/-! What a spool serves. The archives and the live file hold the committed frames end to end, and behind them what is
written of the next; a reading from a frame's start gives the frames from there on. Two crashes break this: one between
a roll's archive and the removal of the live file, which leaves both, and one within a frame that the next frame is then
written behind. -/

namespace Mainboard.Observe

open Analysis (Text Bytes utf8 decode decode_eq_some_iff newline_mem_utf8)
open ListReading Segmented

variable {Payload : Type} {wire : Wire Payload}

/-! Lines and what is read of them -/

section Lines

/-- The committed frames, end to end. -/
def stream (wire : Wire Payload) (frames : List (Frame Payload)) : Bytes := frames.flatMap (line wire)

def textOf (wire : Wire Payload) (frames : List (Frame Payload)) : Text := frames.flatMap fun frame => wire.encode frame ++ ['\n']

/-- Whole characters of a line not ended yet. -/
def Torn (part : Bytes) : Prop := ∃ text, part = utf8 text ∧ '\n' ∉ text

variable {frames : List (Frame Payload)} {tail : Text} {part : Bytes}

theorem stream_eq (wire : Wire Payload) (frames : List (Frame Payload)) : stream wire frames = utf8 (textOf wire frames) := by
  induction frames with
  | nil => rfl
  | cons frame frames ih =>
      rw [textOf, List.flatMap_cons, Analysis.utf8_append, ← textOf, ← ih]
      rfl

theorem stream_append (frames later : List (Frame Payload)) :
    stream wire (frames ++ later) = stream wire frames ++ stream wire later := List.flatMap_append

theorem line_ne_nil (frame : Frame Payload) : line wire frame ≠ [] := by
  unfold line
  rw [Analysis.utf8_append]
  exact List.append_ne_nil_of_right_ne_nil _ (by decide)

theorem torn_nil : Torn [] := ⟨[], rfl, List.not_mem_nil⟩

theorem lines_concat (hlawful : wire.Lawful) (frames : List (Frame Payload)) :
    ((textOf wire frames).splitOn '\n').filter isSolid =
      frames.map wire.encode := by
  induction frames with
  | nil => rfl
  | cons frame frames ih =>
      rw [textOf, List.flatMap_cons, List.append_assoc, List.singleton_append,
        List.splitOn_append_cons_self_of_not_mem (hlawful.oneLine frame), ← textOf,
        List.filter_cons_of_pos (hlawful.solid frame), ih, List.map_cons]

theorem getLast?_textOf_append (hne : tail ≠ []) (htail : '\n' ∉ tail) :
    (textOf wire frames ++ tail).getLast? ≠ some '\n' := by
  rw [List.getLast?_append_of_ne_nil _ hne]
  exact fun h => htail (List.mem_of_getLast? h)

theorem beforeLast_textOf (htail : '\n' ∉ tail) :
    ((beforeLast (textOf wire frames ++ tail)).splitOn '\n').filter isSolid =
      ((textOf wire frames).splitOn '\n').filter isSolid := by
  have hskip : ∀ rest : Text, (tail.reverse ++ rest).dropWhile (· ≠ '\n') = rest.dropWhile (· ≠ '\n') := fun rest =>
    List.dropWhile_append_of_pos fun char hchar => decide_eq_true fun hsame => htail (hsame ▸ List.mem_reverse.mp hchar)
  unfold beforeLast
  rw [List.reverse_append, hskip]
  rcases List.eq_nil_or_concat frames with rfl | ⟨earlier, last, rfl⟩
  · rfl
  · have hlast : textOf wire (earlier.concat last) = textOf wire earlier ++ wire.encode last ++ ['\n'] := by
      rw [List.concat_eq_append, textOf, List.flatMap_append, List.flatMap_singleton, ← List.append_assoc, textOf]
    rw [hlast, List.reverse_append, List.reverse_singleton, List.singleton_append, List.dropWhile_cons_of_neg (by decide),
      List.drop_one, List.tail_cons, List.reverse_reverse, List.splitOn_append_cons_self, List.filter_append]
    exact (List.append_nil _).symm

theorem parseTail_textOf (hlawful : wire.Lawful) (htail : '\n' ∉ tail) :
    parseTail wire (textOf wire frames ++ tail) = some frames := by
  have hlines : ((if (textOf wire frames ++ tail).getLast? = some '\n' then textOf wire frames ++ tail
      else beforeLast (textOf wire frames ++ tail)).splitOn '\n').filter isSolid =
        frames.map wire.encode := by
    split
    · rename_i hended
      obtain rfl : tail = [] := by
        by_contra hne
        exact getLast?_textOf_append hne htail hended
      rw [List.append_nil]
      exact lines_concat hlawful frames
    · rw [beforeLast_textOf htail]
      exact lines_concat hlawful frames
  unfold parseTail
  dsimp only
  rw [hlines, List.mapM_map]
  have hreads : ∀ frame ∈ frames, (wire.decode ∘ wire.encode) frame = some (id frame) := fun frame _ => hlawful.reads frame
  rw [mapM_map_some hreads, List.map_id]

/-- What is read of committed frames and a torn one behind them is the committed frames. -/
theorem framesOf_stream (hlawful : wire.Lawful) (frames : List (Frame Payload)) (hpart : Torn part) :
    framesOf wire (stream wire frames ++ part) = some frames := by
  obtain ⟨tail, rfl, htail⟩ := hpart
  rw [framesOf, stream_eq, ← Analysis.utf8_append, Analysis.decode_utf8, Option.bind_some]
  exact parseTail_textOf hlawful htail

/-- Part of a line short of its end, where it is whole characters. -/
theorem torn_of_line (hlawful : wire.Lawful) {frame : Frame Payload} {rest : Bytes} (hline : part ++ rest = line wire frame)
    (hrest : rest ≠ []) (hdecodes : (decode part).isSome) : Torn part := by
  obtain ⟨text, htext⟩ := Option.isSome_iff_exists.mp hdecodes
  have hpart := decode_eq_some_iff.mp htext
  refine ⟨text, hpart, fun hmem => ?_⟩
  have hbyte : (10 : UInt8) ∈ part := hpart ▸ newline_mem_utf8.mpr hmem
  -- The rest ends the line, so what comes before it is a prefix of the frame's own text.
  obtain ⟨short, last, rfl⟩ := (List.eq_nil_or_concat rest).resolve_left hrest
  rw [line, Analysis.utf8_append, List.concat_eq_append, ← List.append_assoc] at hline
  obtain ⟨hshort, -⟩ := List.append_inj' hline rfl
  exact hlawful.oneLine frame (newline_mem_utf8.mp (hshort ▸ List.mem_append_left _ hbyte))

end Lines

/-! What every permitted step keeps -/

/-- The archives and the live file hold the committed frames and what is written of the next. -/
def Joined (wire : Wire Payload) (s : State Payload) : Prop :=
  whole s.disk.archives ++ s.disk.live.getD [] = stream wire s.committed ++ s.part

/-- Where a writer stands, or the disk where there is none. -/
def Stands (wire : Wire Payload) (s : State Payload) : Option (Writer Payload) → Prop
  | none => Joined wire s ∧ Torn s.part
  | some ⟨start, offset, .idle⟩ => Joined wire s ∧ Torn s.part ∧ s.disk.live.isSome ∧
      start = (whole s.disk.archives).length ∧ offset = (stream wire s.committed ++ s.part).length
  | some ⟨start, offset, .writing frame rest⟩ => Joined wire s ∧ s.disk.live.isSome ∧
      start = (whole s.disk.archives).length ∧ offset = (stream wire s.committed).length ∧ frame.offset = offset ∧
        s.part ++ rest = line wire frame ∧ rest ≠ [] ∧
          ∀ last, s.committed.getLast? = some last → wire.ended last.payload = false
  | some ⟨start, offset, .full⟩ => Joined wire s ∧ s.part = [] ∧
      (∃ data, s.disk.live = some data ∧ data ≠ []) ∧ start = (whole s.disk.archives).length ∧
        offset = (stream wire s.committed).length
  | some ⟨start, offset, .archived stop⟩ => s.part = [] ∧ (∃ archives data, s.disk.archives = archives ++ [⟨start, data⟩] ∧
      start = (whole archives).length ∧ s.disk.live = some data) ∧ whole s.disk.archives = stream wire s.committed ∧
        stop = (whole s.disk.archives).length ∧ offset = (stream wire s.committed).length
  | some ⟨start, offset, .unlinked⟩ => Joined wire s ∧ s.part = [] ∧ s.disk.live.getD [] = [] ∧
      start = (whole s.disk.archives).length ∧ offset = (stream wire s.committed).length

structure Sound (wire : Wire Payload) (s : State Payload) : Prop where
  laid : Laid Frame.offset (line wire) 0 s.committed
  chained : Chained 0 s.disk.archives
  /-- Archives are cut between frames. -/
  cut : ∀ archives, archives <+: s.disk.archives → ∃ frames, frames <+: s.committed ∧ whole archives = stream wire frames
  /-- Nothing is committed behind a frame that says the job ended. -/
  final : ∀ frame ∈ s.committed.dropLast, wire.ended frame.payload = false
  published : s.disk.status.any Heartbeat.ended → s.settled.isSome
  settled : ∀ count, s.settled = some count → count ≤ s.committed.length
  stands : Stands wire s s.writer

/-- What keeps a spool right: no frame is begun behind a torn one nor behind one that says the job ended, no crash comes
between a roll's archive and the removal of the live file, and none leaves part of a character. A follower finds the
live file it looked for; it reads it where it listed it, with whole characters at its end, or takes nothing from it; and
what it returns on an `ended` heartbeat for is a reading of every frame committed before. -/
def Permitted (wire : Wire Payload) (s : State Payload) : Label Payload → Prop
  | .append _ => s.part = [] ∧ ∀ last, s.committed.getLast? = some last → wire.ended last.payload = false
  | .crash => (∀ start offset stop, s.writer ≠ some ⟨start, offset, .archived stop⟩) ∧ (decode s.part).isSome
  | .attach offset => Boundary (line wire) s.committed offset
  | .poll => ∀ follower, s.follower = some follower → match follower.reading with
      | .found _ => s.disk.live.isSome
      | .measured archives => ∃ data, s.disk.live = some data ∧
          (data.drop (follower.cursor - endOf archives) = [] ∨ endOf archives = s.liveStart ∧ (decode s.part).isSome)
      | .asking true caught => s.disk.status.any Heartbeat.ended →
          ∃ seen, caught = some seen ∧ ∀ count, s.settled = some count → count ≤ seen
      | _ => True
  | _ => True

section Writing

variable {s : State Payload}

theorem sorted_of_chained {disk : Disk} (h : Chained 0 disk.archives) : disk.sorted = disk.archives := by
  refine List.Pairwise.insertionSort_eq (h.pairwise.1.imp fun {one other} hbefore => ?_)
  have hone : one.stop = one.start + one.data.length := rfl
  have hother : other.stop = other.start + other.data.length := rfl
  omega

theorem Sound.sorted (h : Sound wire s) : s.disk.sorted = s.disk.archives := sorted_of_chained h.chained

theorem Sound.endOf_sorted (h : Sound wire s) : endOf s.disk.sorted = (whole s.disk.archives).length := by
  rw [h.sorted, h.chained.endOf]

/-- What is written of a frame is torn where it is whole characters. -/
theorem Sound.torn (hlawful : wire.Lawful) (h : Sound wire s) (hdecodes : (decode s.part).isSome) : Torn s.part := by
  have hstands := h.stands
  cases hwriter : s.writer with
  | none => exact (hwriter ▸ hstands).2
  | some writer =>
      obtain ⟨start, offset, phase⟩ := writer
      rw [hwriter] at hstands
      cases phase with
      | idle => exact hstands.2.1
      | writing frame rest => exact torn_of_line hlawful hstands.2.2.2.2.2.1 hstands.2.2.2.2.2.2.1 hdecodes
      | full => exact hstands.2.1 ▸ torn_nil
      | archived stop => exact hstands.1 ▸ torn_nil
      | unlinked => exact hstands.2.1 ▸ torn_nil

/-- Creating the live file changes nothing of what is held. -/
theorem Stands.opened {writer : Option (Writer Payload)} {follower : Option (Follower Payload)}
    (h : Stands wire s writer) : Stands wire { s with disk := s.disk.opened, follower } writer := by
  have hlive : (some (s.disk.live.getD [])).getD [] = s.disk.live.getD [] := rfl
  have hjoined : Joined wire s → Joined wire { s with disk := s.disk.opened, follower } := fun hjoined => by
    rw [Joined] at hjoined ⊢
    exact hjoined
  have hsame : ∀ data, s.disk.live = some data → s.disk.opened.live = some data := fun data hdata => by
    rw [Disk.opened, hdata]
    rfl
  match writer, h with
  | none, ⟨hj, ht⟩ => exact ⟨hjoined hj, ht⟩
  | some ⟨start, offset, .idle⟩, ⟨hj, ht, _, hrest⟩ => exact ⟨hjoined hj, ht, rfl, hrest⟩
  | some ⟨start, offset, .writing frame rest⟩, ⟨hj, _, hrest⟩ => exact ⟨hjoined hj, rfl, hrest⟩
  | some ⟨start, offset, .full⟩, ⟨hj, hp, ⟨data, hdata, hne⟩, hrest⟩ =>
      exact ⟨hjoined hj, hp, ⟨data, hsame data hdata, hne⟩, hrest⟩
  | some ⟨start, offset, .archived stop⟩, ⟨hp, ⟨archives, data, harchives, hstart, hdata⟩, hrest⟩ =>
      exact ⟨hp, ⟨archives, data, harchives, hstart, hsame data hdata⟩, hrest⟩
  | some ⟨start, offset, .unlinked⟩, ⟨hj, hp, hlive, hrest⟩ => exact ⟨hjoined hj, hp, hlive, hrest⟩

theorem sound_append (h : Sound wire s) (payload : Payload) (hpermitted : Permitted wire s (.append payload)) {rollBytes : ℕ} :
    Sound wire (s.step wire rollBytes (.append payload)) := by
  dsimp only [State.step]
  split
  · rename_i start offset hwriter
    have hstands := h.stands
    rw [hwriter] at hstands
    obtain ⟨hjoined, -, hlive, hstart, hoffset⟩ := hstands
    obtain ⟨hpart, hlast⟩ := hpermitted
    refine ⟨h.laid, h.chained, h.cut, h.final, h.published, h.settled, hjoined, hlive, hstart, ?_, rfl, ?_, line_ne_nil _, hlast⟩
    · rw [hoffset, hpart, List.append_nil]
    · change s.part ++ _ = _
      rw [hpart, List.nil_append]
  · exact h

theorem final_concat (frame : Frame Payload) (hlast : ∀ last, s.committed.getLast? = some last → wire.ended last.payload = false)
    (hfinal : ∀ frame ∈ s.committed.dropLast, wire.ended frame.payload = false) :
    ∀ other ∈ (s.committed ++ [frame]).dropLast, wire.ended other.payload = false := by
  intro other hother
  rw [List.dropLast_concat] at hother
  rcases List.eq_nil_or_concat s.committed with hnil | ⟨earlier, last, hconcat⟩
  · rw [hnil] at hother
    exact (List.not_mem_nil hother).elim
  · rw [List.concat_eq_append] at hconcat
    rw [hconcat] at hother hlast hfinal
    rcases List.mem_append.mp hother with hearly | hlate
    · exact hfinal other (by rwa [List.dropLast_concat])
    · rw [List.mem_singleton.mp hlate]
      exact hlast last List.getLast?_concat

/-- A frame's last byte commits it. -/
theorem sound_write (h : Sound wire s) (rollBytes count : ℕ) : Sound wire (s.step wire rollBytes (.write count)) := by
  dsimp only [State.step]
  split
  · rename_i start offset frame rest hwriter
    have hstands := h.stands
    rw [hwriter] at hstands
    obtain ⟨hjoined, hlive, hstart, hoffset, hframe, hline, hrest, hlast⟩ := hstands
    obtain ⟨data, hdata⟩ := Option.isSome_iff_exists.mp hlive
    rw [Joined, hdata, Option.getD_some] at hjoined
    have hwritten : whole s.disk.archives ++ (data ++ rest.take count) = stream wire s.committed ++ (s.part ++ rest.take count) := by
      rw [← List.append_assoc, hjoined, List.append_assoc]
    unfold State.wrote
    dsimp only
    split
    · rename_i hdone
      have htake : rest.take count = rest := by
        have hsplit := List.take_append_drop count rest
        rwa [hdone, List.append_nil] at hsplit
      have hcommitted : whole s.disk.archives ++ (data ++ rest) = stream wire (s.committed ++ [frame]) := by
        rw [htake, hline] at hwritten
        rw [hwritten, stream_append]
        exact congrArg _ (List.append_nil _).symm
      have hlength : offset + (line wire frame).length = (stream wire (s.committed ++ [frame])).length := by
        rw [stream_append, List.length_append, hoffset]
        exact congrArg _ (congrArg List.length (List.append_nil _).symm)
      refine ⟨h.laid.append ⟨?_, trivial⟩, h.chained, fun archives hlead => ?_, final_concat frame hlast h.final, h.published,
        fun count hcount => ?_, ?_⟩
      · rw [hframe, hoffset, Nat.zero_add, stream]
      · obtain ⟨frames, hframes, hwhole⟩ := h.cut archives hlead
        exact ⟨frames, hframes.trans (List.prefix_append _ _), hwhole⟩
      · rw [List.length_append]
        exact (h.settled count hcount).trans (Nat.le_add_right _ _)
      · have hjoined' : whole s.disk.archives ++ ((s.disk.live.map (· ++ rest.take count)).getD []) =
            stream wire (s.committed ++ [frame]) ++ [] := by
          rw [hdata, Option.map_some, Option.getD_some, htake, hcommitted, List.append_nil]
        by_cases hroll : rollBytes ≤ offset + (line wire frame).length - start
        · rw [if_pos hroll]
          refine ⟨hjoined', rfl, ⟨data ++ rest, ?_, List.append_ne_nil_of_right_ne_nil _ hrest⟩, hstart, hlength⟩
          rw [hdata, htake]
          rfl
        · rw [if_neg hroll]
          refine ⟨hjoined', torn_nil, ?_, hstart, ?_⟩
          · rw [hdata]
            rfl
          · rw [List.append_nil]
            exact hlength
    · rename_i hmore
      refine ⟨h.laid, h.chained, h.cut, h.final, h.published, h.settled, ?_, ?_, hstart, hoffset, hframe, ?_, hmore, hlast⟩
      · rw [Joined]
        dsimp only
        rw [hdata, Option.map_some, Option.getD_some]
        exact hwritten
      · dsimp only
        rw [hdata]
        rfl
      · dsimp only
        rw [List.append_assoc, List.take_append_drop]
        exact hline
  · exact h

/-- A rolled segment's archive comes behind those there are. -/
theorem archives_putArchive (h : Sound wire s) {start offset : ℕ} {data : Bytes}
    (hwriter : s.writer = some ⟨start, offset, .full⟩) (hdata : s.disk.live = some data) :
    (s.disk.putArchive ⟨start, data⟩).archives = s.disk.archives ++ [⟨start, data⟩] := by
  have hstands := h.stands
  rw [hwriter] at hstands
  obtain ⟨-, -, ⟨data', hdata', hne⟩, hstart, -⟩ := hstands
  obtain rfl : data = data' := Option.some.inj (hdata.symm.trans hdata')
  have hnew : (s.disk.archives.filter fun other =>
      !(other.start == start && other.stop == (⟨start, data⟩ : Segment UInt8).stop)) = s.disk.archives := by
    refine List.filter_eq_self.mpr fun other hother => ?_
    have hstop : other.stop ≤ start := by
      rw [hstart, ← Nat.zero_add (whole s.disk.archives).length]
      exact h.chained.stop_le other hother
    have hlonger : other.stop ≠ (⟨start, data⟩ : Segment UInt8).stop := by
      have hlength := List.length_pos_iff.mpr hne
      have hstops : (⟨start, data⟩ : Segment UInt8).stop = start + data.length := rfl
      omega
    rw [beq_false_of_ne hlonger, Bool.and_false, Bool.not_false]
  rw [Disk.putArchive, hnew]

theorem sound_archive (h : Sound wire s) (rollBytes : ℕ) : Sound wire (s.step wire rollBytes .archive) := by
  dsimp only [State.step]
  split
  · rename_i start offset data hwriter hdata
    have harchives := archives_putArchive h hwriter hdata
    have hstands := h.stands
    rw [hwriter] at hstands
    obtain ⟨hjoined, hpart, -, hstart, hoffset⟩ := hstands
    rw [Joined, hdata, Option.getD_some, hpart, List.append_nil] at hjoined
    have hwhole : whole (s.disk.archives ++ [⟨start, data⟩]) = stream wire s.committed := by
      rw [whole_append, ← hjoined]
      exact congrArg _ (List.append_nil _)
    refine ⟨h.laid, ?_, fun archives hlead => ?_, h.final, h.published, h.settled, hpart,
      ⟨s.disk.archives, data, harchives, hstart, hdata⟩, ?_, ?_, hoffset⟩
    · rw [harchives]
      exact h.chained.concat hstart
    · rw [harchives] at hlead
      rcases List.prefix_concat_iff.mp hlead with rfl | hlead
      · exact ⟨s.committed, List.prefix_refl _, hwhole⟩
      · exact h.cut archives hlead
    · rw [harchives, hwhole]
    · rw [harchives, hwhole, ← hjoined, List.length_append, hstart]
  · exact h

theorem sound_unlink (h : Sound wire s) (rollBytes : ℕ) : Sound wire (s.step wire rollBytes .unlink) := by
  dsimp only [State.step]
  split
  · rename_i start offset stop hwriter
    have hstands := h.stands
    rw [hwriter] at hstands
    obtain ⟨hpart, -, hwhole, hstop, hoffset⟩ := hstands
    refine ⟨h.laid, h.chained, h.cut, h.final, h.published, h.settled, ?_, hpart, rfl, hstop, hoffset⟩
    rw [Joined]
    dsimp only
    rw [hpart, Option.getD_none, List.append_nil, List.append_nil, hwhole]
  · exact h

theorem sound_reopenLive (h : Sound wire s) (rollBytes : ℕ) : Sound wire (s.step wire rollBytes .reopenLive) := by
  dsimp only [State.step]
  split
  · rename_i start offset hwriter
    have hstands := h.stands
    rw [hwriter] at hstands
    obtain ⟨hjoined, hpart, -, hstart, hoffset⟩ := hstands
    refine ⟨h.laid, h.chained, h.cut, h.final, h.published, h.settled, hjoined, hpart ▸ torn_nil, rfl, hstart, ?_⟩
    dsimp only
    rw [hpart, List.append_nil]
    exact hoffset
  · exact h

theorem sound_heartbeat (h : Sound wire s) (rollBytes : ℕ) (ended : Bool) :
    Sound wire (s.step wire rollBytes (.heartbeat ended)) := by
  dsimp only [State.step]
  split
  · rename_i start offset hwriter
    have hstands := h.stands
    rw [hwriter] at hstands
    refine ⟨h.laid, h.chained, h.cut, h.final, fun hended => ?_, fun count hcount => ?_, ?_⟩
    · cases ended with
      | false => cases hended
      | true =>
          change (s.settled.or _).isSome
          rw [Option.isSome_or, Option.isSome_some, Bool.or_true]
    · cases ended with
      | false => exact h.settled count hcount
      | true =>
          change s.settled.or _ = some count at hcount
          cases hsettled : s.settled with
          | some earlier =>
              rw [hsettled] at hcount
              exact h.settled count (hsettled.trans hcount)
          | none =>
              rw [hsettled] at hcount
              exact (Option.some.inj hcount).ge
    · change Stands wire _ s.writer
      rw [hwriter]
      exact hstands
  · exact h

theorem sound_crash (hlawful : wire.Lawful) (h : Sound wire s) (hpermitted : Permitted wire s .crash) (rollBytes : ℕ) :
    Sound wire (s.step wire rollBytes .crash) := by
  obtain ⟨hroll, hdecodes⟩ := hpermitted
  have htorn := h.torn hlawful hdecodes
  have hstands := h.stands
  refine ⟨h.laid, h.chained, h.cut, h.final, h.published, h.settled, ?_, htorn⟩
  cases hwriter : s.writer with
  | none => exact (hwriter ▸ hstands).1
  | some writer =>
      obtain ⟨start, offset, phase⟩ := writer
      rw [hwriter] at hstands
      cases phase with
      | archived stop => exact absurd hwriter (hroll start offset stop)
      | idle | writing frame rest | full | unlinked => exact hstands.1

theorem sound_reopen (h : Sound wire s) (rollBytes : ℕ) : Sound wire (s.step wire rollBytes .reopen) := by
  dsimp only [State.step]
  split
  · rename_i hwriter
    have hstands := h.stands
    rw [hwriter] at hstands
    obtain ⟨hjoined, htorn⟩ := hstands
    refine ⟨h.laid, h.chained, h.cut, h.final, h.published, h.settled, hjoined, htorn, rfl, ?_, ?_⟩
    · unfold Disk.resume
      dsimp only
      split <;> exact h.endOf_sorted
    · have hlength := congrArg List.length hjoined
      rw [List.length_append] at hlength
      unfold Disk.resume
      dsimp only
      rw [← hlength]
      cases hlive : s.disk.live with
      | none => exact h.endOf_sorted
      | some data => exact congrArg (· + data.length) h.endOf_sorted
  · exact h

/-- Every permitted step keeps a spool sound. -/
theorem sound_step (hlawful : wire.Lawful) (rollBytes : ℕ) {label : Label Payload} (h : Sound wire s)
    (hpermitted : Permitted wire s label) : Sound wire (s.step wire rollBytes label) := by
  cases label with
  | append payload => exact sound_append h payload hpermitted
  | write count => exact sound_write h rollBytes count
  | archive => exact sound_archive h rollBytes
  | unlink => exact sound_unlink h rollBytes
  | reopenLive => exact sound_reopenLive h rollBytes
  | heartbeat ended => exact sound_heartbeat h rollBytes ended
  | crash => exact sound_crash hlawful h hpermitted rollBytes
  | reopen => exact sound_reopen h rollBytes
  | attach offset => exact ⟨h.laid, h.chained, h.cut, h.final, h.published, h.settled, h.stands.opened⟩
  | poll =>
      dsimp only [State.step]
      split
      · exact ⟨h.laid, h.chained, h.cut, h.final, h.published, h.settled, h.stands⟩
      · exact h

end Writing

/-! What is served -/

/-- Between its writer's operations, and where it has none, a spool serves from each frame's start, and from its end,
every committed frame from there on. -/
def Served (wire : Wire Payload) (s : State Payload) : Prop :=
  (∀ writer, s.writer = some writer → writer.phase = .idle) → ∀ offset, Boundary (line wire) s.committed offset →
    framesFrom wire s.disk offset = some (s.committed.filter fun frame => offset ≤ frame.offset)

section Serving

variable {s : State Payload}

/-- Committed frames and a torn one, cut where a frame begins. -/
theorem Sound.cutAt (h : Sound wire s) {offset : ℕ} (hoffset : Boundary (line wire) s.committed offset) (part : Bytes) :
    ∃ taken rest, s.committed = taken ++ rest ∧ offset = (stream wire taken).length ∧
      (stream wire s.committed ++ part).drop offset = stream wire rest ++ part ∧
        (s.committed.filter fun frame => offset ≤ frame.offset) = rest ∧
          (s.committed.filter fun frame => frame.offset < offset) = taken := by
  obtain ⟨taken, ⟨rest, hcommitted⟩, rfl⟩ := hoffset
  have hlaid := h.laid
  rw [← hcommitted] at hlaid
  obtain ⟨hafter, hbefore⟩ := hlaid.split line_ne_nil
  refine ⟨taken, rest, hcommitted.symm, rfl, ?_, hcommitted ▸ hafter, hcommitted ▸ hbefore⟩
  rw [← hcommitted, stream_append, List.append_assoc]
  exact List.drop_left

theorem Sound.served (hlawful : wire.Lawful) (h : Sound wire s) : Served wire s := by
  intro hidle offset hoffset
  have hstands : Joined wire s ∧ Torn s.part := by
    have hstands := h.stands
    cases hwriter : s.writer with
    | none =>
        rw [hwriter] at hstands
        exact hstands
    | some writer =>
        obtain ⟨start, position, phase⟩ := writer
        rw [hwriter] at hstands
        obtain rfl : phase = .idle := hidle _ hwriter
        exact ⟨hstands.1, hstands.2.1⟩
  obtain ⟨hjoined, htorn⟩ := hstands
  obtain ⟨taken, rest, -, -, hdrop, hafter, -⟩ := h.cutAt hoffset s.part
  have htail : s.disk.liveFrom offset = (s.disk.live.getD []).drop (offset - (whole s.disk.archives).length) := by
    unfold Disk.liveFrom
    dsimp only
    rw [h.endOf_sorted]
    split
    · rename_i data hdata
      rw [hdata, Option.getD_some]
      split
      · rfl
      · rename_i hbeyond
        exact (List.drop_eq_nil_of_le (by omega)).symm
    · rename_i hnone
      rw [hnone, Option.getD_none, List.drop_nil]
  rw [framesFrom, htail, h.sorted, h.chained.readFrom, Nat.sub_zero, ← List.drop_append, hjoined, hdrop, hafter]
  exact framesOf_stream hlawful rest htorn

end Serving

end Mainboard.Observe
