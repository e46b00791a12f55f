import Mainboard.Collecting
import Mainboard.OrderedMap
import Mainboard.SpoolFollowing

/-! The event view of what was collected of journals. A journal is collected again and again while it grows: a pass
lists it, packs its rolled segments one after the other and last the complete records of its live file under their byte
range. A roll may come between any two of these steps, and what it moves out of the live file is then left to the next
pass. The view over all that was collected has each record of the ranges collected once. -/

namespace Mainboard.Observe

open Analysis (Text Bytes utf8 decode)
open Collection (complete)
open Runs Segmented

section Definitions

variable {Payload σ : Type} (wire : Wire Payload)

/-! ### What a pass collects of a journal -/

/-- Where some lines stop, each stamped with the position it begins at. -/
def follows : ℕ → List Text → Option ℕ
  | position, [] => some position
  | position, line :: lines => match wire.decode line with
      | some frame => if frame.offset = position then follows (position + (utf8 line).length + 1) lines else none
      | none => none

/-- The byte offsets of complete records, none where they are not contiguous. -/
def rangeOf (data : Bytes) : Option (ℕ × ℕ) :=
  (decode data).bind fun text =>
    let lines := (text.splitOn '\n').dropLast
    (lines.head?.bind wire.decode).bind fun first => (follows wire first.offset lines).map fun stop => (first.offset, stop)

/-- The name of a collected file: its journal, whether it is a rolled segment, and the byte range it holds. -/
abbrev Capture (σ : Type) := σ × Bool × ℕ × ℕ

/-- The complete records of what was read of a live file under their range, none where they are not contiguous. -/
def snapshot (journal : σ) (data : Bytes) : Option (List (Capture σ × Bytes)) :=
  if complete data = [] then some []
  else (rangeOf wire (complete data)).map fun (start, stop) => [((journal, false, start, stop), complete data)]

/-- A rolled segment under its name. -/
def archived (journal : σ) (segment : Segment UInt8) : Capture σ × Bytes :=
  ((journal, true, segment.start, segment.stop), segment.data)

/-- What a file opened as the live one holds, by where it begins in the stream: it may have been rolled since. -/
def State.opened (s : State Payload) (start : ℕ) : Bytes :=
  if s.disk.live.isSome ∧ s.liveStart = start then s.disk.live.getD []
  else ((s.disk.archives.find? fun segment => segment.start == start).map Segment.data).getD []

/-- A pass over one journal: how many archives it listed and whether a live file, what it packed so far, the live file
it opened, by where it begins, and the size it took; and how many bytes were committed when it listed them. -/
structure Pass (σ : Type) where
  listed : ℕ
  live : Bool
  stood : ℕ
  taken : List (Capture σ × Bytes) := []
  opened : Option ℕ := none
  size : Option ℕ := none

/-- Captures kept, those of a name the center has left out. -/
def kept [DecidableEq σ] (files found : List (Capture σ × Bytes)) : List (Capture σ × Bytes) :=
  found.foldl (fun files file => if (OrderedMap.get files file.1).isSome then files else files ++ [file]) files

/-! ### The view -/

/-- Every complete frame of a collected file. -/
def fileFrames (data : Bytes) : Option (List (Frame Payload)) := framesOf wire (complete data)

variable [DecidableEq σ] [DecidableEq Payload]

/-- A row under an identity, none where another is there. -/
def setdefault (rows : List ((σ × ℕ) × Frame Payload)) (row : (σ × ℕ) × Frame Payload) :
    Option (List ((σ × ℕ) × Frame Payload)) :=
  match OrderedMap.get rows row.1 with
  | none => some (OrderedMap.put rows row.1 row.2)
  | some held => if held = row.2 then some rows else none

/-- The rows of all the files, none where one is not read or two conflict. -/
def events (files : List (σ × Bytes)) : Option (List ((σ × ℕ) × Frame Payload)) :=
  (files.mapM fun file => (fileFrames wire file.2).map fun frames =>
    frames.map fun frame => ((file.1, frame.offset), frame)).bind fun groups => groups.flatten.foldlM setdefault []

/-! ### Journals that grow while they are collected -/

/-- The journals of some hosts, the pass under way over each, what the center collected of them, and up to which byte
it has all of each: to where the journal stood when the last pass listed it, or, where it was rolled before that pass
read the live file, to the end of the archives the pass listed. -/
structure Site (σ Payload : Type) where
  journals : σ → State Payload
  passes : σ → Option (Pass σ) := fun _ => none
  files : List (Capture σ × Bytes) := []
  reached : σ → ℕ := fun _ => 0

/-- What a pass does once it has listed a journal: it packs the next archive, is stopped by its allowance, opens the
live file, takes its size, and reads it. -/
inductive Move where
  | send
  | spend
  | find
  | measure
  | read

/-- A step of one journal's, or of the pass over it. A pass that dies leaves nothing, and another may list at any
time. -/
inductive Happens (σ Payload : Type) where
  | journal (name : σ) (label : Label Payload)
  | list (name : σ)
  | pass (name : σ) (move : Move)

/-- A pass further on, or ended with nothing. -/
def Site.go (site : Site σ Payload) (name : σ) (pass : Option (Pass σ)) : Site σ Payload :=
  { site with passes := Function.update site.passes name pass }

/-- What a pass packed reaches the center. -/
def Site.keep (site : Site σ Payload) (name : σ) (found : List (Capture σ × Bytes)) (through : ℕ) : Site σ Payload :=
  { site with
    passes := Function.update site.passes name none
    files := kept site.files found
    reached := Function.update site.reached name (max (site.reached name) through) }

/-- Up to which byte a pass has all of a journal whose live file it read. -/
def Pass.through (pass : Pass σ) (archives : List (Segment UInt8)) : ℕ :=
  if archives.length = pass.listed then pass.stood else (whole (archives.take pass.listed)).length

/-- The next step of a pass, none where it is not there. -/
def Site.proceed (site : Site σ Payload) (name : σ) (pass : Pass σ) : Move → Option (Site σ Payload)
  | .send => ((site.journals name).disk.archives.take pass.listed)[pass.taken.length]?.map fun segment =>
      site.go name (some { pass with taken := pass.taken ++ [archived name segment] })
  | .spend =>
      if pass.taken.length < pass.listed then
        some (site.keep name pass.taken (whole ((site.journals name).disk.archives.take pass.taken.length)).length)
      else none
  | .find =>
      if pass.taken.length = pass.listed ∧ pass.live ∧ pass.opened = none then
        some (site.go name ((site.journals name).disk.live.map fun _ =>
          { pass with opened := some (site.journals name).liveStart }))
      else none
  | .measure =>
      if pass.opened.isSome ∧ pass.size = none then
        some (site.go name ((site.journals name).disk.live.map fun data => { pass with size := some data.length }))
      else none
  | .read => match pass.opened, pass.size with
      | some start, some size =>
          match snapshot wire name (((site.journals name).opened start).take size) with
          | some found => some (site.keep name (pass.taken ++ found) (pass.through (site.journals name).disk.archives))
          | none => some (site.go name none)
      | _, _ =>
          if pass.taken.length = pass.listed ∧ !pass.live then
            some (site.keep name pass.taken (pass.through (site.journals name).disk.archives))
          else none

/-- What a pass does not get to leaves everything as it is. -/
def Site.step (rollBytes : ℕ) (site : Site σ Payload) : Happens σ Payload → Site σ Payload
  | .journal name label =>
      { site with journals := Function.update site.journals name ((site.journals name).step wire rollBytes label) }
  | .list name => site.go name (some
      { listed := (site.journals name).disk.archives.length
        live := (site.journals name).disk.live.isSome
        stood := (stream wire (site.journals name).committed).length })
  | .pass name move => ((site.passes name).bind fun pass => site.proceed wire name pass move).getD site

/-- What keeps every journal right. -/
def Site.Permitted (site : Site σ Payload) : Happens σ Payload → Prop
  | .journal name label => Observe.Permitted wire (site.journals name) label
  | _ => True

end Definitions

/-! ### What is read of captures -/

section Reading

variable {Payload : Type} {wire : Wire Payload} {frames : List (Frame Payload)}

theorem complete_eq_nil {data : Bytes} (h : (10 : UInt8) ∉ data) : complete data = [] := by
  have hnone : data.reverse.dropWhile (· ≠ 10) = [] := List.dropWhile_eq_nil_iff.mpr fun byte hbyte =>
    decide_eq_true fun hsame => h (hsame ▸ List.mem_reverse.mp hbyte)
  rw [complete, hnone]
  rfl

/-- The complete lines behind a whole one are those of what follows it. -/
theorem complete_line (frame : Frame Payload) (rest : Bytes) :
    complete (line wire frame ++ rest) = line wire frame ++ complete rest := by
  obtain ⟨short, hshort⟩ : ∃ short, line wire frame = short ++ [10] :=
    ⟨utf8 (wire.encode frame), by rw [line, Analysis.utf8_append]; rfl⟩
  have hends : (line wire frame).reverse.dropWhile (· ≠ 10) = (line wire frame).reverse := by
    rw [hshort, List.reverse_append, List.reverse_singleton, List.singleton_append, List.dropWhile_cons_of_neg (by decide)]
  rw [complete, complete, List.reverse_append, List.dropWhile_append, hends]
  split
  · rename_i hempty
    rw [List.isEmpty_iff.mp hempty, List.reverse_reverse, List.reverse_nil, List.append_nil]
  · rw [List.reverse_append, List.reverse_reverse]

/-- The complete records of committed frames with a torn one behind them are the committed frames. -/
theorem complete_stream (frames : List (Frame Payload)) {part : Bytes} (hpart : (10 : UInt8) ∉ part) :
    complete (stream wire frames ++ part) = stream wire frames := by
  induction frames with
  | nil => exact complete_eq_nil hpart
  | cons frame frames ih =>
      have hfirst : stream wire (frame :: frames) = line wire frame ++ stream wire frames := rfl
      rw [hfirst, List.append_assoc, complete_line, ih]

theorem fileFrames_stream (hlawful : wire.Lawful) (frames : List (Frame Payload)) :
    fileFrames wire (stream wire frames) = some frames := by
  have hcomplete : complete (stream wire frames) = stream wire frames := by
    simpa using complete_stream frames List.not_mem_nil
  rw [fileFrames, hcomplete]
  simpa using framesOf_stream hlawful frames torn_nil

theorem splitOn_textOf (hlawful : wire.Lawful) (frames : List (Frame Payload)) :
    (textOf wire frames).splitOn '\n' = frames.map wire.encode ++ [[]] := by
  induction frames with
  | nil => rfl
  | cons frame frames ih =>
      rw [textOf, List.flatMap_cons, List.append_assoc, List.singleton_append,
        List.splitOn_append_cons_self_of_not_mem (hlawful.oneLine frame), ← textOf, ih]
      rfl

theorem length_line (frame : Frame Payload) : (line wire frame).length = (utf8 (wire.encode frame)).length + 1 := by
  rw [line, Analysis.utf8_append, List.length_append]
  rfl

theorem follows_laid (hlawful : wire.Lawful) {start : ℕ} (hlaid : Laid Frame.offset (line wire) start frames) :
    follows wire start (frames.map wire.encode) = some (start + (stream wire frames).length) := by
  induction frames generalizing start with
  | nil => rfl
  | cons frame frames ih =>
      have hrest := ih hlaid.2
      rw [List.map_cons, follows, hlawful.reads]
      simp only [if_pos hlaid.1]
      have hstream : stream wire (frame :: frames) = line wire frame ++ stream wire frames := rfl
      rw [Nat.add_assoc, ← length_line, hrest, hstream, List.length_append, Nat.add_assoc]

/-- The range of records laid end to end is where they stand. -/
theorem rangeOf_laid (hlawful : wire.Lawful) {start : ℕ} (hlaid : Laid Frame.offset (line wire) start frames)
    (hsome : frames ≠ []) : rangeOf wire (stream wire frames) = some (start, start + (stream wire frames).length) := by
  obtain ⟨first, rest, rfl⟩ := List.exists_cons_of_ne_nil hsome
  have hlines : ((textOf wire (first :: rest)).splitOn '\n').dropLast = (first :: rest).map wire.encode := by
    rw [splitOn_textOf hlawful, List.dropLast_concat]
  have hfirst : (((first :: rest).map wire.encode).head?.bind wire.decode) = some first := hlawful.reads first
  rw [rangeOf, stream_eq, Analysis.decode_utf8, Option.bind_some]
  dsimp only
  rw [hlines, hfirst, Option.bind_some, hlaid.1, follows_laid hlawful hlaid, ← stream_eq]
  rfl

/-- A part of a frame short of its end has no line feed. -/
theorem newline_not_mem {part rest : Bytes} {frame : Frame Payload} (hlawful : wire.Lawful)
    (hline : part ++ rest = line wire frame) (hrest : rest ≠ []) : (10 : UInt8) ∉ part := fun hmem => by
  obtain ⟨short, last, rfl⟩ := (List.eq_nil_or_concat rest).resolve_left hrest
  rw [line, Analysis.utf8_append, List.concat_eq_append, ← List.append_assoc] at hline
  obtain ⟨hshort, -⟩ := List.append_inj' hline rfl
  exact hlawful.oneLine frame (Analysis.newline_mem_utf8.mp (hshort ▸ List.mem_append_left _ hmem))

/-- The complete records of the first bytes of some frames are those of the frames that fit. -/
theorem complete_take (hlawful : wire.Lawful) (frames : List (Frame Payload)) {part : Bytes} (hpart : (10 : UInt8) ∉ part)
    (count : ℕ) : ∃ lead, lead <+: frames ∧ complete ((stream wire frames ++ part).take count) = stream wire lead ∧
      ∀ short, short <+: frames → (stream wire short).length ≤ count → short <+: lead := by
  induction frames generalizing count with
  | nil =>
      exact ⟨[], List.prefix_refl _, complete_eq_nil fun hmem => hpart (List.mem_of_mem_take hmem), fun short hshort _ => hshort⟩
  | cons frame frames ih =>
      have hfirst : ∀ later, stream wire (frame :: later) = line wire frame ++ stream wire later := fun _ => rfl
      rw [hfirst, List.append_assoc, List.take_append]
      by_cases hfits : (line wire frame).length ≤ count
      · obtain ⟨lead, hlead, hcomplete, hall⟩ := ih (count - (line wire frame).length)
        refine ⟨frame :: lead, List.cons_prefix_cons.mpr ⟨rfl, hlead⟩, ?_, fun short hshort hlength => ?_⟩
        · rw [List.take_of_length_le hfits, complete_line, hcomplete, hfirst]
        · cases short with
          | nil => exact List.nil_prefix
          | cons other short =>
              obtain ⟨rfl, hrest⟩ := List.cons_prefix_cons.mp hshort
              rw [hfirst, List.length_append] at hlength
              exact List.cons_prefix_cons.mpr ⟨rfl, hall short hrest (by omega)⟩
      · have hrest : (line wire frame).drop count ≠ [] := fun hnil => hfits (List.drop_eq_nil_iff.mp hnil)
        have hnone : count - (line wire frame).length = 0 := by omega
        refine ⟨[], List.nil_prefix, ?_, fun short hshort hlength => ?_⟩
        · rw [hnone, List.take_zero, List.append_nil]
          exact complete_eq_nil (newline_not_mem hlawful (List.take_append_drop count _) hrest)
        · cases short with
          | nil => exact List.prefix_refl _
          | cons other short =>
              obtain ⟨rfl, -⟩ := List.cons_prefix_cons.mp hshort
              rw [hfirst, List.length_append] at hlength
              omega

theorem newline_not_mem_torn {part : Bytes} (h : Torn part) : (10 : UInt8) ∉ part := by
  obtain ⟨text, rfl, htext⟩ := h
  exact fun hmem => htext (Analysis.newline_mem_utf8.mp hmem)

end Reading

/-! ### What a pass finds of a journal -/

section Captures

variable {Payload σ : Type} {wire : Wire Payload} {s : State Payload}

/-- Bytes that are some committed frames on end, at the range they are said to hold. -/
def Piece (wire : Wire Payload) (committed : List (Frame Payload)) (start stop : ℕ) (bytes : Bytes) : Prop :=
  ∃ before chunk after, committed = before ++ chunk ++ after ∧ bytes = stream wire chunk ∧
    start = (stream wire before).length ∧ stop = start + bytes.length

/-- Two pieces of one range are the same bytes. -/
theorem Piece.unique {committed : List (Frame Payload)} {start stop : ℕ} {bytes other : Bytes}
    (h : Piece wire committed start stop bytes) (hother : Piece wire committed start stop other) : bytes = other := by
  have hcut : ∀ {data : Bytes}, Piece wire committed start stop data →
      data = ((stream wire committed).drop start).take (stop - start) := by
    rintro data ⟨before, chunk, after, rfl, rfl, rfl, rfl⟩
    rw [List.append_assoc, stream_append, List.drop_left, stream_append, Nat.add_sub_cancel_left, List.take_left]
  rw [hcut h, hcut hother]

theorem Piece.grown {committed : List (Frame Payload)} {start stop : ℕ} {bytes : Bytes}
    (h : Piece wire committed start stop bytes) (more : List (Frame Payload)) :
    Piece wire (committed ++ more) start stop bytes := by
  obtain ⟨before, chunk, after, rfl, hbytes⟩ := h
  exact ⟨before, chunk, after ++ more, by simp, hbytes⟩

/-- The archives hold the first frames committed. -/
theorem Sound.whole (h : Sound wire s) : ∃ frames rest, s.committed = frames ++ rest ∧
    Segmented.whole s.disk.archives = stream wire frames := by
  obtain ⟨frames, ⟨rest, hcommitted⟩, hwhole⟩ := h.cut _ (List.prefix_refl _)
  exact ⟨frames, rest, hcommitted.symm, hwhole⟩

/-- Streams of which one leads the other, of frames of one journal. -/
theorem prefix_of_stream {frames later : List (Frame Payload)} {more : Bytes} (hframes : frames <+: s.committed)
    (hlater : later <+: s.committed) (h : stream wire later = stream wire frames ++ more) :
    ∃ chunk, later = frames ++ chunk ∧ more = stream wire chunk := by
  rcases List.prefix_or_prefix_of_prefix hframes hlater with ⟨chunk, rfl⟩ | ⟨chunk, rfl⟩
  · rw [stream_append] at h
    exact ⟨chunk, rfl, (List.append_cancel_left h).symm⟩
  · rw [stream_append, List.append_assoc] at h
    have hempty := List.append_cancel_left ((List.append_nil _).trans h)
    obtain ⟨hchunk, hmore⟩ := List.append_eq_nil_iff.mp hempty.symm
    have hnone : chunk = [] := by
      cases chunk with
      | nil => rfl
      | cons frame rest => exact absurd (List.append_eq_nil_iff.mp hchunk).1 (line_ne_nil frame)
    refine ⟨[], ?_, hmore⟩
    rw [hnone, List.append_nil, List.append_nil]

theorem Sound.archive (h : Sound wire s) {before after : List (Segment UInt8)} {segment : Segment UInt8}
    (hsplit : s.disk.archives = before ++ segment :: after) :
    Piece wire s.committed segment.start segment.stop segment.data := by
  have hlead : before ++ [segment] <+: s.disk.archives := ⟨after, by rw [hsplit]; simp⟩
  obtain ⟨frames, hframes, hbefore⟩ := h.cut before ⟨segment :: after, hsplit.symm⟩
  obtain ⟨later, hlater, hafter⟩ := h.cut _ hlead
  rw [whole_append, hbefore] at hafter
  obtain ⟨chunk, rfl, hdata⟩ := prefix_of_stream hframes hlater hafter.symm
  obtain ⟨rest, hcommitted⟩ := hlater
  have hsegment : segment.data = stream wire chunk := by rw [← hdata]; simp
  have hstart := (hsplit ▸ h.chained).start_eq
  rw [Nat.zero_add, hbefore] at hstart
  exact ⟨frames, chunk, rest, hcommitted.symm, hsegment, hstart, rfl⟩

/-- What the live file holds, between any two of the writer's steps: what is committed past the archives, unless all of
it is in the archives. -/
theorem Sound.live (hlawful : wire.Lawful) (h : Sound wire s) :
    ∃ before chunk after part, (10 : UInt8) ∉ part ∧ s.committed = before ++ chunk ++ after ∧
      s.disk.live.getD [] = stream wire chunk ++ part ∧
      ((stream wire s.committed).length ≤ (Segmented.whole s.disk.archives).length ∨
        after = [] ∧ Segmented.whole s.disk.archives = stream wire before ∧ s.liveStart = (Segmented.whole s.disk.archives).length) := by
  obtain ⟨frames, rest, hcommitted, hwhole⟩ := h.whole
  have hjoined : Joined wire s → (10 : UInt8) ∉ s.part → s.liveStart = endOf s.disk.sorted →
      ∃ before chunk after part, (10 : UInt8) ∉ part ∧ s.committed = before ++ chunk ++ after ∧
        s.disk.live.getD [] = stream wire chunk ++ part ∧
        ((stream wire s.committed).length ≤ (Segmented.whole s.disk.archives).length ∨
          after = [] ∧ Segmented.whole s.disk.archives = stream wire before ∧ s.liveStart = (Segmented.whole s.disk.archives).length) := by
    intro hjoined hpart hstart
    rw [Joined, hwhole, hcommitted, stream_append, List.append_assoc] at hjoined
    exact ⟨frames, rest, [], s.part, hpart, by rw [hcommitted, List.append_nil], List.append_cancel_left hjoined,
      Or.inr ⟨rfl, hwhole, hstart.trans h.endOf_sorted⟩⟩
  have hstands := h.stands
  cases hwriter : s.writer with
  | none =>
      rw [hwriter] at hstands
      exact hjoined hstands.1 (newline_not_mem_torn hstands.2) (by rw [State.liveStart, hwriter])
  | some writer =>
      obtain ⟨start, offset, phase⟩ := writer
      rw [hwriter] at hstands
      cases phase with
      | idle => exact hjoined hstands.1 (newline_not_mem_torn hstands.2.1) (by rw [State.liveStart, hwriter])
      | writing frame unwritten =>
          obtain ⟨hjoins, -, -, -, -, hline, hrest, -⟩ := hstands
          exact hjoined hjoins (newline_not_mem hlawful hline hrest) (by rw [State.liveStart, hwriter])
      | full =>
          exact hjoined hstands.1 (by rw [hstands.2.1]; exact List.not_mem_nil) (by rw [State.liveStart, hwriter])
      | unlinked =>
          exact hjoined hstands.1 (by rw [hstands.2.1]; exact List.not_mem_nil) (by rw [State.liveStart, hwriter])
      | archived stop =>
          -- the segment is rolled and the live file still stands, its records twice on the disk
          obtain ⟨-, ⟨archives, data, harchives, -, hlive⟩, hall, -⟩ := hstands
          obtain ⟨before, chunk, after, hpiece, hdata, -⟩ := h.archive harchives
          refine ⟨before, chunk, after, [], List.not_mem_nil, hpiece, ?_, Or.inl (congrArg List.length hall).ge⟩
          rw [hlive, Option.getD_some, List.append_nil]
          exact hdata

/-- A live file opened before holds some committed frames, and perhaps part of one. -/
theorem Sound.opened (hlawful : wire.Lawful) (h : Sound wire s) (start : ℕ) :
    ∃ before chunk after part, (10 : UInt8) ∉ part ∧ s.committed = before ++ chunk ++ after ∧
      s.opened start = stream wire chunk ++ part := by
  rw [State.opened]
  split
  · obtain ⟨before, chunk, after, part, hpart, hcommitted, hlive, -⟩ := h.live hlawful
    exact ⟨before, chunk, after, part, hpart, hcommitted, hlive⟩
  · cases hfound : s.disk.archives.find? fun segment => segment.start == start with
    | none => exact ⟨[], [], s.committed, [], List.not_mem_nil, rfl, rfl⟩
    | some segment =>
        obtain ⟨earlier, later, hsplit⟩ := List.append_of_mem (List.mem_of_find?_eq_some hfound)
        obtain ⟨before, chunk, after, hcommitted, hdata, -⟩ := h.archive hsplit
        exact ⟨before, chunk, after, [], List.not_mem_nil, hcommitted, by rw [List.append_nil]; exact hdata⟩

/-- What is packed of some committed frames read up to a size is a piece of them, and holds those that fit. -/
theorem snapshot_spec (hlawful : wire.Lawful) {before chunk after : List (Frame Payload)} {part : Bytes}
    (hlaid : Laid Frame.offset (line wire) 0 (before ++ chunk ++ after)) (hpart : (10 : UInt8) ∉ part) (journal : σ) (size : ℕ) :
    ∃ found, snapshot wire journal ((stream wire chunk ++ part).take size) = some found ∧
      (∀ file ∈ found, file.1.1 = journal ∧ Piece wire (before ++ chunk ++ after) file.1.2.2.1 file.1.2.2.2 file.2) ∧
      ∀ short, short <+: chunk → (stream wire short).length ≤ size → ∀ position, (stream wire before).length ≤ position →
        position < (stream wire before).length + (stream wire short).length →
          ∃ file ∈ found, file.1.2.2.1 ≤ position ∧ position < file.1.2.2.2 := by
  obtain ⟨lead, hlead, hcomplete, hall⟩ := complete_take hlawful chunk hpart size
  rw [snapshot, hcomplete]
  cases lead with
  | nil =>
      refine ⟨[], if_pos rfl, fun file hfile => absurd hfile List.not_mem_nil, fun short hshort hsize position hlow hhigh => ?_⟩
      rw [List.prefix_nil.mp (hall short hshort hsize)] at hhigh
      exact absurd hhigh (Nat.not_lt.mpr hlow)
  | cons first rest =>
      obtain ⟨beyond, rfl⟩ := hlead
      have hne : stream wire (first :: rest) ≠ [] := fun hnil =>
        line_ne_nil first (List.append_eq_nil_iff.mp hnil).1
      have hplaced : Laid Frame.offset (line wire) (stream wire before).length (first :: rest) := by
        have hsplit := hlaid.of_append.1.of_append.2.of_append.1
        rwa [Nat.zero_add] at hsplit
      rw [if_neg hne, rangeOf_laid hlawful hplaced (List.cons_ne_nil _ _)]
      refine ⟨_, rfl, fun file hfile => ?_, fun short hshort hsize position hlow hhigh => ?_⟩
      · rw [List.mem_singleton.mp hfile]
        exact ⟨rfl, before, first :: rest, beyond ++ after, by simp, rfl, rfl, rfl⟩
      · refine ⟨_, List.mem_singleton_self _, hlow, ?_⟩
        obtain ⟨more, hmore⟩ := hall short hshort hsize
        have hlength : (stream wire short).length ≤ (stream wire (first :: rest)).length := by
          rw [← hmore, stream_append, List.length_append]
          exact Nat.le_add_right _ _
        dsimp only
        omega

/-- The frames of a piece are those committed within its range. -/
theorem Piece.mem_iff (hlawful : wire.Lawful) {committed chunk : List (Frame Payload)} {start stop : ℕ}
    (hlaid : Laid Frame.offset (line wire) 0 committed) (h : Piece wire committed start stop (stream wire chunk))
    {frame : Frame Payload} : frame ∈ chunk ↔ frame ∈ committed ∧ start ≤ frame.offset ∧ frame.offset < stop := by
  obtain ⟨before, other, after, rfl, hbytes, rfl, rfl⟩ := h
  obtain rfl : chunk = other := by
    have hsame := fileFrames_stream hlawful chunk
    rw [hbytes, fileFrames_stream hlawful] at hsame
    exact (Option.some.inj hsame).symm
  have hlength : 0 < (line wire frame).length := List.length_pos_iff.mpr (line_ne_nil frame)
  obtain ⟨hfront, hafter⟩ := hlaid.of_append
  obtain ⟨hbefore, hchunk⟩ := hfront.of_append
  have hcut : ((before ++ chunk).flatMap (line wire)).length = (stream wire before).length + (stream wire chunk).length := by
    rw [← List.length_append, ← stream_append]
    rfl
  rw [List.mem_append, List.mem_append]
  constructor
  · intro hframe
    have hbounds := hchunk.bounds frame hframe
    rw [Nat.zero_add] at hbounds
    exact ⟨Or.inl (Or.inr hframe), hbounds.1, Nat.lt_of_lt_of_le (Nat.lt_add_of_pos_right hlength) hbounds.2⟩
  · rintro ⟨(hearly | hframe) | hlate, hlow, hhigh⟩
    · have hbounds := (hbefore.bounds frame hearly).2
      rw [Nat.zero_add] at hbounds
      have hlow : (before.flatMap (line wire)).length ≤ frame.offset := hlow
      omega
    · exact hframe
    · have hbounds := (hafter.bounds frame hlate).1
      rw [Nat.zero_add, hcut] at hbounds
      exact absurd hhigh (Nat.not_lt.mpr hbounds)

end Captures

/-! ### The view over captures -/

section View

variable {Payload σ : Type} {wire : Wire Payload} [DecidableEq σ] [DecidableEq Payload]

/-- Rows of which no two conflict stand once each. -/
theorem setdefaults_spec (rows : List ((σ × ℕ) × Frame Payload)) {found : List ((σ × ℕ) × Frame Payload)} (hkeys : (rows.map (·.1)).Nodup)
    (hagree : ∀ row ∈ rows ++ found, ∀ other ∈ rows ++ found, row.1 = other.1 → row = other) :
    ∃ all, found.foldlM setdefault rows = some all ∧ (all.map (·.1)).Nodup ∧
      ∀ row, row ∈ all ↔ row ∈ rows ∨ row ∈ found := by
  induction found generalizing rows with
  | nil => exact ⟨rows, rfl, hkeys, fun row => by simp⟩
  | cons row found ih =>
      rw [List.foldlM_cons, setdefault]
      cases hget : OrderedMap.get rows row.1 with
      | none =>
          have hnew : row.1 ∉ rows.map (·.1) := (OrderedMap.get_eq_none_iff _ _).mp hget
          have hput : OrderedMap.put rows row.1 row.2 = rows ++ [row] := OrderedMap.put_of_not_mem hnew row.2
          have hassoc : rows ++ [row] ++ found = rows ++ row :: found := by simp
          obtain ⟨all, hall, hnodup, hmem⟩ := ih _ (hput ▸ OrderedMap.nodup_keys_put hkeys row.1 row.2) (hassoc ▸ hagree)
          refine ⟨all, by rw [hput]; exact hall, hnodup, fun other => ?_⟩
          rw [hmem, List.mem_append, List.mem_singleton, List.mem_cons, or_assoc]
      | some held =>
          have hheld := OrderedMap.mem_of_get hget
          have hsame : (row.1, held) = row :=
            hagree _ (List.mem_append_left _ hheld) row (List.mem_append_right _ List.mem_cons_self) rfl
          have hvalue : held = row.2 := congrArg Prod.snd hsame
          have hrest : ∀ other ∈ rows ++ found, ∀ another ∈ rows ++ found, other.1 = another.1 → other = another := by
            have hsub : ∀ other ∈ rows ++ found, other ∈ rows ++ row :: found := fun other hother =>
              (List.mem_append.mp hother).elim (List.mem_append_left _)
                fun hlate => List.mem_append_right _ (List.mem_cons_of_mem _ hlate)
            exact fun other hother another hanother => hagree other (hsub other hother) another (hsub another hanother)
          obtain ⟨all, hall, hnodup, hmem⟩ := ih _ hkeys hrest
          refine ⟨all, ?_, hnodup, fun other => ?_⟩
          · simp only [if_pos hvalue]
            exact hall
          · rw [hmem, List.mem_cons]
            refine ⟨fun h => h.imp_right Or.inr, fun h => ?_⟩
            rcases h with hold | rfl | hlate
            · exact Or.inl hold
            · exact Or.inl (hsame ▸ hheld)
            · exact Or.inr hlate

/-- The view over files of frames of which no two conflict. -/
theorem events_spec (hlawful : wire.Lawful) {files : List (σ × Bytes)} {committed : σ → List (Frame Payload)}
    (hfiles : ∀ file ∈ files, ∃ chunk, file.2 = stream wire chunk ∧ ∀ frame ∈ chunk, frame ∈ committed file.1)
    (honce : ∀ name, ∀ frame ∈ committed name, ∀ other ∈ committed name, frame.offset = other.offset → frame = other) :
    ∃ rows, events wire files = some rows ∧ (rows.map (·.1)).Nodup ∧ ∀ name offset frame, ((name, offset), frame) ∈ rows ↔
      frame.offset = offset ∧ ∃ file ∈ files, file.1 = name ∧ ∃ chunk, file.2 = stream wire chunk ∧ frame ∈ chunk := by
  have hread : ∀ file ∈ files, ∃ group, ((fileFrames wire file.2).map fun frames =>
      frames.map fun frame => ((file.1, frame.offset), frame)) = some group := by
    intro file hfile
    obtain ⟨chunk, hchunk, -⟩ := hfiles file hfile
    exact ⟨_, by rw [hchunk, fileFrames_stream hlawful]; rfl⟩
  obtain ⟨groups, hgroups⟩ := ListReading.mapM_exists_iff.mpr hread
  have hrow : ∀ row, row ∈ groups.flatten ↔ ∃ file ∈ files, ∃ chunk, file.2 = stream wire chunk ∧
      ∃ frame ∈ chunk, row = ((file.1, frame.offset), frame) := by
    intro row
    rw [List.mem_flatten]
    constructor
    · rintro ⟨group, hgroup, hin⟩
      obtain ⟨file, hfile, hanswer⟩ := ListReading.mem_of_mapM hgroups hgroup
      obtain ⟨chunk, hchunk, -⟩ := hfiles file hfile
      rw [hchunk, fileFrames_stream hlawful, Option.map_some] at hanswer
      rw [← Option.some.inj hanswer] at hin
      obtain ⟨frame, hframe, rfl⟩ := List.mem_map.mp hin
      exact ⟨file, hfile, chunk, hchunk, frame, hframe, rfl⟩
    · rintro ⟨file, hfile, chunk, hchunk, frame, hframe, rfl⟩
      obtain ⟨group, hgroup, hanswer⟩ := ListReading.exists_of_mapM hgroups hfile
      rw [hchunk, fileFrames_stream hlawful, Option.map_some] at hanswer
      exact ⟨group, hgroup, Option.some.inj hanswer ▸ List.mem_map_of_mem hframe⟩
  have hcommitted : ∀ file ∈ files, ∀ chunk, file.2 = stream wire chunk → ∀ frame ∈ chunk, frame ∈ committed file.1 := by
    intro file hfile chunk hchunk frame hframe
    obtain ⟨other, hother, hall⟩ := hfiles file hfile
    have hsame : some chunk = some other := by
      rw [← fileFrames_stream hlawful chunk, ← fileFrames_stream hlawful other, ← hchunk, ← hother]
    exact hall frame (Option.some.inj hsame ▸ hframe)
  have hagree : ∀ row ∈ [] ++ groups.flatten, ∀ other ∈ [] ++ groups.flatten, row.1 = other.1 → row = other := by
    intro row hin other hother hkey
    obtain ⟨file, hfile, chunk, hchunk, frame, hframe, rfl⟩ := (hrow row).mp (by simpa using hin)
    obtain ⟨file', hfile', chunk', hchunk', frame', hframe', rfl⟩ := (hrow other).mp (by simpa using hother)
    obtain ⟨hname, hoffset⟩ := Prod.mk.injEq _ _ _ _ ▸ hkey
    have hin' := hcommitted file' hfile' chunk' hchunk' frame' hframe'
    rw [← hname] at hin'
    have hsame := honce file.1 frame (hcommitted file hfile chunk hchunk frame hframe) frame' hin' hoffset
    rw [hname, hsame]
  obtain ⟨rows, hrows, hnodup, hmem⟩ := setdefaults_spec [] List.nodup_nil hagree
  refine ⟨rows, ?_, hnodup, fun name offset frame => ?_⟩
  · rw [events, hgroups]
    exact hrows
  · rw [hmem, hrow]
    constructor
    · rintro (hnone | ⟨file, hfile, chunk, hchunk, found, hfound, hsame⟩)
      · cases hnone
      · cases hsame
        exact ⟨rfl, file, hfile, rfl, chunk, hchunk, hfound⟩
    · rintro ⟨rfl, file, hfile, rfl, chunk, hchunk, hframe⟩
      exact Or.inr ⟨file, hfile, chunk, hchunk, frame, hframe, rfl⟩

end View

/-! ### Every run -/

section Passes

variable {Payload σ : Type} {wire : Wire Payload} {s : State Payload} {name : σ} {pass : Pass σ}

/-- What a pass under way over a journal knows of it. Where it was not rolled since and holds more than its archives
did, what the pass opened and measured is the live file that holds the rest. -/
structure Pass.Fits (wire : Wire Payload) (s : State Payload) (name : σ) (pass : Pass σ) : Prop where
  listed : pass.listed ≤ s.disk.archives.length
  sent : pass.taken.length ≤ pass.listed
  taken : pass.taken = (s.disk.archives.take pass.taken.length).map (archived name)
  full : pass.opened.isSome → pass.taken.length = pass.listed
  stood : Boundary (line wire) s.committed pass.stood
  bare : pass.live = false → pass.stood ≤ (whole (s.disk.archives.take pass.listed)).length
  still : s.disk.archives.length = pass.listed → (whole s.disk.archives).length < pass.stood →
    (∀ start, pass.opened = some start → start = (whole s.disk.archives).length) ∧
      ∀ size, pass.size = some size → pass.stood ≤ (whole s.disk.archives).length + size

/-- A journal's step adds to what is committed and to the archives alone. -/
theorem grown_step (hsound : Sound wire s) (rollBytes : ℕ) (label : Label Payload) :
    ∃ more, (s.step wire rollBytes label).committed = s.committed ++ more ∧
      s.disk.archives <+: (s.step wire rollBytes label).disk.archives := by
  by_cases hwrites : Writes label
  · obtain ⟨more, hgrows⟩ := grows_of_step hsound rollBytes hwrites
    exact ⟨more, hgrows.committed, hgrows.archives⟩
  · refine ⟨[], ?_⟩
    rw [List.append_nil]
    cases label with
    | attach offset => exact ⟨rfl, List.prefix_refl _⟩
    | poll =>
        dsimp only [State.step]
        split <;> exact ⟨rfl, List.prefix_refl _⟩
    | _ => exact absurd trivial hwrites

theorem Pass.Fits.grown {after : State Payload} {more : List (Frame Payload)} (h : pass.Fits wire s name)
    (hcommitted : after.committed = s.committed ++ more) (harchives : s.disk.archives <+: after.disk.archives) :
    pass.Fits wire after name := by
  obtain ⟨rest, hrest⟩ := harchives
  have htake : ∀ count ≤ s.disk.archives.length, after.disk.archives.take count = s.disk.archives.take count :=
    fun count hcount => by rw [← hrest, List.take_append_of_le_length hcount]
  refine ⟨h.listed.trans ?_, h.sent, ?_, h.full, hcommitted ▸ h.stood.append more, fun hbare => ?_, fun hsame => ?_⟩
  · rw [← hrest, List.length_append]
    exact Nat.le_add_right _ _
  · rw [htake _ (h.sent.trans h.listed)]
    exact h.taken
  · rw [htake _ h.listed]
    exact h.bare hbare
  · -- no archive came, so they are those listed
    have hlisted := h.listed
    have hnone : rest = [] := by
      rw [← hrest, List.length_append] at hsame
      exact List.length_eq_zero_iff.mp (by omega)
    rw [hnone, List.append_nil] at hrest
    rw [← hrest] at hsame ⊢
    exact h.still hsame

/-- The archives packed are pieces of the journal. -/
theorem Pass.Fits.pieces (h : pass.Fits wire s name) (hsound : Sound wire s) :
    ∀ file ∈ pass.taken, file.1.1 = name ∧ Piece wire s.committed file.1.2.2.1 file.1.2.2.2 file.2 := by
  intro file hfile
  rw [h.taken] at hfile
  obtain ⟨segment, hsegment, rfl⟩ := List.mem_map.mp hfile
  obtain ⟨earlier, later, hsplit⟩ := List.append_of_mem (List.mem_of_mem_take hsegment)
  exact ⟨rfl, hsound.archive hsplit⟩

/-- The archives packed leave out nothing before their end. -/
theorem Pass.Fits.covers (h : pass.Fits wire s name) (hsound : Sound wire s) :
    ∀ position < (whole (s.disk.archives.take pass.taken.length)).length,
      ∃ file ∈ pass.taken, file.1.2.2.1 ≤ position ∧ position < file.1.2.2.2 := by
  intro position hposition
  obtain ⟨segment, hsegment, hholds⟩ := (hsound.chained.of_prefix (List.take_prefix _ _)).exists_holding
    (Nat.zero_le position) (by rwa [Nat.zero_add])
  exact ⟨archived name segment, by rw [h.taken]; exact List.mem_map_of_mem hsegment, hholds⟩

/-- A pass as it lists a journal. -/
theorem Pass.Fits.list (hlawful : wire.Lawful) (hsound : Sound wire s) (name : σ) :
    Pass.Fits wire s name ⟨s.disk.archives.length, s.disk.live.isSome, (stream wire s.committed).length, [], none, none⟩ where
  listed := Nat.le_refl _
  sent := Nat.zero_le _
  taken := rfl
  full hopened := by cases hopened
  stood := ⟨s.committed, List.prefix_refl _, rfl⟩
  bare hbare := by
    have hnone : s.disk.live = none := Option.not_isSome_iff_eq_none.mp (Bool.eq_false_iff.mp hbare)
    obtain ⟨before, chunk, after, part, -, hcommitted, hlive, hwhere⟩ := hsound.live hlawful
    rw [List.take_length]
    rcases hwhere with hall | ⟨rfl, hwhole, -⟩
    · exact hall
    · rw [hnone, Option.getD_none] at hlive
      have hchunk := (List.append_eq_nil_iff.mp hlive.symm).1
      dsimp only
      rw [hcommitted, List.append_nil, stream_append, hchunk, List.append_nil, hwhole]
  still _ _ := ⟨fun _ hopened => (Option.some_ne_none _ hopened.symm).elim, fun _ hsize => (Option.some_ne_none _ hsize.symm).elim⟩

/-- The live file a pass opens where there is more than the archives begins where they end, and holds the rest. -/
theorem Sound.beyond (hlawful : wire.Lawful) (h : Sound wire s) {stood : ℕ} (hstood : Boundary (line wire) s.committed stood)
    (hbeyond : (Segmented.whole s.disk.archives).length < stood) :
    ∃ before chunk part, (10 : UInt8) ∉ part ∧ s.committed = before ++ chunk ∧ s.disk.live = some (stream wire chunk ++ part) ∧
      Segmented.whole s.disk.archives = stream wire before ∧ s.liveStart = (Segmented.whole s.disk.archives).length := by
  obtain ⟨before, chunk, after, part, hpart, hcommitted, hlive, hwhere⟩ := h.live hlawful
  rcases hwhere with hall | ⟨rfl, hwhole, hstart⟩
  · exact absurd (hstood.le.trans hall) (Nat.not_le.mpr hbeyond)
  · rw [List.append_nil] at hcommitted
    refine ⟨before, chunk, part, hpart, hcommitted, ?_, hwhole, hstart⟩
    cases hdisk : s.disk.live with
    | some data =>
        rw [hdisk, Option.getD_some] at hlive
        rw [hlive]
    | none =>
        rw [hdisk, Option.getD_none] at hlive
        have hle := hstood.le
        have hcut : (s.committed.flatMap (line wire)).length = (Segmented.whole s.disk.archives).length := by
          rw [hwhole, ← stream, hcommitted, stream_append, (List.append_eq_nil_iff.mp hlive.symm).1, List.append_nil]
        omega

theorem Pass.Fits.find (hlawful : wire.Lawful) (hsound : Sound wire s) (h : pass.Fits wire s name)
    (hfull : pass.taken.length = pass.listed) :
    Pass.Fits wire s name { pass with opened := some s.liveStart } :=
  { h with
    full := fun _ => hfull
    still := fun hsame hbeyond => by
      obtain ⟨-, -, -, -, -, -, -, hstart⟩ := hsound.beyond hlawful h.stood hbeyond
      exact ⟨fun start hopened => (Option.some.inj hopened).symm.trans hstart, (h.still hsame hbeyond).2⟩ }

theorem Pass.Fits.measure (hlawful : wire.Lawful) (hsound : Sound wire s) (h : pass.Fits wire s name) {data : Bytes}
    (hdata : s.disk.live = some data) : Pass.Fits wire s name { pass with size := some data.length } :=
  { h with
    still := fun hsame hbeyond => by
      refine ⟨(h.still hsame hbeyond).1, fun size hsize => ?_⟩
      obtain ⟨before, chunk, part, -, hcommitted, hlive, hwhole, -⟩ := hsound.beyond hlawful h.stood hbeyond
      have hle : pass.stood ≤ (stream wire s.committed).length := h.stood.le
      obtain rfl : data = stream wire chunk ++ part := Option.some.inj (hdata.symm.trans hlive)
      rw [hcommitted, stream_append, List.length_append, ← hwhole] at hle
      rw [← Option.some.inj hsize, List.length_append]
      dsimp only
      omega }

/-- What a pass reads of the live file is not refused, and with the archives it packed leaves nothing out up to where
the pass has all of the journal. -/
theorem Pass.Fits.read (hlawful : wire.Lawful) (hsound : Sound wire s) (h : pass.Fits wire s name) {start size : ℕ}
    (hopened : pass.opened = some start) (hsize : pass.size = some size) :
    ∃ found, snapshot wire name ((s.opened start).take size) = some found ∧
      (∀ file ∈ found, file.1.1 = name ∧ Piece wire s.committed file.1.2.2.1 file.1.2.2.2 file.2) ∧
      ∀ position < pass.through s.disk.archives,
        ∃ file ∈ pass.taken ++ found, file.1.2.2.1 ≤ position ∧ position < file.1.2.2.2 := by
  have hcovers := h.covers hsound
  rw [h.full (by rw [hopened]; rfl)] at hcovers
  have hpacked : ∀ found : List (Capture σ × Bytes), ∀ position < (whole (s.disk.archives.take pass.listed)).length,
      ∃ file ∈ pass.taken ++ found, file.1.2.2.1 ≤ position ∧ position < file.1.2.2.2 := fun found position hposition => by
    obtain ⟨file, hfile, hholds⟩ := hcovers position hposition
    exact ⟨file, List.mem_append_left _ hfile, hholds⟩
  have hlaid := hsound.laid
  by_cases hstill : s.disk.archives.length = pass.listed ∧ (whole s.disk.archives).length < pass.stood
  · obtain ⟨hsame, hbeyond⟩ := hstill
    have hall : s.disk.archives.take pass.listed = s.disk.archives := List.take_of_length_le hsame.le
    obtain ⟨hstart, hlong⟩ := h.still hsame hbeyond
    have hlong := hlong size hsize
    obtain ⟨before, chunk, part, hpart, hcommitted, hlive, hwhole, hliveStart⟩ := hsound.beyond hlawful h.stood hbeyond
    have hread : s.opened start = stream wire chunk ++ part := by
      rw [State.opened, hlive, if_pos ⟨rfl, hliveStart.trans (hstart start hopened).symm⟩, Option.getD_some]
    obtain ⟨lead, hlead, hstood⟩ := h.stood
    have hstood : pass.stood = (stream wire lead).length := hstood
    rw [hcommitted] at hlead hlaid
    -- what stood when the pass listed the journal is the archives and the start of what it reads
    obtain ⟨short, rfl⟩ : before <+: lead := by
      refine (List.prefix_or_prefix_of_prefix (List.prefix_append before chunk) hlead).resolve_right ?_
      rintro ⟨more, rfl⟩
      rw [hstood, hwhole, stream_append, List.length_append] at hbeyond
      omega
    have hshort : short <+: chunk := (List.prefix_append_right_inj before).mp hlead
    rw [stream_append, List.length_append, ← hwhole] at hstood
    rw [← List.append_nil (before ++ chunk)] at hlaid
    obtain ⟨found, hfound, hpieces, hholds⟩ := snapshot_spec hlawful hlaid hpart name size
    rw [List.append_nil, ← hcommitted] at hpieces
    refine ⟨found, by rw [hread]; exact hfound, hpieces, fun position hposition => ?_⟩
    rw [Pass.through, if_pos hsame] at hposition
    by_cases hearly : position < (whole s.disk.archives).length
    · exact hpacked found position (by rwa [hall])
    · rw [← hwhole] at hholds
      obtain ⟨file, hfile, hheld⟩ := hholds short hshort (by omega) position (by omega) (by omega)
      exact ⟨file, List.mem_append_right _ hfile, hheld⟩
  · obtain ⟨before, chunk, after, part, hpart, hcommitted, hread⟩ := hsound.opened hlawful start
    rw [hcommitted] at hlaid
    obtain ⟨found, hfound, hpieces, -⟩ := snapshot_spec hlawful hlaid hpart name size
    rw [← hcommitted] at hpieces
    refine ⟨found, by rw [hread]; exact hfound, hpieces, fun position hposition => hpacked found position ?_⟩
    rw [Pass.through] at hposition
    split at hposition
    · rename_i hsame
      rw [List.take_of_length_le hsame.le]
      exact Nat.lt_of_lt_of_le hposition (Nat.not_lt.mp fun hbeyond => hstill ⟨hsame, hbeyond⟩)
    · exact hposition

end Passes

section Sites

variable {Payload σ : Type} {wire : Wire Payload} [DecidableEq σ]

theorem mem_kept {files found : List (Capture σ × Bytes)} {file : Capture σ × Bytes} (h : file ∈ kept files found) :
    file ∈ files ∨ file ∈ found := by
  induction found generalizing files with
  | nil => exact Or.inl h
  | cons first found ih =>
      rw [kept, List.foldl_cons] at h
      split at h
      · exact (ih h).imp_right (List.mem_cons_of_mem _)
      · rcases ih h with hold | hlate
        · rcases List.mem_append.mp hold with hearly | hlast
          · exact Or.inl hearly
          · exact Or.inr (List.mem_singleton.mp hlast ▸ List.mem_cons_self)
        · exact Or.inr (List.mem_cons_of_mem _ hlate)

theorem subset_kept (files found : List (Capture σ × Bytes)) : ∀ file ∈ files, file ∈ kept files found := by
  induction found generalizing files with
  | nil => exact fun _ h => h
  | cons first found ih =>
      intro file hfile
      rw [kept, List.foldl_cons]
      split
      · exact ih files file hfile
      · exact ih _ file (List.mem_append_left _ hfile)

/-- Every capture found is kept, or one of its name is. -/
theorem kept_name (files : List (Capture σ × Bytes)) {found : List (Capture σ × Bytes)} {file : Capture σ × Bytes}
    (h : file ∈ found) : ∃ other ∈ kept files found, other.1 = file.1 := by
  induction found generalizing files with
  | nil => cases h
  | cons first found ih =>
      rw [kept, List.foldl_cons]
      rcases List.mem_cons.mp h with rfl | hlate
      · split
        · rename_i hknown
          obtain ⟨bytes, hget⟩ := Option.isSome_iff_exists.mp hknown
          exact ⟨_, subset_kept files found _ (OrderedMap.mem_of_get hget), rfl⟩
        · exact ⟨file, subset_kept _ found _ (List.mem_append_right _ List.mem_cons_self), rfl⟩
      · split
        · exact ih files hlate
        · exact ih _ hlate

/-- What every permitted step keeps of journals, passes and captures. -/
structure Site.Kept (wire : Wire Payload) (site : Site σ Payload) : Prop where
  sound : ∀ name, Sound wire (site.journals name)
  fits : ∀ name pass, site.passes name = some pass → pass.Fits wire (site.journals name) name
  pieces : ∀ file ∈ site.files, Piece wire (site.journals file.1.1).committed file.1.2.2.1 file.1.2.2.2 file.2
  covers : ∀ name, ∀ position < site.reached name,
    ∃ file ∈ site.files, file.1.1 = name ∧ file.1.2.2.1 ≤ position ∧ position < file.1.2.2.2

section Keeping

variable {site : Site σ Payload} {name : σ} {pass : Pass σ}

theorem Site.Kept.go (h : site.Kept wire) {next : Option (Pass σ)}
    (hnext : ∀ pass, next = some pass → pass.Fits wire (site.journals name) name) : (site.go name next).Kept wire where
  sound := h.sound
  fits other pass hpass := by
    have hpass : Function.update site.passes name next other = some pass := hpass
    by_cases hsame : other = name
    · subst hsame
      rw [Function.update_self] at hpass
      exact hnext pass hpass
    · rw [Function.update_of_ne hsame] at hpass
      exact h.fits other pass hpass
  pieces := h.pieces
  covers := h.covers

theorem Site.Kept.keep (h : site.Kept wire) {found : List (Capture σ × Bytes)} {through : ℕ}
    (hpieces : ∀ file ∈ found, file.1.1 = name ∧ Piece wire (site.journals name).committed file.1.2.2.1 file.1.2.2.2 file.2)
    (hcovers : ∀ position < through, ∃ file ∈ found, file.1.2.2.1 ≤ position ∧ position < file.1.2.2.2) :
    (site.keep name found through).Kept wire where
  sound := h.sound
  fits other pass hpass := by
    have hpass : Function.update site.passes name none other = some pass := hpass
    by_cases hsame : other = name
    · subst hsame
      rw [Function.update_self] at hpass
      cases hpass
    · rw [Function.update_of_ne hsame] at hpass
      exact h.fits other pass hpass
  pieces file hfile := by
    rcases mem_kept hfile with hold | hnew
    · exact h.pieces file hold
    · obtain ⟨hname, hpiece⟩ := hpieces file hnew
      rw [hname]
      exact hpiece
  covers other position hposition := by
    have hold : position < site.reached other → ∃ file ∈ (site.keep name found through).files,
        file.1.1 = other ∧ file.1.2.2.1 ≤ position ∧ position < file.1.2.2.2 := fun hearly => by
      obtain ⟨file, hfile, hholds⟩ := h.covers other position hearly
      exact ⟨file, subset_kept _ _ file hfile, hholds⟩
    have hposition : position < Function.update site.reached name (max (site.reached name) through) other := hposition
    by_cases hsame : other = name
    · subst hsame
      rw [Function.update_self] at hposition
      rcases (by omega : position < site.reached other ∨ position < through) with hearly | hlate
      · exact hold hearly
      · obtain ⟨file, hfile, hholds⟩ := hcovers position hlate
        -- a file left out has another of its name in its place
        obtain ⟨held, hheld, hkey⟩ := kept_name site.files hfile
        exact ⟨held, hheld, by rw [hkey]; exact (hpieces file hfile).1, by rw [hkey]; exact hholds⟩
    · rw [Function.update_of_ne hsame] at hposition
      exact hold hposition

theorem Site.Kept.proceed (hlawful : wire.Lawful) (h : site.Kept wire) (hpass : site.passes name = some pass) {move : Move}
    {after : Site σ Payload} (hafter : site.proceed wire name pass move = some after) : after.Kept wire := by
  have hsound := h.sound name
  have hfits := h.fits name pass hpass
  cases move with
  | send =>
      obtain ⟨segment, hsegment, rfl⟩ := Option.map_eq_some_iff.mp hafter
      obtain ⟨hlength, hget⟩ := List.getElem?_eq_some_iff.mp hsegment
      rw [List.length_take] at hlength
      refine h.go fun next hnext => ?_
      cases hnext
      refine { hfits with sent := ?_, taken := ?_, full := fun hopened => ?_ }
      · dsimp only
        rw [List.length_append, List.length_singleton]
        omega
      · have hone : (site.journals name).disk.archives[pass.taken.length]? = some segment := by
          rw [← hsegment, List.getElem?_take_of_lt (by omega)]
        dsimp only
        rw [List.length_append, List.length_singleton, List.take_add_one, hone, Option.toList_some, List.map_append, ← hfits.taken]
        rfl
      · have hfull := hfits.full hopened
        omega
  | spend =>
      dsimp only [Site.proceed] at hafter
      split at hafter
      · cases hafter
        exact h.keep (hfits.pieces hsound) (hfits.covers hsound)
      · cases hafter
  | find =>
      dsimp only [Site.proceed] at hafter
      split at hafter
      · rename_i hready
        cases hafter
        refine h.go fun next hnext => ?_
        obtain ⟨data, -, rfl⟩ := Option.map_eq_some_iff.mp hnext
        exact hfits.find hlawful hsound hready.1
      · cases hafter
  | measure =>
      dsimp only [Site.proceed] at hafter
      split at hafter
      · cases hafter
        refine h.go fun next hnext => ?_
        obtain ⟨data, hdata, rfl⟩ := Option.map_eq_some_iff.mp hnext
        exact hfits.measure hlawful hsound hdata
      · cases hafter
  | read =>
      dsimp only [Site.proceed] at hafter
      split at hafter
      · rename_i start size hopened hsize
        obtain ⟨found, hfound, hpieces, hcovers⟩ := hfits.read hlawful hsound hopened hsize
        rw [hfound] at hafter
        cases hafter
        refine h.keep (fun file hfile => ?_) hcovers
        exact (List.mem_append.mp hfile).elim (hfits.pieces hsound file) (hpieces file)
      · split at hafter
        · rename_i hready
          cases hafter
          refine h.keep (hfits.pieces hsound) fun position hposition => hfits.covers hsound position ?_
          have hbare := hfits.bare (by simpa using hready.2)
          rw [hready.1]
          rw [Pass.through] at hposition
          split at hposition
          · omega
          · exact hposition
        · cases hafter

theorem Site.Kept.step (hlawful : wire.Lawful) (rollBytes : ℕ) (h : site.Kept wire) {label : Happens σ Payload}
    (hpermitted : site.Permitted wire label) : (site.step wire rollBytes label).Kept wire := by
  cases label with
  | journal name label =>
      obtain ⟨more, hcommitted, harchives⟩ := grown_step (h.sound name) rollBytes label
      have hother : ∀ other, other ≠ name →
          (site.step wire rollBytes (.journal name label)).journals other = site.journals other :=
        fun other hne => Function.update_of_ne hne _ _
      have hself : (site.step wire rollBytes (.journal name label)).journals name =
          (site.journals name).step wire rollBytes label := Function.update_self _ _ _
      refine ⟨fun other => ?_, fun other pass hpass => ?_, fun file hfile => ?_, h.covers⟩
      · by_cases hsame : other = name
        · rw [hsame, hself]
          exact sound_step hlawful rollBytes (h.sound name) hpermitted
        · rw [hother other hsame]
          exact h.sound other
      · have hfits := h.fits other pass hpass
        by_cases hsame : other = name
        · rw [hsame] at hfits ⊢
          rw [hself]
          exact hfits.grown hcommitted harchives
        · rw [hother other hsame]
          exact hfits
      · have hpiece := h.pieces file hfile
        by_cases hsame : file.1.1 = name
        · rw [hsame] at hpiece ⊢
          rw [hself, hcommitted]
          exact hpiece.grown more
        · rw [hother _ hsame]
          exact hpiece
  | list name =>
      refine h.go fun pass hpass => ?_
      cases hpass
      exact Pass.Fits.list hlawful (h.sound name) name
  | pass name move =>
      rw [Site.step]
      cases hnext : (site.passes name).bind fun pass => site.proceed wire name pass move with
      | none => exact h
      | some after =>
          obtain ⟨pass, hpass, hafter⟩ := Option.bind_eq_some_iff.mp hnext
          exact h.proceed hlawful hpass hafter

end Keeping

theorem sound_empty : Sound wire ({} : State Payload) where
  laid := trivial
  chained := trivial
  cut archives hlead := ⟨[], List.prefix_refl _, by rw [List.prefix_nil.mp hlead]; rfl⟩
  final frame hframe := absurd hframe List.not_mem_nil
  published hstatus := by cases hstatus
  settled count hcount := by cases hcount
  stands := ⟨rfl, torn_nil⟩

/-- Records laid end to end begin apart. -/
theorem eq_of_offset {frames : List (Frame Payload)} {start : ℕ} (hlaid : Laid Frame.offset (line wire) start frames)
    {one other : Frame Payload} (hone : one ∈ frames) (hother : other ∈ frames) (hoffset : one.offset = other.offset) :
    one = other := by
  induction frames generalizing start with
  | nil => cases hone
  | cons first frames ih =>
      have hlate : ∀ frame ∈ frames, first.offset < frame.offset := by
        intro frame hframe
        have hbound := (hlaid.2.bounds frame hframe).1
        have hlength : 0 < (line wire first).length := List.length_pos_iff.mpr (line_ne_nil first)
        have hfirst := hlaid.1
        omega
      rcases List.mem_cons.mp hone with rfl | hlater <;> rcases List.mem_cons.mp hother with hsame | hafter
      · exact hsame.symm
      · exact absurd hoffset (Nat.ne_of_lt (hlate other hafter))
      · exact absurd (hsame ▸ hoffset).symm (Nat.ne_of_lt (hlate one hlater))
      · exact ih hlaid.2 hlater hafter

/-- A capture is the one kept under its name, if any is. -/
def Site.Agrees (site : Site σ Payload) (file : Capture σ × Bytes) : Prop :=
  ∀ capture ∈ site.files, capture.1 = file.1 → capture.2 = file.2

/-- No pass is refused for its journal's offsets, and what it leaves out is kept; and the view over all the files collected, in whatever order they are
listed, has exactly the committed frames that lie in a range collected, each once, among them all those before the byte
up to which everything is collected. -/
def Site.Viewed [DecidableEq Payload] (wire : Wire Payload) (site : Site σ Payload) : Prop :=
  (∀ name pass, site.passes name = some pass → (∀ file ∈ pass.taken, site.Agrees file) ∧
    ∀ start size, pass.opened = some start → pass.size = some size →
      ∃ found, snapshot wire name (((site.journals name).opened start).take size) = some found ∧
        ∀ file ∈ found, site.Agrees file) ∧
  ∀ files : List (σ × Bytes), (∀ file, file ∈ files ↔ ∃ capture ∈ site.files, file = (capture.1.1, capture.2)) →
    ∃ rows, events wire files = some rows ∧ (rows.map (·.1)).Nodup ∧
      (∀ name offset frame, ((name, offset), frame) ∈ rows ↔ frame.offset = offset ∧ frame ∈ (site.journals name).committed ∧
        ∃ capture ∈ site.files, capture.1.1 = name ∧ capture.1.2.2.1 ≤ offset ∧ offset < capture.1.2.2.2) ∧
      ∀ name, ∀ frame ∈ (site.journals name).committed, frame.offset < site.reached name →
        ((name, frame.offset), frame) ∈ rows

omit [DecidableEq σ] in
theorem Site.Kept.agrees {site : Site σ Payload} (h : site.Kept wire) {name : σ} {file : Capture σ × Bytes}
    (hname : file.1.1 = name) (hpiece : Piece wire (site.journals name).committed file.1.2.2.1 file.1.2.2.2 file.2) :
    site.Agrees file := by
  intro capture hcapture hkey
  have hkept := h.pieces capture hcapture
  rw [hkey, hname] at hkept
  exact hkept.unique hpiece

theorem Site.Kept.viewed [DecidableEq Payload] (hlawful : wire.Lawful) {site : Site σ Payload} (h : site.Kept wire) :
    site.Viewed wire := by
  refine ⟨fun name pass hpass => ⟨fun file hfile => ?_, fun start size hopened hsize => ?_⟩, fun files hfiles => ?_⟩
  · obtain ⟨hname, hpiece⟩ := (h.fits name pass hpass).pieces (h.sound name) file hfile
    exact h.agrees hname hpiece
  · obtain ⟨found, hfound, hpieces, -⟩ := (h.fits name pass hpass).read hlawful (h.sound name) hopened hsize
    exact ⟨found, hfound, fun file hfile => h.agrees (hpieces file hfile).1 (hpieces file hfile).2⟩
  · have hpiece : ∀ file ∈ files, ∃ chunk, file.2 = stream wire chunk ∧
        ∀ frame ∈ chunk, frame ∈ (site.journals file.1).committed := by
      intro file hfile
      obtain ⟨capture, hcapture, rfl⟩ := (hfiles file).mp hfile
      obtain ⟨before, chunk, after, hcommitted, hbytes, -⟩ := h.pieces capture hcapture
      refine ⟨chunk, hbytes, fun frame hframe => ?_⟩
      rw [hcommitted]
      exact List.mem_append_left _ (List.mem_append_right _ hframe)
    have honce : ∀ name, ∀ frame ∈ (site.journals name).committed, ∀ other ∈ (site.journals name).committed,
        frame.offset = other.offset → frame = other :=
      fun name frame hframe other hother => eq_of_offset (h.sound name).laid hframe hother
    obtain ⟨rows, hrows, hnodup, hmem⟩ := events_spec hlawful hpiece honce
    have hexact : ∀ name offset frame, ((name, offset), frame) ∈ rows ↔ frame.offset = offset ∧
        frame ∈ (site.journals name).committed ∧
          ∃ capture ∈ site.files, capture.1.1 = name ∧ capture.1.2.2.1 ≤ offset ∧ offset < capture.1.2.2.2 := by
      intro name offset frame
      refine (hmem name offset frame).trans (and_congr_right fun hoffset => ?_)
      constructor
      · rintro ⟨file, hfile, rfl, chunk, hchunk, hframe⟩
        obtain ⟨capture, hcapture, rfl⟩ := (hfiles file).mp hfile
        have hpiece := h.pieces capture hcapture
        dsimp only at hchunk
        rw [hchunk] at hpiece
        obtain ⟨hcommitted, hwithin⟩ := (hpiece.mem_iff hlawful (h.sound _).laid).mp hframe
        exact ⟨hcommitted, capture, hcapture, rfl, hoffset ▸ hwithin⟩
      · rintro ⟨hcommitted, capture, hcapture, rfl, hwithin⟩
        obtain ⟨before, chunk, after, hsplit, hbytes, hrange⟩ := h.pieces capture hcapture
        refine ⟨_, (hfiles _).mpr ⟨capture, hcapture, rfl⟩, rfl, chunk, hbytes, ?_⟩
        have hpiece := h.pieces capture hcapture
        rw [hbytes] at hpiece
        exact (hpiece.mem_iff hlawful (h.sound _).laid).mpr ⟨hcommitted, hoffset.symm ▸ hwithin⟩
    refine ⟨rows, hrows, hnodup, hexact, fun name frame hframe hreached => ?_⟩
    obtain ⟨capture, hcapture, hname, hwithin⟩ := h.covers name frame.offset hreached
    exact (hexact name frame.offset frame).mpr ⟨rfl, hframe, capture, hcapture, hname, hwithin⟩

/-- In every run of journals and passes over them. -/
theorem journals_once [DecidableEq Payload] (hlawful : wire.Lawful) (rollBytes : ℕ) (labels : List (Happens σ Payload))
    (h : Each (Site.step wire rollBytes) (Site.Permitted wire) { journals := fun _ => {} } labels) :
    Always (Site.step wire rollBytes) (Site.Viewed wire) { journals := fun _ => {} } labels := by
  have hinit : Site.Kept wire ({ journals := fun _ => {} } : Site σ Payload) :=
    ⟨fun _ => sound_empty, fun _ _ hpass => (Option.some_ne_none _ hpass.symm).elim, fun _ hfile => absurd hfile List.not_mem_nil,
      fun _ _ hposition => absurd hposition (Nat.not_lt_zero _)⟩
  exact always_mono (fun site hkept => hkept.viewed hlawful)
    (invariant_always (fun site label hkept hpermitted => hkept.step hlawful rollBytes hpermitted) hinit h)

end Sites

/-- A journal rolled between a pass's listing and its look at the live file, and collected again. -/
def rolledMeanwhile : List (Happens ℕ Bool) :=
  [.journal 0 .reopen, .journal 0 (.append false), .journal 0 (.write 1), .journal 0 (.write 1), .list 0,
    .journal 0 .archive, .journal 0 .unlink, .journal 0 .reopenLive, .pass 0 .find, .pass 0 .measure, .pass 0 .read,
    .journal 0 (.append false), .journal 0 (.write 7), .list 0, .pass 0 .send, .pass 0 .find, .pass 0 .measure,
    .pass 0 .read]

theorem journals_once_rolled :
    Always (Site.step barWire 2) (Site.Viewed barWire) { journals := fun _ => {} } rolledMeanwhile ∧
      (run (Site.step barWire 2) { journals := fun _ => {} } (rolledMeanwhile.take 11)).reached 0 = 0 ∧
      (run (Site.step barWire 2) { journals := fun _ => {} } rolledMeanwhile).reached 0 = 6 := by
  refine ⟨journals_once barWire_lawful 2 rolledMeanwhile ?_, by decide +kernel, by decide +kernel⟩
  refine ⟨trivial, ⟨rfl, fun last hlast => absurd hlast.symm (Option.some_ne_none last)⟩, trivial, trivial, trivial, trivial,
    trivial, trivial, trivial, trivial, trivial, ⟨rfl, fun last hlast => ?_⟩, trivial, trivial, trivial, trivial, trivial,
    trivial, trivial⟩
  cases hlast
  rfl

end Mainboard.Observe
