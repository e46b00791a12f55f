import Mainboard.Registry
import Mainboard.Runs

/-! What a settle brings home from a run: its transcript, kept line by line under a file named after the
run's stream and handle, and the receipts it printed. Target and submission time are no part of the name,
so a run reads its own transcript back exactly when no captured run shares its file. -/

namespace Mainboard

/-- The `<batch>/<job>` inside a dispatch label, empty when the label names no batch. -/
def labelledBatch (label : String) : String :=
  if "batch:".toList <+: label.toList then String.ofList (label.toList.drop "batch:".length) else ""

/-- The stream and job a dispatched run belongs to. -/
def streamed (name handle : String) : String × String :=
  let inside := labelledBatch name
  if inside ≠ "" then
    let stream := String.ofList (inside.toList.takeWhile (· ≠ '/'))
    let job := String.ofList ((inside.toList.dropWhile (· ≠ '/')).drop 1)
    (stream, if job = "" then stream else job)
  else if name ≠ "" then (name, name)
  else ("run-" ++ handle, handle)

namespace RunRecord

def stream (run : RunRecord) : String := (streamed run.name run.handle).1

/-- The name the run's transcript is kept under. -/
def file (run : RunRecord) : String := run.stream ++ "/" ++ run.handle ++ ".log"

end RunRecord

/-- One kept line of a transcript, with the submission it was captured from. -/
structure LogLine where
  ts : Int
  batch : String
  file : String
  n : Nat
  line : String
  origin : Identity
  deriving DecidableEq, Repr

structure KeptReceipt where
  batch : String
  n : Nat
  line : String
  origin : Identity
  deriving DecidableEq, Repr

/-- One workspace's captured transcripts and receipts, in the order they were appended. -/
structure Captured where
  logLines : List LogLine
  receipts : List KeptReceipt
  deriving DecidableEq, Repr

/-- The output some kept lines spell. -/
def spelled (lines : List LogLine) : String := String.intercalate "\n" (lines.map (·.line))

namespace Captured

variable (receiptsIn : String → List String) (kept : Captured)

/-- The stamp of the newest capture kept under a file. -/
def newest (file : String) : Option Int := ((kept.logLines.filter (·.file = file)).map (·.ts)).max?

/-- The lines of the newest capture kept under a file, in order. -/
def lines (file : String) : List LogLine :=
  (kept.logLines.filter fun line => line.file = file ∧ kept.newest file = some line.ts).insertionSort
    fun left right => left.n ≤ right.n

/-- The newest captured output, `none` when none was captured. -/
def transcript (file : String) : Option String :=
  if kept.lines file = [] then none else some (spelled (kept.lines file))

/-- Every receipt line kept for a stream, in the order they were kept. -/
def keptReceipts (stream : String) : List String :=
  (kept.receipts.filter (·.batch = stream)).map (·.line)

/-- Keep each of the receipts the stream does not hold yet, in order. -/
def keepReceipts (run : RunRecord) (receipts : List String) : Captured :=
  let held := kept.keptReceipts run.stream
  let fresh := receipts.eraseDups.filter fun line => line ∉ held
  { kept with
    receipts := kept.receipts ++ (fresh.zipIdx (held.length + 1)).map fun (line, n) =>
      ⟨run.stream, n, line, run.identity⟩ }

/-- Keep the run's output, unless it already is the one kept. -/
def keepTranscript (run : RunRecord) (stamp : Int) (transcript : String) : Captured :=
  if kept.transcript run.file = some transcript then kept
  else
    { kept with
      logLines := kept.logLines ++ ((transcript.toList.splitOn '\n').zipIdx 1).map fun (line, n) =>
        ⟨stamp, run.stream, run.file, n, String.ofList line, run.identity⟩ }

/-- The receipts read back from the transcript an earlier pass kept. -/
def recovered (run : RunRecord) : List String := receiptsIn ((kept.transcript run.file).getD "")

/-- `Settlement.capture`: save the log the run's target answered, and answer its receipts; with no log to
save, the receipts of the log saved before. -/
def capture (run : RunRecord) (answered : Option String) (required : Bool) (stamp : Int) :
    Except String (Captured × List String) :=
  match answered.filter fun transcript => transcript ≠ "" with
  | some transcript =>
      let harvested := receiptsIn transcript
      .ok ((kept.keepTranscript run stamp transcript).keepReceipts run harvested, harvested)
  | none =>
      if required ∧ answered = none ∧ kept.transcript run.file = none
      then .error "the run's log could not be read; kept for the next pass"
      else .ok (kept, kept.recovered receiptsIn run)

variable {receiptsIn kept}

theorem mem_lines {line : LogLine} {file : String} :
    line ∈ kept.lines file ↔ line ∈ kept.logLines ∧ line.file = file ∧ kept.newest file = some line.ts := by
  simp [lines]

/-- A file some line is kept under has a newest capture. -/
theorem lines_ne_nil {line : LogLine} (h : line ∈ kept.logLines) : kept.lines line.file ≠ [] := by
  have hmem : line.ts ∈ (kept.logLines.filter (·.file = line.file)).map (·.ts) :=
    List.mem_map_of_mem (by simp [h])
  obtain ⟨stamp, hstamp⟩ := Option.ne_none_iff_exists'.mp
    (mt List.max?_eq_none_iff.mp (List.ne_nil_of_mem hmem))
  obtain ⟨newest, hnewest, rfl⟩ := List.mem_map.mp (List.max?_mem hstamp)
  obtain ⟨hkept, hfile⟩ := List.mem_filter.mp hnewest
  exact List.ne_nil_of_mem (mem_lines.mpr ⟨hkept, of_decide_eq_true hfile, hstamp⟩)

/-- The kept output is what the lines of the newest capture spell. -/
theorem transcript_getD (kept : Captured) (file : String) :
    (kept.transcript file).getD "" = spelled (kept.lines file) := by
  rw [transcript]
  split_ifs with hnil
  · rw [hnil]
    rfl
  · rfl

/-- A capture that found no log to save leaves what is kept alone and answers the saved receipts. -/
theorem capture_unread {run : RunRecord} {answered : Option String} {required : Bool} {stamp : Int}
    {after : Captured} {harvested : List String} (hunread : answered = none ∨ answered = some "")
    (h : kept.capture receiptsIn run answered required stamp = .ok (after, harvested)) :
    after = kept ∧ harvested = kept.recovered receiptsIn run := by
  have hfilter : (answered.filter fun transcript => transcript ≠ "") = none := by
    rcases hunread with rfl | rfl <;> rfl
  simp only [capture, hfilter] at h
  split_ifs at h
  cases h
  exact ⟨rfl, rfl⟩

theorem logLines_keepReceipts (run : RunRecord) (receipts : List String) :
    (kept.keepReceipts run receipts).logLines = kept.logLines := rfl

/-- A kept output adds lines of the run it was captured from, or is there already. -/
theorem mem_keepTranscript {run : RunRecord} {stamp : Int} {transcript : String} {line : LogLine}
    (h : line ∈ (kept.keepTranscript run stamp transcript).logLines) :
    line ∈ kept.logLines ∨ line.file = run.file ∧ line.origin = run.identity := by
  rw [keepTranscript] at h
  split_ifs at h
  · exact .inl h
  · rcases List.mem_append.mp h with hold | hnew
    · exact .inl hold
    · obtain ⟨⟨text, n⟩, -, rfl⟩ := List.mem_map.mp hnew
      exact .inr ⟨rfl, rfl⟩

theorem mem_keepTranscript_of_mem {run : RunRecord} {stamp : Int} {transcript : String} {line : LogLine}
    (h : line ∈ kept.logLines) : line ∈ (kept.keepTranscript run stamp transcript).logLines := by
  rw [keepTranscript]
  split_ifs
  · exact h
  · exact List.mem_append_left _ h

/-- Once its output is kept, some line is kept under the run's file. -/
theorem exists_mem_keepTranscript (kept : Captured) (run : RunRecord) (stamp : Int) (transcript : String) :
    ∃ line ∈ (kept.keepTranscript run stamp transcript).logLines, line.file = run.file := by
  rw [keepTranscript]
  split_ifs with hsame
  · have hlines : kept.lines run.file ≠ [] := by
      intro hnil
      rw [Captured.transcript, if_pos hnil] at hsame
      cases hsame
    obtain ⟨line, hline⟩ := List.exists_mem_of_ne_nil _ hlines
    obtain ⟨hmem, hfile, -⟩ := mem_lines.mp hline
    exact ⟨line, hmem, hfile⟩
  · obtain ⟨first, rest, hsplit⟩ := List.exists_cons_of_ne_nil (List.splitOn_ne_nil '\n' transcript.toList)
    refine ⟨⟨stamp, run.stream, run.file, 1, String.ofList first, run.identity⟩, ?_, rfl⟩
    simp [hsplit]

end Captured

/-- The dispatched runs, what the captures kept, and the runs output was captured from. -/
structure Capturing where
  runs : List RunRecord
  captured : Captured
  printed : List RunRecord

inductive CaptureStep
  | dispatch (run : RunRecord)
  | capture (run : RunRecord) (answered : Option String) (required : Bool) (stamp : Int)

namespace Capturing

variable (receiptsIn : String → List String)

/-- A run dispatched, or the log of a dispatched run captured; a capture that raises changes nothing. -/
def step (s : Capturing) : CaptureStep → Capturing
  | .dispatch run => { s with runs := run :: s.runs }
  | .capture run answered required stamp =>
      if run ∈ s.runs then
        match s.captured.capture receiptsIn run answered required stamp with
        | .ok (captured, _) =>
            { s with
              captured
              printed := if answered.getD "" = "" then s.printed else run :: s.printed }
        | .error _ => s
      else s

/-- No run dispatched, nothing captured. -/
def start : Capturing := ⟨[], ⟨[], []⟩, []⟩

/-- The transcript read back for a run, and the receipts read back with it, were captured from that very
submission. -/
structure ReadsOwn (s : Capturing) (run : RunRecord) : Prop where
  transcript : ∀ line ∈ s.captured.lines run.file, line.origin = run.identity
  receipts : ∃ own : List LogLine, (∀ line ∈ own, line ∈ s.captured.logLines ∧ line.origin = run.identity) ∧
    s.captured.recovered receiptsIn run = receiptsIn (spelled own)

/-- No run shares the file of another that output was captured from. -/
def Apart (s : Capturing) : Prop :=
  ∀ printed ∈ s.printed, ∀ run ∈ s.runs, run.file = printed.file → run.identity = printed.identity

/-- The kept lines are filed under the runs they were captured from. -/
structure Filed (s : Capturing) : Prop where
  origin : ∀ line ∈ s.captured.logLines, ∃ run ∈ s.printed, run.file = line.file ∧ line.origin = run.identity
  kept : ∀ run ∈ s.printed, ∃ line ∈ s.captured.logLines, line.file = run.file
  dispatched : ∀ run ∈ s.printed, run ∈ s.runs

variable {receiptsIn} {s : Capturing}

/-- A captured output is filed under its run. -/
theorem Filed.keep (h : Filed s) {run : RunRecord} (hrun : run ∈ s.runs) (stamp : Int) (transcript : String)
    (receipts : List String) :
    Filed { s with
      captured := (s.captured.keepTranscript run stamp transcript).keepReceipts run receipts
      printed := run :: s.printed } where
  origin line hline := by
    rw [Captured.logLines_keepReceipts] at hline
    rcases Captured.mem_keepTranscript hline with hold | ⟨hfile, horigin⟩
    · obtain ⟨printed, hprinted, hsame⟩ := h.origin line hold
      exact ⟨printed, List.mem_cons_of_mem _ hprinted, hsame⟩
    · exact ⟨run, List.mem_cons_self, hfile.symm, horigin⟩
  kept printed hprinted := by
    rcases List.mem_cons.mp hprinted with rfl | hold
    · exact s.captured.exists_mem_keepTranscript printed stamp transcript
    · obtain ⟨line, hline, hfile⟩ := h.kept printed hold
      exact ⟨line, Captured.mem_keepTranscript_of_mem hline, hfile⟩
  dispatched printed hprinted := by
    rcases List.mem_cons.mp hprinted with rfl | hold
    · exact hrun
    · exact h.dispatched printed hold

theorem filed_step (s : Capturing) (label : CaptureStep) (h : Filed s) : Filed (s.step receiptsIn label) := by
  cases label with
  | dispatch run =>
      exact ⟨h.origin, h.kept, fun printed hprinted => List.mem_cons_of_mem _ (h.dispatched printed hprinted)⟩
  | capture run answered required stamp =>
      simp only [step]
      split_ifs with hrun hempty
      · -- nothing to save: what is kept stays
        split
        next captured harvested hcapture =>
            have hunread : answered = none ∨ answered = some "" := by
              cases answered with
              | none => exact .inl rfl
              | some transcript => exact .inr (congrArg some hempty)
            obtain ⟨rfl, -⟩ := Captured.capture_unread hunread hcapture
            exact h
        next => exact h
      · cases answered with
        | none => exact absurd rfl hempty
        | some transcript =>
            have hread : (some transcript).filter (fun transcript => transcript ≠ "") = some transcript := by
              simpa using hempty
            simp only [Captured.capture, hread]
            exact h.keep hrun stamp transcript _
      · exact h

theorem filed_start : Filed start where
  origin _ hline := absurd hline List.not_mem_nil
  kept _ hrun := absurd hrun List.not_mem_nil
  dispatched _ hrun := absurd hrun List.not_mem_nil

/-- Filed lines are read back by their own submission exactly when no run shares a captured run's file. -/
theorem readsOwn_iff_apart (h : Filed s) : (∀ run ∈ s.runs, ReadsOwn receiptsIn s run) ↔ s.Apart := by
  constructor
  · intro hreads printed hprinted run hrun hfile
    -- one line is read back for both
    obtain ⟨line, hline, hlineFile⟩ := h.kept printed hprinted
    obtain ⟨read, hread⟩ := List.exists_mem_of_ne_nil _ (Captured.lines_ne_nil hline)
    rw [hlineFile] at hread
    have hown := (hreads printed (h.dispatched printed hprinted)).transcript read hread
    exact ((hreads run hrun).transcript read (hfile ▸ hread)).symm.trans hown
  · intro hapart run hrun
    have htranscript : ∀ line ∈ s.captured.lines run.file, line.origin = run.identity := by
      intro line hline
      obtain ⟨hmem, hfile, -⟩ := Captured.mem_lines.mp hline
      obtain ⟨printed, hprinted, hprintedFile, horigin⟩ := h.origin line hmem
      rw [horigin]
      exact (hapart printed hprinted run hrun (hfile.symm.trans hprintedFile.symm)).symm
    refine ⟨htranscript, s.captured.lines run.file, fun line hline => ?_, ?_⟩
    · exact ⟨(Captured.mem_lines.mp hline).1, htranscript line hline⟩
    · rw [Captured.recovered, Captured.transcript_getD]

/-- After any dispatches and captures, every run reads back only what was captured from it if and only if
no two runs, of one of which output was captured, share the file a transcript is kept under. -/
theorem captured_own_iff (receiptsIn : String → List String) (labels : List CaptureStep) :
    (∀ run ∈ (Runs.run (step receiptsIn) start labels).runs,
        ReadsOwn receiptsIn (Runs.run (step receiptsIn) start labels) run) ↔
      (Runs.run (step receiptsIn) start labels).Apart :=
  readsOwn_iff_apart (Runs.invariant_reached filed_step filed_start labels)

section Shared

private def onFirst : RunRecord where
  handle := "1"
  target := "first"
  name := "batch:wave/a"
  submittedAt := 1

private def onSecond : RunRecord where
  handle := "1"
  target := "second"
  name := "batch:wave/b"
  submittedAt := 2

/-- Two hosts each gave one of a batch's jobs their handle 1: the second reads back the first's log. -/
theorem captured_own_fails_shared :
    ¬ ∀ (receiptsIn : String → List String) (labels : List CaptureStep),
      ∀ run ∈ (Runs.run (step receiptsIn) start labels).runs,
        ReadsOwn receiptsIn (Runs.run (step receiptsIn) start labels) run := by
  intro h
  let labels : List CaptureStep :=
    [.dispatch onFirst, .dispatch onSecond, .capture onFirst (some "loss 0.1") true 3]
  have hreads := h (fun _ => []) labels onSecond (by decide)
  have horigin := hreads.transcript ⟨3, "wave", "wave/1.log", 1, "loss 0.1", onFirst.identity⟩
    (by decide +kernel)
  revert horigin
  decide

end Shared

end Capturing

end Mainboard
