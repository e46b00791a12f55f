import Mainboard.TelemetrySpool

/-! Nothing spooled is lost on its way to the sink. Every file is the lines of events with less than a line behind
them, so no reading of one is refused; an offset is where some of its events end, all of them accepted. What a file
holds behind the offset the next reading goes by is what is still to be sent. -/

namespace Mainboard.Telemetry

open LineText Events
open Analysis (Bytes)

variable {ι ε : Type} (wire : Wire ι ε)

/-! ### The lines of events -/

/-- The lines of events, each with its ending. -/
def lines (events : List ε) : Bytes := events.flatMap fun event => wire.line event ++ [10]

section Lines

variable {wire} {before mid : List ε} {tail : Bytes}

theorem lines_append (before mid : List ε) : lines wire (before ++ mid) = lines wire before ++ lines wire mid :=
  List.flatMap_append

theorem lines_concat (before : List ε) (event : ε) :
    lines wire (before ++ [event]) = lines wire before ++ (wire.line event ++ [10]) := by
  rw [lines_append]
  simp [lines]

theorem closed_lines (events : List ε) : Closed 10 (lines wire events) := by
  induction events using List.reverseRecOn with
  | nil => exact Or.inl rfl
  | append_singleton events event _ =>
      exact Or.inr ⟨lines wire events ++ wire.line event, by rw [lines_concat, List.append_assoc]⟩

theorem completeLines_lines (events : List ε) (htail : 10 ∉ tail) :
    completeLines 10 (lines wire events ++ tail) = events.map wire.line := by
  induction events with
  | nil => exact completeLines_torn htail
  | cons event events ih =>
      have hsplit : lines wire (event :: events) ++ tail = wire.line event ++ 10 :: (lines wire events ++ tail) := by
        simp [lines]
      rw [hsplit, completeLines_append_sep, ih, List.splitOn_eq_singleton (wire.plain event)]
      rfl

theorem ended_lines (events : List ε) (htail : 10 ∉ tail) :
    ended 10 (lines wire events ++ tail) = (lines wire events).length := by
  rw [ended_append (closed_lines events), ended_of_not_mem htail, Nat.add_zero]

theorem parsedFrom_lines (position : ℕ) (events : List ε) (h : ∀ event ∈ events, wire.Reads event) :
    parsedFrom wire.parse position (events.map wire.line) = .ok ⟨events, position + (lines wire events).length⟩ := by
  induction events generalizing position with
  | nil => rfl
  | cons event events ih =>
      have hlength : position + (wire.line event).length + 1 + (lines wire events).length =
          position + (lines wire (event :: events)).length := by
        simp [lines]
        omega
      obtain ⟨hevent, hevents⟩ := List.forall_mem_cons.mp h
      rw [List.map_cons, parsedFrom, ih _ hevents]
      simp only [show wire.parse (wire.line event) = some event from hevent, hlength]
      rfl

/-- A file read from where some of its events end gives the others. -/
theorem read_lines (before mid : List ε) (htail : 10 ∉ tail) (h : ∀ event ∈ mid, wire.Reads event) :
    read wire.parse (lines wire (before ++ mid) ++ tail) (lines wire before).length =
      .ok ⟨mid, (lines wire (before ++ mid)).length⟩ := by
  have hblank : ¬ Blank 10 (lines wire mid ++ tail) := by
    rintro ⟨hhead, -⟩
    cases mid with
    | nil =>
        rw [lines, List.flatMap_nil, List.nil_append] at hhead
        exact htail (List.mem_of_mem_head? hhead)
    | cons event mid =>
        obtain ⟨first, rest, hline⟩ := List.exists_cons_of_ne_nil (wire.said event)
        have hfirst : first = 10 := by simpa [lines, hline] using hhead
        exact wire.plain event (hline ▸ hfirst ▸ List.mem_cons_self)
  have hdrop : (lines wire (before ++ mid) ++ tail).drop (lines wire before).length = lines wire mid ++ tail := by
    rw [lines_append, List.append_assoc, List.drop_left]
  rw [Events.read, hdrop, (linesOf_eq hblank).1, completeLines_lines mid htail, parsedFrom_lines _ _ h, lines_append,
    List.length_append]

/-- A text begins with the lines of events that read back. -/
def Leads (wire : Wire ι ε) (before : List ε) (text : Bytes) : Prop :=
  (∀ event ∈ before, wire.Reads event) ∧ lines wire before <+: text

theorem Leads.trans {text later : Bytes} (h : Leads wire before text) (hlater : text <+: later) :
    Leads wire before later := ⟨h.1, h.2.trans hlater⟩

theorem leads_nil (text : Bytes) : Leads wire [] text := ⟨fun _ h => (List.not_mem_nil h).elim, List.nil_prefix⟩

/-- Events whose lines begin a file are its first events. -/
theorem prefix_of_lines (htail : 10 ∉ tail) (hreads : ∀ event ∈ mid, wire.Reads event)
    (h : Leads wire before (lines wire mid ++ tail)) : before <+: mid := by
  obtain ⟨hbefores, rest, hrest⟩ := h
  have hlines : before.map wire.line ++ completeLines 10 rest = mid.map wire.line := by
    rw [← completeLines_lines mid htail, ← hrest, completeLines_append (closed_lines before)]
    have hbefore : completeLines 10 (lines wire before ++ []) = before.map wire.line :=
      completeLines_lines before List.not_mem_nil
    rw [List.append_nil] at hbefore
    rw [hbefore]
  have hread : ∀ events : List ε, (∀ event ∈ events, wire.Reads event) →
      (events.map wire.line).filterMap wire.parse = events := fun events hevents => by
    rw [List.filterMap_map]
    exact (List.filterMap_congr fun event hevent => hevents event hevent).trans List.filterMap_some
  refine ⟨(completeLines 10 rest).filterMap wire.parse, ?_⟩
  rw [← hread mid hreads, ← hlines, List.filterMap_append, hread before hbefores]

end Lines

/-! ### Where an event is -/

/-- The sink accepted an event of its id. -/
def Accepted (s : Spool ε) (event : ε) : Prop := wire.id event ∈ s.accepted.map wire.id

/-- An offset of a path where some events of its file end, each as `P` has it. -/
def Upto (s : Spool ε) (name : String) (offset : ℕ) (P : ε → Prop) : Prop :=
  ∃ file before, s.named name = some file ∧ Leads wire before (s.text file) ∧ offset = (lines wire before).length ∧
    ∀ event ∈ before, P event

/-- What stands before an offset was accepted; a path without a file has none. -/
def Delivered (s : Spool ε) (name : String) (offset : ℕ) : Prop :=
  s.named name = none ∧ offset = 0 ∨ Upto wire s name offset (Accepted wire s)

/-- An event's line is among the lines of a file of the spool. -/
def Waits (s : Spool ε) (event : ε) : Prop :=
  ∃ name file before, s.named name = some file ∧ event ∈ before ∧ Leads wire before (s.text file)

/-- A step that keeps every path, the lines at it and what was accepted. -/
structure Grows (s s' : Spool ε) : Prop where
  named : ∀ name file, s.named name = some file → s'.named name = some file
  text : ∀ name file before, s.named name = some file → Leads wire before (s.text file) →
    Leads wire before (s'.text file)
  accepted : ∀ event, Accepted wire s event → Accepted wire s' event

section Growing

variable {wire} {s s' : Spool ε} {name : String} {offset : ℕ} {event : ε} {P Q : ε → Prop}

theorem Upto.grows (h : Upto wire s name offset P) (hgrows : Grows wire s s') (hPQ : ∀ event, P event → Q event) :
    Upto wire s' name offset Q := by
  obtain ⟨file, before, hnamed, hlines, hoffset, hP⟩ := h
  exact ⟨file, before, hgrows.named _ _ hnamed, hgrows.text _ _ _ hnamed hlines, hoffset, fun event hevent =>
    hPQ event (hP event hevent)⟩

theorem delivered_zero (s : Spool ε) (name : String) : Delivered wire s name 0 := by
  cases hnamed : s.named name with
  | none => exact Or.inl ⟨hnamed, rfl⟩
  | some file => exact Or.inr ⟨file, [], hnamed, leads_nil _, rfl, fun _ h => (List.not_mem_nil h).elim⟩

theorem Delivered.grows (h : Delivered wire s name offset) (hgrows : Grows wire s s') :
    Delivered wire s' name offset := by
  rcases h with ⟨-, rfl⟩ | h
  · exact delivered_zero s' name
  · exact Or.inr (h.grows hgrows hgrows.accepted)

theorem Waits.grows (h : Waits wire s event) (hgrows : Grows wire s s') : Waits wire s' event := by
  obtain ⟨name, file, before, hnamed, hevent, hlines⟩ := h
  exact ⟨name, file, before, hgrows.named _ _ hnamed, hevent, hgrows.text _ _ _ hnamed hlines⟩

end Growing

/-! ### What every clear step keeps -/

/-- What a writer knows of its file. -/
def Stands (s : Spool ε) : Writer ε → Prop
  | .idle => True
  | .opened _ file => file < s.next
  | .locked _ file => file < s.next
  | .cutting file length => length = ended 10 (s.text file) ∧ ∃ name, s.named name = some file
  | .ready file => (∃ events, s.text file = lines wire events ∧ ∀ event ∈ events, wire.Reads event) ∧
      ∃ name, s.named name = some file
  | .writing file event pending =>
      (∃ events written, s.text file = lines wire events ++ written ∧ written ++ pending = wire.line event ++ [10] ∧
        pending ≠ [] ∧ ∀ other ∈ events ++ [event], wire.Reads other) ∧ ∃ name, s.named name = some file

/-- The files of a spool and its writers. -/
structure Files (s : Spool ε) : Prop where
  plain : ∀ file, ∃ events tail, s.text file = lines wire events ++ tail ∧ 10 ∉ tail ∧
    ∀ event ∈ events, wire.Reads event
  apart : ∀ one other file, s.named one = some file → s.named other = some file → one = other
  below : ∀ name file, s.named name = some file → file < s.next
  alone : ∀ one other file, (s.writers one).lock = some file → (s.writers other).lock = some file → one = other
  stands : ∀ writer, Stands wire s (s.writers writer)

/-- The paths a pass has yet to deal with. -/
def Pass.paths : Pass ε → List String
  | idle | keeping _ => []
  | reading names batches _ => names ++ batches.map Batch.name
  | sending batches _ => batches.map Batch.name
  | retiring name batches _ | unlinking name _ batches _ => name :: batches.map Batch.name

/-- The deliveries of a spool. -/
structure Deliveries (s : Spool ε) : Prop where
  hand : ∀ offsets, s.pass.offsets = some offsets → ∀ name, Delivered wire s name (offsets name)
  ledger : ∀ name, (∀ offsets, s.pass.offsets = some offsets → s.ledger name ≤ offsets name) →
    Delivered wire s name (s.ledger name)
  batches : ∀ batch ∈ s.pass.batches,
    Upto wire s batch.name batch.offset fun event => Accepted wire s event ∨ event ∈ batch.events
  paths : s.pass.paths.Nodup
  /-- What the pass has yet to deal with stands as the ledger has it. -/
  due : ∀ name ∈ s.pass.paths, Delivered wire s name (s.ledger name)
  retired : ∀ name file batches offsets, s.pass = .unlinking name file batches offsets →
    s.named name = some file ∧ (∀ writer, (s.writers writer).lock ≠ some file) ∧ offsets name = (s.text file).length
  spooled : ∀ event ∈ s.spooled, Accepted wire s event ∨ Waits wire s event
  aside : ∀ name, s.aside name = none

section Steps

variable {wire} {s s' : Spool ε}

/-- A file cut to its complete lines is the lines of events. -/
theorem Files.cut_ended (h : Files wire s) (file : ℕ) :
    ∃ events, cut 0 (ended 10 (s.text file)) (s.text file) = lines wire events ∧
      (∀ event ∈ events, wire.Reads event) ∧
      ∀ before, Leads wire before (s.text file) → Leads wire before (lines wire events) := by
  obtain ⟨events, tail, htext, htail, hreads⟩ := h.plain file
  have hcut : cut 0 (ended 10 (s.text file)) (s.text file) = lines wire events := by
    have hle : ended 10 (s.text file) - (s.text file).length = 0 := Nat.sub_eq_zero_of_le ended_le
    rw [cut, hle, List.replicate_zero, List.append_nil, htext, ended_lines events htail, List.take_left]
  refine ⟨events, hcut, hreads, fun before hlines => ⟨hlines.1, ?_⟩⟩
  obtain ⟨more, rfl⟩ := prefix_of_lines htail hreads (htext ▸ hlines)
  rw [lines_append]
  exact List.prefix_append _ _

/-- A file is read from where its offset stands, and what was not accepted of it is on the page. -/
theorem Delivered.page (h : Files wire s) {name : String} {offset file : ℕ}
    (hdelivered : Delivered wire s name offset) (hnamed : s.named name = some file) :
    ∃ page, read wire.parse (s.text file) offset = .ok page ∧
      (Upto wire s name page.offset fun event => Accepted wire s event ∨ event ∈ page.events) ∧
      ∀ found, Leads wire found (s.text file) → ∀ event ∈ found, Accepted wire s event ∨ event ∈ page.events := by
  obtain ⟨file', before, hnamed', hlines, hoffset, haccepted⟩ := hdelivered.resolve_left fun hnone =>
    Option.some_ne_none _ (hnamed.symm.trans hnone.1)
  obtain rfl : file = file' := Option.some.inj (hnamed.symm.trans hnamed')
  obtain ⟨events, tail, htext, htail, hreads⟩ := h.plain file
  obtain ⟨mid, rfl⟩ := prefix_of_lines htail hreads (htext ▸ hlines)
  have hwithin : ∀ event ∈ before ++ mid, Accepted wire s event ∨ event ∈ mid := fun event hevent =>
    (List.mem_append.mp hevent).imp_left (haccepted event)
  refine ⟨⟨mid, (lines wire (before ++ mid)).length⟩, ?_, ?_, ?_⟩
  · rw [htext, hoffset, read_lines before mid htail fun event hevent => hreads event (List.mem_append_right _ hevent)]
  · exact ⟨file, before ++ mid, hnamed, ⟨hreads, htext ▸ List.prefix_append _ _⟩, rfl, hwithin⟩
  · exact fun found hfound event hevent =>
      hwithin event ((prefix_of_lines htail hreads (htext ▸ hfound)).subset hevent)

/-! ### Writers -/

theorem grows_turn (s : Spool ε) (writer : ℕ) (stage : Writer ε) : Grows wire s (s.turn writer stage) :=
  ⟨fun _ _ h => h, fun _ _ _ _ h => h, fun _ h => h⟩

theorem grows_put {file : ℕ} {text : Bytes}
    (htext : ∀ before, Leads wire before (s.text file) → Leads wire before text) :
    Grows wire s (s.put file text) := by
  refine ⟨fun _ _ h => h, fun name other before _ hlines => ?_, fun _ h => h⟩
  by_cases hfile : other = file
  · subst hfile
    show Leads wire before (Function.update s.text other text other)
    rw [Function.update_self]
    exact htext before hlines
  · show Leads wire before (Function.update s.text file text other)
    rwa [Function.update_of_ne hfile]

/-- One writer's stage changed. -/
theorem Files.turn (h : Files wire s) (writer : ℕ) {stage : Writer ε} (hstands : Stands wire s stage)
    (halone : ∀ other file, stage.lock = some file → (s.writers other).lock = some file → other = writer) :
    Files wire (s.turn writer stage) where
  plain := h.plain
  apart := h.apart
  below := h.below
  alone one other file hone hother := by
    simp only [Spool.turn, Function.update_apply] at hone hother
    split at hone <;> split at hother
    · rename_i h₁ h₂
      exact h₁.trans h₂.symm
    · rename_i h₁ _
      exact h₁.trans (halone other file hone hother).symm
    · rename_i _ h₂
      exact (halone one file hother hone).trans h₂.symm
    · exact h.alone one other file hone hother
  stands other := by
    show Stands wire s _
    simp only [Spool.turn, Function.update_apply]
    split
    · exact hstands
    · exact h.stands other

/-- A writer that holds a file's lock changed the file. -/
theorem Files.work (h : Files wire s) (writer : ℕ) {stage : Writer ε} {file : ℕ} {text : Bytes}
    (hlock : (s.writers writer).lock = some file) (hstage : stage.lock = some file)
    (hplain : ∃ events tail, text = lines wire events ++ tail ∧ 10 ∉ tail ∧ ∀ event ∈ events, wire.Reads event)
    (hstands : Stands wire (s.put file text) stage) : Files wire ((s.put file text).turn writer stage) where
  plain other := by
    by_cases hfile : other = file
    · subst hfile
      simpa only [Spool.turn, Spool.put, Function.update_self] using hplain
    · simpa only [Spool.turn, Spool.put, Function.update_of_ne hfile] using h.plain other
  apart := h.apart
  below := h.below
  alone one other place hone hother := by
    simp only [Spool.turn, Spool.put, Function.update_apply] at hone hother
    split at hone <;> split at hother
    · rename_i h₁ h₂
      exact h₁.trans h₂.symm
    · rename_i h₁ _
      obtain rfl : file = place := Option.some.inj (hstage.symm.trans hone)
      exact h₁.trans (h.alone writer other file hlock hother)
    · rename_i _ h₂
      obtain rfl : file = place := Option.some.inj (hstage.symm.trans hother)
      exact (h.alone one writer file hone hlock).trans h₂.symm
    · exact h.alone one other place hone hother
  stands other := by
    show Stands wire (s.put file text) _
    simp only [Spool.turn, Function.update_apply]
    split
    · exact hstands
    · rename_i hother
      have hstands := h.stands other
      have hapart : (s.writers other).lock ≠ some file := fun hheld => hother (h.alone other writer file hheld hlock)
      show Stands wire (s.put file text) (s.writers other)
      revert hstands hapart
      cases s.writers other with
      | idle => exact fun h _ => h
      | opened name place => exact fun h _ => h
      | locked name place => exact fun h _ => h
      | cutting place length =>
          intro hstands hapart
          have hplace : place ≠ file := fun hsame => hapart (congrArg some hsame)
          simpa only [Stands, Spool.put, Function.update_of_ne hplace] using hstands
      | ready place =>
          intro hstands hapart
          have hplace : place ≠ file := fun hsame => hapart (congrArg some hsame)
          simpa only [Stands, Spool.put, Function.update_of_ne hplace] using hstands
      | writing place event pending =>
          intro hstands hapart
          have hplace : place ≠ file := fun hsame => hapart (congrArg some hsame)
          simpa only [Stands, Spool.put, Function.update_of_ne hplace] using hstands

/-- A path opened where it named no file. -/
theorem Files.made (h : Files wire s) (writer : ℕ) {name : String} (hnamed : s.named name = none) :
    Files wire { s.turn writer (.opened name s.next) with
      named := Function.update s.named name (some s.next)
      text := Function.update s.text s.next []
      next := s.next + 1 } where
  plain file := by
    by_cases hfile : file = s.next
    · exact ⟨[], [], by simp [hfile, lines], List.not_mem_nil, fun _ h => (List.not_mem_nil h).elim⟩
    · simpa only [Function.update_of_ne hfile] using h.plain file
  apart one other file hone hother := by
    simp only [Function.update_apply] at hone hother
    split at hone <;> split at hother
    · rename_i h₁ h₂
      exact h₁.trans h₂.symm
    · cases hone
      exact absurd (h.below other _ hother) (lt_irrefl _)
    · cases hother
      exact absurd (h.below one _ hone) (lt_irrefl _)
    · exact h.apart one other file hone hother
  below other file hother := by
    simp only [Function.update_apply] at hother
    split at hother
    · cases hother
      exact Nat.lt_succ_self _
    · exact (h.below other file hother).trans (Nat.lt_succ_self _)
  alone one other file hone hother := by
    simp only [Spool.turn, Function.update_apply] at hone hother
    split at hone
    · cases hone
    · split at hother
      · cases hother
      · exact h.alone one other file hone hother
  stands other := by
    have hkept : ∀ file, (∃ path, s.named path = some file) →
        Function.update s.text s.next [] file = s.text file ∧
          ∃ path, Function.update s.named name (some s.next) path = some file := by
      rintro file ⟨path, hpath⟩
      have hpath' : path ≠ name := by
        rintro rfl
        cases hnamed.symm.trans hpath
      refine ⟨Function.update_of_ne (h.below path file hpath).ne _ _, path, ?_⟩
      rw [Function.update_of_ne hpath', hpath]
    simp only [Spool.turn, Function.update_apply]
    split
    · exact Nat.lt_succ_self _
    · have hstands := h.stands other
      revert hstands
      cases s.writers other with
      | idle => exact fun h => h
      | opened _ file => exact fun h => Nat.lt_succ_of_lt h
      | locked _ file => exact fun h => Nat.lt_succ_of_lt h
      | cutting file length =>
          rintro ⟨hlength, hfile⟩
          exact ⟨by rw [hlength]; exact congrArg _ (hkept file hfile).1.symm, (hkept file hfile).2⟩
      | ready file =>
          rintro ⟨⟨events, htext, hreads⟩, hfile⟩
          exact ⟨⟨events, (hkept file hfile).1.trans htext, hreads⟩, (hkept file hfile).2⟩
      | writing file event pending =>
          rintro ⟨⟨events, written, htext, hrest⟩, hfile⟩
          exact ⟨⟨events, written, (hkept file hfile).1.trans htext, hrest⟩, (hkept file hfile).2⟩

/-- A step of a writer's, as the pass sees it. -/
theorem Deliveries.writer (h : Deliveries wire s) (hgrows : Grows wire s s') (hpass : s'.pass = s.pass)
    (hledger : s'.ledger = s.ledger) (haside : s'.aside = s.aside)
    (hspooled : ∀ event ∈ s'.spooled, event ∈ s.spooled ∨ Waits wire s' event)
    (hlock : ∀ writer file, (s'.writers writer).lock = some file →
      (∃ other, (s.writers other).lock = some file) ∨ s.Free file)
    (hclear : Clear wire s s') : Deliveries wire s' where
  hand offsets hoffsets name := (h.hand offsets (hpass ▸ hoffsets) name).grows hgrows
  ledger name hle := by
    rw [hledger] at hle ⊢
    exact (h.ledger name fun offsets hoffsets => hle offsets (hpass ▸ hoffsets)).grows hgrows
  batches batch hbatch := (h.batches batch (hpass ▸ hbatch)).grows hgrows fun event =>
    Or.imp_left (hgrows.accepted event)
  paths := hpass ▸ h.paths
  due name hname := by
    rw [hledger]
    exact (h.due name (hpass ▸ hname)).grows hgrows
  retired name file batches offsets hretired := by
    obtain ⟨hnamed, hfree, -⟩ := h.retired name file batches offsets (hpass ▸ hretired)
    refine ⟨hgrows.named name file hnamed, fun writer hheld => ?_, hclear.whole name file batches offsets hretired⟩
    rcases hlock writer file hheld with ⟨other, hother⟩ | hfree'
    · exact hfree other hother
    · exact hfree'.2 name batches offsets (hpass ▸ hretired)
  spooled event hevent := by
    rcases hspooled event hevent with hold | hnew
    · exact (h.spooled event hold).imp (hgrows.accepted event) fun hwaits => hwaits.grows hgrows
    · exact Or.inr hnew
  aside name := by
    rw [haside]
    exact h.aside name

theorem grows_made (h : Files wire s) (writer : ℕ) {name : String} (hnamed : s.named name = none) :
    Grows wire s { s.turn writer (.opened name s.next) with
      named := Function.update s.named name (some s.next)
      text := Function.update s.text s.next []
      next := s.next + 1 } := by
  refine ⟨fun path file hpath => ?_, fun path file before hpath hlines => ?_, fun _ h => h⟩
  · have hne : path ≠ name := by
      rintro rfl
      cases hnamed.symm.trans hpath
    exact (Function.update_of_ne hne _ _).trans hpath
  · show Leads wire before (Function.update s.text s.next [] file)
    rwa [Function.update_of_ne (h.below path file hpath).ne]

/-! ### The pass -/

/-- A step of a pass's that leaves the spool's files. -/
theorem Files.pass (h : Files wire s) {aside : String → Option ℕ} {pass : Pass ε} {ledger : String → ℕ}
    {accepted spooled : List ε} : Files wire
      { s with aside := aside, pass := pass, ledger := ledger, accepted := accepted, spooled := spooled } :=
  ⟨h.plain, h.apart, h.below, h.alone, h.stands⟩

theorem grows_accepted {pass : Pass ε} {accepted : List ε}
    (haccepted : ∀ event, Accepted wire s event → wire.id event ∈ accepted.map wire.id) :
    Grows wire s { s with accepted := accepted, pass := pass } := ⟨fun _ _ h => h, fun _ _ _ _ h => h, haccepted⟩

theorem grows_pass {pass : Pass ε} {ledger : String → ℕ} : Grows wire s { s with pass := pass, ledger := ledger } :=
  ⟨fun _ _ h => h, fun _ _ _ _ h => h, fun _ h => h⟩

/-- A path that no longer names its file, which no writer holds. -/
theorem Files.unlinked (h : Files wire s) {name : String} {file : ℕ} {pass : Pass ε}
    (hnamed : s.named name = some file) (hfree : ∀ writer, (s.writers writer).lock ≠ some file) :
    Files wire { s with named := Function.update s.named name none, pass := pass } := by
  have hback : ∀ path place, Function.update s.named name none path = some place → s.named path = some place :=
    fun path place hpath => by
      rw [Function.update_apply] at hpath
      split at hpath
      · cases hpath
      · exact hpath
  have hkept : ∀ place, place ≠ file → (∃ path, s.named path = some place) →
      ∃ path, Function.update s.named name none path = some place := by
    rintro place hplace ⟨path, hpath⟩
    have hne : path ≠ name := by
      rintro rfl
      exact hplace (Option.some.inj (hpath.symm.trans hnamed))
    exact ⟨path, (Function.update_of_ne hne _ _).trans hpath⟩
  refine ⟨h.plain, fun one other place hone hother => h.apart one other place (hback _ _ hone) (hback _ _ hother),
    fun path place hpath => h.below path place (hback _ _ hpath), h.alone, fun writer => ?_⟩
  have hstands := h.stands writer
  have hapart := hfree writer
  show Stands wire { s with named := Function.update s.named name none, pass := pass } (s.writers writer)
  revert hstands hapart
  cases s.writers writer with
  | idle => exact fun h _ => h
  | opened _ place => exact fun h _ => h
  | locked _ place => exact fun h _ => h
  | cutting place length =>
      exact fun hstands hapart => ⟨hstands.1, hkept place (fun h => hapart (congrArg some h)) hstands.2⟩
  | ready place =>
      exact fun hstands hapart => ⟨hstands.1, hkept place (fun h => hapart (congrArg some h)) hstands.2⟩
  | writing place event pending =>
      exact fun hstands hapart => ⟨hstands.1, hkept place (fun h => hapart (congrArg some h)) hstands.2⟩

section Unlinking

variable {name other : String} {offset : ℕ} {P : ε → Prop} {pass : Pass ε}

theorem Upto.unlinked (h : Upto wire s other offset P) (hne : other ≠ name) :
    Upto wire { s with named := Function.update s.named name none, pass := pass } other offset P := by
  obtain ⟨file, before, hnamed, hrest⟩ := h
  exact ⟨file, before, (Function.update_of_ne hne _ _).trans hnamed, hrest⟩

theorem Delivered.unlinked (h : Delivered wire s other offset) (hne : other ≠ name) :
    Delivered wire { s with named := Function.update s.named name none, pass := pass } other offset :=
  h.imp (And.imp_left fun hnamed => (Function.update_of_ne hne _ _).trans hnamed) fun hupto => hupto.unlinked hne

/-- Nothing waits in a file delivered whole. -/
theorem Deliveries.whole (h : Deliveries wire s) {file : ℕ} {batches : List (Batch ε)}
    {offsets : String → ℕ} (hpass : s.pass = .unlinking name file batches offsets) {found : List ε}
    (hfound : Leads wire found (s.text file)) {event : ε} (hevent : event ∈ found) : Accepted wire s event := by
  obtain ⟨hnamed, -, hlength⟩ := h.retired name file batches offsets hpass
  have hoffsets : s.pass.offsets = some offsets := by rw [hpass]; rfl
  obtain ⟨file', before, hnamed', hlines, hoffset, haccepted⟩ := (h.hand offsets hoffsets name).resolve_left fun hnone =>
    Option.some_ne_none _ (hnamed.symm.trans hnone.1)
  obtain rfl : file = file' := Option.some.inj (hnamed.symm.trans hnamed')
  have htext : lines wire before = s.text file := hlines.2.eq_of_length (hoffset.symm.trans hlength)
  have hfound' : Leads wire found (lines wire before ++ []) := by rwa [List.append_nil, htext]
  exact haccepted event ((prefix_of_lines List.not_mem_nil hlines.1 hfound').subset hevent)

end Unlinking

/-! ### Steps -/

/-- What every clear step keeps. -/
structure Sound (wire : Wire ι ε) (s : Spool ε) : Prop where
  files : Files wire s
  deliveries : Deliveries wire s

/-- A writer's stage changed, under no lock but one it had or one that was free. -/
theorem Sound.turn (h : Sound wire s) {writer : ℕ} (stage : Writer ε) (hstands : Stands wire s stage)
    (hlock : ∀ file, stage.lock = some file → (s.writers writer).lock = some file ∨ s.Free file)
    (hclear : Clear wire s (s.turn writer stage)) : Sound wire (s.turn writer stage) := by
  refine ⟨h.files.turn writer hstands fun other file hstage hother => ?_,
    h.deliveries.writer (grows_turn s writer stage) rfl rfl rfl (fun event hevent => Or.inl hevent)
      (fun one file hone => ?_) hclear⟩
  · rcases hlock file hstage with hheld | hfree
    · exact h.files.alone other writer file hother hheld
    · exact absurd hother (hfree.1 other)
  · simp only [Spool.turn, Function.update_apply] at hone
    split at hone
    · exact (hlock file hone).imp_left fun hheld => ⟨writer, hheld⟩
    · exact Or.inl ⟨one, hone⟩

/-- A writer changed the file it holds the lock of, and perhaps returned. -/
theorem Sound.work (h : Sound wire s) {writer : ℕ} {stage : Writer ε} {file : ℕ} {text : Bytes} {spooled : List ε}
    (hheld : (s.writers writer).lock = some file) (hstage : stage.lock = some file)
    (hplain : ∃ events tail, text = lines wire events ++ tail ∧ 10 ∉ tail ∧ ∀ event ∈ events, wire.Reads event)
    (hstands : Stands wire (s.put file text) stage)
    (htext : ∀ before, Leads wire before (s.text file) → Leads wire before text)
    (hspooled : ∀ event ∈ spooled, event ∈ s.spooled ∨ ∃ name before, s.named name = some file ∧ event ∈ before ∧
      Leads wire before text)
    (hclear : Clear wire s { (s.put file text).turn writer stage with spooled := spooled }) :
    Sound wire { (s.put file text).turn writer stage with spooled := spooled } := by
  have hgrows : Grows wire s { (s.put file text).turn writer stage with spooled := spooled } := by
    have hput : Grows wire s (s.put file text) := grows_put htext
    exact ⟨hput.named, hput.text, hput.accepted⟩
  have hfiles := h.files.work writer hheld hstage hplain hstands
  refine ⟨⟨hfiles.plain, hfiles.apart, hfiles.below, hfiles.alone, hfiles.stands⟩,
    h.deliveries.writer hgrows rfl rfl rfl (fun event hevent => ?_) (fun one place hone => ?_) hclear⟩
  · rcases hspooled event hevent with hold | ⟨name, before, hnamed, hmem, hlines⟩
    · exact Or.inl hold
    · refine Or.inr ⟨name, file, before, hnamed, hmem, ?_⟩
      show Leads wire before (Function.update s.text file text file)
      rwa [Function.update_self]
  · simp only [Spool.turn, Spool.put, Function.update_apply] at hone
    split at hone
    · exact Or.inl ⟨writer, hheld.trans (hstage.symm.trans hone)⟩
    · exact Or.inl ⟨one, hone⟩

/-- Some of a line written, and not its end. -/
theorem not_mem_written {line written pending : Bytes} {amount : ℕ} (hline : 10 ∉ line)
    (hrest : written ++ pending = line ++ [10]) (hleft : pending.drop amount ≠ []) :
    10 ∉ written ++ pending.take amount := by
  obtain ⟨rest, last, hlast⟩ := List.eq_nil_or_concat' (pending.drop amount) |>.resolve_left hleft
  have hwhole : (written ++ pending.take amount ++ rest) ++ [last] = line ++ [10] := by
    rw [← hrest, List.append_assoc, ← hlast, List.append_assoc, List.take_append_drop]
  have hfront := (List.append_inj' hwhole rfl).1
  exact fun hmem => hline (hfront ▸ List.mem_append_left _ hmem)

theorem Sound.cuts (h : Sound wire s) {writer file length : ℕ} (hcutting : s.writers writer = .cutting file length)
    (hclear : Clear wire s ((s.put file (cut 0 length (s.text file))).turn writer (.ready file))) :
    Sound wire ((s.put file (cut 0 length (s.text file))).turn writer (.ready file)) := by
  obtain ⟨rfl, hnamed⟩ : Stands wire s (.cutting file length) := hcutting ▸ h.files.stands writer
  obtain ⟨events, hcut, hreads, hkept⟩ := h.files.cut_ended file
  have hlock : (s.writers writer).lock = some file := by rw [hcutting]; rfl
  refine h.work hlock rfl ⟨events, [], by rw [hcut, List.append_nil], List.not_mem_nil, hreads⟩
    ⟨⟨events, ?_, hreads⟩, hnamed⟩
    (fun before hbefore => hcut ▸ hkept before hbefore) (fun event hevent => Or.inl hevent) hclear
  show Function.update s.text file _ file = _
  rw [Function.update_self, hcut]

theorem Sound.writes (h : Sound wire s) {writer file amount : ℕ} {event : ε} {pending : Bytes}
    (hwriting : s.writers writer = .writing file event pending) (hleft : pending.drop amount ≠ [])
    (hclear : Clear wire s ((s.put file (s.text file ++ pending.take amount)).turn writer
      (.writing file event (pending.drop amount)))) :
    Sound wire ((s.put file (s.text file ++ pending.take amount)).turn writer
      (.writing file event (pending.drop amount))) := by
  obtain ⟨⟨events, written, htext, hrest, -, hreads⟩, hnamed⟩ : Stands wire s (.writing file event pending) :=
    hwriting ▸ h.files.stands writer
  have hlock : (s.writers writer).lock = some file := by rw [hwriting]; rfl
  have hnew : s.text file ++ pending.take amount = lines wire events ++ (written ++ pending.take amount) := by
    rw [htext, List.append_assoc]
  refine h.work hlock rfl ⟨events, _, hnew, not_mem_written (wire.plain event) hrest hleft, fun other hother =>
      hreads other (List.mem_append_left _ hother)⟩
    ⟨⟨events, written ++ pending.take amount, ?_, ?_, hleft, hreads⟩, hnamed⟩
    (fun before hbefore => hbefore.trans (List.prefix_append _ _)) (fun event hevent => Or.inl hevent) hclear
  · show Function.update s.text file _ file = _
    rw [Function.update_self, hnew]
  · rw [List.append_assoc, List.take_append_drop, hrest]

/-- An append that returns leaves its line in a file of the spool. -/
theorem Sound.written (h : Sound wire s) {writer file : ℕ} {event : ε} {pending : Bytes}
    (hwriting : s.writers writer = .writing file event pending)
    (hclear : Clear wire s { (s.put file (s.text file ++ pending)).turn writer (.ready file) with
      spooled := s.spooled ++ [event] }) :
    Sound wire { (s.put file (s.text file ++ pending)).turn writer (.ready file) with
      spooled := s.spooled ++ [event] } := by
  obtain ⟨⟨events, written, htext, hrest, -, hreads⟩, name, hnamed⟩ : Stands wire s (.writing file event pending) :=
    hwriting ▸ h.files.stands writer
  have hlock : (s.writers writer).lock = some file := by rw [hwriting]; rfl
  have hnew : s.text file ++ pending = lines wire (events ++ [event]) := by
    rw [htext, List.append_assoc, hrest, lines_concat]
  refine h.work hlock rfl ⟨events ++ [event], [], by rw [hnew, List.append_nil], List.not_mem_nil, hreads⟩
    ⟨⟨events ++ [event], ?_, hreads⟩, name, hnamed⟩ (fun before hbefore => hbefore.trans (List.prefix_append _ _))
    (fun other hother => ?_) hclear
  · show Function.update s.text file _ file = _
    rw [Function.update_self, hnew]
  · rcases List.mem_append.mp hother with hold | hlast
    · exact Or.inl hold
    · obtain rfl := List.mem_singleton.mp hlast
      exact Or.inr ⟨name, events ++ [other], hnamed, List.mem_append_right _ hlast, hreads, by rw [hnew]⟩

theorem Sound.made (h : Sound wire s) (writer : ℕ) {name : String} (hnamed : s.named name = none)
    (hclear : Clear wire s { s.turn writer (.opened name s.next) with
      named := Function.update s.named name (some s.next)
      text := Function.update s.text s.next []
      next := s.next + 1 }) :
    Sound wire { s.turn writer (.opened name s.next) with
      named := Function.update s.named name (some s.next)
      text := Function.update s.text s.next []
      next := s.next + 1 } := by
  refine ⟨h.files.made writer hnamed, h.deliveries.writer (grows_made h.files writer hnamed) rfl rfl rfl
    (fun event hevent => Or.inl hevent) (fun one file hone => ?_) hclear⟩
  simp only [Spool.turn, Function.update_apply] at hone
  split at hone
  · cases hone
  · exact Or.inl ⟨one, hone⟩

/-! ### Steps of the pass -/

variable {offsets : String → ℕ} {batches : List (Batch ε)} {name : String} {file : ℕ}

theorem Sound.begins (h : Sound wire s) {names : List String} (hidle : s.pass = .idle) (hnodup : names.Nodup) :
    Sound wire { s with pass := .reading names [] s.ledger } := by
  have hledger : ∀ name, Delivered wire s name (s.ledger name) := fun name =>
    h.deliveries.ledger name fun offsets hoffsets => by
      rw [hidle] at hoffsets
      cases hoffsets
  have hgrows : Grows wire s { s with pass := .reading names [] s.ledger } := grows_pass
  exact ⟨h.files.pass, {
    hand := fun _ hoffsets name => Option.some.inj hoffsets ▸ (hledger name).grows hgrows
    ledger := fun name _ => (hledger name).grows hgrows
    batches := fun batch hbatch => (List.not_mem_nil hbatch).elim
    paths := by simpa [Pass.paths] using hnodup
    due := fun name _ => (hledger name).grows hgrows
    retired := fun _ _ _ _ hretired => nomatch hretired
    spooled := fun event hevent => (h.deliveries.spooled event hevent).imp_right fun hwaits => hwaits.grows hgrows
    aside := h.deliveries.aside }⟩

/-- The pass goes on with the same offsets and no other paths. -/
theorem Sound.goes (h : Sound wire s) {pass : Pass ε} {accepted : List ε} (hoffsets : s.pass.offsets = some offsets)
    (hpass : pass.offsets = some offsets)
    (haccepted : ∀ event, Accepted wire s event → wire.id event ∈ accepted.map wire.id)
    (hbatches : ∀ batch ∈ pass.batches, Upto wire s batch.name batch.offset fun event =>
      wire.id event ∈ accepted.map wire.id ∨ event ∈ batch.events)
    (hpaths : pass.paths.Nodup) (hdue : ∀ name ∈ pass.paths, name ∈ s.pass.paths)
    (hretired : ∀ name file batches offsets, pass = .unlinking name file batches offsets →
      s.named name = some file ∧ (∀ writer, (s.writers writer).lock ≠ some file) ∧
        offsets name = (s.text file).length) :
    Sound wire { s with accepted := accepted, pass := pass } := by
  have hgrows : Grows wire s { s with accepted := accepted, pass := pass } := grows_accepted haccepted
  refine ⟨h.files.pass, ?_, ?_, hbatches, hpaths, ?_, hretired, ?_, h.deliveries.aside⟩
  · intro offsets' hoffsets' name
    obtain rfl := Option.some.inj (hpass.symm.trans hoffsets')
    exact (h.deliveries.hand offsets hoffsets name).grows hgrows
  · intro name hle
    refine (h.deliveries.ledger name fun offsets' hoffsets' => ?_).grows hgrows
    obtain rfl := Option.some.inj (hoffsets.symm.trans hoffsets')
    exact hle offsets hpass
  · exact fun name hname => (h.deliveries.due name (hdue name hname)).grows hgrows
  · exact fun event hevent => (h.deliveries.spooled event hevent).imp (hgrows.accepted event) fun hwaits =>
      hwaits.grows hgrows

theorem Sound.reads (h : Sound wire s) {names : List String} {page : Page ε}
    (hpass : s.pass = .reading (name :: names) batches offsets) (hnamed : s.named name = some file)
    (hread : read wire.parse (s.text file) (offsets name) = .ok page) :
    Sound wire { s with pass := .reading names (batches ++ [⟨name, page.events, page.offset⟩]) offsets } := by
  have hoffsets : s.pass.offsets = some offsets := by rw [hpass]; rfl
  obtain ⟨page', hread', hupto, -⟩ := (h.deliveries.hand offsets hoffsets name).page h.files hnamed
  obtain rfl : page' = page := Except.ok.inj (hread'.symm.trans hread)
  have hperm : (names ++ (batches ++ [(⟨name, page'.events, page'.offset⟩ : Batch ε)]).map Batch.name).Perm
      (name :: names ++ batches.map Batch.name) := by
    rw [List.map_append, ← List.append_assoc]
    exact List.perm_append_singleton _ _
  have hpaths : s.pass.paths = name :: names ++ batches.map Batch.name := by rw [hpass]; rfl
  refine h.goes hoffsets rfl (fun _ h => h) (fun batch hbatch => ?_) (hperm.nodup_iff.mpr (hpaths ▸ h.deliveries.paths))
    (fun path hpath => hpaths ▸ hperm.subset hpath) (fun _ _ _ _ hretired => nomatch hretired)
  rcases List.mem_append.mp hbatch with hold | hnew
  · exact h.deliveries.batches batch (by rw [hpass]; exact hold)
  · obtain rfl := List.mem_singleton.mp hnew
    exact hupto

/-- No reading of a file is refused. -/
theorem Sound.reads_ok (h : Sound wire s) {names : List String} {place : ℕ}
    (hpass : s.pass = .reading (name :: names) batches offsets) (hnamed : s.named name = some file) :
    read wire.parse (s.text file) (offsets name) ≠ .error place := by
  have hoffsets : s.pass.offsets = some offsets := by rw [hpass]; rfl
  obtain ⟨page, hread, -⟩ := (h.deliveries.hand offsets hoffsets name).page h.files hnamed
  rw [hread]
  exact fun hsame => nomatch hsame

theorem Sound.posts (h : Sound wire s) {event : ε} {events : List ε} {offset : ℕ}
    (hpass : s.pass = .sending (⟨name, event :: events, offset⟩ :: batches) offsets) :
    Sound wire { s with
      accepted := s.accepted ++ [event]
      pass := .sending (⟨name, events, offset⟩ :: batches) offsets } := by
  have hmore : ∀ other, Accepted wire s other → wire.id other ∈ (s.accepted ++ [event]).map wire.id := fun other h => by
    rw [List.map_append]
    exact List.mem_append_left _ h
  have hpaths : s.pass.paths = name :: batches.map Batch.name := by rw [hpass]; rfl
  have hbatches : s.pass.batches = ⟨name, event :: events, offset⟩ :: batches := by rw [hpass]; rfl
  have hnodup : (name :: batches.map Batch.name).Nodup := hpaths ▸ h.deliveries.paths
  refine h.goes (by rw [hpass]; rfl) rfl hmore (fun batch hbatch => ?_) hnodup (fun path hpath => hpaths ▸ hpath)
    (fun _ _ _ _ hretired => nomatch hretired)
  have hgrows : Grows wire s s := ⟨fun _ _ h => h, fun _ _ _ _ h => h, fun _ h => h⟩
  rcases List.mem_cons.mp hbatch with rfl | hother
  · refine (h.deliveries.batches ⟨name, event :: events, offset⟩ (hbatches ▸ List.mem_cons_self)).grows hgrows
      fun other hother => ?_
    rcases hother with haccepted | hmem
    · exact Or.inl (hmore other haccepted)
    · rcases List.mem_cons.mp hmem with rfl | hlater
      · exact Or.inl (by simp)
      · exact Or.inr hlater
  · exact (h.deliveries.batches _ (hbatches ▸ List.mem_cons_of_mem _ hother)).grows hgrows fun other =>
      Or.imp_left (hmore other)

/-- A file whose events are all sent gets its new offset. -/
theorem Sound.sent (h : Sound wire s) {offset : ℕ} {pass : Pass ε}
    (hpass : s.pass = .sending (⟨name, [], offset⟩ :: batches) offsets)
    (hpass' : pass = .retiring name batches (Function.update offsets name offset) ∨
      pass = .sending batches (Function.update offsets name offset)) : Sound wire { s with pass := pass } := by
  have hoffsets : s.pass.offsets = some offsets := by rw [hpass]; rfl
  have hpaths : s.pass.paths = name :: batches.map Batch.name := by rw [hpass]; rfl
  have hbatches : s.pass.batches = ⟨name, [], offset⟩ :: batches := by rw [hpass]; rfl
  have hgrows : Grows wire s { s with pass := pass } := grows_pass
  have hnew : pass.offsets = some (Function.update offsets name offset) := by rcases hpass' with rfl | rfl <;> rfl
  have hrest : pass.batches = batches := by rcases hpass' with rfl | rfl <;> rfl
  have hdue : List.Sublist pass.paths s.pass.paths := by
    rw [hpaths]
    rcases hpass' with rfl | rfl
    · exact List.Sublist.refl _
    · exact List.sublist_cons_self _ _
  have hupto : Upto wire s name offset fun event => Accepted wire s event ∨ event ∈ ([] : List ε) :=
    h.deliveries.batches _ (hbatches ▸ List.mem_cons_self)
  have hdelivered : Delivered wire { s with pass := pass } name offset := Or.inr (hupto.grows hgrows fun event hevent =>
    hgrows.accepted event (hevent.resolve_right List.not_mem_nil))
  refine ⟨h.files.pass, fun offsets' hoffsets' path => ?_, fun path hle => ?_, fun batch hbatch => ?_,
    h.deliveries.paths.sublist hdue, fun path hpath => (h.deliveries.due path (hdue.subset hpath)).grows hgrows,
    fun _ _ _ _ hretired => ?_, fun event hevent => ?_, h.deliveries.aside⟩
  · obtain rfl := Option.some.inj (hnew.symm.trans hoffsets')
    by_cases hpath : path = name
    · subst hpath
      rwa [Function.update_self]
    · rw [Function.update_of_ne hpath]
      exact (h.deliveries.hand offsets hoffsets path).grows hgrows
  · by_cases hpath : path = name
    · subst hpath
      exact (h.deliveries.due path (hpaths ▸ List.mem_cons_self)).grows hgrows
    · refine (h.deliveries.ledger path fun offsets' hoffsets' => ?_).grows hgrows
      obtain rfl := Option.some.inj (hoffsets.symm.trans hoffsets')
      have hle' := hle _ hnew
      rwa [Function.update_of_ne hpath] at hle'
  · refine (h.deliveries.batches batch ?_).grows hgrows fun event => Or.imp_left (hgrows.accepted event)
    rw [hbatches]
    exact List.mem_cons_of_mem _ (hrest ▸ hbatch)
  · have hretired : pass = _ := hretired
    rcases hpass' with rfl | rfl <;> cases hretired
  · exact (h.deliveries.spooled event hevent).imp_right fun hwaits => hwaits.grows hgrows

/-- A file delivered whole is deleted. -/
theorem Sound.unlinks (h : Sound wire s) (hpass : s.pass = .unlinking name file batches offsets) :
    Sound wire { s with
      named := Function.update s.named name none
      pass := .sending batches (Function.update offsets name 0) } := by
  obtain ⟨hnamed, hfree, -⟩ := h.deliveries.retired name file batches offsets hpass
  have hoffsets : s.pass.offsets = some offsets := by rw [hpass]; rfl
  have hpaths : s.pass.paths = name :: batches.map Batch.name := by rw [hpass]; rfl
  have hbatches : s.pass.batches = batches := by rw [hpass]; rfl
  obtain ⟨hfresh, hnodup⟩ := List.nodup_cons.mp (hpaths ▸ h.deliveries.paths)
  have hne : ∀ path ∈ batches.map Batch.name, path ≠ name := fun path hpath hsame => hfresh (hsame ▸ hpath)
  refine ⟨h.files.unlinked hnamed hfree, fun offsets' hoffsets' path => ?_, fun path hle => ?_, fun batch hbatch => ?_,
    hnodup, fun path hpath => (h.deliveries.due path (hpaths ▸ List.mem_cons_of_mem _ hpath)).unlinked (hne path hpath),
    (fun _ _ _ _ hretired => nomatch hretired), fun event hevent => ?_, h.deliveries.aside⟩
  · obtain rfl : Function.update offsets name 0 = offsets' := Option.some.inj hoffsets'
    by_cases hpath : path = name
    · subst hpath
      rw [Function.update_self]
      exact delivered_zero _ _
    · rw [Function.update_of_ne hpath]
      exact (h.deliveries.hand offsets hoffsets path).unlinked hpath
  · have hle' : s.ledger path ≤ Function.update offsets name 0 path := hle _ rfl
    by_cases hpath : path = name
    · subst hpath
      rw [Function.update_self, Nat.le_zero] at hle'
      show Delivered wire _ path (s.ledger path)
      rw [hle']
      exact delivered_zero _ _
    · rw [Function.update_of_ne hpath] at hle'
      refine (h.deliveries.ledger path fun offsets' hoffsets' => ?_).unlinked hpath
      obtain rfl := Option.some.inj (hoffsets.symm.trans hoffsets')
      exact hle'
  · exact (h.deliveries.batches batch (hbatches.symm ▸ hbatch)).unlinked (hne _ (List.mem_map_of_mem hbatch))
  · rcases h.deliveries.spooled event hevent with haccepted | ⟨path, place, before, hpath, hmem, hlines⟩
    · exact Or.inl haccepted
    · by_cases hsame : path = name
      · subst hsame
        obtain rfl : file = place := Option.some.inj (hnamed.symm.trans hpath)
        exact Or.inl (h.deliveries.whole hpass hlines hmem)
      · exact Or.inr ⟨path, place, before, (Function.update_of_ne hsame _ _).trans hpath, hmem, hlines⟩

/-- A pass over, its offsets kept or not. -/
theorem Sound.over (h : Sound wire s) {ledger : String → ℕ} (hledger : ∀ name, Delivered wire s name (ledger name)) :
    Sound wire { s with ledger := ledger, pass := .idle } := by
  have hgrows : Grows wire s { s with ledger := ledger, pass := .idle } := grows_pass
  exact ⟨h.files.pass, {
    hand := fun _ hoffsets => nomatch hoffsets
    ledger := fun name _ => (hledger name).grows hgrows
    batches := fun batch hbatch => (List.not_mem_nil hbatch).elim
    paths := List.nodup_nil
    due := fun name hname => (List.not_mem_nil hname).elim
    retired := fun _ _ _ _ hretired => nomatch hretired
    spooled := fun event hevent => (h.deliveries.spooled event hevent).imp_right fun hwaits => hwaits.grows hgrows
    aside := h.deliveries.aside }⟩

theorem Sound.ends (h : Sound wire s) {late : List ε} (hoffsets : s.pass.offsets = some offsets) :
    Sound wire { s with accepted := s.accepted ++ late, pass := .keeping offsets } :=
  h.goes hoffsets rfl (fun event hevent => by rw [List.map_append]; exact List.mem_append_left _ hevent)
    (fun batch hbatch => (List.not_mem_nil hbatch).elim) List.nodup_nil (fun name hname => (List.not_mem_nil hname).elim)
    (fun _ _ _ _ hretired => nomatch hretired)

theorem Sound.spares (h : Sound wire s) (hpass : s.pass = .retiring name batches offsets) :
    Sound wire { s with pass := .sending batches offsets } := by
  have hpaths : s.pass.paths = name :: batches.map Batch.name := by rw [hpass]; rfl
  have hbatches : s.pass.batches = batches := by rw [hpass]; rfl
  exact h.goes (by rw [hpass]; rfl) rfl (fun _ h => h)
    (fun batch hbatch => h.deliveries.batches batch (hbatches.symm ▸ hbatch))
    (List.nodup_cons.mp (hpaths ▸ h.deliveries.paths)).2 (fun path hpath => hpaths ▸ List.mem_cons_of_mem _ hpath)
    (fun _ _ _ _ hretired => nomatch hretired)

theorem Sound.holds (h : Sound wire s) (hpass : s.pass = .retiring name batches offsets)
    (hnamed : s.named name = some file) (hfree : s.Free file)
    (hclear : Clear wire s { s with pass := .unlinking name file batches offsets }) :
    Sound wire { s with pass := .unlinking name file batches offsets } := by
  have hpaths : s.pass.paths = name :: batches.map Batch.name := by rw [hpass]; rfl
  have hbatches : s.pass.batches = batches := by rw [hpass]; rfl
  have hnodup : (name :: batches.map Batch.name).Nodup := hpaths ▸ h.deliveries.paths
  refine h.goes (by rw [hpass]; rfl) rfl (fun _ h => h)
    (fun batch hbatch => h.deliveries.batches batch (hbatches.symm ▸ hbatch)) hnodup (fun path hpath => hpaths ▸ hpath)
    (fun name' file' batches' offsets' hretired => ?_)
  have hwhole := hclear.whole name' file' batches' offsets' hretired
  cases hretired
  exact ⟨hnamed, hfree.1, hwhole⟩

theorem Sound.killed (h : Sound wire s) (hclear : Clear wire s { s with pass := .idle }) :
    Sound wire { s with pass := .idle } :=
  h.over fun name => h.deliveries.ledger name fun offsets hoffsets => hclear.kept offsets hoffsets rfl rfl name

variable [DecidableEq ι]

theorem Sound.looks (h : Sound wire s) {held : List ι} (hpass : s.pass = .reading [] batches offsets)
    (hheld : ∀ id ∈ held, id ∈ s.accepted.map wire.id) :
    Sound wire { s with pass := .sending (batches.map (unheld wire held)) offsets } := by
  have hnames : (batches.map (unheld wire held)).map Batch.name = batches.map Batch.name := by
    rw [List.map_map]
    rfl
  have hpaths : s.pass.paths = (batches.map (unheld wire held)).map Batch.name := by rw [hpass, hnames]; rfl
  have hnodup : ((batches.map (unheld wire held)).map Batch.name).Nodup := hpaths ▸ h.deliveries.paths
  refine h.goes (by rw [hpass]; rfl) rfl (fun _ h => h) (fun batch hbatch => ?_) hnodup
    (fun path hpath => hpaths ▸ hpath) (fun _ _ _ _ hretired => nomatch hretired)
  obtain ⟨found, hfound, rfl⟩ := List.mem_map.mp hbatch
  have hgrows : Grows wire s s := ⟨fun _ _ h => h, fun _ _ _ _ h => h, fun _ h => h⟩
  refine (h.deliveries.batches found (by rw [hpass]; exact hfound)).grows hgrows fun event hevent => ?_
  rcases hevent with haccepted | hmem
  · exact Or.inl haccepted
  · by_cases hshown : wire.id event ∈ held
    · exact Or.inl (hheld _ hshown)
    · exact Or.inr (List.mem_filter.mpr ⟨hmem, decide_eq_true hshown⟩)

/-- A clear step keeps a spool sound. -/
theorem Sound.step (h : Sound wire s) (hstep : Step wire s s') (hclear : Clear wire s s') : Sound wire s' := by
  cases hstep with
  | found writer name file _ hnamed =>
      exact h.turn (.opened name file) (h.files.below name file hnamed) (fun _ hlock => nomatch hlock) hclear
  | made writer name _ hnamed => exact h.made writer hnamed hclear
  | locks writer name file hopened hfree =>
      have hbelow : Stands wire s (.opened name file) := hopened ▸ h.files.stands writer
      exact h.turn (.locked name file) hbelow (fun place hplace => Or.inr (Option.some.inj hplace ▸ hfree))
        hclear
  | measures writer name file path hlocked hnamed =>
      have hsame := hclear.same writer name file _ hlocked (Function.update_self _ _ _)
      obtain rfl : path = file := Option.some.inj (hnamed.symm.trans hsame)
      exact h.turn (.cutting path _) ⟨rfl, name, hnamed⟩
        (fun place hplace => Or.inl (by rw [hlocked]; exact hplace)) hclear
  | cuts writer file length hcutting => exact h.cuts hcutting hclear
  | appends writer file event hready =>
      obtain ⟨⟨events, htext, hreads⟩, hnamed⟩ : Stands wire s (.ready file) := hready ▸ h.files.stands writer
      have hevent := hclear.reads writer file event _ hready (Function.update_self _ _ _)
      exact h.turn (.writing file event _)
        ⟨⟨events, [], by rw [htext, List.append_nil], List.nil_append _, by simp,
          List.forall_mem_append.mpr ⟨hreads, List.forall_mem_singleton.mpr hevent⟩⟩, hnamed⟩
        (fun place hplace => Or.inl (by rw [hready]; exact hplace)) hclear
  | writes writer file event pending amount hwriting hleft => exact h.writes hwriting hleft hclear
  | written writer file event pending hwriting => exact h.written hwriting hclear
  | leaves writer => exact h.turn .idle trivial (fun _ hlock => nomatch hlock) hclear
  | begins names hidle hnodup _ => exact h.begins hidle hnodup
  | reads name names batches offsets file page hpass hnamed hread => exact h.reads hpass hnamed hread
  | refuses name names batches offsets file place hpass hnamed hread => exact absurd hread (h.reads_ok hpass hnamed)
  | looks batches offsets held hpass hheld => exact h.looks hpass hheld
  | posts name event events offset batches offsets hpass => exact h.posts hpass
  | sent name offset file batches offsets hpass _ =>
      refine h.sent hpass ?_
      split
      · exact Or.inl rfl
      · exact Or.inr rfl
  | spares name batches offsets hpass => exact h.spares hpass
  | holds name file batches offsets hpass hnamed hfree => exact h.holds hpass hnamed hfree hclear
  | unlinks name file batches offsets hpass => exact h.unlinks hpass
  | ends offsets late hoffsets _ => exact h.ends hoffsets
  | keeps offsets hpass => exact h.over fun name => h.deliveries.hand offsets (by rw [hpass]; rfl) name
  | killed => exact h.killed hclear

theorem Reachable.sound (h : Reachable wire s) : Sound wire s := by
  induction h with
  | start =>
      refine ⟨⟨fun _ => ⟨[], [], rfl, List.not_mem_nil, fun _ h => (List.not_mem_nil h).elim⟩, (fun _ _ _ h => nomatch h), (fun _ _ h => nomatch h),
        (fun _ _ _ h => nomatch h), fun _ => trivial⟩, ?_⟩
      exact {
        hand := fun _ hoffsets => nomatch hoffsets
        ledger := fun name _ => delivered_zero _ name
        batches := fun batch hbatch => (List.not_mem_nil hbatch).elim
        paths := List.nodup_nil
        due := fun name hname => (List.not_mem_nil hname).elim
        retired := fun _ _ _ _ hretired => nomatch hretired
        spooled := fun event hevent => (List.not_mem_nil hevent).elim
        aside := fun _ => rfl }
  | step _ hstep hclear ih => exact ih.step hstep hclear

end Steps

/-- An event whose append returned was accepted by the sink, or the next reading of a file of the spool finds it; and
no file is set aside. -/
theorem spooled_delivered [DecidableEq ι] {s : Spool ε} (h : Reachable wire s) :
    (∀ event ∈ s.spooled, Accepted wire s event ∨ ∃ name file page, s.named name = some file ∧
      read wire.parse (s.text file) (s.offsets name) = .ok page ∧ event ∈ page.events) ∧
    ∀ name, s.aside name = none := by
  have hsound := h.sound
  refine ⟨fun event hevent => ?_, hsound.deliveries.aside⟩
  rcases hsound.deliveries.spooled event hevent with haccepted | ⟨name, file, before, hnamed, hmem, hlines⟩
  · exact Or.inl haccepted
  · have hdelivered : Delivered wire s name (s.offsets name) := by
      unfold Spool.offsets
      cases hoffsets : s.pass.offsets with
      | none => exact hsound.deliveries.ledger name fun offsets h => nomatch hoffsets.symm.trans h
      | some offsets => exact hsound.deliveries.hand offsets hoffsets name
    obtain ⟨page, hread, -, hfound⟩ := hdelivered.page hsound.files hnamed
    exact (hfound before hlines event hmem).imp_right fun hpage => ⟨name, file, page, hnamed, hread, hpage⟩

/-- Events of two kinds, the line of each one byte. -/
def twoLines : Wire Bool Bool where
  id event := event
  line event := if event then [1] else [2]
  parse line := if line = [1] then some true else if line = [2] then some false else none
  plain event := by cases event <;> decide
  said event := by cases event <;> exact List.cons_ne_nil _ _

theorem reads_twoLines (event : Bool) : twoLines.Reads event := by cases event <;> rfl

/-- A reached spool at which one writer alone works. -/
structure Lone (s : Spool Bool) : Prop where
  reached : Reachable twoLines s
  alone : ∀ writer, writer ≠ 0 → s.writers writer = .idle

section Lone

variable {s s' : Spool Bool}

theorem Lone.free (h : Lone s) (hlock : (s.writers 0).lock = none) (hidle : s.pass = .idle) (file : ℕ) :
    s.Free file := by
  refine ⟨fun writer => ?_, fun name batches offsets hpass => nomatch hidle.symm.trans hpass⟩
  by_cases hzero : writer = 0
  · rw [hzero, hlock]
    exact fun hsome => nomatch hsome
  · rw [h.alone writer hzero]
    exact fun hsome => nomatch hsome

/-- The writer goes on while no pass runs. -/
theorem Lone.turn (h : Lone s) (hstep : Step twoLines s s') {stage : Writer Bool}
    (hwriters : s'.writers = Function.update s.writers 0 stage) (hidle : s.pass = .idle) (hidle' : s'.pass = .idle)
    (hsame : ∀ name file length, s.writers 0 = .locked name file → stage = .cutting file length →
      s.named name = some file) : Lone s' where
  reached := by
    refine h.reached.step hstep ⟨fun _ _ event _ _ _ => reads_twoLines event, fun writer name file length hlocked hcuts => ?_,
      (fun _ _ _ _ hpass => nomatch hidle'.symm.trans hpass), fun offsets hoffsets => ?_⟩
    · obtain rfl : writer = 0 := by
        by_contra hother
        exact nomatch (h.alone writer hother).symm.trans hlocked
      rw [hwriters, Function.update_self] at hcuts
      exact hsame name file length hlocked hcuts
    · rw [hidle] at hoffsets
      cases hoffsets
  alone writer hother := by
    rw [hwriters, Function.update_of_ne hother]
    exact h.alone writer hother

/-- The first pass goes on. -/
theorem Lone.goes (h : Lone s) (hstep : Step twoLines s s') (hwriters : s'.writers = s.writers)
    (hledger : s.ledger = fun _ => 0) (hheld : ∀ name file batches offsets, s'.pass ≠ .unlinking name file batches offsets) :
    Lone s' where
  reached := by
    refine h.reached.step hstep ⟨fun _ _ event _ _ _ => reads_twoLines event, fun writer name file length hlocked hcuts => ?_,
      fun name file batches offsets hpass => absurd hpass (hheld name file batches offsets), fun offsets _ _ _ name => ?_⟩
    · rw [hwriters, hlocked] at hcuts
      cases hcuts
    · rw [hledger]
      exact Nat.zero_le _
  alone writer hother := by
    rw [hwriters]
    exact h.alone writer hother

end Lone

/-- A writer appends an event, a pass delivers it while the writer holds the file, and the writer appends another. -/
theorem spooled_delivered_one : ∃ s : Spool Bool, (s.spooled = [true, false] ∧ s.accepted = [true]) ∧
    (∀ event ∈ s.spooled, Accepted twoLines s event ∨ ∃ name file page, s.named name = some file ∧
      read twoLines.parse (s.text file) (s.offsets name) = .ok page ∧ event ∈ page.events) ∧
    ∀ name, s.aside name = none := by
  have hstart : Lone {} := ⟨.start, fun _ _ => rfl⟩
  have hmade := hstart.turn (.made 0 "asks" rfl rfl) rfl rfl rfl (fun _ _ _ h => nomatch h)
  have hlocked := hmade.turn (.locks 0 "asks" 0 rfl (hmade.free rfl rfl 0)) rfl rfl rfl (fun _ _ _ h => nomatch h)
  have hcutting := hlocked.turn (.measures 0 "asks" 0 0 rfl rfl) rfl rfl rfl (fun name file length hat _ => by
    cases hat
    rfl)
  have hready := hcutting.turn (.cuts 0 0 0 rfl) rfl rfl rfl (fun _ _ _ h => nomatch h)
  have hwriting := hready.turn (.appends 0 0 true rfl) rfl rfl rfl (fun _ _ _ h => nomatch h)
  have hwritten := hwriting.turn (.written 0 0 true _ rfl) rfl rfl rfl (fun _ _ _ h => nomatch h)
  have hbegun := hwritten.goes (.begins ["asks"] rfl (List.nodup_singleton _) (fun name hname => by
    obtain rfl := List.mem_singleton.mp hname
    exact Option.some_ne_none _)) rfl rfl (fun _ _ _ _ h => nomatch h)
  have hread := hbegun.goes (.reads "asks" [] [] _ 0 ⟨[true], 2⟩ rfl rfl rfl) rfl rfl (fun _ _ _ _ h => nomatch h)
  have hlooked := hread.goes (.looks _ _ [] rfl (fun _ h => absurd h List.not_mem_nil)) rfl rfl (fun _ _ _ _ h => nomatch h)
  have hposted := hlooked.goes (.posts "asks" true [] 2 [] _ rfl) rfl rfl (fun _ _ _ _ h => nomatch h)
  have hsent := hposted.goes (.sent "asks" 2 0 [] _ rfl rfl) rfl rfl (fun _ _ _ _ h => nomatch h)
  have hspared := hsent.goes (.spares "asks" [] _ rfl) rfl rfl (fun _ _ _ _ h => nomatch h)
  have hended := hspared.goes (.ends _ [] rfl (Or.inl rfl)) rfl rfl (fun _ _ _ _ h => nomatch h)
  have hkept := hended.goes (.keeps _ rfl) rfl rfl (fun _ _ _ _ h => nomatch h)
  have hagain := hkept.turn (.appends 0 0 false rfl) rfl rfl rfl (fun _ _ _ h => nomatch h)
  have hlast := hagain.turn (.written 0 0 false _ rfl) rfl rfl rfl (fun _ _ _ h => nomatch h)
  exact ⟨_, ⟨rfl, rfl⟩, spooled_delivered twoLines hlast.reached⟩

end Mainboard.Telemetry
