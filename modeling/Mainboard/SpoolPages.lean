import Mathlib.Data.List.Forall2
import Mathlib.Data.List.Induction
import Mainboard.EventLines
import Mainboard.LineText
import Mainboard.TextBytes

/-! Reading a spool file that only grows, each time from the offset the read before it answered. A read goes to the
last complete line and leaves a torn one for the next; only a blank line with no other complete line behind it is
neither read nor refused, and the reads stand still before it. -/

namespace Mainboard.Events

open Analysis (Bytes decode)
open LineText

section Lines

variable {α : Type} [DecidableEq α] {sep : α} {text head rest tail : List α}

/-- The complete lines of a text. -/
def completeLines (sep : α) (text : List α) : List (List α) := (text.splitOn sep).dropLast

/-- How far some lines reach, each with its ending. -/
def extent : List (List α) → ℕ
  | [] => 0
  | line :: lines => line.length + 1 + extent lines

/-- A text is empty or ends with a line. -/
def Closed (sep : α) (text : List α) : Prop := text = [] ∨ ∃ lines, text = lines ++ [sep]

theorem completeLines_append_sep (sep : α) (head rest : List α) :
    completeLines sep (head ++ sep :: rest) = head.splitOn sep ++ completeLines sep rest := by
  rw [completeLines, List.splitOn_append_cons_self, List.dropLast_append_of_ne_nil (List.splitOn_ne_nil _ _)]
  rfl

theorem completeLines_torn (h : sep ∉ text) : completeLines sep text = [] := by
  rw [completeLines, List.splitOn_eq_singleton h]
  rfl

/-- The complete lines behind a text that ends with a line. -/
theorem completeLines_append (hhead : Closed sep head) (rest : List α) :
    completeLines sep (head ++ rest) = completeLines sep head ++ completeLines sep rest := by
  rcases hhead with rfl | ⟨lines, rfl⟩
  · rfl
  · rw [List.append_assoc, List.singleton_append, completeLines_append_sep, completeLines_append_sep,
      completeLines_torn List.not_mem_nil, List.append_nil]

theorem extent_splitOn (sep : α) (text : List α) : extent (text.splitOn sep) = text.length + 1 := by
  induction text with
  | nil => rfl
  | cons char text ih =>
      rw [List.splitOn_cons_eq_if_modifyHead]
      split
      · rw [extent, ih, List.length_nil, List.length_cons]
        omega
      · obtain ⟨line, lines, hlines⟩ := List.exists_cons_of_ne_nil (List.splitOn_ne_nil sep text)
        rw [hlines] at ih ⊢
        rw [extent] at ih
        rw [List.modifyHead_cons, extent, List.length_cons, List.length_cons]
        omega

/-- A text with a separator is parted at its last one. -/
theorem exists_last (h : sep ∈ text) : ∃ lines tail, text = lines ++ sep :: tail ∧ sep ∉ tail := by
  induction text with
  | nil => cases h
  | cons char text ih =>
      by_cases hlater : sep ∈ text
      · obtain ⟨lines, tail, rfl, htail⟩ := ih hlater
        exact ⟨char :: lines, tail, rfl, htail⟩
      · obtain rfl := (List.mem_cons.mp h).resolve_right hlater
        exact ⟨[], text, rfl, hlater⟩

theorem ended_append_sep (lines : List α) (htail : sep ∉ tail) : ended sep (lines ++ sep :: tail) = lines.length + 1 := by
  unfold ended
  have hskip : ∀ char ∈ tail.reverse, decide (char ≠ sep) = true := fun char hchar => decide_eq_true fun hsame =>
    htail (hsame ▸ List.mem_reverse.mp hchar)
  rw [List.reverse_append, List.reverse_cons, List.append_assoc, List.dropWhile_append_of_pos hskip,
    List.singleton_append, List.dropWhile_cons_of_neg (by simp), List.length_cons, List.length_reverse]

/-- Up to its last separator a text is closed, and what follows has none. -/
theorem closed_ended (sep : α) (text : List α) :
    Closed sep (text.take (ended sep text)) ∧ sep ∉ text.drop (ended sep text) := by
  by_cases h : sep ∈ text
  · obtain ⟨lines, tail, rfl, htail⟩ := exists_last h
    have hsplit : lines ++ sep :: tail = (lines ++ [sep]) ++ tail := by simp
    have hlength : (lines ++ [sep]).length = lines.length + 1 := by simp
    rw [ended_append_sep lines htail, hsplit, List.take_left' hlength, List.drop_left' hlength]
    exact ⟨Or.inr ⟨lines, rfl⟩, htail⟩
  · rw [ended_of_not_mem h]
    exact ⟨Or.inl rfl, h⟩

/-- A text's end behind one that is closed. -/
theorem ended_append (hhead : Closed sep head) (rest : List α) :
    ended sep (head ++ rest) = head.length + ended sep rest := by
  by_cases hrest : sep ∈ rest
  · obtain ⟨lines, tail, rfl, htail⟩ := exists_last hrest
    rw [← List.append_assoc, ended_append_sep _ htail, ended_append_sep _ htail, List.length_append]
    omega
  · rw [ended_of_not_mem hrest]
    rcases hhead with rfl | ⟨lines, rfl⟩
    · exact ended_of_not_mem hrest
    · rw [List.append_assoc, List.singleton_append, ended_append_sep lines hrest, List.length_append]
      rfl

/-- A blank line with no other complete line behind it. -/
def Blank (sep : α) (text : List α) : Prop := text.head? = some sep ∧ sep ∉ text.tail

/-- But for a lone blank line, what a text is read as are its complete lines. -/
theorem linesOf_eq (h : ¬ Blank sep text) : linesOf sep text = completeLines sep text ∧ extent (linesOf sep text) = ended sep text := by
  by_cases hmem : sep ∈ text
  · obtain ⟨lines, tail, rfl, htail⟩ := exists_last hmem
    have hsplit : lines ++ sep :: tail = (lines ++ [sep]) ++ tail := by simp
    have hlength : (lines ++ [sep]).length = lines.length + 1 := by simp
    have hlines : lines ≠ [] := by
      rintro rfl
      exact h ⟨rfl, htail⟩
    have hread : linesOf sep (lines ++ sep :: tail) = lines.splitOn sep := by
      rw [linesOf, ended_append_sep lines htail, hsplit, List.take_left' hlength, List.dropLast_concat, if_neg hlines]
    rw [hread, completeLines_append_sep, completeLines_torn htail, List.append_nil, extent_splitOn,
      ended_append_sep lines htail]
    exact ⟨rfl, rfl⟩
  · rw [linesOf_of_not_mem hmem, completeLines_torn hmem, ended_of_not_mem hmem]
    exact ⟨rfl, rfl⟩

/-- A lone blank line is read as nothing. -/
theorem linesOf_blank (h : Blank sep text) : linesOf sep text = [] ∧ ended sep text = 1 := by
  obtain ⟨hhead, htail⟩ := h
  cases text with
  | nil => cases hhead
  | cons char text =>
      obtain rfl := Option.some.inj hhead
      have hended : ended char (char :: text) = 1 := ended_append_sep [] htail
      refine ⟨?_, hended⟩
      rw [linesOf, hended]
      rfl

end Lines

/-- The events a read found and the offset to read from next. -/
structure Page (ε : Type) where
  events : List ε
  offset : ℕ
  deriving DecidableEq

section Reading

variable {ε : Type} (parse : Bytes → Option ε)

/-- The events of some lines from a position on, else the position of the first that is no spool line. -/
def parsedFrom : ℕ → List Bytes → Except ℕ (Page ε)
  | position, [] => .ok ⟨[], position⟩
  | position, raw :: raws => match parse raw with
    | none => .error position
    | some event => (parsedFrom (position + raw.length + 1) raws).map fun page => ⟨event :: page.events, page.offset⟩

/-- The events from byte `offset` to the last complete line. -/
def read (data : Bytes) (offset : ℕ) : Except ℕ (Page ε) := parsedFrom parse offset (linesOf 10 (data.drop offset))

/-- What one read more finds behind what was read. -/
def readOn (kept : List ε × ℕ) (data : Bytes) : Option (List ε × ℕ) := match read parse data kept.2 with
  | .error _ => none
  | .ok page => some (kept.1 ++ page.events, page.offset)

/-- What reads of a file find that follow each other, each from the offset the last one answered, and where the last
one ends; nothing once one is refused. -/
def follow (files : List Bytes) : Option (List ε × ℕ) := files.foldlM (readOn parse) ([], 0)

variable {parse} {position : ℕ} {raws : List Bytes} {page : Page ε} {data before : Bytes} {events : List ε} {offset : ℕ}

/-- A page holds an event for each line and ends where the lines do. -/
theorem parsedFrom_ok (h : parsedFrom parse position raws = .ok page) :
    page.offset = position + extent raws ∧ List.Forall₂ (fun raw event => parse raw = some event) raws page.events := by
  induction raws generalizing position page with
  | nil =>
      cases h
      exact ⟨rfl, List.Forall₂.nil⟩
  | cons raw raws ih =>
      rw [parsedFrom] at h
      cases hevent : parse raw with
      | none =>
          rw [hevent] at h
          cases h
      | some event =>
          rw [hevent] at h
          cases hrest : parsedFrom parse (position + raw.length + 1) raws with
          | error place =>
              rw [hrest] at h
              cases h
          | ok rest =>
              rw [hrest] at h
              cases h
              obtain ⟨hoffset, hevents⟩ := ih hrest
              have hextent : position + raw.length + 1 + extent raws = position + extent (raw :: raws) := by
                rw [extent]
                omega
              exact ⟨hoffset.trans hextent, List.Forall₂.cons hevent hevents⟩

/-- What has been read of a file: an event for each of its complete lines, up to where they end. -/
structure ReadUpTo (parse : Bytes → Option ε) (data : Bytes) (events : List ε) (offset : ℕ) : Prop where
  offset : offset = ended 10 data
  events : List.Forall₂ (fun line event => parse line = some event) (completeLines 10 data) events

/-- A read of what a file has grown to, from where it was read up to. -/
theorem ReadUpTo.readOn {kept : List ε × ℕ} (h : ReadUpTo parse before events offset) (hgrown : before <+: data)
    (hblank : ¬ Blank 10 (data.drop offset)) (hread : readOn parse (events, offset) data = some kept) :
    ReadUpTo parse data kept.1 kept.2 := by
  obtain ⟨more, rfl⟩ := hgrown
  obtain ⟨hclosed, htorn⟩ := closed_ended 10 before
  have hoffset := h.offset
  set head := before.take (ended 10 before) with hhead
  set tail := before.drop (ended 10 before) with htail
  have hbefore : before = head ++ tail := (List.take_append_drop _ _).symm
  have hlength : head.length = offset := by
    rw [hhead, List.length_take, hoffset, Nat.min_eq_left ended_le]
  have hdata : before ++ more = head ++ (tail ++ more) := by rw [hbefore, List.append_assoc]
  have hrest : (before ++ more).drop offset = tail ++ more := by rw [hdata, List.drop_left' hlength]
  have hlines : completeLines 10 before = completeLines 10 head := by
    rw [hbefore, completeLines_append hclosed, completeLines_torn htorn, List.append_nil]
  rw [hrest] at hblank
  obtain ⟨hread', hextent⟩ := linesOf_eq hblank
  unfold Events.readOn Events.read at hread
  rw [hrest] at hread
  cases hpage : parsedFrom parse offset (linesOf 10 (tail ++ more)) with
  | error place =>
      rw [hpage] at hread
      cases hread
  | ok page =>
      rw [hpage] at hread
      cases hread
      obtain ⟨hstop, hevents⟩ := parsedFrom_ok hpage
      refine ⟨?_, ?_⟩
      · rw [hstop, hextent, hdata, ended_append hclosed, hlength]
      · rw [hdata, completeLines_append hclosed]
        refine List.rel_append ?_ (hread' ▸ hevents)
        exact hlines ▸ h.events

/-- A lone blank line is passed over without a word. -/
theorem readOn_blank (h : Blank 10 (data.drop offset)) : readOn parse (events, offset) data = some (events, offset) := by
  simp only [Events.readOn, Events.read, (linesOf_blank h).1, parsedFrom, List.append_nil]

theorem follow_snoc (files : List Bytes) (data : Bytes) :
    follow parse (files ++ [data]) = (follow parse files).bind fun kept => readOn parse kept data := by
  simp only [follow, List.foldlM_append, List.foldlM_cons, List.foldlM_nil, bind_pure, Option.bind_eq_bind]

/-- Reads of a growing file that follow each other find every complete line once and in order, each ending where the
last complete line does, exactly when none of them starts at a blank line with no complete line behind it. -/
theorem follow_lines_iff (parse : Bytes → Option ε) (files : List Bytes) (hgrows : files.Pairwise (· <+: ·)) :
    (∀ (earlier : List Bytes) (data : Bytes), earlier ++ [data] <+: files → ∀ events offset,
        follow parse (earlier ++ [data]) = some (events, offset) → offset = ended 10 data ∧
          List.Forall₂ (fun line event => parse line = some event) (completeLines 10 data) events) ↔
      ∀ (earlier : List Bytes) (data : Bytes), earlier ++ [data] <+: files → ∀ events offset,
        follow parse earlier = some (events, offset) → ¬ Blank 10 (data.drop offset) := by
  constructor
  · intro hfound earlier data hdata events offset hfollow hblank
    have hnext : follow parse (earlier ++ [data]) = some (events, offset) := by
      rw [follow_snoc, hfollow, Option.bind_some, readOn_blank hblank]
    obtain ⟨hoffset, -⟩ := hfound earlier data hdata events offset hnext
    obtain ⟨tail, htail⟩ : ∃ tail, data.drop offset = 10 :: tail := by
      obtain ⟨hhead, -⟩ := hblank
      cases hrest : data.drop offset with
      | nil =>
          rw [hrest] at hhead
          cases hhead
      | cons byte tail =>
          rw [hrest] at hhead
          exact ⟨tail, by rw [Option.some.inj hhead]⟩
    have hsplit : data = data.take offset ++ 10 :: tail := by rw [← htail, List.take_append_drop]
    have hlength : (data.take offset).length = offset := by
      rw [List.length_take]
      have hlonger : (data.drop offset).length = tail.length + 1 := by rw [htail, List.length_cons]
      rw [List.length_drop] at hlonger
      omega
    have hpast := le_ended hsplit
    omega
  · intro hclear
    have hall : ∀ earlier, earlier <+: files → ∀ events offset, follow parse earlier = some (events, offset) →
        ReadUpTo parse (earlier.getLast?.getD []) events offset := by
      intro earlier
      induction earlier using List.reverseRecOn with
      | nil =>
          rintro - events offset hfollow
          cases hfollow
          exact ⟨rfl, List.Forall₂.nil⟩
      | append_singleton earlier data ih =>
          intro hdata events offset hfollow
          rw [follow_snoc, Option.bind_eq_some_iff] at hfollow
          obtain ⟨⟨events', offset'⟩, hbefore, hread⟩ := hfollow
          have hearlier := ih ((List.prefix_append _ _).trans hdata) events' offset' hbefore
          have hgrown : earlier.getLast?.getD [] <+: data := by
            have hpairs := hgrows.sublist hdata.sublist
            cases earlier using List.reverseRecOn with
            | nil => exact List.nil_prefix
            | append_singleton earlier last =>
                rw [List.getLast?_concat, Option.getD_some]
                exact (List.pairwise_append.mp hpairs).2.2 last (List.mem_append_right _ (List.mem_singleton_self _))
                  data (List.mem_singleton_self _)
          rw [List.getLast?_concat, Option.getD_some]
          exact hearlier.readOn hgrown (hclear earlier data hdata events' offset' hbefore) hread
    intro earlier data hdata events offset hfollow
    have hread := hall _ hdata events offset hfollow
    rw [List.getLast?_concat, Option.getD_some] at hread
    exact ⟨hread.offset, hread.events⟩

end Reading

section Spool

variable {ν : Type} (codec : Codec ν)

/-- The event on a spool line's bytes. -/
def parsedLine (raw : Bytes) : Option (Event ν) := (decode raw).bind (Event.parse codec)

/-- Reads of a growing spool file that follow each other find every complete line once and in order, each ending where
the last complete line does, exactly when none of them starts at a blank line with no complete line behind it. -/
theorem follow_iff (codec : Codec ν) (files : List Bytes) (hgrows : files.Pairwise (· <+: ·)) :
    (∀ (earlier : List Bytes) (data : Bytes), earlier ++ [data] <+: files → ∀ events offset,
        follow (parsedLine codec) (earlier ++ [data]) = some (events, offset) → offset = ended 10 data ∧
          List.Forall₂ (fun line event => parsedLine codec line = some event) (completeLines 10 data) events) ↔
      ∀ (earlier : List Bytes) (data : Bytes), earlier ++ [data] <+: files → ∀ events offset,
        follow (parsedLine codec) earlier = some (events, offset) → ¬ Blank 10 (data.drop offset) :=
  follow_lines_iff (parsedLine codec) files hgrows

/-- The bytes of one spool line. -/
def spoolLine : Bytes := Analysis.utf8 (Event.singleLine "\x7b\"intValue\":\"5\"\x7d")

def spoolCodec : Codec ℕ := Event.libraryOf "\x7b\"intValue\":\"5\"\x7d" Event.counted

/-- A line read when it is whole, and before. -/
theorem follow_torn :
    (∀ (earlier : List Bytes) (data : Bytes), earlier ++ [data] <+: [spoolLine, spoolLine ++ [10]] → ∀ events offset,
        follow (parsedLine spoolCodec) (earlier ++ [data]) = some (events, offset) → offset = ended 10 data ∧
          List.Forall₂ (fun line event => parsedLine spoolCodec line = some event) (completeLines 10 data) events) ↔
      ∀ (earlier : List Bytes) (data : Bytes), earlier ++ [data] <+: [spoolLine, spoolLine ++ [10]] → ∀ events offset,
        follow (parsedLine spoolCodec) earlier = some (events, offset) → ¬ Blank 10 (data.drop offset) :=
  follow_iff spoolCodec [spoolLine, spoolLine ++ [10]] (List.pairwise_pair.mpr (List.prefix_append _ _))

/-- A blank line is neither read nor refused, and the next read starts before it again. -/
theorem follow_fails : ¬ ∀ files : List Bytes, files.Pairwise (· <+: ·) →
    ∀ (earlier : List Bytes) (data : Bytes), earlier ++ [data] <+: files → ∀ events offset,
      follow (parsedLine spoolCodec) (earlier ++ [data]) = some (events, offset) → offset = ended 10 data ∧
        List.Forall₂ (fun line event => parsedLine spoolCodec line = some event) (completeLines 10 data) events := by
  intro hall
  have hclear := (follow_lines_iff (parsedLine spoolCodec) [[10]] (List.pairwise_singleton _ _)).mp
    (hall _ (List.pairwise_singleton _ _)) [] [10] (List.prefix_refl _) [] 0 rfl
  exact hclear ⟨rfl, List.not_mem_nil⟩

end Spool

end Mainboard.Events
