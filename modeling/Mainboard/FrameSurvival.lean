import Mainboard.Grouping
import Mainboard.ReceiptFrames
import Mainboard.TextBytes

/-! What a frame's receipts come to in the log around it. The frame's own lines stay lines wherever it stands, so the
last frame is the one read and none of it is printed; but the harvest reads lines where the writer of a receipt wrote
text, and hands padding it did not check to a decoder that raises. -/

namespace Mainboard.Evidence

open Analysis (Text Bytes textLines breaksLine utf8)
open Analysis.Sealed (isSpace)

variable {text line log payload : Text} {lines more : List Text} {data : Bytes}

/-! A frame's own lines -/

theorem breaksLine_space {char : Char} (h : isSpace char = false) : breaksLine char = false := by
  unfold isSpace at h
  unfold breaksLine
  simp only [Bool.or_eq_false_iff, Bool.and_eq_false_iff, decide_eq_false_iff_not, beq_eq_false_iff_ne] at h ⊢
  omega

/-- A text with no blank in it is what stripping leaves. -/
theorem strip_solid (h : ∀ char ∈ text, isSpace char = false) : strip text = text :=
  strip_eq_self_iff.mpr
    ⟨fun char hchar => h char (List.mem_of_head? hchar), fun char hchar => h char (List.mem_of_getLast? hchar)⟩

theorem chunks_flatten (payload : Text) : (chunks payload).flatten = payload := by
  unfold chunks
  rw [Grouping.pieces_flatten]
  refine List.take_of_length_le ?_
  unfold chunkWidth
  omega

theorem mem_chunk {chunk : Text} (h : chunk ∈ chunks payload) {char : Char} (hchar : char ∈ chunk) : char ∈ payload := by
  rw [← chunks_flatten payload]
  exact List.mem_flatten.mpr ⟨chunk, h, hchar⟩

/-- Base64 has no blank in it, and no hyphen. -/
theorem encoded_char {char : Char} (h : char ∈ Base64.encode data) : isSpace char = false ∧ char ≠ '-' := by
  have hall : Base64.alphabet.all fun char => !isSpace char && char != '-' := by decide +kernel
  rcases Base64.encode_chars data char h with rfl | hletter
  · exact ⟨by decide, by decide⟩
  · unfold Base64.isLetter Base64.value at hletter
    have hboth := List.all_eq_true.mp hall char (List.isSome_idxOf?.mp hletter)
    simpa using hboth

theorem frame_solid (hline : line ∈ frameLines (Base64.encode data)) : ∀ char ∈ line, isSpace char = false := by
  have hmarks : (beginMark ++ endMark ++ chunkMarker).all fun char => !isSpace char := by decide +kernel
  have hmark : ∀ char ∈ beginMark ++ endMark ++ chunkMarker, isSpace char = false := fun char hchar => by
    simpa using List.all_eq_true.mp hmarks char hchar
  intro char hchar
  unfold frameLines at hline
  rcases List.mem_cons.mp hline with rfl | hline
  · exact hmark char (List.mem_append_left _ (List.mem_append_left _ hchar))
  · rcases List.mem_append.mp hline with hline | hline
    · obtain ⟨chunk, hchunk, rfl⟩ := List.mem_map.mp hline
      rcases List.mem_append.mp hchar with hchar | hchar
      · exact hmark char (List.mem_append_right _ hchar)
      · exact (encoded_char (mem_chunk hchunk hchar)).1
    · rw [List.mem_singleton.mp hline] at hchar
      exact hmark char (List.mem_append_left _ (List.mem_append_right _ hchar))

theorem frame_unbroken (hline : line ∈ frameLines (Base64.encode data)) : ∀ char ∈ line, breaksLine char = false :=
  fun char hchar => breaksLine_space (frame_solid hline char hchar)

theorem joined_eq (lines : List Text) (first : Text) :
    ['\n'].intercalate (first :: lines) ++ ['\n'] = (first :: lines).flatMap (· ++ ['\n']) := by
  induction lines generalizing first with
  | nil => simp
  | cons second lines ih =>
      rw [List.intercalate_cons_cons, List.append_assoc, ih, List.flatMap_cons]
      simp

/-- A frame starts on a line of its own and ends its last one. -/
theorem framed_eq (data : Bytes) :
    framed data = '\n' :: (frameLines (Base64.encode data)).flatMap (· ++ ['\n']) := by
  unfold framed
  rw [joined_eq, List.flatMap_cons]
  rfl

theorem textLines_flatMap (h : ∀ line ∈ lines, ∀ char ∈ line, breaksLine char = false) (rest : Text) :
    textLines (lines.flatMap (· ++ ['\n']) ++ rest) = lines ++ textLines rest := by
  induction lines with
  | nil => rfl
  | cons first lines ih =>
      rw [List.flatMap_cons, List.append_assoc, List.append_assoc, List.singleton_append,
        Provenance.textLines_line (h first List.mem_cons_self), ih fun line hline => h line (List.mem_cons_of_mem _ hline)]
      rfl

theorem keptLines_flatMap (h : ∀ line ∈ lines, ∀ char ∈ line, breaksLine char = false) (rest : Text) :
    keptLines (lines.flatMap (· ++ ['\n']) ++ rest) = lines.map (· ++ ['\n']) ++ keptLines rest := by
  induction lines with
  | nil => rfl
  | cons first lines ih =>
      rw [List.flatMap_cons, List.append_assoc, List.append_assoc, List.singleton_append,
        keptLines_line (h first List.mem_cons_self), ih fun line hline => h line (List.mem_cons_of_mem _ hline)]
      rfl

/-- The lines of a log with a frame in it. -/
theorem textLines_framed (before after : Text) (data : Bytes) :
    textLines (before ++ framed data ++ after) =
      textLines (before ++ ['\n']) ++ (frameLines (Base64.encode data) ++ textLines after) := by
  rw [framed_eq, List.append_assoc, List.cons_append, textLines_append,
    textLines_flatMap fun line hline => frame_unbroken hline]

theorem keptLines_framed (before after : Text) (data : Bytes) :
    keptLines (before ++ framed data ++ after) =
      keptLines (before ++ ['\n']) ++ ((frameLines (Base64.encode data)).map (· ++ ['\n']) ++ keptLines after) := by
  rw [framed_eq, List.append_assoc, List.cons_append, keptLines_append,
    keptLines_flatMap fun line hline => frame_unbroken hline]

theorem stripped_framed (before after : Text) (data : Bytes) :
    stripped (before ++ framed data ++ after) =
      stripped (before ++ ['\n']) ++ (frameLines (Base64.encode data) ++ stripped after) := by
  have hframe : (frameLines (Base64.encode data)).map strip = frameLines (Base64.encode data) :=
    List.map_congr_left (fun line hline => strip_solid (frame_solid hline)) |>.trans (List.map_id _)
  unfold stripped
  rw [textLines_framed, List.map_append, List.map_append, hframe]

/-! The last whole frame -/

/-- What stands before some lines opens blocks that come after theirs. -/
theorem blocks_append (before lines : List Text) : ∃ more, blocks (before ++ lines) = blocks lines ++ more := by
  induction before with
  | nil => exact ⟨[], (List.append_nil _).symm⟩
  | cons line before ih =>
      obtain ⟨more, hmore⟩ := ih
      rw [List.cons_append, blocks, hmore, List.append_assoc]
      exact ⟨_, rfl⟩

theorem blocks_skip (h : ∀ line ∈ more, ¬ beginMark <:+ line) : blocks (more ++ lines) = blocks lines := by
  induction more with
  | nil => rfl
  | cons line more ih =>
      have hline : beginMark.isSuffixOf line = false :=
        Bool.eq_false_iff.mpr fun hends => h line List.mem_cons_self (List.isSuffixOf_iff_suffix.mp hends)
      rw [List.cons_append, blocks, hline, ih fun other hother => h other (List.mem_cons_of_mem _ hother)]
      simp

/-- A chunk line opens no block: what would be the mark's hyphens stands in a payload without any. -/
theorem chunk_not_begin {chunk : Text} (h : ∀ char ∈ chunk, char ≠ '-') : ¬ beginMark <:+ chunkMarker ++ chunk := by
  intro hends
  have hmarker : chunkMarker = "mainboard-receipt".toList ++ [':'] := by decide +kernel
  have htail : ':' :: chunk <:+ chunkMarker ++ chunk := ⟨"mainboard-receipt".toList, by rw [hmarker]; simp⟩
  have hhyphen : '-' ∈ beginMark := by decide +kernel
  have hcolon : ':' ∉ beginMark := by decide +kernel
  rcases List.suffix_or_suffix_of_suffix hends htail with hinside | hinside
  · rcases List.mem_cons.mp (hinside.subset hhyphen) with hsame | hchunk
    · exact absurd hsame (by decide)
    · exact h '-' hchunk rfl
  · exact hcolon (hinside.subset List.mem_cons_self)

theorem payloadOf_frame (payload : Text) (rest : List Text) :
    payloadOf ((chunks payload).map (chunkMarker ++ ·) ++ endMark :: rest) = payload := by
  have hend : chunkMarker.isPrefixOf endMark = false := by decide +kernel
  have hmarked : ∀ line ∈ (chunks payload).map (chunkMarker ++ ·), chunkMarker.isPrefixOf line = true := by
    intro line hline
    obtain ⟨chunk, -, rfl⟩ := List.mem_map.mp hline
    exact List.isPrefixOf_iff_prefix.mpr (List.prefix_append _ _)
  have hnot : ∀ line ∈ (chunks payload).map (chunkMarker ++ ·), decide (line ≠ endMark) = true := by
    intro line hline
    rw [decide_eq_true_eq]
    rintro rfl
    rw [hmarked _ hline] at hend
    exact Bool.noConfusion hend
  unfold payloadOf
  rw [List.takeWhile_append_of_pos hnot, List.takeWhile_cons, if_neg (by simp), List.append_nil,
    List.filter_eq_self.mpr hmarked, List.flatMap_map]
  simp only [List.drop_left']
  rw [List.flatMap_id', chunks_flatten]

/-- The frame's own block comes right after those of what follows it. -/
theorem blocks_framed (before after : Text) (data : Bytes) :
    ∃ more, blocks (stripped (before ++ framed data ++ after)) =
      blocks (stripped after) ++ Base64.encode data :: more := by
  rw [stripped_framed]
  obtain ⟨more, hmore⟩ := blocks_append (stripped (before ++ ['\n']))
    (frameLines (Base64.encode data) ++ stripped after)
  refine ⟨more, hmore.trans ?_⟩
  have hend : ¬ beginMark <:+ endMark := by decide +kernel
  have hskip : blocks ((chunks (Base64.encode data)).map (chunkMarker ++ ·) ++ endMark :: stripped after) =
      blocks (stripped after) := by
    rw [← List.singleton_append, ← List.append_assoc]
    refine blocks_skip fun line hline => ?_
    rcases List.mem_append.mp hline with hline | hline
    · obtain ⟨chunk, hchunk, rfl⟩ := List.mem_map.mp hline
      exact chunk_not_begin fun char hchar => (encoded_char (mem_chunk hchunk hchar)).2
    · rw [List.mem_singleton.mp hline]
      exact hend
  have hbegin : beginMark.isSuffixOf beginMark = true := List.isSuffixOf_iff_suffix.mpr List.suffix_rfl
  have hends : ((chunks (Base64.encode data)).map (chunkMarker ++ ·) ++ endMark :: stripped after).any (· = endMark) := by
    simp
  unfold frameLines
  rw [List.cons_append, List.append_assoc, List.singleton_append, blocks, hskip, hbegin, hends, payloadOf_frame]
  simp

theorem whole_encode (h : data ≠ []) : whole (Base64.encode data) = true := by
  have hne : Base64.encode data ≠ [] := fun hnil => h (Base64.encode_eq_nil.mp hnil)
  unfold whole
  simp only [hne, Base64.length_encode, ne_eq, not_false_eq_true, decide_true, Bool.true_and, List.all_eq_true,
    Bool.or_eq_true, decide_eq_true_eq]
  exact Base64.encode_chars data

theorem carried_encode (text : Text) : carried (Base64.encode (utf8 text)) = some text := by
  unfold carried decodeReplacing
  rw [Base64.decode_encode, Option.map_some, Analysis.decode_utf8, Option.getD_some]

theorem utf8_inj {text other : Text} (h : utf8 text = utf8 other) : text = other := by
  have hdecoded := congrArg Analysis.decode h
  rw [Analysis.decode_utf8, Analysis.decode_utf8] at hdecoded
  exact Option.some.inj hdecoded

/-- No block of a text is one the harvest would read. -/
def NoFrame (log : Text) : Prop := ∀ payload ∈ blocks (stripped log), whole payload = false

instance (log : Text) : Decidable (NoFrame log) := inferInstanceAs (Decidable (∀ payload ∈ blocks (stripped log), _))

/-- Whatever a log holds before it, the last whole frame is the one read. -/
theorem unframed_framed (before : Text) {receipts after : Text} (hne : receipts ≠ []) (hafter : NoFrame after) :
    unframed (before ++ framed (utf8 receipts) ++ after) = some receipts := by
  obtain ⟨more, hmore⟩ := blocks_framed before after (utf8 receipts)
  have hdata : utf8 receipts ≠ [] := fun hnil => hne (utf8_inj (hnil.trans Analysis.utf8_nil.symm))
  have hnone : (blocks (stripped after)).find? whole = none :=
    List.find?_eq_none.mpr fun payload hpayload => by rw [hafter payload hpayload]; exact Bool.false_ne_true
  unfold unframed
  rw [hmore, List.find?_append, hnone, List.find?_cons, whole_encode hdata]
  exact carried_encode receipts

/-! Receipts through a frame -/

theorem mem_receiptsOf : line ∈ receiptsOf lines ↔ ∃ raw ∈ lines, holds receiptMark raw = true ∧ strip raw = line ∧ line ≠ [] := by
  unfold receiptsOf
  simp only [List.mem_map, List.mem_filter, Bool.and_eq_true, decide_eq_true_eq]
  constructor
  · rintro ⟨raw, ⟨hraw, hholds, hne⟩, rfl⟩
    exact ⟨raw, hraw, hholds, rfl, hne⟩
  · rintro ⟨raw, hraw, hholds, rfl, hne⟩
    exact ⟨raw, ⟨hraw, hholds, hne⟩, rfl⟩

theorem mem_gathered : line ∈ gathered text log ↔ line ∈ receiptsOf (textLines text) ∨ line ∈ receiptsOf (textLines log) := by
  unfold gathered
  rw [List.mem_eraseDups]
  unfold receiptsOf
  rw [List.filter_append, List.map_append, List.mem_append]

/-- The receipt lines of a receipts text, as its writer ends them. -/
def receiptLines (receipts : Text) : List Text := (receipts.splitOn '\n').filter (holds receiptMark)

/-- A line with no line end of another kind in it, and no blanks around it. -/
def Clean (line : Text) : Prop := (∀ char ∈ line, breaksLine char = false) ∧ strip line = line

theorem clean_iff : Clean line ↔ (line.all fun char => !breaksLine char) = true ∧ strip line = line := by
  simp [Clean]

instance : DecidablePred Clean := fun _ => decidable_of_iff _ clean_iff.symm

/-- What is gathered is clean. -/
theorem clean_of_mem_receiptsOf (h : line ∈ receiptsOf (textLines text)) : Clean line := by
  obtain ⟨raw, hraw, -, rfl, -⟩ := mem_receiptsOf.mp h
  exact ⟨fun char hchar => textLines_unbroken hraw char (strip_sublist.subset hchar), strip_strip raw⟩

/-- A receipt line is gathered verbatim exactly where it is clean. -/
theorem mem_gathered_iff (h : line ∈ receiptLines text) : line ∈ gathered text log ↔ Clean line := by
  constructor
  · intro hmem
    rcases mem_gathered.mp hmem with hmem | hmem <;> exact clean_of_mem_receiptsOf hmem
  · rintro ⟨hunbroken, hstrip⟩
    obtain ⟨hsplit, hholds⟩ := List.mem_filter.mp h
    have hne : line ≠ [] := by
      rintro rfl
      rw [holds_nil (by decide)] at hholds
      exact Bool.noConfusion hholds
    exact mem_gathered.mpr (Or.inl (mem_receiptsOf.mpr
      ⟨line, mem_textLines hunbroken hne hsplit, hholds, hstrip, hne⟩))

theorem isFrameLine_frame (hline : line ∈ frameLines payload) : isFrameLine (line ++ ['\n']) = true := by
  have hbegin : isFrameLine (beginMark ++ ['\n']) = true := by decide +kernel
  have hend : isFrameLine (endMark ++ ['\n']) = true := by decide +kernel
  have hmarker : chunkMarker.dropWhile isSpace = chunkMarker ∧ chunkMarker ≠ [] := by decide +kernel
  unfold frameLines at hline
  rcases List.mem_cons.mp hline with rfl | hline
  · exact hbegin
  · rcases List.mem_append.mp hline with hline | hline
    · obtain ⟨chunk, -, rfl⟩ := List.mem_map.mp hline
      have hlead : (chunkMarker ++ chunk ++ ['\n']).dropWhile isSpace = chunkMarker ++ chunk ++ ['\n'] := by
        rw [List.append_assoc, List.dropWhile_append, hmarker.1, if_neg (by simpa using hmarker.2)]
      unfold isFrameLine
      rw [hlead, List.append_assoc, List.isPrefixOf_iff_prefix.mpr (List.prefix_append _ _), Bool.or_true]
    · rw [List.mem_singleton.mp hline]
      exact hend

/-- The frame's own lines, and only they, are dropped between what stands before and after it. -/
theorem printed_framed (before after : Text) (data : Bytes) :
    printed (before ++ framed data ++ after) =
      unbeaconed ((keptLines (before ++ ['\n']) ++ keptLines after).filter fun line => !isFrameLine line).flatten := by
  have hdropped : ((frameLines (Base64.encode data)).map (· ++ ['\n'])).filter (fun line => !isFrameLine line) = [] := by
    rw [List.filter_eq_nil_iff]
    intro line hline
    obtain ⟨mark, hmark, rfl⟩ := List.mem_map.mp hline
    rw [isFrameLine_frame hmark]
    exact Bool.noConfusion
  unfold printed
  rw [keptLines_framed, List.filter_append, List.filter_append, List.filter_append, hdropped, List.nil_append]

/-- How receipts come through the log they are framed into: read whole and verbatim before anything else framed there,
with nothing of the frame printed and nothing else dropped for it. -/
structure Survives (before receipts after : Text) : Prop where
  read : ∃ found, receiptsIn (before ++ framed (utf8 receipts) ++ after) = some found ∧
    found = gathered receipts (before ++ framed (utf8 receipts) ++ after) ∧ ∀ line ∈ receiptLines receipts, line ∈ found
  dropped : printed (before ++ framed (utf8 receipts) ++ after) =
    unbeaconed ((keptLines (before ++ ['\n']) ++ keptLines after).filter fun line => !isFrameLine line).flatten

theorem survives_iff_clean {before receipts after : Text} (hne : receipts ≠ []) (hafter : NoFrame after) :
    Survives before receipts after ↔ ∀ line ∈ receiptLines receipts, Clean line := by
  have hread : receiptsIn (before ++ framed (utf8 receipts) ++ after) =
      some (gathered receipts (before ++ framed (utf8 receipts) ++ after)) := by
    rw [receiptsIn, unframed_framed before hne hafter, Option.map_some]
  constructor
  · rintro ⟨⟨found, hfound, -, hall⟩, -⟩ line hline
    rw [hread, Option.some.injEq] at hfound
    subst hfound
    exact (mem_gathered_iff hline).mp (hall line hline)
  · intro hclean
    exact ⟨⟨_, hread, rfl, fun line hline => (mem_gathered_iff hline).mpr (hclean line hline)⟩,
      printed_framed before after (utf8 receipts)⟩

/-- A frame survives its log exactly where every receipt line of what it carries is clean: a line end of another kind
inside a line splits it, and blanks around it are lost. -/
theorem framed_survives_iff {before receipts after : Text} (hne : receipts ≠ []) (hafter : NoFrame after) :
    Survives before receipts after ↔ ∀ line ∈ receiptLines receipts, Clean line :=
  survives_iff_clean hne hafter

theorem framed_survives_iff_job : Survives "ok\n".toList "\x7b\"trial_receipt\": 1\x7d\n".toList "bye\n".toList :=
  (framed_survives_iff (by decide +kernel) (by decide +kernel)).mpr (by decide +kernel)

/-- A receipt whose text holds a line separator comes back in two pieces. -/
theorem framed_survives_fails : "\x7b\"trial_receipt\": \"a\u2028b\"\x7d\n".toList ≠ [] ∧ NoFrame "bye\n".toList ∧
    ¬ Survives "ok\n".toList "\x7b\"trial_receipt\": \"a\u2028b\"\x7d\n".toList "bye\n".toList := by
  have hne : "\x7b\"trial_receipt\": \"a\u2028b\"\x7d\n".toList ≠ [] := by decide +kernel
  have hafter : NoFrame "bye\n".toList := by decide +kernel
  refine ⟨hne, hafter, fun hsurvives => ?_⟩
  have hnot : ¬ ∀ line ∈ receiptLines "\x7b\"trial_receipt\": \"a\u2028b\"\x7d\n".toList, Clean line := by decide +kernel
  exact hnot ((survives_iff_clean hne hafter).mp hsurvives)

/-! Reading any log -/

/-- A block of a log that is well formed: whole quanta of base64, padded at the end alone. -/
def sound (payload : Text) : Bool := payload ≠ [] && Base64.padded payload

/-- The receipts one payload carries, none where it cannot be decoded. -/
def receiptsFrom (payload : Text) : List Text := receiptsOf (textLines ((carried payload).getD []))

/-- The receipts of a log's last well-formed block. -/
def soundReceipts (log : Text) : List Text :=
  match (blocks (stripped log)).find? sound with
  | none => []
  | some payload => receiptsFrom payload

/-- How a log is read whatever its blocks are: without an exception, with every receipt line printed in it and every
receipt of its last well-formed block. -/
def Tolerant (log : Text) : Prop :=
  ∃ found, receiptsIn log = some found ∧ (∀ line ∈ receiptsOf (textLines log), line ∈ found) ∧
    ∀ line ∈ soundReceipts log, line ∈ found

theorem whole_of_sound (h : sound payload = true) : whole payload = true := by
  unfold sound at h
  rw [Bool.and_eq_true] at h
  have hlength : payload.length % 4 = 0 := by
    have hpadded := h.2
    unfold Base64.padded at hpadded
    simp only [Bool.and_eq_true, decide_eq_true_eq] at hpadded
    exact hpadded.1
  unfold whole
  rw [h.1, hlength, List.all_eq_true.mpr fun char hchar => by
    rw [Bool.or_eq_true, decide_eq_true_eq]
    exact Base64.padded_chars h.2 char hchar]
  rfl

theorem sound_iff (h : whole payload = true) : sound payload = true ↔ Base64.padded payload = true := by
  unfold whole at h
  simp only [Bool.and_eq_true] at h
  unfold sound
  rw [h.1.1, Bool.true_and]

theorem readable_iff (h : whole payload = true) : (carried payload).isSome ↔ Base64.Readable payload := by
  unfold whole at h
  simp only [Bool.and_eq_true, List.all_eq_true, Bool.or_eq_true, decide_eq_true_eq] at h
  unfold carried
  rw [Option.isSome_map, Base64.decode_isSome_iff h.2]

/-- The last whole block is the last well-formed one, where it is padded as it should be. -/
theorem find?_sound {found : List Text} (h : found.find? whole = some payload) (hpadded : Base64.padded payload = true) :
    found.find? sound = some payload := by
  obtain ⟨hwhole, before, after, rfl, hbefore⟩ := List.find?_eq_some_iff_append.mp h
  refine List.find?_eq_some_iff_append.mpr ⟨(sound_iff hwhole).mpr hpadded, before, after, rfl, fun other hother => ?_⟩
  have hnot := hbefore other hother
  rw [Bool.not_eq_true'] at hnot ⊢
  exact Bool.eq_false_iff.mpr fun hsound => by
    rw [whole_of_sound hsound] at hnot
    exact Bool.noConfusion hnot

/-- With no whole block there is no well-formed one. -/
theorem soundReceipts_none (h : (blocks (stripped log)).find? whole = none) : soundReceipts log = [] := by
  have hnone : (blocks (stripped log)).find? sound = none := List.find?_eq_none.mpr fun payload hpayload hsound =>
    List.find?_eq_none.mp h payload hpayload (whole_of_sound hsound)
  unfold soundReceipts
  rw [hnone]

/-- What stands in the way of a log's receipts: its last whole block, unless it is padded as it should be, or is read
all the same and leaves no receipt of the well-formed block above it unread. -/
def Harmless (log payload : Text) : Prop :=
  Base64.padded payload = true ∨ Base64.Readable payload ∧
    ∀ line ∈ soundReceipts log, line ∈ receiptsFrom payload ∨ line ∈ receiptsOf (textLines log)

theorem tolerant_of_none (h : (blocks (stripped log)).find? whole = none) : Tolerant log := by
  refine ⟨gathered [] log, ?_, fun line hline => mem_gathered.mpr (Or.inr hline), ?_⟩
  · unfold receiptsIn unframed
    rw [h, Option.map_some]
  · rw [soundReceipts_none h]
    exact fun _ hline => absurd hline List.not_mem_nil

theorem tolerant_iff_harmless (h : (blocks (stripped log)).find? whole = some payload) :
    Tolerant log ↔ Harmless log payload := by
  have hwhole := List.find?_some h
  have hread : receiptsIn log = (carried payload).map fun text => gathered text log := by
    unfold receiptsIn unframed
    rw [h]
  unfold Tolerant Harmless
  rw [hread]
  constructor
  · rintro ⟨found, hfound, -, hsound⟩
    obtain ⟨text, htext, rfl⟩ := Option.map_eq_some_iff.mp hfound
    have hisSome : (carried payload).isSome := by rw [htext]; rfl
    refine Or.inr ⟨(readable_iff hwhole).mp hisSome, fun line hline => ?_⟩
    unfold receiptsFrom
    rw [htext]
    exact mem_gathered.mp (hsound line hline)
  · intro hharmless
    have hreadable : Base64.Readable payload := hharmless.elim Base64.readable_of_padded And.left
    obtain ⟨text, htext⟩ := Option.isSome_iff_exists.mp ((readable_iff hwhole).mpr hreadable)
    rw [htext]
    refine ⟨_, rfl, fun line hline => mem_gathered.mpr (Or.inr hline), fun line hline => mem_gathered.mpr ?_⟩
    have hfrom : receiptsFrom payload = receiptsOf (textLines text) := by
      unfold receiptsFrom
      rw [htext]
      rfl
    rw [← hfrom]
    rcases hharmless with hpadded | ⟨-, hall⟩
    · unfold soundReceipts at hline
      rw [find?_sound h hpadded] at hline
      exact Or.inl hline
    · exact hall line hline

/-- Reading receipts tolerates a log exactly where its last block to pass the checks is harmless: the checks count
characters, and leave the padding to a decoder that raises on it. -/
theorem receiptsIn_tolerant_iff (log : Text) :
    Tolerant log ↔ ∀ payload, (blocks (stripped log)).find? whole = some payload → Harmless log payload := by
  cases h : (blocks (stripped log)).find? whole with
  | none => exact iff_of_true (tolerant_of_none h) fun _ hnone => by cases hnone
  | some payload =>
      rw [tolerant_iff_harmless h]
      exact ⟨fun hharmless other hother => Option.some.inj hother ▸ hharmless, fun hall => hall payload rfl⟩

/-- A printed receipt, then a block of one letter and three pads: nothing is returned. -/
theorem receiptsIn_tolerant_fails :
    receiptsIn "trial_receipt\nmainboard-receipts-begin\nmainboard-receipt:A===\nmainboard-receipts-end\n".toList = none ∧
      ¬ Tolerant "trial_receipt\nmainboard-receipts-begin\nmainboard-receipt:A===\nmainboard-receipts-end\n".toList := by
  have hnone : receiptsIn
      "trial_receipt\nmainboard-receipts-begin\nmainboard-receipt:A===\nmainboard-receipts-end\n".toList = none := by
    decide +kernel
  refine ⟨hnone, ?_⟩
  rintro ⟨found, hfound, -⟩
  rw [hnone] at hfound
  cases hfound

end Mainboard.Evidence
