import Mainboard.ListReading
import Mainboard.ReceiptFrames

/-! The trailers of a commit message: the block of `Token: value` lines that ends it, the identities mb appends to that
block, and the identities it reads back from one. -/

namespace Mainboard.Identity

open Analysis (Text)
open Analysis.Sealed (isSpace)
open Evidence (strip strip_eq_self_iff strip_strip)

/-- One identity, by the field name it has. -/
inductive Key where
  | host | job | object | previous_session | revision | session | workspace
  deriving DecidableEq

/-- The member's name. -/
def Key.name : Key → Text
  | .host => "host".toList
  | .job => "job".toList
  | .object => "object".toList
  | .previous_session => "previous_session".toList
  | .revision => "revision".toList
  | .session => "session".toList
  | .workspace => "workspace".toList

/-- The members, in the order they are declared. -/
def Key.all : List Key := [.host, .job, .object, .previous_session, .revision, .session, .workspace]

/-- `str.capitalize`, of a name. -/
def capitalize : Text → Text
  | [] => []
  | char :: rest => char.toUpper :: rest.map Char.toLower

/-- The Git trailer token, `Mb-Session` for `session`. -/
def Key.trailer (key : Key) : Text := "Mb-".toList ++ ['-'].intercalate ((key.name.splitOn '_').map capitalize)

/-- The key a trailer token spells, in any case. -/
def Key.parsed (token : Text) : Option Key :=
  Key.all.find? fun key => key.trailer.map Char.toLower == token.map Char.toLower

/-- One of `[ \t]`. -/
def isBlank (char : Char) : Bool := char == ' ' || char == '\t'

/-- One of U+001C to U+001F, which `str.isspace` counts and the `\s` of a pydantic pattern does not. -/
def isSeparator (char : Char) : Bool := 28 ≤ char.toNat && char.toNat ≤ 31

/-- `\s` in the pattern of a value. -/
def isWhite (char : Char) : Bool := isSpace char && !isSeparator char

/-- Whether a value matches `^\S(?:[^\r\n]*\S)?$`. -/
def isValue (value : Text) : Bool :=
  value.head?.any (!isWhite ·) && value.getLast?.any (!isWhite ·) && value.all fun char => char != '\r' && char != '\n'

/-- One `Mb-*` line of a commit message's trailer block. -/
structure Trailer where
  key : Key
  value : Text
  valid : isValue value = true
  deriving DecidableEq

namespace Trailer

/-- A trailer validated, nothing when its value is refused. -/
def made (key : Key) (value : Text) : Option Trailer := if h : isValue value = true then some ⟨key, value, h⟩ else none

def text (trailer : Trailer) : Text := trailer.key.trailer ++ ':' :: ' ' :: trailer.value

/-- The token and the value `_TRAILER` finds in a line. -/
def matched : Text → Option (Text × Text)
  | [] => none
  | char :: rest =>
      if char.isAlpha then
        match rest.dropWhile fun char => char.isAlphanum || char == '-' with
        | ':' :: value => some (char :: rest.takeWhile fun char => char.isAlphanum || char == '-', value.dropWhile isBlank)
        | _ => none
      else none

/-- Whether `_CONTINUATION` matches a line. -/
def continues (line : Text) : Bool := line.head?.any isBlank && (line.dropWhile isBlank).head?.any (!isSpace ·)

/-- The length of `\n[ \t]*\n` at the start of a text, none when it does not stand there. -/
def blank : Text → ℕ
  | '\n' :: rest => if (rest.dropWhile isBlank).head? = some '\n' then (rest.takeWhile isBlank).length + 2 else 0
  | _ => 0

/-- Where the last match of `_BLANK` ends: where the last blank line does. -/
def cut : Text → ℕ
  | [] => 0
  | char :: rest => if cut rest = 0 then blank (char :: rest) else cut rest + 1

/-- `message.rstrip("\n")`. -/
def body (message : Text) : Text := message.rdropWhile (· == '\n')

/-- A message as everything up to its last paragraph and that paragraph. -/
def split (message : Text) : Text × Text := ((body message).take (cut (body message)), (body message).drop (cut (body message)))

/-- Whether the last paragraph is a trailer block: not the subject, and only `Token: value` lines and lines that
continue one. -/
def isBlock (head tail : Text) : Bool :=
  head != [] && (tail.splitOn '\n').all fun line => (matched line).isSome || continues line

def append (message : Text) (trailers : List Trailer) : Text :=
  let head := (split message).1
  let tail := (split message).2
  let joint := if isBlock head tail then ['\n'] else ['\n', '\n']
  head ++ tail ++ joint ++ ['\n'].intercalate (trailers.map text) ++ ['\n']

/-- The lines of the trailer block a message has. -/
def blockLines (message : Text) : List Text :=
  if isBlock (split message).1 (split message).2 then (split message).2.splitOn '\n' else []

/-- The key and the value a line gives mb to read. -/
def keyed (line : Text) : Option (Key × Text) :=
  (matched line).bind fun found => (Key.parsed found.1).map fun key => (key, found.2)

/-- Every `Mb-*` trailer of a message, in order, or nothing where one is refused. -/
def read (message : Text) : Option (List Trailer) :=
  ((blockLines message).filterMap keyed).mapM fun found => made found.1 (strip found.2)

/-! The last blank line -/

section Cut

variable {text front : Text}

/-- Whether a front of a text is empty or ends with a blank line. -/
def Ended (front : Text) : Prop :=
  front = [] ∨ ∃ before blanks : Text, front = before ++ '\n' :: (blanks ++ ['\n']) ∧ blanks.all isBlank = true

theorem newline_not_mem {blanks : Text} (h : blanks.all isBlank = true) : '\n' ∉ blanks := fun hmem =>
  absurd (List.all_eq_true.mp h _ hmem) (by decide)

/-- A blank line at the start of a text is the first of its lines. -/
theorem blank_line (h : (text.dropWhile isBlank).head? = some '\n') :
    ∃ line ∈ text.splitOn '\n', line.all isBlank = true := by
  obtain ⟨after, hafter⟩ : ∃ after, text.dropWhile isBlank = '\n' :: after := by
    cases hdrop : text.dropWhile isBlank with
    | nil => rw [hdrop] at h; cases h
    | cons char after =>
        rw [hdrop, List.head?_cons, Option.some.injEq] at h
        exact ⟨after, by rw [h]⟩
  have htext : text = text.takeWhile isBlank ++ '\n' :: after := by rw [← hafter, List.takeWhile_append_dropWhile]
  have hblanks : (text.takeWhile isBlank).all isBlank = true := List.all_takeWhile
  have hsplit : text.splitOn '\n' = text.takeWhile isBlank :: after.splitOn '\n' := by
    conv_lhs => rw [htext]
    exact List.splitOn_append_cons_self_of_not_mem (newline_not_mem hblanks) after
  exact ⟨text.takeWhile isBlank, hsplit ▸ List.mem_cons_self, hblanks⟩

/-- No blank line ends in a text none of whose further lines is blank. -/
theorem cut_eq_zero (h : ∀ line ∈ (text.splitOn '\n').tail, line.all isBlank = false) : cut text = 0 := by
  induction text with
  | nil => rfl
  | cons char rest ih =>
      have hrest : ∀ line ∈ (rest.splitOn '\n').tail, line.all isBlank = false := by
        intro line hline
        refine h line ?_
        rw [List.splitOn_cons_eq_if_modifyHead]
        split
        · exact List.mem_of_mem_tail hline
        · rwa [List.tail_modifyHead]
      rw [cut, if_pos (ih hrest)]
      by_cases hchar : char = '\n'
      · subst hchar
        rw [blank, if_neg]
        intro hhead
        obtain ⟨line, hline, hblank⟩ := blank_line hhead
        rw [List.splitOn_cons_eq_if_modifyHead, if_pos (by decide), List.tail_cons] at h
        rw [h line hline] at hblank
        exact Bool.false_ne_true hblank
      · unfold blank
        split
        · next heq => exact absurd (List.cons.inj heq).1 hchar
        · rfl

theorem cut_append_cons (char : Char) (h : cut text ≠ 0) : cut (char :: text) = cut text + 1 := by
  rw [cut, if_neg h]

/-- The last blank line of a text stands before the lines after it. -/
theorem cut_append (hfront : Ended front) (h : ∀ line ∈ text.splitOn '\n', line.all isBlank = false) :
    cut (front ++ text) = front.length := by
  rcases hfront with rfl | ⟨before, blanks, rfl, hblanks⟩
  · exact cut_eq_zero fun line hline => h line (List.mem_of_mem_tail hline)
  · induction before with
    | nil =>
        have hrest : cut (blanks ++ '\n' :: text) = 0 := by
          refine cut_eq_zero fun line hline => h line ?_
          rwa [List.splitOn_append_cons_self_of_not_mem (newline_not_mem hblanks), List.tail_cons] at hline
        have hblank : ∀ char ∈ blanks, isBlank char = true := List.all_eq_true.mp hblanks
        have hdrop : (blanks ++ '\n' :: text).dropWhile isBlank = '\n' :: text := by
          rw [List.dropWhile_append_of_pos hblank]
          rfl
        have htake : (blanks ++ '\n' :: text).takeWhile isBlank = blanks := by
          rw [List.takeWhile_append_of_pos hblank]
          exact List.append_nil blanks
        have htext : [] ++ '\n' :: (blanks ++ ['\n']) ++ text = '\n' :: (blanks ++ '\n' :: text) := by simp
        rw [htext, cut, if_pos hrest, blank, hdrop, if_pos List.head?_cons, htake]
        simp
    | cons char before ih =>
        have hne : cut (before ++ '\n' :: (blanks ++ ['\n']) ++ text) ≠ 0 := by
          rw [ih, List.length_append, List.length_cons]
          omega
        rw [List.cons_append, List.cons_append, cut_append_cons char hne, ih, List.length_cons]

theorem blank_ended (h : blank text ≠ 0) : Ended (text.take (blank text)) := by
  unfold blank at h ⊢
  split at h
  · next rest =>
      by_cases hhead : (rest.dropWhile isBlank).head? = some '\n'
      · rw [if_pos hhead]
        obtain ⟨after, hafter⟩ := List.head?_eq_some_iff.mp hhead
        refine .inr ⟨[], rest.takeWhile isBlank, ?_, List.all_takeWhile⟩
        have hrest : rest = rest.takeWhile isBlank ++ '\n' :: after := by
          rw [← hafter, List.takeWhile_append_dropWhile]
        conv_lhs => rw [hrest]
        rw [List.takeWhile_append_of_pos (fun char hchar => List.all_eq_true.mp List.all_takeWhile char hchar)]
        simp [isBlank, List.take_append]
      · rw [if_neg hhead] at h
        exact absurd rfl h
  · exact absurd rfl h

/-- What stands before the cut is nothing, or ends with a blank line. -/
theorem cut_ended (text : Text) : Ended (text.take (cut text)) := by
  induction text with
  | nil => exact .inl rfl
  | cons char rest ih =>
      rw [cut]
      split
      · by_cases hblank : blank (char :: rest) = 0
        · rw [hblank]
          exact .inl rfl
        · exact blank_ended hblank
      · next hcut =>
          rw [List.take_succ_cons]
          rcases ih with hnil | ⟨before, blanks, hfront, hblanks⟩
          · rcases List.take_eq_nil_iff.mp hnil with hzero | hrest
            · exact absurd hzero hcut
            · rw [hrest] at hcut
              exact absurd rfl hcut
          · exact .inr ⟨char :: before, blanks, by rw [hfront]; rfl, hblanks⟩

end Cut

/-! The lines of a block -/

section Lines

variable {front tail line value : Text} {trailers : List Trailer} {message : Text}

/-- A line that belongs to a trailer block. -/
def belongs (line : Text) : Bool := (matched line).isSome || continues line

theorem belongs_not_blank (h : belongs line = true) : line.all isBlank = false := by
  refine Bool.eq_false_iff.mpr fun hall => ?_
  rw [List.all_eq_true] at hall
  rcases Bool.or_eq_true_iff.mp h with hmatched | hcontinues
  · cases line with
    | nil => exact Bool.false_ne_true hmatched
    | cons char rest =>
        have hblank := hall char List.mem_cons_self
        rw [matched, if_neg] at hmatched
        · exact Bool.false_ne_true hmatched
        · rcases Bool.or_eq_true_iff.mp hblank with hchar | hchar <;> rw [eq_of_beq hchar] <;> decide
  · have hnil : line.dropWhile isBlank = [] := List.dropWhile_eq_nil_iff.mpr hall
    rw [continues, hnil, List.head?_nil, Option.any_none, Bool.and_false] at hcontinues
    exact Bool.false_ne_true hcontinues

/-- A paragraph of such lines does not end with a line break. -/
theorem belongs_last (h : ∀ line ∈ tail.splitOn '\n', belongs line = true) :
    tail.rdropWhile (· == '\n') = tail := by
  refine List.rdropWhile_eq_self_iff.mpr fun hne hlast => ?_
  have htail : tail = tail.dropLast ++ '\n' :: [] := by
    conv_lhs => rw [← List.dropLast_append_getLast hne, eq_of_beq hlast]
  rw [htail, List.splitOn_append_cons_self, List.splitOn_nil] at h
  exact Bool.false_ne_true (h [] (List.mem_append_right _ List.mem_cons_self))

theorem belongs_ne_nil (h : ∀ line ∈ tail.splitOn '\n', belongs line = true) : tail ≠ [] := by
  rintro rfl
  exact Bool.false_ne_true (h [] List.mem_cons_self)

theorem body_append (front : Text) (hne : tail ≠ []) (hlast : tail.rdropWhile (· == '\n') = tail) :
    body (front ++ tail) = front ++ tail := by
  refine List.rdropWhile_eq_self_iff.mpr fun _ => ?_
  rw [List.getLast_append_of_right_ne_nil _ _ hne]
  exact List.rdropWhile_eq_self_iff.mp hlast hne

theorem body_newline (message : Text) : body (message ++ ['\n']) = body message :=
  List.rdropWhile_concat_pos _ _ _ rfl

theorem body_body (message : Text) : body (body message) = body message := List.rdropWhile_idempotent _ _

theorem blockLines_body (message : Text) : blockLines (body message) = blockLines message := by
  unfold blockLines split
  rw [body_body]

/-- A paragraph of such lines after a blank line is a trailer block, with these lines. -/
theorem blockLines_paragraph (hfront : Ended front) (hne : front ≠ [])
    (h : ∀ line ∈ tail.splitOn '\n', belongs line = true) : blockLines (front ++ tail) = tail.splitOn '\n' := by
  have hbody : body (front ++ tail) = front ++ tail := body_append front (belongs_ne_nil h) (belongs_last h)
  have hcut : cut (front ++ tail) = front.length := cut_append hfront fun line hline => belongs_not_blank (h line hline)
  have hsplit : split (front ++ tail) = (front, tail) := by
    rw [split, hbody, hcut, List.take_left, List.drop_left]
  have hblock : isBlock front tail = true := by
    rw [isBlock, Bool.and_eq_true]
    exact ⟨bne_iff_ne.mpr hne, List.all_eq_true.mpr h⟩
  rw [blockLines, hsplit, if_pos hblock]

/-- The lines of a block belong to it. -/
theorem blockLines_belongs (h : line ∈ blockLines message) : belongs line = true := by
  unfold blockLines at h
  split at h
  · next hblock =>
      rw [isBlock, Bool.and_eq_true] at hblock
      exact List.all_eq_true.mp hblock.2 line h
  · exact absurd h List.not_mem_nil

end Lines

/-! Appending -/

section Append

variable {key : Key} {value : Text} {trailer : Trailer} {trailers : List Trailer} {message : Text}

theorem isValue_head (h : isValue value = true) : ∃ char rest, value = char :: rest ∧ isWhite char = false := by
  cases value with
  | nil => exact absurd h (by decide)
  | cons char rest =>
      rw [isValue, Bool.and_eq_true, Bool.and_eq_true, List.head?_cons, Option.any_some, Bool.not_eq_true'] at h
      exact ⟨char, rest, rfl, h.1.1⟩

theorem isValue_line (h : isValue value = true) : '\n' ∉ value := by
  intro hmem
  rw [isValue, Bool.and_eq_true] at h
  exact absurd (List.all_eq_true.mp h.2 _ hmem) (by decide)

theorem blank_white {char : Char} (h : isBlank char = true) : isWhite char = true := by
  rcases Bool.or_eq_true_iff.mp h with hchar | hchar <;> rw [eq_of_beq hchar] <;> decide

theorem matched_token {char : Char} {token : Text} (hchar : char.isAlpha = true)
    (htoken : (token.all fun char => char.isAlphanum || char == '-') = true) (value : Text) :
    matched (char :: token ++ ':' :: value) = some (char :: token, value.dropWhile isBlank) := by
  have hall := List.all_eq_true.mp htoken
  have hdrop : (token ++ ':' :: value).dropWhile (fun char => char.isAlphanum || char == '-') = ':' :: value := by
    rw [List.dropWhile_append_of_pos hall]
    rfl
  have htake : (token ++ ':' :: value).takeWhile (fun char => char.isAlphanum || char == '-') = token := by
    rw [List.takeWhile_append_of_pos hall]
    exact List.append_nil token
  rw [List.cons_append, matched, if_pos hchar, hdrop, htake]
  rfl

theorem trailer_token (key : Key) : ∃ char token, key.trailer = char :: token ∧ char.isAlpha = true ∧
    (token.all fun char => char.isAlphanum || char == '-') = true := by
  cases key <;> exact ⟨_, _, rfl, by decide +kernel, by decide +kernel⟩

theorem parsed_trailer (key : Key) : Key.parsed key.trailer = some key := by
  cases key <;> decide +kernel

/-- A trailer's own line gives its key and its value. -/
theorem matched_text (trailer : Trailer) : matched trailer.text = some (trailer.key.trailer, trailer.value) := by
  obtain ⟨char, token, htrailer, hchar, htoken⟩ := trailer_token trailer.key
  obtain ⟨first, rest, hvalue, hwhite⟩ := isValue_head trailer.valid
  have hfirst : isBlank first = false := Bool.eq_false_iff.mpr fun h => by
    rw [blank_white h] at hwhite
    exact Bool.noConfusion hwhite
  have hdrop : (' ' :: trailer.value).dropWhile isBlank = trailer.value := by
    rw [List.dropWhile_cons_of_pos rfl, hvalue, List.dropWhile_cons_of_neg (by rw [hfirst]; exact Bool.false_ne_true)]
  rw [text, htrailer, matched_token hchar htoken, hdrop]

theorem keyed_text (trailer : Trailer) : keyed trailer.text = some (trailer.key, trailer.value) := by
  rw [keyed, matched_text, Option.bind_some, parsed_trailer]
  rfl

theorem text_belongs (trailer : Trailer) : belongs trailer.text = true := by
  rw [belongs, matched_text]
  rfl

theorem text_line (trailer : Trailer) : '\n' ∉ trailer.text := by
  have htrailer : ∀ key : Key, '\n' ∉ key.trailer := fun key => by cases key <;> decide +kernel
  intro hmem
  rcases List.mem_append.mp hmem with hmem | hmem
  · exact htrailer trailer.key hmem
  · exact isValue_line trailer.valid (by simpa using hmem)

theorem splitOn_texts (trailer : Trailer) (trailers : List Trailer) :
    (['\n'].intercalate ((trailer :: trailers).map text)).splitOn '\n' = (trailer :: trailers).map text := by
  refine List.splitOn_intercalate '\n' (fun line hline => ?_) (List.cons_ne_nil _ _)
  obtain ⟨other, -, rfl⟩ := List.mem_map.mp hline
  exact text_line other

theorem split_append (message : Text) : (split message).1 ++ (split message).2 = body message :=
  List.take_append_drop _ _

theorem split_ended (message : Text) : Ended (split message).1 := cut_ended _

/-- The block of a message appended to is the block it had, then a line for each trailer. -/
theorem blockLines_append (message : Text) (trailers : List Trailer) :
    blockLines (append message trailers) = blockLines message ++ trailers.map text := by
  have htexts : ∀ line ∈ trailers.map text, belongs line = true := by
    intro line hline
    obtain ⟨other, -, rfl⟩ := List.mem_map.mp hline
    exact text_belongs other
  have hown : ∀ line ∈ blockLines message, belongs line = true := fun _ => blockLines_belongs
  unfold append
  cases trailers with
  | nil =>
      -- nothing is appended but line breaks
      have hsame : ∀ breaks : Text, breaks = ['\n'] ∨ breaks = ['\n', '\n'] →
          body ((split message).1 ++ (split message).2 ++ breaks ++ [] ++ ['\n']) = body message := by
        rintro breaks (rfl | rfl)
        · rw [List.append_nil, body_newline, body_newline, split_append, body_body]
        · rw [List.append_nil, body_newline, ← List.singleton_append, ← List.append_assoc, body_newline, body_newline,
            split_append, body_body]
      have hbreaks : ∀ block : Bool, (if block = true then ['\n'] else ['\n', '\n']) = ['\n'] ∨
          (if block = true then ['\n'] else ['\n', '\n']) = ['\n', '\n'] := fun block => by cases block <;> simp
      rw [← blockLines_body, List.map_nil, List.intercalate_nil, hsame _ (hbreaks _), blockLines_body, List.append_nil]
  | cons trailer trailers =>
      rw [← blockLines_body, body_newline, blockLines_body]
      have hlines := splitOn_texts trailer trailers
      cases hblock : isBlock (split message).1 (split message).2 with
      | true =>
          have hblockLines : blockLines message = (split message).2.splitOn '\n' := by rw [blockLines, if_pos hblock]
          have hne : (split message).1 ≠ [] := by
            rw [isBlock, Bool.and_eq_true] at hblock
            exact bne_iff_ne.mp hblock.1
          rw [if_pos rfl, List.append_assoc, List.append_assoc, List.singleton_append,
            blockLines_paragraph (split_ended message) hne]
          · rw [List.splitOn_append_cons_self, hlines, hblockLines]
          · intro line hline
            rw [List.splitOn_append_cons_self, hlines, ← hblockLines] at hline
            exact (List.mem_append.mp hline).elim (hown line) (htexts line)
      | false =>
          have hblockLines : blockLines message = [] := by rw [blockLines, hblock]; rfl
          have hended : Ended ((split message).1 ++ (split message).2 ++ ['\n', '\n']) :=
            .inr ⟨(split message).1 ++ (split message).2, [], rfl, rfl⟩
          rw [if_neg Bool.false_ne_true, blockLines_paragraph hended (List.append_ne_nil_of_right_ne_nil _ (by simp)),
            hlines, hblockLines]
          · rfl
          · rwa [hlines]

end Append

/-! Reading -/

section Read

variable {key : Key} {value message : Text}

/-- What an appended trailer reads back as. -/
theorem read_append (message : Text) (trailers : List Trailer) :
    read (append message trailers) = (read message).bind fun had =>
      (trailers.mapM fun trailer => made trailer.key (strip trailer.value)).map (had ++ ·) := by
  have hkeyed : (trailers.map text).filterMap keyed = trailers.map fun trailer => (trailer.key, trailer.value) := by
    rw [List.filterMap_map, ← List.filterMap_eq_map]
    exact List.filterMap_congr fun trailer _ => keyed_text trailer
  rw [read, blockLines_append, List.filterMap_append, List.mapM_append, hkeyed, List.mapM_map, ← read]
  cases read message with
  | none => rfl
  | some had =>
      cases h : trailers.mapM fun trailer => made trailer.key (strip trailer.value) with
      | none => simp [Function.comp_def, h]
      | some read => simp [Function.comp_def, h]

theorem splitOn_line {sep : Char} {text line : Text} (h : line ∈ text.splitOn sep) : sep ∉ line := by
  induction text generalizing line with
  | nil =>
      rw [List.splitOn_nil, List.mem_singleton] at h
      rw [h]
      exact List.not_mem_nil
  | cons char text ih =>
      obtain ⟨first, lines, hlines⟩ := List.exists_cons_of_ne_nil (List.splitOn_ne_nil sep text)
      rw [List.splitOn_cons_eq_if_modifyHead] at h
      split at h
      · rcases List.mem_cons.mp h with rfl | h
        · exact List.not_mem_nil
        · exact ih h
      · next hchar =>
          rw [hlines, List.modifyHead_cons] at h
          rcases List.mem_cons.mp h with rfl | h
          · intro hmem
            rcases List.mem_cons.mp hmem with rfl | hmem
            · exact hchar (beq_self_eq_true _)
            · exact ih (hlines ▸ List.mem_cons_self) hmem
          · exact ih (hlines ▸ List.mem_cons_of_mem _ h)

theorem blockLines_line {line : Text} (h : line ∈ blockLines message) : '\n' ∉ line := by
  unfold blockLines at h
  split at h
  · exact splitOn_line h
  · exact absurd h List.not_mem_nil

/-- A line gives a value out of its own characters. -/
theorem matched_value {line token : Text} (h : matched line = some (token, value)) : value ⊆ line := by
  cases line with
  | nil => cases h
  | cons char rest =>
      rw [matched] at h
      split at h
      · split at h
        · next after hdrop =>
            obtain ⟨-, rfl⟩ := Prod.mk.inj (Option.some.inj h)
            intro one hone
            have hafter : one ∈ ':' :: after := List.mem_cons_of_mem _ ((List.dropWhile_suffix _).subset hone)
            rw [← hdrop] at hafter
            exact List.mem_cons_of_mem _ ((List.dropWhile_suffix _).subset hafter)
        · cases h
      · cases h

theorem keyed_value {line : Text} (h : keyed line = some (key, value)) : value ⊆ line := by
  obtain ⟨found, hmatched, hkey⟩ := Option.bind_eq_some_iff.mp h
  obtain ⟨other, -, heq⟩ := Option.map_eq_some_iff.mp hkey
  obtain ⟨-, rfl⟩ := Prod.mk.inj heq
  exact matched_value hmatched

/-- A stripped value is accepted exactly when something is left of it, on one line. -/
theorem made_strip (hline : '\n' ∉ value) :
    (∃ trailer, made key (strip value) = some trailer) ↔ strip value ≠ [] ∧ '\r' ∉ strip value := by
  have hmade : (∃ trailer, made key (strip value) = some trailer) ↔ isValue (strip value) = true := by
    unfold made
    constructor
    · rintro ⟨trailer, h⟩
      split at h
      · assumption
      · cases h
    · intro h
      exact ⟨⟨key, strip value, h⟩, dif_pos h⟩
  have hends := strip_eq_self_iff.mp (strip_strip value)
  have hwhite : ∀ char, isSpace char = false → isWhite char = false := fun char h => by rw [isWhite, h]; rfl
  have hbreak : '\n' ∉ strip value := fun hmem => hline (Evidence.strip_sublist.subset hmem)
  rw [hmade, isValue, Bool.and_eq_true, Bool.and_eq_true, List.all_eq_true]
  constructor
  · rintro ⟨⟨hhead, -⟩, hall⟩
    refine ⟨fun hnil => ?_, fun hmem => ?_⟩
    · rw [hnil] at hhead
      exact Bool.false_ne_true hhead
    · exact absurd (hall _ hmem) (by decide)
  · rintro ⟨hne, hreturn⟩
    refine ⟨⟨?_, ?_⟩, fun char hchar => ?_⟩
    · rw [List.head?_eq_some_head hne, Option.any_some, hwhite _ (hends.1 _ (List.head?_eq_some_head hne))]
      rfl
    · rw [List.getLast?_eq_some_getLast hne, Option.any_some, hwhite _ (hends.2 _ (List.getLast?_eq_some_getLast hne))]
      rfl
    · rw [Bool.and_eq_true]
      exact ⟨bne_iff_ne.mpr fun h => hreturn (h ▸ hchar), bne_iff_ne.mpr fun h => hbreak (h ▸ hchar)⟩

/-- A message is read exactly when every line of its block that names a key has something for it, on one line. -/
theorem read_iff : (∃ had, read message = some had) ↔ ∀ line ∈ blockLines message, ∀ key value,
    keyed line = some (key, value) → strip value ≠ [] ∧ '\r' ∉ strip value := by
  unfold read
  rw [ListReading.mapM_exists_iff]
  constructor
  · intro h line hline key value hkeyed
    have hbreak : '\n' ∉ value := fun hmem => blockLines_line hline (keyed_value hkeyed hmem)
    exact (made_strip hbreak).mp (h (key, value) (List.mem_filterMap.mpr ⟨line, hline, hkeyed⟩))
  · rintro h ⟨key, value⟩ hfound
    obtain ⟨line, hline, hkeyed⟩ := List.mem_filterMap.mp hfound
    have hbreak : '\n' ∉ value := fun hmem => blockLines_line hline (keyed_value hkeyed hmem)
    exact (made_strip hbreak).mpr (h line hline key value hkeyed)

theorem isSpace_separator {char : Char} (h : isWhite char = false) : isSpace char = false ↔ isSeparator char = false := by
  constructor
  · intro hspace
    refine Bool.eq_false_iff.mpr fun hsep => ?_
    rw [isSeparator, Bool.and_eq_true, decide_eq_true_eq, decide_eq_true_eq] at hsep
    have hin : isSpace char = true := by
      simp only [isSpace, Bool.or_eq_true, Bool.and_eq_true, decide_eq_true_eq]
      omega
    rw [hin] at hspace
    exact Bool.noConfusion hspace
  · intro hsep
    rw [isWhite, hsep, Bool.not_false, Bool.and_true] at h
    exact h

/-- A trailer's value is left as it is exactly when no separator stands at its ends. -/
theorem strip_value (trailer : Trailer) : strip trailer.value = trailer.value ↔
    ∀ char, trailer.value.head? = some char ∨ trailer.value.getLast? = some char → isSeparator char = false := by
  have hvalid := trailer.valid
  rw [isValue, Bool.and_eq_true, Bool.and_eq_true] at hvalid
  have hhead : ∀ char, trailer.value.head? = some char → isWhite char = false := fun char hchar => by
    have hwhite := hvalid.1.1
    rwa [hchar, Option.any_some, Bool.not_eq_true'] at hwhite
  have hlast : ∀ char, trailer.value.getLast? = some char → isWhite char = false := fun char hchar => by
    have hwhite := hvalid.1.2
    rwa [hchar, Option.any_some, Bool.not_eq_true'] at hwhite
  rw [strip_eq_self_iff]
  constructor
  · rintro ⟨hfirst, hfinal⟩ char (hchar | hchar)
    · exact (isSpace_separator (hhead char hchar)).mp (hfirst char hchar)
    · exact (isSpace_separator (hlast char hchar)).mp (hfinal char hchar)
  · intro h
    exact ⟨fun char hchar => (isSpace_separator (hhead char hchar)).mpr (h char (.inl hchar)),
      fun char hchar => (isSpace_separator (hlast char hchar)).mpr (h char (.inr hchar))⟩

theorem made_self (trailer : Trailer) :
    made trailer.key (strip trailer.value) = some trailer ↔ strip trailer.value = trailer.value := by
  constructor
  · intro h
    unfold made at h
    split at h
    · exact congrArg Trailer.value (Option.some.inj h)
    · cases h
  · intro h
    rw [h]
    exact dif_pos trailer.valid

/-- What is appended to a message reads back after what the message had, exactly when the message itself can be read,
no line of its block leaving a key without a value or breaking one with a carriage return, and no appended value has one
of U+001C to U+001F at an end. -/
theorem append_read_iff (message : Text) (trailers : List Trailer) :
    (∃ had, read message = some had ∧ read (append message trailers) = some (had ++ trailers)) ↔
      (∀ line ∈ blockLines message, ∀ key value,
        keyed line = some (key, value) → strip value ≠ [] ∧ '\r' ∉ strip value) ∧
      ∀ trailer ∈ trailers, ∀ char,
        trailer.value.head? = some char ∨ trailer.value.getLast? = some char → isSeparator char = false := by
  have hback : (trailers.mapM fun trailer => made trailer.key (strip trailer.value)) = some trailers ↔
      ∀ trailer ∈ trailers, ∀ char,
        trailer.value.head? = some char ∨ trailer.value.getLast? = some char → isSeparator char = false := by
    rw [ListReading.mapM_eq_some_iff, List.forall₂_same]
    exact forall₂_congr fun trailer _ => (made_self trailer).trans (strip_value trailer)
  have hmap : ∀ had : List Trailer, read message = some had → (read (append message trailers) = some (had ++ trailers) ↔
      (trailers.mapM fun trailer => made trailer.key (strip trailer.value)) = some trailers) := by
    intro had hhad
    rw [read_append, hhad, Option.bind_some, Option.map_eq_some_iff]
    constructor
    · rintro ⟨found, hfound, heq⟩
      rw [hfound, List.append_cancel_left heq]
    · intro h
      exact ⟨trailers, h, rfl⟩
  rw [← hback, ← read_iff]
  constructor
  · rintro ⟨had, hhad, hread⟩
    exact ⟨⟨had, hhad⟩, (hmap had hhad).mp hread⟩
  · rintro ⟨⟨had, hhad⟩, h⟩
    exact ⟨had, hhad, (hmap had hhad).mpr h⟩

/-- A key with no value ends the reading of a message. -/
theorem append_read_fails : ¬ ∀ (message : Text) (trailers : List Trailer),
    ∃ had, read message = some had ∧ read (append message trailers) = some (had ++ trailers) := by
  intro h
  obtain ⟨had, hhad, -⟩ := h "subject\n\nMb-Host:\n".toList []
  have hnone : read "subject\n\nMb-Host:\n".toList = none := by decide +kernel
  rw [hnone] at hhad
  cases hhad

end Read

end Trailer

end Mainboard.Identity
