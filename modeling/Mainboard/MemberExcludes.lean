import Mainboard.GitignoreLines

/-! Lint excludes composed from a workspace's members: each member's patterns spelled under its folder and put after the
root's, read as one gitignore list. A line of a plain pattern under a folder of plain names says of the paths under the
folder what the pattern said inside it; what the lists say together is another matter, since the last word counts. -/

namespace Mainboard.Members

open Gitignore

/-- A member's folder, and the patterns its manifest excludes. -/
structure Member where
  base : List Text
  patterns : List Text
  named : base ≠ []
  unbroken : ∀ name ∈ base, '/' ∉ name

def Member.path (member : Member) : Text := ['/'].intercalate member.base

/-- A pattern without the `!` it may start with. -/
def bare (pattern : Text) : Text := if pattern.head? = some '!' then pattern.tail else pattern

/-- One pattern written inside the member at `base`, as the workspace root reads it. -/
def anchor (base pattern : Text) : Text :=
  let negated := if pattern.head? = some '!' then ['!'] else []
  let bare := bare pattern
  let rooted := '/' ∈ bare.rdropWhile (· == '/')
  negated ++ '/' :: base ++ '/' :: if rooted then bare.dropWhile (· == '/') else "**/".toList ++ bare

/-- Gitignore patterns written inside the member at `base`, as the workspace root reads them. -/
def anchored (patterns : List Text) (base : Text) : List Text := patterns.map (anchor base)

/-- The excludes of the root and every member's. -/
def excludes (root : List Text) (members : List Member) : List Text :=
  root ++ members.flatMap fun member => anchored member.patterns member.path

/-- A pattern that says something and means the same under a folder: neither blank nor a comment, of one slash at its
start at most, and without blanks behind a slash at its end. -/
structure Plain (pattern : Text) : Prop where
  said : pattern.head? ≠ some '#'
  written : unspaced (bare pattern) ≠ []
  single : ¬ ['/', '/'] <+: bare pattern
  ended : unspaced (bare pattern) ≠ bare pattern → (unspaced (bare pattern)).getLast? ≠ some '/'

section Spelling

variable {line first rest bare pattern : Text}

theorem takeWhile_append_stop {α : Type} {p : α → Bool} {front back : List α} (h : ∀ one ∈ back.head?, p one = false) :
    (front ++ back).takeWhile p = front.takeWhile p := by
  induction front with
  | nil =>
      cases back with
      | nil => rfl
      | cons one back => exact List.takeWhile_cons_of_neg (by simp [h one rfl])
  | cons one front ih =>
      by_cases hone : p one = true
      · rw [List.cons_append, List.takeWhile_cons_of_pos hone, List.takeWhile_cons_of_pos hone, ih]
      · rw [List.cons_append, List.takeWhile_cons_of_neg hone, List.takeWhile_cons_of_neg hone]

theorem rdropWhile_append {α : Type} {p : α → Bool} {front back : List α} (h : back.rdropWhile p ≠ []) :
    (front ++ back).rdropWhile p = front ++ back.rdropWhile p := by
  unfold List.rdropWhile at h ⊢
  rw [List.reverse_append, List.dropWhile_append, if_neg, List.reverse_append, List.reverse_reverse]
  rw [List.isEmpty_iff]
  exact fun hnil => h (by rw [hnil]; rfl)

theorem rdropWhile_append_nil {α : Type} {p : α → Bool} {front back : List α} (h : back.rdropWhile p = []) :
    (front ++ back).rdropWhile p = front.rdropWhile p := by
  unfold List.rdropWhile at h ⊢
  rw [List.reverse_append, List.dropWhile_append, if_pos]
  rw [List.isEmpty_iff]
  exact List.reverse_eq_nil_iff.mp h

theorem rdropWhile_ne_nil (h : unspaced line ≠ []) : line.rdropWhile (· == ' ') ≠ [] := by
  intro hnil
  refine h ?_
  simp [unspaced, hnil]

theorem last_ne {stop : Char} (h : first.getLast? = some stop) (hstop : stop ≠ '\\') :
    ∀ char ∈ first.getLast?, char ≠ '\\' := by
  intro char hchar
  rw [Option.mem_def, h] at hchar
  exact Option.some.inj hchar ▸ hstop

/-- The blanks at a line's end are those of what it ends with. -/
theorem unspaced_append (h : unspaced rest ≠ []) (hfirst : ∀ char ∈ first.getLast?, char ≠ '\\') :
    unspaced (first ++ rest) = first ++ unspaced rest := by
  have hrest := rdropWhile_ne_nil h
  have hquotes : ∀ text : Text, (first ++ text).rtakeWhile (· == '\\') = text.rtakeWhile (· == '\\') := by
    intro text
    unfold List.rtakeWhile
    rw [List.reverse_append, takeWhile_append_stop]
    intro char hchar
    rw [List.head?_reverse] at hchar
    simpa using hfirst char hchar
  unfold unspaced
  simp only [rdropWhile_append hrest, hquotes, ne_eq, List.append_cancel_left_eq]
  split
  · rw [List.append_assoc]
  · rfl

theorem head_unspaced (h : unspaced line ≠ []) : (unspaced line).head? = line.head? := by
  obtain ⟨char, kept, hkept⟩ := List.exists_cons_of_ne_nil (rdropWhile_ne_nil h)
  obtain ⟨later, hlater⟩ := List.rdropWhile_prefix (· == ' ') line
  rw [hkept, List.cons_append] at hlater
  unfold unspaced
  rw [hkept, ← hlater]
  dsimp only
  split <;> rfl

theorem mem_unspaced {char : Char} (hchar : char ∈ line) (hspace : char ≠ ' ') : char ∈ unspaced line := by
  have hkept : char ∈ line.rdropWhile (· == ' ') := by
    have hcut : line.rdropWhile (· == ' ') ++ line.rtakeWhile (· == ' ') = line := by
      rw [List.rdropWhile, List.rtakeWhile, ← List.reverse_append, List.takeWhile_append_dropWhile, List.reverse_reverse]
    rw [← hcut] at hchar
    refine (List.mem_append.mp hchar).resolve_right fun hlate => hspace ?_
    have hblank := List.mem_rtakeWhile_imp hlate
    exact beq_iff_eq.mp hblank
  unfold unspaced
  dsimp only
  split
  · exact List.mem_append_left _ hkept
  · exact hkept

theorem getLast_append (h : rest ≠ []) : (first ++ rest).getLast? = rest.getLast? := by
  rw [List.getLast?_append, List.getLast?_eq_some_getLast h]
  rfl

theorem body_append (h : rest ≠ []) : body (first ++ rest) = first ++ body rest := by
  unfold body
  rw [getLast_append h]
  split
  · exact List.dropLast_append_of_ne_nil h
  · rfl

/-- What a plain pattern says. -/
theorem rule_plain (h : Plain pattern) : rule pattern =
    ruled (decide (pattern.head? = some '!')) (unspaced (Members.bare pattern)) := by
  have hwritten := h.written
  unfold Members.bare at hwritten ⊢
  by_cases hnegated : pattern.head? = some '!'
  · rw [if_pos hnegated] at hwritten ⊢
    obtain ⟨rest, rfl⟩ := List.head?_eq_some_iff.mp hnegated
    rw [List.tail_cons] at hwritten ⊢
    have hline : unspaced ('!' :: rest) = '!' :: unspaced rest :=
      @unspaced_append ['!'] rest hwritten (last_ne rfl (by decide))
    rw [rule, hline]
    simp
  · rw [if_neg hnegated] at hwritten ⊢
    have hhead := head_unspaced hwritten
    rw [rule, decide_eq_false hnegated]
    split
    · rename_i hnil
      exact absurd hnil hwritten
    · rename_i hcomment
      rw [hcomment] at hhead
      exact absurd hhead.symm h.said
    · rename_i hbang
      rw [hbang] at hhead
      exact absurd hhead.symm hnegated
    · rfl

end Spelling

section Anchoring

variable {fits : Text → Text → Bool} {member : Member} {pattern : Text}

/-- What is written behind a member's folder. -/
def relative (bare : Text) : Text :=
  if '/' ∈ bare.rdropWhile (· == '/') then bare.dropWhile (· == '/') else "**/".toList ++ bare

theorem anchor_eq (base pattern : Text) : anchor base pattern =
    ((if pattern.head? = some '!' then ['!'] else []) ++ '/' :: base ++ ['/']) ++ relative (bare pattern) := by
  unfold anchor relative
  simp

/-- A plain pattern rooted in its folder is what follows the one slash it may start with. -/
theorem rooted_cut (h : Plain pattern) (hrooted : '/' ∈ (bare pattern).rdropWhile (· == '/')) :
    ∃ lead rest, (lead = [] ∨ lead = ['/']) ∧ bare pattern = lead ++ rest ∧ relative (bare pattern) = rest ∧
      unspaced rest ≠ [] ∧ rest.head? ≠ some '/' ∧ unspaced (bare pattern) = lead ++ unspaced rest := by
  have hwritten := h.written
  have hended := h.ended
  have hsingle := h.single
  rw [relative, if_pos hrooted]
  generalize bare pattern = text at *
  have hsplit : ∃ lead rest, (lead = [] ∨ lead = ['/']) ∧ text = lead ++ rest ∧ text.dropWhile (· == '/') = rest ∧
      rest.head? ≠ some '/' := by
    cases text with
    | nil => exact ⟨[], [], Or.inl rfl, rfl, rfl, by decide⟩
    | cons char text =>
        by_cases hchar : char = '/'
        · subst hchar
          have hnext : text.head? ≠ some '/' := by
            intro hnext
            obtain ⟨rest, rfl⟩ := List.head?_eq_some_iff.mp hnext
            exact hsingle ⟨rest, rfl⟩
          refine ⟨['/'], text, Or.inr rfl, rfl, ?_, hnext⟩
          rw [List.dropWhile_cons_of_pos (by decide)]
          cases text with
          | nil => rfl
          | cons next text => exact List.dropWhile_cons_of_neg fun hslash => hnext (congrArg some (beq_iff_eq.mp hslash))
        · refine ⟨[], char :: text, Or.inl rfl, rfl, ?_, fun hslash => hchar (Option.some.inj hslash)⟩
          exact List.dropWhile_cons_of_neg fun hslash => hchar (beq_iff_eq.mp hslash)
  obtain ⟨lead, rest, hlead, rfl, hdrop, hhead⟩ := hsplit
  have hplain : ∀ char ∈ lead.getLast?, char ≠ '\\' := by
    rcases hlead with rfl | rfl
    · exact fun char hnone => by cases hnone
    · exact last_ne rfl (by decide)
  have hsome : unspaced rest ≠ [] := by
    intro hnil
    have hblank : rest.rdropWhile (· == ' ') = [] := by
      unfold unspaced at hnil
      dsimp only at hnil
      split at hnil
      · exact absurd hnil (List.append_ne_nil_of_right_ne_nil _ (List.cons_ne_nil _ _))
      · exact hnil
    rcases hlead with rfl | rfl
    · exact hwritten hnil
    · have hcut : unspaced (['/'] ++ rest) = ['/'] := by
        have hkept : (['/'] ++ rest).rdropWhile (· == ' ') = ['/'] := rdropWhile_append_nil hblank
        unfold unspaced
        dsimp only
        rw [hkept]
        exact if_neg fun hquoted => absurd hquoted.2 (by decide)
      by_cases hrest : rest = []
      · subst hrest
        exact absurd hrooted (by decide)
      · refine hended ?_ (by rw [hcut]; rfl)
        rw [hcut]
        intro hsame
        exact hrest (@List.append_cancel_left _ ['/'] [] rest hsame).symm
  exact ⟨lead, rest, hlead, rfl, hdrop, hsome, hhead, unspaced_append hsome hplain⟩

theorem body_ne_slash {text : Text} (h : text ≠ []) (hhead : text.head? ≠ some '/') : (body text).head? ≠ some '/' := by
  unfold body
  split
  · rename_i hlast
    intro hslash
    cases text with
    | nil => exact h rfl
    | cons char text =>
        cases text with
        | nil => cases hslash
        | cons next text => exact hhead hslash
  · exact hhead

theorem mem_body {text : Text} (h : '/' ∈ text.rdropWhile (· == '/')) : '/' ∈ body text := by
  unfold body
  obtain ⟨later, hlater⟩ := List.rdropWhile_prefix (· == '/') text
  split
  · rename_i hlast
    by_cases hsame : text.rdropWhile (· == '/') = text
    · have hnone := List.rdropWhile_eq_self_iff.mp hsame (by rintro rfl; cases hlast)
      rw [List.getLast?_eq_some_getLast (by rintro rfl; cases hlast)] at hlast
      exact absurd (Option.some.inj hlast) (by simpa using hnone)
    · have hkept : later ≠ [] := by
        rintro rfl
        exact hsame ((List.append_nil _).symm.trans hlater)
      rw [← hlater, List.dropLast_append_of_ne_nil hkept]
      exact List.mem_append_left _ h
  · exact hlater ▸ List.mem_append_left _ h

/-- The parts of a plain pattern that is rooted in its folder. -/
theorem partsOf_rooted (h : Plain pattern) (hrooted : '/' ∈ (bare pattern).rdropWhile (· == '/')) :
    partsOf (unspaced (bare pattern)) = (body (unspaced (relative (bare pattern)))).splitOn '/' := by
  obtain ⟨lead, rest, hlead, hbare, hrelative, hsome, hhead, hunspaced⟩ := rooted_cut h hrooted
  have hmem : '/' ∈ body (unspaced (bare pattern)) := by
    by_cases hsame : unspaced (bare pattern) = bare pattern
    · rw [hsame]
      exact mem_body hrooted
    · have hslash : '/' ∈ bare pattern := (List.rdropWhile_prefix _ _).subset hrooted
      rw [body, if_neg (h.ended hsame)]
      exact mem_unspaced hslash (by decide)
  unfold partsOf
  dsimp only
  rw [if_pos hmem, hrelative, hunspaced, body_append hsome]
  have hfirst : (body (unspaced rest)).head? ≠ some '/' := body_ne_slash hsome (by rwa [head_unspaced hsome])
  rcases hlead with rfl | rfl
  · rw [List.nil_append, if_neg hfirst]
  · rfl

theorem empty_part {text : Text} (h : text = [] ∨ text.getLast? = some '/') : [] ∈ text.splitOn '/' := by
  rcases h with rfl | hlast
  · exact List.mem_singleton_self _
  · obtain ⟨front, rfl⟩ := List.getLast?_eq_some_iff.mp hlast
    rw [List.splitOn_append_cons_self]
    exact List.mem_append_right _ (List.mem_singleton_self _)

theorem rdropWhile_of_blank {text : Text} (h : unspaced text ≠ text) : text.rdropWhile (· == '/') = text := by
  rw [List.rdropWhile_eq_self_iff]
  intro hsome hslash
  have hlast : text.rdropWhile (· == ' ') = text := by
    rw [List.rdropWhile_eq_self_iff]
    intro _ hblank
    rw [beq_iff_eq.mp hslash] at hblank
    exact absurd hblank (by decide)
  exact h (by simp [unspaced, hlast])

theorem mem_of_mem_unspaced {text : Text} (h : '/' ∈ unspaced text) : '/' ∈ text := by
  have hkept := (List.rdropWhile_prefix (· == ' ') text).subset
  unfold unspaced at h
  dsimp only at h
  split at h
  · exact (List.mem_append.mp h).elim (fun hmem => hkept hmem) fun hblank => absurd (List.mem_singleton.mp hblank) (by decide)
  · exact hkept h

/-- A pattern with slashes at its end only, more than one of them, keeps one before the last. -/
theorem body_ended (h : Plain pattern) (hloose : '/' ∉ (bare pattern).rdropWhile (· == '/'))
    (hslash : '/' ∈ body (unspaced (bare pattern))) : (body (unspaced (bare pattern))).getLast? = some '/' := by
  have hsame : unspaced (bare pattern) = bare pattern := by
    by_contra hother
    rw [body, if_neg (h.ended hother)] at hslash
    rw [rdropWhile_of_blank hother] at hloose
    exact hloose (mem_of_mem_unspaced hslash)
  rw [hsame] at hslash ⊢
  have hstop : ∀ text : Text, '/' ∈ text → '/' ∉ text.rdropWhile (· == '/') → text.getLast? = some '/' := by
    intro text hmem hnot
    by_contra hlast
    refine hnot ?_
    rwa [List.rdropWhile_eq_self_iff.mpr]
    intro hsome hdot
    rw [List.getLast?_eq_some_getLast hsome] at hlast
    exact hlast (congrArg some (beq_iff_eq.mp hdot))
  have hlast : (bare pattern).getLast? = some '/' := hstop _ (by
    unfold body at hslash
    split at hslash
    · exact List.mem_of_mem_dropLast hslash
    · exact hslash) hloose
  refine hstop _ hslash fun hmem => hloose ?_
  rw [body, if_pos hlast] at hmem
  obtain ⟨front, hfront⟩ := List.getLast?_eq_some_iff.mp hlast
  rw [hfront, List.dropLast_concat] at hmem
  rwa [hfront, List.rdropWhile_concat_pos _ _ _ (by decide)]

/-- A pattern at any depth is written behind `**`, and reaches nothing where it has an empty part. -/
theorem partsOf_loose (h : Plain pattern) (hloose : '/' ∉ (bare pattern).rdropWhile (· == '/')) :
    let parts := (body (unspaced (relative (bare pattern)))).splitOn '/'
    parts = partsOf (unspaced (bare pattern)) ∨ ([] ∈ parts ∧ [] ∈ partsOf (unspaced (bare pattern))) := by
  have hwritten := h.written
  have hrelative : relative (bare pattern) = "**/".toList ++ bare pattern := if_neg hloose
  have hunspaced : unspaced (relative (bare pattern)) = "**/".toList ++ unspaced (bare pattern) := by
    rw [hrelative]
    exact unspaced_append hwritten (last_ne rfl (by decide))
  have hsplit : (body (unspaced (relative (bare pattern)))).splitOn '/' =
      stars :: (body (unspaced (bare pattern))).splitOn '/' := by
    have hstars : "**/".toList ++ body (unspaced (bare pattern)) = stars ++ '/' :: body (unspaced (bare pattern)) := rfl
    rw [hunspaced, body_append hwritten, hstars, List.splitOn_append_cons_self_of_not_mem (by decide)]
  dsimp only
  rw [hsplit]
  by_cases hslash : '/' ∈ body (unspaced (bare pattern))
  · right
    have hended := body_ended h hloose hslash
    refine ⟨List.mem_cons_of_mem _ (empty_part (Or.inr hended)), ?_⟩
    unfold partsOf
    dsimp only
    rw [if_pos hslash]
    split
    · rename_i hhead
      obtain ⟨later, hlater⟩ := List.head?_eq_some_iff.mp hhead
      rw [hlater, List.tail_cons]
      rw [hlater] at hended
      refine empty_part ?_
      cases later with
      | nil => exact Or.inl rfl
      | cons char later => exact Or.inr hended
    · exact empty_part (Or.inr hended)
  · left
    have hhead : (body (unspaced (bare pattern))).head? ≠ some '/' := fun hhead =>
      hslash (List.mem_of_mem_head? hhead)
    unfold partsOf
    dsimp only
    rw [if_neg hslash, if_neg hhead]

/-- What is written behind a folder says something, and of folders exactly where the pattern does. -/
theorem relative_written (h : Plain pattern) : unspaced (relative (bare pattern)) ≠ [] ∧
    (unspaced (relative (bare pattern))).getLast? = (unspaced (bare pattern)).getLast? := by
  by_cases hrooted : '/' ∈ (bare pattern).rdropWhile (· == '/')
  · obtain ⟨lead, rest, -, -, hrelative, hsome, -, hunspaced⟩ := rooted_cut h hrooted
    rw [hrelative, hunspaced, getLast_append hsome]
    exact ⟨hsome, rfl⟩
  · have hrelative : relative (bare pattern) = "**/".toList ++ bare pattern := if_neg hrooted
    have hunspaced : unspaced (relative (bare pattern)) = "**/".toList ++ unspaced (bare pattern) := by
      rw [hrelative]
      exact unspaced_append h.written (last_ne rfl (by decide))
    rw [hunspaced, getLast_append h.written]
    exact ⟨List.append_ne_nil_of_right_ne_nil _ h.written, rfl⟩

theorem splitOn_path (member : Member) : member.path.splitOn '/' = member.base :=
  List.splitOn_intercalate '/' member.unbroken member.named

/-- What a plain pattern says once it is written under its member's folder. -/
theorem rule_anchor (h : Plain pattern) (member : Member) : rule (anchor member.path pattern) =
    some { negated := decide (pattern.head? = some '!')
           directory := (unspaced (bare pattern)).getLast? = some '/'
           parts := member.base ++ (body (unspaced (relative (bare pattern)))).splitOn '/' } := by
  obtain ⟨hsome, hlast⟩ := relative_written h
  have hfolder : ∀ char ∈ ('/' :: member.path ++ ['/']).getLast?, char ≠ '\\' := by
    intro char hchar
    rw [List.getLast?_concat] at hchar
    obtain rfl := Option.some.inj hchar
    decide
  generalize hv : unspaced (relative (bare pattern)) = written at *
  have hparts : partsOf (('/' :: member.path ++ ['/']) ++ written) = member.base ++ (body written).splitOn '/' := by
    unfold partsOf
    rw [body_append hsome]
    dsimp only
    have hslash : '/' ∈ ('/' :: member.path ++ ['/']) ++ body written :=
      List.mem_append_left _ (List.mem_append_left _ List.mem_cons_self)
    have hfirst : (('/' :: member.path ++ ['/']) ++ body written).head? = some '/' := rfl
    rw [if_pos hslash, if_pos hfirst]
    have htail : (('/' :: member.path ++ ['/']) ++ body written).tail = member.path ++ '/' :: body written := by simp
    rw [htail, List.splitOn_append_cons_self, splitOn_path]
  have hruled : ∀ negated, ruled negated (('/' :: member.path ++ ['/']) ++ written) =
      some { negated, directory := (unspaced (bare pattern)).getLast? = some '/'
             parts := member.base ++ (body written).splitOn '/' } := by
    intro negated
    unfold ruled
    rw [if_neg (List.append_ne_nil_of_right_ne_nil _ hsome), hparts, getLast_append hsome, hlast]
  rw [anchor_eq]
  by_cases hnegated : pattern.head? = some '!'
  · rw [if_pos hnegated, decide_eq_true hnegated, ← hruled true]
    have hline : unspaced ((['!'] ++ '/' :: member.path ++ ['/']) ++ relative (bare pattern)) =
        '!' :: (('/' :: member.path ++ ['/']) ++ written) := by
      rw [List.append_assoc ['!'], List.append_assoc ['!'], unspaced_append (by
        rw [unspaced_append (by rw [hv]; exact hsome) hfolder]
        exact List.append_ne_nil_of_left_ne_nil (List.cons_ne_nil _ _) _) (last_ne rfl (by decide)),
        unspaced_append (by rw [hv]; exact hsome) hfolder, hv]
      rfl
    rw [rule, hline]
    rfl
  · rw [if_neg hnegated, decide_eq_false hnegated, ← hruled false]
    have hline : unspaced (([] ++ '/' :: member.path ++ ['/']) ++ relative (bare pattern)) =
        ('/' :: member.path ++ ['/']) ++ written := by
      rw [List.nil_append, unspaced_append (by rw [hv]; exact hsome) hfolder, hv]
    rw [rule, hline]
    rfl

/-- A plain pattern says of what is under its member's folder what it says inside it. -/
theorem opinion_anchor (h : Plain pattern) (hliteral : Literal fits member.base) (path : List Text) (directory : Bool) :
    opinion fits (anchor member.path pattern) path directory =
      if member.base <+: path then opinion fits pattern (path.drop member.base.length) directory else none := by
  have hreaches : reaches fits (member.base ++ (body (unspaced (relative (bare pattern)))).splitOn '/') path =
      (decide (member.base <+: path) &&
        reaches fits (partsOf (unspaced (bare pattern))) (path.drop member.base.length)) := by
    rw [reaches_under hliteral]
    by_cases hrooted : '/' ∈ (bare pattern).rdropWhile (· == '/')
    · rw [partsOf_rooted h hrooted]
    · rcases partsOf_loose h hrooted with hsame | ⟨hempty, hnone⟩
      · rw [hsame]
      · rw [reaches_of_empty hempty, reaches_of_empty hnone]
  have hruled : rule pattern = some { negated := decide (pattern.head? = some '!')
                                      directory := (unspaced (bare pattern)).getLast? = some '/'
                                      parts := partsOf (unspaced (bare pattern)) } := by
    rw [rule_plain h, ruled, if_neg h.written]
  unfold opinion
  rw [rule_anchor h, hruled]
  simp only [Option.filter_some, Rule.holds, hreaches]
  by_cases hunder : member.base <+: path
  · simp [hunder]
  · simp [hunder]

end Anchoring

section Composing

variable (fits : Text → Text → Bool) (root : List Text) (members : List Member) (path : List Text)

/-- What a member's own list says of a path of the workspace: nothing outside the member's folder. -/
def Member.word (member : Member) (path : List Text) (directory : Bool) : Option Bool :=
  if member.base <+: path then Gitignore.word fits member.patterns (path.drop member.base.length) directory else none

/-- What each list says of a path, the root's first. -/
def words (directory : Bool) : List (Option Bool) :=
  Gitignore.word fits root path directory :: members.map fun member => member.word fits path directory

/-- A path excluded by the root's list, or by a member's inside that member. -/
def Apart : Prop :=
  excluded fits root path = true ∨
    ∃ member ∈ members, ∃ inner, path = member.base ++ inner ∧ excluded fits member.patterns inner = true

/-- A path that a list excludes, each such word on it or a folder above it taken back by a later list. -/
def Disputed : Prop :=
  Apart fits root members path ∧ ∀ above, above <+: path → ∀ before after,
    words fits root members above (decide (above ≠ path)) = before ++ some true :: after → some false ∈ after

end Composing

section Words

variable {fits : Text → Text → Bool} {root : List Text} {members : List Member} {path : List Text}

theorem word_anchored {member : Member} (hplain : ∀ pattern ∈ member.patterns, Plain pattern)
    (hliteral : member.patterns ≠ [] → Literal fits member.base) (path : List Text) (directory : Bool) :
    Gitignore.word fits (anchored member.patterns member.path) path directory = member.word fits path directory := by
  unfold anchored Member.word
  generalize member.patterns = patterns at hplain hliteral
  induction patterns with
  | nil => split <;> rfl
  | cons pattern patterns ih =>
      rw [List.forall_mem_cons] at hplain
      have hfolder := hliteral (List.cons_ne_nil _ _)
      rw [List.map_cons, word_cons, ih hplain.2 fun _ => hfolder, opinion_anchor hplain.1 hfolder, word_cons]
      split <;> rfl

/-- The word of the composed list is the last word of the lists it is composed of. -/
theorem word_excludes (hplain : ∀ member ∈ members, ∀ pattern ∈ member.patterns, Plain pattern)
    (hliteral : ∀ member ∈ members, member.patterns ≠ [] → Literal fits member.base) (path : List Text)
    (directory : Bool) :
    Gitignore.word fits (excludes root members) path directory =
      (words fits root members path directory).foldl (fun verdict word => word.or verdict) none := by
  unfold excludes words
  rw [List.foldl_cons, Option.or_none]
  induction members generalizing root with
  | nil => rw [List.flatMap_nil, List.append_nil]; rfl
  | cons member members ih =>
      rw [List.forall_mem_cons] at hplain hliteral
      rw [List.flatMap_cons, ← List.append_assoc, ih hplain.2 hliteral.2, word_append,
        word_anchored hplain.1 hliteral.1, List.map_cons, List.foldl_cons]

/-- The last of several words excludes exactly where an excluding one is taken back by none after it. -/
theorem last_word_iff (words : List (Option Bool)) :
    words.foldl (fun verdict word => word.or verdict) none = some true ↔
      ∃ before after, words = before ++ some true :: after ∧ some false ∉ after := by
  induction words using List.reverseRecOn with
  | nil => simp
  | append_singleton words word ih =>
      rw [List.foldl_append, List.foldl_cons, List.foldl_nil]
      constructor
      · intro hlast
        cases word with
        | none =>
            obtain ⟨before, after, rfl, hnone⟩ := ih.mp hlast
            refine ⟨before, after ++ [none], by simp, fun hfalse => ?_⟩
            exact (List.mem_append.mp hfalse).elim hnone fun hsame => by cases List.mem_singleton.mp hsame
        | some said =>
            obtain rfl : said = true := Option.some.inj hlast
            exact ⟨words, [], rfl, List.not_mem_nil⟩
      · rintro ⟨before, after, hwords, hnone⟩
        cases after using List.reverseRecOn with
        | nil =>
            obtain ⟨-, hword⟩ := List.append_inj' hwords rfl
            rw [List.singleton_inj.mp hword]
            rfl
        | append_singleton after other =>
            have hcut : words ++ [word] = (before ++ some true :: after) ++ [other] := by simp [hwords]
            obtain ⟨rfl, hword⟩ := List.append_inj' hcut rfl
            obtain rfl := List.singleton_inj.mp hword
            rw [List.mem_append, not_or] at hnone
            have hbefore := ih.mpr ⟨before, after, rfl, hnone.1⟩
            rw [hbefore]
            cases word with
            | none => rfl
            | some said =>
                cases said with
                | true => rfl
                | false => exact absurd (List.mem_singleton_self _) hnone.2

theorem apart_iff : Apart fits root members path ↔
    ∃ above, above <+: path ∧ some true ∈ words fits root members above (decide (above ≠ path)) := by
  unfold Apart
  simp only [excluded_iff, words, List.mem_cons, List.mem_map]
  constructor
  · rintro (⟨above, habove, hword⟩ | ⟨member, hmember, inner, rfl, above, habove, hword⟩)
    · exact ⟨above, habove, Or.inl hword.symm⟩
    · refine ⟨member.base ++ above, (List.prefix_append_right_inj _).mpr habove, Or.inr ⟨member, hmember, ?_⟩⟩
      rw [Member.word, if_pos (List.prefix_append _ _), List.drop_left, ← hword]
      simp
  · rintro ⟨above, habove, hword | ⟨member, hmember, hword⟩⟩
    · exact Or.inl ⟨above, habove, hword.symm⟩
    · right
      unfold Member.word at hword
      split at hword
      · rename_i hunder
        obtain ⟨inner, rfl⟩ := hunder
        obtain ⟨later, rfl⟩ := habove
        refine ⟨member, hmember, inner ++ later, List.append_assoc _ _ _, inner, List.prefix_append _ _, ?_⟩
        rw [List.drop_left] at hword
        rw [← hword]
        simp
      · cases hword

end Words

/-- Under plain patterns, behind folders of plain names, the composed list excludes what the lists exclude apart exactly where none of
them takes back all that others exclude. -/
theorem composed_iff (fits : Text → Text → Bool) (root : List Text) (members : List Member)
    (hplain : ∀ member ∈ members, ∀ pattern ∈ member.patterns, Plain pattern)
    (hliteral : ∀ member ∈ members, member.patterns ≠ [] → Literal fits member.base) (path : List Text) :
    (excluded fits (excludes root members) path = true ↔ Apart fits root members path) ↔
      ¬ Disputed fits root members path := by
  have hcomposed : excluded fits (excludes root members) path = true ↔ ∃ above, above <+: path ∧
      ∃ before after, words fits root members above (decide (above ≠ path)) = before ++ some true :: after ∧
        some false ∉ after := by
    rw [excluded_iff]
    refine exists_congr fun above => and_congr_right fun _ => ?_
    rw [word_excludes hplain hliteral, last_word_iff]
  have hapart : excluded fits (excludes root members) path = true → Apart fits root members path := by
    rw [hcomposed, apart_iff]
    rintro ⟨above, habove, before, after, hwords, -⟩
    exact ⟨above, habove, hwords ▸ List.mem_append_right _ List.mem_cons_self⟩
  constructor
  · rintro hsame ⟨hexcluded, htaken⟩
    obtain ⟨above, habove, before, after, hwords, hnone⟩ := hcomposed.mp (hsame.mpr hexcluded)
    exact hnone (htaken above habove before after hwords)
  · intro hfree
    refine ⟨hapart, fun hexcluded => ?_⟩
    by_contra hout
    refine hfree ⟨hexcluded, fun above habove before after hwords => ?_⟩
    by_contra hnone
    exact hout (hcomposed.mpr ⟨above, habove, before, after, hwords, hnone⟩)

/-- Names that fit themselves, and `*` any. -/
def globs (part name : Text) : Bool := part == name || part == ['*']

/-- A member `pkg` that excludes `build/`. -/
def packaged : Member := { base := ["pkg".toList], patterns := ["build/".toList], named := by decide, unbroken := by decide }

/-- A member that excludes nothing, in a folder whose name is no plain one. -/
def bracketed : Member := { base := ["a[1]".toList], patterns := [], named := by decide, unbroken := by decide }

/-- What a plain member excludes in itself is what the workspace does, whatever folder a member without patterns
is in. -/
theorem composed_packaged :
    (excluded globs (excludes ["*.lock".toList] [packaged, bracketed]) ["pkg".toList, "build".toList, "a.o".toList] =
        true ↔
      Apart globs ["*.lock".toList] [packaged, bracketed] ["pkg".toList, "build".toList, "a.o".toList]) ↔
        ¬ Disputed globs ["*.lock".toList] [packaged, bracketed] ["pkg".toList, "build".toList, "a.o".toList] := by
  refine composed_iff globs _ _ ?_ ?_ _
  · intro member hmember pattern hpattern
    rcases List.mem_cons.mp hmember with rfl | hmember
    · obtain rfl := List.mem_singleton.mp hpattern
      exact ⟨by decide, by decide +kernel, by decide, by decide +kernel⟩
    · obtain rfl := List.mem_singleton.mp hmember
      exact absurd hpattern List.not_mem_nil
  · intro member hmember hpatterns part hpart
    rcases List.mem_cons.mp hmember with rfl | hmember
    · obtain rfl := List.mem_singleton.mp hpart
      refine ⟨by decide, by decide, fun name => ?_⟩
      have hstar : ("pkg".toList == ['*']) = false := by decide
      rw [globs, hstar, Bool.or_false, Bool.eq_iff_iff, beq_iff_eq, decide_eq_true_iff]
      exact eq_comm
    · obtain rfl := List.mem_singleton.mp hmember
      exact absurd rfl hpatterns

/-- The same member with a blank among its patterns. -/
def blanked : Member := { base := ["pkg".toList], patterns := [[]], named := by decide, unbroken := by decide }

/-- A blank pattern of a member, which says nothing there, excludes each of the member's folders. -/
theorem composed_fails :
    ¬ (excluded globs (excludes [] [blanked]) ["pkg".toList, "src".toList, "a.py".toList] = true ↔
      Apart globs [] [blanked] ["pkg".toList, "src".toList, "a.py".toList]) := by
  have hcomposed : excluded globs (excludes [] [blanked]) ["pkg".toList, "src".toList, "a.py".toList] = true := by
    decide +kernel
  intro h
  obtain ⟨above, habove, hword⟩ := apart_iff.mp (h.mp hcomposed)
  have hsilent : ∀ above ∈ ["pkg".toList, "src".toList, "a.py".toList].inits,
      some true ∉ words globs [] [blanked] above (decide (above ≠ ["pkg".toList, "src".toList, "a.py".toList])) := by
    decide +kernel
  exact hsilent above ((List.mem_inits _ _).mpr habove) hword

end Mainboard.Members
