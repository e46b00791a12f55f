import Mainboard.BlockStyle

/-! What is written in block style can be read back. The sections of a lock end at lines of another indent,
the blocks of each begin at lines of their own, and so two locks with the same lines are the same lock. -/

namespace Mainboard.Pixi

/-- What pixi writes around the labelled blocks: the head ends at the roster, an environment's name is no
indented line, its settings are indented and end at its packages, a package's kind is one word, and what
follows the environments is not indented. -/
structure Lock.Framed (lock : Lock) : Prop where
  head : ∀ line ∈ lock.head, line ≠ "platforms:".toList
  names : ∀ environment ∈ lock.environments, ∃ first ∈ environment.name.head?, first ≠ ' '
  settings : ∀ environment ∈ lock.environments, ∀ line ∈ environment.settings,
    "    ".toList <+: line ∧ line ≠ "    packages:".toList
  kinds : ∀ environment ∈ lock.environments, ∀ entry ∈ environment.packages, ∀ package ∈ entry.2, ':' ∉ package.kind
  tail : ∀ line ∈ lock.tail.head?, line.head? ≠ some ' '

/-- A lock whose lines can be read back: no key of its packages begins as an item of a list does. -/
structure Lock.Readable (lock : Lock) : Prop extends lock.Framed where
  keys : ∀ environment ∈ lock.environments, ∀ entry ∈ environment.packages, entry.1.head? ≠ some '-'

theorem map_inj_of_mem {α β : Type} {f : α → β} {items others : List α}
    (h : ∀ item ∈ items, ∀ other ∈ others, f item = f other → item = other) (hmap : items.map f = others.map f) :
    items = others := by
  induction items generalizing others with
  | nil => exact (List.map_eq_nil_iff.mp hmap.symm).symm
  | cons item items ih =>
      cases others with
      | nil => cases hmap
      | cons other others =>
          obtain ⟨hhead, htail⟩ := List.cons.inj hmap
          obtain rfl := h item List.mem_cons_self other List.mem_cons_self hhead
          rw [ih (fun one hone another hanother => h one (List.mem_cons_of_mem _ hone) another
            (List.mem_cons_of_mem _ hanother)) htail]

/-- The lines under a label tell the subdirectory written there and the packages vouched. -/
theorem Platform.bodyLines_inj {one other : Platform} (h : one.bodyLines = other.bodyLines) :
    one.declared = other.declared ∧ one.vouched = other.vouched := by
  have hvouched : ∀ packages others : List Line,
      (if packages = [] then [] else "  virtual-packages:".toList :: packages.map ("  - ".toList ++ ·)) =
        (if others = [] then [] else "  virtual-packages:".toList :: others.map ("  - ".toList ++ ·)) →
      packages = others := by
    intro packages others hsame
    by_cases hpackages : packages = [] <;> by_cases hothers : others = []
    · rw [hpackages, hothers]
    · rw [if_pos hpackages, if_neg hothers] at hsame
      cases hsame
    · rw [if_neg hpackages, if_pos hothers] at hsame
      cases hsame
    · rw [if_neg hpackages, if_neg hothers] at hsame
      exact map_inj_of_mem (fun _ _ _ _ hline => List.append_cancel_left hline) (List.cons.inj hsame).2
  have hmixed : ∀ (subdir : Line) (rest : List Line) (packages : List Line),
      ("  subdir: ".toList ++ subdir) :: rest ≠
        if packages = [] then [] else "  virtual-packages:".toList :: packages.map ("  - ".toList ++ ·) := by
    intro subdir rest packages hsame
    split at hsame
    · cases hsame
    · exact absurd (List.cons.inj hsame).1 (by simp)
  unfold Platform.bodyLines at h
  cases hone : one.declared with
  | none =>
      cases hother : other.declared with
      | none =>
          rw [hone, hother] at h
          exact ⟨rfl, hvouched _ _ h⟩
      | some subdir =>
          rw [hone, hother] at h
          exact absurd h.symm (hmixed _ _ _)
  | some subdir =>
      cases hother : other.declared with
      | none =>
          rw [hone, hother] at h
          exact absurd h (hmixed _ _ _)
      | some written =>
          rw [hone, hother] at h
          obtain ⟨hhead, htail⟩ := List.cons.inj h
          rw [List.append_cancel_left hhead]
          exact ⟨rfl, hvouched _ _ htail⟩

theorem Platform.block_lines_inj {one other : Platform} (h : one.block.lines = other.block.lines) : one = other := by
  obtain ⟨hlabel, hbody⟩ := List.cons.inj h
  obtain ⟨hdeclared, hvouched⟩ := Platform.bodyLines_inj hbody
  have htrail : one.block.trail = other.block.trail := rfl
  rw [htrail] at hlabel
  have hsame : one.label = other.label := List.append_cancel_left (List.append_cancel_right hlabel)
  obtain ⟨label, declared, vouched⟩ := one
  cases hsame
  cases hdeclared
  cases hvouched
  rfl

theorem Package.line_eq (package : Package) :
    package.line = "      ".toList ++ '-' :: ' ' :: (package.kind ++ ':' :: ' ' :: package.location) := by
  have hdash : "      - ".toList = "      ".toList ++ ['-', ' '] := by simp
  have hcolon : ": ".toList = [':', ' '] := by simp
  unfold Package.line
  rw [hdash, hcolon]
  simp only [List.append_assoc, List.cons_append, List.nil_append]

theorem Package.line_inj {one other : Package} (hone : ':' ∉ one.kind) (hother : ':' ∉ other.kind)
    (h : one.line = other.line) : one = other := by
  rw [Package.line_eq, Package.line_eq] at h
  have htail := (List.cons.inj (List.cons.inj (List.append_cancel_left h)).2).2
  have hplain : ∀ text : Line, ':' ∉ text → ∀ c ∈ text, c ≠ ':' := fun text htext c hc hsame => htext (hsame ▸ hc)
  have hhead : ∀ rest : Line, ∀ c ∈ (':' :: rest).head?, ¬c ≠ ':' := fun rest c hc => by
    rw [List.head?_cons, Option.mem_some_iff] at hc
    exact not_not.mpr hc.symm
  obtain ⟨hkind, hlocation⟩ := BlockLines.section_inj (hplain _ hone) (hplain _ hother) (hhead _) (hhead _) htail
  obtain ⟨kind, location⟩ := one
  obtain ⟨otherKind, otherLocation⟩ := other
  obtain rfl : kind = otherKind := hkind
  obtain rfl : location = otherLocation := (List.cons.inj (List.cons.inj hlocation).2).2
  rfl

/-- A line that spells a key of a packages mapping. -/
def SpellsKey (line : Line) : Prop := ∃ first rest, line = "      ".toList ++ first :: rest ∧ first ≠ '-'

theorem installed_trail (entry : Line × List Package) : ∃ rest, (installed entry).trail = ':' :: rest := by
  unfold installed
  by_cases hnone : entry.2 = [] <;> simp [hnone]

theorem headed_installed {entry : Line × List Package} (h : entry.1.head? ≠ some '-') :
    BlockLines.Headed SpellsKey (installed entry).lines := by
  refine BlockLines.headed_cons ?_ fun line hline => ?_
  · obtain ⟨after, hafter⟩ := installed_trail entry
    have hline : (installed entry).lead ++ (installed entry).label ++ (installed entry).trail =
        "      ".toList ++ (entry.1 ++ ':' :: after) := by
      rw [hafter, List.append_assoc]
      rfl
    rw [hline]
    cases hlabel : entry.1 with
    | nil => exact ⟨':', after, rfl, by decide⟩
    | cons first label =>
        rw [hlabel, List.head?_cons] at h
        exact ⟨first, label ++ ':' :: after, rfl, fun hfirst => h (congrArg some hfirst)⟩
  · obtain ⟨package, -, rfl⟩ := List.mem_map.mp hline
    rintro ⟨first, rest, hspelled, hfirst⟩
    rw [Package.line_eq] at hspelled
    exact hfirst (List.cons.inj (List.append_cancel_left hspelled)).1.symm

theorem installed_lines_inj {entry other : Line × List Package} (hentry : ∀ package ∈ entry.2, ':' ∉ package.kind)
    (hother : ∀ package ∈ other.2, ':' ∉ package.kind) (h : (installed entry).lines = (installed other).lines) :
    entry = other := by
  obtain ⟨hlabel, hrest⟩ := List.cons.inj h
  have hpackages : entry.2 = other.2 :=
    map_inj_of_mem (fun one hone another hanother => Package.line_inj (hentry one hone) (hother another hanother)) hrest
  have htrail : (installed entry).trail = (installed other).trail := by
    unfold installed
    rw [hpackages]
  rw [htrail] at hlabel
  exact Prod.ext (List.append_cancel_left (List.append_cancel_right hlabel)) hpackages

/-- A line that spells the name of an environment. -/
def SpellsName (line : Line) : Prop := ∃ first rest, line = "  ".toList ++ first :: rest ∧ first ≠ ' '

theorem not_spellsName_of_indented {line : Line} (h : "    ".toList <+: line) : ¬SpellsName line := by
  obtain ⟨rest, rfl⟩ := h
  rintro ⟨first, after, hsame, hfirst⟩
  have hlead : "    ".toList ++ rest = "  ".toList ++ ' ' :: ' ' :: rest := by simp
  rw [hlead] at hsame
  exact hfirst (List.cons.inj (List.append_cancel_left hsame)).1.symm

theorem indented_installed {entry : Line × List Package} {line : Line} (h : line ∈ (installed entry).lines) :
    "    ".toList <+: line := by
  rcases List.mem_cons.mp h with rfl | hrest
  · refine ⟨"  ".toList ++ ((installed entry).label ++ (installed entry).trail), ?_⟩
    simp [installed]
  · obtain ⟨package, -, rfl⟩ := List.mem_map.mp hrest
    rw [Package.line_eq]
    exact ⟨"  ".toList ++ '-' :: ' ' :: (package.kind ++ ':' :: ' ' :: package.location), by simp⟩

/-- The lines of a list of packages blocks tell the blocks. -/
theorem installed_inj {packages others : List (Line × List Package)}
    (hkinds : ∀ entry ∈ packages, ∀ package ∈ entry.2, ':' ∉ package.kind)
    (hkinds' : ∀ entry ∈ others, ∀ package ∈ entry.2, ':' ∉ package.kind)
    (hkeys : ∀ entry ∈ packages, entry.1.head? ≠ some '-') (hkeys' : ∀ entry ∈ others, entry.1.head? ≠ some '-')
    (h : textOf (packages.map installed) = textOf (others.map installed)) : packages = others := by
  rw [textOf, textOf, List.flatMap_map, List.flatMap_map, List.flatMap_def, List.flatMap_def] at h
  refine map_inj_of_mem (fun one hone other hother => installed_lines_inj (hkinds one hone) (hkinds' other hother))
    (BlockLines.flatten_inj (fun block hblock => (?_ : BlockLines.Headed SpellsKey block)) (fun block hblock => ?_) h)
  · obtain ⟨entry, hentry, rfl⟩ := List.mem_map.mp hblock
    exact headed_installed (hkeys entry hentry)
  · obtain ⟨entry, hentry, rfl⟩ := List.mem_map.mp hblock
    exact headed_installed (hkeys' entry hentry)

namespace Lock

variable {lock other : Lock}

theorem Readable.environment_lines_inj (h : lock.Readable) (h' : other.Readable) {one another : Environment}
    (hone : one ∈ lock.environments) (hanother : another ∈ other.environments) (hlines : one.lines = another.lines) :
    one = another := by
  have hsplit : ∀ environment : Environment, environment.lines =
      ("  ".toList ++ environment.name ++ ":".toList) ::
        (environment.settings ++ (["    packages:".toList] ++ textOf environment.blocks)) := fun environment => by
    rw [Environment.lines, Environment.header, List.cons_append, List.cons_append,
      List.append_assoc environment.settings]
  rw [hsplit, hsplit] at hlines
  obtain ⟨hname, hrest⟩ := List.cons.inj hlines
  have hstop : ∀ rest : List Line, ∀ line ∈ (["    packages:".toList] ++ rest).head?,
      ¬line ≠ "    packages:".toList := fun rest line hline => by
    rw [List.singleton_append, List.head?_cons, Option.mem_some_iff] at hline
    exact not_not.mpr hline.symm
  obtain ⟨hsettings, hblocks⟩ := BlockLines.section_inj (fun line hline => (h.settings one hone line hline).2)
    (fun line hline => (h'.settings another hanother line hline).2) (hstop _) (hstop _) hrest
  have hpackages := installed_inj (h.kinds one hone) (h'.kinds another hanother) (h.keys one hone)
    (h'.keys another hanother) (List.append_cancel_left hblocks)
  obtain ⟨name, settings, packages⟩ := one
  obtain ⟨otherName, otherSettings, otherPackages⟩ := another
  obtain rfl : name = otherName := List.append_cancel_left (List.append_cancel_right hname)
  obtain rfl : settings = otherSettings := hsettings
  obtain rfl : packages = otherPackages := hpackages
  rfl

theorem Readable.headed_environment (h : lock.Readable) {environment : Environment}
    (henvironment : environment ∈ lock.environments) : BlockLines.Headed SpellsName environment.lines := by
  refine BlockLines.headed_cons ?_ fun line hline => not_spellsName_of_indented ?_
  · obtain ⟨first, hfirst, hspace⟩ := h.names environment henvironment
    cases hname : environment.name with
    | nil =>
        rw [hname] at hfirst
        cases hfirst
    | cons start rest =>
        rw [hname, List.head?_cons, Option.mem_some_iff] at hfirst
        rw [List.append_assoc]
        exact ⟨start, rest ++ ":".toList, rfl, hfirst ▸ hspace⟩
  · rcases List.mem_append.mp hline with hheader | hblocks
    · rcases List.mem_append.mp hheader with hsetting | hpackages
      · exact (h.settings environment henvironment line hsetting).1
      · rw [List.mem_singleton.mp hpackages]
        exact ⟨"packages:".toList, by simp⟩
    · obtain ⟨block, hblock, hin⟩ := List.mem_flatMap.mp hblocks
      obtain ⟨entry, -, rfl⟩ := List.mem_map.mp hblock
      exact indented_installed hin

theorem Readable.environments_inj (h : lock.Readable) (h' : other.Readable)
    (hlines : lock.environments.flatMap Environment.lines = other.environments.flatMap Environment.lines) :
    lock.environments = other.environments := by
  rw [List.flatMap_def, List.flatMap_def] at hlines
  refine map_inj_of_mem (fun one hone another hanother => h.environment_lines_inj h' hone hanother)
    (BlockLines.flatten_inj (fun block hblock => (?_ : BlockLines.Headed SpellsName block)) (fun block hblock => ?_)
      hlines)
  · obtain ⟨environment, henvironment, rfl⟩ := List.mem_map.mp hblock
    exact h.headed_environment henvironment
  · obtain ⟨environment, henvironment, rfl⟩ := List.mem_map.mp hblock
    exact h'.headed_environment henvironment

/-- The lines under a platform's label are indented. -/
theorem indented_body (platform : Platform) {line : Line} (h : line ∈ platform.bodyLines) :
    line.head? = some ' ' := by
  rcases List.mem_append.mp h with hsubdir | hvouched
  · obtain ⟨subdir, -, rfl⟩ := Option.map_eq_some_iff.mp (Option.mem_toList.mp hsubdir)
    simp
  · split at hvouched
    · cases hvouched
    · rcases List.mem_cons.mp hvouched with rfl | hitem
      · simp
      · obtain ⟨vouched, -, rfl⟩ := List.mem_map.mp hitem
        simp

/-- A line that spells the label of a platform. -/
def SpellsLabel (line : Line) : Prop := line.head? = some '-'

theorem spellsLabel_label (platform : Platform) :
    SpellsLabel (platform.block.lead ++ platform.block.label ++ platform.block.trail) := by
  have hlead : "- name: ".toList = ['-', ' ', 'n', 'a', 'm', 'e', ':', ' '] := by simp
  have hlabel : platform.block.lead ++ platform.block.label ++ platform.block.trail =
      "- name: ".toList ++ platform.label ++ [] := rfl
  rw [hlabel, hlead]
  exact Eq.refl _

theorem headed_platform (platform : Platform) : BlockLines.Headed SpellsLabel platform.block.lines := by
  refine BlockLines.headed_cons (spellsLabel_label platform) fun line hline hdash => ?_
  have hspace := (indented_body platform hline).symm.trans hdash
  exact absurd (Option.some.inj hspace) (by decide)

theorem roster_inj (h : textOf lock.roster = textOf other.roster) : lock.platforms = other.platforms := by
  have hheaded : ∀ platforms : List Platform, ∀ block ∈ platforms.map fun platform => platform.block.lines,
      BlockLines.Headed SpellsLabel block := by
    intro platforms block hblock
    obtain ⟨platform, -, rfl⟩ := List.mem_map.mp hblock
    exact headed_platform platform
  rw [textOf, textOf, roster, roster, List.flatMap_map, List.flatMap_map, List.flatMap_def, List.flatMap_def] at h
  exact map_inj_of_mem (fun _ _ _ _ hlines => Platform.block_lines_inj hlines)
    (BlockLines.flatten_inj (hheaded _) (hheaded _) h)

/-- Two locks with the same lines are the same lock. -/
theorem Readable.lines_inj (h : lock.Readable) (h' : other.Readable) (hlines : lock.lines = other.lines) :
    lock = other := by
  unfold lines opening at hlines
  simp only [List.append_assoc, List.singleton_append] at hlines
  have hstop : ∀ rest : List Line, ∀ line ∈ ("platforms:".toList :: rest).head?, ¬line ≠ "platforms:".toList :=
    fun rest line hline => by
      rw [List.head?_cons, Option.mem_some_iff] at hline
      exact not_not.mpr hline.symm
  obtain ⟨hhead, hrest⟩ := BlockLines.section_inj h.head h'.head (hstop _) (hstop _) hlines
  have hroster : ∀ lock : Lock, ∀ line ∈ textOf lock.roster, SpellsLabel line ∨ line.head? = some ' ' := by
    intro lock line hline
    obtain ⟨block, hblock, hin⟩ := List.mem_flatMap.mp hline
    obtain ⟨platform, -, rfl⟩ := List.mem_map.mp hblock
    rcases List.mem_cons.mp hin with rfl | hbody
    · exact Or.inl (spellsLabel_label platform)
    · exact Or.inr (indented_body platform hbody)
  have hends : ∀ rest : List Line, ∀ line ∈ ("environments:".toList :: rest).head?,
      ¬(SpellsLabel line ∨ line.head? = some ' ') := fun rest line hline => by
    rw [List.head?_cons, Option.mem_some_iff] at hline
    rw [← hline, SpellsLabel]
    simp
  obtain ⟨hplatforms, hrest⟩ := BlockLines.section_inj (hroster lock) (hroster other) (hends _) (hends _)
    (List.cons.inj hrest).2
  have hindented : ∀ {lock : Lock}, lock.Readable → ∀ line ∈ lock.environments.flatMap Environment.lines,
      line.head? = some ' ' := by
    intro lock h line hline
    obtain ⟨environment, henvironment, hin⟩ := List.mem_flatMap.mp hline
    have hheaded := h.headed_environment henvironment
    rcases List.mem_cons.mp hin with rfl | hrest
    · simp
    · obtain ⟨rest, rfl⟩ : "    ".toList <+: line := by
        rcases List.mem_append.mp hrest with hheader | hblocks
        · rcases List.mem_append.mp hheader with hsetting | hpackages
          · exact (h.settings environment henvironment line hsetting).1
          · rw [List.mem_singleton.mp hpackages]
            exact ⟨"packages:".toList, by simp⟩
        · obtain ⟨block, hblock, hin⟩ := List.mem_flatMap.mp hblocks
          obtain ⟨entry, -, rfl⟩ := List.mem_map.mp hblock
          exact indented_installed hin
      simp
  obtain ⟨henvironments, htail⟩ := BlockLines.section_inj (hindented h) (hindented h') h.tail h'.tail
    (List.cons.inj hrest).2
  have hsame := h.environments_inj h' henvironments
  have hsamePlatforms := roster_inj hplatforms
  obtain ⟨head, platforms, environments, tail⟩ := lock
  obtain ⟨otherHead, otherPlatforms, otherEnvironments, otherTail⟩ := other
  obtain rfl : head = otherHead := hhead
  obtain rfl : platforms = otherPlatforms := hsamePlatforms
  obtain rfl : environments = otherEnvironments := hsame
  obtain rfl : tail = otherTail := htail
  rfl

end Lock

end Mainboard.Pixi
