import Mainboard.FileCalls

/-! When a call on a tree of files is made and what it then leaves, told from what stands where. A call made right
after another is then told from what stood before both. -/

namespace FileTree

variable {ν α : Type}

/-- What stands at each place. -/
abbrev Standing (ν α : Type) := List ν → Option (Entry α)

/-- No file stands above a place. -/
def Open (e : Standing ν α) (place : List ν) : Prop :=
  ∀ folder, folder <+: place → folder ≠ place → ∀ contents, e folder ≠ some (.file contents)

namespace Call

variable [DecidableEq ν]

/-- What a call that is made leaves at every place. -/
def effect : Call ν α → Standing ν α → Standing ν α
  | write place contents, e => fun other =>
      if other = place then some (.file contents) else if other <+: place then some .folder else e other
  | rename old new, e => fun other =>
      if new <+: other then e (old ++ other.drop new.length)
      else if old <+: other then none else if other <+: new then some .folder else e other
  | remove place, e => fun other => if place <+: other then none else e other

/-- What stands lets the call be made. -/
def Allowed : Call ν α → Standing ν α → Prop
  | write place _, e => place ≠ [] ∧ Open e place ∧ e place ≠ some .folder
  | rename old new, e => new ≠ [] ∧ e old ≠ none ∧ ¬ old <+: new ∧ Open e new ∧
      (e old = some .folder → (∀ contents, e new ≠ some (.file contents)) ∧
        ∀ other, new <+: other → other ≠ new → e other = none) ∧
      (e old ≠ some .folder → e new ≠ some .folder)
  | remove place, e => e place ≠ none

variable {t : Tree ν α} {place old new other : List ν} {contents : α}

omit [DecidableEq ν] in
theorem prefix_dropLast_iff (hplace : place ≠ []) : other <+: place.dropLast ↔ other <+: place ∧ other ≠ place := by
  refine ⟨fun h => ⟨h.trans (List.dropLast_prefix place), fun heq => ?_⟩, fun ⟨hlead, hne⟩ => ?_⟩
  · have hlength := h.length_le
    rw [heq, List.length_dropLast] at hlength
    have hpos := List.length_pos_of_ne_nil hplace
    omega
  · refine List.prefix_of_prefix_length_le hlead (List.dropLast_prefix place) ?_
    have hlt : other.length < place.length :=
      lt_of_le_of_ne hlead.length_le fun heq => hne (hlead.eq_of_length heq)
    rw [List.length_dropLast]
    omega

/-- Folders can be made above a place exactly where no file stands above it. -/
theorem mkdirs_ok_iff (hplace : place ≠ []) :
    (∃ made, t.mkdirs place.dropLast = .ok made) ↔ Open t.entry place := by
  have hopen : Open t.entry place ↔ ∀ folder, folder <+: place.dropLast → t.isFile folder = false := by
    refine forall_congr' fun folder => ?_
    rw [prefix_dropLast_iff hplace]
    refine ⟨fun h hfolder => ?_, fun h hlead hne contents hfile => ?_⟩
    · rw [← Bool.not_eq_true, t.isFile_iff]
      rintro ⟨contents, hfile⟩
      exact h hfolder.1 hfolder.2 contents hfile
    · exact Bool.eq_false_iff.mp (h ⟨hlead, hne⟩) (t.isFile_iff.mpr ⟨contents, hfile⟩)
  rw [hopen]
  refine ⟨fun ⟨made, hmade⟩ => (Tree.mkdirs_eq hmade).2, fun h => ⟨t.withFolders place.dropLast, ?_⟩⟩
  unfold Tree.mkdirs
  rw [if_neg (Bool.eq_false_iff.mp (h _ (List.prefix_refl _))), if_neg]
  rw [List.any_eq_true]
  rintro ⟨folder, hfolder, hfile⟩
  exact Bool.eq_false_iff.mp (h folder (mem_above.mp hfolder).1) hfile

/-- What stands once folders were made above a place. -/
theorem entry_mkdirs {made : Tree ν α} (hplace : place ≠ []) (h : t.mkdirs place.dropLast = .ok made) :
    made.entry = fun other => if other <+: place ∧ other ≠ place then some .folder else t.entry other := by
  rw [(Tree.mkdirs_eq h).1]
  funext other
  exact if_congr (prefix_dropLast_iff hplace) rfl rfl

theorem holding_iff : t.holding place = true ↔ ∃ other, place <+: other ∧ other ≠ place ∧ t.entry other ≠ none := by
  unfold Tree.holding
  simp only [List.any_eq_true, Bool.and_eq_true, decide_eq_true_eq, Option.isSome_iff_ne_none]
  refine ⟨fun ⟨other, _, h, hentry⟩ => ⟨other, h.1, h.2, hentry⟩, fun ⟨other, hlead, hne, hentry⟩ => ?_⟩
  exact ⟨other, t.mem_places other hentry, ⟨hlead, hne⟩, hentry⟩

theorem make_write_nil : ((write [] contents).make t).raised = true := by
  have hraised : ((write [] contents).make t).raised ≠ false := fun h => by
    obtain ⟨made, hmade, hwrite⟩ := Outcome.within_ok h
    unfold Tree.write at hwrite
    split at hwrite
    · cases hwrite
    · rename_i hfolder
      refine hfolder (made.isFolder_iff.mpr ?_)
      rw [(Tree.mkdirs_eq hmade).1]
      exact if_pos List.nil_prefix
  simpa using hraised

/-- A write is made exactly where it is allowed, and has its effect. -/
theorem make_write : (((write place contents).make t).raised = false ↔ (write place contents).Allowed t.entry) ∧
    (((write place contents).make t).raised = false →
      ((write place contents).make t).tree.entry = (write place contents).effect t.entry) := by
  by_cases hplace : place = []
  · subst hplace
    rw [make_write_nil]
    exact ⟨⟨fun h => (by cases h), fun h => absurd rfl h.1⟩, fun h => (by cases h)⟩
  refine ⟨⟨fun h => ?_, fun h => ?_⟩, fun h => ?_⟩
  · obtain ⟨made, hmade, hwrite⟩ := Outcome.within_ok h
    refine ⟨hplace, (mkdirs_ok_iff hplace).mp ⟨made, hmade⟩, fun hfolder => ?_⟩
    unfold Tree.write at hwrite
    split at hwrite
    · cases hwrite
    · rename_i hnot
      refine hnot (made.isFolder_iff.mpr ?_)
      rw [entry_mkdirs hplace hmade]
      exact (if_neg fun hself => hself.2 rfl).trans hfolder
  · obtain ⟨made, hmade⟩ := (mkdirs_ok_iff hplace).mpr h.2.1
    have hentry := entry_mkdirs hplace hmade
    have hnot : ¬ made.isFolder place = true := fun hfolder => by
      rw [made.isFolder_iff, congrFun hentry place, if_neg fun hself => hself.2 rfl] at hfolder
      exact h.2.2 hfolder
    have habove : made.isFolder place.dropLast = true := by
      rw [made.isFolder_iff, hentry]
      exact if_pos ((prefix_dropLast_iff hplace).mp (List.prefix_refl _))
    show (Outcome.within t place.dropLast fun made => made.write place contents).raised = false
    unfold Outcome.within
    rw [hmade]
    dsimp only
    unfold Tree.write
    rw [dif_neg hnot, dif_pos habove]
    rfl
  · obtain ⟨made, hmade, hwrite⟩ := Outcome.within_ok h
    have hentry := entry_mkdirs hplace hmade
    have hnext := Tree.write_eq hwrite
    refine hnext.trans (funext fun other => ?_)
    rw [hentry]
    unfold effect
    dsimp only
    by_cases hsame : other = place
    · rw [if_pos hsame, if_pos hsame]
    · rw [if_neg hsame, if_neg hsame]
      exact if_congr (and_iff_left hsame) rfl rfl

/-- A removal is made exactly where it is allowed, and has its effect. -/
theorem make_remove : (((remove place).make t).raised = false ↔ (remove place).Allowed t.entry) ∧
    (((remove place).make t).raised = false →
      ((remove place).make t).tree.entry = (remove place).effect t.entry) := by
  refine ⟨⟨fun h hnone => ?_, fun h => ?_⟩, fun h => removed_eq (Outcome.after_ok h)⟩
  · have hok := Outcome.after_ok h
    split at hok
    · rw [(Tree.rmtree_eq hok).2] at hnone
      cases hnone
    · obtain ⟨contents, hfile⟩ := (Tree.unlink_eq hok).2
      rw [hfile] at hnone
      cases hnone
  · show (Outcome.after t (if t.isFolder place then t.rmtree place else t.unlink place)).raised = false
    cases hentry : t.entry place with
    | none => exact absurd hentry h
    | some entry =>
        cases entry with
        | folder =>
            rw [if_pos (t.isFolder_iff.mpr hentry), Tree.rmtree, hentry]
            rfl
        | file contents =>
            rw [if_neg (by rw [t.isFolder_iff, hentry]; exact fun heq => by cases heq), Tree.unlink, hentry]
            rfl

/-- A rename to another place is made exactly where it is allowed, and has its effect. -/
theorem make_rename (hself : old ≠ new) :
    (((rename old new).make t).raised = false ↔ (rename old new : Call ν α).Allowed t.entry) ∧
    (((rename old new).make t).raised = false →
      ((rename old new).make t).tree.entry = (rename old new).effect t.entry) := by
  by_cases hnew : new = []
  · subst hnew
    have hraised : ((rename old []).make t).raised ≠ false := fun h => by
      obtain ⟨made, hmade, hrename⟩ := Outcome.within_ok h
      have hroot : made.entry [] = some .folder := by
        rw [(Tree.mkdirs_eq hmade).1]
        exact if_pos List.nil_prefix
      obtain ⟨hold, -⟩ := Tree.rename_eq hrename
      obtain ⟨hfolder, hfile⟩ := Tree.rename_guards hrename hself
      by_cases hkind : made.isFolder old = true
      · have hempty := (hfolder hkind).2
        rw [← Bool.not_eq_true, holding_iff] at hempty
        exact hempty ⟨old, List.nil_prefix, hself, hold⟩
      · exact Bool.eq_false_iff.mp (hfile (Bool.eq_false_iff.mpr hkind)) (made.isFolder_iff.mpr hroot)
    exact ⟨⟨fun h => absurd h hraised, fun h => absurd rfl h.1⟩, fun h => absurd h hraised⟩
  have hkept : ∀ {made : Tree ν α}, t.mkdirs new.dropLast = .ok made → ∀ other, ¬ (other <+: new ∧ other ≠ new) →
      made.entry other = t.entry other := fun hmade other hother => by
    rw [entry_mkdirs hnew hmade]
    exact if_neg hother
  refine ⟨⟨fun h => ?_, fun h => ?_⟩, fun h => ?_⟩
  · obtain ⟨made, hmade, hrename⟩ := Outcome.within_ok h
    obtain ⟨hold, hcases⟩ := Tree.rename_eq hrename
    obtain ⟨hinside, -⟩ := hcases.resolve_left fun hsame => hself hsame.1
    have hsameOld : made.entry old = t.entry old := hkept hmade old fun hother => hinside hother.1
    have hsameNew : made.entry new = t.entry new := hkept hmade new fun hother => hother.2 rfl
    rw [hsameOld] at hold
    obtain ⟨hfolder, hfile⟩ := Tree.rename_guards hrename hself
    refine ⟨hnew, hold, hinside, (mkdirs_ok_iff hnew).mp ⟨made, hmade⟩, fun hkind => ?_, fun hkind hnewFolder => ?_⟩
    · obtain ⟨hnotFile, hempty⟩ := hfolder (made.isFolder_iff.mpr (hsameOld.trans hkind))
      rw [← Bool.not_eq_true, holding_iff] at hempty
      refine ⟨fun contents hcontents => ?_, fun other hother hne => ?_⟩
      · exact Bool.eq_false_iff.mp hnotFile (made.isFile_iff.mpr ⟨contents, hsameNew.trans hcontents⟩)
      · by_contra hentry
        refine hempty ⟨other, hother, hne, ?_⟩
        rwa [hkept hmade other fun habove => habove.2 (habove.1.eq_of_length_le hother.length_le)]
    · refine Bool.eq_false_iff.mp (hfile (Bool.eq_false_iff.mpr fun hfold => ?_))
        (made.isFolder_iff.mpr (hsameNew.trans hnewFolder))
      exact hkind (hsameOld.symm.trans (made.isFolder_iff.mp hfold))
  · obtain ⟨-, hold, hinside, hopen, hfolder, hfile⟩ := h
    obtain ⟨made, hmade⟩ := (mkdirs_ok_iff hnew).mpr hopen
    have hsameOld : made.entry old = t.entry old := hkept hmade old fun hother => hinside hother.1
    have hsameNew : made.entry new = t.entry new := hkept hmade new fun hother => hother.2 rfl
    have habove : made.isFolder new.dropLast = true := by
      rw [made.isFolder_iff, entry_mkdirs hnew hmade]
      exact if_pos ((prefix_dropLast_iff hnew).mp (List.prefix_refl _))
    show (Outcome.within t new.dropLast fun made => made.rename old new).raised = false
    unfold Outcome.within
    rw [hmade]
    dsimp only
    unfold Tree.rename
    rw [if_neg (by rw [Option.isNone_iff_eq_none, hsameOld]; exact hold), if_neg hself, dif_neg hinside, dif_pos habove]
    by_cases hkind : t.entry old = some .folder
    · obtain ⟨hnotFile, hempty⟩ := hfolder hkind
      rw [if_pos (made.isFolder_iff.mpr (hsameOld.trans hkind)), if_neg, if_neg]
      · rfl
      · rw [holding_iff]
        rintro ⟨other, hother, hne, hentry⟩
        rw [hkept hmade other fun habove => habove.2 (habove.1.eq_of_length_le hother.length_le)] at hentry
        exact hentry (hempty other hother hne)
      · rw [made.isFile_iff]
        rintro ⟨contents, hcontents⟩
        exact hnotFile contents (hsameNew.symm.trans hcontents)
    · rw [if_neg (by rw [made.isFolder_iff, hsameOld]; exact hkind),
        if_neg (by rw [made.isFolder_iff, hsameNew]; exact hfile hkind)]
      rfl
  · obtain ⟨made, hmade, hrename⟩ := Outcome.within_ok h
    obtain ⟨-, hcases⟩ := Tree.rename_eq hrename
    obtain ⟨hinside, hnext⟩ := hcases.resolve_left fun hsame => hself hsame.1
    refine hnext.trans (funext fun other => ?_)
    unfold effect
    dsimp only
    by_cases hother : new <+: other
    · rw [if_pos hother, if_pos hother]
      exact hkept hmade _ fun habove => hinside ((List.prefix_append old _).trans habove.1)
    · rw [if_neg hother, if_neg hother]
      by_cases hfrom : old <+: other
      · rw [if_pos hfrom, if_pos hfrom]
      · rw [if_neg hfrom, if_neg hfrom, entry_mkdirs hnew hmade]
        refine if_congr (and_iff_left fun hsame => hother ?_) rfl rfl
        rw [hsame]

/-- The call renames nothing to its own place. -/
def Proper : Call ν α → Prop
  | rename old new => old ≠ new
  | _ => True

/-- A call is made exactly where it is allowed. -/
theorem make_iff {call : Call ν α} (hcall : call.Proper) : (call.make t).raised = false ↔ call.Allowed t.entry := by
  cases call with
  | write place contents => exact make_write.1
  | rename old new => exact (make_rename hcall).1
  | remove place => exact make_remove.1

/-- A call that is made has its effect. -/
theorem make_entry {call : Call ν α} (hcall : call.Proper) (h : (call.make t).raised = false) :
    (call.make t).tree.entry = call.effect t.entry := by
  cases call with
  | write place contents => exact make_write.2 h
  | rename old new => exact (make_rename hcall).2 h
  | remove place => exact make_remove.2 h

end Call

end FileTree
