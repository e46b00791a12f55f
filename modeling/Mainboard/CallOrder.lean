import Mainboard.CallEffects
import Mainboard.OrderedMap

/-! Calls taken out of their order. Of two calls made one after the other, a write and a rename, a write and a
removal, or a rename and a removal may change places where neither reaches into what the other names; so a sequence of
calls, each given to where earlier renames left its places, leaves what it leaves with all writes made first, then the
renames, then the removals. -/

namespace FileTree

variable {ν α : Type} [DecidableEq ν]

/-- Where a place stands after a rename. -/
def shift (old new place : List ν) : List ν := if old <+: place then new ++ place.drop old.length else place

theorem shift_append {old new rest : List ν} : shift old new (old ++ rest) = new ++ rest := by
  rw [shift, if_pos (List.prefix_append old rest), List.drop_left]

theorem shift_of_not {old new place : List ν} (h : ¬ old <+: place) : shift old new place = place := if_neg h

/-- What stands above something that stands is a folder. -/
def Grounded (e : Standing ν α) : Prop :=
  ∀ folder place, folder <+: place → folder ≠ place → e place ≠ none → e folder = some .folder

omit [DecidableEq ν] in
theorem Tree.grounded (t : Tree ν α) : Grounded t.entry := fun _ _ hlead hne h => t.folder_of_prefix hlead hne h

namespace Call

variable {e : Standing ν α} {place old new gone : List ν} {contents : α}

theorem effect_write (other : List ν) : (write place contents).effect e other =
    if other = place then some (.file contents) else if other <+: place then some .folder else e other := rfl

theorem effect_rename (other : List ν) : (rename old new).effect e other =
    if new <+: other then e (old ++ other.drop new.length)
    else if old <+: other then none else if other <+: new then some .folder else e other := rfl

theorem effect_write_self : (write place contents).effect e place = some (.file contents) := if_pos rfl

theorem effect_write_above {other : List ν} (h : other <+: place) (hne : other ≠ place) :
    (write place contents).effect e other = some .folder := by
  rw [effect_write, if_neg hne, if_pos h]

theorem effect_write_apart {other : List ν} (h : ¬ other <+: place) : (write place contents).effect e other = e other := by
  have hne : other ≠ place := fun heq => h (heq ▸ List.prefix_refl _)
  rw [effect_write, if_neg hne, if_neg h]

theorem effect_rename_landed {rest : List ν} : (rename old new).effect e (new ++ rest) = e (old ++ rest) := by
  rw [effect_rename, if_pos (List.prefix_append new rest), List.drop_left]

theorem effect_rename_left {other : List ν} (h : old <+: other) (hnew : ¬ new <+: other) :
    (rename old new).effect e other = none := by
  rw [effect_rename, if_neg hnew, if_pos h]

theorem effect_rename_apart {other : List ν} (hold : ¬ old <+: other) (hnew : ¬ new <+: other) :
    (rename old new).effect e other = if other <+: new then some .folder else e other := by
  rw [effect_rename, if_neg hnew, if_neg hold]

theorem effect_remove_gone {other : List ν} (h : gone <+: other) : (remove gone).effect e other = none := if_pos h

theorem effect_remove_apart {other : List ν} (h : ¬ gone <+: other) : (remove gone).effect e other = e other := if_neg h

theorem write_ne_none {other : List ν} (h : e other ≠ none) : (write place contents).effect e other ≠ none := by
  rw [effect_write]
  split
  · exact Option.some_ne_none _
  · split
    · exact Option.some_ne_none _
    · exact h

/-- A write made where a rename left its place could have been made before the rename, which carries it. -/
theorem write_before_rename (he : Grounded e) (hrename : (rename old new).Allowed e) (hpass : ¬ new <+: place)
    (hwrite : (write (shift old new place) contents).Allowed ((rename old new).effect e)) :
    (write place contents).Allowed e ∧ (rename old new).Allowed ((write place contents).effect e) ∧
      (rename old new).effect ((write place contents).effect e) =
        (write (shift old new place) contents).effect ((rename old new).effect e) := by
  obtain ⟨hnew, hold, hinside, hopen, hfolder, hfile⟩ := hrename
  obtain ⟨hroot, hopen', hkind'⟩ := hwrite
  have hnewApart : (write place contents).effect e new = e new := effect_write_apart hpass
  have hbeneath : ∀ other, new <+: other → (write place contents).effect e other = e other := fun other hother =>
    effect_write_apart fun h => hpass (hother.trans h)
  by_cases hcarried : old <+: place
  · obtain ⟨rest, rfl⟩ := hcarried
    rw [shift_append] at hroot hopen' hkind' ⊢
    rw [effect_rename_landed] at hkind'
    have hallowed : (write (old ++ rest) contents).Allowed e := by
      refine ⟨fun hnil => ?_, fun folder hlead hne bytes hbytes => ?_, hkind'⟩
      · rw [List.append_eq_nil_iff] at hnil
        exact hinside (hnil.1 ▸ List.nil_prefix)
      · rcases List.prefix_or_prefix_of_prefix hlead (List.prefix_append old rest) with habove | hunder
        · by_cases hsame : folder = old
          · subst hsame
            have hrest : rest ≠ [] := fun hnil => hne (by rw [hnil, List.append_nil])
            refine hopen' new (List.prefix_append new rest) (fun heq => hrest ?_) bytes ?_
            · exact List.append_cancel_left ((List.append_nil new).trans heq).symm
            · have hland : (rename folder new : Call ν α).effect e (new ++ []) = e (folder ++ []) := effect_rename_landed
              rw [List.append_nil, List.append_nil] at hland
              rw [hland]
              exact hbytes
          · rw [he folder old habove hsame hold] at hbytes
            cases hbytes
        · obtain ⟨inner, rfl⟩ := hunder
          rw [List.prefix_append_right_inj] at hlead
          refine hopen' (new ++ inner) ((List.prefix_append_right_inj new).mpr hlead) (fun heq => hne ?_) bytes ?_
          · rw [List.append_cancel_left heq]
          · rw [effect_rename_landed]
            exact hbytes
    have hkindOld : rest ≠ [] → e old = some .folder := fun hrest => by
      have hne : old ≠ old ++ rest := fun heq => hrest
        (List.append_cancel_left ((List.append_nil old).trans heq)).symm
      have hnot := hallowed.2.1 old (List.prefix_append old rest) hne
      cases hentry : e old with
      | none => exact absurd hentry hold
      | some entry =>
          cases entry with
          | folder => rfl
          | file bytes => exact absurd hentry (hnot bytes)
    refine ⟨hallowed, ⟨hnew, write_ne_none hold, hinside, fun folder hlead hne bytes hbytes => ?_, fun hkind => ?_,
      fun hkind => ?_⟩, funext fun other => ?_⟩
    · by_cases hself : folder <+: old ++ rest
      · by_cases hsame : folder = old ++ rest
        · exact hinside ((hsame ▸ List.prefix_append old rest).trans hlead)
        · rw [effect_write_above hself hsame] at hbytes
          cases hbytes
      · rw [effect_write_apart hself] at hbytes
        exact hopen folder hlead hne bytes hbytes
    · have hrest : rest ≠ [] := fun hnil => by
        rw [hnil, List.append_nil, effect_write_self] at hkind
        cases hkind
      obtain ⟨hnotFile, hempty⟩ := hfolder (hkindOld hrest)
      refine ⟨fun bytes => hnewApart ▸ hnotFile bytes, fun other hother hne => ?_⟩
      rw [hbeneath other hother]
      exact hempty other hother hne
    · rw [hnewApart]
      refine hfile fun hfold => ?_
      by_cases hrest : rest = []
      · rw [hrest, List.append_nil] at hkind'
        exact hkind' hfold
      · refine hkind (effect_write_above (List.prefix_append old rest) fun heq => hrest ?_)
        exact (List.append_cancel_left ((List.append_nil old).trans heq)).symm
    · by_cases hother : new <+: other
      · obtain ⟨inner, rfl⟩ := hother
        rw [effect_rename_landed, effect_write, effect_write, effect_rename_landed]
        simp only [List.append_cancel_left_eq, List.prefix_append_right_inj]
      · have hshort : other <+: new ++ rest ↔ other <+: new := by
          refine ⟨fun h => ?_, fun h => h.trans (List.prefix_append new rest)⟩
          exact (List.prefix_or_prefix_of_prefix h (List.prefix_append new rest)).resolve_right hother
        have hself : other ≠ new ++ rest := fun heq => hother (heq ▸ List.prefix_append new rest)
        by_cases hfrom : old <+: other
        · rw [effect_rename_left hfrom hother,
            effect_write_apart fun h => hinside (hfrom.trans (hshort.mp h)), effect_rename_left hfrom hother]
        · rw [effect_rename_apart hfrom hother]
          by_cases habove : other <+: new
          · rw [if_pos habove, effect_write_above (hshort.mpr habove) hself]
          · rw [if_neg habove, effect_write_apart fun h => habove (hshort.mp h), effect_rename_apart hfrom hother,
              if_neg habove]
            by_cases hup : other <+: old ++ rest
            · have hover : other <+: old :=
                (List.prefix_or_prefix_of_prefix hup (List.prefix_append old rest)).resolve_right hfrom
              have hne : other ≠ old := fun heq => hfrom (heq ▸ List.prefix_refl _)
              rw [effect_write_above hup fun heq => hfrom (heq ▸ List.prefix_append old rest),
                he other old hover hne hold]
            · exact effect_write_apart hup
  · rw [shift_of_not hcarried] at hroot hopen' hkind' ⊢
    rw [effect_rename_apart hcarried hpass] at hkind'
    have habove : ¬ place <+: new := fun h => hkind' (if_pos h)
    rw [if_neg habove] at hkind'
    have hallowed : (write place contents).Allowed e := by
      refine ⟨hroot, fun folder hlead hne bytes hbytes => ?_, hkind'⟩
      have hnotOld : ¬ old <+: folder := fun h => hcarried (h.trans hlead)
      have hnotNew : ¬ new <+: folder := fun h => hpass (h.trans hlead)
      have hentry := effect_rename_apart (e := e) hnotOld hnotNew
      split at hentry
      · rename_i hup
        exact hopen folder hup (fun heq => hnotNew (heq ▸ List.prefix_refl _)) bytes hbytes
      · exact hopen' folder hlead hne bytes (hentry.trans hbytes)
    have hsameOld : (write place contents).effect e old = e old := effect_write_apart hcarried
    refine ⟨hallowed, ⟨hnew, hsameOld ▸ hold, hinside, fun folder hlead hne bytes hbytes => ?_, fun hkind => ?_,
      fun hkind => ?_⟩, funext fun other => ?_⟩
    · by_cases hself : folder <+: place
      · by_cases hsame : folder = place
        · exact habove (hsame ▸ hlead)
        · rw [effect_write_above hself hsame] at hbytes
          cases hbytes
      · rw [effect_write_apart hself] at hbytes
        exact hopen folder hlead hne bytes hbytes
    · obtain ⟨hnotFile, hempty⟩ := hfolder (hsameOld ▸ hkind)
      refine ⟨fun bytes => hnewApart ▸ hnotFile bytes, fun other hother hne => ?_⟩
      rw [hbeneath other hother]
      exact hempty other hother hne
    · rw [hnewApart]
      exact hfile (hsameOld ▸ hkind)
    · by_cases hother : new <+: other
      · rw [effect_write_apart fun h => hpass (hother.trans h)]
        obtain ⟨inner, rfl⟩ := hother
        rw [effect_rename_landed, effect_rename_landed]
        exact effect_write_apart fun h => hcarried ((List.prefix_append old inner).trans h)
      · by_cases hfrom : old <+: other
        · rw [effect_rename_left hfrom hother, effect_write_apart fun h => hcarried (hfrom.trans h),
            effect_rename_left hfrom hother]
        · rw [effect_rename_apart hfrom hother]
          by_cases hself : other = place
          · subst hself
            rw [if_neg habove, effect_write_self, effect_write_self]
          · by_cases hup : other <+: place
            · rw [effect_write_above hup hself, effect_write_above hup hself]
              exact ite_self _
            · rw [effect_write_apart hup, effect_write_apart hup, effect_rename_apart hfrom hother]

/-- A write made after a removal of nothing above its place could have been made before it. -/
theorem write_before_remove (hremove : (remove gone).Allowed e) (hapart : ¬ gone <+: place)
    (hwrite : (write place contents).Allowed ((remove gone).effect e)) :
    (write place contents).Allowed e ∧ (remove gone).Allowed ((write place contents).effect e) ∧
      (remove gone).effect ((write place contents).effect e) =
        (write place contents).effect ((remove gone).effect e) := by
  obtain ⟨hroot, hopen, hkind⟩ := hwrite
  rw [effect_remove_apart hapart] at hkind
  refine ⟨⟨hroot, fun folder hlead hne bytes hbytes => ?_, hkind⟩, write_ne_none hremove, funext fun other => ?_⟩
  · refine hopen folder hlead hne bytes ?_
    rw [effect_remove_apart fun h => hapart (h.trans hlead)]
    exact hbytes
  · by_cases hother : gone <+: other
    · rw [effect_remove_gone hother, effect_write_apart fun h => hapart (hother.trans h), effect_remove_gone hother]
    · rw [effect_remove_apart hother, effect_write, effect_write, effect_remove_apart hother]

/-- A rename made after a removal that neither of its ends meets could have been made before it. -/
theorem rename_before_remove (hremove : (remove gone).Allowed e) (hold : ¬ old <+: gone) (hgone : ¬ gone <+: new)
    (hnew : ¬ new <+: gone) (hrename : (rename old new).Allowed ((remove gone).effect e)) :
    (rename old new).Allowed e ∧ (remove gone).Allowed ((rename old new).effect e) ∧
      (remove gone).effect ((rename old new).effect e) = (rename old new).effect ((remove gone).effect e) := by
  obtain ⟨hroot, hstands, hinside, hopen, hfolder, hfile⟩ := hrename
  have hapart : ¬ gone <+: old := fun h => hstands (effect_remove_gone h)
  have hbeneath : ∀ other, new <+: other → ¬ gone <+: other := fun other hother h =>
    (List.prefix_or_prefix_of_prefix h hother).elim hgone hnew
  rw [effect_remove_apart hapart] at hstands hfolder hfile
  rw [effect_remove_apart hgone] at hfolder hfile
  refine ⟨⟨hroot, hstands, hinside, fun folder hlead hne bytes hbytes => ?_, fun hkind => ?_, hfile⟩, ?_,
    funext fun other => ?_⟩
  · refine hopen folder hlead hne bytes ?_
    rw [effect_remove_apart fun h => hgone (h.trans hlead)]
    exact hbytes
  · refine ⟨(hfolder hkind).1, fun other hother hne => ?_⟩
    rw [← (hfolder hkind).2 other hother hne, effect_remove_apart (hbeneath other hother)]
  · show (rename old new).effect e gone ≠ none
    rw [effect_rename_apart hold hnew]
    split
    · exact Option.some_ne_none _
    · exact hremove
  · by_cases hother : new <+: other
    · rw [effect_remove_apart (hbeneath other hother)]
      obtain ⟨inner, rfl⟩ := hother
      rw [effect_rename_landed, effect_rename_landed]
      refine (effect_remove_apart fun h => ?_).symm
      exact (List.prefix_or_prefix_of_prefix h (List.prefix_append old inner)).elim hapart hold
    · by_cases hfrom : old <+: other
      · rw [effect_rename_left hfrom hother]
        by_cases hoff : gone <+: other
        · exact effect_remove_gone hoff
        · rw [effect_remove_apart hoff, effect_rename_left hfrom hother]
      · rw [effect_rename_apart hfrom hother]
        by_cases hup : other <+: new
        · rw [if_pos hup, effect_remove_apart fun h => hgone (h.trans hup), effect_rename_apart hfrom hother,
            if_pos hup]
        · rw [if_neg hup]
          by_cases hoff : gone <+: other
          · rw [effect_remove_gone hoff, effect_remove_gone hoff]
          · rw [effect_remove_apart hoff, effect_remove_apart hoff, effect_rename_apart hfrom hother, if_neg hup]

end Call

end FileTree
