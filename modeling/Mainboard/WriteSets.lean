import Mainboard.CallSequence

/-! Writes made one after the other, told all at once: they are made where none of their places has a file above it,
is a folder, or stands above another, and leave at each place what was last written there. So what they leave depends
on neither their order between places nor on what was written over. -/

namespace FileTree

variable {ν α : Type} [DecidableEq ν]

open Sequence

/-- Places that can all be written. -/
structure Writable (e : Standing ν α) (places : List (List ν)) : Prop where
  nonempty : ∀ place ∈ places, place ≠ []
  opened : ∀ place ∈ places, Open e place
  free : ∀ place ∈ places, e place ≠ some .folder
  apart : ∀ place ∈ places, ∀ other ∈ places, place <+: other → place = other

/-- What writes leave at every place. -/
def settled (writes : List (List ν × α)) (e : Standing ν α) : Standing ν α := fun place =>
  match last writes place with
  | some contents => some (.file contents)
  | none => if writes.any fun entry => decide (place <+: entry.1) then some .folder else e place

variable {t : Tree ν α} {e : Standing ν α} {writes others : List (List ν × α)} {place other : List ν} {contents : α}

theorem last_cons : last ((place, contents) :: writes) other =
    match last writes other with
    | some bytes => some bytes
    | none => if place = other then some contents else none := by
  unfold last
  rw [OrderedMap.get_ofPairs, OrderedMap.get_ofPairs, List.reverse_cons, List.find?_append]
  cases writes.reverse.find? fun pair => decide (pair.1 = other) with
  | some pair => rfl
  | none =>
      rw [Option.none_or, List.find?_cons]
      by_cases hsame : place = other <;> simp [hsame]

theorem last_eq_none_iff : last writes place = none ↔ place ∉ writes.map (·.1) := by
  rw [last, OrderedMap.get_eq_none_iff, not_iff_not]
  exact OrderedMap.mem_keys_ofPairs

theorem writable_cons (contents : α) {places : List (List ν)} : Writable e (place :: places) ↔
    (Call.write place contents).Allowed e ∧ Writable ((Call.write place contents).effect e) places := by
  constructor
  · intro h
    have hplace : place ∈ place :: places := List.mem_cons_self
    refine ⟨⟨h.nonempty place hplace, h.opened place hplace, h.free place hplace⟩, ⟨fun other hother => ?_,
      fun other hother folder hlead hne bytes hbytes => ?_, fun other hother hfolder => ?_,
      fun other hother another hanother => ?_⟩⟩
    · exact h.nonempty other (List.mem_cons_of_mem _ hother)
    · rw [Call.effect_write] at hbytes
      split at hbytes
      · rename_i hsame
        have heq := h.apart place hplace other (List.mem_cons_of_mem _ hother) (hsame ▸ hlead)
        exact hne (hsame.trans heq)
      · split at hbytes
        · cases hbytes
        · exact h.opened other (List.mem_cons_of_mem _ hother) folder hlead hne bytes hbytes
    · rw [Call.effect_write] at hfolder
      split at hfolder
      · cases hfolder
      · rename_i hne
        split at hfolder
        · rename_i hlead
          exact hne (h.apart other (List.mem_cons_of_mem _ hother) place hplace hlead)
        · exact h.free other (List.mem_cons_of_mem _ hother) hfolder
    · exact h.apart other (List.mem_cons_of_mem _ hother) another (List.mem_cons_of_mem _ hanother)
  · rintro ⟨⟨hroot, hopen, hfree⟩, h⟩
    have habove : ∀ other ∈ places, other <+: place → other = place := fun other hother hlead => by
      by_contra hne
      exact h.free other hother (Call.effect_write_above hlead hne)
    have hbeneath : ∀ other ∈ places, place <+: other → place = other := fun other hother hlead => by
      by_contra hne
      exact h.opened other hother place hlead hne contents Call.effect_write_self
    refine ⟨?_, ?_, ?_, ?_⟩
    · exact List.forall_mem_cons.mpr ⟨hroot, h.nonempty⟩
    · refine List.forall_mem_cons.mpr ⟨hopen, fun other hother folder hlead hne bytes hbytes => ?_⟩
      by_cases hup : folder <+: place
      · by_cases hsame : folder = place
        · subst hsame
          exact hne (hbeneath other hother hlead)
        · exact hopen folder hup hsame bytes hbytes
      · exact h.opened other hother folder hlead hne bytes ((Call.effect_write_apart hup).trans hbytes)
    · refine List.forall_mem_cons.mpr ⟨hfree, fun other hother hfolder => ?_⟩
      by_cases hup : other <+: place
      · exact hfree (habove other hother hup ▸ hfolder)
      · exact h.free other hother ((Call.effect_write_apart hup).trans hfolder)
    · intro one hone two htwo hlead
      rcases List.mem_cons.mp hone with rfl | hfirst
      · rcases List.mem_cons.mp htwo with rfl | hsecond
        · rfl
        · exact hbeneath two hsecond hlead
      · rcases List.mem_cons.mp htwo with rfl | hsecond
        · exact habove one hfirst hlead
        · exact h.apart one hfirst two hsecond hlead

theorem settled_cons (h : Writable e (place :: writes.map (·.1))) :
    settled writes ((Call.write place contents).effect e) = settled ((place, contents) :: writes) e := by
  funext other
  unfold settled
  rw [last_cons]
  cases hlast : last writes other with
  | some bytes => rfl
  | none =>
      dsimp only
      by_cases hsame : place = other
      · subst hsame
        rw [if_pos rfl, if_neg, Call.effect_write_self]
        rw [List.any_eq_true]
        rintro ⟨entry, hentry, hlead⟩
        have hmem : entry.1 ∈ writes.map (·.1) := List.mem_map_of_mem hentry
        have heq := h.apart place List.mem_cons_self entry.1 (List.mem_cons_of_mem _ hmem) (of_decide_eq_true hlead)
        exact last_eq_none_iff.mp hlast (heq ▸ hmem)
      · rw [if_neg hsame, List.any_cons]
        dsimp only
        cases hany : writes.any fun entry => decide (other <+: entry.1) with
        | true => rw [Bool.or_true]; rfl
        | false =>
            rw [Bool.or_false, Call.effect_write, if_neg (Ne.symm hsame)]
            simp only [decide_eq_true_eq, if_neg Bool.false_ne_true]

/-- Writes are made one after the other exactly where all can be, and leave what was last written. -/
theorem leads_writes_iff : Leads t (writeCalls writes) e ↔
    Writable t.entry (writes.map (·.1)) ∧ e = settled writes t.entry := by
  induction writes generalizing t with
  | nil =>
      refine ⟨fun h => ⟨⟨?_, ?_, ?_, ?_⟩, h.symm⟩, fun h => h.2.symm⟩ <;> exact fun place hplace => by cases hplace
  | cons entry writes ih =>
      obtain ⟨place, contents⟩ := entry
      have hproper : (Call.write place contents).Proper := trivial
      rw [List.map_cons, writable_cons contents]
      constructor
      · intro h
        have hentry := Call.make_entry hproper h.1
        obtain ⟨hwritable, heq⟩ := ih.mp h.2
        rw [hentry] at hwritable heq
        have hall : (Call.write place contents).Allowed t.entry ∧
            Writable ((Call.write place contents).effect t.entry) (writes.map (·.1)) :=
          ⟨(Call.make_iff hproper).mp h.1, hwritable⟩
        exact ⟨hall, heq.trans (settled_cons ((writable_cons contents).mpr hall))⟩
      · rintro ⟨hall, rfl⟩
        have hmade := (Call.make_iff hproper).mpr hall.1
        have hentry := Call.make_entry hproper hmade
        refine ⟨hmade, ih.mpr ⟨hentry ▸ hall.2, ?_⟩⟩
        rw [hentry, settled_cons ((writable_cons contents).mpr hall)]

/-- Writes to the same places that leave the same contents last may stand for each other. -/
theorem Leads.rewrite (hplaces : ∀ place, place ∈ writes.map (·.1) ↔ place ∈ others.map (·.1))
    (hlast : ∀ place, last writes place = last others place) (h : Leads t (writeCalls writes) e) :
    Leads t (writeCalls others) e := by
  obtain ⟨hwritable, rfl⟩ := leads_writes_iff.mp h
  refine leads_writes_iff.mpr ⟨⟨fun place hplace => ?_, fun place hplace => ?_, fun place hplace => ?_,
    fun place hplace other hother => ?_⟩, funext fun place => ?_⟩
  · exact hwritable.nonempty place ((hplaces place).mpr hplace)
  · exact hwritable.opened place ((hplaces place).mpr hplace)
  · exact hwritable.free place ((hplaces place).mpr hplace)
  · exact hwritable.apart place ((hplaces place).mpr hplace) other ((hplaces other).mpr hother)
  · unfold settled
    rw [hlast]
    have hany : (writes.any fun entry => decide (place <+: entry.1)) =
        others.any fun entry => decide (place <+: entry.1) := by
      rw [Bool.eq_iff_iff, List.any_eq_true, List.any_eq_true]
      constructor
      · rintro ⟨entry, hentry, hlead⟩
        obtain ⟨other, hother, heq⟩ := List.mem_map.mp ((hplaces entry.1).mp (List.mem_map_of_mem hentry))
        exact ⟨other, hother, by rw [heq]; exact hlead⟩
      · rintro ⟨entry, hentry, hlead⟩
        obtain ⟨other, hother, heq⟩ := List.mem_map.mp ((hplaces entry.1).mpr (List.mem_map_of_mem hentry))
        exact ⟨other, hother, by rw [heq]; exact hlead⟩
    rw [hany]

end FileTree
