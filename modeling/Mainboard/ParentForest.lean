import Mathlib.Data.List.Perm.Subperm
import Mathlib.Logic.Relation
import Mainboard.OrderedMap

/-! Pointers to parents, kept in a map: what a chain of them leads to, and what becomes of the chains when one pointer
is set past its target, a root is hung under another, a name is added, or a set of names closed under chains is taken
out. A climb along a chain halves it as it goes. -/

namespace ParentForest

open OrderedMap

variable {κ : Type} [DecidableEq κ]

/-- A name's chain of so many pointers ends at a root, which points at itself. -/
inductive Leads (parent : List (κ × κ)) : ℕ → κ → κ → Prop
  | here {root : κ} (hroot : get parent root = some root) : Leads parent 0 root root
  | up {steps : ℕ} {name above root : κ} (habove : get parent name = some above) (hne : above ≠ name)
      (hleads : Leads parent steps above root) : Leads parent (steps + 1) name root

/-- Every name leads to a root. -/
structure Forest (parent : List (κ × κ)) : Prop where
  nodup : (parent.map (·.1)).Nodup
  leads : ∀ name ∈ parent.map (·.1), ∃ steps root, Leads parent steps name root

/-- Two names lead to one root. -/
def Same (parent : List (κ × κ)) (one other : κ) : Prop :=
  ∃ root, (∃ steps, Leads parent steps one root) ∧ ∃ steps, Leads parent steps other root

/-- The root a name leads to, each pointer on the way set past its target, for so many steps. -/
def climb : ℕ → List (κ × κ) → κ → Option (List (κ × κ) × κ)
  | 0, _, _ => none
  | steps + 1, parent, name => do
      let above ← get parent name
      if above = name then return (parent, name)
      else
        let further ← get parent above
        climb steps (put parent name further) further

variable {parent : List (κ × κ)} {name other root above : κ} {steps : ℕ}

theorem mem_keys_of_get (h : get parent name = some above) : name ∈ parent.map (·.1) := by
  by_contra hnot
  rw [(get_eq_none_iff parent name).mpr hnot] at h
  cases h

theorem Leads.mem_keys (h : Leads parent steps name root) : name ∈ parent.map (·.1) := by
  cases h with
  | here hroot => exact mem_keys_of_get hroot
  | up habove hne hleads => exact mem_keys_of_get habove

theorem Leads.root_root (h : Leads parent steps name root) : get parent root = some root := by
  induction h with
  | here hroot => exact hroot
  | up habove hne hleads ih => exact ih

/-- A name leads to one root, by one number of steps. -/
theorem Leads.unique {more : ℕ} (h : Leads parent steps name root) (hother : Leads parent more name other) :
    steps = more ∧ root = other := by
  induction h generalizing more with
  | here hroot =>
      cases hother with
      | here hother => exact ⟨rfl, rfl⟩
      | up habove hne hleads => exact absurd (Option.some.inj (habove.symm.trans hroot)) hne
  | up habove hne hleads ih =>
      cases hother with
      | here hother => exact absurd (Option.some.inj (habove.symm.trans hother)) hne
      | up habove' hne' hleads' =>
          obtain rfl := Option.some.inj (habove.symm.trans habove')
          obtain ⟨rfl, rfl⟩ := ih hleads'
          exact ⟨rfl, rfl⟩

/-- A chain passes each name once, so it has fewer steps than there are names. -/
theorem Leads.lt_length (h : Leads parent steps name root) : steps < parent.length := by
  have hchain : ∃ chain : List κ, chain.length = steps + 1 ∧ chain.Nodup ∧
      ∀ one ∈ chain, one ∈ parent.map (·.1) ∧ ∃ fewer ≤ steps, Leads parent fewer one root := by
    induction h with
    | @here root hroot =>
        refine ⟨[root], rfl, List.nodup_singleton _, fun one hone => ?_⟩
        obtain rfl := List.mem_singleton.mp hone
        exact ⟨mem_keys_of_get hroot, 0, Nat.le_refl _, .here hroot⟩
    | @up steps name above root habove hne hleads ih =>
        obtain ⟨chain, hlength, hnodup, hmem⟩ := ih
        have hself : Leads parent (steps + 1) name root := .up habove hne hleads
        refine ⟨name :: chain, by rw [List.length_cons, hlength], List.nodup_cons.mpr ⟨fun hin => ?_, hnodup⟩,
          fun one hone => ?_⟩
        · obtain ⟨-, fewer, hle, hfewer⟩ := hmem name hin
          have hsame := (hself.unique hfewer).1
          omega
        · rcases List.mem_cons.mp hone with rfl | hlate
          · exact ⟨hself.mem_keys, steps + 1, Nat.le_refl _, hself⟩
          · obtain ⟨hkey, fewer, hle, hfewer⟩ := hmem one hlate
            exact ⟨hkey, fewer, by omega, hfewer⟩
  obtain ⟨chain, hlength, hnodup, hmem⟩ := hchain
  have hle : chain.length ≤ (parent.map (·.1)).length :=
    (hnodup.subperm fun one hone => (hmem one hone).1).length_le
  rw [List.length_map] at hle
  omega

/-- A pointer set past its target shortens chains and changes no root. -/
theorem Leads.halved {further : κ} (habove : get parent name = some above) (hne : above ≠ name)
    (hfurther : get parent above = some further) (h : Leads parent steps other root) (hname : further ≠ name) :
    ∃ fewer ≤ steps, Leads (put parent name further) fewer other root := by
  induction steps using Nat.strongRecOn generalizing other with
  | ind steps ih =>
      cases h with
      | here hroot =>
          refine ⟨0, Nat.le_refl _, .here ?_⟩
          have hnot : name ≠ root := fun hsame => by
            rw [← hsame, habove] at hroot
            exact hne (Option.some.inj hroot)
          rw [get_put, if_neg hnot, hroot]
      | @up fewer _ next _ hnext hdiffers hleads =>
          by_cases hsame : name = other
          · subst hsame
            obtain rfl := Option.some.inj (habove.symm.trans hnext)
            have hput : get (put parent name further) name = some further := by rw [get_put, if_pos rfl]
            cases hleads with
            | here hroot =>
                obtain rfl := Option.some.inj (hroot.symm.trans hfurther)
                obtain ⟨none, hnone, hroot'⟩ := ih 0 (by omega) (.here hroot)
                exact ⟨none + 1, by omega, .up hput hname hroot'⟩
            | @up least _ last _ hlast hlater hlasts =>
                obtain rfl := Option.some.inj (hlast.symm.trans hfurther)
                obtain ⟨least', hleast, hleads'⟩ := ih least (by omega) hlasts
                exact ⟨least' + 1, by omega, .up hput hname hleads'⟩
          · obtain ⟨fewer', hfewer, hleads'⟩ := ih fewer (by omega) hleads
            exact ⟨fewer' + 1, by omega, .up (by rw [get_put, if_neg hsame, hnext]) hdiffers hleads'⟩

/-- Maps of the same names in which each name leads to the same root. -/
def Follows (parent later : List (κ × κ)) : Prop :=
  later.map (·.1) = parent.map (·.1) ∧ ∀ steps name root, Leads parent steps name root → ∃ fewer, Leads later fewer name root

theorem Follows.refl (parent : List (κ × κ)) : Follows parent parent := ⟨rfl, fun steps _ _ h => ⟨steps, h⟩⟩

theorem Follows.trans {later last : List (κ × κ)} (h : Follows parent later) (hlast : Follows later last) :
    Follows parent last :=
  ⟨hlast.1.trans h.1, fun steps name root hleads => by
    obtain ⟨fewer, hfewer⟩ := h.2 steps name root hleads
    exact hlast.2 fewer name root hfewer⟩

theorem Follows.forest {later : List (κ × κ)} (h : Follows parent later) (hforest : Forest parent) : Forest later where
  nodup := h.1 ▸ hforest.nodup
  leads name hname := by
    obtain ⟨steps, root, hleads⟩ := hforest.leads name (h.1 ▸ hname)
    obtain ⟨fewer, hfewer⟩ := h.2 steps name root hleads
    exact ⟨fewer, root, hfewer⟩

theorem Follows.back {later : List (κ × κ)} (h : Follows parent later) (hforest : Forest parent)
    (hleads : Leads later steps name root) : ∃ steps, Leads parent steps name root := by
  obtain ⟨more, root', hbefore⟩ := hforest.leads name (h.1 ▸ hleads.mem_keys)
  obtain ⟨fewer, hfewer⟩ := h.2 more name root' hbefore
  obtain ⟨-, rfl⟩ := hleads.unique hfewer
  exact ⟨more, hbefore⟩

theorem Follows.same_iff {later : List (κ × κ)} (h : Follows parent later) (hforest : Forest parent) {one : κ} :
    Same later one other ↔ Same parent one other := by
  constructor
  · rintro ⟨root, ⟨steps, hone⟩, more, hother⟩
    exact ⟨root, h.back hforest hone, h.back hforest hother⟩
  · rintro ⟨root, ⟨steps, hone⟩, more, hother⟩
    exact ⟨root, h.2 steps _ _ hone, h.2 more _ _ hother⟩

theorem Same.symm {one : κ} (h : Same parent one other) : Same parent other one := by
  obtain ⟨root, hone, hother⟩ := h
  exact ⟨root, hother, hone⟩

theorem Same.trans {one last : κ} (h : Same parent one other) (hlast : Same parent other last) : Same parent one last := by
  obtain ⟨root, hone, steps, hother⟩ := h
  obtain ⟨root', ⟨more, hother'⟩, hlast⟩ := hlast
  obtain ⟨-, rfl⟩ := hother.unique hother'
  exact ⟨root, hone, hlast⟩

theorem Same.mem_keys {one : κ} (h : Same parent one other) : one ∈ parent.map (·.1) := by
  obtain ⟨root, ⟨steps, hone⟩, -⟩ := h
  exact hone.mem_keys

theorem Forest.same_self (hforest : Forest parent) (hname : name ∈ parent.map (·.1)) : Same parent name name := by
  obtain ⟨steps, root, hleads⟩ := hforest.leads name hname
  exact ⟨root, ⟨steps, hleads⟩, steps, hleads⟩

/-- A climb with a step for each pointer of the chain comes to its root. -/
theorem climb_spec (hforest : Forest parent) (h : Leads parent steps name root) {fuel : ℕ} (hfuel : steps < fuel) :
    ∃ later, climb fuel parent name = some (later, root) ∧ Follows parent later := by
  induction fuel generalizing parent name steps with
  | zero => exact absurd hfuel (Nat.not_lt_zero _)
  | succ fuel ih =>
      cases h with
      | here hroot =>
          rw [climb, hroot, Option.bind_eq_bind, Option.bind_some, if_pos rfl]
          exact ⟨parent, rfl, Follows.refl parent⟩
      | @up fewer _ above _ habove hne hleads =>
          have hname : Leads parent (fewer + 1) name root := .up habove hne hleads
          have hnext : ∃ further, get parent above = some further ∧ ∃ least ≤ fewer, Leads parent least further root := by
            cases hleads with
            | here hroot => exact ⟨_, hroot, 0, Nat.le_refl _, .here hroot⟩
            | up hfurther _ hlast => exact ⟨_, hfurther, _, Nat.le_succ _, hlast⟩
          obtain ⟨further, hfurther, least, hleast, hlast⟩ := hnext
          have hpast : further ≠ name := fun hsame => by
            have hdepth := (hname.unique (hsame ▸ hlast)).1
            omega
          have hfollows : Follows parent (put parent name further) := by
            refine ⟨?_, fun steps other root hother => ?_⟩
            · rw [keys_put, if_pos hname.mem_keys]
            · obtain ⟨shorter, -, hshorter⟩ := hother.halved habove hne hfurther hpast
              exact ⟨shorter, hshorter⟩
          obtain ⟨shorter, hshorter, hreached⟩ := hlast.halved habove hne hfurther hpast
          obtain ⟨later, hclimb, hlater⟩ := ih (hfollows.forest hforest) hreached (by omega)
          rw [climb, habove, Option.bind_eq_bind, Option.bind_some, if_neg hne, hfurther, Option.bind_some]
          exact ⟨later, hclimb, hfollows.trans hlater⟩

/-- A root hung under another: what led to it leads to the other, and the rest leads where it did. -/
theorem Leads.hung {top : κ} (hroot : get parent name = some name) (htop : get parent top = some top)
    (hleads : Leads parent steps other root) :
    ∃ more, Leads (put parent name top) more other (if root = name then top else root) := by
  have htop' : top ≠ name → get (put parent name top) top = some top := fun hne => by
    rw [get_put, if_neg (Ne.symm hne), htop]
  induction hleads with
  | @here root hother =>
      by_cases hsame : root = name
      · subst hsame
        rw [if_pos rfl]
        by_cases hloop : top = root
        · subst hloop
          exact ⟨0, .here (by rw [get_put, if_pos rfl])⟩
        · exact ⟨1, .up (by rw [get_put, if_pos rfl]) hloop (.here (htop' hloop))⟩
      · rw [if_neg hsame]
        exact ⟨0, .here (by rw [get_put, if_neg (Ne.symm hsame), hother])⟩
  | @up steps one above root habove hne hleads ih =>
      obtain ⟨more, hmore⟩ := ih
      have hnot : name ≠ one := fun hsame => by
        rw [← hsame, hroot] at habove
        exact hne ((Option.some.inj habove).symm.trans hsame)
      exact ⟨more + 1, .up (by rw [get_put, if_neg hnot, habove]) hne hmore⟩

/-- Entries whose keys are others may be left out. -/
theorem get_filter_key {ν : Type} (keep : κ → Bool) {key : κ} (hkey : keep key = true) (entries : List (κ × ν)) :
    get (entries.filter fun entry => keep entry.1) key = get entries key := by
  induction entries with
  | nil => rfl
  | cons entry entries ih =>
      rw [List.filter_cons]
      by_cases hkeep : keep entry.1 = true
      · rw [if_pos hkeep]
        by_cases hsame : entry.1 = key
        · simp [OrderedMap.get, hsame]
        · simpa [OrderedMap.get, hsame] using ih
      · rw [if_neg hkeep, ih]
        have hother : entry.1 ≠ key := fun hsame => hkeep (hsame ▸ hkey)
        simp [OrderedMap.get, hother]

/-- Chains outside a set of names stay when the set is taken out. -/
theorem Leads.kept {names : List κ} (hclosed : ∀ name above, get parent name = some above → above ∈ names → name ∈ names)
    (h : Leads parent steps name root) (hname : name ∉ names) :
    Leads (parent.filter fun entry => decide (entry.1 ∉ names)) steps name root := by
  have hget : ∀ {key : κ}, key ∉ names → get (parent.filter fun entry => decide (entry.1 ∉ names)) key = get parent key :=
    fun hkey => get_filter_key (fun key => decide (key ∉ names)) (decide_eq_true hkey) parent
  induction h with
  | here hroot => exact .here (by rw [hget hname, hroot])
  | up habove hne hleads ih =>
      exact .up (by rw [hget hname, habove]) hne (ih fun hin => hname (hclosed _ _ habove hin))

/-- The names of a forest lead to one root exactly when the pairs of a relation connect them. -/
structure Kernel (parent : List (κ × κ)) (related : κ → κ → Prop) : Prop where
  forest : Forest parent
  within : ∀ one other, related one other → one ∈ parent.map (·.1) ∧ other ∈ parent.map (·.1)
  same : ∀ one other, Same parent one other ↔
    one ∈ parent.map (·.1) ∧ other ∈ parent.map (·.1) ∧ Relation.EqvGen related one other

section Kernel

variable {related later : κ → κ → Prop}

omit [DecidableEq κ] in
theorem eqvGen_of_le (h : ∀ one other, related one other → Relation.EqvGen later one other) {one : κ}
    (hrelated : Relation.EqvGen related one other) : Relation.EqvGen later one other := by
  induction hrelated with
  | rel one other hpair => exact h one other hpair
  | refl one => exact .refl one
  | symm one other _ ih => exact .symm _ _ ih
  | trans one middle other _ _ hone hother => exact .trans _ _ _ hone hother

theorem Kernel.congr (h : Kernel parent related) (hrelated : ∀ one other, related one other → Relation.EqvGen later one other)
    (hlater : ∀ one other, later one other → Relation.EqvGen related one other)
    (hwithin : ∀ one other, later one other → one ∈ parent.map (·.1) ∧ other ∈ parent.map (·.1)) :
    Kernel parent later where
  forest := h.forest
  within := hwithin
  same one other := by
    rw [h.same]
    exact and_congr_right fun _ => and_congr_right fun _ => ⟨eqvGen_of_le hrelated, eqvGen_of_le hlater⟩

theorem Kernel.follows {next : List (κ × κ)} (h : Kernel parent related) (hfollows : Follows parent next) :
    Kernel next related where
  forest := hfollows.forest h.forest
  within one other hpair := hfollows.1.symm ▸ h.within one other hpair
  same one other := by rw [hfollows.same_iff h.forest, h.same, hfollows.1]

/-- Pairs of names that lead to one root are connected as far as those names go. -/
theorem same_of_eqvGen (hpair : ∀ one other, related one other → Same parent one other) {one : κ}
    (h : Relation.EqvGen related one other) : one = other ∨ Same parent one other := by
  induction h with
  | rel one other hrelated => exact Or.inr (hpair one other hrelated)
  | refl one => exact Or.inl rfl
  | symm one other _ ih => exact ih.imp Eq.symm Same.symm
  | trans one middle other _ _ hone hother =>
      rcases hone with rfl | hone
      · exact hother
      · rcases hother with rfl | hother
        · exact Or.inr hone
        · exact Or.inr (hone.trans hother)

/-- A new name is connected with itself alone. -/
theorem Kernel.put_self (h : Kernel parent related) (hnew : name ∉ parent.map (·.1)) :
    Kernel (put parent name name) related := by
  have hleads : ∀ {steps one root}, Leads parent steps one root → Leads (put parent name name) steps one root := by
    intro steps one root hone
    induction hone with
    | here hroot =>
        refine .here ?_
        have hnot : name ≠ _ := fun hsame => hnew (hsame.symm ▸ mem_keys_of_get hroot)
        rw [get_put, if_neg hnot, hroot]
    | up habove hne hlater ih =>
        refine .up ?_ hne ih
        have hnot : name ≠ _ := fun hsame => hnew (hsame.symm ▸ mem_keys_of_get habove)
        rw [get_put, if_neg hnot, habove]
  have hself : Leads (put parent name name) 0 name name := .here (by rw [get_put, if_pos rfl])
  have hkeys : (put parent name name).map (·.1) = parent.map (·.1) ++ [name] := by rw [keys_put, if_neg hnew]
  have hforest : Forest (put parent name name) := by
    refine ⟨nodup_keys_put h.forest.nodup name name, fun one hone => ?_⟩
    rw [hkeys, List.mem_append, List.mem_singleton] at hone
    rcases hone with hold | rfl
    · obtain ⟨steps, root, hold⟩ := h.forest.leads one hold
      exact ⟨steps, root, hleads hold⟩
    · exact ⟨0, one, hself⟩
  have hsame : ∀ {one other}, Same parent one other → Same (put parent name name) one other :=
    fun ⟨root, ⟨steps, hone⟩, more, hother⟩ => ⟨root, ⟨steps, hleads hone⟩, more, hleads hother⟩
  have hwithin : ∀ one other, related one other →
      one ∈ (put parent name name).map (·.1) ∧ other ∈ (put parent name name).map (·.1) := fun one other hpair => by
    rw [hkeys]
    exact (h.within one other hpair).imp (List.mem_append_left _) (List.mem_append_left _)
  refine ⟨hforest, hwithin, fun one other => ⟨fun hmeets => ?_, fun ⟨hone, hother, hgen⟩ => ?_⟩⟩
  · refine ⟨hmeets.mem_keys, hmeets.symm.mem_keys, ?_⟩
    obtain ⟨root, ⟨steps, hone⟩, more, hother⟩ := hmeets
    have hroots : ∀ {one steps}, Leads (put parent name name) steps one root →
        (∃ steps, Leads parent steps one root) ∨ (one = name ∧ root = name) := by
      intro one steps hone
      have hkey := hone.mem_keys
      rw [hkeys, List.mem_append, List.mem_singleton] at hkey
      rcases hkey with hold | rfl
      · obtain ⟨before, root', hbefore⟩ := h.forest.leads one hold
        obtain ⟨-, rfl⟩ := hone.unique (hleads hbefore)
        exact Or.inl ⟨before, hbefore⟩
      · exact Or.inr ⟨rfl, (hone.unique hself).2⟩
    rcases hroots hone with hone | ⟨hone, hroot⟩
    · rcases hroots hother with hother | ⟨-, hroot⟩
      · exact ((h.same one other).mp ⟨root, hone, hother⟩).2.2
      · obtain ⟨steps, hone⟩ := hone
        exact absurd (hroot ▸ mem_keys_of_get hone.root_root) hnew
    · rcases hroots hother with ⟨steps, hother⟩ | ⟨hother, -⟩
      · exact absurd (hroot ▸ mem_keys_of_get hother.root_root) hnew
      · rw [hone, hother]
        exact .refl _
  · rcases same_of_eqvGen (fun one other hpair => (h.same one other).mpr
      ⟨(h.within one other hpair).1, (h.within one other hpair).2, .rel _ _ hpair⟩) hgen with rfl | hmeets
    · exact hforest.same_self hone
    · exact hsame hmeets

/-- A root hung under another connects what led to either. -/
theorem Kernel.hung {under first : κ} {top : κ} {steps more : ℕ} (h : Kernel parent related)
    (hunder : Leads parent steps under name) (hfirst : Leads parent more first top) :
    Kernel (put parent name top) fun one other => related one other ∨ (one = first ∧ other = under) := by
  have hname := hunder.root_root
  have htop := hfirst.root_root
  have hkeys : (put parent name top).map (·.1) = parent.map (·.1) := by
    rw [keys_put, if_pos (mem_keys_of_get hname)]
  have hleads : ∀ {one root steps}, Leads parent steps one root →
      ∃ steps, Leads (put parent name top) steps one (if root = name then top else root) :=
    fun hone => hone.hung hname htop
  have hforest : Forest (put parent name top) := by
    refine ⟨nodup_keys_put h.forest.nodup _ _, fun one hone => ?_⟩
    obtain ⟨steps, root, hone⟩ := h.forest.leads one (hkeys ▸ hone)
    obtain ⟨steps, hone⟩ := hleads hone
    exact ⟨steps, _, hone⟩
  have hsame : ∀ {one other}, Same parent one other → Same (put parent name top) one other :=
    fun ⟨root, ⟨steps, hone⟩, more, hother⟩ => ⟨_, hleads hone, hleads hother⟩
  have hjoined : Same (put parent name top) first under := by
    obtain ⟨steps', hone⟩ := hleads hfirst
    obtain ⟨more', hother⟩ := hleads hunder
    rw [if_pos rfl] at hother
    rw [ite_self] at hone
    exact ⟨top, ⟨steps', hone⟩, more', hother⟩
  have hgen : ∀ {one other}, Same parent one other →
      Relation.EqvGen (fun one other => related one other ∨ (one = first ∧ other = under)) one other :=
    fun hmeets => eqvGen_of_le (fun _ _ hpair => .rel _ _ (Or.inl hpair)) ((h.same _ _).mp hmeets).2.2
  have hlink : Relation.EqvGen (fun one other => related one other ∨ (one = first ∧ other = under)) first under :=
    .rel _ _ (Or.inr ⟨rfl, rfl⟩)
  refine ⟨hforest, hkeys.symm ▸ ?_, fun one other => ⟨fun hmeets => ?_, fun ⟨hone, hother, hchain⟩ => ?_⟩⟩
  · rintro one other (hpair | ⟨rfl, rfl⟩)
    · exact h.within one other hpair
    · exact ⟨hfirst.mem_keys, hunder.mem_keys⟩
  · refine ⟨hmeets.mem_keys, hmeets.symm.mem_keys, ?_⟩
    obtain ⟨root, ⟨steps', hone⟩, more', hother⟩ := hmeets
    obtain ⟨before, left, hleft⟩ := h.forest.leads one (hkeys ▸ hone.mem_keys)
    obtain ⟨after, right, hright⟩ := h.forest.leads other (hkeys ▸ hother.mem_keys)
    obtain ⟨_, hleft'⟩ := hleads hleft
    obtain ⟨_, hright'⟩ := hleads hright
    have hroots : (if left = name then top else left) = if right = name then top else right :=
      (hleft'.unique hone).2.trans (hother.unique hright').2
    by_cases hl : left = name
    · by_cases hr : right = name
      · exact hgen ⟨name, ⟨before, hl ▸ hleft⟩, after, hr ▸ hright⟩
      · rw [if_pos hl, if_neg hr] at hroots
        have hstart : Same parent one under := ⟨name, ⟨before, hl ▸ hleft⟩, steps, hunder⟩
        have hend : Same parent first other := ⟨top, ⟨more, hfirst⟩, after, hroots ▸ hright⟩
        exact .trans _ _ _ (hgen hstart) (.trans _ _ _ (.symm _ _ hlink) (hgen hend))
    · by_cases hr : right = name
      · rw [if_neg hl, if_pos hr] at hroots
        have hstart : Same parent one first := ⟨top, ⟨before, hroots ▸ hleft⟩, more, hfirst⟩
        have hend : Same parent under other := ⟨name, ⟨steps, hunder⟩, after, hr ▸ hright⟩
        exact .trans _ _ _ (hgen hstart) (.trans _ _ _ hlink (hgen hend))
      · rw [if_neg hl, if_neg hr] at hroots
        exact hgen ⟨left, ⟨before, hleft⟩, after, hroots ▸ hright⟩
  · have hpairs : ∀ one other, related one other ∨ (one = first ∧ other = under) →
        Same (put parent name top) one other := by
      rintro one other (hpair | ⟨rfl, rfl⟩)
      · exact hsame ((h.same one other).mpr ⟨(h.within one other hpair).1, (h.within one other hpair).2, .rel _ _ hpair⟩)
      · exact hjoined
    rcases same_of_eqvGen hpairs hchain with rfl | hmeets
    · exact hforest.same_self hone
    · exact hmeets

/-- A set of names closed under what connects them may be taken out. -/
theorem Kernel.taken {names : List κ} (h : Kernel parent related)
    (hclosed : ∀ one other, Same parent one other → (one ∈ names ↔ other ∈ names)) :
    Kernel (parent.filter fun entry => decide (entry.1 ∉ names)) fun one other =>
      related one other ∧ one ∉ names ∧ other ∉ names := by
  set kept := parent.filter fun entry => decide (entry.1 ∉ names) with hkept
  have hkeys : ∀ name, name ∈ kept.map (·.1) ↔ name ∈ parent.map (·.1) ∧ name ∉ names := by
    intro name
    simp only [hkept, List.mem_map, List.mem_filter, decide_eq_true_eq]
    constructor
    · rintro ⟨entry, ⟨hentry, hout⟩, rfl⟩
      exact ⟨⟨entry, hentry, rfl⟩, hout⟩
    · rintro ⟨⟨entry, hentry, rfl⟩, hout⟩
      exact ⟨entry, ⟨hentry, hout⟩, rfl⟩
  have hup : ∀ name above, get parent name = some above → above ∈ names → name ∈ names := by
    intro name above habove hin
    obtain ⟨steps, root, hleads⟩ := h.forest.leads name (mem_keys_of_get habove)
    refine (hclosed name above ?_).mpr hin
    cases hleads with
    | here hroot =>
        obtain rfl := Option.some.inj (hroot.symm.trans habove)
        exact h.forest.same_self (mem_keys_of_get habove)
    | @up fewer _ next _ hnext hne hlater =>
        obtain rfl := Option.some.inj (hnext.symm.trans habove)
        exact ⟨root, ⟨fewer + 1, .up hnext hne hlater⟩, fewer, hlater⟩
  have hleads : ∀ {steps name root}, Leads parent steps name root → name ∉ names → Leads kept steps name root :=
    fun hone hout => hone.kept hup hout
  have hforest : Forest kept := by
    refine ⟨h.forest.nodup.sublist (List.filter_sublist.map _), fun name hname => ?_⟩
    obtain ⟨hold, hout⟩ := (hkeys name).mp hname
    obtain ⟨steps, root, hone⟩ := h.forest.leads name hold
    exact ⟨steps, root, hleads hone hout⟩
  have hsame : ∀ {one other}, Same kept one other ↔ Same parent one other ∧ one ∉ names ∧ other ∉ names := by
    intro one other
    constructor
    · intro hmeets
      obtain ⟨hone, hout⟩ := (hkeys one).mp hmeets.mem_keys
      obtain ⟨hother, hout'⟩ := (hkeys other).mp hmeets.symm.mem_keys
      obtain ⟨root, ⟨steps, hleft⟩, more, hright⟩ := hmeets
      obtain ⟨before, left, hbefore⟩ := h.forest.leads one hone
      obtain ⟨after, right, hafter⟩ := h.forest.leads other hother
      obtain ⟨-, rfl⟩ := hleft.unique (hleads hbefore hout)
      obtain ⟨-, rfl⟩ := hright.unique (hleads hafter hout')
      exact ⟨⟨root, ⟨before, hbefore⟩, after, hafter⟩, hout, hout'⟩
    · rintro ⟨⟨root, ⟨steps, hone⟩, more, hother⟩, hout, hout'⟩
      exact ⟨root, ⟨steps, hleads hone hout⟩, more, hleads hother hout'⟩
  have hpair : ∀ {one other}, related one other → Same parent one other := fun {one other} hrelated =>
    (h.same one other).mpr ⟨(h.within one other hrelated).1, (h.within one other hrelated).2, .rel _ _ hrelated⟩
  have hchain : ∀ {one other}, Relation.EqvGen related one other → (one ∉ names ↔ other ∉ names) ∧
      (one ∉ names → Relation.EqvGen (fun one other => related one other ∧ one ∉ names ∧ other ∉ names) one other) := by
    intro one other hgen
    induction hgen with
    | rel one other hrelated =>
        have hboth := not_congr (hclosed one other (hpair hrelated))
        exact ⟨hboth, fun hout => .rel _ _ ⟨hrelated, hout, hboth.mp hout⟩⟩
    | refl one => exact ⟨Iff.rfl, fun _ => .refl _⟩
    | symm one other _ ih => exact ⟨ih.1.symm, fun hout => .symm _ _ (ih.2 (ih.1.mpr hout))⟩
    | trans one middle other _ _ hone hother =>
        exact ⟨hone.1.trans hother.1, fun hout => .trans _ _ _ (hone.2 hout) (hother.2 (hone.1.mp hout))⟩
  refine ⟨hforest, fun one other ⟨hrelated, hout, hout'⟩ => ?_, fun one other => ?_⟩
  · exact ⟨(hkeys one).mpr ⟨(h.within one other hrelated).1, hout⟩,
      (hkeys other).mpr ⟨(h.within one other hrelated).2, hout'⟩⟩
  · rw [hsame, h.same, hkeys, hkeys]
    constructor
    · rintro ⟨⟨hone, hother, hgen⟩, hout, hout'⟩
      exact ⟨⟨hone, hout⟩, ⟨hother, hout'⟩, (hchain hgen).2 hout⟩
    · rintro ⟨⟨hone, hout⟩, ⟨hother, hout'⟩, hgen⟩
      exact ⟨⟨hone, hother, eqvGen_of_le (fun _ _ hrelated => .rel _ _ hrelated.1) hgen⟩, hout, hout'⟩

end Kernel

end ParentForest
