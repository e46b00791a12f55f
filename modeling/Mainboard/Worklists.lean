import Mathlib.Data.List.Basic
import Mathlib.Logic.Relation

/-! Following a relation from its seeds with a list of what still waits. Elements are told apart by a key, so one
element stands for all that share its key; whatever the order they are taken in, what is known when nothing waits is
closed under the relation up to keys, and holds nothing the seeds do not lead to. -/

namespace Worklists

variable {α κ : Type}

/-- What is known and what of it waits: the seeds lead to everything known, every seed is known by its key, and
what does not wait has its successors known by theirs. -/
structure Explores (succ : α → α → Prop) (key : α → κ) (seed : α → Prop) (known pending : List α) : Prop where
  sound : ∀ element ∈ known, ∃ start, seed start ∧ Relation.ReflTransGen succ start element
  seeds : ∀ start, seed start → key start ∈ known.map key
  waits : ∀ element ∈ known, element ∈ pending ∨ ∀ next, succ element next → key next ∈ known.map key

variable {succ : α → α → Prop} {key : α → κ} {seed : α → Prop} {known pending : List α}

variable (succ key) in
/-- At the start every seed waits. -/
theorem Explores.start (seeds : List α) : Explores succ key (· ∈ seeds) seeds seeds where
  sound element helement := ⟨element, helement, .refl⟩
  seeds _ hstart := List.mem_map_of_mem hstart
  waits _ helement := Or.inl helement

/-- A turn: one waiting element gives way to those of its successors that no known key stands for. -/
theorem Explores.turn (h : Explores succ key seed known pending) {element : α} (helement : element ∈ known)
    {found known' pending' : List α} (hfound : ∀ next ∈ found, succ element next)
    (hall : ∀ next, succ element next → key next ∈ known'.map key)
    (hknown : ∀ other, other ∈ known' ↔ other ∈ known ∨ other ∈ found)
    (hpending : ∀ other, other ∈ pending → other = element ∨ other ∈ pending')
    (hnew : ∀ other ∈ found, other ∈ pending') : Explores succ key seed known' pending' where
  sound other hother := by
    rcases (hknown other).mp hother with hold | hnext
    · exact h.sound other hold
    · obtain ⟨start, hstart, hleads⟩ := h.sound element helement
      exact ⟨start, hstart, hleads.tail (hfound other hnext)⟩
  seeds start hstart := by
    obtain ⟨other, hother, hkey⟩ := List.mem_map.mp (h.seeds start hstart)
    exact List.mem_map.mpr ⟨other, (hknown other).mpr (Or.inl hother), hkey⟩
  waits other hother := by
    rcases (hknown other).mp hother with hold | hnext
    · rcases h.waits other hold with hwaits | hdone
      · rcases hpending other hwaits with rfl | hstill
        · exact Or.inr hall
        · exact Or.inl hstill
      · refine Or.inr fun next hsucc => ?_
        obtain ⟨twin, htwin, hkey⟩ := List.mem_map.mp (hdone next hsucc)
        exact List.mem_map.mpr ⟨twin, (hknown twin).mpr (Or.inl htwin), hkey⟩
    · exact Or.inl (hnew other hnext)

/-- When nothing waits, what is known has its successors known by their keys. -/
theorem Explores.closed (h : Explores succ key seed known []) {element : α} (helement : element ∈ known)
    {next : α} (hsucc : succ element next) : key next ∈ known.map key :=
  (h.waits element helement).elim (fun hwaits => absurd hwaits List.not_mem_nil) fun hdone => hdone next hsucc

/-- Where no two elements the seeds lead to share a key, what is known in the end is all they lead to. -/
theorem Explores.exact (h : Explores succ key seed known [])
    (hkey : ∀ one other start start', seed start → Relation.ReflTransGen succ start one → seed start' →
      Relation.ReflTransGen succ start' other → key one = key other → one = other) (element : α) :
    element ∈ known ↔ ∃ start, seed start ∧ Relation.ReflTransGen succ start element := by
  refine ⟨h.sound element, fun hleads => ?_⟩
  obtain ⟨start, hstart, hleads⟩ := hleads
  have hmeets : ∀ target, Relation.ReflTransGen succ start target → key target ∈ known.map key → target ∈ known := by
    intro target htarget hknown
    obtain ⟨twin, htwin, hsame⟩ := List.mem_map.mp hknown
    obtain ⟨start', hstart', hleads'⟩ := h.sound twin htwin
    exact hkey twin target start' start hstart' hleads' hstart htarget hsame ▸ htwin
  -- along the way from the seed, each element is known because its key is
  induction hleads with
  | refl => exact hmeets start .refl (h.seeds start hstart)
  | tail hbefore hsucc ih => exact hmeets _ (hbefore.tail hsucc) (h.closed ih hsucc)

end Worklists
