import Mathlib.Data.List.Basic
import Mathlib.Data.List.TakeWhile

/-! Texts made of blocks of lines. A text is cut at the positions its blocks begin at, a section ends at the
first line that is not of its kind, and blocks that each begin with a head line are told apart by those. -/

namespace BlockLines

variable {α : Type}

/-- What stands between each position of a sequence and the next. -/
def between (lines : List α) (positions : List ℕ) : List (List α) :=
  (positions.zip positions.tail).map fun pair => (lines.drop pair.1).take (pair.2 - pair.1)

/-- Where each block begins, the first at a position, and where the last one ends. -/
def bounds (first : ℕ) : List (List α) → List ℕ
  | [] => [first]
  | block :: blocks => first :: bounds (first + block.length) blocks

theorem bounds_eq_cons (first : ℕ) (blocks : List (List α)) :
    bounds first blocks = first :: (bounds first blocks).tail := by
  cases blocks <;> rfl

/-- Cut where its blocks begin, a text comes apart into them. -/
theorem between_bounds (before after : List α) (blocks : List (List α)) :
    between (before ++ blocks.flatten ++ after) (bounds before.length blocks) = blocks := by
  induction blocks generalizing before with
  | nil => rfl
  | cons block blocks ih =>
      have hrest := ih (before ++ block)
      rw [List.length_append, bounds_eq_cons] at hrest
      rw [bounds, bounds_eq_cons, between, List.tail_cons, List.zip_cons_cons, List.map_cons]
      refine congrArg₂ List.cons ?_ ?_
      · rw [List.append_assoc, List.drop_left, Nat.add_sub_cancel_left, List.flatten_cons, List.append_assoc,
          List.take_left]
      · rw [between, List.tail_cons] at hrest
        simpa only [List.flatten_cons, List.append_assoc] using hrest

/-- A section ends at the first line that is not of its kind. -/
theorem section_inj {inside : α → Prop} {one other : List α} {after rest : List α}
    (hone : ∀ line ∈ one, inside line) (hother : ∀ line ∈ other, inside line)
    (hafter : ∀ line ∈ after.head?, ¬inside line) (hrest : ∀ line ∈ rest.head?, ¬inside line)
    (h : one ++ after = other ++ rest) : one = other ∧ after = rest := by
  induction one generalizing other with
  | nil =>
      cases other with
      | nil => exact ⟨rfl, h⟩
      | cons line other =>
          refine absurd (hother line List.mem_cons_self) (hafter line ?_)
          rw [List.nil_append] at h
          rw [h]
          exact rfl
  | cons first one ih =>
      cases other with
      | nil =>
          refine absurd (hone first List.mem_cons_self) (hrest first ?_)
          rw [List.nil_append] at h
          rw [← h]
          exact rfl
      | cons line other =>
          obtain ⟨rfl, htail⟩ := List.cons.inj h
          obtain ⟨rfl, hsame⟩ := ih (fun l hl => hone l (List.mem_cons_of_mem _ hl))
            (fun l hl => hother l (List.mem_cons_of_mem _ hl)) htail
          exact ⟨rfl, hsame⟩

/-- A block that begins with a head line and has no other. -/
def Headed (head : α → Prop) : List α → Prop
  | [] => False
  | first :: rest => head first ∧ ∀ line ∈ rest, ¬head line

theorem headed_cons {head : α → Prop} {first : α} {rest : List α} (hfirst : head first)
    (hrest : ∀ line ∈ rest, ¬head line) : Headed head (first :: rest) := ⟨hfirst, hrest⟩

/-- Blocks that each begin with a head line are told apart by those lines. -/
theorem flatten_inj {head : α → Prop} {blocks others : List (List α)} (hblocks : ∀ block ∈ blocks, Headed head block)
    (hothers : ∀ block ∈ others, Headed head block) (h : blocks.flatten = others.flatten) : blocks = others := by
  -- what follows a block is nothing, or begins with the next block's head
  have hnext : ∀ rest : List (List α), (∀ block ∈ rest, Headed head block) →
      ∀ line ∈ rest.flatten.head?, ¬¬head line := by
    intro rest hrest line hline
    cases rest with
    | nil => cases hline
    | cons block rest =>
        have hblock := hrest block List.mem_cons_self
        cases block with
        | nil => exact hblock.elim
        | cons first lines =>
            obtain rfl : first = line := Option.some.inj hline
            exact not_not.mpr hblock.1
  induction blocks generalizing others with
  | nil =>
      cases others with
      | nil => rfl
      | cons block others =>
          have hblock := hothers block List.mem_cons_self
          cases block with
          | nil => exact hblock.elim
          | cons first lines => cases h
  | cons block blocks ih =>
      have hblock := hblocks block List.mem_cons_self
      cases block with
      | nil => exact hblock.elim
      | cons first lines =>
          cases others with
          | nil => cases h
          | cons other others =>
              have hother := hothers other List.mem_cons_self
              cases other with
              | nil => exact hother.elim
              | cons line rest =>
                  have htail := fun one hone => hblocks one (List.mem_cons_of_mem _ hone)
                  have htail' := fun one hone => hothers one (List.mem_cons_of_mem _ hone)
                  rw [List.flatten_cons, List.flatten_cons, List.cons_append, List.cons_append] at h
                  obtain ⟨rfl, hlines⟩ := List.cons.inj h
                  obtain ⟨rfl, hblocks⟩ := section_inj hblock.2 hother.2 (hnext blocks htail) (hnext others htail') hlines
                  rw [ih htail htail' hblocks]

end BlockLines
