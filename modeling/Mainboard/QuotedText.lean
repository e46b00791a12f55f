import Mathlib.Data.List.Basic

/-! Text with strings in it, each between two quotes, a quote within one doubled. A string put in the place of a
character outside strings stays that string, whatever it holds, where no quote comes right before or behind it. -/

namespace QuotedText

variable {α : Type*}

/-- What a text is read as: a character outside strings, a string, or one that does not end. -/
inductive Piece (α : Type*) where
  | plain (char : α)
  | string (text : List α)
  | unended (text : List α)
  deriving DecidableEq, Repr

/-- Where the reading stands: outside strings, in one, or behind a quote that ends it unless another follows. -/
inductive State (α : Type*) where
  | outside
  | inside (text : List α)
  | ending (text : List α)
  deriving DecidableEq, Repr

def finish : State α → List (Piece α)
  | .outside => []
  | .inside text => [.unended text]
  | .ending text => [.string text]

/-- What comes next in the text is outside strings, unless it is a quote. -/
def State.beyond : State α → Bool
  | .inside _ => false
  | _ => true

variable [DecidableEq α] (quote mark : α)

def step : State α → α → List (Piece α) × State α
  | .outside, char => if char = quote then ([], .inside []) else ([.plain char], .outside)
  | .inside text, char => if char = quote then ([], .ending text) else ([], .inside (text ++ [char]))
  | .ending text, char =>
      if char = quote then ([], .inside (text ++ [char])) else ([.string text, .plain char], .outside)

/-- The parts a text completes, and where it leaves the reading. -/
def run : State α → List α → List (Piece α) × State α
  | state, [] => ([], state)
  | state, char :: rest =>
      ((step quote state char).1 ++ (run (step quote state char).2 rest).1, (run (step quote state char).2 rest).2)

def read (state : State α) (text : List α) : List (Piece α) := (run quote state text).1 ++ finish (run quote state text).2

/-- The parts of a text. -/
def parts (text : List α) : List (Piece α) := read quote .outside text

/-- What a string is written as, its quotes doubled. -/
def doubled : List α → List α
  | [] => []
  | char :: rest => if char = quote then quote :: quote :: doubled rest else char :: doubled rest

def quoted (text : List α) : List α := quote :: (doubled quote text ++ [quote])

/-- The parts of a text with its marks outside strings bound in their order. -/
def bind : List (Piece α) → List (List (Piece α)) → List (Piece α)
  | [], _ => []
  | .plain char :: rest, [] => .plain char :: bind rest []
  | .plain char :: rest, bound :: others =>
      if char = mark then bound ++ bind rest others else .plain char :: bind rest (bound :: others)
  | part :: rest, others => part :: bind rest others

/-- Next to no mark outside strings stands a quote or another mark. -/
def Loose : State α → List α → Prop
  | _, [] => True
  | state, char :: rest => (char = mark → match state with
      | .inside _ => True
      | .outside => rest.head? ≠ some quote ∧ rest.head? ≠ some mark
      | .ending _ => False) ∧ Loose (step quote state char).2 rest

instance decidableLoose : ∀ state text, Decidable (Loose quote mark state text)
  | _, [] => isTrue trivial
  | .inside text, char :: rest =>
      have := decidableLoose (step quote (.inside text) char).2 rest
      inferInstanceAs (Decidable ((char = mark → True) ∧ _))
  | .outside, char :: rest =>
      have := decidableLoose (step quote .outside char).2 rest
      inferInstanceAs (Decidable ((char = mark → _ ∧ _) ∧ _))
  | .ending text, char :: rest =>
      have := decidableLoose (step quote (.ending text) char).2 rest
      inferInstanceAs (Decidable ((char = mark → False) ∧ _))

section Reading

variable {quote : α} {state : State α} {char : α} {text rest word : List α}

theorem run_append : run quote state (text ++ rest) =
    ((run quote state text).1 ++ (run quote (run quote state text).2 rest).1, (run quote (run quote state text).2 rest).2) := by
  induction text generalizing state with
  | nil => rfl
  | cons char text ih => rw [List.cons_append, run, run, ih, List.append_assoc]

theorem read_append : read quote state (text ++ rest) = (run quote state text).1 ++ read quote (run quote state text).2 rest := by
  unfold read
  rw [run_append, List.append_assoc]

theorem read_cons : read quote state (char :: rest) = (step quote state char).1 ++ read quote (step quote state char).2 rest := by
  unfold read
  rw [run, List.append_assoc]

theorem run_doubled : run quote (.inside word) (doubled quote text) = ([], .inside (word ++ text)) := by
  induction text generalizing word with
  | nil => rw [doubled, run, List.append_nil]
  | cons char text ih =>
      rw [doubled]
      split
      · rename_i hquote
        rw [hquote, run, step, if_pos rfl, run, step, if_pos rfl, ih]
        simp only [List.append_assoc, List.singleton_append, List.nil_append]
      · rename_i hother
        rw [run, step, if_neg hother, ih]
        simp only [List.append_assoc, List.singleton_append, List.nil_append]

theorem run_quoted : run quote .outside (quoted quote text) = ([], .ending text) := by
  rw [quoted, run, step, if_pos rfl, run_append, run_doubled]
  simp only [run, step, if_true, List.nil_append]

/-- Characters that are no quotes stand for themselves. -/
theorem run_plain (h : quote ∉ text) : run quote .outside text = (text.map .plain, .outside) := by
  induction text with
  | nil => rfl
  | cons char text ih =>
      rw [List.mem_cons, not_or] at h
      rw [run, step, if_neg (Ne.symm h.1), ih h.2]
      rfl

/-- A string ends where no quote follows. -/
theorem read_beyond (hstate : state.beyond = true) (h : text.head? ≠ some quote) :
    read quote state text = finish state ++ parts quote text := by
  cases state with
  | outside => rfl
  | inside word => exact absurd hstate Bool.false_ne_true
  | ending word =>
      cases text with
      | nil => rfl
      | cons char rest =>
          have hother : char ≠ quote := fun hsame => h (congrArg some hsame)
          rw [parts, read_cons, read_cons, step, step, if_neg hother, if_neg hother]
          rfl

theorem beyond_step (state : State α) (char : α) :
    (step quote state char).2.beyond = if char = quote then !state.beyond else state.beyond := by
  cases state <;> rw [step] <;> split <;> rfl

end Reading

section Binding

variable {mark : α} {before after : List (Piece α)} {bound : List (List (Piece α))}

theorem bind_cons_of_ne {part : Piece α} (h : part ≠ .plain mark) :
    bind mark (part :: after) bound = part :: bind mark after bound := by
  cases part with
  | plain char =>
      cases bound with
      | nil => rfl
      | cons first bound => rw [bind, if_neg fun hsame => h (congrArg _ hsame)]
  | string text | unended text => cases bound <;> rfl

theorem bind_mark (first : List (Piece α)) (others : List (List (Piece α))) :
    bind mark (.plain mark :: after) (first :: others) = first ++ bind mark after others := by
  rw [bind, if_pos rfl]

/-- Where no mark stands, binding waits. -/
theorem bind_append (h : Piece.plain mark ∉ before) : bind mark (before ++ after) bound = before ++ bind mark after bound := by
  induction before with
  | nil => rfl
  | cons part before ih =>
      rw [List.mem_cons, not_or] at h
      rw [List.cons_append, bind_cons_of_ne (Ne.symm h.1), ih h.2, List.cons_append]

theorem bind_nil : bind mark after [] = after := by
  induction after with
  | nil => rfl
  | cons part after ih => cases part <;> exact congrArg _ ih

/-- A text with enough bound to it has no mark left. -/
theorem mark_not_mem_bind (hbound : ∀ text ∈ bound, Piece.plain mark ∉ text)
    (h : after.count (.plain mark) ≤ bound.length) : Piece.plain mark ∉ bind mark after bound := by
  induction after generalizing bound with
  | nil => exact List.not_mem_nil
  | cons part after ih =>
      by_cases hmark : part = .plain mark
      · rw [hmark, List.count_cons_self] at h
        cases bound with
        | nil => exact absurd h (Nat.not_succ_le_zero _)
        | cons text bound =>
            rw [hmark, bind_mark, List.mem_append, not_or]
            exact ⟨hbound text List.mem_cons_self,
              ih (fun other hother => hbound other (List.mem_cons_of_mem _ hother)) (Nat.le_of_succ_le_succ h)⟩
      · rw [List.count_cons_of_ne hmark] at h
        rw [bind_cons_of_ne hmark, List.mem_cons, not_or]
        exact ⟨Ne.symm hmark, ih hbound h⟩

end Binding

end QuotedText
