import Mathlib.Data.List.Basic
import Mainboard.SyntaxUnifier

/-! What a unification finds and what it misses. A success is a reading of the holes under which the pattern is the
target; a failure leaves the captures as they were. A reading is found whenever no later part of the pattern depends on
the way a nested list of siblings with several runs was cut. -/

namespace Mainboard.Analysis.Nodes.Unifier

section Reading

variable (pattern target : Bytes) (reading : Text → Option Bytes)

/-- A hole reads as what stands in its place. -/
def Takes (hole : Text) (capture : Capture) : Prop :=
  nameOf hole = ['_'] ∨ reading (nameOf hole) = some (taken target capture)

mutual

/-- A pattern node is a target node once its holes are read. -/
def Fits : Branch → Branch → List Node → Prop
  | .node row kids, node, uncles =>
      match hole pattern (.node row kids) with
      | some hole => Takes target reading hole (capture [node.row] none)
      | none =>
          row.type = node.row.type ∧
            if (Branch.node row kids).significant.isEmpty then text pattern row = text target node.row
            else FitsAll kids node.significant node uncles

/-- The pattern nodes that are neither trivia nor comments are the target nodes, a run for each hole of one. -/
def FitsAll : List Branch → List Branch → Branch → List Node → Prop
  | [], targets, _, _ => targets = []
  | first :: rest, targets, parent, uncles =>
      if first.idle then FitsAll rest targets parent uncles
      else match spreading pattern first with
        | some hole => ∃ cut ≤ targets.length,
            Takes target reading hole (capture ((targets.take cut).map Branch.row) (some (parent, uncles))) ∧
              FitsAll rest (targets.drop cut) parent uncles
        | none => match targets with
            | [] => False
            | node :: later => Fits first node parent.shown ∧ FitsAll rest later parent uncles

end

/-- The reading that captures are. -/
def textOf (held : Captures) (name : Text) : Option Bytes := (OrderedMap.get held name).map (taken target)

/-- What was held is held still. -/
def Extends (next held : Captures) : Prop :=
  ∀ name capture, OrderedMap.get held name = some capture → OrderedMap.get next name = some capture

end Reading

section Names

variable (pattern : Bytes)

mutual

/-- The names a pattern captures, in the order it does. -/
def names : Branch → List Text
  | .node row kids => match hole pattern (.node row kids) with
    | some hole => if nameOf hole = ['_'] then [] else [nameOf hole]
    | none => namesAll kids

def namesAll : List Branch → List Text
  | [] => []
  | first :: rest => if first.idle then namesAll rest else names first ++ namesAll rest

end

/-- Whether a pattern node stands for a run of siblings. -/
def spreads (branch : Branch) : Bool := !branch.idle && (spreading pattern branch).isSome

mutual

/-- The names a pattern captures at a place that no cut of a run moves. -/
def fixed : Branch → List Text
  | .node row kids => match hole pattern (.node row kids) with
    | some hole => if nameOf hole = ['_'] then [] else [nameOf hole]
    | none => fixedAll false kids

/-- A place among siblings is fixed where no run stands before it or none after it, and a run where none stands on
either side. -/
def fixedAll (seen : Bool) : List Branch → List Text
  | [] => []
  | first :: rest =>
      if first.idle then fixedAll seen rest
      else if spreads pattern first then
        (if !seen && !rest.any (spreads pattern) then fixed first else []) ++ fixedAll true rest
      else (if !seen || !rest.any (spreads pattern) then fixed first else []) ++ fixedAll seen rest

end

mutual

/-- A pattern none of whose later parts depends on a cut made before: a name that a child captures and the pattern
captures again was captured before the child or is fixed in it. -/
def Settled (before after : List Text) : Branch → Prop
  | .node row kids => match hole pattern (.node row kids) with
    | some _ => True
    | none => SettledAll before after kids

def SettledAll (before after : List Text) : List Branch → Prop
  | [] => True
  | first :: rest =>
      if first.idle then SettledAll before after rest
      else
        (∀ name ∈ names pattern first, name ∈ namesAll pattern rest ++ after →
          name ∈ before ∨ name ∈ fixed pattern first ∨ spreads pattern first = true) ∧
        Settled before (namesAll pattern rest ++ after) first ∧ SettledAll (before ++ names pattern first) after rest

end

end Names

section Found

variable {pattern target : Bytes} {held next : Captures} {uncles : List Node}

theorem Extends.refl (held : Captures) : Extends held held := fun _ _ h => h

theorem Extends.trans {last : Captures} (h : Extends last next) (hnext : Extends next held) : Extends last held :=
  fun name capture hget => h name capture (hnext name capture hget)

theorem extends_put {name : Text} {capture : Capture} (h : OrderedMap.get held name = none) :
    Extends (OrderedMap.put held name capture) held := by
  intro other found hfound
  rw [OrderedMap.get_put, if_neg]
  · exact hfound
  · rintro rfl
    rw [h] at hfound
    cases hfound

/-- What capturing under a name does: nothing, where nothing is captured or the same bytes are held; or the capture is
put under a new name. -/
theorem captured_cases {hole : Text} {capture : Capture} {answer : Bool}
    (h : captured target held hole capture = (answer, next)) :
    (answer = true ∧ nameOf hole = ['_'] ∧ next = held) ∨
      (nameOf hole ≠ ['_'] ∧ next = held ∧ ∃ other, OrderedMap.get held (nameOf hole) = some other ∧
        (answer = true ↔ taken target other = taken target capture)) ∨
      (answer = true ∧ nameOf hole ≠ ['_'] ∧ OrderedMap.get held (nameOf hole) = none ∧
        next = OrderedMap.put held (nameOf hole) capture) := by
  unfold captured at h
  dsimp only at h
  split at h
  · rename_i hany
    obtain ⟨rfl, rfl⟩ := Prod.mk.inj h
    exact Or.inl ⟨rfl, hany, rfl⟩
  · rename_i hname
    split at h
    · rename_i other hother
      obtain ⟨rfl, rfl⟩ := Prod.mk.inj h
      exact Or.inr (Or.inl ⟨hname, rfl, other, hother, decide_eq_true_iff⟩)
    · rename_i hnone
      obtain ⟨rfl, rfl⟩ := Prod.mk.inj h
      exact Or.inr (Or.inr ⟨rfl, hname, hnone, rfl⟩)

/-- What a spread does: it makes the attempt of one cut, or leaves what was held where none can be made. -/
theorem spread_cases {attempt : ℕ → Bool × Captures} {count : ℕ} {answer : Bool}
    (h : spread attempt held count = (answer, next)) :
    (answer = true ∧ ∃ cut ≤ count, attempt cut = (true, next)) ∨
      (answer = false ∧ next = held ∧ ∀ cut ≤ count, (attempt cut).1 = false) := by
  induction count with
  | zero =>
      rw [spread] at h
      split at h
      · rename_i found hfound
        obtain ⟨rfl, rfl⟩ := Prod.mk.inj h
        exact Or.inl ⟨rfl, 0, Nat.le_refl _, hfound⟩
      · rename_i lost hlost
        obtain ⟨rfl, rfl⟩ := Prod.mk.inj h
        refine Or.inr ⟨rfl, rfl, fun cut hcut => ?_⟩
        rw [Nat.le_zero.mp hcut, hlost]
  | succ count ih =>
      rw [spread] at h
      split at h
      · rename_i found hfound
        obtain ⟨rfl, rfl⟩ := Prod.mk.inj h
        exact Or.inl ⟨rfl, count + 1, Nat.le_refl _, hfound⟩
      · rename_i lost hlost
        rcases ih h with ⟨hanswer, cut, hcut, hattempt⟩ | ⟨hanswer, hnext, hall⟩
        · exact Or.inl ⟨hanswer, cut, Nat.le_succ_of_le hcut, hattempt⟩
        · refine Or.inr ⟨hanswer, hnext, fun cut hcut => ?_⟩
          rcases Nat.le_succ_iff.mp hcut with hless | rfl
          · exact hall cut hless
          · rw [hlost]

variable {first : Branch} {rest targets : List Branch} {parent node : Branch} {row : Node} {kids : List Branch}

/-- A node unified: a hole captured, a leaf of the same bytes, or children unified one for one. -/
theorem unify_true (h : unify pattern target (.node row kids) node uncles held = (true, next)) :
    (∃ mark, hole pattern (.node row kids) = some mark ∧
      captured target held mark (capture [node.row] none) = (true, next)) ∨
    (hole pattern (.node row kids) = none ∧ row.type = node.row.type ∧
      ((Branch.node row kids).significant.isEmpty = true ∧ text pattern row = text target node.row ∧ next = held ∨
        (Branch.node row kids).significant.isEmpty = false ∧
          run pattern target kids node.significant node uncles held = (true, next))) := by
  rw [unify] at h
  split at h
  · rename_i mark hmark
    exact Or.inl ⟨mark, hmark, h⟩
  · rename_i hnone
    split at h
    · cases h
    · rename_i htype
      refine Or.inr ⟨hnone, not_not.mp htype, ?_⟩
      split at h
      · rename_i hleaf
        obtain ⟨htext, rfl⟩ := Prod.mk.inj h
        exact Or.inl ⟨hleaf, of_decide_eq_true htext, rfl⟩
      · rename_i hleaf
        exact Or.inr ⟨Bool.not_eq_true _ ▸ hleaf, h⟩

theorem run_idle (hidle : first.idle = true) :
    run pattern target (first :: rest) targets parent uncles held =
      run pattern target rest targets parent uncles held := by
  rw [run.eq_def]
  dsimp only
  rw [hidle, if_pos rfl]

theorem run_marked (hidle : first.idle = false) {mark : Text} (hmark : spreading pattern first = some mark) :
    run pattern target (first :: rest) targets parent uncles held =
      spread (fun cut =>
        match captured target held mark (capture ((targets.take cut).map Branch.row) (some (parent, uncles))) with
        | (true, next) => run pattern target rest (targets.drop cut) parent uncles next
        | (false, _) => (false, held)) held targets.length := by
  have hstep := run.eq_def pattern target (first :: rest) targets parent uncles held
  simp only [hidle, Bool.false_eq_true, if_false, hmark] at hstep
  exact hstep

theorem run_plain (hidle : first.idle = false) (hmark : spreading pattern first = none) :
    run pattern target (first :: rest) targets parent uncles held =
      match targets with
      | [] => (false, held)
      | node :: later => match unify pattern target first node parent.shown held with
        | (true, next) => match run pattern target rest later parent uncles next with
          | (true, last) => (true, last)
          | (false, _) => (false, held)
        | (false, _) => (false, held) := by
  have hstep := run.eq_def pattern target (first :: rest) targets parent uncles held
  simp only [hidle, Bool.false_eq_true, if_false, hmark] at hstep
  exact hstep

/-- A run of a hole and the rest, for a cut of the targets. -/
theorem run_spread (hidle : first.idle = false) {mark : Text} (hmark : spreading pattern first = some mark)
    (h : run pattern target (first :: rest) targets parent uncles held = (true, next)) :
    ∃ cut ≤ targets.length, ∃ between,
      captured target held mark (capture ((targets.take cut).map Branch.row) (some (parent, uncles))) = (true, between) ∧
        run pattern target rest (targets.drop cut) parent uncles between = (true, next) := by
  rw [run_marked hidle hmark] at h
  rcases spread_cases h with ⟨-, cut, hcut, hattempt⟩ | ⟨hfalse, -⟩
  · split at hattempt
    · rename_i between hbetween
      exact ⟨cut, hcut, between, hbetween, hattempt⟩
    · cases hattempt
  · cases hfalse

/-- A node and the rest, for the first of the targets. -/
theorem run_single (hidle : first.idle = false) (hmark : spreading pattern first = none)
    (h : run pattern target (first :: rest) targets parent uncles held = (true, next)) :
    ∃ node later between, targets = node :: later ∧
      unify pattern target first node parent.shown held = (true, between) ∧
        run pattern target rest later parent uncles between = (true, next) := by
  rw [run_plain hidle hmark] at h
  cases targets with
  | nil => cases h
  | cons node later =>
      dsimp only at h
      split at h
      · rename_i between hbetween
        split at h
        · rename_i last hlast
          obtain ⟨-, rfl⟩ := Prod.mk.inj h
          exact ⟨node, later, between, rfl, hbetween, hlast⟩
        · cases h
      · cases h

theorem captured_false {mark : Text} {capture : Capture} (h : captured target held mark capture = (false, next)) :
    next = held := by
  rcases captured_cases h with ⟨hanswer, -⟩ | ⟨-, hnext, -⟩ | ⟨hanswer, -⟩
  · cases hanswer
  · exact hnext
  · cases hanswer

/-- Where the pattern nodes do not unify with the targets, the captures are what they were. -/
theorem run_false (h : run pattern target kids targets parent uncles held = (false, next)) : next = held := by
  induction kids with
  | nil =>
      rw [run] at h
      exact (Prod.mk.inj h).2.symm
  | cons first rest ih =>
      cases hidle : first.idle with
      | true =>
          rw [run_idle hidle] at h
          exact ih h
      | false =>
          cases hmark : spreading pattern first with
          | some mark =>
              rw [run_marked hidle hmark] at h
              rcases spread_cases h with ⟨hanswer, -⟩ | ⟨-, hnext, -⟩
              · cases hanswer
              · exact hnext
          | none =>
              rw [run_plain hidle hmark] at h
              split at h
              · exact (Prod.mk.inj h).2.symm
              · split at h
                · split at h
                  · cases h
                  · exact (Prod.mk.inj h).2.symm
                · exact (Prod.mk.inj h).2.symm

/-- Where a pattern node does not unify with a target node, the captures are what they were. -/
theorem unify_false {branch : Branch} (h : unify pattern target branch node uncles held = (false, next)) :
    next = held := by
  cases branch with
  | node row kids =>
      rw [unify] at h
      split at h
      · exact captured_false h
      · split at h
        · exact (Prod.mk.inj h).2.symm
        · split at h
          · exact (Prod.mk.inj h).2.symm
          · exact run_false h

theorem extends_captured {mark : Text} {capture : Capture} (h : captured target held mark capture = (true, next)) :
    Extends next held := by
  rcases captured_cases h with ⟨-, -, rfl⟩ | ⟨-, rfl, -⟩ | ⟨-, -, hnone, rfl⟩
  · exact Extends.refl _
  · exact Extends.refl _
  · exact extends_put hnone

theorem takes_captured {mark : Text} {capture : Capture} (h : captured target held mark capture = (true, next)) :
    Takes target (textOf target next) mark capture := by
  unfold Takes textOf
  rcases captured_cases h with ⟨-, hany, -⟩ | ⟨-, rfl, other, hother, hsame⟩ | ⟨-, -, -, rfl⟩
  · exact Or.inl hany
  · rw [hother, Option.map_some, hsame.mp rfl]
    exact Or.inr rfl
  · rw [OrderedMap.get_put, if_pos rfl]
    exact Or.inr rfl

mutual

theorem extends_unify : ∀ {branch node : Branch} {uncles : List Node} {held next : Captures},
    unify pattern target branch node uncles held = (true, next) → Extends next held
  | .node row kids, node, uncles, held, next, h => by
      rcases unify_true h with ⟨mark, -, hcaptured⟩ | ⟨-, -, ⟨-, -, rfl⟩ | ⟨-, hrun⟩⟩
      · exact extends_captured hcaptured
      · exact Extends.refl _
      · exact extends_run hrun

theorem extends_run : ∀ {kids targets : List Branch} {parent : Branch} {uncles : List Node} {held next : Captures},
    run pattern target kids targets parent uncles held = (true, next) → Extends next held
  | [], targets, parent, uncles, held, next, h => by
      rw [run] at h
      obtain ⟨-, rfl⟩ := Prod.mk.inj h
      exact Extends.refl _
  | first :: rest, targets, parent, uncles, held, next, h => by
      cases hidle : first.idle with
      | true =>
          rw [run_idle hidle] at h
          exact extends_run h
      | false =>
          cases hmark : spreading pattern first with
          | some mark =>
              obtain ⟨cut, -, between, hbetween, hrest⟩ := run_spread hidle hmark h
              exact (extends_run hrest).trans (extends_captured hbetween)
          | none =>
              obtain ⟨node, later, between, -, hbetween, hrest⟩ := run_single hidle hmark h
              exact (extends_run hrest).trans (extends_unify hbetween)

end

variable {reading other : Text → Option Bytes}

theorem fitsAll_idle (hidle : first.idle = true) :
    FitsAll pattern target reading (first :: rest) targets parent uncles =
      FitsAll pattern target reading rest targets parent uncles := by
  rw [FitsAll.eq_def]
  dsimp only
  rw [hidle, if_pos rfl]

theorem fitsAll_marked (hidle : first.idle = false) {mark : Text} (hmark : spreading pattern first = some mark) :
    FitsAll pattern target reading (first :: rest) targets parent uncles =
      ∃ cut ≤ targets.length,
        Takes target reading mark (capture ((targets.take cut).map Branch.row) (some (parent, uncles))) ∧
          FitsAll pattern target reading rest (targets.drop cut) parent uncles := by
  rw [FitsAll.eq_def]
  dsimp only
  rw [hidle, if_neg Bool.false_ne_true, hmark]

theorem fitsAll_plain (hidle : first.idle = false) (hmark : spreading pattern first = none) :
    FitsAll pattern target reading (first :: rest) targets parent uncles ↔
      ∃ node later, targets = node :: later ∧ Fits pattern target reading first node parent.shown ∧
        FitsAll pattern target reading rest later parent uncles := by
  rw [FitsAll.eq_def]
  dsimp only
  rw [hidle, if_neg Bool.false_ne_true, hmark]
  cases targets with
  | nil => exact iff_of_false id fun h => by obtain ⟨_, _, h, _⟩ := h; cases h
  | cons node later =>
      constructor
      · exact fun h => ⟨node, later, rfl, h⟩
      · rintro ⟨node, later, hsame, h⟩
        obtain ⟨rfl, rfl⟩ := List.cons.inj hsame
        exact h

theorem Takes.mono {mark : Text} {capture : Capture} (h : Takes target reading mark capture)
    (hmore : ∀ name bytes, reading name = some bytes → other name = some bytes) : Takes target other mark capture :=
  h.imp_right (hmore _ _)

mutual

/-- A reading of more names fits where one of fewer does. -/
theorem Fits.mono (hmore : ∀ name bytes, reading name = some bytes → other name = some bytes) :
    ∀ {branch node : Branch} {uncles : List Node}, Fits pattern target reading branch node uncles →
      Fits pattern target other branch node uncles
  | .node row kids, node, uncles, h => by
      rw [Fits] at h ⊢
      split at h
      · exact h.mono hmore
      · refine ⟨h.1, ?_⟩
        split
        · rename_i hleaf
          have htext := h.2
          rwa [if_pos hleaf] at htext
        · rename_i hleaf
          have hkids := h.2
          rw [if_neg hleaf] at hkids
          exact FitsAll.mono hmore hkids

theorem FitsAll.mono (hmore : ∀ name bytes, reading name = some bytes → other name = some bytes) :
    ∀ {kids targets : List Branch} {parent : Branch} {uncles : List Node},
      FitsAll pattern target reading kids targets parent uncles → FitsAll pattern target other kids targets parent uncles
  | [], targets, parent, uncles, h => h
  | first :: rest, targets, parent, uncles, h => by
      cases hidle : first.idle with
      | true =>
          rw [fitsAll_idle hidle] at h ⊢
          exact FitsAll.mono hmore h
      | false =>
          cases hmark : spreading pattern first with
          | some mark =>
              rw [fitsAll_marked hidle hmark] at h ⊢
              obtain ⟨cut, hcut, htakes, hrest⟩ := h
              exact ⟨cut, hcut, htakes.mono hmore, FitsAll.mono hmore hrest⟩
          | none =>
              rw [fitsAll_plain hidle hmark] at h ⊢
              obtain ⟨node, later, htargets, hfirst, hrest⟩ := h
              exact ⟨node, later, htargets, Fits.mono hmore hfirst, FitsAll.mono hmore hrest⟩

end

theorem Extends.textOf (h : Extends next held) (name : Text) (bytes : Bytes)
    (hheld : Unifier.textOf target held name = some bytes) : Unifier.textOf target next name = some bytes := by
  obtain ⟨capture, hcapture, hbytes⟩ := Option.map_eq_some_iff.mp hheld
  exact Option.map_eq_some_iff.mpr ⟨capture, h name capture hcapture, hbytes⟩

mutual

/-- Where a pattern node unifies with a target node, it is that node once its holes are read as captured. -/
theorem fits_unify : ∀ {branch node : Branch} {uncles : List Node} {held next : Captures},
    unify pattern target branch node uncles held = (true, next) →
      Fits pattern target (Unifier.textOf target next) branch node uncles
  | .node row kids, node, uncles, held, next, h => by
      rw [Fits]
      rcases unify_true h with ⟨mark, hmark, hcaptured⟩ | ⟨hnone, htype, ⟨hleaf, htext, -⟩ | ⟨hleaf, hrun⟩⟩
      · rw [hmark]
        exact takes_captured hcaptured
      · rw [hnone]
        refine ⟨htype, ?_⟩
        rw [hleaf, if_pos rfl]
        exact htext
      · rw [hnone]
        refine ⟨htype, ?_⟩
        rw [hleaf, if_neg Bool.false_ne_true]
        exact fits_run hrun

theorem fits_run : ∀ {kids targets : List Branch} {parent : Branch} {uncles : List Node} {held next : Captures},
    run pattern target kids targets parent uncles held = (true, next) →
      FitsAll pattern target (Unifier.textOf target next) kids targets parent uncles
  | [], targets, parent, uncles, held, next, h => by
      rw [run] at h
      rw [FitsAll]
      exact List.isEmpty_iff.mp (Prod.mk.inj h).1
  | first :: rest, targets, parent, uncles, held, next, h => by
      cases hidle : first.idle with
      | true =>
          rw [run_idle hidle] at h
          rw [fitsAll_idle hidle]
          exact fits_run h
      | false =>
          cases hmark : spreading pattern first with
          | some mark =>
              obtain ⟨cut, hcut, between, hbetween, hrest⟩ := run_spread hidle hmark h
              rw [fitsAll_marked hidle hmark]
              exact ⟨cut, hcut, (takes_captured hbetween).mono (extends_run hrest).textOf, fits_run hrest⟩
          | none =>
              obtain ⟨node, later, between, htargets, hbetween, hrest⟩ := run_single hidle hmark h
              rw [fitsAll_plain hidle hmark]
              exact ⟨node, later, htargets, (fits_unify hbetween).mono (extends_run hrest).textOf, fits_run hrest⟩

end

end Found

section Missed

variable {pattern target : Bytes} {held next : Captures} {uncles : List Node} {reading : Text → Option Bytes}
  {first node parent : Branch} {rest targets kids : List Branch} {row : Node} {mark : Text} {before after : List Text}

theorem hole_of_spreading (h : spreading pattern first = some mark) : hole pattern first = some mark := by
  unfold spreading at h
  rw [Option.filter_eq_some_iff] at h
  exact h.1

/-- The name of a hole, unless it is kept nowhere. -/
def kept (mark : Text) : List Text := if nameOf mark = ['_'] then [] else [nameOf mark]

theorem names_hole (h : hole pattern first = some mark) : names pattern first = kept mark := by
  cases first with
  | node row kids =>
      rw [names, h]
      rfl

theorem names_none (h : hole pattern (.node row kids) = none) : names pattern (.node row kids) = namesAll pattern kids := by
  rw [names, h]

theorem namesAll_idle (h : first.idle = true) : namesAll pattern (first :: rest) = namesAll pattern rest := by
  rw [namesAll, h, if_pos rfl]

theorem namesAll_cons (h : first.idle = false) :
    namesAll pattern (first :: rest) = names pattern first ++ namesAll pattern rest := by
  rw [namesAll, h, if_neg Bool.false_ne_true]

theorem idle_of_leaf {branch : Branch} (h : branch.significant.isEmpty = true) : ∀ kid ∈ branch.kids, kid.idle = true := by
  intro kid hkid
  have hnone := List.filter_eq_nil_iff.mp (List.isEmpty_iff.mp h) kid hkid
  simpa using hnone

theorem namesAll_leaf {branch : Branch} (h : branch.significant.isEmpty = true) : namesAll pattern branch.kids = [] := by
  have hidle := idle_of_leaf h
  generalize branch.kids = kids at hidle
  induction kids with
  | nil => rfl
  | cons kid kids ih =>
      rw [List.forall_mem_cons] at hidle
      rw [namesAll_idle hidle.1]
      exact ih hidle.2

/-- What is held under names. -/
def Bound (held : Captures) (name : Text) : Prop := (OrderedMap.get held name).isSome = true

theorem bound_captured {capture : Capture} (h : captured target held mark capture = (true, next)) (name : Text) :
    Bound next name ↔ Bound held name ∨ name ∈ kept mark := by
  unfold kept Bound
  rcases captured_cases h with ⟨-, hany, rfl⟩ | ⟨hname, rfl, other, hother, -⟩ | ⟨-, hname, hnone, rfl⟩
  · rw [if_pos hany]
    simp
  · rw [if_neg hname, List.mem_singleton]
    refine ⟨Or.inl, fun hboth => hboth.elim id ?_⟩
    rintro rfl
    rw [hother]
    rfl
  · rw [if_neg hname, List.mem_singleton, OrderedMap.get_put]
    split
    · rename_i hsame
      exact iff_of_true rfl (Or.inr hsame.symm)
    · rename_i hother
      exact ⟨Or.inl, fun hboth => hboth.resolve_right (Ne.symm hother)⟩

mutual

/-- A unification binds the pattern's names and no others. -/
theorem bound_unify : ∀ {branch node : Branch} {uncles : List Node} {held next : Captures},
    unify pattern target branch node uncles held = (true, next) → ∀ name,
      Bound next name ↔ Bound held name ∨ name ∈ names pattern branch
  | .node row kids, node, uncles, held, next, h, name => by
      rcases unify_true h with ⟨mark, hmark, hcaptured⟩ | ⟨hnone, -, ⟨hleaf, -, rfl⟩ | ⟨-, hrun⟩⟩
      · rw [names_hole hmark]
        exact bound_captured hcaptured name
      · have hnames : namesAll pattern kids = [] := namesAll_leaf hleaf
        rw [names_none hnone, hnames]
        simp
      · rw [names_none hnone]
        exact bound_run hrun name

theorem bound_run : ∀ {kids targets : List Branch} {parent : Branch} {uncles : List Node} {held next : Captures},
    run pattern target kids targets parent uncles held = (true, next) → ∀ name,
      Bound next name ↔ Bound held name ∨ name ∈ namesAll pattern kids
  | [], targets, parent, uncles, held, next, h, name => by
      rw [run] at h
      obtain ⟨-, rfl⟩ := Prod.mk.inj h
      simp [namesAll]
  | first :: rest, targets, parent, uncles, held, next, h, name => by
      cases hidle : first.idle with
      | true =>
          rw [run_idle hidle] at h
          rw [namesAll_idle hidle]
          exact bound_run h name
      | false =>
          rw [namesAll_cons hidle, List.mem_append, ← or_assoc]
          cases hmark : spreading pattern first with
          | some mark =>
              obtain ⟨cut, -, between, hbetween, hrest⟩ := run_spread hidle hmark h
              rw [bound_run hrest, bound_captured hbetween, names_hole (hole_of_spreading hmark)]
          | none =>
              obtain ⟨node, later, between, -, hbetween, hrest⟩ := run_single hidle hmark h
              rw [bound_run hrest, bound_unify hbetween]

end

/-- A reading agrees with what is held under some names. -/
def Agrees (target : Bytes) (reading : Text → Option Bytes) (held : Captures) (relevant : List Text) : Prop :=
  ∀ name ∈ relevant, ∀ capture, OrderedMap.get held name = some capture → reading name = some (taken target capture)

theorem Agrees.sub {relevant fewer : List Text} (h : Agrees target reading held relevant)
    (hsub : ∀ name ∈ fewer, name ∈ relevant) : Agrees target reading held fewer :=
  fun name hname => h name (hsub name hname)

/-- A hole is captured as it reads, and what is held then agrees with the reading still. -/
theorem captured_takes {capture : Capture} {relevant : List Text} (htakes : Takes target reading mark capture)
    (hagrees : Agrees target reading held (kept mark ++ relevant)) :
    ∃ next, captured target held mark capture = (true, next) := by
  cases hanswer : captured target held mark capture with
  | mk answer next =>
      refine ⟨next, ?_⟩
      rcases captured_cases hanswer with ⟨rfl, -⟩ | ⟨hname, -, other, hother, hsame⟩ | ⟨rfl, -⟩
      · rfl
      · have hread := hagrees (nameOf mark) (List.mem_append_left _ (by simp [kept, hname])) other hother
        rw [htakes.resolve_left hname] at hread
        rw [hsame.mpr (Option.some.inj hread).symm]
      · rfl

theorem agrees_captured {capture : Capture} {relevant : List Text} (htakes : Takes target reading mark capture)
    (hagrees : Agrees target reading held relevant) (h : captured target held mark capture = (true, next)) :
    Agrees target reading next relevant := by
  rcases captured_cases h with ⟨-, -, rfl⟩ | ⟨-, rfl, -⟩ | ⟨-, hname, -, rfl⟩
  · exact hagrees
  · exact hagrees
  · intro name hmem found hfound
    rw [OrderedMap.get_put] at hfound
    split at hfound
    · rename_i hsame
      obtain rfl := Option.some.inj hfound
      exact hsame ▸ htakes.resolve_left hname
    · exact hagrees name hmem found hfound

theorem settledAll_idle (h : first.idle = true) :
    SettledAll pattern before after (first :: rest) = SettledAll pattern before after rest := by
  rw [SettledAll, h, if_pos rfl]

theorem settledAll_cons (h : first.idle = false) : SettledAll pattern before after (first :: rest) =
    ((∀ name ∈ names pattern first, name ∈ namesAll pattern rest ++ after →
        name ∈ before ∨ name ∈ fixed pattern first ∨ spreads pattern first = true) ∧
      Settled pattern before (namesAll pattern rest ++ after) first ∧
        SettledAll pattern (before ++ names pattern first) after rest) := by
  rw [SettledAll, h, if_neg Bool.false_ne_true]

theorem settled_none (h : hole pattern (.node row kids) = none) :
    Settled pattern before after (.node row kids) = SettledAll pattern before after kids := by
  rw [Settled, h]

theorem spreads_eq (hidle : first.idle = false) : spreads pattern first = (spreading pattern first).isSome := by
  rw [spreads, hidle]
  rfl

theorem fixed_hole (h : hole pattern first = some mark) : fixed pattern first = kept mark := by
  cases first with
  | node row kids =>
      rw [fixed, h]
      rfl

theorem fixedAll_leaf {branch : Branch} (h : branch.significant.isEmpty = true) : fixedAll pattern false branch.kids = [] := by
  have hidle := idle_of_leaf h
  generalize branch.kids = kids at hidle
  induction kids with
  | nil => rfl
  | cons kid kids ih =>
      rw [List.forall_mem_cons] at hidle
      rw [fixedAll, hidle.1, if_pos rfl]
      exact ih hidle.2

/-- Pattern nodes without runs take a target node each. -/
theorem length_fitsAll (hruns : kids.any (spreads pattern) = false)
    (h : FitsAll pattern target reading kids targets parent uncles) :
    targets.length = (kids.filter fun kid => !kid.idle).length := by
  induction kids generalizing targets with
  | nil =>
      rw [FitsAll] at h
      rw [h]
      rfl
  | cons first rest ih =>
      rw [List.any_cons, Bool.or_eq_false_iff] at hruns
      cases hidle : first.idle with
      | true =>
          rw [fitsAll_idle hidle] at h
          rw [List.filter_cons_of_neg (by simp [hidle])]
          exact ih hruns.2 h
      | false =>
          have hmark := hruns.1
          rw [spreads_eq hidle, Option.isSome_eq_false_iff, Option.isNone_iff_eq_none] at hmark
          obtain ⟨node, later, rfl, -, hrest⟩ := (fitsAll_plain hidle hmark).mp h
          rw [List.filter_cons_of_pos (by simp [hidle]), List.length_cons, List.length_cons, ih hruns.2 hrest]

/-- Two tails that pattern nodes without runs take are one. -/
theorem tails_eq {all others : List Branch} {other : Text → Option Bytes} (hruns : kids.any (spreads pattern) = false)
    (hone : targets <:+ all) (hother : others <:+ all) (h : FitsAll pattern target reading kids targets parent uncles)
    (hfits : FitsAll pattern target other kids others parent uncles) : targets = others := by
  have hlength := (length_fitsAll hruns h).trans (length_fitsAll hruns hfits).symm
  exact (List.suffix_of_suffix_length_le hone hother hlength.le).eq_of_length hlength

mutual

/-- Two readings that fit a node agree on the names fixed in the pattern. -/
theorem fixed_agree {other : Text → Option Bytes} : ∀ {branch node : Branch} {uncles : List Node},
    Fits pattern target reading branch node uncles → Fits pattern target other branch node uncles →
      ∀ name ∈ fixed pattern branch, reading name = other name
  | .node row kids, node, uncles, h, hother, name, hname => by
      rw [Fits] at h hother
      rw [fixed] at hname
      cases hmark : hole pattern (.node row kids) with
      | some mark =>
          rw [hmark] at h hother hname
          dsimp only at hname
          split at hname
          · cases hname
          · rename_i hkept
            obtain rfl := List.mem_singleton.mp hname
            rw [h.resolve_left hkept, hother.resolve_left hkept]
      | none =>
          rw [hmark] at h hother hname
          obtain ⟨-, hkids⟩ := h
          obtain ⟨-, hothers⟩ := hother
          dsimp only at hname
          split at hkids
          · rename_i hleaf
            have hnone : fixedAll pattern false kids = [] := fixedAll_leaf hleaf
            rw [hnone] at hname
            cases hname
          · rename_i hleaf
            rw [if_neg hleaf] at hothers
            exact fixedAll_agree (fun _ => rfl) (List.suffix_refl _) (List.suffix_refl _) hkids hothers name hname

theorem fixedAll_agree {other : Text → Option Bytes} {all : List Branch} :
    ∀ {kids targets others : List Branch} {parent : Branch} {uncles : List Node} {seen : Bool},
      (seen = false → targets = others) → targets <:+ all → others <:+ all →
        FitsAll pattern target reading kids targets parent uncles → FitsAll pattern target other kids others parent uncles →
          ∀ name ∈ fixedAll pattern seen kids, reading name = other name
  | [], _, _, _, _, _, _, _, _, _, _, name, hname => by
      rw [fixedAll] at hname
      cases hname
  | first :: rest, targets, others, parent, uncles, seen, hseen, hone, htwo, h, hother, name, hname => by
      rw [fixedAll] at hname
      cases hidle : first.idle with
      | true =>
          rw [fitsAll_idle hidle] at h hother
          rw [hidle, if_pos rfl] at hname
          exact fixedAll_agree hseen hone htwo h hother name hname
      | false =>
          rw [hidle, if_neg Bool.false_ne_true] at hname
          cases hmark : spreading pattern first with
          | some mark =>
              have hrun : spreads pattern first = true := by rw [spreads_eq hidle, hmark]; rfl
              rw [hrun, if_pos rfl] at hname
              rw [fitsAll_marked hidle hmark] at h hother
              obtain ⟨cut, hcut, htakes, hrest⟩ := h
              obtain ⟨cut', hcut', htakes', hrest'⟩ := hother
              rcases List.mem_append.mp hname with hfirst | hlater
              · split at hfirst
                · rename_i hlone
                  rw [Bool.and_eq_true, Bool.not_eq_true', Bool.not_eq_true'] at hlone
                  obtain rfl := hseen hlone.1
                  have hsame : cut = cut' := by
                    have hfirst := length_fitsAll hlone.2 hrest
                    have hsecond := length_fitsAll hlone.2 hrest'
                    rw [List.length_drop] at hfirst hsecond
                    omega
                  subst hsame
                  rw [fixed_hole (hole_of_spreading hmark), kept] at hfirst
                  split at hfirst
                  · cases hfirst
                  · rename_i hkept
                    obtain rfl := List.mem_singleton.mp hfirst
                    rw [htakes.resolve_left hkept, htakes'.resolve_left hkept]
                · cases hfirst
              · exact fixedAll_agree (fun hfalse => by cases hfalse) ((List.drop_suffix _ _).trans hone)
                  ((List.drop_suffix _ _).trans htwo) hrest hrest' name hlater
          | none =>
              have hrun : spreads pattern first = false := by rw [spreads_eq hidle, hmark]; rfl
              rw [hrun, if_neg Bool.false_ne_true] at hname
              have hall := h
              have hothers := hother
              rw [fitsAll_plain hidle hmark] at h hother
              obtain ⟨node, later, rfl, hfirst, hrest⟩ := h
              obtain ⟨node', later', rfl, hfirst', hrest'⟩ := hother
              rcases List.mem_append.mp hname with hnow | hlater
              · split at hnow
                · rename_i hplace
                  have hsame : node :: later = node' :: later' := by
                    rcases Bool.or_eq_true_iff.mp hplace with hfree | hfree
                    · exact hseen (by simpa using hfree)
                    · refine tails_eq ?_ hone htwo hall hothers
                      have hrest : rest.any (spreads pattern) = false := by simpa using hfree
                      rw [List.any_cons, hrun, hrest]
                      rfl
                  obtain ⟨rfl, rfl⟩ := List.cons.inj hsame
                  exact fixed_agree hfirst hfirst' name hnow
                · cases hnow
              · refine fixedAll_agree (fun hfalse => ?_) ((List.suffix_cons _ _).trans hone)
                  ((List.suffix_cons _ _).trans htwo) hrest hrest' name hlater
                exact (List.cons.inj (hseen hfalse)).2

end

/-- What is captured of a child agrees with each reading that fits, under the names captured again later. -/
theorem agrees_unify {between : Captures} (hsettled : ∀ name ∈ names pattern first, name ∈ after →
      name ∈ before ∨ name ∈ fixed pattern first) (hbefore : ∀ name ∈ before, Bound held name)
    (hagrees : Agrees target reading held after) (hfits : Fits pattern target reading first node uncles)
    (h : unify pattern target first node uncles held = (true, between)) : Agrees target reading between after := by
  intro name hname capture hget
  by_cases hheld : Bound held name
  · obtain ⟨found, hfound⟩ := Option.isSome_iff_exists.mp hheld
    have hsame := extends_unify h name found hfound
    rw [hget] at hsame
    obtain rfl := Option.some.inj hsame
    exact hagrees name hname capture hfound
  · have hnew : Bound between name := by
      unfold Bound
      rw [hget]
      rfl
    have hmem := ((bound_unify h name).mp hnew).resolve_left hheld
    rcases hsettled name hmem hname with hearly | hfixed
    · exact absurd (hbefore name hearly) hheld
    · rw [fixed_agree hfits (fits_unify h) name hfixed, textOf, hget]
      rfl


mutual

/-- A settled pattern unifies with what a reading fits. -/
theorem finds_unify : ∀ {branch node : Branch} {uncles : List Node} {held : Captures} {before after : List Text},
    Settled pattern before after branch → (∀ name ∈ before, Bound held name) →
      Agrees target reading held (names pattern branch ++ after) → Fits pattern target reading branch node uncles →
        ∃ next, unify pattern target branch node uncles held = (true, next)
  | .node row kids, node, uncles, held, before, after, hsettled, hbefore, hagrees, hfits => by
      rw [Fits] at hfits
      rw [unify]
      cases hmark : hole pattern (.node row kids) with
      | some mark =>
          rw [hmark] at hfits
          rw [names_hole hmark] at hagrees
          exact captured_takes hfits hagrees
      | none =>
          rw [hmark] at hfits
          obtain ⟨htype, hkids⟩ := hfits
          rw [names_none hmark] at hagrees
          dsimp only
          rw [if_neg (not_not.mpr htype)]
          split
          · rename_i hleaf
            rw [if_pos hleaf] at hkids
            exact ⟨held, by rw [decide_eq_true hkids]⟩
          · rename_i hleaf
            rw [if_neg hleaf] at hkids
            rw [settled_none hmark] at hsettled
            exact finds_run hsettled hbefore hagrees hkids

theorem finds_run : ∀ {kids targets : List Branch} {parent : Branch} {uncles : List Node} {held : Captures}
    {before after : List Text}, SettledAll pattern before after kids → (∀ name ∈ before, Bound held name) →
      Agrees target reading held (namesAll pattern kids ++ after) →
        FitsAll pattern target reading kids targets parent uncles →
          ∃ next, run pattern target kids targets parent uncles held = (true, next)
  | [], targets, parent, uncles, held, before, after, _, _, _, hfits => by
      rw [FitsAll] at hfits
      rw [run, hfits]
      exact ⟨held, rfl⟩
  | first :: rest, targets, parent, uncles, held, before, after, hsettled, hbefore, hagrees, hfits => by
      cases hidle : first.idle with
      | true =>
          rw [run_idle hidle]
          rw [fitsAll_idle hidle] at hfits
          rw [settledAll_idle hidle] at hsettled
          rw [namesAll_idle hidle] at hagrees
          exact finds_run hsettled hbefore hagrees hfits
      | false =>
          rw [settledAll_cons hidle] at hsettled
          rw [namesAll_cons hidle, List.append_assoc] at hagrees
          have hlate := hagrees.sub fun name hname => List.mem_append_right (names pattern first) hname
          cases hmark : spreading pattern first with
          | some mark =>
              rw [fitsAll_marked hidle hmark] at hfits
              obtain ⟨cut, hcut, htakes, hrest⟩ := hfits
              have hnames := names_hole (hole_of_spreading hmark)
              rw [hnames] at hagrees
              obtain ⟨between, hbetween⟩ := captured_takes htakes hagrees
              obtain ⟨next, hnext⟩ := finds_run hsettled.2.2 (fun name hname => by
                rw [hnames, List.mem_append] at hname
                exact (bound_captured hbetween name).mpr (hname.imp_left (hbefore name)))
                (agrees_captured htakes hlate hbetween) hrest
              rw [run_marked hidle hmark]
              generalize hattempt : (fun cut => match captured target held mark
                (capture ((targets.take cut).map Branch.row) (some (parent, uncles))) with
                | (true, next) => run pattern target rest (targets.drop cut) parent uncles next
                | (false, _) => (false, held)) = attempt
              have hmade : attempt cut = (true, next) := by
                rw [← hattempt]
                dsimp only
                rw [hbetween]
                exact hnext
              cases hspread : spread attempt held targets.length with
              | mk answer last =>
                  rcases spread_cases hspread with ⟨rfl, -⟩ | ⟨-, -, hall⟩
                  · exact ⟨last, rfl⟩
                  · have hlost := hall cut hcut
                    rw [hmade] at hlost
                    cases hlost
          | none =>
              obtain ⟨node, later, rfl, hfirst, hrest⟩ := (fitsAll_plain hidle hmark).mp hfits
              have hsingle : spreads pattern first = false := by rw [spreads_eq hidle, hmark]; rfl
              have hlasting : ∀ name ∈ names pattern first, name ∈ namesAll pattern rest ++ after →
                  name ∈ before ∨ name ∈ fixed pattern first := fun name hname hagain =>
                (hsettled.1 name hname hagain).imp_right fun hor => hor.resolve_right (by rw [hsingle]; decide)
              obtain ⟨between, hbetween⟩ := finds_unify hsettled.2.1 hbefore hagrees hfirst
              obtain ⟨next, hnext⟩ := finds_run hsettled.2.2 (fun name hname =>
                (bound_unify hbetween name).mpr ((List.mem_append.mp hname).imp_left (hbefore name)))
                (agrees_unify hlasting hbefore hlate hfirst hbetween) hrest
              rw [run_plain hidle hmark]
              dsimp only
              rw [hbetween]
              dsimp only
              rw [hnext]
              exact ⟨next, rfl⟩

end

end Missed

section Once

variable {pattern : Bytes}

mutual

/-- A pattern that names each of its holes once is settled. -/
theorem settled_of_nodup : ∀ {branch : Branch} {before after : List Text},
    (names pattern branch ++ after).Nodup → Settled pattern before after branch
  | .node row kids, before, after, h => by
      rw [Settled]
      cases hmark : hole pattern (.node row kids) with
      | some mark => trivial
      | none =>
          rw [names_none hmark] at h
          exact settledAll_of_nodup h

theorem settledAll_of_nodup : ∀ {kids : List Branch} {before after : List Text},
    (namesAll pattern kids ++ after).Nodup → SettledAll pattern before after kids
  | [], before, after, h => trivial
  | first :: rest, before, after, h => by
      cases hidle : first.idle with
      | true =>
          rw [namesAll_idle hidle] at h
          rw [settledAll_idle hidle]
          exact settledAll_of_nodup h
      | false =>
          rw [namesAll_cons hidle, List.append_assoc] at h
          rw [settledAll_cons hidle]
          refine ⟨fun name hname hagain => ?_, settled_of_nodup h, settledAll_of_nodup (List.nodup_append.mp h).2.1⟩
          exact absurd rfl ((List.nodup_append.mp h).2.2 name hname name hagain)

end

end Once

/-- A failure leaves the captures as they were; a success keeps what was held, and read as captured the pattern is the
target; and a settled pattern unifies exactly where some reading of its holes that agrees with what is held makes it the
target. -/
theorem unify_spec (pattern target : Bytes) (branch node : Branch) (uncles : List Node) (held : Captures) :
    let answer := unify pattern target branch node uncles held
    (answer.1 = false → answer.2 = held) ∧
      (answer.1 = true → Extends answer.2 held ∧ Fits pattern target (textOf target answer.2) branch node uncles) ∧
      (Settled pattern (held.map (·.1)) [] branch → (answer.1 = true ↔ ∃ reading : Text → Option Bytes,
        (∀ name capture, OrderedMap.get held name = some capture → reading name = some (taken target capture)) ∧
          Fits pattern target reading branch node uncles)) := by
  cases hanswer : unify pattern target branch node uncles held with
  | mk answer next =>
      dsimp only
      have hsound : answer = true → Extends next held ∧ Fits pattern target (textOf target next) branch node uncles := by
        rintro rfl
        exact ⟨extends_unify hanswer, fits_unify hanswer⟩
      refine ⟨?_, hsound, fun hsettled => ⟨fun hfound => ?_, ?_⟩⟩
      · rintro rfl
        exact unify_false hanswer
      · obtain ⟨hextends, hfits⟩ := hsound hfound
        refine ⟨textOf target next, fun name capture hget => ?_, hfits⟩
        rw [textOf, hextends name capture hget]
        rfl
      · rintro ⟨reading, hagrees, hfits⟩
        have hbefore : ∀ name ∈ held.map (·.1), Bound held name := by
          intro name hname
          by_contra hnone
          refine (OrderedMap.get_eq_none_iff held name).mp ?_ hname
          unfold Bound at hnone
          rwa [Bool.not_eq_true, Option.isSome_eq_false_iff, Option.isNone_iff_eq_none] at hnone
        obtain ⟨found, hfound⟩ := finds_unify hsettled hbefore (fun name _ => hagrees name) hfits
        rw [hanswer] at hfound
        exact (Prod.mk.inj hfound).1

/-- A node of a one-line text. -/
def rowOf (node : ℕ) (type semantic : String) (start stop : ℕ) : Node where
  node := node
  parent := none
  index := 0
  type := type
  semantic := semantic
  start := start
  stop := stop
  line := 1
  column := start
  endLine := 1
  endColumn := stop

def leafOf (node : ℕ) (type semantic : String) (start stop : ℕ) : Branch := .node (rowOf node type semantic start stop) []

/-- `f($$$A, $$$B) + g($$$A)`, each `$` written as the expando. -/
def twicePattern : Bytes × Branch :=
  (utf8 "f(µµµA, µµµB) + g(µµµA)".toList,
    .node (rowOf 0 "binary_operator" "OPERATOR_ARITHMETIC" 0 32) [
      .node (rowOf 1 "call" "COMPUTATION_CALL" 0 19) [leafOf 2 "identifier" "NAME_IDENTIFIER" 0 1,
        .node (rowOf 3 "argument_list" "ORGANIZATION_LIST" 1 19) [leafOf 4 "(" "PARSER_DELIMITER" 1 2,
          leafOf 5 "identifier" "NAME_IDENTIFIER" 2 9, leafOf 6 "," "PARSER_PUNCTUATION" 9 10,
          leafOf 7 "identifier" "NAME_IDENTIFIER" 11 18, leafOf 8 ")" "PARSER_DELIMITER" 18 19]],
      leafOf 9 "+" "OPERATOR_ARITHMETIC" 20 21,
      .node (rowOf 10 "call" "COMPUTATION_CALL" 22 32) [leafOf 11 "identifier" "NAME_IDENTIFIER" 22 23,
        .node (rowOf 12 "argument_list" "ORGANIZATION_LIST" 23 32) [leafOf 13 "(" "PARSER_DELIMITER" 23 24,
          leafOf 14 "identifier" "NAME_IDENTIFIER" 24 31, leafOf 15 ")" "PARSER_DELIMITER" 31 32]]])

/-- `f(x, y) + g(x)`. -/
def twiceTarget : Bytes × Branch :=
  (utf8 "f(x, y) + g(x)".toList,
    .node (rowOf 0 "binary_operator" "OPERATOR_ARITHMETIC" 0 14) [
      .node (rowOf 1 "call" "COMPUTATION_CALL" 0 7) [leafOf 2 "identifier" "NAME_IDENTIFIER" 0 1,
        .node (rowOf 3 "argument_list" "ORGANIZATION_LIST" 1 7) [leafOf 4 "(" "PARSER_DELIMITER" 1 2,
          leafOf 5 "identifier" "NAME_IDENTIFIER" 2 3, leafOf 6 "," "PARSER_PUNCTUATION" 3 4,
          leafOf 7 "identifier" "NAME_IDENTIFIER" 5 6, leafOf 8 ")" "PARSER_DELIMITER" 6 7]],
      leafOf 9 "+" "OPERATOR_ARITHMETIC" 8 9,
      .node (rowOf 10 "call" "COMPUTATION_CALL" 10 14) [leafOf 11 "identifier" "NAME_IDENTIFIER" 10 11,
        .node (rowOf 12 "argument_list" "ORGANIZATION_LIST" 11 14) [leafOf 13 "(" "PARSER_DELIMITER" 11 12,
          leafOf 14 "identifier" "NAME_IDENTIFIER" 12 13, leafOf 15 ")" "PARSER_DELIMITER" 13 14]]])

mutual

/-- A pattern's text with what each hole took in its place. -/
def filled (pattern target : Bytes) (held : Captures) : Branch → Bytes
  | .node row kids => match hole pattern (.node row kids) with
    | some hole => ((OrderedMap.get held (nameOf hole)).map (taken target)).getD (text pattern row)
    | none => filledAll pattern target held row.start row.stop kids

def filledAll (pattern target : Bytes) (held : Captures) (start stop : ℕ) : List Branch → Bytes
  | [] => slice pattern start stop
  | .node row kids :: rest =>
      slice pattern start row.start ++ filled pattern target held (.node row kids) ++
        filledAll pattern target held row.stop stop rest

end

/-- `$D[$K]`. -/
def indexPattern : Bytes × Branch :=
  (utf8 "µD[µK]".toList,
    .node (rowOf 0 "subscript" "COMPUTATION_ACCESS" 0 8) [leafOf 1 "identifier" "NAME_IDENTIFIER" 0 3,
      leafOf 2 "[" "PARSER_DELIMITER" 3 4, leafOf 3 "identifier" "NAME_IDENTIFIER" 4 7,
      leafOf 4 "]" "PARSER_DELIMITER" 7 8])

/-- `d[k,]`. -/
def indexTarget : Bytes × Branch :=
  (utf8 "d[k,]".toList,
    .node (rowOf 0 "subscript" "COMPUTATION_ACCESS" 0 5) [leafOf 1 "identifier" "NAME_IDENTIFIER" 0 1,
      leafOf 2 "[" "PARSER_DELIMITER" 1 2, leafOf 3 "identifier" "NAME_IDENTIFIER" 2 3,
      leafOf 4 "," "PARSER_PUNCTUATION" 3 4, leafOf 5 "]" "PARSER_DELIMITER" 4 5])

/-- The list of `f` takes both nodes for `$$$A`, and `g` takes one; `x` for `$$$A` in both would do. And `d[k,]` unifies
with `$D[$K]`, which filled with its captures reads `d[k]`. -/
theorem unify_fails : ¬ ((unify twicePattern.1 twiceTarget.1 twicePattern.2 twiceTarget.2 [] []).1 = true ↔
    ∃ reading : Text → Option Bytes,
      (∀ name capture, OrderedMap.get [] name = some capture → reading name = some (taken twiceTarget.1 capture)) ∧
        Fits twicePattern.1 twiceTarget.1 reading twicePattern.2 twiceTarget.2 []) ∧
    ∃ next, unify indexPattern.1 indexTarget.1 indexPattern.2 indexTarget.2 [] [] = (true, next) ∧
      filled indexPattern.1 indexTarget.1 next indexPattern.2 ≠ text indexTarget.1 indexTarget.2.row := by
  refine ⟨?_, [(['D'], { start := 0, stop := 1, nodes := [1] }), (['K'], { start := 2, stop := 3, nodes := [3] })],
    by decide +kernel, by decide +kernel⟩
  have hlost : (unify twicePattern.1 twiceTarget.1 twicePattern.2 twiceTarget.2 [] []).1 = false := by decide +kernel
  have hmade : (unify twicePattern.1 twiceTarget.1 twicePattern.2 twiceTarget.2 []
      [(['A'], { start := 2, stop := 3, nodes := [5] })]).1 = true := by decide +kernel
  intro h
  cases hanswer : unify twicePattern.1 twiceTarget.1 twicePattern.2 twiceTarget.2 []
      [(['A'], { start := 2, stop := 3, nodes := [5] })] with
  | mk answer next =>
      rw [hanswer] at hmade
      dsimp only at hmade
      subst hmade
      have hfound := h.mpr ⟨textOf twiceTarget.1 next, (fun name capture hget => by cases hget), fits_unify hanswer⟩
      rw [hlost] at hfound
      cases hfound

end Mainboard.Analysis.Nodes.Unifier
