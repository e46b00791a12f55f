import Mathlib.Data.List.Infix

/-! Runs of a labelled machine given by a total step function. A label carries every choice that is
not the machine's own (who moves, what the outside answered), so a list of labels is one
interleaving. A step that is not enabled leaves the state as it is. -/

namespace Runs

variable {σ ι : Type*} (step : σ → ι → σ)

/-- The state a run ends in. -/
def run (s : σ) (labels : List ι) : σ := labels.foldl step s

/-- Every step of the run has `Q`, read in the state the step is taken in. -/
def Each (Q : σ → ι → Prop) : σ → List ι → Prop
  | _, [] => True
  | s, label :: labels => Q s label ∧ Each Q (step s label) labels

instance decidableEach {Q : σ → ι → Prop} [∀ s label, Decidable (Q s label)] :
    (s : σ) → (labels : List ι) → Decidable (Each step Q s labels)
  | _, [] => .isTrue trivial
  | s, label :: labels =>
      have : Decidable (Each step Q (step s label) labels) := decidableEach (step s label) labels
      inferInstanceAs (Decidable (Q s label ∧ Each step Q (step s label) labels))

/-- Every state the run passes through, its first and last included, has `P`. -/
def Always (P : σ → Prop) (s : σ) (labels : List ι) : Prop :=
  ∀ taken, taken <+: labels → P (run step s taken)

@[simp] theorem run_nil (s : σ) : run step s [] = s := rfl

@[simp] theorem run_cons (s : σ) (label : ι) (labels : List ι) :
    run step s (label :: labels) = run step (step s label) labels := rfl

variable {step} {Q R C : σ → ι → Prop} {I P : σ → Prop} {s : σ} {labels taken : List ι}

theorem each_cons {label : ι} :
    Each step Q s (label :: labels) ↔ Q s label ∧ Each step Q (step s label) labels := Iff.rfl

theorem each_append : Each step Q s (taken ++ labels) ↔
    Each step Q s taken ∧ Each step Q (run step s taken) labels := by
  induction taken generalizing s with
  | nil => simp [Each]
  | cons label taken ih => simp only [List.cons_append, each_cons, ih, run_cons, and_assoc]

theorem Each.mono (hQR : ∀ s label, Q s label → R s label) (h : Each step Q s labels) :
    Each step R s labels := by
  induction labels generalizing s with
  | nil => trivial
  | cons label labels ih => exact ⟨hQR _ _ h.1, ih h.2⟩

theorem each_congr (hQR : ∀ s label, Q s label ↔ R s label) :
    Each step Q s labels ↔ Each step R s labels :=
  ⟨Each.mono fun s label => (hQR s label).mp, Each.mono fun s label => (hQR s label).mpr⟩

/-- What every label has, every step has. -/
theorem each_of_labels {D : ι → Prop} (h : ∀ label ∈ labels, D label) : Each step (fun _ label => D label) s labels := by
  induction labels generalizing s with
  | nil => trivial
  | cons label labels ih => exact ⟨h label List.mem_cons_self, ih fun other hother => h other (List.mem_cons_of_mem _ hother)⟩

/-- A property of every step holds of the steps of every initial part. -/
theorem Each.initial (h : Each step Q s labels) (htaken : taken <+: labels) :
    Each step Q s taken := by
  obtain ⟨rest, rfl⟩ := htaken
  exact (each_append.mp h).1

/-- What every permitted step preserves holds at the end of every permitted run. -/
theorem invariant_run (hstep : ∀ s label, I s → C s label → I (step s label))
    (hinit : I s) (h : Each step C s labels) : I (run step s labels) := by
  induction labels generalizing s with
  | nil => exact hinit
  | cons label labels ih => exact ih (hstep _ _ hinit h.1) h.2

theorem invariant_always (hstep : ∀ s label, I s → C s label → I (step s label))
    (hinit : I s) (h : Each step C s labels) : Always step I s labels :=
  fun _ htaken => invariant_run hstep hinit (h.initial htaken)

/-- A property of single steps follows along a run from an invariant the steps preserve. -/
theorem each_of_invariant (hstep : ∀ s label, I s → C s label → I (step s label))
    (hQ : ∀ s label, I s → C s label → Q s label) (hinit : I s) (h : Each step C s labels) :
    Each step Q s labels := by
  induction labels generalizing s with
  | nil => trivial
  | cons label labels ih => exact ⟨hQ _ _ hinit h.1, ih (hstep _ _ hinit h.1) h.2⟩

/-- An unconditional invariant needs no hypothesis on the labels of the run. -/
theorem invariant_reached (hstep : ∀ s label, I s → I (step s label)) (hinit : I s)
    (labels : List ι) : I (run step s labels) := by
  induction labels generalizing s with
  | nil => exact hinit
  | cons label labels ih => exact ih (hstep _ _ hinit)

theorem always_mono (hIP : ∀ s, I s → P s) (h : Always step I s labels) :
    Always step P s labels := fun taken htaken => hIP _ (h taken htaken)

theorem Always.tail {label : ι} (h : Always step P s (label :: labels)) : Always step P (step s label) labels :=
  fun taken htaken => h (label :: taken) (List.cons_prefix_cons.mpr ⟨rfl, htaken⟩)

/-- A property of single steps that every state reached bears out, given an invariant of all runs. -/
theorem each_of_always (hstep : ∀ s label, I s → I (step s label))
    (hQ : ∀ s label, I s → P (step s label) → Q s label) (hinit : I s) (h : Always step P s labels) :
    Each step Q s labels := by
  induction labels generalizing s with
  | nil => trivial
  | cons label labels ih =>
      have hafter : P (step s label) := h [label] (List.cons_prefix_cons.mpr ⟨rfl, List.nil_prefix⟩)
      exact ⟨hQ _ _ hinit hafter, ih (hstep _ _ hinit) h.tail⟩

end Runs
