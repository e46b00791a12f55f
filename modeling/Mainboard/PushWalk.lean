import Mainboard.OrderedMap

/-! Pushing a tree of nested repositories from its leaves up. A repository is pushed once every pointer its HEAD
records is held by its submodule's remote, as far as this machine has heard or the remote says when asked, and a
repository that did not get there holds every repository above it. -/

namespace Mainboard.Git

open OrderedMap

/-- What one verb did to one repository. -/
inductive Outcome where
  | done
  | current
  | held
  | failed
  deriving DecidableEq, Repr

/-- Whether the repository reached what the verb asked of it. -/
def Outcome.settled : Outcome → Bool
  | done | current => true
  | held | failed => false

structure Step where
  repo : String
  outcome : Outcome
  detail : String := ""
  deriving DecidableEq, Repr

/-- What a checkout says of itself and no push changes. `history` is every commit HEAD reaches; `recorded` is the pointer
HEAD records at each submodule's path, and `gitlinks` the paths the index records one at; `unseen` are the commits this
clone's refs never reach, and `untracked` the remote's branches it does not track. -/
structure Checkout where
  name : String
  relative : String := ""
  initialized : Bool := true
  owned : Bool := true
  branch : String := ""
  head : String := ""
  short : String := ""
  history : List String := []
  upstream : String := ""
  recorded : List (String × String) := []
  gitlinks : List String := []
  lfs : Bool := false
  unseen : List String := []
  untracked : List String := []
  deriving DecidableEq, Repr

/-- A repository of the tree, with every submodule its `.gitmodules` declares. -/
inductive Repo where
  | mk (checkout : Checkout) (declared : List Repo)

namespace Repo

def checkout : Repo → Checkout
  | mk checkout _ => checkout

def declared : Repo → List Repo
  | mk _ declared => declared

def name (repo : Repo) : String := repo.checkout.name

/-- The declared submodules the index records a pointer at; a declared one without is stale, and walked by no verb. -/
def children (repo : Repo) : List Repo :=
  repo.declared.filter fun child => decide (child.checkout.relative ∈ repo.checkout.gitlinks)

end Repo

mutual

/-- A repository and those under it, each before its submodules, through owned and checked-out ones alone. -/
def descend : Repo → List Repo
  | .mk checkout declared =>
      if checkout.initialized && checkout.owned then .mk checkout declared :: descendAll checkout.gitlinks declared else []

def descendAll : List String → List Repo → List Repo
  | _, [] => []
  | gitlinks, child :: declared =>
      if child.checkout.relative ∈ gitlinks then descend child ++ descendAll gitlinks declared
      else descendAll gitlinks declared

end

/-- What a walk passes under a repository. -/
def Repo.under (repo : Repo) : List Repo := descendAll repo.checkout.gitlinks repo.declared

/-- Every checked-out owned repository, each parent before its submodules. -/
def owned (root : Repo) : List Repo := descend root

/-! ### The walk upward -/

section Walk

variable {σ : Type} (verb : String) (act : σ → Repo → σ × Step) (hold : Bool)

/-- What a walk carries: what its acts changed, and the names of those that did not get there. -/
structure Walk (σ : Type) where
  state : σ
  stuck : List String := []

/-- One repository acted on, unless a submodule of it is stuck. -/
def visit (walk : Walk σ) (repo : Repo) : Walk σ × Step :=
  let blocked := (repo.children.filter fun child => hold && decide (child.name ∈ walk.stuck)).map Repo.name
  let done := match blocked with
    | [] => act walk.state repo
    | first :: _ => (walk.state, ⟨repo.name, .held, first ++ " did not " ++ verb⟩)
  (⟨done.1, if done.2.outcome.settled then walk.stuck else walk.stuck ++ [repo.name]⟩, done.2)

def visits (walk : Walk σ) : List Repo → Walk σ × List Step
  | [] => (walk, [])
  | repo :: repos =>
      let first := visit verb act hold walk repo
      let rest := visits first.1 repos
      (rest.1, first.2 :: rest.2)

/-- `act` on every owned repository bottom-up, holding each parent of one that did not get there. -/
def upward (root : Repo) (state : σ) : σ × List Step :=
  let result := visits verb act hold ⟨state, []⟩ (owned root).reverse
  (result.1.state, result.2)

variable {verb act hold} {walk : Walk σ} {repo : Repo} {repos others : List Repo}

theorem visits_append : visits verb act hold walk (repos ++ others) =
    ((visits verb act hold (visits verb act hold walk repos).1 others).1,
      (visits verb act hold walk repos).2 ++ (visits verb act hold (visits verb act hold walk repos).1 others).2) := by
  induction repos generalizing walk with
  | nil => rfl
  | cons repo repos ih =>
      rw [List.cons_append]
      dsimp only [visits]
      rw [ih]
      rfl

theorem length_visits : (visits verb act hold walk repos).2.length = repos.length := by
  induction repos generalizing walk with
  | nil => rfl
  | cons repo repos ih => exact congrArg (· + 1) ih

theorem visit_stuck : (visit verb act hold walk repo).1.stuck =
    if (visit verb act hold walk repo).2.outcome.settled then walk.stuck else walk.stuck ++ [repo.name] := rfl

theorem stuck_visit {name : String} (h : name ∈ walk.stuck) : name ∈ (visit verb act hold walk repo).1.stuck := by
  rw [visit_stuck]
  split
  · exact h
  · exact List.mem_append_left _ h

theorem stuck_visits {name : String} (h : name ∈ walk.stuck) : name ∈ (visits verb act hold walk repos).1.stuck := by
  induction repos generalizing walk with
  | nil => exact h
  | cons repo repos ih => exact ih (stuck_visit h)

/-- A repository with a stuck submodule is held. -/
theorem held_visit {child : Repo} (hchild : child ∈ repo.children) (hstuck : child.name ∈ walk.stuck) :
    (visit verb act true walk repo).2.outcome = .held := by
  have hmem : child.name ∈ (repo.children.filter fun child => true && decide (child.name ∈ walk.stuck)).map Repo.name :=
    List.mem_map_of_mem (List.mem_filter.mpr ⟨hchild, decide_eq_true hstuck⟩)
  dsimp only [visit]
  split
  · rename_i hnone
    rw [hnone] at hmem
    cases hmem
  · rfl

theorem stuck_of_unsettled (h : (visit verb act hold walk repo).2.outcome.settled = false) :
    repo.name ∈ (visit verb act hold walk repo).1.stuck := by
  rw [visit_stuck, h]
  exact List.mem_append_right _ List.mem_cons_self

mutual

/-- Where a repository under this one did not get there, this one is stuck. -/
theorem stuck_descend (walk : Walk σ) : (repo : Repo) →
    (∃ step ∈ (visits verb act true walk (descend repo).reverse).2, step.outcome.settled = false) →
    repo.name ∈ (visits verb act true walk (descend repo).reverse).1.stuck
  | .mk checkout declared, h => by
      unfold descend at h ⊢
      split at h
      · rename_i howned
        rw [if_pos howned]
        rw [List.reverse_cons, visits_append] at h ⊢
        obtain ⟨step, hstep, hunsettled⟩ := h
        apply stuck_of_unsettled
        rcases List.mem_append.mp hstep with hbelow | hown
        · obtain ⟨child, hchild, hstuck⟩ := stuck_descendAll walk checkout.gitlinks declared ⟨step, hbelow, hunsettled⟩
          rw [held_visit hchild hstuck]
          rfl
        · rwa [← List.mem_singleton.mp hown]
      · obtain ⟨step, hstep, -⟩ := h
        cases hstep

/-- Where a repository under some did not get there, one of these is stuck. -/
theorem stuck_descendAll (walk : Walk σ) (gitlinks : List String) : (declared : List Repo) →
    (∃ step ∈ (visits verb act true walk (descendAll gitlinks declared).reverse).2, step.outcome.settled = false) →
    ∃ child ∈ declared.filter fun child => decide (child.checkout.relative ∈ gitlinks),
      child.name ∈ (visits verb act true walk (descendAll gitlinks declared).reverse).1.stuck
  | [], h => by
      obtain ⟨step, hstep, -⟩ := h
      cases hstep
  | child :: declared, h => by
      unfold descendAll at h ⊢
      split at h
      · rename_i hlinked
        rw [if_pos hlinked, List.filter_cons, if_pos (decide_eq_true hlinked)]
        rw [List.reverse_append, visits_append] at h ⊢
        obtain ⟨step, hstep, hunsettled⟩ := h
        rcases List.mem_append.mp hstep with hlater | hfirst
        · obtain ⟨other, hother, hstuck⟩ := stuck_descendAll walk gitlinks declared ⟨step, hlater, hunsettled⟩
          exact ⟨other, List.mem_cons_of_mem _ hother, stuck_visits hstuck⟩
        · exact ⟨child, List.mem_cons_self, stuck_descend _ child ⟨step, hfirst, hunsettled⟩⟩
      · rename_i hstale
        rw [if_neg hstale, List.filter_cons, if_neg fun hlinked => hstale (of_decide_eq_true hlinked)]
        exact stuck_descendAll walk gitlinks declared h

end

end Walk

section Acts

variable {σ : Type} {verb : String} {act : σ → Repo → σ × Step} {I : σ → Prop} {P : Repo → Step → σ → Prop}

/-- What every act says of the state it leaves, and later acts keep, holds of every step when the walk ends. -/
theorem visits_each (hact : ∀ s repo, I s → I (act s repo).1 ∧ P repo (act s repo).2 (act s repo).1)
    (hheld : ∀ repo s detail, P repo ⟨repo.name, .held, detail⟩ s)
    (hkeep : ∀ repo step s other, I s → P repo step s → P repo step (act s other).1) {repos : List Repo} {walk : Walk σ}
    (hinit : I walk.state) : I (visits verb act true walk repos).1.state ∧
      (∀ repo step, P repo step walk.state → P repo step (visits verb act true walk repos).1.state) ∧
      ∀ pair ∈ repos.zip (visits verb act true walk repos).2, P pair.1 pair.2 (visits verb act true walk repos).1.state := by
  have hvisit : ∀ (walk : Walk σ) repo, I walk.state → I (visit verb act true walk repo).1.state ∧
      P repo (visit verb act true walk repo).2 (visit verb act true walk repo).1.state ∧
      ∀ other step, P other step walk.state → P other step (visit verb act true walk repo).1.state := by
    intro walk repo hwalk
    dsimp only [visit]
    split
    · exact ⟨(hact _ repo hwalk).1, (hact _ repo hwalk).2, fun other step => hkeep other step _ repo hwalk⟩
    · exact ⟨hwalk, hheld _ _ _, fun other step => id⟩
  induction repos generalizing walk with
  | nil => exact ⟨hinit, fun repo step => id, fun pair hpair => (List.not_mem_nil hpair).elim⟩
  | cons repo repos ih =>
      obtain ⟨hnext, hown, hkept⟩ := hvisit walk repo hinit
      obtain ⟨hend, hkeeps, hall⟩ := ih hnext
      refine ⟨hend, fun other step h => hkeeps other step (hkept other step h), fun pair hpair => ?_⟩
      rcases List.mem_cons.mp hpair with rfl | hlater
      · exact hkeeps _ _ hown
      · exact hall pair hlater

end Acts

mutual

/-- Wherever a repository stands in the walk, all that is under it follows. -/
theorem descend_split : (root : Repo) → {earlier after : List Repo} → {repo : Repo} →
    descend root = earlier ++ repo :: after → ∃ later : List Repo, after = repo.under ++ later
  | .mk checkout declared, earlier, after, repo, h => by
      unfold descend at h
      split at h
      · cases earlier with
        | nil =>
            obtain ⟨rfl, rfl⟩ := List.cons.inj h
            exact ⟨[], (List.append_nil _).symm⟩
        | cons first earlier => exact descendAll_split checkout.gitlinks declared (List.cons.inj h).2
      · exact absurd h.symm (List.append_ne_nil_of_right_ne_nil _ (List.cons_ne_nil _ _))

theorem descendAll_split (gitlinks : List String) : (declared : List Repo) → {earlier after : List Repo} →
    {repo : Repo} → descendAll gitlinks declared = earlier ++ repo :: after →
      ∃ later : List Repo, after = repo.under ++ later
  | [], earlier, after, repo, h => absurd h.symm (List.append_ne_nil_of_right_ne_nil _ (List.cons_ne_nil _ _))
  | child :: declared, earlier, after, repo, h => by
      unfold descendAll at h
      split at h
      · rcases List.append_eq_append_iff.mp h with ⟨middle, -, hrest⟩ | ⟨middle, hfirst, hrest⟩
        · exact descendAll_split gitlinks declared hrest
        · cases middle with
          | nil =>
              have hnil : descendAll gitlinks declared = [] ++ repo :: after := hrest.symm
              exact descendAll_split gitlinks declared hnil
          | cons found middle =>
              obtain ⟨rfl, rfl⟩ := List.cons.inj hrest
              obtain ⟨later, rfl⟩ := descend_split child hfirst
              exact ⟨later ++ descendAll gitlinks declared, List.append_assoc _ _ _⟩
      · exact descendAll_split gitlinks declared h

end

/-- In the walk's steps each repository's own follows those of all under it, and is held where one of them did not
get there. -/
theorem upward_holds {σ : Type} (verb : String) (act : σ → Repo → σ × Step) (root : Repo) (state : σ)
    {earlier after : List Repo} {repo : Repo} (h : owned root = earlier ++ repo :: after) :
    ∃ (later : List Repo) (before below : List Step) (own : Step) (rest : List Step), after = repo.under ++ later ∧
      (upward verb act true root state).2 = before ++ (below ++ own :: rest) ∧ before.length = later.length ∧
      below.length = (repo.under).length ∧
      ((∃ step ∈ below, step.outcome.settled = false) → own.outcome = .held) := by
  obtain ⟨later, rfl⟩ := descend_split root h
  have horder : (owned root).reverse =
      later.reverse ++ ((repo.under).reverse ++ ([repo] ++ earlier.reverse)) := by
    rw [h]
    simp
  obtain ⟨start, hstart⟩ : ∃ start : Walk σ, start = (visits verb act true ⟨state, []⟩ later.reverse).1 := ⟨_, rfl⟩
  obtain ⟨walk, hwalk⟩ : ∃ walk : Walk σ, walk = (visits verb act true start (repo.under).reverse).1 :=
    ⟨_, rfl⟩
  refine ⟨later, (visits verb act true ⟨state, []⟩ later.reverse).2,
    (visits verb act true start (repo.under).reverse).2, (visit verb act true walk repo).2,
    (visits verb act true (visit verb act true walk repo).1 earlier.reverse).2, rfl, ?_, ?_, ?_, fun hunsettled => ?_⟩
  · unfold upward
    rw [horder, visits_append, ← hstart, visits_append, ← hwalk]
    rfl
  · rw [length_visits, List.length_reverse]
  · rw [length_visits, List.length_reverse]
  · obtain ⟨child, hchild, hstuck⟩ := stuck_descendAll start repo.checkout.gitlinks repo.declared hunsettled
    exact held_visit hchild (hwalk ▸ hstuck)

end Mainboard.Git
