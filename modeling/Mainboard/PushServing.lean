import Mathlib.Data.List.Infix
import Mainboard.PushWalk

/-! What a push asks before it goes out: the branches this machine last heard of each remote, a fetch where they do
not hold a pointer, and the remote itself for that one commit. Branches only move forward under a push, so what a
remote held when it was asked it holds when the walk ends. -/

namespace Mainboard.Git

open OrderedMap

/-- A branch's commits, by its name. -/
abbrev Refs := List (String × List String)

/-- A remote: its branches, and the commits it hands out that none of them reaches. -/
structure Remote where
  branches : Refs := []
  loose : List String := []
  deriving DecidableEq, Repr

/-- Every remote by its URL, and what each checkout last heard, its remote-tracking branches among the rest. -/
structure World where
  remotes : String → Remote := fun _ => {}
  heard : String → Refs := fun _ => []

/-- How the network answers one checkout: `none` where it did as asked, else git's words. -/
structure Answers where
  fetched : Option String := none
  offered : Option String := none
  uploaded : Option String := none
  pushed : Option String := none
  diverted : Option String := none
  deriving DecidableEq, Repr

/-- What stands outside the tree: where each checkout pushes, how the network answers, and how texts are casefolded. -/
structure Env where
  origin : String → String
  answers : String → Answers := fun _ => {}
  casefold : List Char → List Char := fun text => text

def REMOTE : String := "origin"

def FALLBACK : String := "mainboard"

/-- What GitHub says of a protected branch. -/
def PROTECTED : List (List Char) := ["gh006".toList, "gh013".toList, "protected branch".toList]

def tracked (branch : String) : String := REMOTE ++ "/" ++ branch

def isTracked (ref : String) : Bool := (REMOTE ++ "/").toList.isPrefixOf ref.toList

/-- The remote's branch an upstream names. -/
def branchOf (upstream : String) : String :=
  if isTracked upstream then String.ofList (upstream.toList.drop (REMOTE ++ "/").toList.length) else upstream

def Holds (remote : Remote) (commit : String) : Prop :=
  (∃ branch ∈ remote.branches, commit ∈ branch.2) ∨ commit ∈ remote.loose

instance (remote : Remote) (commit : String) : Decidable (Holds remote commit) :=
  inferInstanceAs (Decidable ((∃ branch ∈ remote.branches, commit ∈ branch.2) ∨ commit ∈ remote.loose))

variable (env : Env)

namespace World

variable (w : World)

/-- The remote branches this checkout knows to hold a commit. -/
def homes (name commit : String) : List String :=
  ((w.heard name).filter fun ref => isTracked ref.1 && decide (commit ∈ ref.2)).map (·.1)

def hear (name : String) (refs : Refs) : World :=
  { w with heard := fun other => if other = name then refs else w.heard other }

/-- A fetch of a checkout's remote, as far as the clone reaches; branches it deleted are pruned. -/
def fetch (checkout : Checkout) : World := match (env.answers checkout.name).fetched with
  | some _ => w
  | none =>
      let branches := (w.remotes (env.origin checkout.name)).branches.filter fun branch => branch.1 ∉ checkout.untracked
      w.hear checkout.name (((w.heard checkout.name).filter fun ref => !isTracked ref.1) ++
        branches.map fun branch => (tracked branch.1, branch.2.filter (· ∉ checkout.unseen)))

/-- Whether the remote hands out a commit. -/
def serves (checkout : Checkout) (commit : String) : Bool :=
  decide (w.homes checkout.name commit ≠ []) ||
    ((env.answers checkout.name).offered.isNone && decide (Holds (w.remotes (env.origin checkout.name)) commit))

/-- A push of HEAD to a branch: the remote takes what moves the branch forward and nothing else. -/
def send (checkout : Checkout) (branch : String) (answer : Option String) : World × Option String :=
  let url := env.origin checkout.name
  let remote := w.remotes url
  if (get remote.branches branch).getD [] ⊆ checkout.history then
    match answer with
    | some words => (w, some words)
    | none =>
        let moved : Remote := { remote with branches := put remote.branches branch checkout.history }
        let sent : World := { w with remotes := fun other => if other = url then moved else w.remotes other }
        (sent.hear checkout.name (put (w.heard checkout.name) (tracked branch) checkout.history), none)
  else (w, some (answer.getD "non-fast-forward"))

end World

/-- The commit HEAD records at each of its submodules' paths. -/
def pointers (repo : Repo) : List (String × String) :=
  repo.checkout.recorded.filter fun entry => repo.children.any fun child => child.checkout.relative = entry.1

/-- The first pointer of some submodules that no branch of its remote holds. -/
def unservedOf (recorded : List (String × String)) (w : World) : List Repo → World × Option String
  | [] => (w, none)
  | child :: children => match get recorded child.checkout.relative with
      | none => unservedOf recorded w children
      | some commit =>
          if !child.checkout.initialized || decide (w.homes child.name commit ≠ []) then unservedOf recorded w children
          else
            let asked := w.fetch env child.checkout
            if asked.serves env child.checkout commit then unservedOf recorded asked children
            else (asked, some (child.name ++ "@" ++ String.ofList (commit.toList.take 7)))

/-- The first submodule pointer HEAD records that no branch of its remote holds. -/
def unserved (w : World) (repo : Repo) : World × Option String := unservedOf env (pointers repo) w repo.children

/-- A detached HEAD, current when a remote branch already holds it, else held. -/
def detached (w : World) (repo : Repo) : Step := match w.homes repo.name repo.checkout.head with
  | home :: _ => ⟨repo.name, .current, "detached at " ++ repo.checkout.short ++ ", already on " ++ home⟩
  | [] => ⟨repo.name, .held, "detached at " ++ repo.checkout.short ++ ", which no remote branch holds; commit first"⟩

/-- HEAD pushed to the fallback branch of a protected one. -/
def diverted (w : World) (repo : Repo) (target : String) : World × Step :=
  let fallback := FALLBACK ++ "/" ++ target
  let sent := w.send env repo.checkout fallback (env.answers repo.name).diverted
  match sent.2 with
  | some words => (sent.1, ⟨repo.name, .failed, words⟩)
  | none => (sent.1, ⟨repo.name, .done, target ++ " is protected; pushed " ++ repo.checkout.short ++ " to " ++ fallback ++
      ", open a pull request"⟩)

/-- LFS objects uploaded, then the branch pushed, to the fallback where it is protected. -/
def delivered (w : World) (repo : Repo) (target : String) : World × Step :=
  if tracked (FALLBACK ++ "/" ++ target) ∈ w.homes repo.name repo.checkout.head then
    (w, ⟨repo.name, .current, target ++ " is protected; " ++ repo.checkout.short ++ " waits on " ++ FALLBACK ++ "/" ++ target⟩)
  else match (if repo.checkout.lfs then (env.answers repo.name).uploaded else none) with
    | some words => (w, ⟨repo.name, .failed, "git-lfs could not upload: " ++ words⟩)
    | none =>
        let sent := w.send env repo.checkout target (env.answers repo.name).pushed
        match sent.2 with
        | none => (sent.1, ⟨repo.name, .done, repo.checkout.short ++ " to " ++ tracked target⟩)
        | some words =>
            if PROTECTED.any fun marker => decide (marker <:+: env.casefold words.toList) then diverted env sent.1 repo target
            else (sent.1, ⟨repo.name, .failed, words⟩)

/-- How many commits HEAD is ahead of and behind its upstream, zero both without one. -/
def counts (w : World) (repo : Repo) : ℕ × ℕ :=
  let known := (get (w.heard repo.name) repo.checkout.upstream).getD []
  if repo.checkout.upstream = "" then (0, 0)
  else ((repo.checkout.history.filter (· ∉ known)).length, (known.filter (· ∉ repo.checkout.history)).length)

/-- A branch whose pointers are all served, pushed where it is ahead of its upstream and not behind. -/
def advanced (w : World) (repo : Repo) : World × Step :=
  let upstream := repo.checkout.upstream
  let counted := counts w repo
  if upstream ≠ "" ∧ counted.1 = 0 then
    (w, ⟨repo.name, .current, repo.checkout.branch ++ " level with " ++ upstream⟩)
  else if counted.2 ≠ 0 then
    (w, ⟨repo.name, .held, "diverged from " ++ upstream ++ ": " ++ toString counted.1 ++ " ahead, " ++
      toString counted.2 ++ " behind; pull first"⟩)
  else delivered env w repo (if upstream = "" then repo.checkout.branch else branchOf upstream)

/-- One repository's branch pushed, or why it stayed. -/
def pushed (w : World) (repo : Repo) : World × Step :=
  if repo.checkout.branch = "" then (w, detached w repo)
  else
    let asked := unserved env w repo
    match asked.2 with
    | some missing => (asked.1, ⟨repo.name, .held, "records " ++ missing ++ ", which its remote does not hold"⟩)
    | none => advanced env asked.1 repo

/-- Every owned repository pushed, submodules before the parents that point at them. -/
def push (root : Repo) (w : World) : World × List Step := upward "push" (pushed env) true root w

section Serving

variable {env} {start w : World} {checkout : Checkout} {commit : String}

/-- A commit was on a tracked branch a checkout knew of. -/
def HeardOf (w : World) (name commit : String) : Prop := ∃ ref ∈ w.heard name, isTracked ref.1 ∧ commit ∈ ref.2

/-- What a walk keeps: remotes hold what they held, and what a checkout hears of its remote's branches it heard before
the walk or the remote holds. -/
structure Grown (env : Env) (start w : World) : Prop where
  holds : ∀ url commit, Holds (start.remotes url) commit → Holds (w.remotes url) commit
  heard : ∀ name commit, HeardOf w name commit → HeardOf start name commit ∨ Holds (w.remotes (env.origin name)) commit

theorem heardOf_of_homes (h : w.homes checkout.name commit ≠ []) : HeardOf w checkout.name commit := by
  obtain ⟨name, hname⟩ := List.exists_mem_of_ne_nil _ h
  obtain ⟨ref, href, -⟩ := List.mem_map.mp hname
  obtain ⟨hmem, hholds⟩ := List.mem_filter.mp href
  rw [Bool.and_eq_true, decide_eq_true_eq] at hholds
  exact ⟨ref, hmem, hholds⟩

theorem Grown.fetch (h : Grown env start w) (checkout : Checkout) : Grown env start (w.fetch env checkout) := by
  unfold World.fetch
  split
  · exact h
  · refine ⟨h.holds, fun name commit hheard => ?_⟩
    obtain ⟨ref, href, htracked, hcommit⟩ := hheard
    dsimp only [World.hear] at href ⊢
    split at href
    · rename_i hsame
      rcases List.mem_append.mp href with hold | hnew
      · obtain ⟨-, hnot⟩ := List.mem_filter.mp hold
        rw [htracked] at hnot
        cases hnot
      · obtain ⟨branch, hbranch, rfl⟩ := List.mem_map.mp hnew
        rw [hsame]
        exact Or.inr (Or.inl ⟨branch, (List.mem_filter.mp hbranch).1, (List.mem_filter.mp hcommit).1⟩)
    · exact h.heard name commit ⟨ref, href, htracked, hcommit⟩

/-- A branch moved forward to a history leaves its remote with what it held. -/
theorem holds_moved {remote : Remote} {branch : String} {history : List String}
    (hforward : (get remote.branches branch).getD [] ⊆ history) (h : Holds remote commit) :
    Holds { remote with branches := put remote.branches branch history } commit := by
  rcases h with ⟨held, hheld, hcommit⟩ | hloose
  · refine Or.inl ?_
    rcases mem_put_or_get hheld branch history with hkept | hfound
    · exact ⟨held, hkept, hcommit⟩
    · rw [hfound] at hforward
      exact ⟨_, self_mem_put _ _ _, hforward hcommit⟩
  · exact Or.inr hloose

theorem Grown.send (h : Grown env start w) (checkout : Checkout) (branch : String) (answer : Option String) :
    Grown env start (w.send env checkout branch answer).1 := by
  dsimp only [World.send]
  split
  · rename_i hforward
    split
    · exact h
    · have hgrows : ∀ url commit, Holds (w.remotes url) commit → Holds (if url = env.origin checkout.name then
          { w.remotes (env.origin checkout.name) with
            branches := put (w.remotes (env.origin checkout.name)).branches branch checkout.history }
          else w.remotes url) commit := by
        intro url commit hholds
        split
        · rename_i hsame
          rw [hsame] at hholds
          exact holds_moved hforward hholds
        · exact hholds
      refine ⟨fun url commit hholds => hgrows url commit (h.holds url commit hholds), fun name commit hheard => ?_⟩
      obtain ⟨ref, href, htracked, hcommit⟩ := hheard
      dsimp only [World.hear] at href ⊢
      split at href
      · rename_i hsame
        rcases eq_or_mem_of_mem_put href with rfl | hold
        · rw [hsame, if_pos rfl]
          exact Or.inr (Or.inl ⟨_, self_mem_put _ _ _, hcommit⟩)
        · exact (h.heard name commit ⟨ref, hsame ▸ hold, htracked, hcommit⟩).imp_right (hgrows _ _)
      · exact (h.heard name commit ⟨ref, href, htracked, hcommit⟩).imp_right (hgrows _ _)
  · exact h

/-- A checked-out submodule's pointer is on a branch of its remote this machine had heard of, or its remote holds it. -/
def Served (env : Env) (start w : World) (repo : Repo) : Prop :=
  ∀ child ∈ repo.children, child.checkout.initialized = true → ∀ commit,
    get (pointers repo) child.checkout.relative = some commit →
      HeardOf start child.name commit ∨ Holds (w.remotes (env.origin child.name)) commit

theorem fetch_remotes (checkout : Checkout) : (w.fetch env checkout).remotes = w.remotes := by
  unfold World.fetch
  split <;> rfl

theorem held_of_serves (h : Grown env start w) (hserves : w.serves env checkout commit = true) :
    HeardOf start checkout.name commit ∨ Holds (w.remotes (env.origin checkout.name)) commit := by
  rw [World.serves, Bool.or_eq_true, decide_eq_true_eq, Bool.and_eq_true, decide_eq_true_eq] at hserves
  rcases hserves with hhomes | ⟨-, hholds⟩
  · exact h.heard _ _ (heardOf_of_homes hhomes)
  · exact Or.inr hholds

/-- Pointers asked for: no remote changes, and nothing is missing only where each pointer is held. -/
theorem unservedOf_spec (recorded : List (String × String)) (children : List Repo) (h : Grown env start w) :
    Grown env start (unservedOf env recorded w children).1 ∧
      (unservedOf env recorded w children).1.remotes = w.remotes ∧
      ((unservedOf env recorded w children).2 = none → ∀ child ∈ children, child.checkout.initialized = true → ∀ commit,
        get recorded child.checkout.relative = some commit →
          HeardOf start child.name commit ∨ Holds (w.remotes (env.origin child.name)) commit) := by
  induction children generalizing w with
  | nil => exact ⟨h, rfl, fun _ child hchild => (List.not_mem_nil hchild).elim⟩
  | cons first children ih =>
      -- the rest is asked in a world with the same remotes, and the first pointer is held if it is asked at all
      have hnext : ∀ asked : World, Grown env start asked → asked.remotes = w.remotes →
          (first.checkout.initialized = true → ∀ commit, get recorded first.checkout.relative = some commit →
            HeardOf start first.name commit ∨ Holds (w.remotes (env.origin first.name)) commit) →
          Grown env start (unservedOf env recorded asked children).1 ∧
            (unservedOf env recorded asked children).1.remotes = w.remotes ∧
            ((unservedOf env recorded asked children).2 = none → ∀ child ∈ first :: children,
              child.checkout.initialized = true → ∀ commit, get recorded child.checkout.relative = some commit →
                HeardOf start child.name commit ∨ Holds (w.remotes (env.origin child.name)) commit) := by
        intro asked hasked hremotes hfirst
        obtain ⟨hgrown, hsame, hserved⟩ := ih hasked
        rw [hremotes] at hsame hserved
        exact ⟨hgrown, hsame, fun hnone => List.forall_mem_cons.mpr ⟨hfirst, hserved hnone⟩⟩
      rw [unservedOf]
      split
      · rename_i hnot
        exact hnext w h rfl fun _ commit hcommit => by
          rw [hnot] at hcommit
          cases hcommit
      · rename_i commit hcommit
        split
        · rename_i hknown
          refine hnext w h rfl fun hinitialized other hother => ?_
          obtain rfl := Option.some.inj (hcommit.symm.trans hother)
          rw [hinitialized, Bool.not_true, Bool.false_or, decide_eq_true_eq] at hknown
          exact h.heard _ _ (heardOf_of_homes hknown)
        · have hasked := h.fetch first.checkout
          have hremotes : (w.fetch env first.checkout).remotes = w.remotes := fetch_remotes first.checkout
          dsimp only
          split
          · rename_i hserves
            refine hnext _ hasked hremotes fun _ other hother => ?_
            obtain rfl := Option.some.inj (hcommit.symm.trans hother)
            rw [← hremotes]
            exact held_of_serves hasked hserves
          · exact ⟨hasked, hremotes, fun hnone => by cases hnone⟩

theorem Served.keep {repo : Repo} {later : World} (h : Served env start w repo)
    (hgrows : ∀ url commit, Holds (w.remotes url) commit → Holds (later.remotes url) commit) :
    Served env start later repo := fun child hchild hinitialized commit hcommit =>
  (h child hchild hinitialized commit hcommit).imp_right (hgrows _ _)

/-- A delivery only sends. -/
theorem delivered_spec (repo : Repo) (target : String) (h : Grown env start w) :
    Grown env start (delivered env w repo target).1 ∧ Grown env w (delivered env w repo target).1 := by
  have hself : Grown env w w := ⟨fun _ _ => id, fun _ _ => Or.inl⟩
  unfold delivered
  split
  · exact ⟨h, hself⟩
  · split
    · exact ⟨h, hself⟩
    · dsimp only
      split
      · exact ⟨h.send _ _ _, hself.send _ _ _⟩
      · split
        · unfold diverted
          dsimp only
          split
          · exact ⟨(h.send _ _ _).send _ _ _, (hself.send _ _ _).send _ _ _⟩
          · exact ⟨(h.send _ _ _).send _ _ _, (hself.send _ _ _).send _ _ _⟩
        · exact ⟨h.send _ _ _, hself.send _ _ _⟩

theorem advanced_spec (repo : Repo) (h : Grown env start w) :
    Grown env start (advanced env w repo).1 ∧ Grown env w (advanced env w repo).1 := by
  have hself : Grown env w w := ⟨fun _ _ => id, fun _ _ => Or.inl⟩
  unfold advanced
  dsimp only
  generalize counts w repo = counted
  split
  · exact ⟨h, hself⟩
  · split
    · exact ⟨h, hself⟩
    · exact delivered_spec repo _ h

/-- One repository's push: remotes hold what they held, and it goes out only where every pointer is held. -/
theorem pushed_spec (repo : Repo) (h : Grown env start w) : Grown env start (pushed env w repo).1 ∧
    (∀ url commit, Holds (w.remotes url) commit → Holds ((pushed env w repo).1.remotes url) commit) ∧
    ((pushed env w repo).2.outcome = .done → Served env start (pushed env w repo).1 repo) := by
  obtain ⟨hasked, hremotes, hserved⟩ := unservedOf_spec (pointers repo) repo.children h
  have hkept : ∀ url commit, Holds (w.remotes url) commit → Holds ((unserved env w repo).1.remotes url) commit :=
    fun url commit hholds => by
      unfold unserved
      rwa [hremotes]
  unfold pushed
  split
  · refine ⟨h, fun _ _ => id, fun hdone => ?_⟩
    unfold detached at hdone
    split at hdone <;> cases hdone
  · dsimp only
    split
    · exact ⟨hasked, hkept, fun hdone => by cases hdone⟩
    · rename_i hnone
      obtain ⟨hgrown, hsent⟩ := advanced_spec repo hasked
      have hbefore : Served env start w repo := hserved hnone
      exact ⟨hgrown, fun url commit hholds => hsent.holds _ _ (hkept url commit hholds),
        fun _ => hbefore.keep fun url commit hholds => hsent.holds _ _ (hkept url commit hholds)⟩

end Serving

/-- What a push of a tree did in the right order: whatever was pushed has every pointer of a declared, recorded and
checked-out submodule held by its remote, or on a branch of it heard of before; and where one repository did not get
there, each above is held. -/
structure ChildrenFirst (env : Env) (root : Repo) (start : World) : Prop where
  served : ∀ pair ∈ (owned root).reverse.zip (push env root start).2, pair.2.outcome = .done →
    Served env start (push env root start).1 pair.1
  held : ∀ (earlier : List Repo) (repo : Repo) (after : List Repo), owned root = earlier ++ repo :: after →
    ∃ (later : List Repo) (before below : List Step) (own : Step) (rest : List Step), after = repo.under ++ later ∧
      (push env root start).2 = before ++ (below ++ own :: rest) ∧ before.length = later.length ∧
      below.length = (repo.under).length ∧
      ((∃ step ∈ below, step.outcome.settled = false) → own.outcome = .held)

/-- Every push of every tree, whatever the network answers, goes children first. -/
theorem push_children_first (env : Env) (root : Repo) (start : World) : ChildrenFirst env root start := by
  refine ⟨?_, fun earlier repo after h => upward_holds "push" (pushed env) root start h⟩
  have hinit : Grown env start start := ⟨fun _ _ => id, fun _ _ => Or.inl⟩
  have hact : ∀ s repo, Grown env start s → Grown env start (pushed env s repo).1 ∧
      ((pushed env s repo).2.outcome = .done → Served env start (pushed env s repo).1 repo) := fun s repo h =>
    ⟨(pushed_spec repo h).1, (pushed_spec repo h).2.2⟩
  have hkeep : ∀ (repo : Repo) (step : Step) (s : World) (other : Repo), Grown env start s →
      (step.outcome = .done → Served env start s repo) →
      step.outcome = .done → Served env start (pushed env s other).1 repo := fun repo step s other h hserved hdone =>
    (hserved hdone).keep (pushed_spec other h).2.1
  have hwalk : Grown env start (visits "push" (pushed env) true ⟨start, []⟩ (owned root).reverse).1.state ∧ _ :=
    visits_each hact (fun repo s detail hdone => by cases hdone) hkeep hinit
  exact hwalk.2.2

/-- The workspace's name of the submodule at a path, as `children` names it. -/
def Repo.submodule (repo : Repo) (relative : String) : String :=
  if repo.name = "." then relative else repo.name ++ "/" ++ relative

/-- Every pointer a pushed repository's HEAD records is held by its submodule's remote. -/
def AllHeld (env : Env) (root : Repo) (start : World) : Prop :=
  ∀ pair ∈ (owned root).reverse.zip (push env root start).2, pair.2.outcome = .done →
    ∀ entry ∈ pair.1.checkout.recorded,
      Holds ((push env root start).1.remotes (env.origin (pair.1.submodule entry.1))) entry.2

instance (env : Env) (root : Repo) (start : World) : Decidable (AllHeld env root start) :=
  inferInstanceAs (Decidable (∀ pair ∈ (owned root).reverse.zip (push env root start).2, pair.2.outcome = .done →
    ∀ entry ∈ pair.1.checkout.recorded,
      Holds ((push env root start).1.remotes (env.origin (pair.1.submodule entry.1))) entry.2))

/-- A root on `main` whose HEAD records one submodule. -/
def rootOf (gitlinks : List String) : Checkout where
  name := "."
  branch := "main"
  head := "r1"
  short := "r1"
  history := ["r1"]
  recorded := [("sub", "c1")]
  gitlinks := gitlinks

/-- The submodule as a checkout on `main`, with the upstream it has. -/
def subOf (upstream : String) : Checkout where
  name := "sub"
  relative := "sub"
  branch := "main"
  head := "c1"
  history := ["c1"]
  upstream := upstream

/-- Where the submodule was never checked out, or its remote dropped the branch this machine last heard of, or the index
records it no longer, or `.gitmodules` declares none, the root is pushed with a pointer no remote holds. -/
theorem push_children_first_unheld :
    ¬ AllHeld { origin := id } (.mk (rootOf ["sub"]) [.mk { subOf "" with initialized := false } []]) {} ∧
      ¬ AllHeld { origin := id } (.mk (rootOf ["sub"]) [.mk (subOf "origin/main") []])
        { heard := fun name => if name = "sub" then [("origin/main", ["c1"])] else [] } ∧
      ¬ AllHeld { origin := id } (.mk (rootOf []) [.mk (subOf "") []]) {} ∧
      ¬ AllHeld { origin := id } (.mk (rootOf ["sub"]) []) {} := by
  refine ⟨?_, ?_, ?_, ?_⟩ <;> decide +kernel

end Mainboard.Git
