import Mathlib.Logic.Function.Basic
import Mathlib.Logic.Relation
import Mainboard.RetainedRoots

/-! Pins, builds and sweeps of one host, in any interleaving. Agents pin under the pin lock, a sweep reads the pins and
removes under it, a sweep of environments besides waits out every build; each removal is a step of its own, may fail
or stop halfway, and any process may die at any point, which releases its locks. What a sweep knows of the queue may
be out of date or wrong: the pins alone hold what is proved here. A pin that uses a tree again gives the tree its own
results path, and what stood there goes. -/

namespace Mainboard.Execution

open OrderedMap

/-- How a host resolves its paths: each process may spell the workspace's root its own way. -/
structure Site where
  out : String
  real : Path → Path
  place : Path → Path

/-- A spelling of the workspace's root: what lies below it resolves to one place. -/
def Site.Spells (site : Site) (root : Path) : Prop := ∀ below, site.real (root ++ below) = site.place below

/-- What one pin is asked for; a sealed image lists its files, and its needs are links like the results. -/
structure PinSpec where
  root : Path
  key : String
  stamp : String
  address : Option (String × String) := none
  listed : Option (List Path) := none
  needs : List Path := []
  results : Option Path := none
  deriving DecidableEq

/-- Every path linked back on this dispatch. -/
def PinSpec.live (spec : PinSpec) : List Path := spec.needs ++ spec.results.toList

/-- A path lies at the dispatch's results path or beneath it. -/
def PinSpec.Covers (spec : PinSpec) (path : Path) : Prop := ∃ results, spec.results = some results ∧ results <+: path

/-- `Sealed.verify`, its files standing where they are listed and none of them beneath a live path; a mirrored image has
nothing to check. -/
def PinSpec.Verified (spec : PinSpec) (frozen : Option (List Path)) (files : List Path) : Prop :=
  ∀ listed, spec.listed = some listed → frozen = some listed ∧
    ∀ path ∈ listed, path ∈ files ∧ ∀ live ∈ spec.live, ¬live <+: path

/-- What a pin takes from the tree of a key that it uses again: what its results path covers, and of a sealed tree's
listing nothing where it is sealed itself. -/
def PinSpec.Takes (spec : PinSpec) (key : String) (frozen : Option (List Path)) (path : Path) : Prop :=
  spec.key = key ∧ spec.Covers path ∧ ∀ listed, spec.listed = some listed → frozen = some listed ∧ path ∉ listed

/-- `Snapshot.__retain`: the record a pin publishes. -/
def PinSpec.record (site : Site) (spec : PinSpec) : Retention where
  sources := [spec.root ++ sourceBelow site.out spec.key]
  prefixes := (spec.address.map fun address => spec.root ++ prefixBelow site.out address).toList
  proofs := [spec.root ++ sourceBelow site.out spec.key]

/-- Where a process stands; one that waits for a lock is idle. -/
inductive Phase
  | idle
  | locked (spec : PinSpec)
  | retained (spec : PinSpec)
  | linking (spec : PinSpec)
  | sweeping (inventory : Retention)
  | removing (doomed : List String)
  | building (address : String × String)
  | waiting (inventory : Retention) (live : List String) (environment : String)
  | pruning (inventory : Retention) (live : List String) (environment : String)
  | dropping (environment : String) (doomed : List String)
  deriving DecidableEq

/-- The process holds the pin lock. -/
def Phase.pins : Phase → Bool
  | .locked _ | .retained _ | .linking _ | .sweeping _ | .removing _ | .pruning _ _ _ | .dropping _ _ => true
  | .idle | .building _ | .waiting _ _ _ => false

/-- The process holds the lock every build takes. -/
def Phase.builds : Phase → Bool
  | .building _ | .waiting _ _ _ | .pruning _ _ _ | .dropping _ _ => true
  | .idle | .locked _ | .retained _ | .linking _ | .sweeping _ | .removing _ => false

/-- A host: its pins, its source trees and prefixes, where its processes stand, the pins that were answered, and those
that took something from a standing tree. -/
structure Host where
  pins : List Entry := []
  trees : List (String × Tree) := []
  prefixes : List ((String × String) × Prefix) := []
  phases : ℕ → Phase := fun _ => .idle
  launched : List PinSpec := []
  cleared : List PinSpec := []

/-- No process holds a lock. -/
def Host.Free (host : Host) (holds : Phase → Bool) : Prop := ∀ process, holds (host.phases process) = false

/-- A host with one of its processes elsewhere. -/
def Host.moved (host : Host) (process : ℕ) (phase : Phase) : Host :=
  { host with phases := Function.update host.phases process phase }

/-- What a sweep keeps by: what it brought joined with the pins it reads. -/
def Host.kept (host : Host) (inventory : Retention) : Retention := inventory.including (readPins host.pins)

/-- What can happen. -/
inductive Step (site : Site) : Host → Host → Prop where
  | lock (host : Host) (process : ℕ) (spec : PinSpec) (hphase : host.phases process = .idle)
      (hfree : host.Free Phase.pins) (hroot : site.Spells spec.root) :
      Step site host (host.moved process (.locked spec))
  | retain (host : Host) (process : ℕ) (spec : PinSpec) (hphase : host.phases process = .locked spec) :
      Step site host { host.moved process (.retained spec) with pins := publish (spec.record site) host.pins }
  /-- A tree that carries the pin's stamp is used again; its image is checked before anything in it is touched. -/
  | verify (host : Host) (process : ℕ) (spec : PinSpec) (tree : Tree)
      (hphase : host.phases process = .retained spec) (htree : get host.trees spec.key = some tree)
      (hstamp : tree.stamp = some spec.stamp) (hverified : spec.Verified tree.frozen tree.files) :
      Step site host (host.moved process (.linking spec))
  /-- What stands at the results path gives way to the link back to the mirror, file by file. -/
  | clear (host : Host) (process : ℕ) (spec : PinSpec) (tree : Tree) (path : Path) (links : List String)
      (hphase : host.phases process = .linking spec) (htree : get host.trees spec.key = some tree)
      (hcovers : spec.Covers path) (hlinks : links ⊆ tree.links) :
      Step site host { host with
        trees := put host.trees spec.key { tree with links := links, files := tree.files.filter (· ≠ path) }
        cleared := host.cleared ++ [spec] }
  | reuse (host : Host) (process : ℕ) (spec : PinSpec) (tree : Tree) (mtime : ℕ)
      (hphase : host.phases process = .linking spec) (htree : get host.trees spec.key = some tree)
      (hlinked : ∀ path ∈ tree.files, ¬spec.Covers path) :
      Step site host { host.moved process .idle with
        trees := put host.trees spec.key { tree with mtime := mtime }
        launched := host.launched ++ [spec] }
  /-- A tree is checked and linked where nobody sees it, and becomes the tree by one rename. -/
  | build (host : Host) (process : ℕ) (spec : PinSpec) (mtime : ℕ) (files : List Path)
      (hphase : host.phases process = .retained spec) (htree : get host.trees spec.key = none)
      (hverified : spec.Verified spec.listed files) (hlinked : ∀ path ∈ files, ¬spec.Covers path) :
      Step site host { host.moved process .idle with
        trees := put host.trees spec.key
          ⟨mtime, (spec.address.map (·.2)).toList, some spec.stamp, spec.listed, files⟩
        launched := host.launched ++ [spec] }
  | sweep (host : Host) (process : ℕ) (inventory : Retention) (hphase : host.phases process = .idle)
      (hfree : host.Free Phase.pins) : Step site host (host.moved process (.sweeping inventory))
  | select (host : Host) (process : ℕ) (inventory : Retention) (root : Path) (horizon : ℕ)
      (hphase : host.phases process = .sweeping inventory) (hroot : site.Spells root) :
      Step site host (host.moved process (if (host.kept inventory).unknown = [] then
        .removing (doomedSources site.real root site.out horizon (host.kept inventory) host.trees) else .idle))
  | tear (host : Host) (process : ℕ) (key : String) (doomed : List String) (left : Tree)
      (hphase : host.phases process = .removing (key :: doomed)) (htree : get host.trees key ≠ none) :
      Step site host { host with trees := put host.trees key left }
  | remove (host : Host) (process : ℕ) (key : String) (doomed : List String)
      (hphase : host.phases process = .removing (key :: doomed)) :
      Step site host { host.moved process (.removing doomed) with trees := host.trees.filter (·.1 ≠ key) }
  | spare (host : Host) (process : ℕ) (key : String) (doomed : List String)
      (hphase : host.phases process = .removing (key :: doomed)) :
      Step site host (host.moved process (.removing doomed))
  /-- A sweep of environments waits out the builds before it tries the pin lock. -/
  | enter (host : Host) (process : ℕ) (inventory : Retention) (live : List String) (environment : String)
      (hphase : host.phases process = .idle) (hfree : host.Free Phase.builds) :
      Step site host (host.moved process (.waiting inventory live environment))
  | take (host : Host) (process : ℕ) (inventory : Retention) (live : List String) (environment : String)
      (hphase : host.phases process = .waiting inventory live environment) (hfree : host.Free Phase.pins) :
      Step site host (host.moved process (.pruning inventory live environment))
  | choose (host : Host) (process : ℕ) (inventory : Retention) (live : List String) (environment : String)
      (root : Path) (hphase : host.phases process = .pruning inventory live environment) (hroot : site.Spells root) :
      Step site host (host.moved process (if (host.kept inventory).unknown = [] then
        .dropping environment (doomedPrefixes site.real root site.out environment live (referenced host.trees)
          (host.kept inventory) host.prefixes) else .idle))
  | strip (host : Host) (process : ℕ) (environment digest : String) (doomed : List String) (left : Prefix)
      (hphase : host.phases process = .dropping environment (digest :: doomed))
      (hstands : get host.prefixes (environment, digest) ≠ none) :
      Step site host { host with prefixes := put host.prefixes (environment, digest) left }
  | drop (host : Host) (process : ℕ) (environment digest : String) (doomed : List String)
      (hphase : host.phases process = .dropping environment (digest :: doomed)) :
      Step site host { host.moved process (.dropping environment doomed) with
        prefixes := host.prefixes.filter (·.1 ≠ (environment, digest)) }
  | forgo (host : Host) (process : ℕ) (environment digest : String) (doomed : List String)
      (hphase : host.phases process = .dropping environment (digest :: doomed)) :
      Step site host (host.moved process (.dropping environment doomed))
  | begin (host : Host) (process : ℕ) (address : String × String) (mtime : ℕ) (hphase : host.phases process = .idle)
      (hfree : host.Free Phase.builds)
      (hnew : ∀ standing, get host.prefixes address = some standing → standing.built = false) :
      Step site host { host.moved process (.building address) with
        prefixes := put host.prefixes address ⟨mtime, false⟩ }
  | complete (host : Host) (process : ℕ) (address : String × String) (mtime : ℕ)
      (hphase : host.phases process = .building address) :
      Step site host { host.moved process .idle with prefixes := put host.prefixes address ⟨mtime, true⟩ }
  /-- A process ends, is refused or dies wherever it stands, and holds no lock any more. -/
  | leave (host : Host) (process : ℕ) : Step site host (host.moved process .idle)
  /-- A record is damaged, or something stands among the pins that is none. -/
  | damage (host : Host) (before after : List Entry) (entry : Entry) (hpins : host.pins = before ++ entry :: after) :
      Step site host { host with pins := before ++ { entry with readable := false } :: after }
  | stray (host : Host) : Step site host { host with pins := host.pins ++ [⟨{}, false⟩] }
  | touch (host : Host) (key : String) (tree : Tree) (mtime : ℕ) (htree : get host.trees key = some tree) :
      Step site host { host with trees := put host.trees key { tree with mtime := mtime } }

/-- Runs from a host where nothing is pinned or running, whatever stands on it. -/
inductive Reachable (site : Site) : Host → Prop where
  | start (trees : List (String × Tree)) (prefixes : List ((String × String) × Prefix)) :
      Reachable site { trees := trees, prefixes := prefixes }
  | step {before after : Host} : Reachable site before → Step site before after → Reachable site after

/-! ### Locks -/

section

variable {holds : Phase → Bool} {phases : ℕ → Phase} {process : ℕ} {phase : Phase}

/-- At most one process holds a lock. -/
def Alone (holds : Phase → Bool) (phases : ℕ → Phase) : Prop :=
  ∀ one other, holds (phases one) = true → holds (phases other) = true → one = other

/-- A process may hold a lock where it held it or nobody did. -/
theorem Alone.update (h : Alone holds phases)
    (hnew : holds phase = true → holds (phases process) = true ∨ ∀ other, holds (phases other) = false) :
    Alone holds (Function.update phases process phase) := by
  have hother : ∀ other, other ≠ process → holds (Function.update phases process phase other) = true →
      holds phase = true → other = process := by
    intro other hne hheld hphase
    rw [Function.update_of_ne hne] at hheld
    rcases hnew hphase with hbefore | hfree
    · exact h other process hheld hbefore
    · exact absurd ((hfree other).symm.trans hheld) Bool.false_ne_true
  intro one other hone hsecond
  by_cases hfirst : one = process <;> by_cases hlast : other = process
  · exact hfirst.trans hlast.symm
  · rw [hfirst, Function.update_self] at hone
    exact hfirst.trans (hother other hlast hsecond hone).symm
  · rw [hlast, Function.update_self] at hsecond
    exact (hother one hfirst hone hsecond).trans hlast.symm
  · rw [Function.update_of_ne hfirst] at hone
    rw [Function.update_of_ne hlast] at hsecond
    exact h one other hone hsecond

end

/-! ### What pins name -/

section

variable {site : Site} {host before after : Host} {roots : Retention} {below : Path}

/-- A record names what lies at a place below the workspace's root, however its root is spelled. -/
def Names (site : Site) (roots : Retention) (below : Path) : Prop := site.place below ∈ roots.written.map site.real

/-- What a sweep that reads the pins selects, no pin names. -/
theorem not_names_of_kept {inventory : Retention} {root : Path} (hroot : site.Spells root)
    (hunknown : (host.kept inventory).unknown = [])
    (hdoomed : (host.kept inventory).protects site.real (root ++ below) = false) :
    ∀ entry ∈ host.pins, ¬Names site entry.roots below := by
  intro entry hentry hnames
  obtain ⟨path, hpath, hplace⟩ := List.mem_map.mp hnames
  have hread : (readPins host.pins).unknown = [] := (List.append_eq_nil_iff.mp hunknown).2
  have hkept : path ∈ (host.kept inventory).written :=
    mem_written_including.mpr (Or.inr (mem_written_readPins hread hentry hpath))
  have hprotects : (host.kept inventory).protects site.real (root ++ below) = true := by
    refine protects_of_resolved ?_
    rw [hroot below, ← hplace]
    exact List.mem_map_of_mem hkept
  exact Bool.false_ne_true (hdoomed.symm.trans hprotects)

theorem mem_doomedSources {real : Path → Path} {root : Path} {out key : String} {horizon : ℕ} {retained : Retention}
    {trees : List (String × Tree)} (h : key ∈ doomedSources real root out horizon retained trees) :
    retained.protects real (root ++ sourceBelow out key) = false := by
  obtain ⟨tree, htree, rfl⟩ := List.mem_map.mp h
  have hfilter := (List.mem_filter.mp htree).2
  rw [Bool.and_eq_true, Bool.not_eq_true'] at hfilter
  exact hfilter.2

theorem mem_doomedPrefixes {real : Path → Path} {root : Path} {out environment digest : String}
    {live linked : List String} {retained : Retention} {prefixes : List ((String × String) × Prefix)}
    (h : digest ∈ doomedPrefixes real root out environment live linked retained prefixes) :
    retained.protects real (root ++ prefixBelow out (environment, digest)) = false := by
  obtain ⟨standing, hstanding, rfl⟩ := List.mem_map.mp h
  have hfilter := (List.mem_filter.mp hstanding).2
  rw [Bool.and_eq_true, Bool.not_eq_true'] at hfilter
  exact hfilter.2

theorem names_source (spec : PinSpec) (hroot : site.Spells spec.root) :
    Names site (spec.record site) (sourceBelow site.out spec.key) := by
  refine List.mem_map.mpr ⟨spec.root ++ sourceBelow site.out spec.key, ?_, hroot _⟩
  exact List.mem_append_left _ (List.mem_append_left _ List.mem_cons_self)

end

/-! ### Custody -/

section

variable {site : Site} {before after : Host} {pins : List Entry} {trees : List (String × Tree)}
  {prefixes : List ((String × String) × Prefix)}

/-- A process as it stands between its steps: what it pins is spelled and published, what it uses again is stamped and
whole, what it will remove no pin names, what it builds stands. -/
def Careful (site : Site) (pins : List Entry) (trees : List (String × Tree))
    (prefixes : List ((String × String) × Prefix)) : Phase → Prop
  | .locked spec => site.Spells spec.root
  | .retained spec => site.Spells spec.root ∧ ∃ entry ∈ pins, entry.roots = spec.record site
  | .linking spec => (site.Spells spec.root ∧ ∃ entry ∈ pins, entry.roots = spec.record site) ∧
      ∃ tree, get trees spec.key = some tree ∧ tree.stamp = some spec.stamp ∧ spec.Verified tree.frozen tree.files
  | .removing doomed => ∀ key ∈ doomed, ∀ entry ∈ pins, ¬Names site entry.roots (sourceBelow site.out key)
  | .dropping environment doomed =>
      ∀ digest ∈ doomed, ∀ entry ∈ pins, ¬Names site entry.roots (prefixBelow site.out (environment, digest))
  | .building address => get prefixes address ≠ none
  | _ => True

/-- An answered pin: its record and its stamped tree stand, and of what a sealed one lists all but what a mirrored image's
pin of the same tree has taken for its results. -/
def Answered (site : Site) (host : Host) (spec : PinSpec) : Prop :=
  site.Spells spec.root ∧ (∃ entry ∈ host.pins, entry.roots = spec.record site) ∧
    ∃ tree, get host.trees spec.key = some tree ∧ tree.stamp = some spec.stamp ∧
      ∀ listed, spec.listed = some listed → tree.frozen = some listed ∧ ∀ path ∈ listed, path ∈ tree.files ∨
        ∃ other ∈ host.cleared, other.key = spec.key ∧ other.Covers path ∧ other.listed = none

/-- Locks are held by one process, each process is careful, and every answered pin has its record and its tree. -/
structure Custody (site : Site) (host : Host) : Prop where
  pins : Alone Phase.pins host.phases
  builds : Alone Phase.builds host.phases
  careful : ∀ process, Careful site host.pins host.trees host.prefixes (host.phases process)
  launched : ∀ spec ∈ host.launched, Answered site host spec

/-- A tree with a stamp has stayed, its files too but for what some pins have taken. -/
def Stays (taking : List PinSpec) (key : String) (tree later : Tree) : Prop :=
  (∀ stamp, tree.stamp = some stamp → later.stamp = some stamp) ∧ later.frozen = tree.frozen ∧
    ∀ path ∈ tree.files, path ∈ later.files ∨ ∃ spec ∈ taking, spec.Takes key tree.frozen path

/-- What the pins name stays, but for what some pins have taken, and no record goes. -/
structure Keeps (site : Site) (taking : List PinSpec) (before after : Host) : Prop where
  cleared : after.cleared = before.cleared ++ taking
  pins : ∀ entry ∈ before.pins, ∃ later ∈ after.pins, later.roots = entry.roots
  trees : ∀ entry ∈ before.pins, ∀ key, Names site entry.roots (sourceBelow site.out key) →
    ∀ tree, get before.trees key = some tree → ∃ later, get after.trees key = some later ∧ Stays taking key tree later
  prefixes : ∀ entry ∈ before.pins, ∀ address, Names site entry.roots (prefixBelow site.out address) →
    ∀ standing, get before.prefixes address = some standing →
      ∃ later, get after.prefixes address = some later ∧ (standing.built = true → later.built = true)

theorem Stays.refl (key : String) (tree : Tree) : Stays [] key tree tree :=
  ⟨fun _ => id, rfl, fun _ hpath => Or.inl hpath⟩

theorem Stays.trans {taking more : List PinSpec} {key : String} {tree middle later : Tree}
    (h : Stays taking key tree middle) (hlater : Stays more key middle later) : Stays (taking ++ more) key tree later := by
  obtain ⟨hstamp, hfrozen, hfiles⟩ := h
  obtain ⟨hstamps, hfreezes, hkept⟩ := hlater
  refine ⟨fun stamp hfirst => hstamps stamp (hstamp stamp hfirst), hfreezes.trans hfrozen, fun path hpath => ?_⟩
  rcases hfiles path hpath with hmiddle | ⟨spec, hspec, htakes⟩
  · rcases hkept path hmiddle with hlast | ⟨spec, hspec, htakes⟩
    · exact Or.inl hlast
    · exact Or.inr ⟨spec, List.mem_append_right _ hspec, hfrozen ▸ htakes⟩
  · exact Or.inr ⟨spec, List.mem_append_left _ hspec, htakes⟩

theorem Keeps.refl (site : Site) (host : Host) : Keeps site [] host host where
  cleared := (List.append_nil _).symm
  pins entry hentry := ⟨entry, hentry, rfl⟩
  trees _ _ key _ tree htree := ⟨tree, htree, .refl key tree⟩
  prefixes _ _ _ _ standing hstanding := ⟨standing, hstanding, id⟩

theorem Keeps.trans {taking more : List PinSpec} {between : Host} (h : Keeps site taking before between)
    (hlater : Keeps site more between after) : Keeps site (taking ++ more) before after where
  cleared := by rw [hlater.cleared, h.cleared, List.append_assoc]
  pins entry hentry := by
    obtain ⟨middle, hmiddle, hsame⟩ := h.pins entry hentry
    obtain ⟨later, hlast, hroots⟩ := hlater.pins middle hmiddle
    exact ⟨later, hlast, hroots.trans hsame⟩
  trees entry hentry key hnames tree htree := by
    obtain ⟨middle, hmiddle, hsame⟩ := h.pins entry hentry
    obtain ⟨between, hbetween, hstays⟩ := h.trees entry hentry key hnames tree htree
    obtain ⟨later, hlast, hstill⟩ := hlater.trees middle hmiddle key (hsame ▸ hnames) between hbetween
    exact ⟨later, hlast, hstays.trans hstill⟩
  prefixes entry hentry address hnames standing hstanding := by
    obtain ⟨middle, hmiddle, hsame⟩ := h.pins entry hentry
    obtain ⟨between, hbetween, hbuilt⟩ := h.prefixes entry hentry address hnames standing hstanding
    obtain ⟨later, hlast, hbuilds⟩ := hlater.prefixes middle hmiddle address (hsame ▸ hnames) between hbetween
    exact ⟨later, hlast, hbuilds ∘ hbuilt⟩

/-- Where only records are added or damaged. -/
theorem Keeps.of_pins (hpins : ∀ entry ∈ before.pins, ∃ later ∈ after.pins, later.roots = entry.roots)
    (htrees : after.trees = before.trees) (hprefixes : after.prefixes = before.prefixes)
    (hcleared : after.cleared = before.cleared) : Keeps site [] before after where
  cleared := hcleared.trans (List.append_nil _).symm
  pins := hpins
  trees _ _ key _ tree htree := ⟨tree, htrees ▸ htree, .refl key tree⟩
  prefixes _ _ _ _ standing hstanding := ⟨standing, hprefixes ▸ hstanding, id⟩

/-- Where one source tree changes: it stays, but for what is taken, or no pin names it. -/
theorem Keeps.of_tree {taking : List PinSpec} {key : String} (hcleared : after.cleared = before.cleared ++ taking)
    (hpins : after.pins = before.pins) (hprefixes : after.prefixes = before.prefixes)
    (hothers : ∀ other, other ≠ key → get after.trees other = get before.trees other)
    (htree : (∀ entry ∈ before.pins, ¬Names site entry.roots (sourceBelow site.out key)) ∨
      ∀ tree, get before.trees key = some tree → ∃ later, get after.trees key = some later ∧ Stays taking key tree later) :
    Keeps site taking before after where
  cleared := hcleared
  pins entry hentry := ⟨entry, hpins ▸ hentry, rfl⟩
  trees entry hentry other hnames tree hstands := by
    by_cases hsame : other = key
    · rcases htree with hunnamed | hbetter
      · exact absurd (hsame ▸ hnames) (hunnamed entry hentry)
      · rw [hsame] at hstands ⊢
        exact hbetter tree hstands
    · exact ⟨tree, (hothers other hsame).trans hstands, fun _ => id, rfl, fun _ hpath => Or.inl hpath⟩
  prefixes _ _ _ _ standing hstanding := ⟨standing, hprefixes ▸ hstanding, id⟩

/-- Where one prefix changes: for the better, or one no pin names. -/
theorem Keeps.of_address {address : String × String} (hpins : after.pins = before.pins)
    (htrees : after.trees = before.trees) (hcleared : after.cleared = before.cleared)
    (hothers : ∀ other, other ≠ address → get after.prefixes other = get before.prefixes other)
    (haddress : (∀ entry ∈ before.pins, ¬Names site entry.roots (prefixBelow site.out address)) ∨
      ∀ standing, get before.prefixes address = some standing →
        ∃ later, get after.prefixes address = some later ∧ (standing.built = true → later.built = true)) :
    Keeps site [] before after where
  cleared := hcleared.trans (List.append_nil _).symm
  pins entry hentry := ⟨entry, hpins ▸ hentry, rfl⟩
  trees _ _ key _ tree htree := ⟨tree, htrees ▸ htree, .refl key tree⟩
  prefixes entry hentry other hnames standing hstands := by
    by_cases hsame : other = address
    · rcases haddress with hunnamed | hbetter
      · exact absurd (hsame ▸ hnames) (hunnamed entry hentry)
      · rw [hsame] at hstands ⊢
        exact hbetter standing hstands
    · exact ⟨standing, (hothers other hsame).trans hstands, id⟩

theorem Step.keeps (h : Step site before after) (hcustody : Custody site before) :
    ∃ taking, Keeps site taking before after := by
  cases h with
  | lock | sweep | select | spare | enter | take | choose | forgo | leave | verify =>
      exact ⟨[], .of_pins (fun entry hentry => ⟨entry, hentry, rfl⟩) rfl rfl rfl⟩
  | retain process spec hphase => exact ⟨[], .of_pins (fun entry hentry => mem_publish hentry) rfl rfl rfl⟩
  | damage front rest entry hpins =>
      refine ⟨[], .of_pins (fun other hother => ?_) rfl rfl rfl⟩
      rw [hpins, List.mem_append, List.mem_cons] at hother
      rcases hother with hfront | rfl | hrest
      · exact ⟨other, List.mem_append_left _ hfront, rfl⟩
      · exact ⟨_, List.mem_append_right _ List.mem_cons_self, rfl⟩
      · exact ⟨other, List.mem_append_right _ (List.mem_cons_of_mem _ hrest), rfl⟩
  | stray => exact ⟨[], .of_pins (fun entry hentry => ⟨entry, List.mem_append_left _ hentry, rfl⟩) rfl rfl rfl⟩
  | clear process spec tree path links hphase htree hcovers hlinks =>
      refine ⟨[spec], .of_tree rfl rfl rfl (fun other hother => get_put_of_ne _ _ hother) (Or.inr fun found hfound => ?_)⟩
      obtain rfl : tree = found := Option.some.inj (htree.symm.trans hfound)
      have hcareful := hcustody.careful process
      rw [hphase] at hcareful
      obtain ⟨-, standing, hstanding, -, hverified⟩ := hcareful
      obtain rfl : tree = standing := Option.some.inj (htree.symm.trans hstanding)
      refine ⟨_, get_put_self _ _ _, fun _ => id, rfl, fun other hother => ?_⟩
      by_cases hsame : other = path
      · -- a sealed image was checked before: none of what it lists lies beneath its results
        refine Or.inr ⟨spec, List.mem_cons_self, rfl, hsame ▸ hcovers, fun listed hlisted => ?_⟩
        obtain ⟨hfrozen, hlive⟩ := hverified listed hlisted
        obtain ⟨results, hresults, hbelow⟩ := hcovers
        refine ⟨hfrozen, fun hmem => (hlive other hmem).2 results ?_ (hsame ▸ hbelow)⟩
        exact List.mem_append_right _ (Option.mem_toList.mpr hresults)
      · exact Or.inl (List.mem_filter.mpr ⟨hother, decide_eq_true hsame⟩)
  | reuse process spec tree mtime hphase htree hlinked =>
      refine ⟨[], .of_tree (List.append_nil _).symm rfl rfl (fun other hother => get_put_of_ne _ _ hother)
        (Or.inr fun found hfound => ?_)⟩
      obtain rfl : tree = found := Option.some.inj (htree.symm.trans hfound)
      exact ⟨_, get_put_self _ _ _, fun _ => id, rfl, fun _ hpath => Or.inl hpath⟩
  | touch key tree mtime htree =>
      refine ⟨[], .of_tree (List.append_nil _).symm rfl rfl (fun other hother => get_put_of_ne _ _ hother)
        (Or.inr fun found hfound => ?_)⟩
      obtain rfl : tree = found := Option.some.inj (htree.symm.trans hfound)
      exact ⟨_, get_put_self _ _ _, fun _ => id, rfl, fun _ hpath => Or.inl hpath⟩
  | build process spec mtime files hphase htree hverified hlinked =>
      refine ⟨[], .of_tree (List.append_nil _).symm rfl rfl (fun other hother => get_put_of_ne _ _ hother)
        (Or.inr fun found hfound => ?_)⟩
      exact nomatch htree.symm.trans hfound
  | tear process key doomed left hphase htree =>
      have hcareful := hcustody.careful process
      rw [hphase] at hcareful
      exact ⟨[], .of_tree (List.append_nil _).symm rfl rfl (fun other hother => get_put_of_ne _ _ hother)
        (Or.inl (hcareful key List.mem_cons_self))⟩
  | remove process key doomed hphase =>
      have hcareful := hcustody.careful process
      rw [hphase] at hcareful
      exact ⟨[], .of_tree (List.append_nil _).symm rfl rfl (fun other hother => get_without_of_ne _ hother)
        (Or.inl (hcareful key List.mem_cons_self))⟩
  | strip process environment digest doomed left hphase hstands =>
      have hcareful := hcustody.careful process
      rw [hphase] at hcareful
      exact ⟨[], .of_address rfl rfl rfl (fun other hother => get_put_of_ne _ _ hother)
        (Or.inl (hcareful digest List.mem_cons_self))⟩
  | drop process environment digest doomed hphase =>
      have hcareful := hcustody.careful process
      rw [hphase] at hcareful
      exact ⟨[], .of_address rfl rfl rfl (fun other hother => get_without_of_ne _ hother)
        (Or.inl (hcareful digest List.mem_cons_self))⟩
  | begin process address mtime hphase hfree hnew =>
      refine ⟨[], .of_address rfl rfl rfl (fun other hother => get_put_of_ne _ _ hother)
        (Or.inr fun standing hstanding => ?_)⟩
      refine ⟨_, get_put_self _ _ _, fun hbuilt => ?_⟩
      exact absurd ((hnew standing hstanding).symm.trans hbuilt) Bool.false_ne_true
  | complete process address mtime hphase =>
      exact ⟨[], .of_address rfl rfl rfl (fun other hother => get_put_of_ne _ _ hother)
        (Or.inr fun standing hstanding => ⟨_, get_put_self _ _ _, fun _ => rfl⟩)⟩

theorem Keeps.answered {taking : List PinSpec} (h : Keeps site taking before after) {spec : PinSpec}
    (hanswered : Answered site before spec) : Answered site after spec := by
  obtain ⟨hroot, ⟨entry, hentry, hrecord⟩, tree, htree, hstamp, hsealed⟩ := hanswered
  obtain ⟨later, hlater, hsame⟩ := h.pins entry hentry
  have hnames : Names site entry.roots (sourceBelow site.out spec.key) := hrecord ▸ names_source spec hroot
  obtain ⟨kept, hkept, hstamps, hfrozen, hfiles⟩ := h.trees entry hentry spec.key hnames tree htree
  refine ⟨hroot, ⟨later, hlater, hsame.trans hrecord⟩, kept, hkept, hstamps _ hstamp, fun listed hlisted => ?_⟩
  obtain ⟨hfreezes, hwhole⟩ := hsealed listed hlisted
  refine ⟨hfrozen.trans hfreezes, fun path hpath => ?_⟩
  rcases hwhole path hpath with hstands | ⟨other, hother, htakes⟩
  · rcases hfiles path hstands with hstays | ⟨other, hother, hkey, hcovers, hspared⟩
    · exact Or.inl hstays
    · refine Or.inr ⟨other, h.cleared ▸ List.mem_append_right _ hother, hkey, hcovers, ?_⟩
      cases hsealing : other.listed with
      | none => rfl
      | some others =>
          -- another sealed pin of the tree has checked the same listing
          obtain ⟨hsame, hspared⟩ := hspared others hsealing
          obtain rfl : listed = others := Option.some.inj (hfreezes.symm.trans hsame)
          exact absurd hpath hspared
  · exact Or.inr ⟨other, h.cleared ▸ List.mem_append_left _ hother, htakes⟩

/-- Every tree stands on with its stamp, its listing and its files. -/
def Still (trees trees' : List (String × Tree)) : Prop := ∀ key tree, get trees key = some tree →
  ∃ later, get trees' key = some later ∧ later.stamp = tree.stamp ∧ later.frozen = tree.frozen ∧ tree.files ⊆ later.files

theorem Still.refl (trees : List (String × Tree)) : Still trees trees := fun _ tree htree =>
  ⟨tree, htree, rfl, rfl, List.Subset.refl _⟩

/-- A process stays careful while no record goes, while it holds the pin lock none comes and the trees stand still, and
while it holds the lock of the builds no prefix goes. -/
theorem Careful.mono {phase : Phase} {pins' : List Entry} {trees' : List (String × Tree)}
    {prefixes' : List ((String × String) × Prefix)} (h : Careful site pins trees prefixes phase)
    (hold : ∀ entry ∈ pins, ∃ later ∈ pins', later.roots = entry.roots)
    (hnew : phase.pins = true → ∀ entry ∈ pins', ∀ below, Names site entry.roots below →
      ∃ earlier ∈ pins, Names site earlier.roots below)
    (hstill : phase.pins = true → Still trees trees')
    (hgone : phase.builds = true → ∀ address, get prefixes address ≠ none → get prefixes' address ≠ none) :
    Careful site pins' trees' prefixes' phase := by
  cases phase with
  | idle | sweeping _ | waiting _ _ _ | pruning _ _ _ => trivial
  | locked spec => exact h
  | retained spec =>
      obtain ⟨hroot, entry, hentry, hrecord⟩ := h
      obtain ⟨later, hlater, hsame⟩ := hold entry hentry
      exact ⟨hroot, later, hlater, hsame.trans hrecord⟩
  | linking spec =>
      obtain ⟨⟨hroot, entry, hentry, hrecord⟩, tree, htree, hstamp, hverified⟩ := h
      obtain ⟨later, hlater, hsame⟩ := hold entry hentry
      obtain ⟨tree', htree', hstamps, hfrozen, hfiles⟩ := hstill rfl spec.key tree htree
      refine ⟨⟨hroot, later, hlater, hsame.trans hrecord⟩, tree', htree', hstamps.trans hstamp, fun listed hlisted => ?_⟩
      obtain ⟨hfreezes, hwhole⟩ := hverified listed hlisted
      exact ⟨hfrozen.trans hfreezes, fun path hpath => ⟨hfiles (hwhole path hpath).1, (hwhole path hpath).2⟩⟩
  | removing doomed =>
      intro key hkey entry hentry hnames
      obtain ⟨earlier, hearlier, hsame⟩ := hnew rfl entry hentry _ hnames
      exact h key hkey earlier hearlier hsame
  | dropping environment doomed =>
      intro digest hdigest entry hentry hnames
      obtain ⟨earlier, hearlier, hsame⟩ := hnew rfl entry hentry _ hnames
      exact h digest hdigest earlier hearlier hsame
  | building address => exact hgone rfl address h

theorem Careful.update {phases : ℕ → Phase} {process : ℕ} {phase : Phase} {pins' : List Entry}
    {trees' : List (String × Tree)} {prefixes' : List ((String × String) × Prefix)}
    (h : ∀ other, Careful site pins trees prefixes (phases other))
    (hold : ∀ entry ∈ pins, ∃ later ∈ pins', later.roots = entry.roots)
    (hnew : ∀ other, other ≠ process → (phases other).pins = true →
      ∀ entry ∈ pins', ∀ below, Names site entry.roots below → ∃ earlier ∈ pins, Names site earlier.roots below)
    (hstill : ∀ other, other ≠ process → (phases other).pins = true → Still trees trees')
    (hgone : ∀ other, other ≠ process → (phases other).builds = true →
      ∀ address, get prefixes address ≠ none → get prefixes' address ≠ none)
    (hphase : Careful site pins' trees' prefixes' phase) (other : ℕ) :
    Careful site pins' trees' prefixes' (Function.update phases process phase other) := by
  by_cases hsame : other = process
  · rw [hsame, Function.update_self]
    exact hphase
  · rw [Function.update_of_ne hsame]
    exact (h other).mono hold (hnew other hsame) (hstill other hsame) (hgone other hsame)

/-- Where neither the records, the trees nor the prefixes change. -/
theorem Careful.moved {phases : ℕ → Phase} {process : ℕ} {phase : Phase}
    (h : ∀ other, Careful site pins trees prefixes (phases other)) (hphase : Careful site pins trees prefixes phase)
    (other : ℕ) : Careful site pins trees prefixes (Function.update phases process phase other) :=
  Careful.update h (fun entry hentry => ⟨entry, hentry, rfl⟩)
    (fun _ _ _ entry hentry _ hnames => ⟨entry, hentry, hnames⟩) (fun _ _ _ => .refl trees) (fun _ _ _ _ => id) hphase
    other

/-- Where the process that holds the pin lock changes the trees. -/
theorem Careful.retreed {phases : ℕ → Phase} {process : ℕ} {phase : Phase} {trees' : List (String × Tree)}
    (h : ∀ other, Careful site pins trees prefixes (phases other)) (halone : Alone Phase.pins phases)
    (hholds : (phases process).pins = true) (hphase : Careful site pins trees' prefixes phase) (other : ℕ) :
    Careful site pins trees' prefixes (Function.update phases process phase other) :=
  Careful.update h (fun entry hentry => ⟨entry, hentry, rfl⟩)
    (fun _ _ _ entry hentry _ hnames => ⟨entry, hentry, hnames⟩)
    (fun other hother hpins => absurd (halone other process hpins hholds) hother) (fun _ _ _ _ => id) hphase other

/-- A lock is not taken by a process that ends up without it. -/
theorem unheld {holds : Phase → Bool} {phases : ℕ → Phase} {process : ℕ} {phase : Phase} (h : holds phase = false) :
    holds phase = true → holds (phases process) = true ∨ ∀ other, holds (phases other) = false :=
  fun hheld => absurd (h.symm.trans hheld) Bool.false_ne_true

/-- A lock is kept by a process that held it. -/
theorem held {holds : Phase → Bool} {phases : ℕ → Phase} {process : ℕ} {phase old : Phase}
    (hphase : phases process = old) (h : holds old = true) :
    holds phase = true → holds (phases process) = true ∨ ∀ other, holds (phases other) = false :=
  fun _ => Or.inl (hphase ▸ h)

/-- What a step does to the locks and to what each process goes by. -/
theorem Custody.step (hcustody : Custody site before) (h : Step site before after) : Custody site after := by
  obtain ⟨taking, hkeeps⟩ := h.keeps hcustody
  have hanswered : ∀ spec ∈ before.launched, Answered site after spec := fun spec hspec =>
    hkeeps.answered (hcustody.launched spec hspec)
  cases h with
  | lock process spec hphase hfree hroot =>
      exact ⟨hcustody.pins.update fun _ => Or.inr hfree, hcustody.builds.update (unheld rfl),
        Careful.moved hcustody.careful hroot, hanswered⟩
  | retain process spec hphase =>
      have hcareful := hcustody.careful process
      rw [hphase] at hcareful
      have hpinning : (before.phases process).pins = true := by rw [hphase]; rfl
      refine ⟨hcustody.pins.update (held hphase rfl), hcustody.builds.update (unheld rfl), ?_, hanswered⟩
      refine Careful.update hcustody.careful (fun entry hentry => mem_publish hentry) ?_
        (fun _ _ _ => .refl before.trees) (fun _ _ _ _ => id) ⟨hcareful, _, self_mem_publish _ _, rfl⟩
      intro other hother hpins
      exact absurd (hcustody.pins other process hpins hpinning) hother
  | verify process spec tree hphase htree hstamp hverified =>
      have hcareful := hcustody.careful process
      rw [hphase] at hcareful
      exact ⟨hcustody.pins.update (held hphase rfl), hcustody.builds.update (unheld rfl),
        Careful.moved hcustody.careful ⟨hcareful, tree, htree, hstamp, hverified⟩, hanswered⟩
  | clear process spec tree path links hphase htree hcovers hlinks =>
      have hcareful := hcustody.careful process
      have hpinning : (before.phases process).pins = true := by rw [hphase]; rfl
      rw [hphase] at hcareful
      obtain ⟨hpinned, standing, hstanding, hstamp, hverified⟩ := hcareful
      obtain rfl : tree = standing := Option.some.inj (htree.symm.trans hstanding)
      refine ⟨hcustody.pins, hcustody.builds, ?_, hanswered⟩
      rw [← Function.update_eq_self process before.phases]
      refine Careful.retreed hcustody.careful hcustody.pins hpinning ?_
      rw [hphase]
      refine ⟨hpinned, _, get_put_self _ _ _, hstamp, fun listed hlisted => ?_⟩
      obtain ⟨hfrozen, hwhole⟩ := hverified listed hlisted
      refine ⟨hfrozen, fun other hother => ⟨List.mem_filter.mpr ⟨(hwhole other hother).1, decide_eq_true ?_⟩,
        (hwhole other hother).2⟩⟩
      rintro rfl
      obtain ⟨results, hresults, hbelow⟩ := hcovers
      exact (hwhole _ hother).2 results (List.mem_append_right _ (Option.mem_toList.mpr hresults)) hbelow
  | reuse process spec tree mtime hphase htree hlinked =>
      have hcareful := hcustody.careful process
      have hpinning : (before.phases process).pins = true := by rw [hphase]; rfl
      rw [hphase] at hcareful
      obtain ⟨hpinned, standing, hstanding, hstamp, hverified⟩ := hcareful
      obtain rfl : tree = standing := Option.some.inj (htree.symm.trans hstanding)
      refine ⟨hcustody.pins.update (unheld rfl), hcustody.builds.update (unheld rfl),
        Careful.retreed hcustody.careful hcustody.pins hpinning trivial, fun other hother => ?_⟩
      rcases List.mem_append.mp hother with hold | hnew
      · exact hanswered other hold
      · obtain rfl := List.mem_singleton.mp hnew
        refine ⟨hpinned.1, hpinned.2, _, get_put_self _ _ _, hstamp, fun listed hlisted => ?_⟩
        exact ⟨(hverified listed hlisted).1, fun path hpath => Or.inl ((hverified listed hlisted).2 path hpath).1⟩
  | build process spec mtime files hphase htree hverified hlinked =>
      have hcareful := hcustody.careful process
      have hpinning : (before.phases process).pins = true := by rw [hphase]; rfl
      rw [hphase] at hcareful
      refine ⟨hcustody.pins.update (unheld rfl), hcustody.builds.update (unheld rfl),
        Careful.retreed hcustody.careful hcustody.pins hpinning trivial, fun other hother => ?_⟩
      rcases List.mem_append.mp hother with hold | hnew
      · exact hanswered other hold
      · obtain rfl := List.mem_singleton.mp hnew
        refine ⟨hcareful.1, hcareful.2, _, get_put_self _ _ _, rfl, fun listed hlisted => ⟨hlisted, fun path hpath => ?_⟩⟩
        exact Or.inl ((hverified listed hlisted).2 path hpath).1
  | sweep process inventory hphase hfree =>
      exact ⟨hcustody.pins.update fun _ => Or.inr hfree, hcustody.builds.update (unheld rfl),
        Careful.moved hcustody.careful trivial, hanswered⟩
  | select process inventory root horizon hphase hroot =>
      refine ⟨hcustody.pins.update (held hphase rfl), hcustody.builds.update (unheld (by split <;> rfl)),
        Careful.moved hcustody.careful ?_, hanswered⟩
      split
      next hunknown => exact fun key hkey => not_names_of_kept hroot hunknown (mem_doomedSources hkey)
      next => trivial
  | tear process key doomed left hphase htree =>
      have hcareful := hcustody.careful process
      have hpinning : (before.phases process).pins = true := by rw [hphase]; rfl
      refine ⟨hcustody.pins, hcustody.builds, ?_, hanswered⟩
      rw [← Function.update_eq_self process before.phases]
      refine Careful.retreed hcustody.careful hcustody.pins hpinning ?_
      rw [hphase] at hcareful ⊢
      exact hcareful
  | remove process key doomed hphase =>
      have hcareful := hcustody.careful process
      have hpinning : (before.phases process).pins = true := by rw [hphase]; rfl
      rw [hphase] at hcareful
      exact ⟨hcustody.pins.update (held hphase rfl), hcustody.builds.update (unheld rfl),
        Careful.retreed hcustody.careful hcustody.pins hpinning fun other hother =>
          hcareful other (List.mem_cons_of_mem _ hother), hanswered⟩
  | spare process key doomed hphase =>
      have hcareful := hcustody.careful process
      rw [hphase] at hcareful
      exact ⟨hcustody.pins.update (held hphase rfl), hcustody.builds.update (unheld rfl),
        Careful.moved hcustody.careful fun other hother => hcareful other (List.mem_cons_of_mem _ hother), hanswered⟩
  | enter process inventory live environment hphase hfree =>
      exact ⟨hcustody.pins.update (unheld rfl), hcustody.builds.update fun _ => Or.inr hfree,
        Careful.moved hcustody.careful trivial, hanswered⟩
  | take process inventory live environment hphase hfree =>
      exact ⟨hcustody.pins.update fun _ => Or.inr hfree, hcustody.builds.update (held hphase rfl),
        Careful.moved hcustody.careful trivial, hanswered⟩
  | choose process inventory live environment root hphase hroot =>
      refine ⟨hcustody.pins.update (held hphase rfl), hcustody.builds.update (held hphase rfl),
        Careful.moved hcustody.careful ?_, hanswered⟩
      split
      next hunknown => exact fun digest hdigest => not_names_of_kept hroot hunknown (mem_doomedPrefixes hdigest)
      next => trivial
  | strip process environment digest doomed left hphase hstands =>
      exact ⟨hcustody.pins, hcustody.builds, fun other => (hcustody.careful other).mono
        (fun entry hentry => ⟨entry, hentry, rfl⟩) (fun _ entry hentry _ hnames => ⟨entry, hentry, hnames⟩)
        (fun _ => .refl before.trees) (fun _ _ => get_put_ne_none), hanswered⟩
  | drop process environment digest doomed hphase =>
      have hcareful := hcustody.careful process
      rw [hphase] at hcareful
      have hbuilding : (before.phases process).builds = true := by rw [hphase]; rfl
      refine ⟨hcustody.pins.update (held hphase rfl), hcustody.builds.update (held hphase rfl), ?_, hanswered⟩
      refine Careful.update hcustody.careful (fun entry hentry => ⟨entry, hentry, rfl⟩)
        (fun _ _ _ entry hentry _ hnames => ⟨entry, hentry, hnames⟩) (fun _ _ _ => .refl before.trees) ?_
        (fun other hother => hcareful other (List.mem_cons_of_mem _ hother))
      -- whoever builds holds the lock this sweep holds
      intro other hother hbuilds
      exact absurd (hcustody.builds other process hbuilds hbuilding) hother
  | forgo process environment digest doomed hphase =>
      have hcareful := hcustody.careful process
      rw [hphase] at hcareful
      exact ⟨hcustody.pins.update (held hphase rfl), hcustody.builds.update (held hphase rfl),
        Careful.moved hcustody.careful fun other hother => hcareful other (List.mem_cons_of_mem _ hother), hanswered⟩
  | begin process address mtime hphase hfree hnew =>
      refine ⟨hcustody.pins.update (unheld rfl), hcustody.builds.update fun _ => Or.inr hfree, ?_, hanswered⟩
      refine Careful.update hcustody.careful (fun entry hentry => ⟨entry, hentry, rfl⟩)
        (fun _ _ _ entry hentry _ hnames => ⟨entry, hentry, hnames⟩) (fun _ _ _ => .refl before.trees)
        (fun _ _ _ _ => get_put_ne_none) ?_
      rw [Careful, get_put_self]
      exact Option.some_ne_none _
  | complete process address mtime hphase =>
      refine ⟨hcustody.pins.update (unheld rfl), hcustody.builds.update (unheld rfl), ?_, hanswered⟩
      exact Careful.update hcustody.careful (fun entry hentry => ⟨entry, hentry, rfl⟩)
        (fun _ _ _ entry hentry _ hnames => ⟨entry, hentry, hnames⟩) (fun _ _ _ => .refl before.trees)
        (fun _ _ _ _ => get_put_ne_none) trivial
  | leave process =>
      exact ⟨hcustody.pins.update (unheld rfl), hcustody.builds.update (unheld rfl),
        Careful.moved hcustody.careful trivial, hanswered⟩
  | damage front rest entry hpins =>
      refine ⟨hcustody.pins, hcustody.builds, fun other =>
        (hcustody.careful other).mono hkeeps.pins ?_ (fun _ => .refl before.trees) (fun _ _ => id), hanswered⟩
      intro _ one hone below hnames
      rw [hpins]
      rcases List.mem_append.mp hone with hfront | hrest
      · exact ⟨one, List.mem_append_left _ hfront, hnames⟩
      · rcases List.mem_cons.mp hrest with rfl | hrest
        · exact ⟨entry, List.mem_append_right _ List.mem_cons_self, hnames⟩
        · exact ⟨one, List.mem_append_right _ (List.mem_cons_of_mem _ hrest), hnames⟩
  | stray =>
      refine ⟨hcustody.pins, hcustody.builds, fun other =>
        (hcustody.careful other).mono hkeeps.pins ?_ (fun _ => .refl before.trees) (fun _ _ => id), hanswered⟩
      intro _ one hone below hnames
      rcases List.mem_append.mp hone with hold | hnew
      · exact ⟨one, hold, hnames⟩
      · rw [List.mem_singleton.mp hnew] at hnames
        exact absurd hnames List.not_mem_nil
  | touch key tree mtime htree =>
      refine ⟨hcustody.pins, hcustody.builds, fun other => (hcustody.careful other).mono
        (fun entry hentry => ⟨entry, hentry, rfl⟩) (fun _ entry hentry _ hnames => ⟨entry, hentry, hnames⟩)
        (fun _ name found hfound => ?_) (fun _ _ => id), hanswered⟩
      by_cases hsame : name = key
      · subst hsame
        obtain rfl : tree = found := Option.some.inj (htree.symm.trans hfound)
        exact ⟨_, get_put_self _ _ _, rfl, rfl, List.Subset.refl _⟩
      · exact ⟨found, (get_put_of_ne _ _ hsame).trans hfound, rfl, rfl, List.Subset.refl _⟩

theorem Reachable.custody {host : Host} (h : Reachable site host) : Custody site host := by
  induction h with
  | start trees prefixes =>
      have hnone : ∀ {holds : Phase → Bool}, holds .idle = false → Alone holds fun _ => .idle :=
        fun hidle _ _ hheld => absurd (hidle.symm.trans hheld) Bool.false_ne_true
      exact ⟨hnone rfl, hnone rfl, fun _ => trivial, fun spec hspec => absurd hspec List.not_mem_nil⟩
  | step hreach hstep ih => exact ih.step hstep

theorem Custody.keeps_run {host later : Host} (hcustody : Custody site host)
    (hrun : Relation.ReflTransGen (Step site) host later) :
    (∃ taking, Keeps site taking host later) ∧ Custody site later := by
  induction hrun with
  | refl => exact ⟨⟨[], .refl site host⟩, hcustody⟩
  | tail hbefore hstep ih =>
      obtain ⟨⟨taking, hkeeps⟩, hcustody⟩ := ih
      obtain ⟨more, hlater⟩ := hstep.keeps hcustody
      exact ⟨⟨taking ++ more, hkeeps.trans hlater⟩, hcustody.step hstep⟩

/-- However pins, builds and sweeps interleave, and whatever a sweep believes of the queue: every answered pin's tree
stands, with all a sealed one lists but what the mirrored image's pins of the same tree took for their results; a prefix
that is being built is swept by nobody; and no source tree and no prefix that a published pin names is removed or taken
from any more, but for what a pin takes that uses the tree again. -/
theorem roots_retained {host : Host} (h : Reachable site host) :
    (∀ spec ∈ host.launched, Answered site host spec) ∧
      (∀ process address, host.phases process = .building address → get host.prefixes address ≠ none ∧
        ∀ other environment doomed, host.phases other ≠ .dropping environment doomed) ∧
      ∀ later, Relation.ReflTransGen (Step site) host later → ∃ taking, Keeps site taking host later := by
  have hcustody := h.custody
  refine ⟨hcustody.launched, fun process address hphase => ⟨?_, ?_⟩, fun later hrun => (hcustody.keeps_run hrun).1⟩
  · have hcareful := hcustody.careful process
    rwa [hphase] at hcareful
  · intro other environment doomed hother
    have hbuilding : (host.phases process).builds = true := by rw [hphase]; rfl
    have hsweeping : (host.phases other).builds = true := by rw [hother]; rfl
    rw [hcustody.builds process other hbuilding hsweeping, hother] at hphase
    exact nomatch hphase

/-- A job's tree, and the same job dispatched again with results of its own. -/
def sealedPin (results : Option Path) : PinSpec where
  root := ["ws"]
  key := "key"
  stamp := "key"
  address := some ("default", "digest")
  listed := some [["run.py"]]
  results := results

/-- The host a run reaches. -/
def Reachable.host {host : Host} (_ : Reachable site host) : Host := host

theorem free_update {holds : Phase → Bool} {phases : ℕ → Phase} {process : ℕ} {phase : Phase}
    (hphase : holds phase = false) (h : ∀ other, other ≠ process → holds (phases other) = false) (other : ℕ) :
    holds (Function.update phases process phase other) = false := by
  rw [Function.update_apply]
  split
  · exact hphase
  · exact h other ‹_›

/-- A workspace at one place, its out directory named `out`. -/
def oneSite : Site where
  out := "out"
  real := id
  place below := ["ws"] ++ below

/-- A pin's tree built, an old tree swept, an environment being built, and the tree used again with other results. -/
theorem roots_retained_first : ∃ host : Host,
    (host.launched = [sealedPin none, sealedPin (some ["notes"])] ∧ get host.trees "old" = none ∧
      (get host.trees "key").map Tree.files = some [["run.py"]]) ∧
    (∀ spec ∈ host.launched, Answered oneSite host spec) ∧
      (∀ process address, host.phases process = .building address → get host.prefixes address ≠ none ∧
        ∀ other environment doomed, host.phases other ≠ .dropping environment doomed) ∧
      ∀ later, Relation.ReflTransGen (Step oneSite) host later → ∃ taking, Keeps oneSite taking host later := by
  have hspells : oneSite.Spells ["ws"] := fun _ => rfl
  have hcovers : ∀ path, ¬(sealedPin none).Covers path := fun path hcovers => by
    obtain ⟨results, hresults, -⟩ := hcovers
    cases hresults
  have hstart : Reachable oneSite _ := .start [("old", ⟨0, [], some "old", none, []⟩),
    ("new", ⟨8, [], some "new", none, []⟩), ("newer", ⟨9, [], some "newer", none, []⟩)] []
  have hlocked := hstart.step (.lock _ 0 (sealedPin none) rfl (fun _ => rfl) hspells)
  have hretained := hlocked.step (.retain _ 0 _ rfl)
  have hbuilt := hretained.step (.build _ 0 _ 7 [["run.py"], ["notes", "a"]] rfl rfl (fun listed hlisted => by
    obtain rfl := Option.some.inj hlisted
    exact ⟨rfl, by decide⟩) fun path _ => hcovers path)
  have hfirst : hbuilt.host.Free Phase.pins := free_update rfl fun other hother => by
    simp only [Host.moved, Function.update_of_ne hother]
    rfl
  have hsweeping := hbuilt.step (.sweep _ 1 {} rfl hfirst)
  have hselected := hsweeping.step (.select _ 1 {} ["ws"] 5 rfl hspells)
  have hremoved := hselected.step (.remove _ 1 "old" [] rfl)
  have hleft := hremoved.step (.leave _ 1)
  have hsecond : hleft.host.Free Phase.pins := free_update rfl fun other hother => by
    simp only [Host.moved, Function.update_of_ne hother]
    exact hfirst other
  have hunbuilt : hleft.host.Free Phase.builds := free_update rfl fun other hother => by
    simp only [Host.moved, Function.update_of_ne hother]
    refine free_update rfl (fun next hnext => ?_) other
    simp only [Function.update_of_ne hnext]
    rfl
  have hbegun := hleft.step (.begin _ 2 ("default", "digest") 3 rfl hunbuilt fun _ hnone => nomatch hnone)
  have hagain := hbegun.step (.lock _ 0 (sealedPin (some ["notes"])) rfl (free_update rfl fun other _ => hsecond other)
    hspells)
  have hpinned := hagain.step (.retain _ 0 _ rfl)
  have hverified := hpinned.step (.verify _ 0 _ _ rfl rfl rfl fun listed hlisted => by
    obtain rfl := Option.some.inj hlisted
    exact ⟨rfl, by decide⟩)
  have hcleared := hverified.step (.clear _ 0 _ _ ["notes", "a"] ["digest"] rfl rfl ⟨["notes"], rfl, by decide⟩
    (List.Subset.refl _))
  have hreused := hcleared.step (.reuse _ 0 _ _ 8 rfl rfl fun path hpath hnotes => by
    obtain rfl := List.mem_singleton.mp hpath
    obtain ⟨results, hresults, hbelow⟩ := hnotes
    obtain rfl := Option.some.inj hresults
    exact absurd hbelow (by decide))
  exact ⟨_, ⟨rfl, rfl, rfl⟩, roots_retained hreused⟩

end

end Mainboard.Execution
