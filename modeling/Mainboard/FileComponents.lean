import Mathlib.Data.List.Forall2
import Mathlib.Data.List.Zip
import Mathlib.Tactic.Tauto
import Mainboard.ParentForest

/-! The files changed since their last proven state, joined when one fix changed several. Whatever is read and
compressed in between, two files are in one group exactly when a chain of joined sets connects them, each made since
its files were last dropped. -/

namespace Mainboard.Analysis.Fixing

open OrderedMap ParentForest

/-- Each file's parent, in the order the files came. -/
abbrev Parents := List (String × String)

namespace Parents

variable (parent : Parents)

def names : List String := parent.map (·.1)

/-- `_root`: the root a name leads to, with the map the climb leaves. -/
def root (name : String) : Option (Parents × String) := climb parent.length parent name

/-- The roots of names asked one after the other. -/
def roots : Parents → List String → Option (Parents × List String)
  | parent, [] => some (parent, [])
  | parent, name :: names => do
      let first ← root parent name
      let rest ← roots first.1 names
      return (rest.1, first.2 :: rest.2)

/-- Every file in a component holding one of `names`. -/
def around (names : List String) : Option (Parents × List String) := do
  let asked ← roots parent (names.filter fun name => decide (name ∈ parent.names))
  let each ← roots asked.1 asked.1.names
  return (each.1, ((asked.1.names.zip each.2).filter fun pair => decide (pair.2 ∈ asked.2)).map (·.1))

/-- Forget whole components. -/
def drop (names : List String) : Parents := parent.filter fun entry => decide (entry.1 ∉ names)

/-- The files of each root, in the order they came. -/
def groups : Option (Parents × List (List String)) := do
  let each ← roots parent parent.names
  return (each.1, (gather (each.2.zip parent.names)).map (·.2))

/-- `setdefault(name, name)`. -/
def known (name : String) : Parents := if name ∈ parent.names then parent else put parent name name

/-- One more file joined to the first: its root hung under the first's. -/
def hang (first name : String) : Option Parents := do
  let top ← root (known parent name) first
  let under ← root top.1 name
  return put under.1 under.2 top.2

def hangAll (first : String) : Parents → List String → Option Parents
  | parent, [] => some parent
  | parent, name :: names => do
      let hung ← hang parent first name
      hangAll first hung names

/-- Files one fix changed, joined. -/
def join (first : String) (rest : List String) : Option Parents := hangAll first (known parent first) rest

end Parents

/-- What is asked of the components. -/
inductive Op where
  | join (first : String) (rest : List String)
  | drop (names : List String)
  | around (names : List String)
  | groups
  deriving DecidableEq, Repr

/-- Whether a set of names holds each group whole or not at all. -/
def Parents.whole (parent : Parents) (names : List String) : Bool := match parent.groups with
  | none => false
  | some (_, groups) => groups.all fun group =>
      group.all (fun name => decide (name ∈ names)) || group.all fun name => decide (name ∉ names)

namespace Op

/-- The map an operation leaves, nothing where it raises or does not end. -/
def step (parent : Parents) : Op → Option Parents
  | join first rest => parent.join first rest
  | drop names => some (parent.drop names)
  | around names => (parent.around names).map (·.1)
  | groups => parent.groups.map (·.1)

/-- Only whole components are dropped. -/
def allowed (parent : Parents) : Op → Bool
  | drop names => parent.whole names
  | _ => true

end Op

/-- The map a sequence of operations leaves. -/
def components : Parents → List Op → Option Parents
  | parent, [] => some parent
  | parent, op :: ops => (op.step parent).bind fun parent => components parent ops

/-- Every drop of a sequence is one of whole components. -/
def Dropped : Parents → List Op → Bool
  | _, [] => true
  | parent, op :: ops => op.allowed parent && match op.step parent with
    | none => true
    | some next => Dropped next ops

/-- A set joined in the course of operations, none of whose files was dropped since. -/
def Live (history : List Op) (files : List String) : Prop :=
  ∃ before first rest after, history = before ++ .join first rest :: after ∧ files = first :: rest ∧
    ∀ names, .drop names ∈ after → ∀ name ∈ files, name ∉ names

/-- Two files stand in one live set. -/
def Together (history : List Op) (one other : String) : Prop := ∃ files, Live history files ∧ one ∈ files ∧ other ∈ files

section Reading

variable {parent : Parents}

theorem root_spec (hforest : Forest parent) {name : String} (hname : name ∈ parent.names) :
    ∃ later top, parent.root name = some (later, top) ∧ Follows parent later ∧ ∃ steps, Leads parent steps name top := by
  obtain ⟨steps, top, hleads⟩ := hforest.leads name hname
  obtain ⟨later, hclimb, hfollows⟩ := climb_spec hforest hleads hleads.lt_length
  exact ⟨later, top, hclimb, hfollows, steps, hleads⟩

theorem roots_spec (hforest : Forest parent) {names : List String} (hnames : ∀ name ∈ names, name ∈ parent.names) :
    ∃ later tops, parent.roots names = some (later, tops) ∧ Follows parent later ∧
      List.Forall₂ (fun name top => ∃ steps, Leads parent steps name top) names tops := by
  induction names generalizing parent with
  | nil => exact ⟨parent, [], rfl, Follows.refl parent, List.Forall₂.nil⟩
  | cons name names ih =>
      rw [List.forall_mem_cons] at hnames
      obtain ⟨first, top, hroot, hfollows, hleads⟩ := root_spec hforest hnames.1
      have hkeys : ∀ other ∈ names, other ∈ first.names := fun other hother => by
        rw [Parents.names, hfollows.1]
        exact hnames.2 other hother
      obtain ⟨later, tops, hroots, hlater, hall⟩ := ih (hfollows.forest hforest) hkeys
      refine ⟨later, top :: tops, ?_, hfollows.trans hlater, List.Forall₂.cons hleads ?_⟩
      · rw [Parents.roots, hroot, Option.bind_eq_bind, Option.bind_some, hroots]
        rfl
      · exact hall.imp fun other last ⟨steps, hlast⟩ => hfollows.back hforest hlast

theorem around_spec (hforest : Forest parent) (names : List String) :
    ∃ later files, parent.around names = some (later, files) ∧ Follows parent later := by
  obtain ⟨first, asked, hasked, hfirst, -⟩ := @roots_spec parent hforest
    (names.filter fun name => decide (name ∈ parent.names)) fun name hname => of_decide_eq_true (List.mem_filter.mp hname).2
  obtain ⟨later, each, heach, hlater, -⟩ := @roots_spec first (hfirst.forest hforest) first.names fun name hname => hname
  rw [Parents.around, hasked, Option.bind_eq_bind, Option.bind_some, heach]
  exact ⟨later, _, rfl, hfirst.trans hlater⟩

/-- The groups are the sets of names that lead to one root, each name in one of them. -/
theorem groups_spec (hforest : Forest parent) : ∃ later groups, parent.groups = some (later, groups) ∧
    Follows parent later ∧
    (∀ group ∈ groups, group ≠ [] ∧ group.Nodup ∧
      ∃ top, ∀ name, name ∈ group ↔ ∃ steps, Leads parent steps name top) ∧
    groups.Pairwise List.Disjoint ∧ ∀ name ∈ parent.names, ∃ group ∈ groups, name ∈ group := by
  obtain ⟨later, tops, hroots, hfollows, hall⟩ := roots_spec hforest fun name (hname : name ∈ parent.names) => hname
  obtain ⟨hlength, hzip⟩ := List.forall₂_iff_zip.mp hall
  set pairs := tops.zip parent.names with hpairs
  have hnames : pairs.map (·.2) = parent.names := List.map_snd_zip (by omega)
  have hpair : ∀ pair, pair ∈ pairs → ∃ steps, Leads parent steps pair.2 pair.1 := by
    intro pair hmem
    refine @hzip pair.2 pair.1 ?_
    rw [← List.zip_swap]
    exact List.mem_map.mpr ⟨pair, hmem, rfl⟩
  have hgroup : ∀ entry ∈ gather pairs, ∀ name, name ∈ entry.2 ↔ ∃ steps, Leads parent steps name entry.1 := by
    intro entry hentry name
    rw [(mem_gather pairs hentry).1, List.mem_map]
    constructor
    · rintro ⟨pair, hmem, rfl⟩
      obtain ⟨hmem, htop⟩ := List.mem_filter.mp hmem
      rw [← of_decide_eq_true htop]
      exact hpair pair hmem
    · rintro ⟨steps, hleads⟩
      have hname : name ∈ pairs.map (·.2) := hnames ▸ hleads.mem_keys
      obtain ⟨pair, hmem, rfl⟩ := List.mem_map.mp hname
      obtain ⟨more, hmore⟩ := hpair pair hmem
      exact ⟨pair, List.mem_filter.mpr ⟨hmem, decide_eq_true (hmore.unique hleads).2⟩, rfl⟩
  refine ⟨later, (gather pairs).map (·.2), ?_, hfollows, fun group hmem => ?_, ?_, fun name hname => ?_⟩
  · rw [Parents.groups, hroots]
    rfl
  · obtain ⟨entry, hentry, rfl⟩ := List.mem_map.mp hmem
    obtain ⟨hvalues, hsome⟩ := mem_gather pairs hentry
    refine ⟨hsome, ?_, entry.1, hgroup entry hentry⟩
    have hnodup : (pairs.map (·.2)).Nodup := hnames ▸ hforest.nodup
    rw [hvalues]
    exact hnodup.sublist (List.filter_sublist.map _)
  · have hkeys := List.pairwise_map.mp (nodup_keys_gather pairs)
    refine List.pairwise_map.mpr (hkeys.imp_of_mem fun {one other} hone hother hne name hin hin' => hne ?_)
    obtain ⟨steps, hleads⟩ := (hgroup one hone name).mp hin
    obtain ⟨more, hleads'⟩ := (hgroup other hother name).mp hin'
    exact (hleads.unique hleads').2
  · obtain ⟨steps, top, hleads⟩ := hforest.leads name hname
    rw [← hnames] at hname
    obtain ⟨pair, hmem, hsame⟩ := List.mem_map.mp hname
    obtain ⟨entry, hentry, hkey⟩ := List.mem_map.mp ((mem_keys_gather pairs pair.1).mpr (List.mem_map_of_mem hmem))
    refine ⟨entry.2, List.mem_map_of_mem hentry, (hgroup entry hentry name).mpr ?_⟩
    rw [hkey, ← hsame]
    exact hpair pair hmem

/-- A set of names that holds each group whole or not at all is closed under leading to one root. -/
theorem whole_closed (hforest : Forest parent) {names : List String} (hwhole : parent.whole names = true) {one other : String}
    (hmeets : Same parent one other) : one ∈ names ↔ other ∈ names := by
  obtain ⟨later, groups, hgroups, -, hall, -, hcovers⟩ := groups_spec hforest
  rw [Parents.whole, hgroups] at hwhole
  obtain ⟨group, hgroup, hone⟩ := hcovers one hmeets.mem_keys
  obtain ⟨-, -, top, htop⟩ := hall group hgroup
  have hother : other ∈ group := by
    obtain ⟨root, ⟨steps, hleft⟩, hright⟩ := hmeets
    obtain ⟨more, hleads⟩ := (htop one).mp hone
    obtain ⟨-, rfl⟩ := hleft.unique hleads
    exact (htop other).mpr hright
  rcases Bool.or_eq_true _ _ ▸ List.all_eq_true.mp hwhole group hgroup with hin | hout
  · exact iff_of_true (of_decide_eq_true (List.all_eq_true.mp hin one hone))
      (of_decide_eq_true (List.all_eq_true.mp hin other hother))
  · exact iff_of_false (of_decide_eq_true (List.all_eq_true.mp hout one hone))
      (of_decide_eq_true (List.all_eq_true.mp hout other hother))

end Reading

section Joining

variable {parent : Parents} {related : String → String → Prop} {first name : String}

theorem names_known (parent : Parents) (name other : String) :
    other ∈ (parent.known name).names ↔ other = name ∨ other ∈ parent.names := by
  rw [Parents.known]
  split
  · rename_i hknown
    exact ⟨Or.inr, fun hcases => hcases.elim (fun hsame => hsame ▸ hknown) id⟩
  · exact mem_keys_put

theorem kernel_known (h : Kernel parent related) (name : String) : Kernel (parent.known name) related := by
  rw [Parents.known]
  split
  · exact h
  · rename_i hnew
    exact h.put_self hnew

/-- Joining one more file to the first connects the two. -/
theorem hang_spec (h : Kernel parent related) (hfirst : first ∈ parent.names) : ∃ next, parent.hang first name = some next ∧
    (∀ other, other ∈ next.names ↔ other = name ∨ other ∈ parent.names) ∧
    Kernel next fun one other => related one other ∨ (one = first ∧ other = name) := by
  have hknown := kernel_known h name
  obtain ⟨middle, top, htop, hmiddle, steps, hleads⟩ := root_spec hknown.forest ((names_known parent name first).mpr (Or.inr hfirst))
  have hkernel := hknown.follows hmiddle
  have hname : name ∈ middle.names := by
    rw [Parents.names, hmiddle.1]
    exact (names_known parent name name).mpr (Or.inl rfl)
  obtain ⟨last, under, hunder, hlast, more, hleads'⟩ := root_spec hkernel.forest hname
  obtain ⟨steps, hleads⟩ := hmiddle.2 _ _ _ hleads
  obtain ⟨steps, hleads⟩ := hlast.2 _ _ _ hleads
  obtain ⟨more, hleads'⟩ := hlast.2 _ _ _ hleads'
  refine ⟨put last under top, ?_, fun other => ?_, (hkernel.follows hlast).hung hleads' hleads⟩
  · rw [Parents.hang, htop, Option.bind_eq_bind, Option.bind_some, hunder]
    rfl
  · rw [Parents.names, keys_put, if_pos (mem_keys_of_get hleads'.root_root), hlast.1, hmiddle.1]
    exact names_known parent name other

theorem hangAll_spec (h : Kernel parent related) (hfirst : first ∈ parent.names) (rest : List String) :
    ∃ next, parent.hangAll first rest = some next ∧ (∀ other, other ∈ next.names ↔ other ∈ rest ∨ other ∈ parent.names) ∧
      Kernel next fun one other => related one other ∨ (one = first ∧ other ∈ rest) := by
  induction rest generalizing parent related with
  | nil =>
      refine ⟨parent, rfl, fun other => by simp, ?_⟩
      simpa using h
  | cons name rest ih =>
      obtain ⟨hung, hhang, hnames, hkernel⟩ := hang_spec h hfirst
      obtain ⟨next, hnext, hall, hlast⟩ := ih hkernel ((hnames first).mpr (Or.inr hfirst))
      refine ⟨next, ?_, fun other => ?_, ?_⟩
      · rw [Parents.hangAll, hhang]
        exact hnext
      · rw [hall, hnames, List.mem_cons]
        tauto
      · have hsame : (fun one other => (related one other ∨ (one = first ∧ other = name)) ∨ (one = first ∧ other ∈ rest)) =
            fun one other => related one other ∨ (one = first ∧ other ∈ name :: rest) := by
          funext one other
          rw [List.mem_cons, eq_iff_iff]
          tauto
        exact hsame ▸ hlast

/-- A join ends, and connects the files of its set with each other. -/
theorem join_spec (h : Kernel parent related) (first : String) (rest : List String) : ∃ next, parent.join first rest = some next ∧
    (∀ name, name ∈ next.names ↔ name ∈ first :: rest ∨ name ∈ parent.names) ∧
    Kernel next fun one other => related one other ∨ (one ∈ first :: rest ∧ other ∈ first :: rest) := by
  have hfirst : first ∈ (parent.known first).names := (names_known parent first first).mpr (Or.inl rfl)
  obtain ⟨next, hnext, hnames, hkernel⟩ := hangAll_spec (kernel_known h first) hfirst rest
  have hall : ∀ name, name ∈ next.names ↔ name ∈ first :: rest ∨ name ∈ parent.names := fun name => by
    rw [hnames, names_known, List.mem_cons]
    tauto
  refine ⟨next, hnext, hall, hkernel.congr ?_ ?_ ?_⟩
  · rintro one other (hpair | ⟨rfl, hother⟩)
    · exact .rel _ _ (Or.inl hpair)
    · exact .rel _ _ (Or.inr ⟨List.mem_cons_self, List.mem_cons_of_mem _ hother⟩)
  · have hlink : ∀ name ∈ first :: rest,
        Relation.EqvGen (fun one other => related one other ∨ (one = first ∧ other ∈ rest)) first name := by
      intro name hname
      rcases List.mem_cons.mp hname with rfl | hlate
      · exact .refl _
      · exact .rel _ _ (Or.inr ⟨rfl, hlate⟩)
    rintro one other (hpair | ⟨hone, hother⟩)
    · exact .rel _ _ (Or.inl hpair)
    · exact .trans _ _ _ (.symm _ _ (hlink one hone)) (hlink other hother)
  · rintro one other (hpair | ⟨hone, hother⟩)
    · have hin : ∀ name, name ∈ parent.names → name ∈ next.names := fun name hname => (hall name).mpr (Or.inr hname)
      exact (h.within one other hpair).imp (hin one) (hin other)
    · exact ⟨(hall one).mpr (Or.inl hone), (hall other).mpr (Or.inl hother)⟩

end Joining

section Histories

variable {history : List Op} {parent : Parents} {files : List String}

theorem live_snoc {op : Op} : Live (history ++ [op]) files ↔
    (∃ first rest, op = .join first rest ∧ files = first :: rest) ∨
      (Live history files ∧ ∀ names, op = .drop names → ∀ name ∈ files, name ∉ names) := by
  constructor
  · rintro ⟨before, first, rest, after, hhistory, hfiles, hkept⟩
    cases after using List.reverseRecOn with
    | nil =>
        exact Or.inl ⟨first, rest, List.singleton_inj.mp (List.append_inj_right' hhistory rfl), hfiles⟩
    | append_singleton after last =>
        rw [← List.cons_append, ← List.append_assoc] at hhistory
        obtain ⟨rfl, hlast⟩ := List.append_inj' hhistory rfl
        obtain rfl := List.singleton_inj.mp hlast
        refine Or.inr ⟨⟨before, first, rest, after, rfl, hfiles, fun names hnames => ?_⟩, fun names hnames => ?_⟩
        · exact hkept names (List.mem_append_left _ hnames)
        · exact hkept names (hnames ▸ List.mem_append_right _ (List.mem_singleton_self _))
  · rintro (⟨first, rest, rfl, hfiles⟩ | ⟨⟨before, first, rest, after, rfl, hfiles, hkept⟩, hop⟩)
    · exact ⟨history, first, rest, [], rfl, hfiles, fun names hnames => (List.not_mem_nil hnames).elim⟩
    · refine ⟨before, first, rest, after ++ [op], by rw [List.append_assoc, List.cons_append], hfiles, fun names hnames => ?_⟩
      rcases List.mem_append.mp hnames with hold | hlast
      · exact hkept names hold
      · exact hop names (List.mem_singleton.mp hlast).symm

/-- What the components keep of the operations behind them: the files of the live sets, and which of them are connected. -/
structure Traced (history : List Op) (parent : Parents) : Prop where
  names : ∀ name, name ∈ parent.names ↔ ∃ files, Live history files ∧ name ∈ files
  kernel : Kernel parent (Together history)

theorem Traced.step {op : Op} (h : Traced history parent) (hallowed : op.allowed parent = true) :
    ∃ next, op.step parent = some next ∧ Traced (history ++ [op]) next := by
  have hlive : (∀ names, op ≠ .drop names) → (∀ first rest, op ≠ .join first rest) → ∀ files,
      Live (history ++ [op]) files ↔ Live history files := fun hdrop hjoin files => by
    rw [live_snoc]
    refine ⟨fun hcases => ?_, fun hold => Or.inr ⟨hold, fun names hop => absurd hop (hdrop names)⟩⟩
    rcases hcases with ⟨first, rest, hop, -⟩ | ⟨hold, -⟩
    · exact absurd hop (hjoin first rest)
    · exact hold
  have hread : ∀ {next}, Follows parent next → (∀ names, op ≠ .drop names) → (∀ first rest, op ≠ .join first rest) →
      Traced (history ++ [op]) next := fun {next} hfollows hdrop hjoin => by
    have hsame : Together (history ++ [op]) = Together history := by
      funext one other
      simp only [Together, hlive hdrop hjoin]
    refine ⟨fun name => ?_, hsame ▸ h.kernel.follows hfollows⟩
    simp only [hlive hdrop hjoin]
    rw [Parents.names, hfollows.1]
    exact h.names name
  cases op with
  | around names =>
      obtain ⟨next, files, haround, hfollows⟩ := around_spec h.kernel.forest names
      refine ⟨next, by rw [Op.step, haround]; rfl, hread hfollows (fun _ hop => ?_) fun _ _ hop => ?_⟩
      · cases hop
      · cases hop
  | groups =>
      obtain ⟨next, groups, hgroups, hfollows, -⟩ := groups_spec h.kernel.forest
      refine ⟨next, by rw [Op.step, hgroups]; rfl, hread hfollows (fun _ hop => ?_) fun _ _ hop => ?_⟩
      · cases hop
      · cases hop
  | join first rest =>
      obtain ⟨next, hjoin, hnames, hkernel⟩ := join_spec h.kernel first rest
      have hall : ∀ files, Live (history ++ [.join first rest]) files ↔ files = first :: rest ∨ Live history files := by
        intro files
        rw [live_snoc]
        constructor
        · rintro (⟨first', rest', hop, rfl⟩ | ⟨hold, -⟩)
          · cases hop
            exact Or.inl rfl
          · exact Or.inr hold
        · rintro (rfl | hold)
          · exact Or.inl ⟨first, rest, rfl, rfl⟩
          · refine Or.inr ⟨hold, fun names hop => ?_⟩
            cases hop
      have hsame : Together (history ++ [.join first rest]) =
          fun one other => Together history one other ∨ (one ∈ first :: rest ∧ other ∈ first :: rest) := by
        funext one other
        simp only [Together, hall, or_and_right, exists_or, exists_eq_left, eq_iff_iff]
        exact or_comm
      refine ⟨next, hjoin, fun name => ?_, hsame ▸ hkernel⟩
      simp only [hall, or_and_right, exists_or, exists_eq_left]
      rw [hnames, h.names]
  | drop names =>
      have hclosed := fun one other (hmeets : Same parent one other) => whole_closed h.kernel.forest hallowed hmeets
      have hfiles : ∀ {files name}, Live history files → name ∈ files → name ∉ names → ∀ other ∈ files, other ∉ names := by
        intro files name hold hname hout other hother hin
        have hmeets : Same parent name other := (h.kernel.same name other).mpr
          ⟨(h.names name).mpr ⟨files, hold, hname⟩, (h.names other).mpr ⟨files, hold, hother⟩,
            .rel _ _ ⟨files, hold, hname, hother⟩⟩
        exact hout ((hclosed name other hmeets).mpr hin)
      have hall : ∀ files, Live (history ++ [.drop names]) files ↔ Live history files ∧ ∀ name ∈ files, name ∉ names := by
        intro files
        rw [live_snoc]
        constructor
        · rintro (⟨first, rest, hop, -⟩ | ⟨hold, hout⟩)
          · cases hop
          · exact ⟨hold, hout names rfl⟩
        · rintro ⟨hold, hout⟩
          refine Or.inr ⟨hold, fun names' hop => ?_⟩
          cases hop
          exact hout
      have hsame : Together (history ++ [.drop names]) =
          fun one other => Together history one other ∧ one ∉ names ∧ other ∉ names := by
        funext one other
        rw [eq_iff_iff]
        simp only [Together, hall]
        constructor
        · rintro ⟨files, ⟨hold, hout⟩, hone, hother⟩
          exact ⟨⟨files, hold, hone, hother⟩, hout one hone, hout other hother⟩
        · rintro ⟨⟨files, hold, hone, hother⟩, hout, -⟩
          exact ⟨files, ⟨hold, hfiles hold hone hout⟩, hone, hother⟩
      refine ⟨parent.drop names, rfl, fun name => ?_, hsame ▸ h.kernel.taken hclosed⟩
      have hkey : name ∈ (parent.drop names).names ↔ name ∈ parent.names ∧ name ∉ names := by
        simp only [Parents.names, Parents.drop, List.mem_map, List.mem_filter, decide_eq_true_eq]
        constructor
        · rintro ⟨entry, ⟨hentry, hout⟩, rfl⟩
          exact ⟨⟨entry, hentry, rfl⟩, hout⟩
        · rintro ⟨⟨entry, hentry, rfl⟩, hout⟩
          exact ⟨entry, ⟨hentry, hout⟩, rfl⟩
      rw [hkey, h.names]
      simp only [hall]
      constructor
      · rintro ⟨⟨files, hold, hname⟩, hout⟩
        exact ⟨files, ⟨hold, hfiles hold hname hout⟩, hname⟩
      · rintro ⟨files, ⟨hold, hout⟩, hname⟩
        exact ⟨⟨files, hold, hname⟩, hout name hname⟩

theorem Traced.run (h : Traced history parent) {ops : List Op} (hdropped : Dropped parent ops = true) :
    ∃ last, components parent ops = some last ∧ Traced (history ++ ops) last := by
  induction ops generalizing history parent with
  | nil => exact ⟨parent, rfl, (List.append_nil history).symm ▸ h⟩
  | cons op ops ih =>
      rw [Dropped, Bool.and_eq_true] at hdropped
      obtain ⟨next, hstep, hnext⟩ := h.step hdropped.1
      rw [hstep] at hdropped
      obtain ⟨last, hlast, htraced⟩ := ih hnext hdropped.2
      rw [List.append_assoc] at htraced
      exact ⟨last, by rw [components, hstep]; exact hlast, htraced⟩

theorem traced_nil : Traced [] [] := by
  have hnone : ∀ files, ¬ Live [] files := by
    rintro files ⟨before, first, rest, after, hhistory, -⟩
    simp at hhistory
  refine ⟨fun name => ⟨fun hname => (List.not_mem_nil hname).elim, fun ⟨files, hlive, _⟩ => (hnone files hlive).elim⟩, ?_, ?_, ?_⟩
  · exact ⟨List.nodup_nil, fun name hname => (List.not_mem_nil hname).elim⟩
  · rintro one other ⟨files, hlive, -⟩
    exact (hnone files hlive).elim
  · exact fun one other => ⟨fun hmeets => (List.not_mem_nil hmeets.mem_keys).elim, fun h => (List.not_mem_nil h.1).elim⟩

/-- Whatever joins, reads and drops of whole components come one after the other, every operation and every `_root`
ends, the known files are those of the sets joined since their last drop, the groups part them, and two files are in one
group exactly when a chain of those sets connects them. -/
theorem components_connected (history : List Op) (hdropped : Dropped [] history = true) :
    ∃ parent, components [] history = some parent ∧
      (∀ name, name ∈ parent.names ↔ ∃ files, Live history files ∧ name ∈ files) ∧
      (∀ name ∈ parent.names, ∃ later top, parent.root name = some (later, top)) ∧
      ∃ later groups, parent.groups = some (later, groups) ∧
        (∀ group ∈ groups, group ≠ [] ∧ group.Nodup) ∧ groups.Pairwise List.Disjoint ∧
        (∀ name, name ∈ parent.names ↔ ∃ group ∈ groups, name ∈ group) ∧
        ∀ one ∈ parent.names, ∀ other ∈ parent.names,
          (∃ group ∈ groups, one ∈ group ∧ other ∈ group) ↔ Relation.EqvGen (Together history) one other := by
  obtain ⟨parent, hrun, htraced⟩ := traced_nil.run hdropped
  rw [List.nil_append] at htraced
  obtain ⟨later, groups, hgroups, -, hall, hdisjoint, hcovers⟩ := groups_spec htraced.kernel.forest
  refine ⟨parent, hrun, htraced.names, fun name hname => ?_, later, groups, hgroups, fun group hgroup => ?_, hdisjoint,
    fun name => ⟨hcovers name, ?_⟩, fun one hone other hother => ⟨?_, fun hgen => ?_⟩⟩
  · obtain ⟨last, top, hroot, -⟩ := root_spec htraced.kernel.forest hname
    exact ⟨last, top, hroot⟩
  · exact ⟨(hall group hgroup).1, (hall group hgroup).2.1⟩
  · rintro ⟨group, hgroup, hname⟩
    obtain ⟨-, -, top, htop⟩ := hall group hgroup
    obtain ⟨steps, hleads⟩ := (htop name).mp hname
    exact hleads.mem_keys
  · rintro ⟨group, hgroup, hleft, hright⟩
    obtain ⟨-, -, top, htop⟩ := hall group hgroup
    exact ((htraced.kernel.same one other).mp ⟨top, (htop one).mp hleft, (htop other).mp hright⟩).2.2
  · obtain ⟨top, ⟨steps, hleft⟩, hright⟩ := (htraced.kernel.same one other).mpr ⟨hone, hother, hgen⟩
    obtain ⟨group, hgroup, hin⟩ := hcovers one hone
    obtain ⟨-, -, top', htop⟩ := hall group hgroup
    obtain ⟨more, hleads⟩ := (htop one).mp hin
    obtain ⟨-, rfl⟩ := hleft.unique hleads
    exact ⟨group, hgroup, hin, (htop other).mpr hright⟩

/-- Files joined over several fixes, read, dropped whole and joined anew. -/
theorem connected_again : ∃ parent, components [] [.join "a.py" ["b.py"], .groups, .join "c.py" ["b.py"],
    .around ["a.py"], .drop ["a.py", "b.py", "c.py"], .join "a.py" []] = some parent ∧
      ∀ name, name ∈ parent.names ↔ ∃ files, Live [.join "a.py" ["b.py"], .groups, .join "c.py" ["b.py"],
        .around ["a.py"], .drop ["a.py", "b.py", "c.py"], .join "a.py" []] files ∧ name ∈ files := by
  obtain ⟨parent, hrun, hnames, -⟩ := components_connected [.join "a.py" ["b.py"], .groups, .join "c.py" ["b.py"],
    .around ["a.py"], .drop ["a.py", "b.py", "c.py"], .join "a.py" []] (by decide +kernel)
  exact ⟨parent, hrun, hnames⟩

end Histories

end Mainboard.Analysis.Fixing
