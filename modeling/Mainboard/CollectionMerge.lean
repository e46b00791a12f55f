import Mathlib.Data.List.Pairwise
import Mathlib.Data.List.Nodup
import Mainboard.Collecting

/-! A transfer merged into the center's lake. What the center holds at a path keeps the path; what the transfer brings
otherwise is kept at its path, and beside it where it differs. A transfer merged again changes nothing. -/

namespace Mainboard.Collection

open OrderedMap

variable {Digest : Type}

local instance lawfulPath : LawfulBEq Path := inferInstance

/-! ### Paths of a transfer -/

/-- A path strictly below a scope and not among its conflicts. -/
def Ordinary (scope path : Path) : Prop := ∃ name inside, name ≠ ".conflicts" ∧ path = scope ++ name :: inside

/-- An archive as a host packs it: its paths are ordinary, its members can be the files of one tree, and nothing is
both sent and named. -/
structure Plain (scope : Path) (archive : Archive Digest) : Prop where
  ordinary : ∀ path ∈ archive.members.map (·.1) ++ archive.held.map (·.1), Ordinary scope path
  apart : archive.members.Pairwise fun one other => clash one.1 other.1 = false
  once : (archive.members.map (·.1) ++ archive.held.map (·.1)).Nodup

theorem isPrefixOf_append (scope : Path) (one other : Path) :
    (scope ++ one).isPrefixOf (scope ++ other) = one.isPrefixOf other := by
  rw [Bool.eq_iff_iff, List.isPrefixOf_iff_prefix, List.isPrefixOf_iff_prefix, List.prefix_append_right_inj]

theorem clash_append (scope one other : Path) : clash (scope ++ one) (scope ++ other) = clash one other := by
  rw [clash, clash, isPrefixOf_append, isPrefixOf_append]

theorem clash_cons {first second : String} {one other : Path} (h : clash (first :: one) (second :: other)) :
    first = second ∧ clash one other := by
  rcases Bool.or_eq_true_iff.mp h with h | h <;> rw [List.isPrefixOf_iff_prefix, List.cons_prefix_cons] at h
  · exact ⟨h.1, Bool.or_eq_true_iff.mpr (Or.inl (List.isPrefixOf_iff_prefix.mpr h.2))⟩
  · exact ⟨h.1.symm, Bool.or_eq_true_iff.mpr (Or.inr (List.isPrefixOf_iff_prefix.mpr h.2))⟩

theorem clash_self (path : Path) : clash path path = true :=
  Bool.or_eq_true_iff.mpr (Or.inl (List.isPrefixOf_iff_prefix.mpr (List.prefix_refl path)))

theorem Ordinary.under {scope path : Path} (h : Ordinary scope path) : scope.isPrefixOf path := by
  obtain ⟨name, inside, -, rfl⟩ := h
  exact List.isPrefixOf_iff_prefix.mpr (List.prefix_append scope _)

section Plain

variable {scope : Path} {archive : Archive Digest}

theorem Plain.keys (hplain : Plain scope archive) : (archive.members.map (·.1)).Nodup :=
  (List.nodup_append.mp hplain.once).1

theorem Plain.named (hplain : Plain scope archive) : (archive.held.map (·.1)).Nodup :=
  (List.nodup_append.mp hplain.once).2.1

theorem Plain.sent_ne_named (hplain : Plain scope archive) {member : Path × Bytes} (hmember : member ∈ archive.members)
    {row : Path × Digest} (hrow : row ∈ archive.held) : member.1 ≠ row.1 :=
  (List.nodup_append.mp hplain.once).2.2 _ (List.mem_map_of_mem hmember) _ (List.mem_map_of_mem hrow)

theorem Plain.member (hplain : Plain scope archive) {member : Path × Bytes} (hmember : member ∈ archive.members) :
    Ordinary scope member.1 :=
  hplain.ordinary _ (List.mem_append_left _ (List.mem_map_of_mem hmember))

theorem Plain.row (hplain : Plain scope archive) {row : Path × Digest} (hrow : row ∈ archive.held) :
    Ordinary scope row.1 :=
  hplain.ordinary _ (List.mem_append_right _ (List.mem_map_of_mem hrow))

/-- Two members at one path are one. -/
theorem Plain.same (hplain : Plain scope archive) {one other : Path × Bytes} (hone : one ∈ archive.members)
    (hother : other ∈ archive.members) (hpath : one.1 = other.1) : one = other :=
  List.inj_on_of_nodup_map hplain.keys hone hother hpath

/-- Members whose paths clash are one. -/
theorem Plain.eq_of_clash (hplain : Plain scope archive) {one other : Path × Bytes} (hone : one ∈ archive.members)
    (hother : other ∈ archive.members) (hclash : clash one.1 other.1) : one = other := by
  by_contra hne
  have hsymm : Std.Symm fun first second : Path × Bytes => clash first.1 second.1 = false :=
    ⟨fun first second h => by rwa [clash, Bool.or_comm]⟩
  have hfar := hplain.apart.forall hone hother hne
  rw [hfar] at hclash
  cases hclash

end Plain

section Aside

variable (world : World Digest) {scope path other : Path} (digest offered : Digest)

theorem aside_append (inside : Path) :
    aside world scope (scope ++ inside) digest = scope ++ ".conflicts" :: world.short digest :: inside := by
  simp [aside]

theorem under_conflicts : (scope ++ [".conflicts"]).isPrefixOf (aside world scope path digest) :=
  List.isPrefixOf_iff_prefix.mpr ⟨world.short digest :: path.drop scope.length, by simp [aside]⟩

/-- A file kept aside is the tool's own only where it was at its path. -/
theorem own_aside (hpath : Ordinary scope path) : own (aside world scope path digest) = own path := by
  obtain ⟨name, inside, -, rfl⟩ := hpath
  have hconflicts : starts ".mb-" ".conflicts" = false := by decide
  rw [aside_append, own, own, List.any_append, List.any_append, List.any_cons, List.any_cons, hconflicts,
    world.digits, Bool.false_or, Bool.false_or]

/-- Two files kept aside are as far apart as at their own paths. -/
theorem clash_of_aside (hpath : Ordinary scope path) (hother : Ordinary scope other)
    (h : clash (aside world scope path digest) (aside world scope other offered)) : clash path other := by
  obtain ⟨name, inside, -, rfl⟩ := hpath
  obtain ⟨name', inside', -, rfl⟩ := hother
  rw [aside_append, aside_append, clash_append] at h
  rw [clash_append]
  exact (clash_cons (clash_cons h).2).2

theorem clash_aside (hpath : Ordinary scope path) (hother : Ordinary scope other) :
    clash path (aside world scope other digest) = false := by
  obtain ⟨name, inside, hname, rfl⟩ := hpath
  obtain ⟨name', inside', -, rfl⟩ := hother
  rw [aside_append, clash_append, Bool.eq_false_iff]
  exact fun h => hname (clash_cons h).1

theorem ne_aside (hpath : Ordinary scope path) (hother : Ordinary scope other) :
    path ≠ aside world scope other digest := fun heq => by
  have happart := clash_aside world digest hpath hother
  rw [← heq, clash_self] at happart
  cases happart

end Aside

/-- Members under the scope and apart from all that is staged are staged in their order. -/
theorem extract_apart {scope : Path} {members : List (Path × Bytes)} (staged : List (Path × Bytes))
    (hunder : ∀ member ∈ members, scope.isPrefixOf member.1)
    (hapart : (staged ++ members).Pairwise fun one other => clash one.1 other.1 = false) :
    extract scope staged members = .ok (staged ++ members) := by
  induction members generalizing staged with
  | nil => rw [extract, List.append_nil]
  | cons member members ih =>
      have hfree : ¬ (staged.any fun file => clash file.1 member.1) = true := fun hany => by
        obtain ⟨file, hfile, hclash⟩ := List.any_eq_true.mp hany
        have hfar := (List.pairwise_append.mp hapart).2.2 file hfile member List.mem_cons_self
        rw [hfar] at hclash
        cases hclash
      have hhead := hunder member List.mem_cons_self
      rw [extract, if_neg (by simp [hhead]), if_neg hfree, ih _ (fun other hother => hunder other (List.mem_cons_of_mem _ hother))]
      · rw [List.append_assoc, List.singleton_append]
      · rwa [List.append_assoc, List.singleton_append]

/-! ### Where a file lands -/

/-- The digest the center holds at a path of the scope is read off the rows of the scope. -/
theorem get_kept (lake : Lake Digest) {scope path : Path} (h : scope.isPrefixOf path) :
    get (lake.kept scope) path = get lake.index path :=
  (get_filter lake.index scope.isPrefixOf path).trans (if_pos h)

variable [DecidableEq Digest]

/-- Whether the center holds nothing at a path, or these very bytes. -/
def agrees (world : World Digest) (tree : List (Path × Bytes)) (kept : List (Path × Digest)) (path : Path)
    (digest : Digest) : Bool :=
  (expected world tree kept path).all (· = digest)

/-- Where a file of a transfer is kept. -/
def landing (world : World Digest) (tree : List (Path × Bytes)) (kept : List (Path × Digest)) (scope path : Path)
    (digest : Digest) : Path :=
  if agrees world tree kept path digest then path else aside world scope path digest

theorem own_landing (world : World Digest) (tree : List (Path × Bytes)) (kept : List (Path × Digest))
    {scope path : Path} (digest : Digest) (hpath : Ordinary scope path) :
    own (landing world tree kept scope path digest) = own path := by
  rw [landing]
  split
  · rfl
  · exact own_aside world digest hpath

/-- The names of a transfer that are indexed. -/
def adopted (world : World Digest) (tree : List (Path × Bytes)) (kept held : List (Path × Digest)) :
    List (Path × Digest) :=
  held.filter fun row => agrees world tree kept row.1 row.2

/-- A transfer's files in staging, each where it lands. -/
structure Staged (world : World Digest) (tree : List (Path × Bytes)) (kept : List (Path × Digest)) (scope : Path)
    (members staged : List (Path × Bytes)) : Prop where
  keys : (staged.map (·.1)).Nodup
  files : ∀ file, file ∈ staged ↔ ∃ member ∈ members, file.2 = member.2 ∧
    file.1 = landing world tree kept scope member.1 (world.hash member.2)

section Divert

variable {world : World Digest} {tree : List (Path × Bytes)} {kept : List (Path × Digest)} {scope : Path}
  {archive : Archive Digest}

variable (tree kept) in
theorem diverging_of_offered {held : List (Path × Digest)} {staged : List (Path × Bytes)} {path : Path} {digest : Digest}
    (h : offered world held staged path = some digest) :
    diverging world tree kept held staged path = if agrees world tree kept path digest then none else some digest := by
  rw [diverging, h, agrees]
  cases expected world tree kept path with
  | none => rfl
  | some here =>
      by_cases hsame : here = digest
      · simp [hsame]
      · simp [hsame, Ne.symm hsame]

/-- The transfer after some of its paths: each of their files has moved where it lands, and their names are dropped
where they diverge. -/
structure Diverted (world : World Digest) (tree : List (Path × Bytes)) (kept : List (Path × Digest)) (scope : Path)
    (archive : Archive Digest) (settled : List Path) (staged : List (Path × Bytes)) (remaining : List (Path × Digest)) :
    Prop where
  keys : (staged.map (·.1)).Nodup
  files : ∀ file, file ∈ staged ↔ ∃ member ∈ archive.members, file.2 = member.2 ∧ file.1 =
    if member.1 ∈ settled then landing world tree kept scope member.1 (world.hash member.2) else member.1
  names : remaining = archive.held.filter fun row => row.1 ∉ settled || agrees world tree kept row.1 row.2

variable {settled : List Path} {staged : List (Path × Bytes)} {remaining : List (Path × Digest)}

/-- A file that agrees, or a name, leaves staging as it is. -/
theorem Diverted.rest (h : Diverted world tree kept scope archive settled staged remaining) {path : Path}
    (hstays : ∀ member ∈ archive.members, member.1 = path →
      landing world tree kept scope member.1 (world.hash member.2) = member.1)
    {remaining' : List (Path × Digest)}
    (hnames : remaining' =
      archive.held.filter fun row => row.1 ∉ settled ++ [path] || agrees world tree kept row.1 row.2) :
    Diverted world tree kept scope archive (settled ++ [path]) staged remaining' where
  keys := h.keys
  files file := by
    rw [h.files]
    refine exists_congr fun member => and_congr_right fun hmember => ?_
    by_cases hpath : member.1 = path
    · simp [hstays member hmember hpath]
    · simp [hpath]
  names := hnames

/-- Dropping a path's name, where it diverges. -/
theorem Diverted.names_drop (h : Diverted world tree kept scope archive settled staged remaining) {path : Path}
    (hdiverges : ∀ row ∈ archive.held, row.1 = path → agrees world tree kept row.1 row.2 = false) :
    (remaining.filter (·.1 ≠ path)) =
      archive.held.filter fun row => row.1 ∉ settled ++ [path] || agrees world tree kept row.1 row.2 := by
  rw [h.names, List.filter_filter]
  refine List.filter_congr fun row hrow => ?_
  by_cases hpath : row.1 = path
  · have hagrees := hdiverges row hrow hpath
    simp [hpath] at hagrees ⊢
    simp [hagrees]
  · simp [hpath]

/-- Keeping a path's name, where it agrees. -/
theorem Diverted.names_keep (h : Diverted world tree kept scope archive settled staged remaining) {path : Path}
    (hagrees : ∀ row ∈ archive.held, row.1 = path → agrees world tree kept row.1 row.2 = true) :
    remaining =
      archive.held.filter fun row => row.1 ∉ settled ++ [path] || agrees world tree kept row.1 row.2 := by
  rw [h.names]
  refine List.filter_congr fun row hrow => ?_
  by_cases hpath : row.1 = path
  · have hsame := hagrees row hrow hpath
    simp [hsame]
  · simp [hpath]

/-- A staged file stands at its own path or aside. -/
theorem Diverted.place (h : Diverted world tree kept scope archive settled staged remaining) {file : Path × Bytes}
    (hfile : file ∈ staged) : ∃ member ∈ archive.members, file.1 = member.1 ∨
      member.1 ∈ settled ∧ file.1 = aside world scope member.1 (world.hash member.2) := by
  obtain ⟨member, hmember, -, hplace⟩ := (h.files file).mp hfile
  refine ⟨member, hmember, ?_⟩
  by_cases hsettled : member.1 ∈ settled
  · rw [if_pos hsettled, landing] at hplace
    split at hplace
    · exact Or.inl hplace
    · exact Or.inr ⟨hsettled, hplace⟩
  · rw [if_neg hsettled] at hplace
    exact Or.inl hplace

/-- Nothing staged is in the way of a member that moves aside. -/
theorem Diverted.apart (hplain : Plain scope archive)
    (h : Diverted world tree kept scope archive settled staged remaining) {member : Path × Bytes}
    (hmember : member ∈ archive.members) (hnew : member.1 ∉ settled) (digest : Digest) {file : Path × Bytes}
    (hfile : file ∈ staged) : clash file.1 (aside world scope member.1 digest) = false := by
  obtain ⟨other, hother, hstill | ⟨hsettled, haside⟩⟩ := h.place hfile
  · rw [hstill]
    exact clash_aside world digest (hplain.member hother) (hplain.member hmember)
  · rw [haside, Bool.eq_false_iff]
    intro hclash
    have hsame := hplain.eq_of_clash hother hmember
      (clash_of_aside world _ _ (hplain.member hother) (hplain.member hmember) hclash)
    exact hnew (hsame ▸ hsettled)

/-- A member where the center holds other bytes moves aside. -/
theorem Diverted.move (hplain : Plain scope archive)
    (h : Diverted world tree kept scope archive settled staged remaining) {member : Path × Bytes}
    (hmember : member ∈ archive.members) (hnew : member.1 ∉ settled)
    (hagrees : agrees world tree kept member.1 (world.hash member.2) = false) {remaining' : List (Path × Digest)}
    (hnames : remaining' =
      archive.held.filter fun row => row.1 ∉ settled ++ [member.1] || agrees world tree kept row.1 row.2) :
    Diverted world tree kept scope archive (settled ++ [member.1])
      (put (staged.filter (·.1 ≠ member.1)) (aside world scope member.1 (world.hash member.2)) member.2) remaining' := by
  have hfree : aside world scope member.1 (world.hash member.2) ∉
      (staged.filter (·.1 ≠ member.1)).map (·.1) := fun hmem => by
    obtain ⟨file, hfile, hplace⟩ := List.mem_map.mp hmem
    have hfar := h.apart hplain hmember hnew (world.hash member.2) (List.mem_filter.mp hfile).1
    rw [← hplace, clash_self] at hfar
    cases hfar
  have hkeys : ((staged.filter (·.1 ≠ member.1)).map (·.1)).Nodup :=
    (h.keys.sublist (List.filter_sublist.map _))
  refine ⟨nodup_keys_put hkeys _ _, fun file => ?_, hnames⟩
  rw [put_of_not_mem hfree, List.mem_append, List.mem_filter, h.files, List.mem_singleton]
  constructor
  · rintro (⟨⟨other, hother, hbytes, hplace⟩, helse⟩ | rfl)
    · refine ⟨other, hother, hbytes, ?_⟩
      have hne : other.1 ≠ member.1 := fun hsame => by
        rw [hsame, if_neg hnew] at hplace
        simp [hplace] at helse
      simpa [hne] using hplace
    · refine ⟨member, hmember, rfl, ?_⟩
      simp [landing, hagrees]
  · rintro ⟨other, hother, hbytes, hplace⟩
    by_cases hsame : other = member
    · refine Or.inr (Prod.ext ?_ (hsame ▸ hbytes))
      rw [hplace, hsame]
      simp [landing, hagrees]
    · have hne : other.1 ≠ member.1 := fun hpath => hsame (hplain.same hother hmember hpath)
      have hstill : file.1 =
          if other.1 ∈ settled then landing world tree kept scope other.1 (world.hash other.2) else other.1 := by
        simpa [hne] using hplace
      refine Or.inl ⟨⟨other, hother, hbytes, hstill⟩, ?_⟩
      rw [decide_eq_true_eq]
      intro hpath
      rw [hpath] at hstill
      split at hstill
      · rw [landing] at hstill
        split at hstill
        · exact hne hstill.symm
        · exact ne_aside world _ (hplain.member hmember) (hplain.member hother) hstill
      · exact hne hstill.symm

/-- One path of a plain transfer: its file moves where it lands, its name is dropped where it diverges. -/
theorem Diverted.step (hplain : Plain scope archive)
    (h : Diverted world tree kept scope archive settled staged remaining) {path : Path} (hnew : path ∉ settled)
    (hpath : path ∈ archive.members.map (·.1) ++ archive.held.map (·.1)) :
    ∃ staged' remaining', divertOne world tree kept archive scope staged remaining path = .ok (staged', remaining') ∧
      Diverted world tree kept scope archive (settled ++ [path]) staged' remaining' := by
  rcases List.mem_append.mp hpath with hsent | hnamed
  · obtain ⟨member, hmember, rfl⟩ := List.mem_map.mp hsent
    have hunnamed : ∀ row ∈ archive.held, row.1 ≠ member.1 := fun row hrow => (hplain.sent_ne_named hmember hrow).symm
    have hheld : get archive.held member.1 = none := (get_eq_none_iff _ _).mpr fun hmem => by
      obtain ⟨row, hrow, hsame⟩ := List.mem_map.mp hmem
      exact hunnamed row hrow hsame
    have hstaged : get staged member.1 = some member.2 :=
      get_of_mem h.keys ((h.files (member.1, member.2)).mpr ⟨member, hmember, rfl, (if_neg hnew).symm⟩)
    have hoffered : offered world archive.held staged member.1 = some (world.hash member.2) := by
      rw [offered, hheld, hstaged]
      rfl
    have hdiverging := diverging_of_offered tree kept hoffered
    cases hagrees : agrees world tree kept member.1 (world.hash member.2) with
    | true =>
        rw [if_pos hagrees] at hdiverging
        refine ⟨staged, remaining, by rw [divertOne, hdiverging], h.rest (fun other hother hsame => ?_) ?_⟩
        · rw [hplain.same hother hmember hsame, landing, if_pos hagrees]
        · exact h.names_keep fun row hrow hsame => absurd hsame (hunnamed row hrow)
    | false =>
        rw [if_neg (Bool.eq_false_iff.mp hagrees)] at hdiverging
        have hmember' : (get archive.members member.1).isNone = false := by
          rw [get_of_mem hplain.keys hmember]
          rfl
        have hfree : (staged.any fun file => file.1 ≠ aside world scope member.1 (world.hash member.2) &&
            clash file.1 (aside world scope member.1 (world.hash member.2))) = false := by
          rw [List.any_eq_false]
          intro file hfile
          rw [h.apart hplain hmember hnew (world.hash member.2) hfile, Bool.and_false]
          exact Bool.false_ne_true
        refine ⟨_, remaining.filter (·.1 ≠ member.1), ?_, h.move hplain hmember hnew hagrees ?_⟩
        · rw [divertOne, hdiverging]
          simp only [hmember', hstaged, hfree, Bool.false_eq_true, if_false]
        · exact h.names_drop fun row hrow hsame => absurd hsame (hunnamed row hrow)
  · obtain ⟨row, hrow, rfl⟩ := List.mem_map.mp hnamed
    have hunsent : ∀ member ∈ archive.members, member.1 ≠ row.1 := fun member hmember => hplain.sent_ne_named hmember hrow
    have hsame : ∀ other ∈ archive.held, other.1 = row.1 → other = row :=
      fun other hother hpath => List.inj_on_of_nodup_map hplain.named hother hrow hpath
    have hoffered : offered world archive.held staged row.1 = some row.2 := by
      rw [offered, get_of_mem hplain.named hrow]
      rfl
    have hdiverging := diverging_of_offered tree kept hoffered
    cases hagrees : agrees world tree kept row.1 row.2 with
    | true =>
        rw [if_pos hagrees] at hdiverging
        refine ⟨staged, remaining, by rw [divertOne, hdiverging], h.rest (fun other hother hpath => ?_) ?_⟩
        · exact absurd hpath (hunsent other hother)
        · exact h.names_keep fun other hother hpath => hsame other hother hpath ▸ hagrees
    | false =>
        rw [if_neg (Bool.eq_false_iff.mp hagrees)] at hdiverging
        have hnone : (get archive.members row.1).isNone = true := by
          rw [Option.isNone_iff_eq_none, get_eq_none_iff]
          rintro hmem
          obtain ⟨member, hmember, hpath⟩ := List.mem_map.mp hmem
          exact hunsent member hmember hpath
        refine ⟨staged, remaining.filter (·.1 ≠ row.1), by rw [divertOne, hdiverging]; exact if_pos hnone,
          h.rest (fun other hother hpath => ?_) ?_⟩
        · exact absurd hpath (hunsent other hother)
        · exact h.names_drop fun other hother hpath => hsame other hother hpath ▸ hagrees

/-- Every path of a plain transfer in turn. -/
theorem Diverted.run (hplain : Plain scope archive) {paths : List Path}
    (h : Diverted world tree kept scope archive settled staged remaining) (hnodup : (settled ++ paths).Nodup)
    (hpaths : ∀ path ∈ paths, path ∈ archive.members.map (·.1) ++ archive.held.map (·.1)) :
    ∃ staged' remaining', divert world tree kept archive scope staged remaining paths = .ok (staged', remaining') ∧
      Diverted world tree kept scope archive (settled ++ paths) staged' remaining' := by
  induction paths generalizing settled staged remaining with
  | nil => exact ⟨staged, remaining, rfl, by rwa [List.append_nil]⟩
  | cons path paths ih =>
      have hnew : path ∉ settled := fun hmem =>
        (List.nodup_append.mp hnodup).2.2 path hmem path List.mem_cons_self rfl
      obtain ⟨staged₁, remaining₁, hone, hstep⟩ := h.step hplain hnew (hpaths path List.mem_cons_self)
      have hassoc : settled ++ [path] ++ paths = settled ++ path :: paths := by simp
      obtain ⟨staged₂, remaining₂, hrest, hrun⟩ := ih hstep (hassoc ▸ hnodup)
        fun other hother => hpaths other (List.mem_cons_of_mem _ hother)
      exact ⟨staged₂, remaining₂, by rw [divert, hone]; exact hrest, hassoc ▸ hrun⟩

variable (world tree kept) in
/-- A plain transfer taken apart: each file where it lands, and the names that agree. -/
theorem divert_spec (hplain : Plain scope archive) :
    ∃ staged, divert world tree kept archive scope archive.members archive.held
        (archive.members.map (·.1) ++ archive.held.map (·.1)) = .ok (staged, adopted world tree kept archive.held) ∧
      Staged world tree kept scope archive.members staged := by
  have hstart : Diverted world tree kept scope archive [] archive.members archive.held := by
    refine ⟨hplain.keys, fun file => ?_, ?_⟩
    · constructor
      · exact fun hfile => ⟨file, hfile, rfl, by simp⟩
      · rintro ⟨member, hmember, hbytes, hplace⟩
        have hfile : file = member := Prod.ext (by simpa using hplace) hbytes
        exact hfile ▸ hmember
    · rw [List.filter_eq_self.mpr]
      simp
  obtain ⟨staged, remaining, hdivert, hdone⟩ := hstart.run hplain (by simpa using hplain.once) fun _ h => h
  refine ⟨staged, ?_, hdone.keys, fun file => ?_⟩
  · rw [hdivert, hdone.names, adopted]
    refine congrArg (fun names => Except.ok (staged, names)) (List.filter_congr fun row hrow => ?_)
    have hin : row.1 ∈ [] ++ (archive.members.map (·.1) ++ archive.held.map (·.1)) :=
      List.mem_append_right _ (List.mem_append_right _ (List.mem_map_of_mem hrow))
    rw [decide_eq_false (not_not.mpr hin), Bool.false_or]
  · rw [hdone.files]
    refine exists_congr fun member => and_congr_right fun hmember => ?_
    have hin : member.1 ∈ [] ++ (archive.members.map (·.1) ++ archive.held.map (·.1)) :=
      List.mem_append_right _ (List.mem_append_left _ (List.mem_map_of_mem hmember))
    rw [if_pos hin]

end Divert

/-! ### What is kept -/

section Keep

variable {world : World Digest} {lake : Lake Digest}

theorem holds_iff {digest : Digest} :
    lake.holds world digest = true ↔ ∃ bytes, get lake.objects digest = some bytes ∧ world.hash bytes = digest := by
  rw [Lake.holds, Option.any_eq_true]
  exact exists_congr fun bytes => and_congr_right fun _ => beq_iff_eq

/-- An object held whole is never written again. -/
theorem keep_object {digest : Digest} (h : lake.holds world digest = true) (file : Path × Bytes) :
    get (lake.keep world file).objects digest = get lake.objects digest := by
  rw [Lake.keep]
  split
  · rfl
  · rename_i hnew
    rw [get_put, if_neg]
    intro hsame
    rw [hsame] at hnew
    exact hnew h

theorem keep_holds (file : Path × Bytes) (digest : Digest) :
    (lake.keep world file).holds world digest = true ↔ lake.holds world digest = true ∨ world.hash file.2 = digest := by
  constructor
  · intro h
    by_cases hsame : world.hash file.2 = digest
    · exact Or.inr hsame
    · obtain ⟨bytes, hget, hhash⟩ := holds_iff.mp h
      refine Or.inl (holds_iff.mpr ⟨bytes, ?_, hhash⟩)
      rw [Lake.keep] at hget
      split at hget
      · exact hget
      · rwa [get_put, if_neg hsame] at hget
  · rintro (h | rfl)
    · obtain ⟨bytes, hget, hhash⟩ := holds_iff.mp h
      exact holds_iff.mpr ⟨bytes, (keep_object h file).trans hget, hhash⟩
    · by_cases hold : lake.holds world (world.hash file.2) = true
      · obtain ⟨bytes, hget, hhash⟩ := holds_iff.mp hold
        exact holds_iff.mpr ⟨bytes, (keep_object hold file).trans hget, hhash⟩
      · refine holds_iff.mpr ⟨file.2, ?_, rfl⟩
        rw [Lake.keep, if_neg hold, get_put, if_pos rfl]

theorem ingest_cons (lake : Lake Digest) (file : Path × Bytes) (staged : List (Path × Bytes)) :
    lake.ingest world (file :: staged) =
      if own file.1 then lake.ingest world staged else (lake.keep world file).ingest world staged := by
  cases hown : own file.1 <;> simp [Lake.ingest, hown]

theorem ingest_holds (staged : List (Path × Bytes)) (digest : Digest) :
    (lake.ingest world staged).holds world digest = true ↔
      lake.holds world digest = true ∨ ∃ file ∈ staged, own file.1 = false ∧ world.hash file.2 = digest := by
  induction staged generalizing lake with
  | nil => simp [Lake.ingest]
  | cons file staged ih =>
      rw [ingest_cons]
      cases hown : own file.1 with
      | true => simp [ih, hown]
      | false =>
          rw [if_neg Bool.false_ne_true, ih, keep_holds, or_assoc]
          simp only [List.mem_cons, exists_eq_or_imp, hown, true_and]

/-- The rows of what is kept of a staging. -/
def rows (world : World Digest) (staged : List (Path × Bytes)) : List (Path × Digest) :=
  (staged.filter fun file => !own file.1).map fun file => (file.1, world.hash file.2)

omit [DecidableEq Digest] in
theorem mem_rows {staged : List (Path × Bytes)} {row : Path × Digest} :
    row ∈ rows world staged ↔ ∃ file ∈ staged, own file.1 = false ∧ (file.1, world.hash file.2) = row := by
  simp only [rows, List.mem_map, List.mem_filter, Bool.not_eq_true', and_assoc]

omit [DecidableEq Digest] in
theorem rows_keys {staged : List (Path × Bytes)} (h : (staged.map (·.1)).Nodup) :
    ((rows world staged).map (·.1)).Nodup := by
  have hkeys : (rows world staged).map (·.1) = (staged.filter fun file => !own file.1).map (·.1) := by simp [rows]
  rw [hkeys]
  exact h.sublist (List.filter_sublist.map _)

theorem ingest_index (staged : List (Path × Bytes)) :
    (lake.ingest world staged).index = putAll lake.index (rows world staged) := by
  induction staged generalizing lake with
  | nil => rfl
  | cons file staged ih =>
      rw [ingest_cons]
      cases hown : own file.1 with
      | true => rw [if_pos rfl, ih, rows, rows, List.filter_cons_of_neg (by simp [hown])]
      | false =>
          rw [if_neg Bool.false_ne_true, ih, rows, rows, List.filter_cons_of_pos (by simp [hown])]
          rfl

/-- A row the lake can adopt: its object is indexed somewhere and held whole. -/
def Lake.stocks (world : World Digest) (lake : Lake Digest) (digest : Digest) : Bool :=
  decide (digest ∈ lake.index.map (·.2)) && lake.holds world digest

theorem adopt_cases (world : World Digest) (lake : Lake Digest) (named : List (Path × Digest)) :
    (lake.adopt world named = .ok { lake with index := putAll lake.index named } ∧
      ∀ row ∈ named, lake.stocks world row.2 = true) ∨
    ∃ row ∈ named, lake.adopt world named = .error (.lost row.1) ∧ lake.stocks world row.2 = false := by
  rw [Lake.adopt]
  cases hfind : named.find? fun row => !(decide (row.2 ∈ lake.index.map (·.2)) && lake.holds world row.2) with
  | none =>
      refine Or.inl ⟨rfl, fun row hrow => ?_⟩
      have hpasses := List.find?_eq_none.mp hfind row hrow
      rwa [Bool.not_eq_true', Bool.not_eq_false] at hpasses
  | some row =>
      refine Or.inr ⟨row, List.mem_of_find?_eq_some hfind, rfl, ?_⟩
      have hfails := List.find?_some hfind
      rwa [Bool.not_eq_true'] at hfails

end Keep

/-! ### A transfer merged -/

section Merge

variable {world : World Digest} {tree : List (Path × Bytes)} {lake : Lake Digest} {scope : Path}
  {archive : Archive Digest}

theorem agrees_kept {path : Path} (h : scope.isPrefixOf path) (digest : Digest) :
    agrees world tree (lake.kept scope) path digest = agrees world tree lake.index path digest := by
  rw [agrees, agrees, expected, expected, get_kept lake h]

theorem landing_kept {path : Path} (h : scope.isPrefixOf path) (digest : Digest) :
    landing world tree (lake.kept scope) scope path digest = landing world tree lake.index scope path digest := by
  rw [landing, landing, agrees_kept h]

variable (world tree lake) in
/-- A plain transfer is never refused as it is taken apart. -/
theorem merge_plain (hplain : Plain scope archive) :
    ∃ staged, Staged world tree lake.index scope archive.members staged ∧
      merge world tree lake scope archive =
        match (lake.ingest world staged).adopt world (adopted world tree lake.index archive.held) with
        | .error fault => (lake.ingest world staged, some fault)
        | .ok lake' => (lake', if archive.more then some .more else none) := by
  have hextract : extract scope [] archive.members = .ok archive.members :=
    extract_apart [] (fun member hmember => (hplain.member hmember).under) (by simpa using hplain.apart)
  have hheld : archive.held.find? (fun row => !scope.isPrefixOf row.1) = none :=
    List.find?_eq_none.mpr fun row hrow => by simp [(hplain.row hrow).under]
  obtain ⟨staged, hdivert, hstaged⟩ := divert_spec world tree (lake.kept scope) hplain
  have hadopted : adopted world tree (lake.kept scope) archive.held = adopted world tree lake.index archive.held :=
    List.filter_congr fun row hrow => agrees_kept (hplain.row hrow).under row.2
  refine ⟨staged, ⟨hstaged.keys, fun file => ?_⟩, ?_⟩
  · rw [hstaged.files]
    refine exists_congr fun member => and_congr_right fun hmember => ?_
    rw [landing_kept (hplain.member hmember).under]
  · rw [merge, hextract]
    cases hadopt : (lake.ingest world staged).adopt world (adopted world tree lake.index archive.held) <;>
      simp only [hheld, hdivert, hadopted, hadopt]

section Staged

variable {staged : List (Path × Bytes)} (hstaged : Staged world tree lake.index scope archive.members staged)
include hstaged

/-- What a transfer brings is indexed where it lands. -/
theorem Staged.lands (hplain : Plain scope archive) {member : Path × Bytes} (hmember : member ∈ archive.members)
    (hkept : own member.1 = false) :
    get (lake.ingest world staged).index (landing world tree lake.index scope member.1 (world.hash member.2)) =
      some (world.hash member.2) := by
  have hkeys : ((rows world staged).map (·.1)).Nodup := rows_keys hstaged.keys
  have hrow : (landing world tree lake.index scope member.1 (world.hash member.2), world.hash member.2) ∈
      rows world staged :=
    mem_rows.mpr ⟨(landing world tree lake.index scope member.1 (world.hash member.2), member.2),
      (hstaged.files _).mpr ⟨member, hmember, rfl, rfl⟩,
      (own_landing world tree lake.index _ (hplain.member hmember)).trans hkept, rfl⟩
  rw [ingest_index, get_putAll hkeys, get_of_mem hkeys hrow]
  rfl

/-- Nothing else is indexed. -/
theorem Staged.spares (hplain : Plain scope archive) {path : Path}
    (hpath : ∀ member ∈ archive.members, own member.1 = false →
      path ≠ landing world tree lake.index scope member.1 (world.hash member.2)) :
    get (lake.ingest world staged).index path = get lake.index path := by
  have hnone : get (rows world staged) path = none := by
    rw [get_eq_none_iff]
    intro hmem
    obtain ⟨row, hrow, hplace⟩ := List.mem_map.mp hmem
    obtain ⟨file, hfile, hown, rfl⟩ := mem_rows.mp hrow
    obtain ⟨member, hmember, -, hlands⟩ := (hstaged.files file).mp hfile
    rw [hlands, own_landing world tree lake.index _ (hplain.member hmember)] at hown
    exact hpath member hmember hown (hplace.symm.trans hlands)
  rw [ingest_index, get_putAll (rows_keys hstaged.keys), hnone]
  rfl

theorem Staged.holds (hplain : Plain scope archive) (digest : Digest) :
    (lake.ingest world staged).holds world digest = true ↔
      lake.holds world digest = true ∨
        ∃ member ∈ archive.members, own member.1 = false ∧ world.hash member.2 = digest := by
  rw [ingest_holds]
  refine or_congr Iff.rfl ⟨?_, ?_⟩
  · rintro ⟨file, hfile, hown, rfl⟩
    obtain ⟨member, hmember, hbytes, hlands⟩ := (hstaged.files file).mp hfile
    rw [hlands, own_landing world tree lake.index _ (hplain.member hmember)] at hown
    exact ⟨member, hmember, hown, by rw [hbytes]⟩
  · rintro ⟨member, hmember, hown, rfl⟩
    exact ⟨(landing world tree lake.index scope member.1 (world.hash member.2), member.2),
      (hstaged.files _).mpr ⟨member, hmember, rfl, rfl⟩,
      (own_landing world tree lake.index _ (hplain.member hmember)).trans hown, rfl⟩

end Staged

theorem adopted_keys (hplain : Plain scope archive) :
    ((adopted world tree lake.index archive.held).map (·.1)).Nodup :=
  hplain.named.sublist (List.filter_sublist.map _)

variable (world tree lake) in
/-- The two ways a plain transfer ends: every name that agrees is indexed, or one of them is lost. -/
theorem merge_cases (hplain : Plain scope archive) :
    ∃ staged, Staged world tree lake.index scope archive.members staged ∧
      ((merge world tree lake scope archive =
          ({ lake.ingest world staged with
              index := putAll (lake.ingest world staged).index (adopted world tree lake.index archive.held) },
            if archive.more then some .more else none) ∧
        ∀ row ∈ adopted world tree lake.index archive.held, (lake.ingest world staged).stocks world row.2 = true) ∨
      ∃ row ∈ adopted world tree lake.index archive.held,
        merge world tree lake scope archive = (lake.ingest world staged, some (.lost row.1)) ∧
          (lake.ingest world staged).stocks world row.2 = false) := by
  obtain ⟨staged, hstaged, hmerge⟩ := merge_plain world tree lake hplain
  refine ⟨staged, hstaged, ?_⟩
  rcases adopt_cases world (lake.ingest world staged) (adopted world tree lake.index archive.held) with
    ⟨hadopt, hstocks⟩ | ⟨row, hrow, hadopt, hlost⟩
  · rw [hadopt] at hmerge
    exact Or.inl ⟨hmerge, hstocks⟩
  · rw [hadopt] at hmerge
    exact Or.inr ⟨row, hrow, hmerge, hlost⟩

variable (world tree lake) in
/-- What is indexed at a path once a plain transfer is merged. -/
theorem merge_lookup (hplain : Plain scope archive) (path : Path) :
    (∃ member ∈ archive.members, path = landing world tree lake.index scope member.1 (world.hash member.2) ∧
      get (merge world tree lake scope archive).1.index path = some (world.hash member.2)) ∨
    (∃ row ∈ adopted world tree lake.index archive.held, path = row.1 ∧
      get (merge world tree lake scope archive).1.index path = some row.2) ∨
    get (merge world tree lake scope archive).1.index path = get lake.index path := by
  obtain ⟨staged, hstaged, hends⟩ := merge_cases world tree lake hplain
  have hlookup : (∃ row ∈ adopted world tree lake.index archive.held, path = row.1 ∧
        get (merge world tree lake scope archive).1.index path = some row.2) ∨
      get (merge world tree lake scope archive).1.index path = get (lake.ingest world staged).index path := by
    rcases hends with ⟨hmerge, -⟩ | ⟨row, hrow, hmerge, -⟩
    · rw [hmerge, get_putAll (adopted_keys hplain)]
      cases hget : get (adopted world tree lake.index archive.held) path with
      | none => exact Or.inr rfl
      | some digest => exact Or.inl ⟨_, mem_of_get hget, rfl, rfl⟩
    · rw [hmerge]
      exact Or.inr rfl
  rcases hlookup with hrow | hsame
  · exact Or.inr (Or.inl hrow)
  · by_cases hlands : ∃ member ∈ archive.members, own member.1 = false ∧
        path = landing world tree lake.index scope member.1 (world.hash member.2)
    · obtain ⟨member, hmember, hkept, hplace⟩ := hlands
      exact Or.inl ⟨member, hmember, hplace, by rw [hsame, hplace, hstaged.lands hplain hmember hkept]⟩
    · refine Or.inr (Or.inr (hsame.trans (hstaged.spares hplain fun member hmember hkept hplace => ?_)))
      exact hlands ⟨member, hmember, hkept, hplace⟩

/-- A file lands at its path, or among the conflicts of the scope. -/
theorem landing_cases (world : World Digest) (tree : List (Path × Bytes)) (kept : List (Path × Digest))
    (scope path : Path) (digest : Digest) :
    (landing world tree kept scope path digest = path ∧ agrees world tree kept path digest = true) ∨
      landing world tree kept scope path digest = aside world scope path digest := by
  rw [landing]
  split
  · rename_i hagrees
    exact Or.inl ⟨rfl, hagrees⟩
  · exact Or.inr rfl

theorem merge_keeps (hplain : Plain scope archive) {path : Path} {here : Digest}
    (hpath : ¬ (scope ++ [".conflicts"]).isPrefixOf path) (hhere : expected world tree lake.index path = some here) :
    expected world tree (merge world tree lake scope archive).1.index path = some here := by
  rw [expected] at hhere ⊢
  cases htree : get tree path with
  | some bytes => rwa [htree] at hhere
  | none =>
      rw [htree] at hhere
      rcases merge_lookup world tree lake hplain path with
        ⟨member, hmember, hplace, hget⟩ | ⟨row, hrow, hplace, hget⟩ | hget
      · rcases landing_cases world tree lake.index scope member.1 (world.hash member.2) with ⟨hstays, hagrees⟩ | haside
        · rw [agrees, expected, ← hplace.trans hstays, htree, hhere] at hagrees
          exact hget.trans (congrArg some (of_decide_eq_true hagrees).symm)
        · exact absurd (hplace ▸ haside ▸ under_conflicts world _) hpath
      · have hagrees := (List.mem_filter.mp hrow).2
        rw [agrees, expected, ← hplace, htree, hhere] at hagrees
        exact hget.trans (congrArg some (of_decide_eq_true hagrees).symm)
      · exact hget.trans hhere

theorem merge_holds (hplain : Plain scope archive) (digest : Digest) :
    (merge world tree lake scope archive).1.holds world digest = true ↔
      lake.holds world digest = true ∨
        ∃ member ∈ archive.members, own member.1 = false ∧ world.hash member.2 = digest := by
  obtain ⟨staged, hstaged, ⟨hmerge, -⟩ | ⟨row, -, hmerge, -⟩⟩ :=
    merge_cases world tree lake hplain <;> rw [hmerge, ← hstaged.holds hplain digest]
  rfl

end Merge

/-- Bytes as their own digests. -/
def spelled : World Bytes := ⟨id, fun _ => "0a1b2c3d", fun _ => none, fun _ => by decide⟩

end Mainboard.Collection
