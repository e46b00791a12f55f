import Mainboard.SnapshotAgain

/-! A snapshot pinned twice. The second pin, asked for the same with only a job's results written in between, answers
the same path and finds every listed file with its bytes, exactly where no need lies beneath the results path, the
tree does not, and no listed file shares its bytes with one there. -/

namespace Mainboard.Snapshots

variable {hash : Text → Text} {target later : Target} {spec : Spec} {tree next : Tree} {path : Path}

/-! Verifying -/

theorem stands_iff {bytes : ℕ → Text} {listed : Row} : stands hash spec tree bytes listed = .ok () ↔
    (∀ live ∈ spec.live, ¬live <+: listed.path) ∧ ∃ leaf text, tree.entry listed.path = some (.file leaf) ∧
      content bytes leaf = some text ∧ hash text = listed.blob := by
  have hlive : (spec.live.find? fun live => live.isPrefixOf listed.path) = none ↔
      ∀ live ∈ spec.live, ¬live <+: listed.path := by
    rw [List.find?_eq_none]
    exact forall_congr' fun live => forall_congr' fun _ => not_congr List.isPrefixOf_iff_prefix
  rw [← hlive]
  unfold stands
  split
  · rename_i live hfound
    rw [hfound]
    exact iff_of_false (fun h => by cases h) fun h => by cases h.1
  · rename_i hnone
    rw [and_iff_right hnone]
    split
    · rename_i leaf hentry
      rw [hentry]
      split
      · rename_i hcontent
        refine iff_of_false (fun h => by cases h) ?_
        rintro ⟨other, text, hsame, htext, -⟩
        cases hsame
        rw [hcontent] at htext
        cases htext
      · rename_i text hcontent
        split
        · rename_i hblob
          exact iff_of_true rfl ⟨leaf, text, rfl, hcontent, hblob⟩
        · rename_i hblob
          refine iff_of_false (fun h => by cases h) ?_
          rintro ⟨other, found, hsame, hfound, hdigest⟩
          cases hsame
          rw [hcontent] at hfound
          cases hfound
          exact hblob hdigest
    · rename_i hentry
      rw [hentry]
      exact iff_of_false (fun h => by cases h) fun ⟨_, _, hsame, _⟩ => by cases hsame
    · rename_i hentry
      rw [hentry]
      refine iff_of_false (fun h => ?_) fun ⟨_, _, hsame, _⟩ => by cases hsame
      split at h <;> cases h

theorem verify_iff {closure : Text} {bytes : ℕ → Text} : verify hash spec closure tree bytes = .ok () ↔
    hash closure = spec.digest ∧ ∀ line ∈ columns closure, ∃ listed, row line = .ok listed ∧
      stands hash spec tree bytes listed = .ok () := by
  unfold verify rows
  by_cases hdigest : hash closure = spec.digest
  · rw [if_pos hdigest, and_iff_right hdigest]
    dsimp only [Except.bind]
    rw [ListReading.forM_ok_iff]
    refine forall_congr' fun line => forall_congr' fun _ => ?_
    cases hrow : row line with
    | error fault => exact iff_of_false (fun h => by cases h) fun ⟨_, hsame, _⟩ => by cases hsame
    | ok listed =>
        refine ⟨fun h => ⟨listed, rfl, h⟩, fun ⟨other, hsame, hstands⟩ => ?_⟩
        cases hsame
        exact hstands
  · rw [if_neg hdigest]
    exact iff_of_false (fun h => by cases h) fun h => hdigest h.1

/-! Building -/

/-- Every leaf of a tree is a link, or what the mirror's file of its path becomes. -/
def FromMirror (target : Target) (tree : Tree) : Prop := ∀ path leaf, tree.entry path = some (.file leaf) →
  leaf = .link ∨ ∃ inode, target.mirror.file path = some inode ∧ leaf = leafOf target inode

theorem FromMirror.over (h : FromMirror target tree) (hover : Over tree next) : FromMirror target next :=
  fun path leaf hleaf => h path leaf (hover.leaf_iff.mp hleaf)

theorem FromMirror.write (h : FromMirror target tree) {leaf : Leaf}
    (hleaf : leaf = .link ∨ ∃ inode, target.mirror.file path = some inode ∧ leaf = leafOf target inode)
    (hwrite : called (tree.write path leaf) = .ok next) : FromMirror target next := by
  intro other held hheld
  rw [FileTree.Tree.write_eq (called_ok hwrite)] at hheld
  dsimp only at hheld
  split at hheld
  · rename_i hother
    cases hheld
    rw [hother]
    exact hleaf
  · exact h other held hheld

theorem FromMirror.hardlink (h : FromMirror target tree) {inode : ℕ} (hfile : target.mirror.file path = some inode)
    (hlink : Snapshots.hardlink target tree path inode = .ok next) : FromMirror target next := by
  unfold Snapshots.hardlink at hlink
  split at hlink
  · exact h.write (Or.inr ⟨inode, hfile, rfl⟩) hlink
  · split at hlink
    · cases hlink
    · exact h.write (Or.inr ⟨inode, hfile, rfl⟩) hlink
  · cases hlink

theorem fromMirror_root : FromMirror target FileTree.Tree.root := by
  intro path leaf hleaf
  unfold FileTree.Tree.root at hleaf
  dsimp only at hleaf
  split at hleaf <;> cases hleaf

theorem FromMirror.shipped (h : FromMirror target tree) {line : List Text} (hline : Snapshots.shipped target tree line = .ok next) :
    FromMirror target next := by
  unfold Snapshots.shipped at hline
  cases hrow : row line with
  | error fault =>
      rw [hrow] at hline
      cases hline
  | ok listed =>
      rw [hrow] at hline
      dsimp only [Except.bind] at hline
      cases hfile : target.mirror.file listed.path with
      | none =>
          rw [hfile] at hline
          cases hline
      | some inode =>
          rw [hfile] at hline
          dsimp only at hline
          cases hmade : makedirs tree listed.path.dropLast with
          | error fault =>
              rw [hmade] at hline
              cases hline
          | ok made =>
              rw [hmade] at hline
              exact (h.over (makedirs_over hmade)).hardlink hfile hline

theorem FromMirror.shared (h : FromMirror target tree) {folder : Path} (hfolder : Snapshots.shared target tree folder = .ok next) :
    FromMirror target next := by
  unfold Snapshots.shared at hfolder
  split at hfolder
  · refine ListReading.foldlM_keeps (FromMirror target) (fun entry _ tree next hkept hstep => ?_) h hfolder
    dsimp only at hstep
    split at hstep
    · obtain rfl := Except.ok.inj hstep
      exact hkept
    · split at hstep
      · exact hkept.write (Or.inl rfl) hstep
      · split at hstep
        · cases hstep
        · rename_i inode hfile
          exact hkept.hardlink hfile hstep
  · obtain rfl := Except.ok.inj hfolder
    exact h

theorem bind_ok {ε α β : Type} {asked : Except ε α} {rest : α → Except ε β} {answer : β}
    (h : asked.bind rest = .ok answer) : ∃ first, asked = .ok first ∧ rest first = .ok answer := by
  cases asked with
  | error fault => cases h
  | ok first => exact ⟨first, rfl, h⟩

theorem map_ok {ε α β : Type} {asked : Except ε α} {f : α → β} {answer : β} (h : asked.map f = .ok answer) :
    ∃ first, asked = .ok first ∧ f first = answer := by
  cases asked with
  | error fault => cases h
  | ok first => exact ⟨first, rfl, Except.ok.inj h⟩

/-- A tree just built holds links and what the mirror's files become. -/
theorem fromMirror_made {pin : Pin} (h : made hash target spec = .ok pin) :
    FromMirror target pin.tree ∧ ∃ inode, target.mirror.file spec.listing = some inode ∧ pin.closure = target.bytes inode := by
  unfold made at h
  cases hlisting : target.mirror.file spec.listing with
  | none =>
      rw [hlisting] at h
      cases h
  | some inode =>
      rw [hlisting] at h
      obtain ⟨built, hbuilt, henvironment⟩ := bind_ok h
      obtain ⟨start, hstart, hgenerated⟩ := bind_ok hbuilt
      obtain ⟨lines, -, hlines⟩ := bind_ok hstart
      obtain ⟨folders, hfolders, hshared⟩ := bind_ok hgenerated
      obtain ⟨last, hlast, rfl⟩ := map_ok henvironment
      have hcopied : FromMirror target start :=
        ListReading.foldlM_keeps (FromMirror target) (fun _ _ _ _ hkept hstep => hkept.shipped hstep) fromMirror_root hlines
      have hmade : FromMirror target folders :=
        ListReading.foldlM_keeps (FromMirror target) (fun _ _ _ _ hkept hstep => hkept.over (makedirs_over hstep)) hcopied
          hfolders
      have hwhole : FromMirror target built :=
        ListReading.foldlM_keeps (FromMirror target) (fun _ _ _ _ hkept hstep => hkept.shared hstep) hmade hshared
      refine ⟨?_, inode, rfl, rfl⟩
      unfold environment at hlast
      split at hlast
      · obtain rfl := Except.ok.inj hlast
        exact hwhole
      · obtain ⟨reached, hreached, hwritten⟩ := bind_ok hlast
        refine FromMirror.write (fun other leaf hleaf => ?_) (Or.inl rfl) hwritten
        refine hwhole.over (makedirs_over hreached) other leaf ?_
        unfold FileTree.Tree.without at hleaf
        dsimp only at hleaf
        split at hleaf
        · cases hleaf
        · exact hleaf

/-! Pinning twice -/

/-- The listing a pin goes by: the standing tree's, or the mirror's. -/
def listingOf (target : Target) (spec : Spec) : Text := match target.standing with
  | some pin => pin.closure
  | none => (target.mirror.file spec.listing).elim [] target.bytes

/-- The bytes a listed file of the tree shares: those the standing tree shares, or those a new one will. -/
def shareOf (target : Target) (path : Path) : Option ℕ := match target.standing with
  | some pin => match pin.tree.entry path with
    | some (.file (.file inode)) => some inode
    | _ => none
  | none => (target.mirror.file path).filter target.shares

/-- A results path reaches the bytes of a file. -/
def Reaches (mirror : Mirror) (results : Path) (inode : ℕ) : Prop :=
  ∃ below, results <+: below ∧ mirror.file below = some inode

theorem Reaches.congr {mirror other : Mirror} {results : Path} {inode : ℕ} (h : Reaches mirror results inode)
    (hfile : other.file = mirror.file) : Reaches other results inode := by
  obtain ⟨below, hlead, hbelow⟩ := h
  exact ⟨below, hlead, hfile ▸ hbelow⟩

/-- What jobs writing under the results path may do: make files there, and change the bytes of the files it reaches,
and the tree itself only where that lies beneath it. -/
structure Wrote (spec : Spec) (before after : Target) : Prop where
  exist : ∀ path, before.mirror.exist path = true → after.mirror.exist path = true
  file : ∀ path, (∀ results, spec.results = some results → ¬(results <+: path ∧ path ≠ results)) →
    after.mirror.file path = before.mirror.file path
  bytes : ∀ inode, (∀ results, spec.results = some results → ¬Reaches before.mirror results inode) →
    after.bytes inode = before.bytes inode
  standing : (∀ results, spec.results = some results → ¬results <+: spec.place) → after.standing = before.standing

/-- Whether a second pin can meet the first one's tree: no need lies beneath the results path, the tree does not, and
no listed file shares its bytes with a file there. -/
def Repeats (spec : Spec) (target : Target) : Prop := ∀ results, spec.results = some results →
  (∀ need ∈ spec.needs, results <+: need → need = results) ∧ ¬results <+: spec.place ∧
    ∀ line ∈ columns (listingOf target spec), ∀ listed, row line = .ok listed → ∀ inode,
      shareOf target listed.path = some inode → ¬Reaches target.mirror results inode

/-- The bytes at a path of the standing tree. -/
def bytesAt (target : Target) (path : Path) : Option Text := target.standing.bind fun pin =>
  match pin.tree.entry path with
  | some (.file leaf) => content target.bytes leaf
  | _ => none

theorem prepared_leaf {pin : Pin} (h : prepared hash target spec = .ok pin) {leaf : Leaf}
    (hleaf : pin.tree.entry path = some (.file leaf)) (hlink : leaf ≠ .link) (inode : ℕ) :
    shareOf target path = some inode ↔ leaf = .file inode := by
  unfold prepared at h
  unfold shareOf
  cases hstanding : target.standing with
  | some standing =>
      rw [hstanding] at h
      dsimp only at h
      have hsame : standing = pin := by
        split at h
        · cases h
        · split at h
          · exact Except.ok.inj h
          · cases h
      rw [hsame]
      dsimp only
      rw [hleaf]
      cases leaf <;> simp
  | none =>
      rw [hstanding] at h
      obtain ⟨own, hfile, rfl⟩ := ((fromMirror_made h).1 path leaf hleaf).resolve_left hlink
      rw [hfile]
      unfold leafOf
      cases hshares : target.shares own <;> simp [Option.filter, hshares]

theorem prepared_closure {pin : Pin} (h : prepared hash target spec = .ok pin) : pin.closure = listingOf target spec := by
  unfold prepared at h
  unfold listingOf
  cases hstanding : target.standing with
  | some standing =>
      rw [hstanding] at h
      dsimp only at h ⊢
      split at h
      · cases h
      · split at h
        · rw [Except.ok.inj h]
        · cases h
  | none =>
      rw [hstanding] at h
      obtain ⟨inode, hfile, hclosure⟩ := (fromMirror_made h).2
      rw [hfile, hclosure]
      rfl

/-- What a pin that succeeds went through. -/
theorem pinned_eq {after : Target} (h : pinned hash target spec = .ok (path, after)) :
    path = spec.place ∧ ∃ pin reached, prepared hash target spec = .ok pin ∧
      verify hash spec pin.closure pin.tree target.bytes = .ok () ∧
      lived hash target spec pin = .ok (after.mirror, reached) ∧
      after = { target with mirror := after.mirror, standing := some { reached with stamp := some spec.stamp } } := by
  obtain ⟨pin, hprepared, hrest⟩ := bind_ok h
  obtain ⟨⟨⟩, hverify, hlast⟩ := bind_ok hrest
  obtain ⟨reached, hlived, hsame⟩ := map_ok hlast
  cases hsame
  exact ⟨rfl, pin, reached.2, hprepared, hverify, hlived, rfl⟩

theorem lived_file {mirror : Mirror} {pin reached : Pin} (h : lived hash target spec pin = .ok (mirror, reached)) :
    mirror.file = target.mirror.file := by
  obtain ⟨made, -, hpointed, -, -⟩ := lived_eq h
  rcases pointed_eq hpointed with ⟨-, hsame, -⟩ | ⟨results, -, -, hsame, -⟩
  · rw [hsame]
  · rw [hsame]
    rfl

/-- Every listed file of a pinned tree holds what it was verified with. -/
theorem pinned_listed {after : Target} (h : pinned hash target spec = .ok (path, after)) {line : List Text}
    (hline : line ∈ columns (listingOf target spec)) :
    ∃ listed leaf text pin, row line = .ok listed ∧ after.standing = some pin ∧
      pin.closure = listingOf target spec ∧ (∀ live ∈ spec.live, ¬live <+: listed.path) ∧
      pin.tree.entry listed.path = some (.file leaf) ∧ content target.bytes leaf = some text ∧ hash text = listed.blob ∧
      ∀ inode, shareOf target listed.path = some inode ↔ leaf = .file inode := by
  obtain ⟨-, pin, reached, hprepared, hverify, hlived, hafter⟩ := pinned_eq h
  have hclosure := prepared_closure hprepared
  obtain ⟨listed, hrow, hstands⟩ := (verify_iff.mp hverify).2 line (hclosure ▸ hline)
  obtain ⟨hclear, leaf, text, hleaf, hcontent, hblob⟩ := stands_iff.mp hstands
  have hlink : leaf ≠ .link := fun hlink => by
    rw [hlink] at hcontent
    cases hcontent
  obtain ⟨-, -, -, -, hkept⟩ := lived_eq hlived
  have hlisted := lived_leaf hlived hleaf hlink hclear
  exact ⟨listed, leaf, text, { reached with stamp := some spec.stamp }, hrow, by rw [hafter], hkept.trans hclosure, hclear,
    hlisted, hcontent, hblob, prepared_leaf hprepared hleaf hlink⟩

/-- A pin that succeeded succeeds again, answers the same path and leaves every listed file's bytes, whatever jobs
wrote under the results path in between, exactly where the results path keeps clear of the needs, of the tree and of
the listed files' bytes; and a tree is verified only with every listed file holding its listed bytes. -/
theorem pinned_again {before after : Target} (h : pinned hash before spec = .ok (path, after)) :
    ((∀ later, Wrote spec after later → ∃ again, pinned hash later spec = .ok (path, again) ∧
        ∀ line ∈ columns (listingOf before spec), ∀ listed, row line = .ok listed →
          bytesAt again listed.path = bytesAt after listed.path) ∧
      ∀ closure tree bytes, verify hash spec closure tree bytes = .ok () →
        hash closure = spec.digest ∧ ∀ line ∈ columns closure, ∃ listed leaf text, row line = .ok listed ∧
          tree.entry listed.path = some (.file leaf) ∧ content bytes leaf = some text ∧ hash text = listed.blob) ↔
    Repeats spec before := by
  have hverified : ∀ closure tree bytes, verify hash spec closure tree bytes = .ok () →
      hash closure = spec.digest ∧ ∀ line ∈ columns closure, ∃ listed leaf text, row line = .ok listed ∧
        tree.entry listed.path = some (.file leaf) ∧ content bytes leaf = some text ∧ hash text = listed.blob := by
    intro closure tree bytes hverify
    obtain ⟨hdigest, hlines⟩ := verify_iff.mp hverify
    refine ⟨hdigest, fun line hline => ?_⟩
    obtain ⟨listed, hrow, hstands⟩ := hlines line hline
    obtain ⟨-, leaf, text, hleaf, hcontent, hblob⟩ := stands_iff.mp hstands
    exact ⟨listed, leaf, text, hrow, hleaf, hcontent, hblob⟩
  rw [and_iff_left hverified]
  obtain ⟨hpath, pin, reached, hprepared, hverify, hlived, hafter⟩ := pinned_eq h
  have hfile : after.mirror.file = before.mirror.file := lived_file hlived
  have hbytes : after.bytes = before.bytes := by rw [hafter]
  have hstanding : after.standing = some { reached with stamp := some spec.stamp } := by rw [hafter]
  constructor
  · intro hagain results hresults
    refine ⟨fun need hneed hbelow => ?_, fun hinside => ?_, fun line hline listed hrow inode hshare hreaches => ?_⟩
    · by_contra hne
      obtain ⟨again, hpinned, -⟩ := hagain after ⟨fun _ => id, fun _ _ => rfl, fun _ _ => rfl, fun _ => rfl⟩
      obtain ⟨-, other, done, hother, -, hdone, -⟩ := pinned_eq hpinned
      have htree : other.tree = reached.tree := by
        unfold prepared at hother
        rw [hstanding] at hother
        dsimp only at hother
        rw [if_pos rfl] at hother
        rw [← Except.ok.inj hother]
      exact lived_refused hlived hresults hneed hbelow hne htree _ hdone
    · obtain ⟨again, hpinned, -⟩ := hagain
        { after with standing := some { reached with stamp := some (spec.stamp ++ ['x']) } }
        ⟨fun _ => id, fun _ _ => rfl, fun _ _ => rfl, fun hout => absurd hinside (hout results hresults)⟩
      obtain ⟨-, other, done, hother, -⟩ := pinned_eq hpinned
      unfold prepared at hother
      dsimp only at hother
      rw [if_neg (by simp)] at hother
      cases hother
    · obtain ⟨found, leaf, text, standing, hfound, hstands, -, hclear, hleaf, hcontent, hblob, hshares⟩ := pinned_listed h hline
      obtain rfl := Except.ok.inj (hrow.symm.trans hfound)
      obtain rfl := (hshares inode).mp hshare
      have hwrote : Wrote spec after
          { after with bytes := fun other => if other = inode then after.bytes other ++ ['x'] else after.bytes other } := by
        refine ⟨fun _ => id, fun _ _ => rfl, fun other hout => if_neg fun hother => ?_, fun _ => rfl⟩
        rw [hother] at hout
        exact hout results hresults (hreaches.congr hfile)
      obtain ⟨again, hpinned, hsame⟩ := hagain _ hwrote
      have hcolumns : line ∈ columns (listingOf
          { after with bytes := fun other => if other = inode then after.bytes other ++ ['x'] else after.bytes other } spec) := by
        obtain ⟨-, -, -, -, hkept⟩ := lived_eq hlived
        unfold listingOf
        dsimp only
        rw [hstanding]
        dsimp only
        rw [hkept, prepared_closure hprepared]
        exact hline
      obtain ⟨one, held, written, last, hone, hlast, -, -, hheld, hwritten, -, hsharesAgain⟩ := pinned_listed hpinned hcolumns
      obtain rfl := Except.ok.inj (hrow.symm.trans hone)
      obtain rfl := (hsharesAgain inode).mp (by
        unfold shareOf
        dsimp only
        rw [hstands]
        dsimp only
        rw [hleaf])
      have hboth := hsame line hline listed hrow
      obtain ⟨-, _, _, -, -, -, hagainEq⟩ := pinned_eq hpinned
      have hagainBytes : again.bytes inode = after.bytes inode ++ ['x'] := by
        rw [hagainEq]
        exact if_pos rfl
      have hleft : bytesAt again listed.path = some (again.bytes inode) := by
        unfold bytesAt
        rw [hlast, Option.bind_some, hheld]
        rfl
      have hright : bytesAt after listed.path = some (after.bytes inode) := by
        unfold bytesAt
        rw [hstands, Option.bind_some, hleaf]
        rfl
      rw [hleft, hright, hagainBytes, Option.some.injEq] at hboth
      exact absurd hboth (by simp)
  · intro hrepeats later hwrote
    have hlater : later.standing = some { reached with stamp := some spec.stamp } := by
      rw [hwrote.standing fun results hresults => (hrepeats results hresults).2.1, hstanding]
    obtain ⟨mirror, done, hdone, hentry, hclosure, hwrappers⟩ := @lived_again _ _ _ _ _ _ _ hlived
      (fun results hresults => (hrepeats results hresults).1) hwrote.exist
      (fun results hresults folder hlead hnone => by
        rw [hwrote.file folder fun other hother hbelow => ?_, hnone]
        obtain rfl := Option.some.inj (hresults.symm.trans hother)
        exact hbelow.2 (List.IsPrefix.eq_of_length hlead (le_antisymm hlead.length_le hbelow.1.length_le)))
      { reached with stamp := some spec.stamp } rfl rfl
    have hkeeps : ∀ line ∈ columns (listingOf before spec), ∃ listed leaf text, row line = .ok listed ∧
        (∀ live ∈ spec.live, ¬live <+: listed.path) ∧ reached.tree.entry listed.path = some (.file leaf) ∧
        content before.bytes leaf = some text ∧ content later.bytes leaf = some text ∧ hash text = listed.blob := by
      intro line hline
      obtain ⟨listed, leaf, text, standing, hrow, hstands, -, hclear, hleaf, hcontent, hblob, hshares⟩ := pinned_listed h hline
      obtain rfl := Option.some.inj (hstanding.symm.trans hstands)
      refine ⟨listed, leaf, text, hrow, hclear, hleaf, hcontent, ?_, hblob⟩
      cases leaf with
      | link => cases hcontent
      | copy held => exact hcontent
      | file inode =>
          have hsame : later.bytes inode = after.bytes inode := hwrote.bytes inode fun results hresults hreaches =>
            (hrepeats results hresults).2.2 line hline listed hrow inode ((hshares inode).mpr rfl)
              (hreaches.congr hfile.symm)
          rw [hbytes] at hsame
          exact (congrArg some hsame).trans hcontent
    obtain ⟨-, -, -, -, hkept⟩ := lived_eq hlived
    have hlisting : reached.closure = listingOf before spec := hkept.trans (prepared_closure hprepared)
    have hverifyAgain : verify hash spec reached.closure reached.tree later.bytes = .ok () := by
      refine verify_iff.mpr ⟨by rw [hkept]; exact (verify_iff.mp hverify).1, fun line hline => ?_⟩
      obtain ⟨listed, leaf, text, hrow, hclear, hleaf, -, hcontent, hblob⟩ := hkeeps line (hlisting ▸ hline)
      exact ⟨listed, hrow, stands_iff.mpr ⟨hclear, leaf, text, hleaf, hcontent, hblob⟩⟩
    refine ⟨{ later with mirror := mirror, standing := some { done with stamp := some spec.stamp } }, ?_, ?_⟩
    · unfold pinned prepared
      rw [hlater]
      dsimp only
      rw [if_pos rfl]
      dsimp only [Except.bind]
      rw [hverifyAgain]
      dsimp only
      rw [hdone, hpath]
      rfl
    · intro line hline listed hrow
      obtain ⟨other, leaf, text, hother, -, hleaf, hfirst, hsecond, -⟩ := hkeeps line hline
      obtain rfl := Except.ok.inj (hrow.symm.trans hother)
      have hleft : bytesAt { later with mirror := mirror, standing := some { done with stamp := some spec.stamp } }
          listed.path = content later.bytes leaf := by
        unfold bytesAt
        dsimp only
        rw [Option.bind_some, hentry, hleaf]
      have hright : bytesAt after listed.path = content before.bytes leaf := by
        unfold bytesAt
        rw [hstanding, Option.bind_some, hleaf, hbytes]
      rw [hleft, hright, hfirst, hsecond]

/-! One file shipped -/

/-- A mirror of one source file, its listing, a folder of data and one of results. -/
def oneMirror : Mirror where
  exist := fun path => [["listing"], ["a.py"], ["data"], ["results", "in"]].any fun place => path.isPrefixOf place
  file := fun path => if path = ["listing"] then some 1 else if path = ["a.py"] then some 2 else none
  folder := fun path => [["data"], ["results", "in"]].any fun place => path.isPrefixOf place
  names := fun _ => []
  exist_prefix := by
    intro path below hlead h
    obtain ⟨place, hplace, hbelow⟩ := List.any_eq_true.mp h
    exact List.any_eq_true.mpr ⟨place, hplace, List.isPrefixOf_iff_prefix.mpr
      (hlead.trans (List.isPrefixOf_iff_prefix.mp hbelow))⟩

def oneTarget : Target where
  mirror := oneMirror
  bytes := fun inode => if inode = 1 then "a.py\tx".toList else "x".toList
  shares := fun _ => true
  standing := none

/-- A snapshot of the file, with some needs and the results path `results`. -/
def oneSpec (needs : List Path) (hneeds : ∀ path ∈ needs, path ≠ []) : Spec where
  place := [".mb", "sources", "k"]
  stamp := "k".toList
  out := [".mb"]
  environment := none
  results := some ["results"]
  script := none
  listing := ["listing"]
  digest := "a.py\tx".toList
  needs := needs
  pins := []
  below_root := by
    intro path hpath
    rcases List.mem_append.mp hpath with hneed | hresults
    · exact hneeds path hneed
    · rw [List.mem_singleton.mp hresults]
      exact List.cons_ne_nil _ _
  pins_staged := fun _ hpin => absurd hpin List.not_mem_nil

/-- Why a pin was refused, if it was. -/
def refusal {α : Type} : Except Fault α → Option Fault
  | .ok _ => none
  | .error fault => some fault

/-- A snapshot that needs the data beside its results is pinned again whatever its jobs write. -/
theorem pinned_again_beside : ∃ after, pinned id oneTarget (oneSpec [["data"]] (by decide)) =
      .ok ([".mb", "sources", "k"], after) ∧
    ∀ later, Wrote (oneSpec [["data"]] (by decide)) after later →
      ∃ again, pinned id later (oneSpec [["data"]] (by decide)) = .ok ([".mb", "sources", "k"], again) := by
  have hfirst : refusal (pinned id oneTarget (oneSpec [["data"]] (by decide))) = none := by decide +kernel
  cases hpinned : pinned id oneTarget (oneSpec [["data"]] (by decide)) with
  | error fault =>
      rw [hpinned] at hfirst
      cases hfirst
  | ok done =>
      obtain ⟨path, after⟩ := done
      obtain rfl : path = [".mb", "sources", "k"] := (pinned_eq hpinned).1
      have hrepeats : Repeats (oneSpec [["data"]] (by decide)) oneTarget := by
        intro results hresults
        obtain rfl := Option.some.inj hresults
        refine ⟨by decide, by decide, fun line _ listed _ inode hshare hreaches => ?_⟩
        obtain ⟨below, hlead, hbelow⟩ := hreaches
        have hfile : (if below = ["listing"] then some 1 else if below = ["a.py"] then some 2 else none) = some inode :=
          hbelow
        split at hfile
        · rename_i hsame
          rw [hsame] at hlead
          exact absurd hlead (by decide)
        · split at hfile
          · rename_i hsame
            rw [hsame] at hlead
            exact absurd hlead (by decide)
          · cases hfile
      refine ⟨after, rfl, fun later hwrote => ?_⟩
      obtain ⟨again, hagain, -⟩ := ((pinned_again hpinned).mpr hrepeats).1 later hwrote
      exact ⟨again, hagain⟩

/-- A snapshot that needs what lies beneath its results path is pinned once, and refused from then on. -/
theorem pinned_again_fails :
    refusal (pinned id oneTarget (oneSpec [["results", "in"]] (by decide))) = none ∧
    refusal ((pinned id oneTarget (oneSpec [["results", "in"]] (by decide))).bind fun done =>
      pinned id done.2 (oneSpec [["results", "in"]] (by decide))) = some (.needLinked ["results", "in"]) := by
  decide +kernel

end Mainboard.Snapshots
