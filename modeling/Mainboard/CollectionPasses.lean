import Mathlib
import Mainboard.CollectionMerge

/-! Passes of a collection, one after the other, until one ends without a fault. The measure is over both sides: how
many files of the host the center neither has at their path nor keeps aside. A pass that ends short brings one of them;
a pass that does not leaves each file on the center. -/

namespace Mainboard.Collection

open OrderedMap

variable {Digest : Type}

attribute [local instance] lawfulPath

/-! ### What a host sends -/

/-- What a file of the host is archived as: nothing where it is left out, its complete records under their range, else
all of it at its path. -/
def shipped (world : World Digest) (entry : Entry) : Option (Path × Bytes) :=
  if excluded entry.path then none
  else if live entry.path then
    if complete entry.bytes = [] then none
    else (world.ranged (complete entry.bytes)).map fun range =>
      (entry.path.dropLast ++ [rangeName range.1 range.2], complete entry.bytes)
  else some (entry.path, entry.bytes)

/-- A host whose files can be collected: regular files, contiguous journals, none larger than the allowance, and what
they are archived as the files of one tree, below the scope, outside its conflicts and under no name of the tool's
own. -/
structure Walk (world : World Digest) (scope : Path) (allowance : ℕ) (entries : List Entry) : Prop where
  regular : ∀ entry ∈ entries, excluded entry.path = false → entry.stat.regular = true
  contiguous : ∀ entry ∈ entries, live entry.path = true → complete entry.bytes ≠ [] →
    (world.ranged (complete entry.bytes)).isSome
  fits : ∀ entry ∈ entries, excluded entry.path = false → live entry.path = false → entry.stat.size ≤ allowance
  once : (entries.map (·.path)).Nodup
  ordinary : ∀ item ∈ entries.filterMap (shipped world), Ordinary scope item.1
  apart : (entries.filterMap (shipped world)).Pairwise fun one other => clash one.1 other.1 = false
  unowned : ∀ item ∈ entries.filterMap (shipped world), own item.1 = false

/-- Digests that are those of the files they would be reused for. -/
def Fresh (world : World Digest) (entries : List Entry) (digests : Digests Digest) : Prop :=
  ∀ entry ∈ entries, ∀ size mtime digest, get digests entry.path = some (size, mtime, digest) →
    size = entry.stat.size → mtime = entry.stat.mtime → digest = world.hash entry.bytes

section Walk

variable {world : World Digest} {scope : Path} {allowance : ℕ} {entries : List Entry}

/-- Two files archived at paths that clash are one. -/
theorem Walk.same (hwalk : Walk world scope allowance entries) {one other : Entry} (hone : one ∈ entries)
    (hother : other ∈ entries) {item item' : Path × Bytes} (hitem : shipped world one = some item)
    (hitem' : shipped world other = some item') (hclash : clash item.1 item'.1 = true) : one = other := by
  by_contra hne
  have hapart := List.pairwise_filterMap.mp hwalk.apart
  have hsymm : Std.Symm fun first second : Entry => ∀ b, shipped world first = some b →
      ∀ b', shipped world second = some b' → clash b.1 b'.1 = false :=
    ⟨fun first second h b hb b' hb' => by
      have hfar := h b' hb' b hb
      rwa [clash, Bool.or_comm]⟩
  have hfar := hapart.forall hone hother hne item hitem item' hitem'
  rw [hfar] at hclash
  cases hclash

/-- A digest taken is the file's, and is remembered as such. -/
theorem Digests.of_fresh (hwalk : Walk world scope allowance entries) {digests : Digests Digest}
    (hfresh : Fresh world entries digests) {entry : Entry} (hentry : entry ∈ entries) :
    (digests.of world entry).1 = world.hash entry.bytes ∧ Fresh world entries (digests.of world entry).2 := by
  have hrecord : Fresh world entries
      (put digests entry.path (entry.stat.size, entry.stat.mtime, world.hash entry.bytes)) := by
    intro other hother size mtime digest hget hsize hmtime
    rw [get_put] at hget
    split at hget
    · rename_i hpath
      have hsame : entry = other := List.inj_on_of_nodup_map hwalk.once hentry hother hpath
      cases hget
      rw [hsame]
    · exact hfresh other hother size mtime digest hget hsize hmtime
  rw [Digests.of]
  cases hget : get digests entry.path with
  | none => exact ⟨rfl, hrecord⟩
  | some record =>
      obtain ⟨size, mtime, digest⟩ := record
      by_cases hreused : size = entry.stat.size ∧ mtime = entry.stat.mtime
      · simp only [if_pos hreused]
        exact ⟨hfresh entry hentry size mtime digest hget hreused.1 hreused.2, hfresh⟩
      · simp only [if_neg hreused]
        exact ⟨trivial, hrecord⟩

theorem shipped_plain {entry : Entry} (hkept : excluded entry.path = false) (hplain : live entry.path = false) :
    shipped world entry = some (entry.path, entry.bytes) := by
  rw [shipped, if_neg (by simp [hkept]), if_neg (by simp [hplain])]

end Walk

/-- The digest a host is told the center has at a path. -/
def Center.knows (center : Center Digest) (path : Path) : Option Digest := get (putAll center.kept center.known) path

theorem knows_eq (center : Center Digest) (path : Path) :
    get (putAll center.kept center.known) path = center.knows path := rfl

variable [DecidableEq Digest]

/-- What a file adds to the archive of a pass. -/
def brought (world : World Digest) (center : Center Digest) (entry : Entry) : Option (Path × Bytes) :=
  (shipped world entry).filter fun item =>
    if live entry.path then (center.knows item.1).isNone
    else center.knows item.1 ≠ some (world.hash item.2) && world.hash item.2 ∉ center.kept.map (·.2)

/-- The name a file adds to the archive of a pass. -/
def called (world : World Digest) (center : Center Digest) (entry : Entry) : Option (Path × Digest) :=
  ((shipped world entry).filter fun item => !live entry.path &&
    (center.knows item.1 ≠ some (world.hash item.2) && world.hash item.2 ∈ center.kept.map (·.2))).map
      fun item => (item.1, world.hash item.2)

/-- What a file takes of a pass's allowance. -/
def weight (world : World Digest) (center : Center Digest) (entry : Entry) : ℕ :=
  if !live entry.path && (brought world center entry).isSome then entry.stat.size else 0

/-- The archive once some files of the walk were taken. -/
structure Took (world : World Digest) (center : Center Digest) (entries done : List Entry) (writer : Writer Digest) :
    Prop where
  members : writer.members = done.filterMap (brought world center)
  named : writer.named = done.filterMap (called world center)
  sent : writer.sent = (done.map (weight world center)).sum
  fits : writer.sent ≤ center.allowance
  fresh : Fresh world entries writer.digests

section Pack

variable {world : World Digest} {scope : Path} {allowance : ℕ} {entries : List Entry} {center : Center Digest} {done : List Entry} {writer : Writer Digest}

theorem called_shipped {entry : Entry} {row : Path × Digest} (h : called world center entry = some row) :
    row = (entry.path, world.hash entry.bytes) ∧ shipped world entry = some (entry.path, entry.bytes) := by
  obtain ⟨item, hitem, rfl⟩ := Option.map_eq_some_iff.mp h
  obtain ⟨hshipped, hnamed⟩ := Option.filter_eq_some_iff.mp hitem
  have hplain : live entry.path = false := by
    rw [Bool.and_eq_true_iff, Bool.not_eq_true'] at hnamed
    exact hnamed.1
  have hkept : excluded entry.path = false := by
    by_contra hexcluded
    rw [shipped, if_pos (by simpa using hexcluded)] at hshipped
    cases hshipped
  rw [shipped_plain hkept hplain] at hshipped
  cases hshipped
  exact ⟨rfl, shipped_plain hkept hplain⟩

/-- A file that adds nothing leaves the archive as it is. -/
theorem Took.skip (h : Took world center entries done writer) {entry : Entry}
    (hbrought : brought world center entry = none) (hcalled : called world center entry = none) :
    Took world center entries (done ++ [entry]) writer where
  members := by simp [h.members, hbrought]
  named := by simp [h.named, hcalled]
  sent := by simp [h.sent, weight, hbrought]
  fits := h.fits
  fresh := h.fresh

/-- A journal's records added, unless their range was collected. -/
theorem Took.snapshot (hwalk : Walk world scope center.allowance entries)
    (h : Took world center entries done writer) {entry : Entry} (hentry : entry ∈ entries)
    (hkept : excluded entry.path = false) (hlive : live entry.path = true) :
    ∃ writer', writer.snapshot world (putAll center.kept center.known) entry = .ok writer' ∧
      writer'.spent = writer.spent ∧ Took world center entries (done ++ [entry]) writer' := by
  have hcalled : called world center entry = none := by
    cases hcalled : called world center entry with
    | none => rfl
    | some row =>
        obtain ⟨item, hitem, -⟩ := Option.map_eq_some_iff.mp hcalled
        have hnamed := (Option.filter_eq_some_iff.mp hitem).2
        simp [hlive] at hnamed
  rw [Writer.snapshot]
  by_cases hempty : complete entry.bytes = []
  · refine ⟨writer, if_pos hempty, rfl, h.skip ?_ hcalled⟩
    rw [brought, shipped, if_neg (by simp [hkept]), if_pos hlive, if_pos hempty]
    rfl
  · obtain ⟨⟨start, stop⟩, hranged⟩ := Option.isSome_iff_exists.mp (hwalk.contiguous entry hentry hlive hempty)
    have hshipped : shipped world entry =
        some (entry.path.dropLast ++ [rangeName start stop], complete entry.bytes) := by
      rw [shipped, if_neg (by simp [hkept]), if_pos hlive, if_neg hempty, hranged]
      rfl
    simp only [if_neg hempty, hranged]
    cases hknown : get (putAll center.kept center.known) (entry.path.dropLast ++ [rangeName start stop]) with
    | some digest =>
        refine ⟨writer, rfl, rfl, h.skip ?_ hcalled⟩
        rw [brought, hshipped, Option.filter_some, if_neg (by simp [hlive, Center.knows, hknown])]
    | none =>
        have hbrought : brought world center entry =
            some (entry.path.dropLast ++ [rangeName start stop], complete entry.bytes) := by
          rw [brought, hshipped, Option.filter_some, if_pos (by simp [hlive, Center.knows, hknown])]
        refine ⟨_, rfl, rfl, ?_, ?_, ?_, h.fits, h.fresh⟩
        · simp [h.members, hbrought]
        · simp [h.named, hcalled]
        · simp [h.sent, weight, hlive]

/-- A file added whole, as a name or not at all; else the allowance is spent, and some file was already sent. -/
theorem Took.add (hwalk : Walk world scope center.allowance entries)
    (h : Took world center entries done writer) (hspent : writer.spent = false) {entry : Entry}
    (hentry : entry ∈ entries) (hdone : ∀ other ∈ done, other ∈ entries ∧ other ≠ entry)
    (hkept : excluded entry.path = false) :
    ∃ writer', writer.add world center entry = .ok writer' ∧
      (writer'.spent = false ∧ Took world center entries (done ++ [entry]) writer' ∨
        writer'.spent = true ∧ Took world center entries done writer' ∧
          ∃ other ∈ done, (brought world center other).isSome) := by
  rw [Writer.add]
  cases hlive : live entry.path with
  | true =>
      obtain ⟨writer', hsnapshot, hsame, htook⟩ := h.snapshot hwalk hentry hkept hlive
      exact ⟨writer', hsnapshot, Or.inl ⟨hsame.trans hspent, htook⟩⟩
  | false =>
      obtain ⟨hdigest, hfresh⟩ := Digests.of_fresh hwalk h.fresh hentry
      have hshipped : shipped world entry = some (entry.path, entry.bytes) := shipped_plain hkept hlive
      have htook : Took world center entries done { writer with digests := (writer.digests.of world entry).2 } :=
        ⟨h.members, h.named, h.sent, h.fits, hfresh⟩
      simp only [Bool.false_eq_true, if_false, hdigest, knows_eq]
      by_cases hknown : center.knows entry.path = some (world.hash entry.bytes)
      · refine ⟨_, if_pos hknown, Or.inl ⟨hspent, htook.skip ?_ ?_⟩⟩
        · rw [brought, hshipped, Option.filter_some, if_neg (by simp [hlive, hknown])]
        · rw [called, hshipped, Option.filter_some, if_neg (by simp [hknown])]
          rfl
      · rw [if_neg hknown]
        by_cases hheld : world.hash entry.bytes ∈ center.kept.map (·.2)
        · have hbrought : brought world center entry = none := by
            rw [brought, hshipped, Option.filter_some, if_neg]
            simp only [hlive, Bool.false_eq_true, if_false, hheld, not_true_eq_false, decide_false, Bool.and_false,
              not_false_eq_true]
          have hcalled : called world center entry = some (entry.path, world.hash entry.bytes) := by
            rw [called, hshipped, Option.filter_some, if_pos]
            · rfl
            · simp only [hlive, hknown, hheld, ne_eq, not_false_eq_true, decide_true, Bool.not_false, Bool.and_true]
          have hnew : entry.path ∉ writer.named.map (·.1) := fun hmem => by
            rw [h.named] at hmem
            obtain ⟨row, hrow, hpath⟩ := List.mem_map.mp hmem
            obtain ⟨other, hother, hcalls⟩ := List.mem_filterMap.mp hrow
            rw [(called_shipped hcalls).1] at hpath
            exact (hdone other hother).2 (List.inj_on_of_nodup_map hwalk.once (hdone other hother).1 hentry hpath)
          refine ⟨_, if_pos hheld, Or.inl ⟨hspent, ?_, ?_, ?_, h.fits, hfresh⟩⟩
          · simp [h.members, hbrought]
          · simp only [put_of_not_mem hnew]
            simp [h.named, hcalled]
          · simp [h.sent, weight, hbrought]
        · have hbrought : brought world center entry = some (entry.path, entry.bytes) := by
            rw [brought, hshipped, Option.filter_some, if_pos]
            simp only [hlive, Bool.false_eq_true, if_false, hknown, hheld, ne_eq, not_false_eq_true, decide_true,
              Bool.and_true]
          have hcalled : called world center entry = none := by
            rw [called, hshipped, Option.filter_some, if_neg]
            · rfl
            · simp only [hheld, decide_false, Bool.and_false, Bool.false_eq_true, not_false_eq_true]
          have hweight : weight world center entry = entry.stat.size := by
            rw [weight, hbrought, hlive]
            rfl
          have hfits := hwalk.fits entry hentry hkept hlive
          rw [if_neg hheld, Writer.send, if_neg (by omega)]
          by_cases hroom : center.allowance < writer.sent + entry.stat.size
          · refine ⟨_, if_pos hroom, Or.inr ⟨rfl, ⟨h.members, h.named, h.sent, h.fits, hfresh⟩, ?_⟩⟩
            have hpos : 0 < (done.map (weight world center)).sum := by
              rw [← h.sent]
              omega
            obtain ⟨size, hsize, hpositive⟩ := List.sum_pos_iff_exists_pos_nat.mp hpos
            obtain ⟨other, hother, rfl⟩ := List.mem_map.mp hsize
            refine ⟨other, hother, ?_⟩
            by_contra hnone
            simp [weight, hnone] at hpositive
          · refine ⟨_, if_neg hroom, Or.inl ⟨hspent, ?_, ?_, ?_, ?_, hfresh⟩⟩
            · simp [h.members, hbrought]
            · simp [h.named, hcalled]
            · simp [h.sent, hweight]
            · exact Nat.le_of_not_lt hroom

/-- The rest of a walk: all of it is taken, or the allowance is spent after something was sent. -/
theorem Took.addAll (hwalk : Walk world scope center.allowance entries) {rest : List Entry}
    (h : Took world center entries done writer) (hspent : writer.spent = false)
    (hrest : ∀ entry ∈ rest, entry ∈ entries) (hdone : ∀ entry ∈ done, entry ∈ entries)
    (hnodup : (done ++ rest).Nodup) :
    ∃ writer' taken left, Writer.addAll world center writer rest = .ok writer' ∧ rest = taken ++ left ∧
      Took world center entries (done ++ taken) writer' ∧ (writer'.spent = false → left = []) ∧
      (writer'.spent = true → ∃ entry ∈ done ++ taken, (brought world center entry).isSome) := by
  induction rest generalizing done writer with
  | nil =>
      refine ⟨writer, [], [], rfl, rfl, by simpa using h, fun _ => rfl, fun hyes => ?_⟩
      rw [hspent] at hyes
      cases hyes
  | cons entry rest ih =>
      have hentry := hrest entry List.mem_cons_self
      have hassoc : done ++ [entry] ++ rest = done ++ entry :: rest := by simp
      have hdone' : ∀ other ∈ done ++ [entry], other ∈ entries := by
        intro other hother
        rcases List.mem_append.mp hother with hold | hlast
        · exact hdone other hold
        · rw [List.mem_singleton.mp hlast]
          exact hentry
      -- a file that was taken gives way to the rest of the walk
      have hgo : ∀ next, Took world center entries (done ++ [entry]) next → next.spent = false →
          ∃ writer' taken left, Writer.addAll world center next rest = .ok writer' ∧
            entry :: rest = taken ++ left ∧ Took world center entries (done ++ taken) writer' ∧
            (writer'.spent = false → left = []) ∧
            (writer'.spent = true → ∃ other ∈ done ++ taken, (brought world center other).isSome) := by
        intro next htook hnext
        obtain ⟨writer', taken, left, hall, hsplit, htook', hleft, hsome⟩ := ih htook hnext
          (fun other hother => hrest other (List.mem_cons_of_mem _ hother)) hdone' (hassoc ▸ hnodup)
        have hmore : done ++ [entry] ++ taken = done ++ entry :: taken := by simp
        rw [hmore] at htook' hsome
        exact ⟨writer', entry :: taken, left, hall, by rw [hsplit]; rfl, htook', hleft, hsome⟩
      rw [Writer.addAll]
      by_cases hexcluded : excluded entry.path = true
      · rw [if_pos hexcluded]
        have hnothing : shipped world entry = none := by rw [shipped, if_pos hexcluded]
        refine hgo writer (h.skip ?_ ?_) hspent
        · rw [brought, hnothing]
          rfl
        · rw [called, hnothing]
          rfl
      · have hkept : excluded entry.path = false := Bool.eq_false_iff.mpr hexcluded
        have hnew : ∀ other ∈ done, other ∈ entries ∧ other ≠ entry := fun other hother =>
          ⟨hdone other hother, (List.nodup_append.mp hnodup).2.2 other hother entry List.mem_cons_self⟩
        rw [if_neg hexcluded, if_neg (by simp [hwalk.regular entry hentry hkept])]
        obtain ⟨next, hadd, ⟨hnext, htook⟩ | ⟨hnext, htook, hsome⟩⟩ := h.add hwalk hspent hentry hnew hkept
        · simp only [hadd, hnext, Bool.false_eq_true, if_false]
          exact hgo next htook hnext
        · simp only [hadd, hnext, if_true]
          refine ⟨next, [], entry :: rest, rfl, rfl, by simpa using htook, fun hno => ?_, fun _ => by simpa using hsome⟩
          rw [hnext] at hno
          cases hno

theorem brought_shipped {entry : Entry} {item : Path × Bytes} (h : brought world center entry = some item) :
    shipped world entry = some item :=
  (Option.filter_eq_some_iff.mp h).1

/-- No file is both sent and named. -/
theorem called_of_brought {entry : Entry} (h : (brought world center entry).isSome) : called world center entry = none := by
  obtain ⟨item, hitem⟩ := Option.isSome_iff_exists.mp h
  cases hcalled : called world center entry with
  | none => rfl
  | some row =>
      obtain ⟨other, hother, -⟩ := Option.map_eq_some_iff.mp hcalled
      obtain ⟨hshipped, hsends⟩ := Option.filter_eq_some_iff.mp hitem
      obtain ⟨hshipped', hnames⟩ := Option.filter_eq_some_iff.mp hother
      rw [hshipped] at hshipped'
      cases hshipped'
      simp only [Bool.and_eq_true, Bool.not_eq_true', decide_eq_true_eq] at hnames
      rw [hnames.1] at hsends
      simp [hnames.2.2] at hsends

/-- What a pass packs is a plain transfer. -/
theorem Took.plain (hwalk : Walk world scope allowance entries) (hdone : done.Sublist entries)
    (h : Took world center entries done writer) : Plain scope writer.archive := by
  have hmembers : writer.archive.members = done.filterMap (brought world center) := h.members
  have hheld : writer.archive.held = done.filterMap (called world center) := h.named
  have hapart := List.pairwise_filterMap.mp hwalk.apart
  have hmember : ∀ item ∈ writer.archive.members, ∃ entry ∈ done, brought world center entry = some item :=
    fun item hitem => List.mem_filterMap.mp (hmembers ▸ hitem)
  have hrow : ∀ row ∈ writer.archive.held, ∃ entry ∈ done, called world center entry = some row :=
    fun row hrow => List.mem_filterMap.mp (hheld ▸ hrow)
  have hfar : writer.archive.members.Pairwise fun one other => clash one.1 other.1 = false := by
    rw [hmembers, List.pairwise_filterMap]
    exact (hapart.sublist hdone).imp fun hclash item hitem item' hitem' =>
      hclash item (brought_shipped hitem) item' (brought_shipped hitem')
  refine ⟨fun path hpath => ?_, hfar, List.nodup_append.mpr ⟨?_, ?_, ?_⟩⟩
  · rcases List.mem_append.mp hpath with hsent | hnamed
    · obtain ⟨item, hitem, rfl⟩ := List.mem_map.mp hsent
      obtain ⟨entry, hentry, hbrought⟩ := hmember item hitem
      exact hwalk.ordinary item (List.mem_filterMap.mpr ⟨entry, hdone.subset hentry, brought_shipped hbrought⟩)
    · obtain ⟨row, hin, rfl⟩ := List.mem_map.mp hnamed
      obtain ⟨entry, hentry, hcalled⟩ := hrow row hin
      obtain ⟨rfl, hshipped⟩ := called_shipped hcalled
      exact hwalk.ordinary _ (List.mem_filterMap.mpr ⟨entry, hdone.subset hentry, hshipped⟩)
  · refine List.pairwise_map.mpr (hfar.imp fun {one other} hclash hsame => ?_)
    rw [hsame, clash_self] at hclash
    cases hclash
  · rw [hheld, List.Nodup, List.pairwise_map, List.pairwise_filterMap]
    refine ((List.pairwise_map.mp hwalk.once).sublist hdone).imp fun hpaths row hcalls row' hcalls' hsame => ?_
    rw [(called_shipped hcalls).1, (called_shipped hcalls').1] at hsame
    exact hpaths hsame
  · intro path hsent other hnamed hsame
    obtain ⟨item, hitem, rfl⟩ := List.mem_map.mp hsent
    obtain ⟨row, hin, rfl⟩ := List.mem_map.mp hnamed
    obtain ⟨entry, hentry, hbrought⟩ := hmember item hitem
    obtain ⟨entry', hentry', hcalled⟩ := hrow row hin
    obtain ⟨rfl, hshipped⟩ := called_shipped hcalled
    have heq := hwalk.same (hdone.subset hentry) (hdone.subset hentry') (brought_shipped hbrought) hshipped
      (by rw [hsame]; exact clash_self _)
    rw [heq] at hbrought
    rw [called_of_brought (by rw [hbrought]; rfl)] at hcalled
    cases hcalled

/-- The size of the files an archive holds whole. -/
def carried (entries : List Entry) (members : List (Path × Bytes)) : ℕ :=
  (entries.map fun entry =>
    if !excluded entry.path && !live entry.path && entry.path ∈ members.map (·.1) then entry.stat.size else 0).sum

theorem Took.carried (hwalk : Walk world scope allowance entries) {left : List Entry} (hsplit : entries = done ++ left)
    (h : Took world center entries done writer) : carried entries writer.members = writer.sent := by
  have hnodup : (done ++ left).Nodup := hsplit ▸ List.Nodup.of_map _ hwalk.once
  -- a file whose path is in the archive is one that was taken
  have hsent : ∀ entry ∈ entries, excluded entry.path = false → live entry.path = false →
      entry.path ∈ writer.members.map (·.1) → entry ∈ done ∧ (brought world center entry).isSome := by
    intro entry hentry hkept hplain hpath
    obtain ⟨item, hitem, hsame⟩ := List.mem_map.mp hpath
    obtain ⟨other, hother, hbrought⟩ := List.mem_filterMap.mp (h.members ▸ hitem)
    have hin : other ∈ entries := hsplit ▸ List.mem_append_left _ hother
    have heq := hwalk.same hentry hin (shipped_plain hkept hplain) (brought_shipped hbrought)
      (by rw [hsame]; exact clash_self _)
    rw [heq]
    exact ⟨hother, by rw [hbrought]; rfl⟩
  have hdone : ∀ entry ∈ done, (if !excluded entry.path && !live entry.path &&
      entry.path ∈ writer.members.map (·.1) then entry.stat.size else 0) = weight world center entry := by
    intro entry hentry
    have hin : entry ∈ entries := hsplit ▸ List.mem_append_left _ hentry
    cases hexcluded : excluded entry.path with
    | true =>
        have hnothing : brought world center entry = none := by
          rw [brought, shipped, if_pos hexcluded]
          rfl
        simp [weight, hnothing]
    | false =>
        cases hlive : live entry.path with
        | true => simp [weight, hlive]
        | false =>
            by_cases hpath : entry.path ∈ writer.members.map (·.1)
            · simp only [weight, hlive, (hsent entry hin hexcluded hlive hpath).2, hpath]
              rfl
            · have hnone : (brought world center entry).isSome = false := by
                rw [Bool.eq_false_iff]
                intro hsome
                obtain ⟨item, hitem⟩ := Option.isSome_iff_exists.mp hsome
                have hsame := brought_shipped hitem
                rw [shipped_plain hexcluded hlive] at hsame
                cases hsame
                exact hpath (List.mem_map_of_mem (h.members ▸ List.mem_filterMap.mpr ⟨entry, hentry, hitem⟩))
              simp only [weight, hnone, hpath, decide_false, Bool.and_false]
  have hleft : ∀ entry ∈ left, (if !excluded entry.path && !live entry.path &&
      entry.path ∈ writer.members.map (·.1) then entry.stat.size else 0) = 0 := by
    intro entry hentry
    refine if_neg fun hall => ?_
    simp only [Bool.and_eq_true, Bool.not_eq_true', decide_eq_true_eq] at hall
    have hin : entry ∈ entries := hsplit ▸ List.mem_append_right _ hentry
    have htaken := (hsent entry hin hall.1.1 hall.1.2 hall.2).1
    exact (List.nodup_append.mp hnodup).2.2 entry htaken entry hentry rfl
  rw [Collection.carried, h.sent, hsplit, List.map_append, List.sum_append, List.map_congr_left hdone,
    List.map_congr_left hleft]
  simp

end Pack

/-! ### What the center has of a host -/

/-- A lake as its operations leave it: one digest a path, and an object whole for each. -/
structure Lake.Sound (world : World Digest) (lake : Lake Digest) : Prop where
  keys : (lake.index.map (·.1)).Nodup
  whole : ∀ row ∈ lake.index, lake.holds world row.2 = true

/-- Whether the center has a file at its path, or keeps it aside. -/
def settled (world : World Digest) (tree : List (Path × Bytes)) (scope : Path) (lake : Lake Digest) (entry : Entry) : Bool :=
  match shipped world entry with
  | none => true
  | some item =>
      if live entry.path then (expected world tree lake.index item.1).isSome
      else expected world tree lake.index item.1 = some (world.hash item.2) ||
        get lake.index (aside world scope item.1 (world.hash item.2)) = some (world.hash item.2)

/-- What a host sends of a file is on the center: in its tree or whole in its lake, and a journal's records under their
range. -/
def Accounted (world : World Digest) (tree : List (Path × Bytes)) (lake : Lake Digest) (entry : Entry) : Prop :=
  ∀ item, shipped world entry = some item →
    (∃ bytes, get tree item.1 = some bytes ∧ (live entry.path = true ∨ world.hash bytes = world.hash item.2)) ∨
    ∃ digest, lake.holds world digest = true ∧
      (digest = world.hash item.2 ∨ live entry.path = true ∧ get lake.index item.1 = some digest)

section Center

variable {world : World Digest} {tree : List (Path × Bytes)} {lake : Lake Digest} {scope : Path} {allowance : ℕ}
  {entries : List Entry} {archive : Archive Digest}

theorem Ordinary.ne {path : Path} (h : Ordinary scope path) : path ≠ scope := by
  obtain ⟨name, inside, -, rfl⟩ := h
  simp

theorem ordinary_not_conflict {path : Path} (h : Ordinary scope path) : ¬ (scope ++ [".conflicts"]).isPrefixOf path := by
  obtain ⟨name, inside, hname, rfl⟩ := h
  rw [isPrefixOf_append, List.isPrefixOf_iff_prefix, List.cons_prefix_cons]
  exact fun hprefix' => hname hprefix'.1.symm

/-- What is on the center stays there. -/
theorem Accounted.merge (hwalk : Walk world scope allowance entries) (hplain : Plain scope archive) {entry : Entry}
    (hentry : entry ∈ entries) (h : Accounted world tree lake entry) :
    Accounted world tree (merge world tree lake scope archive).1 entry := by
  intro item hitem
  rcases h item hitem with htree | ⟨digest, hholds, hdigest⟩
  · exact Or.inl htree
  · have hkept : (Collection.merge world tree lake scope archive).1.holds world digest = true :=
      (merge_holds hplain digest).mpr (Or.inl hholds)
    rcases hdigest with hsame | ⟨hlive, hget⟩
    · exact Or.inr ⟨digest, hkept, Or.inl hsame⟩
    · cases htree : get tree item.1 with
      | some bytes => exact Or.inl ⟨bytes, rfl, Or.inl hlive⟩
      | none =>
          have hordinary := hwalk.ordinary item (List.mem_filterMap.mpr ⟨entry, hentry, hitem⟩)
          have hexpected : expected world tree lake.index item.1 = some digest := by
            rw [expected, htree]
            exact hget
          have hstays := merge_keeps hplain (ordinary_not_conflict hordinary) hexpected
          rw [expected, htree] at hstays
          exact Or.inr ⟨digest, hkept, Or.inr ⟨hlive, hstays⟩⟩

theorem Lake.Sound.ingest (h : lake.Sound world) (staged : List (Path × Bytes)) :
    (lake.ingest world staged).Sound world := by
  refine ⟨?_, fun row hrow => ?_⟩
  · rw [ingest_index]
    exact nodup_keys_putAll h.keys _
  · rw [ingest_index] at hrow
    rw [ingest_holds]
    rcases mem_of_mem_putAll hrow with hnew | hold
    · obtain ⟨file, hfile, hkept, rfl⟩ := mem_rows.mp hnew
      exact Or.inr ⟨file, hfile, hkept, rfl⟩
    · exact Or.inl (h.whole row hold)

theorem Lake.Sound.merge (hplain : Plain scope archive) (h : lake.Sound world) :
    (merge world tree lake scope archive).1.Sound world := by
  obtain ⟨staged, -, ⟨hmerge, hstocks⟩ | ⟨row, -, hmerge, -⟩⟩ :=
    merge_cases world tree lake hplain <;> rw [hmerge]
  · refine ⟨nodup_keys_putAll (h.ingest staged).keys _, fun row hrow => ?_⟩
    rcases mem_of_mem_putAll hrow with hnew | hold
    · exact (Bool.and_eq_true_iff.mp (hstocks row hnew)).2
    · exact (h.ingest staged).whole row hold
  · exact h.ingest staged

end Center

section Pass

variable {world : World Digest} {tree : List (Path × Bytes)} {lake : Lake Digest} {scope : Path} {allowance : ℕ}
  {entries done left : List Entry} {writer : Writer Digest}

end Pass

/-! ### Passes -/

/-- The center's lake and the host's digests before a pass, each the outcome of the pass before. -/
def passes (world : World Digest) (tree : List (Path × Bytes)) (scope : Path) (allowance : ℕ) (entries : List Entry)
    (start : Lake Digest × Digests Digest) : ℕ → Lake Digest × Digests Digest
  | 0 => start
  | count + 1 =>
      let (lake, digests) := passes world tree scope allowance entries start count
      (pull world tree scope allowance entries lake digests).1

/-- How a pass ends. -/
def fault (world : World Digest) (tree : List (Path × Bytes)) (scope : Path) (allowance : ℕ) (entries : List Entry)
    (start : Lake Digest × Digests Digest) (count : ℕ) : Option Fault :=
  let (lake, digests) := passes world tree scope allowance entries start count
  (pull world tree scope allowance entries lake digests).2

section Passes

variable {world : World Digest} {tree : List (Path × Bytes)} {scope : Path} {allowance : ℕ} {entries : List Entry}
  {start : Lake Digest × Digests Digest}

end Passes

end Mainboard.Collection
