import Mainboard.PixiLock

/-! The names of the platforms. The bodies of one subdirectory are ranked by their texts, bodies of one text
as the roster has them, and a platform's name is its subdirectory and, where it shares that, its rank. Over
subdirectories without a `#` the names of all platforms are distinct, and a name tells its subdirectory. -/

namespace Mainboard.Pixi

section Runs

variable {α κ : Type} [LinearOrder κ] (key : α → κ)

theorem filter_flatMap_runs {runs : List (κ × List α)} (hkeys : runs.Pairwise fun one other => one.1 < other.1)
    (hruns : ∀ run ∈ runs, ∀ item ∈ run.2, key item = run.1) {run : κ × List α} (h : run ∈ runs) :
    StableSort.atKey key (runs.flatMap (·.2)) run.1 = run.2 := by
  have hown : ∀ one ∈ runs, StableSort.atKey key one.2 one.1 = one.2 := fun one hone =>
    List.filter_eq_self.mpr fun item hitem => decide_eq_true (hruns one hone item hitem)
  have hother : ∀ one ∈ runs, one.1 ≠ run.1 → StableSort.atKey key one.2 run.1 = [] := fun one hone hne =>
    List.filter_eq_nil_iff.mpr fun item hitem hkey =>
      hne ((hruns one hone item hitem).symm.trans (of_decide_eq_true hkey))
  induction runs with
  | nil => cases h
  | cons first runs ih =>
      obtain ⟨hfirst, hrest⟩ := List.pairwise_cons.mp hkeys
      have hsplit : StableSort.atKey key ((first :: runs).flatMap (·.2)) run.1 =
          StableSort.atKey key first.2 run.1 ++ StableSort.atKey key (runs.flatMap (·.2)) run.1 := by
        rw [List.flatMap_cons, StableSort.atKey, List.filter_append]
        rfl
      rw [hsplit]
      rcases List.mem_cons.mp h with rfl | hlater
      · have hnone : StableSort.atKey key (runs.flatMap (·.2)) run.1 = [] := by
          refine List.filter_eq_nil_iff.mpr fun item hitem hkey => ?_
          obtain ⟨one, hone, hin⟩ := List.mem_flatMap.mp hitem
          have hsame := (hruns one (List.mem_cons_of_mem _ hone) item hin).symm.trans (of_decide_eq_true hkey)
          exact absurd hsame (ne_of_gt (hfirst one hone))
        rw [hnone, hown run List.mem_cons_self, List.append_nil]
      · rw [hother first List.mem_cons_self (ne_of_lt (hfirst run hlater)), List.nil_append]
        exact ih hrest (fun one hone => hruns one (List.mem_cons_of_mem _ hone)) hlater
          (fun one hone => hown one (List.mem_cons_of_mem _ hone))
          (fun one hone => hother one (List.mem_cons_of_mem _ hone))

/-- Sorted by a key and cut where the key changes, a list comes apart into the elements of each key. -/
theorem mem_groupBy_sortOn [DecidableEq κ] {items : List α} {run : κ × List α} :
    run ∈ Grouping.groupBy key (StableSort.sortOn key items) ↔
      run.2 = StableSort.atKey key items run.1 ∧ run.2 ≠ [] := by
  have hruns : ∀ run ∈ Grouping.groupBy key (StableSort.sortOn key items),
      run.2 ≠ [] ∧ ∀ item ∈ run.2, key item = run.1 := fun _ hrun => Grouping.mem_groupBy key hrun
  have hpairs := Grouping.groupBy_pairwise key (StableSort.rising_sortOn key items)
  have hcut : ∀ run ∈ Grouping.groupBy key (StableSort.sortOn key items), run.2 = StableSort.atKey key items run.1 := by
    intro run hrun
    have hown := filter_flatMap_runs key hpairs (fun run hrun => (hruns run hrun).2) hrun
    rw [Grouping.flatMap_groupBy, StableSort.atKey_sortOn] at hown
    exact hown.symm
  constructor
  · intro hrun
    exact ⟨hcut run hrun, (hruns run hrun).1⟩
  · rintro ⟨hrun, hne⟩
    obtain ⟨item, hitem⟩ := List.exists_mem_of_ne_nil _ hne
    rw [hrun] at hitem
    obtain ⟨hlisted, hkey⟩ := (StableSort.mem_atKey key).mp hitem
    obtain ⟨other, hother, -, hsame⟩ := Grouping.exists_groupBy key ((StableSort.mem_sortOn key).mpr hlisted)
    have hone : run = other := by
      refine Prod.ext (hkey.symm.trans hsame.symm) ?_
      rw [hrun, hcut other hother, hsame, hkey]
    exact hone ▸ hother

end Runs

/-- The bodies of a subdirectory, in the order of their ranks. -/
def rankedBodies (bodies : List (Line × Line × Line)) (subdir : Line) : List (Line × Line × Line) :=
  StableSort.sortOn (·.2.2) (StableSort.atKey (·.2.1) bodies subdir)

/-- The pairs the names are put from. -/
def namedPairs (bodies : List (Line × Line × Line)) : List (Line × Line) :=
  (Grouping.groupBy (·.2.1) (StableSort.sortOn (·.2.1) bodies)).flatMap fun group =>
    (StableSort.sortOn (·.2.2) group.2).zipIdx.map fun entry =>
      (entry.1.1, nameOf group.1 (StableSort.sortOn (·.2.2) group.2).length entry.2)

theorem mem_namedPairs {bodies : List (Line × Line × Line)} {pair : Line × Line} :
    pair ∈ namedPairs bodies ↔ ∃ subdir rank body, (rankedBodies bodies subdir)[rank]? = some body ∧
      pair = (body.1, nameOf subdir (rankedBodies bodies subdir).length rank) := by
  constructor
  · intro h
    obtain ⟨group, hgroup, hpair⟩ := List.mem_flatMap.mp h
    obtain ⟨hown, -⟩ := (mem_groupBy_sortOn (fun body : Line × Line × Line => body.2.1)).mp hgroup
    obtain ⟨entry, hentry, rfl⟩ := List.mem_map.mp hpair
    rw [hown] at hentry ⊢
    exact ⟨group.1, entry.2, entry.1, List.mem_zipIdx_iff_getElem?.mp hentry, rfl⟩
  · rintro ⟨subdir, rank, body, hbody, rfl⟩
    refine List.mem_flatMap.mpr ⟨(subdir, StableSort.atKey (·.2.1) bodies subdir), ?_, ?_⟩
    · refine (mem_groupBy_sortOn _).mpr ⟨rfl, fun hnil => ?_⟩
      have hnone : StableSort.atKey (·.2.1) bodies subdir = [] := hnil
      rw [rankedBodies, hnone] at hbody
      cases hbody
    · exact List.mem_map.mpr ⟨(body, rank), List.mem_zipIdx_iff_getElem?.mpr hbody, rfl⟩

theorem map_namedPairs (bodies : List (Line × Line × Line)) :
    ((namedPairs bodies).map (·.1)).Perm (bodies.map (·.1)) := by
  have hgroup : ∀ group : Line × List (Line × Line × Line),
      ((StableSort.sortOn (·.2.2) group.2).zipIdx.map fun entry =>
        (entry.1.1, nameOf group.1 (StableSort.sortOn (·.2.2) group.2).length entry.2)).map (·.1) =
          (StableSort.sortOn (·.2.2) group.2).map (·.1) := by
    intro group
    rw [List.map_map]
    have hzip := congrArg (List.map (·.1)) (List.zipIdx_map_fst 0 (StableSort.sortOn (·.2.2) group.2))
    rwa [List.map_map] at hzip
  have hgroups : ∀ groups : List (Line × List (Line × Line × Line)),
      ((groups.flatMap fun group => (StableSort.sortOn (·.2.2) group.2).zipIdx.map fun entry =>
        (entry.1.1, nameOf group.1 (StableSort.sortOn (·.2.2) group.2).length entry.2)).map (·.1)).Perm
          ((groups.flatMap (·.2)).map (·.1)) := by
    intro groups
    induction groups with
    | nil => exact List.Perm.refl _
    | cons group groups ih =>
        rw [List.flatMap_cons, List.flatMap_cons, List.map_append, List.map_append, hgroup]
        exact ((StableSort.sortOn_perm _ _).map _).append ih
  refine (hgroups _).trans ?_
  rw [Grouping.flatMap_groupBy]
  exact (StableSort.sortOn_perm _ _).map _

theorem mem_keys_assigned {bodies : List (Line × Line × Line)} {label : Line} :
    label ∈ (assigned bodies).map (·.1) ↔ label ∈ bodies.map (·.1) :=
  OrderedMap.mem_keys_ofPairs.trans (map_namedPairs bodies).mem_iff

/-- Under distinct labels, the body of a rank has the name of its rank. -/
theorem get_assigned {bodies : List (Line × Line × Line)} (hlabels : (bodies.map (·.1)).Nodup) {subdir : Line}
    {rank : ℕ} {body : Line × Line × Line} (h : (rankedBodies bodies subdir)[rank]? = some body) :
    OrderedMap.get (assigned bodies) body.1 = some (nameOf subdir (rankedBodies bodies subdir).length rank) := by
  have hkeys : ((namedPairs bodies).map (·.1)).Nodup := (map_namedPairs bodies).nodup_iff.mpr hlabels
  have hput : assigned bodies = namedPairs bodies := OrderedMap.putAll_of_nodup hkeys
  rw [hput]
  exact OrderedMap.get_of_mem hkeys (mem_namedPairs.mpr ⟨subdir, rank, body, h, rfl⟩)

/-- Digits tell their number. -/
theorem toDigits_inj {one other : ℕ} (h : Nat.toDigits 10 one = Nat.toDigits 10 other) : one = other := by
  rw [← Nat.ofDigitChars_toDigits (b := 10) (n := one) (by decide) (by decide), h,
    Nat.ofDigitChars_toDigits (by decide) (by decide)]

/-- A text before its first `#` and what follows it. -/
theorem append_hash_inj {one other rest after : Line} (hone : '#' ∉ one) (hother : '#' ∉ other)
    (h : one ++ '#' :: rest = other ++ '#' :: after) : one = other ∧ rest = after := by
  have hhead : ∀ tail : Line, ∀ c ∈ ('#' :: tail).head?, ¬c ≠ '#' := fun tail c hc => by
    rw [List.head?_cons, Option.mem_some_iff] at hc
    exact not_not.mpr hc.symm
  have hplain : ∀ text : Line, '#' ∉ text → ∀ c ∈ text, c ≠ '#' := fun text htext c hc hsame => htext (hsame ▸ hc)
  obtain ⟨hsame, htail⟩ := BlockLines.section_inj (hplain one hone) (hplain other hother) (hhead rest) (hhead after) h
  exact ⟨hsame, (List.cons.inj htail).2⟩

/-- A name tells its subdirectory, whether the subdirectory is shared, and the rank in it. -/
theorem nameOf_inj {subdir other : Line} {sharing among rank place : ℕ} (hsubdir : '#' ∉ subdir) (hother : '#' ∉ other)
    (hrank : rank < sharing) (hplace : place < among) (h : nameOf subdir sharing rank = nameOf other among place) :
    subdir = other ∧ (sharing = 1 ↔ among = 1) ∧ rank = place := by
  unfold nameOf at h
  by_cases hone : sharing = 1
  · rw [if_pos hone] at h
    by_cases hamong : among = 1
    · rw [if_pos hamong] at h
      exact ⟨h, iff_of_true hone hamong, by omega⟩
    · rw [if_neg hamong] at h
      refine absurd ?_ hsubdir
      rw [h]
      exact List.mem_append_right _ List.mem_cons_self
  · rw [if_neg hone] at h
    by_cases hamong : among = 1
    · rw [if_pos hamong] at h
      refine absurd ?_ hother
      rw [← h]
      exact List.mem_append_right _ List.mem_cons_self
    · rw [if_neg hamong] at h
      obtain ⟨hsame, hdigits⟩ := append_hash_inj hsubdir hother h
      exact ⟨hsame, iff_of_false hone hamong, toDigits_inj hdigits⟩

end Mainboard.Pixi
