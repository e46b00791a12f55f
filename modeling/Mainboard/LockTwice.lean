import Mainboard.LockRespelled

/-! When the canonical lock is canonical. The platforms of a subdirectory that have a line for it keep their
names only if the one labelled with it comes last and leaves more than one behind; and where platforms tie,
the ranks are given again in the order of the spelled names, which past ten is not the order of the ranks. -/

namespace Mainboard.Pixi

/-- A joined text begins with its first line. -/
theorem intercalate_cons (first : Line) (rest : List Line) :
    ∃ after, ['\n'].intercalate (first :: rest) = first ++ after := by
  cases rest with
  | nil => exact ⟨[], by simp [List.intercalate]⟩
  | cons next rest => exact ⟨_, by rw [List.intercalate, List.intersperse_cons_cons, List.flatten_cons]⟩

namespace Platform

theorem body_of_declared {platform : Platform} {subdir : Line} (h : platform.declared = some subdir) :
    ∃ rest, platform.body = "  ".toList ++ 's' :: rest := by
  have hlines : platform.bodyLines = ("  subdir: ".toList ++ subdir) ::
      (if platform.vouched = [] then [] else
        "  virtual-packages:".toList :: platform.vouched.map ("  - ".toList ++ ·)) := by
    unfold bodyLines
    rw [h]
    rfl
  obtain ⟨after, hafter⟩ := intercalate_cons ("  subdir: ".toList ++ subdir)
    (if platform.vouched = [] then [] else
      "  virtual-packages:".toList :: platform.vouched.map ("  - ".toList ++ ·))
  refine ⟨"ubdir: ".toList ++ (subdir ++ after), ?_⟩
  rw [body, hlines, hafter, List.append_assoc]
  simp

theorem body_of_vouched {platform : Platform} (h : platform.declared = none) (hvouched : platform.vouched ≠ []) :
    ∃ rest, platform.body = "  ".toList ++ 'v' :: rest := by
  have hlines : platform.bodyLines =
      "  virtual-packages:".toList :: platform.vouched.map ("  - ".toList ++ ·) := by
    unfold bodyLines
    rw [h, if_neg hvouched]
    rfl
  obtain ⟨after, hafter⟩ := intercalate_cons "  virtual-packages:".toList (platform.vouched.map ("  - ".toList ++ ·))
  refine ⟨"irtual-packages:".toList ++ after, ?_⟩
  rw [body, hlines, hafter]
  simp

theorem body_of_bare {platform : Platform} (h : platform.declared = none) (hvouched : platform.vouched = []) :
    platform.body = [] := by
  have hlines : platform.bodyLines = [] := by
    unfold bodyLines
    rw [h, if_pos hvouched]
    rfl
  rw [body, hlines]
  rfl

/-- A platform with a line for its subdirectory ranks before one without that vouches a package. -/
theorem body_lt_of_vouched {one other : Platform} {subdir : Line} (hone : one.declared = some subdir)
    (hother : other.declared = none) (hvouched : other.vouched ≠ []) : one.body < other.body := by
  obtain ⟨rest, hrest⟩ := body_of_declared hone
  obtain ⟨after, hafter⟩ := body_of_vouched hother hvouched
  rw [hrest, hafter, ← not_le, append_le_append_iff, not_le, List.cons_lt_cons_iff]
  exact Or.inl (by decide)

/-- A platform with a line for its subdirectory ranks after one without that vouches nothing. -/
theorem bare_lt_body {one other : Platform} {subdir : Line} (hone : one.declared = some subdir)
    (hother : other.declared = none) (hvouched : other.vouched = []) : other.body < one.body := by
  obtain ⟨rest, hrest⟩ := body_of_declared hone
  rw [body_of_bare hother hvouched, hrest]
  simp

end Platform

namespace Lock

variable {lock : Lock}

/-- The platforms of a subdirectory that have a line for it, in the order of their ranks among each other. -/
def regularRanked (lock : Lock) (subdir : Line) : List Platform :=
  StableSort.sortOn Platform.body (lock.regular subdir)

theorem mem_regular {subdir : Line} {platform : Platform} :
    platform ∈ lock.regular subdir ↔ platform ∈ lock.platforms ∧ platform.declared = some subdir := by
  rw [regular, List.mem_filter, decide_eq_true_eq]

theorem subdir_of_declared {platform : Platform} {subdir : Line} (h : platform.declared = some subdir) :
    platform.subdir = subdir := by
  rw [Platform.subdir, h]
  rfl

theorem regularRanked_eq (lock : Lock) (subdir : Line) : lock.regularRanked subdir =
    (lock.ranked subdir).filter fun platform => platform.declared = some subdir := by
  rw [ranked, StableSort.filter_sortOn, regularRanked, sharing, regular]
  refine congrArg (StableSort.sortOn Platform.body) (StableSort.filter_atKey _ fun platform _ hdeclared => ?_).symm
  exact subdir_of_declared (of_decide_eq_true hdeclared)

/-- Where no platform is labelled with a subdirectory, all its platforms have a line for it. -/
theorem ranked_of_no_plain {subdir : Line}
    (h : ∀ platform ∈ lock.platforms, platform.subdir = subdir → platform.declared ≠ none) :
    lock.ranked subdir = lock.regularRanked subdir := by
  rw [regularRanked_eq]
  refine (List.filter_eq_self.mpr fun platform hplatform => decide_eq_true ?_).symm
  obtain ⟨hin, hsubdir⟩ := mem_ranked.mp hplatform
  cases hdeclared : platform.declared with
  | none => exact absurd hdeclared (h platform hin hsubdir)
  | some written => rw [← hsubdir, subdir_of_declared hdeclared]

theorem Written.regular_or_eq (h : lock.Written) {plain platform : Platform} (hplain : plain ∈ lock.platforms)
    (hnone : plain.declared = none) (hplatform : platform ∈ lock.ranked plain.subdir) :
    platform.declared = some plain.subdir ∨ platform = plain := by
  obtain ⟨hin, hsubdir⟩ := mem_ranked.mp hplatform
  cases hdeclared : platform.declared with
  | none => exact Or.inr (h.plain_inj hin hplain hdeclared hnone hsubdir)
  | some written => exact Or.inl (by rw [← hsubdir, subdir_of_declared hdeclared])

theorem Written.nodup_ranked (h : lock.Written) (subdir : Line) : (lock.ranked subdir).Nodup :=
  (StableSort.sortOn_perm _ _).nodup_iff.mpr ((List.Nodup.of_map _ h.labels).filter _)

/-- Where the platform labelled with a subdirectory has a body of its own among the ranks, it stands there
alone. -/
theorem Written.atKey_plain (h : lock.Written) {plain : Platform} (hplain : plain ∈ lock.platforms)
    (hnone : plain.declared = none) (hbody : ∀ platform : Platform, platform.declared = some plain.subdir →
      platform.body ≠ plain.body) :
    StableSort.atKey Platform.body (lock.ranked plain.subdir) plain.body = [plain] := by
  refine List.perm_singleton.mp ((List.perm_ext_iff_of_nodup ((h.nodup_ranked _).filter _)
    (List.nodup_singleton _)).mpr fun platform => ⟨fun hmem => ?_, fun hmem => ?_⟩)
  · obtain ⟨hin, hsame⟩ := (StableSort.mem_atKey _).mp hmem
    rcases h.regular_or_eq hplain hnone hin with hdeclared | heq
    · exact absurd hsame (hbody platform hdeclared)
    · exact List.mem_singleton.mpr heq
  · rw [List.mem_singleton.mp hmem]
    exact (StableSort.mem_atKey _).mpr ⟨mem_ranked.mpr ⟨hplain, rfl⟩, rfl⟩

/-- A platform labelled with its subdirectory that vouches a package comes last. -/
theorem Written.ranked_of_vouched (h : lock.Written) {plain : Platform} (hplain : plain ∈ lock.platforms)
    (hnone : plain.declared = none) (hvouched : plain.vouched ≠ []) :
    lock.ranked plain.subdir = lock.regularRanked plain.subdir ++ [plain] := by
  have hbefore : ∀ platform : Platform, platform.declared = some plain.subdir → platform.body < plain.body :=
    fun platform hdeclared => Platform.body_lt_of_vouched hdeclared hnone hvouched
  have hsplit := StableSort.rising_split Platform.body
    (StableSort.rising_sortOn Platform.body (lock.sharing plain.subdir)) plain.body
  have habove : StableSort.above Platform.body (lock.ranked plain.subdir) plain.body = [] :=
    List.eq_nil_iff_forall_not_mem.mpr fun platform hplatform => by
      obtain ⟨hin, hlt⟩ := (StableSort.mem_above _).mp hplatform
      rcases h.regular_or_eq hplain hnone hin with hdeclared | rfl
      · exact absurd hlt (not_lt_of_gt (hbefore platform hdeclared))
      · exact absurd hlt (lt_irrefl _)
  have hbelow : StableSort.below Platform.body (lock.ranked plain.subdir) plain.body =
      lock.regularRanked plain.subdir := by
    rw [regularRanked_eq]
    refine StableSort.below_eq_filter _ fun platform hplatform => ?_
    rw [decide_eq_true_eq]
    rcases h.regular_or_eq hplain hnone hplatform with hdeclared | rfl
    · exact iff_of_true (hbefore platform hdeclared) hdeclared
    · exact iff_of_false (lt_irrefl _) (fun hsome => Option.some_ne_none _ (hsome.symm.trans hnone))
  have hown := h.atKey_plain hplain hnone fun platform hdeclared => ne_of_lt (hbefore platform hdeclared)
  unfold ranked at habove hbelow hown ⊢
  rw [habove, hbelow, hown] at hsplit
  exact hsplit

/-- A platform labelled with its subdirectory that vouches nothing comes first. -/
theorem Written.ranked_of_bare (h : lock.Written) {plain : Platform} (hplain : plain ∈ lock.platforms)
    (hnone : plain.declared = none) (hvouched : plain.vouched = []) :
    lock.ranked plain.subdir = plain :: lock.regularRanked plain.subdir := by
  have hafter : ∀ platform : Platform, platform.declared = some plain.subdir → plain.body < platform.body :=
    fun platform hdeclared => Platform.bare_lt_body hdeclared hnone hvouched
  have hsplit := StableSort.rising_split Platform.body
    (StableSort.rising_sortOn Platform.body (lock.sharing plain.subdir)) plain.body
  have hbelow : StableSort.below Platform.body (lock.ranked plain.subdir) plain.body = [] :=
    List.eq_nil_iff_forall_not_mem.mpr fun platform hplatform => by
      obtain ⟨hin, hlt⟩ := (StableSort.mem_below _).mp hplatform
      rcases h.regular_or_eq hplain hnone hin with hdeclared | rfl
      · exact absurd hlt (not_lt_of_gt (hafter platform hdeclared))
      · exact absurd hlt (lt_irrefl _)
  have habove : StableSort.above Platform.body (lock.ranked plain.subdir) plain.body =
      lock.regularRanked plain.subdir := by
    rw [regularRanked_eq]
    refine StableSort.above_eq_filter _ fun platform hplatform => ?_
    rw [decide_eq_true_eq]
    rcases h.regular_or_eq hplain hnone hplatform with hdeclared | rfl
    · exact iff_of_true (hafter platform hdeclared) hdeclared
    · exact iff_of_false (lt_irrefl _) (fun hsome => Option.some_ne_none _ (hsome.symm.trans hnone))
  have hown := h.atKey_plain hplain hnone fun platform hdeclared => ne_of_gt (hafter platform hdeclared)
  unfold ranked at habove hbelow hown ⊢
  rw [habove, hbelow, hown] at hsplit
  exact hsplit

/-- The platforms of a subdirectory that have a line for it, in the order of their ranks in the canonical
text read again. -/
def regularAgain (lock : Lock) (subdir : Line) : List Platform :=
  StableSort.sortOn Platform.body (lock.byName.filter fun platform => platform.declared = some subdir)

theorem length_regularAgain (lock : Lock) (subdir : Line) :
    (lock.regularAgain subdir).length = (lock.regularRanked subdir).length := by
  rw [regularAgain, regularRanked, StableSort.length_sortOn, StableSort.length_sortOn]
  exact ((StableSort.sortOn_perm lock.name lock.platforms).filter _).length_eq

/-- Read again, a subdirectory some platform has a line for is solved for by those that have it. -/
theorem Written.readAs_regular (h : lock.Written) {subdir : Line} (hne : lock.regular subdir ≠ []) :
    lock.readAs subdir = lock.byName.filter fun platform => platform.declared = some subdir := by
  obtain ⟨regular, hregular⟩ := List.exists_mem_of_ne_nil _ hne
  obtain ⟨hin, hdeclared⟩ := mem_regular.mp hregular
  have hsubdir := subdir_of_declared hdeclared
  have hfree : '#' ∉ subdir := hsubdir ▸ (h.conda regular hin).2.2
  refine StableSort.atKey_eq_filter _ fun platform hplatform => ?_
  rw [decide_eq_true_eq]
  constructor
  · intro hread
    cases hwritten : platform.declared with
    | some written =>
        simp only [hwritten, Option.getD_some] at hread
        exact congrArg some hread
    | none =>
        simp only [hwritten, Option.getD_none] at hread
        obtain ⟨hsame, hone⟩ := (h.name_eq_iff (mem_byName.mp hplatform) hfree).mp hread
        obtain ⟨only, honly⟩ := List.length_eq_one_iff.mp hone
        have hfirst : platform ∈ lock.sharing subdir :=
          (StableSort.mem_atKey _).mpr ⟨mem_byName.mp hplatform, hsame⟩
        have hsecond : regular ∈ lock.sharing subdir := (StableSort.mem_atKey _).mpr ⟨hin, hsubdir⟩
        rw [honly] at hfirst hsecond
        rw [List.mem_singleton.mp hsecond, ← List.mem_singleton.mp hfirst, hwritten] at hdeclared
        cases hdeclared
  · intro hwritten
    simp only [hwritten, Option.getD_some]

/-- A platform with a line for its subdirectory is named again by its rank among those that have it. -/
theorem Written.nameAgain_regular (h : lock.Written) {subdir : Line} {rank : ℕ} {platform : Platform}
    (hrank : (lock.regularAgain subdir)[rank]? = some platform) :
    lock.nameAgain platform = nameOf subdir (lock.regularRanked subdir).length rank := by
  have hne : lock.regular subdir ≠ [] := fun hnil => by
    have hlength := lock.length_regularAgain subdir
    rw [regularRanked, hnil] at hlength
    rw [List.length_eq_zero_iff.mp hlength] at hrank
    cases hrank
  have hread := h.readAs_regular hne
  have hlength : (lock.readAs subdir).length = (lock.regularRanked subdir).length := by
    rw [hread, ← length_regularAgain, regularAgain, StableSort.length_sortOn]
  rw [← hlength]
  refine h.toNamed.nameAgain_of_rank ?_
  rw [hread]
  exact hrank

/-- When the canonical lock is canonical: a platform labelled with a subdirectory it shares vouches a package
and leaves at least two behind, and platforms that tie have the same packages in the order of their ranks as
in the order in which these are spelled. -/
structure SettlesAtOnce (lock : Lock) : Prop where
  plain : ∀ platform ∈ lock.platforms, platform.label = platform.subdir →
    (lock.sharing platform.subdir).length ≠ 1 → 3 ≤ (lock.sharing platform.subdir).length ∧ platform.vouched ≠ []
  ties : ∀ subdir body, bySpelling (lock.below subdir body) (lock.standing subdir body) = lock.standing subdir body

theorem length_ranked (lock : Lock) (subdir : Line) : (lock.ranked subdir).length = (lock.sharing subdir).length :=
  StableSort.length_sortOn _ _

/-- Platforms that tie are named by ranks that follow one another. -/
theorem Written.name_of_tied (h : lock.Written) {subdir body : Line} {i : ℕ} {platform : Platform}
    (htied : (lock.tied subdir body)[i]? = some platform) :
    lock.name platform = nameOf subdir (lock.sharing subdir).length (lock.below subdir body + i) := by
  rw [← length_ranked]
  exact h.name_of_rank (StableSort.getElem?_sortOn Platform.body _ _ htied)

/-- In the order of the names, platforms that tie are in the order in which their ranks are spelled. -/
theorem Written.byName_tied (h : lock.Written) (subdir body : Line) :
    StableSort.sortOn lock.name (lock.tied subdir body) = bySpelling (lock.below subdir body) (lock.tied subdir body) := by
  by_cases hone : (lock.sharing subdir).length = 1
  · have hshort : (lock.tied subdir body).length ≤ 1 := hone ▸ List.length_filter_le _ _
    rw [bySpelling_of_length_le_one _ hshort]
    refine StableSort.sortOn_of_rising _ ?_
    cases htied : lock.tied subdir body with
    | nil => exact List.Pairwise.nil
    | cons platform rest =>
        rw [htied, List.length_cons] at hshort
        rw [List.length_eq_zero_iff.mp (by omega : rest.length = 0)]
        exact List.pairwise_singleton _ _
  · have hspelled : ∀ entry ∈ (lock.tied subdir body).zipIdx (lock.below subdir body),
        lock.name entry.1 = (subdir ++ ['#']) ++ Nat.toDigits 10 entry.2 := by
      intro entry hentry
      obtain ⟨hle, hat⟩ := List.mem_zipIdx_iff_le_and_getElem?_sub.mp hentry
      rw [h.name_of_tied hat, nameOf, if_neg hone, Nat.add_sub_cancel' hle, List.append_assoc]
      rfl
    have hsorted := List.map_insertionSort (StableSort.Precedes fun entry : Platform × ℕ => Nat.toDigits 10 entry.2)
      (StableSort.Precedes lock.name) (·.1) ((lock.tied subdir body).zipIdx (lock.below subdir body))
      (fun one hone another hanother => by
        rw [StableSort.Precedes, StableSort.Precedes, hspelled one hone, hspelled another hanother, append_le_append_iff])
    rw [List.zipIdx_map_fst] at hsorted
    exact hsorted.symm

/-- Platforms that tie with one that has no line for its subdirectory are that platform alone. -/
theorem Written.tied_of_plain (h : lock.Written) {plain : Platform} (hplain : plain ∈ lock.platforms)
    (hnone : plain.declared = none) : lock.tied plain.subdir plain.body = [plain] := by
  have hbody : ∀ platform : Platform, platform.declared = some plain.subdir → platform.body ≠ plain.body := by
    intro platform hdeclared
    by_cases hvouched : plain.vouched = []
    · exact ne_of_gt (Platform.bare_lt_body hdeclared hnone hvouched)
    · exact ne_of_lt (Platform.body_lt_of_vouched hdeclared hnone hvouched)
  have hown := h.atKey_plain hplain hnone hbody
  rwa [ranked, StableSort.atKey_sortOn] at hown

/-- The platforms with a line for a subdirectory have the same packages in the ranks they are given again
exactly when those that tie have them in the order in which their ranks are spelled. -/
theorem Written.map_regularAgain_iff (h : lock.Written) (subdir : Line) :
    (lock.regularAgain subdir).map lock.content = (lock.regularRanked subdir).map lock.content ↔
      ∀ body, bySpelling (lock.below subdir body) (lock.standing subdir body) = lock.standing subdir body := by
  have hagain : (lock.regularAgain subdir).map lock.content = StableSort.sortOn bodyOf
      ((lock.byName.filter fun platform => platform.declared = some subdir).map lock.content) :=
    StableSort.map_sortOn Platform.body lock.content bodyOf _ fun _ _ => rfl
  have hranked : (lock.regularRanked subdir).map lock.content = StableSort.sortOn bodyOf
      ((lock.regular subdir).map lock.content) :=
    StableSort.map_sortOn Platform.body lock.content bodyOf _ fun _ _ => rfl
  rw [hagain, hranked, StableSort.sortOn_eq_iff]
  refine forall_congr' fun body => ?_
  have hmap := fun items : List Platform => StableSort.atKey_map Platform.body lock.content bodyOf items (fun _ => rfl) body
  rw [hmap, hmap]
  by_cases hplain : ∃ platform ∈ lock.tied subdir body, platform.declared = none
  · -- a platform without the line ties with nothing, and is not among those that have it
    obtain ⟨plain, hmem, hnone⟩ := hplain
    obtain ⟨hin, hsubdir, hbody⟩ := mem_tied.mp hmem
    have hsingle : lock.tied subdir body = [plain] := by
      rw [← hsubdir, ← hbody]
      exact h.tied_of_plain hin hnone
    have hempty : ∀ items : List Platform, (∀ platform ∈ items, platform ∈ lock.platforms) →
        StableSort.atKey Platform.body (items.filter fun platform => platform.declared = some subdir) body = [] := by
      intro items hitems
      refine List.eq_nil_iff_forall_not_mem.mpr fun platform hplatform => ?_
      obtain ⟨hfiltered, hsame⟩ := (StableSort.mem_atKey _).mp hplatform
      obtain ⟨hlisted, hdeclared⟩ := List.mem_filter.mp hfiltered
      have hdeclared := of_decide_eq_true hdeclared
      have htied : platform ∈ lock.tied subdir body :=
        mem_tied.mpr ⟨hitems platform hlisted, subdir_of_declared hdeclared, hsame⟩
      rw [hsingle] at htied
      rw [List.mem_singleton.mp htied, hnone] at hdeclared
      cases hdeclared
    refine iff_of_true ?_ ?_
    · rw [hempty _ fun platform hplatform => mem_byName.mp hplatform]
      exact congrArg (List.map lock.content) (hempty _ fun _ hplatform => hplatform).symm
    · rw [standing_eq, hsingle]
      rfl
  · have hdeclared : ∀ platform ∈ lock.tied subdir body, platform.declared = some subdir := by
      intro platform hmem
      cases hdeclared : platform.declared with
      | none => exact absurd ⟨platform, hmem, hdeclared⟩ hplain
      | some written => rw [← (mem_tied.mp hmem).2.1, subdir_of_declared hdeclared]
    have htied : StableSort.atKey Platform.body (lock.regular subdir) body = lock.tied subdir body := by
      have hregular : lock.regular subdir =
          (lock.sharing subdir).filter fun platform => platform.declared = some subdir :=
        (StableSort.filter_atKey _ fun platform _ hsome => subdir_of_declared (of_decide_eq_true hsome)).symm
      rw [hregular, StableSort.atKey, List.filter_comm]
      exact List.filter_eq_self.mpr fun platform hplatform => decide_eq_true (hdeclared platform hplatform)
    have hordered : StableSort.atKey Platform.body
        (lock.byName.filter fun platform => platform.declared = some subdir) body =
          bySpelling (lock.below subdir body) (lock.tied subdir body) := by
      rw [← h.byName_tied, ← htied, byName, StableSort.filter_sortOn, StableSort.atKey, StableSort.filter_sortOn]
      rfl
    rw [hordered, htied, map_bySpelling, standing_eq]

/-- A platform with a line for its subdirectory is named by its rank among those that have it, where the one
labelled with the subdirectory comes last and leaves two behind. -/
theorem Written.name_regularRanked (h : lock.Written) (hplain : ∀ platform ∈ lock.platforms,
    platform.label = platform.subdir → (lock.sharing platform.subdir).length ≠ 1 →
      3 ≤ (lock.sharing platform.subdir).length ∧ platform.vouched ≠ []) {subdir : Line} {rank : ℕ}
    {platform : Platform} (hrank : (lock.regularRanked subdir)[rank]? = some platform) :
    lock.name platform = nameOf subdir (lock.regularRanked subdir).length rank := by
  have hlt := (List.getElem?_eq_some_iff.mp hrank).1
  by_cases hexists : ∃ plain ∈ lock.platforms, plain.subdir = subdir ∧ plain.declared = none
  · obtain ⟨plain, hin, rfl, hnone⟩ := hexists
    have hsharing : (lock.sharing plain.subdir).length ≠ 1 := by
      intro hone
      obtain ⟨only, honly⟩ := List.length_eq_one_iff.mp hone
      have hregular := mem_regular.mp ((StableSort.mem_sortOn _).mp (List.mem_of_getElem? hrank))
      have hfirst : plain ∈ lock.sharing plain.subdir := (StableSort.mem_atKey _).mpr ⟨hin, rfl⟩
      have hsecond : platform ∈ lock.sharing plain.subdir :=
        (StableSort.mem_atKey _).mpr ⟨hregular.1, subdir_of_declared hregular.2⟩
      rw [honly] at hfirst hsecond
      have hsame := hregular.2
      rw [List.mem_singleton.mp hsecond, ← List.mem_singleton.mp hfirst, hnone] at hsame
      cases hsame
    obtain ⟨hthree, hvouched⟩ := hplain plain hin ((h.label_iff hin).mpr hnone) hsharing
    have hranked := h.ranked_of_vouched hin hnone hvouched
    have hlength : (lock.ranked plain.subdir).length = (lock.regularRanked plain.subdir).length + 1 := by
      rw [hranked, List.length_append, List.length_singleton]
    have hat : (lock.ranked plain.subdir)[rank]? = some platform := by
      rw [hranked, List.getElem?_append_left hlt]
      exact hrank
    rw [h.name_of_rank hat, nameOf, nameOf, if_neg, if_neg]
    · rw [length_ranked] at hlength
      omega
    · rwa [length_ranked]
  · have hranked : lock.ranked subdir = lock.regularRanked subdir :=
      ranked_of_no_plain fun platform hin hsubdir hnone => hexists ⟨platform, hin, hsubdir, hnone⟩
    rw [← hranked] at hrank ⊢
    exact h.name_of_rank hrank

theorem exists_regularRank {subdir : Line} {platform : Platform} (hin : platform ∈ lock.platforms)
    (hdeclared : platform.declared = some subdir) :
    ∃ rank : ℕ, (lock.regularRanked subdir)[rank]? = some platform :=
  List.mem_iff_getElem?.mp ((StableSort.mem_sortOn _).mpr (mem_regular.mpr ⟨hin, hdeclared⟩))

theorem exists_regularAgain {subdir : Line} {platform : Platform} (hin : platform ∈ lock.platforms)
    (hdeclared : platform.declared = some subdir) :
    ∃ rank : ℕ, (lock.regularAgain subdir)[rank]? = some platform :=
  List.mem_iff_getElem?.mp ((StableSort.mem_sortOn _).mpr
    (List.mem_filter.mpr ⟨mem_byName.mpr hin, decide_eq_true hdeclared⟩))

theorem mem_regularAgain {subdir : Line} {rank : ℕ} {platform : Platform}
    (h : (lock.regularAgain subdir)[rank]? = some platform) :
    platform ∈ lock.platforms ∧ platform.declared = some subdir := by
  obtain ⟨hin, hdeclared⟩ := List.mem_filter.mp ((StableSort.mem_sortOn _).mp (List.mem_of_getElem? h))
  exact ⟨mem_byName.mp hin, of_decide_eq_true hdeclared⟩

theorem Written.hash_free_of_declared (h : lock.Written) {subdir : Line} {platform : Platform}
    (hin : platform ∈ lock.platforms) (hdeclared : platform.declared = some subdir) : '#' ∉ subdir :=
  subdir_of_declared hdeclared ▸ (h.conda platform hin).2.2

/-- A name given again is the name of a platform without a line for its subdirectory, or tells its rank among
those that have it. -/
theorem Written.rank_of_nameAgain (h : lock.Written) {platform : Platform} (hin : platform ∈ lock.platforms)
    {subdir : Line} (hfree : '#' ∉ subdir) {among rank : ℕ} (hlt : rank < among)
    (hname : lock.nameAgain platform = nameOf subdir among rank) :
    (platform.declared = none ∧ lock.name platform = nameOf subdir among rank) ∨
      (lock.regularAgain subdir)[rank]? = some platform ∧
        ((lock.regularRanked subdir).length = 1 ↔ among = 1) := by
  cases hdeclared : platform.declared with
  | none =>
      rw [h.nameAgain_plain hin hdeclared] at hname
      exact Or.inl ⟨rfl, hname⟩
  | some written =>
      obtain ⟨place, hplace⟩ := exists_regularAgain hin hdeclared
      have hlength := (List.getElem?_eq_some_iff.mp hplace).1
      rw [length_regularAgain] at hlength
      rw [h.nameAgain_regular hplace] at hname
      obtain ⟨rfl, hone, rfl⟩ := nameOf_inj (h.hash_free_of_declared hin hdeclared) hfree hlength hlt hname
      exact Or.inr ⟨hplace, hone⟩

/-- Where the canonical lock is canonical, a platform labelled with a subdirectory it shares comes last and
leaves two behind. -/
theorem Written.plain_of_namedAgain (h : lock.Written) (hperm : lock.namedAgain.Perm lock.named) :
    ∀ platform ∈ lock.platforms, platform.label = platform.subdir → (lock.sharing platform.subdir).length ≠ 1 →
      3 ≤ (lock.sharing platform.subdir).length ∧ platform.vouched ≠ [] := by
  intro plain hin hlabel hshared
  have hnone := (h.label_iff hin).mp hlabel
  have hfree := (h.conda plain hin).2.2
  have hnames : ∀ platform ∈ lock.platforms, ∃ found ∈ lock.platforms, lock.name found = lock.nameAgain platform := by
    intro platform hplatform
    have hmem := hperm.subset (List.mem_map_of_mem (f := fun platform =>
      (lock.nameAgain platform, lock.content platform)) hplatform)
    obtain ⟨found, hfound, hsame⟩ := List.mem_map.mp hmem
    exact ⟨found, hfound, congrArg Prod.fst hsame⟩
  have hback : ∀ platform ∈ lock.platforms, ∃ found ∈ lock.platforms, lock.nameAgain found = lock.name platform := by
    intro platform hplatform
    have hmem := hperm.symm.subset (List.mem_map_of_mem (f := fun platform =>
      (lock.name platform, lock.content platform)) hplatform)
    obtain ⟨found, hfound, hsame⟩ := List.mem_map.mp hmem
    exact ⟨found, hfound, congrArg Prod.fst hsame⟩
  have hlength : (lock.sharing plain.subdir).length = (lock.regularRanked plain.subdir).length + 1 := by
    rw [← length_ranked]
    by_cases hvouched : plain.vouched = []
    · rw [h.ranked_of_bare hin hnone hvouched, List.length_cons]
    · rw [h.ranked_of_vouched hin hnone hvouched, List.length_append, List.length_singleton]
  have hthree : 3 ≤ (lock.sharing plain.subdir).length := by
    by_contra hfew
    -- the other platform is alone when read again, and takes the bare name
    have hone : (lock.regularRanked plain.subdir).length = 1 := by omega
    obtain ⟨platform, hplatform⟩ := List.length_eq_one_iff.mp (lock.length_regularAgain plain.subdir ▸ hone)
    have hrank : (lock.regularAgain plain.subdir)[0]? = some platform := by
      rw [hplatform]
      rfl
    have hbare := h.nameAgain_regular hrank
    rw [hone] at hbare
    obtain ⟨found, hfound, hsame⟩ := hnames platform (mem_regularAgain hrank).1
    exact hshared ((h.name_eq_iff hfound hfree).mp (hsame.trans hbare)).2
  refine ⟨hthree, fun hvouched => ?_⟩
  -- the last rank of the subdirectory is given to none
  have hranked := h.ranked_of_bare hin hnone hvouched
  have hlast : (lock.regularRanked plain.subdir).length - 1 < (lock.regularRanked plain.subdir).length := by omega
  have hat : (lock.ranked plain.subdir)[(lock.regularRanked plain.subdir).length]? =
      some ((lock.regularRanked plain.subdir)[(lock.regularRanked plain.subdir).length - 1]) := by
    obtain ⟨count, hcount⟩ : ∃ count, (lock.regularRanked plain.subdir).length = count + 1 :=
      ⟨(lock.regularRanked plain.subdir).length - 1, by omega⟩
    rw [hranked, ← List.getElem?_eq_getElem hlast, hcount, List.getElem?_cons_succ]
    rfl
  have hmem := mem_ranked.mp (List.mem_of_getElem? hat)
  have hname := h.name_of_rank hat
  rw [length_ranked, hlength] at hname
  obtain ⟨found, hfound, hsame⟩ := hback _ hmem.1
  rcases h.rank_of_nameAgain hfound hfree (Nat.lt_succ_self _) (hsame.trans hname) with ⟨hbare, hkept⟩ | ⟨hagain, -⟩
  · have hplain := h.name_inj hfound hmem.1 (hkept.trans hname.symm)
    have hregular := (mem_regular.mp ((StableSort.mem_sortOn _).mp (List.getElem_mem hlast))).2
    rw [← hplain, hbare] at hregular
    cases hregular
  · have hout := (List.getElem?_eq_some_iff.mp hagain).1
    rw [length_regularAgain] at hout
    exact absurd hout (lt_irrefl _)

/-- The canonical lock, read again, has the same platforms exactly when it settles at once. -/
theorem Written.namedAgain_iff (h : lock.Written) : lock.namedAgain.Perm lock.named ↔ lock.SettlesAtOnce := by
  constructor
  · intro hperm
    have hplain := h.plain_of_namedAgain hperm
    refine ⟨hplain, fun subdir => (h.map_regularAgain_iff subdir).mp ?_⟩
    refine List.ext_getElem? fun rank => ?_
    rw [List.getElem?_map, List.getElem?_map]
    cases hrank : (lock.regularRanked subdir)[rank]? with
    | none =>
        rw [List.getElem?_eq_none_iff, ← length_regularAgain, ← List.getElem?_eq_none_iff] at hrank
        rw [hrank]
    | some platform =>
        have hlt := (List.getElem?_eq_some_iff.mp hrank).1
        obtain ⟨hin, hdeclared⟩ := mem_regular.mp ((StableSort.mem_sortOn _).mp (List.mem_of_getElem? hrank))
        have hname := h.name_regularRanked hplain hrank
        have hmem := hperm.symm.subset (List.mem_map_of_mem (f := fun platform =>
          (lock.name platform, lock.content platform)) hin)
        obtain ⟨found, hfound, hsame⟩ := List.mem_map.mp hmem
        rcases h.rank_of_nameAgain hfound (h.hash_free_of_declared hin hdeclared) hlt
          ((congrArg Prod.fst hsame).trans hname) with ⟨hnone, hkept⟩ | ⟨hagain, -⟩
        · rw [h.name_inj hfound hin (hkept.trans hname.symm), hdeclared] at hnone
          cases hnone
        · rw [hagain]
          exact congrArg (fun entry : Line × Content => some entry.2) hsame
  · intro hsettles
    have hsubset : lock.named ⊆ lock.namedAgain := by
      intro entry hentry
      obtain ⟨platform, hin, rfl⟩ := List.mem_map.mp hentry
      cases hdeclared : platform.declared with
      | none => exact List.mem_map.mpr ⟨platform, hin, Prod.ext (h.nameAgain_plain hin hdeclared) rfl⟩
      | some subdir =>
          obtain ⟨rank, hrank⟩ := exists_regularRank hin hdeclared
          have hcontents := congrArg (·[rank]?) ((h.map_regularAgain_iff subdir).mpr (hsettles.ties subdir))
          simp only [List.getElem?_map, hrank, Option.map_some] at hcontents
          obtain ⟨found, hfound, hsame⟩ := Option.map_eq_some_iff.mp hcontents
          refine List.mem_map.mpr ⟨found, (mem_regularAgain hfound).1, Prod.ext ?_ hsame⟩
          exact (h.nameAgain_regular hfound).trans (h.name_regularRanked hsettles.plain hrank).symm
    refine ((List.subperm_of_subset h.nodup_names.of_map hsubset).perm_of_length_le ?_).symm
    rw [namedAgain, named, List.length_map, List.length_map]

end Lock

end Mainboard.Pixi
