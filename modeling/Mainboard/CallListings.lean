import Mainboard.TracedSplices

/-! Argument lists as they are written: arguments with one comma between neighbours, blanks and comments around them, and
maybe a comma at the end. Each argument but the last goes with the comma behind it, the last with the one before it, so
ranges of bytes taken out for arguments that are not the last two leave the list of the others. -/

namespace Mainboard.Analysis.Nodes

/-- What stands between the tokens of an argument list. -/
inductive Filler where
  | blank (byte : UInt8)
  | comment (text : Bytes)

def Filler.text : Filler → Bytes
  | blank byte => [byte]
  | comment text => text

def fillers (list : List Filler) : Bytes := list.flatMap Filler.text

/-- An argument, and which of the first call's it is. -/
structure Argument where
  id : ℕ
  text : Bytes
  some : text ≠ []

/-- The comma between two arguments, with what stands before it and behind it. -/
structure Parting where
  before : List Filler
  after : List Filler

def Parting.text (parting : Parting) : Bytes := fillers parting.before ++ 44 :: fillers parting.after

/-- An argument and what parts it from the next. -/
abbrev Slot := Argument × Parting

def Slot.text (slot : Slot) : Bytes := slot.1.text ++ slot.2.text

/-- An argument list: none at all, parentheses without arguments, or with some and maybe a comma at their end. -/
inductive Listing where
  | bare
  | empty (inside : List Filler)
  | full (lead : List Filler) (init : List Slot) (last : Argument) (tail : List Filler) (ending : Option (List Filler))

/-- Arguments and what parts them. -/
def body (init : List Slot) (last : Argument) : Bytes := init.flatMap Slot.text ++ last.text

/-- What stands behind the last argument, the closing parenthesis included. -/
def closing (tail : List Filler) (ending : Option (List Filler)) : Bytes :=
  fillers tail ++ ending.elim [] (fun inside => 44 :: fillers inside) ++ [41]

/-- The arguments left and what parts them, nothing when none is left. -/
def leaving (dropped : List ℕ) (init : List Slot) (last : Argument) : Option (List Slot × Argument) :=
  let kept := init.filter fun slot => slot.1.id ∉ dropped
  if last.id ∈ dropped then kept.getLast?.map fun slot => (kept.dropLast, slot.1) else some (kept, last)

/-- The byte ranges of arguments, from where the first starts. -/
def rangesFrom : ℕ → List Slot → Argument → List (ℕ × ℕ)
  | base, [], last => [(base, base + last.text.length)]
  | base, slot :: init, last =>
      (base, base + slot.1.text.length) :: rangesFrom (base + (Slot.text slot).length) init last

/-- Of several arguments, the bytes that go with one: up to the next, or from the end of the one before. -/
def reachOf (ranges : List (ℕ × ℕ)) (place : ℕ) : Option (ℕ × ℕ) :=
  match ranges[place]?, ranges[place + 1]? with
  | some here, some next => some (here.1, next.1)
  | some here, none => (ranges[place - 1]?).map fun before => (before.2, here.2)
  | none, _ => none

namespace Listing

def text : Listing → Bytes
  | bare => []
  | empty inside => 40 :: fillers inside ++ [41]
  | full lead init last tail ending => 40 :: fillers lead ++ body init last ++ closing tail ending

def arguments : Listing → List Argument
  | bare | empty _ => []
  | full _ init last _ _ => init.map Prod.fst ++ [last]

/-- Whether a comma stands behind the last argument. -/
def trailing : Listing → Bool
  | bare | empty _ => false
  | full _ _ _ _ ending => ending.isSome

/-- The arguments' byte ranges in a file where the list starts at an offset. -/
def ranges (base : ℕ) : Listing → List (ℕ × ℕ)
  | bare | empty _ => []
  | full lead init last _ _ => rangesFrom (base + 1 + (fillers lead).length) init last

/-- The list without some arguments. One left with none is `()`, or no list at all behind a decorator. -/
def without (decorated : Bool) (dropped : List ℕ) : Listing → Listing
  | bare => bare
  | empty inside => empty inside
  | full lead init last tail ending => match leaving dropped init last with
    | some (init, last) => full lead init last tail ending
    | none => if decorated then bare else empty []

variable {decorated : Bool} {dropped more : List ℕ} {init : List Slot} {last : Argument}

theorem leaving_eq_none : leaving dropped init last = none ↔
    (init.map Prod.fst ++ [last]).filter (fun argument => argument.id ∉ dropped) = [] := by
  unfold leaving
  dsimp only
  split
  · next h => simp [h]
  · next h => simp [h]

theorem leaving_arguments {left : List Slot × Argument} (h : leaving dropped init last = some left) :
    left.1.map Prod.fst ++ [left.2] =
      (init.map Prod.fst ++ [last]).filter (fun argument => argument.id ∉ dropped) := by
  have hmap : (init.map Prod.fst).filter (fun argument => argument.id ∉ dropped) =
      (init.filter fun slot => slot.1.id ∉ dropped).map Prod.fst := by
    rw [List.filter_map]
    rfl
  rw [List.filter_append, hmap]
  unfold leaving at h
  dsimp only at h
  split at h
  · next hlast =>
      obtain ⟨slot, hslot, rfl⟩ := Option.map_eq_some_iff.mp h
      have hparts := List.dropLast_append_getLast? slot hslot
      rw [List.filter_cons_of_neg (by simpa using hlast), List.filter_nil, List.append_nil]
      conv_rhs => rw [← hparts]
      rw [List.map_append]
      rfl
  · next hlast =>
      obtain rfl := Option.some.inj h
      rw [List.filter_cons_of_pos (by simpa using hlast), List.filter_nil]

/-- The arguments of a list without some are the others, in order. -/
theorem arguments_without (call : Listing) : (call.without decorated dropped).arguments =
    call.arguments.filter fun argument => argument.id ∉ dropped := by
  cases call with
  | bare => rfl
  | empty inside => rfl
  | full lead init last tail ending =>
      rw [without]
      cases h : leaving dropped init last with
      | none =>
          rw [arguments, leaving_eq_none.mp h]
          cases decorated <;> rfl
      | some left => exact leaving_arguments h

/-- A comma stands behind the last argument left where one stood behind the last. -/
theorem trailing_without (call : Listing) (h : (call.without decorated dropped).arguments ≠ []) :
    (call.without decorated dropped).trailing = call.trailing := by
  cases call with
  | bare => rfl
  | empty inside => rfl
  | full lead init last tail ending =>
      rw [without] at h ⊢
      cases hleft : leaving dropped init last with
      | none =>
          rw [hleft] at h
          cases decorated <;> exact absurd rfl h
      | some left => rfl

/-- Arguments dropped first and others after are all of them dropped. -/
theorem leaving_leaving {left : List Slot × Argument} (h : leaving dropped init last = some left) :
    leaving more left.1 left.2 = leaving (dropped ++ more) init last := by
  have hboth : init.filter (fun slot => slot.1.id ∉ dropped ++ more) =
      (init.filter fun slot => slot.1.id ∉ dropped).filter fun slot => slot.1.id ∉ more := by
    rw [List.filter_filter]
    refine List.filter_congr fun slot _ => ?_
    simp [Bool.and_comm]
  unfold leaving at h
  dsimp only at h
  split at h
  · next hlast =>
      obtain ⟨slot, hslot, rfl⟩ := Option.map_eq_some_iff.mp h
      have hparts := List.dropLast_append_getLast? slot hslot
      rw [leaving, leaving, hboth, if_pos (List.mem_append_left _ hlast)]
      dsimp only
      conv_rhs => rw [← hparts]
      rw [List.filter_append]
      by_cases hmore : slot.1.id ∈ more
      · rw [if_pos hmore, List.filter_cons_of_neg (by simpa using hmore), List.filter_nil, List.append_nil]
      · rw [if_neg hmore, List.filter_cons_of_pos (by simpa using hmore), List.filter_nil, List.getLast?_concat,
          List.dropLast_concat, Option.map_some]
  · next hlast =>
      obtain rfl := Option.some.inj h
      have hiff : last.id ∈ dropped ++ more ↔ last.id ∈ more := by
        rw [List.mem_append, or_iff_right hlast]
      rw [leaving, leaving, hboth]
      simp only [hiff]

theorem without_without (call : Listing) :
    (call.without decorated dropped).without decorated more = call.without decorated (dropped ++ more) := by
  cases call with
  | bare => rfl
  | empty inside => rfl
  | full lead init last tail ending =>
      cases h : leaving dropped init last with
      | none =>
          have hall : leaving (dropped ++ more) init last = none := by
            rw [leaving_eq_none, List.filter_eq_nil_iff] at h ⊢
            intro argument hargument
            have hone := h argument hargument
            simp only [decide_eq_true_eq, not_not] at hone ⊢
            exact List.mem_append_left _ hone
          rw [without, without, h, hall]
          cases decorated <;> rfl
      | some left =>
          have hmore := @leaving_leaving _ more _ _ _ h
          rw [without, h, without, without, hmore]

end Listing

/-! The ranges taken out -/

/-- The ranges that go with arguments that are dropped, in order; of the last two arguments at most one is. -/
def cuts (dropped : List ℕ) : ℕ → List Slot → Argument → List (ℕ × ℕ)
  | _, [], _ => []
  | base, [slot], last =>
      if last.id ∈ dropped then
        [(base + slot.1.text.length, base + (Slot.text slot).length + last.text.length)]
      else if slot.1.id ∈ dropped then [(base, base + (Slot.text slot).length)] else []
  | base, slot :: next :: init, last =>
      (if slot.1.id ∈ dropped then [(base, base + (Slot.text slot).length)] else []) ++
        cuts dropped (base + (Slot.text slot).length) (next :: init) last

/-- Of the last two arguments not both are dropped. -/
def Lone (dropped : List ℕ) (init : List Slot) (last : Argument) : Prop :=
  ∀ slot ∈ init.getLast?, ¬ (slot.1.id ∈ dropped ∧ last.id ∈ dropped)

section Cuts

variable {dropped : List ℕ} {base : ℕ} {init : List Slot} {last : Argument} {path : Place}

theorem length_rangesFrom (base : ℕ) (init : List Slot) (last : Argument) :
    (rangesFrom base init last).length = init.length + 1 := by
  induction init generalizing base with
  | nil => rfl
  | cons slot init ih => rw [rangesFrom, List.length_cons, ih, List.length_cons]

/-- Ranges of arguments stand in order, from the base to the end of the last. -/
theorem rangesFrom_bounds (base : ℕ) (init : List Slot) (last : Argument) :
    (∀ range ∈ rangesFrom base init last,
      base ≤ range.1 ∧ range.1 < range.2 ∧ range.2 ≤ base + (body init last).length) ∧
      (rangesFrom base init last).Pairwise fun one other => one.2 < other.1 := by
  induction init generalizing base with
  | nil =>
      have hpos := List.length_pos_iff.mpr last.some
      constructor
      · intro range hrange
        rw [List.mem_singleton.mp hrange]
        exact ⟨Nat.le_refl _, Nat.lt_add_of_pos_right hpos, Nat.le_refl _⟩
      · exact List.pairwise_singleton _ _
  | cons slot init ih =>
      obtain ⟨hranges, horder⟩ := ih (base + (Slot.text slot).length)
      have hpos := List.length_pos_iff.mpr slot.1.some
      have hslot : (Slot.text slot).length = slot.1.text.length + slot.2.text.length := List.length_append
      have hcomma : 0 < slot.2.text.length :=
        List.length_pos_iff.mpr (List.append_ne_nil_of_right_ne_nil _ (List.cons_ne_nil _ _))
      have hbody : (body (slot :: init) last).length = (Slot.text slot).length + (body init last).length := by
        rw [body, List.flatMap_cons, List.append_assoc, List.length_append]
        rfl
      rw [rangesFrom, List.forall_mem_cons, List.pairwise_cons]
      refine ⟨⟨⟨Nat.le_refl _, by omega, by omega⟩, fun range hrange => ?_⟩, fun range hrange => ?_, horder⟩
      · have := hranges range hrange
        omega
      · have := hranges range hrange
        omega

/-- What goes with an argument is a range among the arguments. -/
theorem reachOf_bounds {place : ℕ} {range : ℕ × ℕ} (hinit : init ≠ [])
    (h : reachOf (rangesFrom base init last) place = some range) :
    base ≤ range.1 ∧ range.1 < range.2 ∧ range.2 ≤ base + (body init last).length := by
  obtain ⟨hranges, horder⟩ := rangesFrom_bounds base init last
  have hlength := length_rangesFrom base init last
  have hpos := List.length_pos_iff.mpr hinit
  unfold reachOf at h
  split at h
  · next here next hhere hnext =>
      obtain rfl := Option.some.inj h
      obtain ⟨hplace, rfl⟩ := List.getElem?_eq_some_iff.mp hhere
      obtain ⟨hlater, rfl⟩ := List.getElem?_eq_some_iff.mp hnext
      have hfirst := hranges _ (List.getElem_mem hplace)
      have hsecond := hranges _ (List.getElem_mem hlater)
      have hapart := List.pairwise_iff_getElem.mp horder _ _ hplace hlater (Nat.lt_succ_self _)
      dsimp only
      omega
  · next here hhere hnone =>
      obtain ⟨before, hbefore, rfl⟩ := Option.map_eq_some_iff.mp h
      obtain ⟨hplace, rfl⟩ := List.getElem?_eq_some_iff.mp hhere
      obtain ⟨hearlier, rfl⟩ := List.getElem?_eq_some_iff.mp hbefore
      rw [List.getElem?_eq_none_iff] at hnone
      have hfirst := hranges _ (List.getElem_mem hearlier)
      have hsecond := hranges _ (List.getElem_mem hplace)
      have hapart := List.pairwise_iff_getElem.mp horder _ _ hearlier hplace (by omega)
      dsimp only
      omega
  · cases h

theorem cuts_order (dropped : List ℕ) (base : ℕ) (init : List Slot) (last : Argument) :
    (∀ range ∈ cuts dropped base init last, base ≤ range.1 ∧ range.1 ≤ range.2) ∧
      (cuts dropped base init last).Pairwise fun one other => one.2 ≤ other.1 := by
  fun_induction cuts dropped base init last with
  | case1 => exact ⟨fun _ h => absurd h List.not_mem_nil, .nil⟩
  | case2 base slot last h =>
      have hslot : (Slot.text slot).length = slot.1.text.length + slot.2.text.length := List.length_append
      refine ⟨fun range hrange => ?_, List.pairwise_singleton _ _⟩
      rw [List.mem_singleton.mp hrange]
      dsimp only
      omega
  | case3 base slot last h hslot =>
      refine ⟨fun range hrange => ?_, List.pairwise_singleton _ _⟩
      rw [List.mem_singleton.mp hrange]
      exact ⟨Nat.le_refl _, Nat.le_add_right _ _⟩
  | case4 base slot last h hslot =>
      exact ⟨fun _ h => absurd h List.not_mem_nil, .nil⟩
  | case5 base slot next init last ih =>
      split
      · rw [List.singleton_append, List.forall_mem_cons, List.pairwise_cons]
        refine ⟨⟨⟨Nat.le_refl _, Nat.le_add_right _ _⟩, fun range hrange => ?_⟩, fun range hrange => ?_, ih.2⟩
        · exact ⟨(Nat.le_add_right _ _).trans (ih.1 range hrange).1, (ih.1 range hrange).2⟩
        · exact (ih.1 range hrange).1
      · rw [List.nil_append]
        exact ⟨fun range hrange => ⟨(Nat.le_add_right _ _).trans (ih.1 range hrange).1, (ih.1 range hrange).2⟩, ih.2⟩

theorem reachOf_succ {one : ℕ × ℕ} {ranges : List (ℕ × ℕ)} (h : 2 ≤ ranges.length) (place : ℕ) :
    reachOf (one :: ranges) (place + 1) = reachOf ranges place := by
  unfold reachOf
  rw [List.getElem?_cons_succ, List.getElem?_cons_succ, Nat.add_sub_cancel]
  cases hhere : ranges[place]? with
  | none => rfl
  | some here =>
      cases hnext : ranges[place + 1]? with
      | some next => rfl
      | none =>
          rw [List.getElem?_eq_none_iff] at hnext
          obtain ⟨earlier, rfl⟩ := Nat.exists_eq_succ_of_ne_zero (show place ≠ 0 by omega)
          rfl

/-- The ranges taken out are those that go with the arguments dropped. -/
theorem mem_cuts (hinit : init ≠ []) (hlone : Lone dropped init last) {range : ℕ × ℕ} :
    range ∈ cuts dropped base init last ↔ ∃ place argument, (init.map Prod.fst ++ [last])[place]? = some argument ∧
      argument.id ∈ dropped ∧ reachOf (rangesFrom base init last) place = some range := by
  induction init generalizing base with
  | nil => exact absurd rfl hinit
  | cons slot init ih =>
      cases init with
      | nil =>
          have hnot := hlone slot rfl
          have hplaces : (∃ place argument, ([slot].map Prod.fst ++ [last])[place]? = some argument ∧
              argument.id ∈ dropped ∧ reachOf (rangesFrom base [slot] last) place = some range) ↔
              (slot.1.id ∈ dropped ∧ (base, base + (Slot.text slot).length) = range) ∨
                (last.id ∈ dropped ∧
                  (base + slot.1.text.length, base + (Slot.text slot).length + last.text.length) = range) := by
            constructor
            · rintro ⟨place, argument, hargument, hid, hreach⟩
              match place with
              | 0 =>
                  obtain rfl := Option.some.inj hargument
                  exact .inl ⟨hid, Option.some.inj hreach⟩
              | 1 =>
                  obtain rfl := Option.some.inj hargument
                  exact .inr ⟨hid, Option.some.inj hreach⟩
              | place + 2 => cases hargument
            · rintro (⟨hid, heq⟩ | ⟨hid, heq⟩)
              · exact ⟨0, slot.1, rfl, hid, congrArg some heq⟩
              · exact ⟨1, last, rfl, hid, congrArg some heq⟩
          rw [hplaces, cuts]
          split
          · next hlast =>
              rw [List.mem_singleton, or_iff_right fun h => hnot ⟨h.1, hlast⟩, and_iff_right hlast, eq_comm]
          · next hlast =>
              rw [or_iff_left fun h => hlast h.1]
              split
              · next hslot => rw [List.mem_singleton, and_iff_right hslot, eq_comm]
              · next hslot => exact iff_of_false List.not_mem_nil fun h => hslot h.1
      | cons next init =>
          have hlength : 2 ≤ (rangesFrom (base + (Slot.text slot).length) (next :: init) last).length := by
            rw [length_rangesFrom, List.length_cons]
            omega
          have hlater := @ih (base + (Slot.text slot).length) (List.cons_ne_nil _ _) hlone
          rw [cuts, List.mem_append, hlater]
          constructor
          · rintro (hhead | ⟨place, argument, hargument, hid, hreach⟩)
            · split at hhead
              · next hslot =>
                  rw [List.mem_singleton.mp hhead]
                  exact ⟨0, slot.1, rfl, hslot, rfl⟩
              · cases hhead
            · exact ⟨place + 1, argument, hargument, hid, (reachOf_succ hlength place).trans hreach⟩
          · rintro ⟨place, argument, hargument, hid, hreach⟩
            cases place with
            | zero =>
                obtain rfl := Option.some.inj hargument
                rw [if_pos hid]
                exact .inl (List.mem_singleton.mpr (Option.some.inj hreach).symm)
            | succ place =>
                exact .inr ⟨place, argument, hargument, hid, (reachOf_succ hlength place).symm.trans hreach⟩

end Cuts

/-! Ranges taken out of a file -/

/-- The byte edits that take ranges out of a file. -/
def takes (path : Place) (ranges : List (ℕ × ℕ)) : List TextEdit :=
  ranges.map fun range => { path := path, start := range.1, stop := range.2, text := [] }

section Takes

variable {data back : Bytes} {base kept : ℕ} {edits : List TextEdit}

theorem slice_add (data : Bytes) (base count : ℕ) : slice data base (base + count) = (data.drop base).take count := by
  rw [slice, List.drop_take, Nat.add_sub_cancel_left]

/-- Edits that take ranges out of a file leave the bytes that none of them covers. -/
theorem splicedFrom_takes {gone : ℕ → Bool} (htext : ∀ edit ∈ edits, edit.text = [])
    (hranges : ∀ edit ∈ edits, edit.start ≤ edit.stop)
    (hfollows : edits.Pairwise fun one other => one.stop ≤ other.start) (hstarts : ∀ edit ∈ edits, kept ≤ edit.start)
    (hgone : ∀ offset, kept ≤ offset → (gone offset = true ↔ ∃ edit ∈ edits, edit.Covers offset)) :
    splicedFrom data kept edits = (remaining gone data kept data.length).map Atom.byte := by
  induction edits generalizing kept with
  | nil =>
      rw [splicedFrom, remaining_slice, slice, List.take_length]
      intro offset hle _ _
      rw [Bool.eq_false_iff, Ne, hgone offset hle]
      rintro ⟨edit, hedit, -⟩
      exact List.not_mem_nil hedit
  | cons edit edits ih =>
      rw [List.forall_mem_cons] at htext hranges hstarts
      obtain ⟨hbehind, hlater⟩ := List.pairwise_cons.mp hfollows
      have hrest := ih htext.2 hranges.2 hlater hbehind fun offset hle => by
        rw [hgone offset (hstarts.1.trans (hranges.1.trans hle)), List.exists_mem_cons_iff, or_iff_right]
        exact fun hcovers => absurd hcovers.2 (Nat.not_lt.mpr hle)
      have hbefore : (remaining gone data kept edit.start).map Atom.byte = slice data kept edit.start := by
        refine remaining_slice fun offset hle hlt _ => ?_
        rw [Bool.eq_false_iff, Ne, hgone offset hle]
        rintro ⟨other, hother, hcovers⟩
        rcases List.mem_cons.mp hother with rfl | hlate
        · exact absurd hcovers.1 (Nat.not_le.mpr hlt)
        · have hpast := hbehind other hlate
          have hlow := hcovers.1
          have hwide := hranges.1
          omega
      have hcovered : remaining gone data edit.start edit.stop = [] := remaining_gone fun offset hle hlt _ =>
        (hgone offset (hstarts.1.trans hle)).mpr ⟨edit, List.mem_cons_self, hle, hlt⟩
      rw [splicedFrom, htext.1, List.append_nil, hrest, remaining_split hstarts.1, remaining_split hranges.1, hcovered,
        List.nil_append, List.map_append, hbefore]

/-- Which ranges are taken out of a file says what is left, in whatever order they are given. -/
theorem splicedFrom_congr {others : List TextEdit} (hsame : ∀ edit, edit ∈ edits ↔ edit ∈ others)
    (htext : ∀ edit ∈ edits, edit.text = []) (hranges : ∀ edit ∈ edits, edit.start ≤ edit.stop)
    (hfollows : edits.Pairwise fun one other => one.stop ≤ other.start)
    (hothers : others.Pairwise fun one other => one.stop ≤ other.start) :
    splicedFrom data 0 edits = splicedFrom data 0 others := by
  classical
  rw [@splicedFrom_takes _ _ _ (fun offset => decide (∃ edit ∈ edits, edit.Covers offset)) htext hranges hfollows
      (fun _ _ => Nat.zero_le _) (fun _ _ => decide_eq_true_iff),
    @splicedFrom_takes _ _ others (fun offset => decide (∃ edit ∈ edits, edit.Covers offset))
      (fun edit hedit => htext edit ((hsame edit).mpr hedit)) (fun edit hedit => hranges edit ((hsame edit).mpr hedit))
      hothers (fun _ _ => Nat.zero_le _) fun offset _ => ?_]
  simp only [decide_eq_true_eq, hsame]

/-- Bytes before every edit stay as they are. -/
theorem splicedFrom_from (hkept : kept ≤ base) (hstarts : ∀ edit ∈ edits, base ≤ edit.start) :
    splicedFrom data kept edits = slice data kept base ++ splicedFrom data base edits := by
  have hjoin : ∀ last, base ≤ last → slice data kept last = slice data kept base ++ slice data base last := by
    intro last hlast
    obtain ⟨first, rfl⟩ := Nat.exists_eq_add_of_le hkept
    obtain ⟨more, rfl⟩ := Nat.exists_eq_add_of_le hlast
    rw [slice_add, slice_add, Nat.add_assoc, slice_add, List.take_add, List.drop_drop]
  cases edits with
  | nil =>
      obtain ⟨first, rfl⟩ := Nat.exists_eq_add_of_le hkept
      rw [splicedFrom, splicedFrom, slice_add, ← List.drop_drop, List.take_append_drop]
  | cons edit edits =>
      rw [splicedFrom, splicedFrom, hjoin _ (hstarts edit List.mem_cons_self)]
      simp only [List.append_assoc]

variable {dropped : List ℕ} {init : List Slot} {last : Argument} {path : Place}

/-- One more argument in front is left or not as it is dropped or not. -/
theorem leaving_cons {slot : Slot} {left : List Slot × Argument} (h : leaving dropped init last = some left) :
    leaving dropped (slot :: init) last = some (if slot.1.id ∈ dropped then left.1 else slot :: left.1, left.2) := by
  by_cases hslot : slot.1.id ∈ dropped
  · rw [if_pos hslot, leaving, List.filter_cons_of_neg (by simpa using hslot)]
    exact h
  · rw [if_neg hslot, leaving, List.filter_cons_of_pos (by simpa using hslot)]
    unfold leaving at h
    dsimp only at h ⊢
    split at h
    · next hlast =>
        obtain ⟨final, hfinal, rfl⟩ := Option.map_eq_some_iff.mp h
        have hsome : init.filter (fun slot => slot.1.id ∉ dropped) ≠ [] := fun hnil => by
          rw [hnil] at hfinal
          cases hfinal
        obtain ⟨first, rest, hcons⟩ := List.exists_cons_of_ne_nil hsome
        rw [if_pos hlast]
        rw [hcons] at hfinal ⊢
        rw [List.getLast?_cons_cons, hfinal, List.dropLast_cons_cons]
        rfl
    · next hlast =>
        obtain rfl := Option.some.inj h
        rw [if_neg hlast]

theorem mem_takes {ranges : List (ℕ × ℕ)} {edit : TextEdit} : edit ∈ takes path ranges ↔
    ∃ range ∈ ranges, edit = { path := path, start := range.1, stop := range.2, text := [] } := by
  rw [takes, List.mem_map]
  simp only [eq_comm]

theorem takes_starts {ranges : List (ℕ × ℕ)} (h : ∀ range ∈ ranges, base ≤ range.1 ∧ range.1 ≤ range.2) :
    ∀ edit ∈ takes path ranges, base ≤ edit.start := by
  intro edit hedit
  obtain ⟨range, hrange, rfl⟩ := mem_takes.mp hedit
  exact (h range hrange).1

/-- The ranges that go with dropped arguments taken out leave the other arguments, each with what parts it from the next. -/
theorem spliced_cuts (hinit : init ≠ []) (hlone : Lone dropped init last)
    (hdata : data.drop base = body init last ++ back) : ∃ left, leaving dropped init last = some left ∧
      splicedFrom data base (takes path (cuts dropped base init last)) = body left.1 left.2 ++ back := by
  induction init generalizing base with
  | nil => exact absurd rfl hinit
  | cons slot init ih =>
      have hlater : data.drop (base + (Slot.text slot).length) = body init last ++ back := by
        rw [← List.drop_drop, hdata, body, List.flatMap_cons, List.append_assoc, List.append_assoc, List.drop_left, body,
          List.append_assoc]
      have hslot : slice data base (base + (Slot.text slot).length) = Slot.text slot := by
        rw [slice_add, hdata, body, List.flatMap_cons, List.append_assoc, List.append_assoc, List.take_left]
      cases init with
      | nil =>
          have hnot := hlone slot rfl
          have hlast : data.drop (base + (Slot.text slot).length + last.text.length) = back := by
            rw [← List.drop_drop, hlater]
            exact List.drop_left
          rw [cuts]
          split
          · next hdropped =>
              have hkept : slot.1.id ∉ dropped := fun h => hnot ⟨h, hdropped⟩
              refine ⟨([], slot.1), ?_, ?_⟩
              · rw [leaving, if_pos hdropped, List.filter_cons_of_pos (by simpa using hkept)]
                rfl
              · have hargument : slice data base (base + slot.1.text.length) = slot.1.text := by
                  rw [slice_add, hdata, body, List.flatMap_cons, Slot.text, List.append_assoc, List.append_assoc,
                    List.append_assoc, List.take_left]
                simp only [takes, List.map_cons, List.map_nil, splicedFrom]
                rw [hargument, hlast, List.append_nil]
                rfl
          · next hdropped =>
              split
              · next hgone =>
                  refine ⟨([], last), ?_, ?_⟩
                  · rw [leaving, if_neg hdropped, List.filter_cons_of_neg (by simpa using hgone)]
                    rfl
                  · simp only [takes, List.map_cons, List.map_nil, splicedFrom]
                    rw [hlater, slice, List.drop_take_self, List.append_nil, List.nil_append]
              · next hkept =>
                  refine ⟨([slot], last), ?_, hdata⟩
                  rw [leaving, if_neg hdropped, List.filter_cons_of_pos (by simpa using hkept)]
                  rfl
      | cons next init =>
          obtain ⟨left, hleft, hspliced⟩ := @ih (base + (Slot.text slot).length) (List.cons_ne_nil _ _) hlone hlater
          have hstarts : ∀ edit ∈ takes path (cuts dropped (base + (Slot.text slot).length) (next :: init) last),
              base + (Slot.text slot).length ≤ edit.start := takes_starts (cuts_order _ _ _ _).1
          refine ⟨_, leaving_cons hleft, ?_⟩
          rw [cuts]
          dsimp only
          split
          · rw [List.singleton_append]
            simp only [takes, List.map_cons, splicedFrom] at hspliced ⊢
            rw [hspliced, slice, List.drop_take_self]
            rfl
          · rw [List.nil_append, splicedFrom_from (Nat.le_add_right base _) hstarts, hspliced, hslot, body, body,
              List.flatMap_cons]
            simp only [List.append_assoc]

end Takes

end Mainboard.Analysis.Nodes
