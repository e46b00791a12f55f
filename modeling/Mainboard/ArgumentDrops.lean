import Mainboard.CallListings
import Mainboard.SyntaxSites

/-! Arguments dropped from a call. Each pass reads the argument list as it stands and offers drops to a fresh plan, which
puts off the one of the last two arguments that comes second; what a pass writes is the list without the arguments whose
drops it took, so passes after one another leave the list without all of them. -/

namespace Mainboard.Analysis.Nodes

namespace DropArgument

/-- The bytes where `args[place]` and its comments may stand. -/
def between (parent : Node) (args : List Node) (place : ℕ) : Option (ℕ × ℕ) := do
  let low ← if place = 0 then some (parent.start + 1) else (args[place - 1]?).map Node.stop
  let high ← if place + 1 < args.length then (args[place + 1]?).map Node.start else some (parent.stop - 1)
  return (low, high)

/-- The bytes dropped with `args[place]`: it and the comma beside it, or the parentheses it leaves empty. -/
def reach (site : Site) (parent : Node) (args : List Node) (place : ℕ) : Option (ℕ × ℕ) :=
  if args.length = 1 then
    if ((site.ancestors.drop 1).take 2).map Node.type = ["call", "decorator"] then some (parent.start, parent.stop)
    else some (parent.start + 1, parent.stop - 1)
  else if place + 1 < args.length then do
    let here ← args[place]?
    let next ← args[place + 1]?
    return (here.start, next.start)
  else do
    let before ← args[place - 1]?
    let here ← args[place]?
    return (before.stop, here.stop)

/-- The argument list holding the site's node. -/
def arguments (site : Site) : Except Halt Node :=
  match site.parent with
  | none => .error (.refused "the node is no argument of a call")
  | some parent =>
      if parent.type ≠ "argument_list" ∨ site.target.comment ∨ site.target.trivial then
        .error (.refused "the node is no argument of a call")
      else if site.ancestors.any fun each => each.type == "ERROR" then
        .error (.refused "the node sits in a syntax error")
      else .ok parent

/-- The nodes that are arguments. -/
def args (site : Site) : List Node := site.siblings.filter fun each => !(each.comment || each.trivial)

def lowered (site : Site) : Except Halt (List Edit) := do
  let parent ← arguments site
  match (args site).findIdx? fun each => each.node == site.target.node with
  | none => .error .raised
  | some place =>
      match between parent (args site) place, reach site parent (args site) place with
      | some (low, high), some (start, stop) =>
          if (site.siblings ++ site.tree).any fun each => each.comment && low ≤ each.start && each.stop ≤ high then
            .error (.refused "a comment stands in the argument or between it and its neighbors")
          else .ok [.replace (rangeSpan site.content site.path start stop) []]
      | _, _ => .error .raised

end DropArgument

/-- The bytes that go with an argument of a list that starts at an offset. -/
def Listing.reach (decorated : Bool) (base : ℕ) (call : Listing) (place : ℕ) : Option (ℕ × ℕ) :=
  if (call.ranges base).length = 1 then
    if decorated then some (base, base + call.text.length) else some (base + 1, base + call.text.length - 1)
  else reachOf (call.ranges base) place

/-- A site of an argument of a list that stands at an offset of a file: what the facts say of a text. -/
structure Reads (site : Site) (path : Place) (data : Bytes) (base : ℕ) (decorated : Bool) (call : Listing)
    (argument : Argument) : Prop where
  path : site.path = path
  content : site.content = data
  parent : ∀ parent, site.parent = some parent → parent.start = base ∧ parent.stop = base + call.text.length
  decorated : ((site.ancestors.drop 1).take 2).map Node.type = ["call", "decorator"] ↔ decorated = true
  args : (DropArgument.args site).map (fun each => (each.start, each.stop)) = call.ranges base
  ids : ((DropArgument.args site).map Node.node).Nodup
  target : ∃ place : ℕ, call.arguments[place]? = some argument ∧
    ((DropArgument.args site)[place]?).map Node.node = some site.target.node

/-- The arguments whose drops a plan took, of those asked for. -/
def droppedIn (asked : List (Argument × Site)) (taken : List (List Edit)) : List ℕ :=
  (asked.filter fun pair => match DropArgument.lowered pair.2 with
    | .ok edits => decide (edits ∈ taken)
    | .error _ => false).map fun pair => pair.1.id

/-- The edits of the drops that are asked for and not refused. -/
def offersOf (asked : List (Argument × Site)) : List (List Edit) :=
  asked.filterMap fun pair => (DropArgument.lowered pair.2).toOption

/-- One pass over an argument list: drops asked for in any order, from the facts of the file as it is. -/
inductive Pass (grammar : Grammar) (path : Place) (base : ℕ) (decorated : Bool) (call : Listing) (data : Bytes) :
    List ℕ → Bytes → Prop where
  | made (project : Project) (asked : List (Argument × Site)) (plan : Plan) (taken : List (List Edit))
      (files : List (Place × Bytes)) (read : project.read path = .ok data)
      (reads : ∀ pair ∈ asked, Reads pair.2 path data base decorated call pair.1)
      (offered : Plan.offer project {} (offersOf asked) = some (plan, taken))
      (written : plan.written project grammar = some files) :
      Pass grammar path base decorated call data (droppedIn asked taken) ((OrderedMap.get files path).getD data)

/-- Passes after one another, each over the list that the one before left. -/
inductive Passes (grammar : Grammar) (path : Place) (base : ℕ) (decorated : Bool) :
    Listing → Bytes → List ℕ → Bytes → Prop where
  | done {call : Listing} {data : Bytes} : Passes grammar path base decorated call data [] data
  | pass {call : Listing} {data middle next : Bytes} {dropped more : List ℕ}
      (first : Pass grammar path base decorated call data dropped middle)
      (rest : Passes grammar path base decorated (call.without decorated dropped) middle more next) :
      Passes grammar path base decorated call data (dropped ++ more) next

section Lowering

variable {site : Site} {path : Place} {data : Bytes} {base : ℕ} {decorated : Bool} {call : Listing} {argument : Argument}
  {edits : List Edit}

/-- The edit of a drop replaces what goes with the argument by nothing. -/
theorem lowered_eq (h : Reads site path data base decorated call argument)
    (hlowered : DropArgument.lowered site = .ok edits) : ∃ (place : ℕ) (range : ℕ × ℕ), call.arguments[place]? = some argument ∧
      call.reach decorated base place = some range ∧ edits = [.replace (rangeSpan data path range.1 range.2) []] := by
  obtain ⟨place, hplace, htarget⟩ := h.target
  obtain ⟨node, hnode, hid⟩ := Option.map_eq_some_iff.mp htarget
  obtain ⟨hlt, hget⟩ := List.getElem?_eq_some_iff.mp hnode
  rw [DropArgument.lowered] at hlowered
  cases hparent : DropArgument.arguments site with
  | error halt =>
      rw [hparent] at hlowered
      cases hlowered
  | ok parent =>
      have hsome : site.parent = some parent := by
        unfold DropArgument.arguments at hparent
        split at hparent
        · cases hparent
        · next found hfound =>
            split at hparent
            · cases hparent
            · split at hparent
              · cases hparent
              · cases hparent
                exact hfound
      obtain ⟨hstart, hstop⟩ := h.parent parent hsome
      have hfind : (DropArgument.args site).findIdx? (fun each => each.node == site.target.node) = some place := by
        rw [List.findIdx?_eq_some_iff_getElem]
        refine ⟨hlt, by rw [hget, hid]; exact beq_self_eq_true _, fun earlier hearlier => ?_⟩
        intro heq
        have hother := List.pairwise_iff_getElem.mp h.ids earlier place (by rw [List.length_map]; omega)
          (by rw [List.length_map]; exact hlt) hearlier
        rw [List.getElem_map, List.getElem_map, hget, hid] at hother
        exact hother (eq_of_beq heq)
      rw [hparent] at hlowered
      simp only [bind, Except.bind, hfind] at hlowered
      have hlength : (DropArgument.args site).length = (call.ranges base).length := by
        rw [← h.args, List.length_map]
      have hrange : ∀ index : ℕ, (call.ranges base)[index]? =
          ((DropArgument.args site)[index]?).map fun each => (each.start, each.stop) := fun index => by
        rw [← h.args, List.getElem?_map]
      have hreach : DropArgument.reach site parent (DropArgument.args site) place = call.reach decorated base place := by
        rw [DropArgument.reach, Listing.reach, hlength, hstart, hstop]
        by_cases hone : (call.ranges base).length = 1
        · rw [if_pos hone, if_pos hone]
          by_cases hdecorated : decorated = true
          · rw [if_pos (h.decorated.mpr hdecorated), if_pos hdecorated]
          · rw [if_neg fun htypes => hdecorated (h.decorated.mp htypes), if_neg hdecorated]
        · rw [if_neg hone, if_neg hone, reachOf, hrange, hrange, hrange, hnode]
          by_cases hnext : place + 1 < (call.ranges base).length
          · obtain ⟨next, hnext'⟩ : ∃ next, (DropArgument.args site)[place + 1]? = some next :=
              ⟨_, List.getElem?_eq_getElem (hlength ▸ hnext)⟩
            rw [if_pos hnext, hnext']
            rfl
          · rw [if_neg hnext, List.getElem?_eq_none (by omega : (DropArgument.args site).length ≤ place + 1)]
            cases (DropArgument.args site)[place - 1]? <;> rfl
      split at hlowered
      · next low high start stop hbetween hfound =>
          split at hlowered
          · cases hlowered
          · refine ⟨place, (start, stop), hplace, hreach.symm.trans hfound, ?_⟩
            rw [← h.content, ← h.path]
            exact (Except.ok.inj hlowered).symm
      · cases hlowered

end Lowering

/-! The plan of drops -/

/-- The edits of a drop and the byte edit they are. -/
def dropOf (data : Bytes) (path : Place) (range : ℕ × ℕ) : List Edit :=
  [.replace (rangeSpan data path range.1 range.2) []]

def takeOf (path : Place) (range : ℕ × ℕ) : TextEdit where
  path := path
  start := range.1
  stop := range.2
  text := []

/-- Two ranges share no byte and do not start at one. -/
def Clear (one other : TextEdit) : Prop := ¬ (one.start < other.stop ∧ other.start < one.stop) ∧ one.start ≠ other.start

instance : Std.Symm Clear := ⟨fun _ _ h => ⟨fun hboth => h.1 ⟨hboth.2, hboth.1⟩, Ne.symm h.2⟩⟩

/-- A plan that took drops in one file and nothing else. -/
structure DropPlan (path : Place) (data : Bytes) (plan : Plan) (taken : List (List Edit)) : Prop where
  created : plan.created = []
  imports : plan.imports = []
  text : ∀ piece, piece ∈ plan.text ↔
    ∃ range : ℕ × ℕ, range.1 ≤ range.2 ∧ range.2 ≤ data.length ∧ dropOf data path range ∈ taken ∧ piece = takeOf path range
  apart : plan.text.Pairwise fun one other => Plan.collide other one = false

section Planning

variable {project : Project} {grammar : Grammar} {path : Place} {data : Bytes} {plan : Plan} {offers taken : List (List Edit)}

theorem offer_sublist {plan next : Plan} (h : Plan.offer project plan offers = some (next, taken)) :
    taken.Sublist offers := by
  induction offers generalizing plan taken with
  | nil =>
      cases h
      exact List.Sublist.slnil
  | cons edits offers ih =>
      simp only [Plan.offer, Option.bind_eq_bind, Option.bind_eq_some_iff] at h
      obtain ⟨⟨middle, answer⟩, -, ⟨last, later⟩, hrest, h⟩ := h
      cases h
      cases answer with
      | true => exact (ih hrest).cons_cons edits
      | false => exact (ih hrest).cons edits

theorem dropOf_inj {one other : ℕ × ℕ} (hone : one.1 ≤ one.2 ∧ one.2 ≤ data.length)
    (hother : other.1 ≤ other.2 ∧ other.2 ≤ data.length) (h : dropOf data path one = dropOf data path other) : one = other := by
  have hspan : rangeSpan data path one.1 one.2 = rangeSpan data path other.1 other.2 := by
    rw [dropOf, dropOf, List.cons.injEq, Edit.replace.injEq] at h
    exact h.1.1
  have hcovers := @covers_rangeSpan data path one.1 one.2 (hone.1.trans hone.2) hone.2
  rw [hspan, covers_rangeSpan (hother.1.trans hother.2) hother.2] at hcovers
  exact (Option.some.inj hcovers).symm

theorem expandAll_drop (hread : project.read path = .ok data) (hcreated : plan.created = []) {range : ℕ × ℕ}
    (hrange : range.1 ≤ range.2 ∧ range.2 ≤ data.length) :
    Plan.expandAll project plan (dropOf data path range) = some [takeOf path range] := by
  have hsource : Plan.source project plan path = some ⟨data⟩ := by
    unfold Plan.source
    rw [hcreated, if_neg List.not_mem_nil, hread]
  have hcovers := @covers_rangeSpan data path range.1 range.2 (hrange.1.trans hrange.2) hrange.2
  have hpath : (rangeSpan data path range.1 range.2).path = path := rfl
  simp only [dropOf, Plan.expandAll, Plan.expand, hpath, hsource, hcovers, Option.bind_eq_bind, Option.bind_some,
    Option.pure_def]
  rfl

/-- A fresh plan that is offered drops takes some, no two of which collide. -/
theorem dropPlan_offer (hread : project.read path = .ok data)
    (hdrops : ∀ edits ∈ offers, ∃ range : ℕ × ℕ, (range.1 ≤ range.2 ∧ range.2 ≤ data.length) ∧ edits = dropOf data path range)
    (h : Plan.offer project {} offers = some (plan, taken)) : DropPlan path data plan taken := by
  have hall : ∀ edits ∈ taken, ∃ range : ℕ × ℕ, (range.1 ≤ range.2 ∧ range.2 ≤ data.length) ∧
      edits = dropOf data path range := fun edits hedits => hdrops edits ((offer_sublist h).subset hedits)
  refine @Plan.offer_induct project {} plan (fun plan taken => (∀ edits ∈ taken, ∃ range : ℕ × ℕ,
    (range.1 ≤ range.2 ∧ range.2 ≤ data.length) ∧ edits = dropOf data path range) → DropPlan path data plan taken)
    offers [] taken ?_ ?_ ?_ h hall
  · exact fun plan taken deferred hplan hgood => ⟨(hplan hgood).created, (hplan hgood).imports, (hplan hgood).text,
      (hplan hgood).apart⟩
  · intro plan taken edits expanded hplan _ hexpanded hfree hgood
    have hheld := hplan fun edits hedits => hgood edits (List.mem_append_left _ hedits)
    obtain ⟨range, hrange, rfl⟩ := hgood edits (List.mem_append_right _ List.mem_cons_self)
    rw [expandAll_drop hread hheld.created hrange] at hexpanded
    obtain rfl := Option.some.inj hexpanded
    simp only [Plan.collides, Bool.or_eq_false_iff, List.any_cons, List.any_nil, Bool.or_false, List.any_eq_false,
      Bool.not_eq_true] at hfree
    refine ⟨?_, hheld.imports, fun piece => ?_, ?_⟩
    · rw [Plan.taking, hheld.created]
      rfl
    · rw [Plan.taking, List.mem_append, hheld.text, List.mem_singleton]
      constructor
      · rintro (⟨other, hlow, hhigh, hmem, rfl⟩ | rfl)
        · exact ⟨other, hlow, hhigh, List.mem_append_left _ hmem, rfl⟩
        · exact ⟨range, hrange.1, hrange.2, List.mem_append_right _ List.mem_cons_self, rfl⟩
      · rintro ⟨other, hlow, hhigh, hmem, rfl⟩
        rcases List.mem_append.mp hmem with hmem | hmem
        · exact .inl ⟨other, hlow, hhigh, hmem, rfl⟩
        · rw [dropOf_inj ⟨hlow, hhigh⟩ hrange (List.mem_singleton.mp hmem)]
          exact .inr rfl
    · rw [Plan.taking, List.pairwise_append]
      refine ⟨hheld.apart, List.pairwise_singleton _ _, fun one hone other hother => ?_⟩
      rw [List.mem_singleton.mp hother]
      exact hfree.2 one hone
  · intro _
    refine ⟨rfl, rfl, fun piece => ⟨fun hpiece => absurd hpiece List.not_mem_nil, ?_⟩, .nil⟩
    rintro ⟨_, -, -, hmem, -⟩
    exact absurd hmem List.not_mem_nil

/-- Drops taken together are ranges that do not overlap. -/
theorem DropPlan.free (h : DropPlan path data plan taken) :
    (∀ piece ∈ plan.text, piece.start ≤ piece.stop ∧ piece.text = []) ∧ plan.text.Pairwise Clear := by
  have hpieces : ∀ piece ∈ plan.text, piece.start ≤ piece.stop ∧ piece.text = [] ∧ piece.path = path ∧
      piece.claims = false ∧ piece.stacking = false := fun piece hpiece => by
    obtain ⟨range, hlow, -, -, rfl⟩ := (h.text piece).mp hpiece
    exact ⟨hlow, rfl, rfl, rfl, rfl⟩
  refine ⟨fun piece hpiece => ⟨(hpieces piece hpiece).1, (hpieces piece hpiece).2.1⟩, ?_⟩
  refine h.apart.imp_of_mem fun hone hother hfree => ?_
  obtain ⟨-, -, hpath, hclaims, hstacking⟩ := hpieces _ hone
  obtain ⟨-, -, hpath', hclaims', hstacking'⟩ := hpieces _ hother
  rw [Plan.collide, hpath, hpath', hclaims, hclaims', hstacking, hstacking', if_neg (by simp), Bool.or_eq_false_iff,
    Bool.and_eq_false_iff, decide_eq_false_iff_not, decide_eq_false_iff_not, beq_eq_false_iff_ne] at hfree
  obtain ⟨happart, hstart⟩ := hfree
  refine ⟨fun hboth => ?_, Ne.symm hstart⟩
  rcases happart with hnot | hnot
  · exact hnot hboth.2
  · exact hnot hboth.1

/-- What a plan of drops writes is its pieces spliced, and nothing where it took none. -/
theorem DropPlan.files (h : DropPlan path data plan taken) (hread : project.read path = .ok data)
    {files : List (Place × Bytes)} (hwritten : plan.written project grammar = some files) :
    ∃ pieces : List TextEdit, (∀ piece, piece ∈ pieces ↔ piece ∈ plan.text) ∧
      (pieces.Pairwise fun one other => one.stop ≤ other.start) ∧
        (OrderedMap.get files path).getD data = splicedFrom data 0 pieces := by
  obtain ⟨hpieces, hfree⟩ := h.free
  have hpaths : ∀ piece ∈ plan.text, piece.path = path ∧ piece.claims = false := fun piece hpiece => by
    obtain ⟨range, -, -, -, rfl⟩ := (h.text piece).mp hpiece
    exact ⟨rfl, rfl⟩
  have himports : Plan.imported project grammar plan = some [] := by
    rw [Plan.imported, h.imports]
    rfl
  have hall : (plan.text ++ []).filter (fun edit => !edit.claims) = plan.text := by
    rw [List.append_nil, List.filter_eq_self]
    exact fun piece hpiece => by rw [(hpaths piece hpiece).2]; rfl
  have hexact := @Plan.written_of_sources project grammar plan [] himports (fun _ => data) fun piece hpiece => by
    rw [hall] at hpiece
    unfold Plan.source
    rw [(hpaths piece hpiece).1, h.created, if_neg List.not_mem_nil, hread]
  rw [hwritten, hall] at hexact
  refine ⟨Plan.fileOrder plan.text, fun piece => Plan.mem_fileOrder, ?_, ?_⟩
  · have hsorted := Plan.pairwise_fileOrder plan.text
    have hapart : (Plan.fileOrder plan.text).Pairwise fun one other =>
        ¬ (one.start < other.stop ∧ other.start < one.stop) := by
      refine ((List.perm_insertionSort _ plan.text).pairwise_iff fun hnot hboth => hnot ⟨hboth.2, hboth.1⟩).mpr ?_
      exact hfree.imp And.left
    exact Apart.follows ⟨fun piece hpiece => (hpieces piece (Plan.mem_fileOrder.mp hpiece)).1, hapart⟩ hsorted
  · rw [Option.some.inj hexact]
    cases htext : plan.text with
    | nil => rfl
    | cons first rest =>
        rw [htext] at hpaths
        have hsame : ∀ piece ∈ first :: rest, piece.path = path := fun piece hpiece => (hpaths piece hpiece).1
        have hkeys : ((first :: rest).map TextEdit.path).eraseDups = [path] := by
          rw [List.map_cons, List.eraseDups_cons, hsame first List.mem_cons_self, List.filter_eq_nil_iff.mpr]
          · rfl
          · intro other hother
            obtain ⟨piece, hpiece, rfl⟩ := List.mem_map.mp hother
            rw [hsame piece (List.mem_cons_of_mem _ hpiece)]
            simp
        have hfilter : (first :: rest).filter (fun edit => edit.path = path) = first :: rest :=
          List.filter_eq_self.mpr fun piece hpiece => decide_eq_true (hsame piece hpiece)
        rw [hkeys, List.map_singleton, hfilter]
        simp [OrderedMap.get]

end Planning

/-! What is left of a call -/

section Leaving

variable {grammar : Grammar} {path : Place} {before after next : Bytes} {base : ℕ} {decorated : Bool} {call : Listing}
  {dropped : List ℕ}

theorem length_full (lead : List Filler) (init : List Slot) (last : Argument) (tail : List Filler)
    (ending : Option (List Filler)) : (Listing.full lead init last tail ending).text.length =
      1 + (fillers lead).length + (body init last).length + (closing tail ending).length := by
  simp only [Listing.text, List.length_append, List.length_cons]
  omega

theorem closing_pos (tail : List Filler) (ending : Option (List Filler)) : 0 < (closing tail ending).length := by
  simp [closing]

/-- What goes with an argument is a range of the list. -/
theorem reach_bounds {place : ℕ} {range : ℕ × ℕ} {argument : Argument} (hplace : call.arguments[place]? = some argument)
    (h : call.reach decorated base place = some range) : range.1 ≤ range.2 ∧ range.2 ≤ base + call.text.length := by
  cases call with
  | bare => cases hplace
  | empty inside => cases hplace
  | full lead init last tail ending =>
      have hlength := length_full lead init last tail ending
      have hbody : 0 < (body init last).length := by
        rw [body, List.length_append]
        exact Nat.lt_of_lt_of_le (List.length_pos_iff.mpr last.some) (Nat.le_add_left _ _)
      have hclosing := closing_pos tail ending
      rw [Listing.reach, Listing.ranges, length_rangesFrom] at h
      split at h
      · split at h
        · cases h
          exact ⟨Nat.le_add_right _ _, Nat.le_refl _⟩
        · cases h
          dsimp only
          omega
      · next hmany =>
          have hinit : init ≠ [] := fun hnil => hmany (by rw [hnil]; rfl)
          have hbounds := reachOf_bounds hinit h
          omega

/-- The pieces of a plan of drops are those of the arguments dropped. -/
theorem mem_text {data : Bytes} {plan : Plan} {taken : List (List Edit)} {asked : List (Argument × Site)}
    (hids : (call.arguments.map Argument.id).Nodup) (hlength : base + call.text.length ≤ data.length)
    (hreads : ∀ pair ∈ asked, Reads pair.2 path data base decorated call pair.1) (hplan : DropPlan path data plan taken)
    (htaken : taken.Sublist (offersOf asked)) (piece : TextEdit) : piece ∈ plan.text ↔
      ∃ (place : ℕ) (argument : Argument) (range : ℕ × ℕ), call.arguments[place]? = some argument ∧
        argument.id ∈ droppedIn asked taken ∧ call.reach decorated base place = some range ∧ piece = takeOf path range := by
  rw [hplan.text]
  constructor
  · rintro ⟨range, hlow, hhigh, hmem, rfl⟩
    obtain ⟨pair, hpair, hsome⟩ := List.mem_filterMap.mp (htaken.subset hmem)
    cases hlowered : DropArgument.lowered pair.2 with
    | error halt =>
        rw [hlowered] at hsome
        cases hsome
    | ok edits =>
        rw [hlowered] at hsome
        obtain rfl : edits = dropOf data path range := Option.some.inj hsome
        obtain ⟨place, other, hplace, hreach, hedits⟩ := lowered_eq (hreads pair hpair) hlowered
        have hbounds := reach_bounds hplace hreach
        obtain rfl := dropOf_inj ⟨hlow, hhigh⟩ ⟨hbounds.1, hbounds.2.trans hlength⟩ hedits
        refine ⟨place, pair.1, range, hplace, ?_, hreach, rfl⟩
        refine List.mem_map.mpr ⟨pair, List.mem_filter.mpr ⟨hpair, ?_⟩, rfl⟩
        rw [hlowered]
        exact decide_eq_true hmem
  · rintro ⟨place, argument, range, hplace, hid, hreach, rfl⟩
    obtain ⟨pair, hpair, hsame⟩ := List.mem_map.mp hid
    obtain ⟨hasked, htook⟩ := List.mem_filter.mp hpair
    cases hlowered : DropArgument.lowered pair.2 with
    | error halt =>
        rw [hlowered] at htook
        cases htook
    | ok edits =>
        rw [hlowered] at htook
        obtain ⟨other, found, hother, hfound, rfl⟩ := lowered_eq (hreads pair hasked) hlowered
        have heq : other = place := by
          have hone : (call.arguments.map Argument.id)[other]? = some argument.id := by
            rw [List.getElem?_map, hother, Option.map_some, hsame]
          have htwo : (call.arguments.map Argument.id)[place]? = some argument.id := by
            rw [List.getElem?_map, hplace, Option.map_some]
          exact (List.getElem?_inj (List.getElem?_eq_some_iff.mp hone).1 hids).mp (hone.trans htwo.symm)
        rw [heq, hreach] at hfound
        obtain rfl := Option.some.inj hfound
        have hbounds := reach_bounds hplace hreach
        exact ⟨range, hbounds.1, hbounds.2.trans hlength, of_decide_eq_true htook, rfl⟩

/-- Of the last two arguments a plan never drops both. -/
theorem lone_of_free {plan : Plan} {init : List Slot} {last : Argument} {first : ℕ}
    (hmem : ∀ piece, (∃ (place : ℕ) (argument : Argument) (range : ℕ × ℕ),
      (init.map Prod.fst ++ [last])[place]? = some argument ∧ argument.id ∈ dropped ∧
        reachOf (rangesFrom first init last) place = some range ∧ piece = takeOf path range) → piece ∈ plan.text)
    (hfree : plan.text.Pairwise Clear) : Lone dropped init last := by
  intro slot hslot
  rintro ⟨hone, hother⟩
  obtain ⟨rest, rfl⟩ := List.getLast?_eq_some_iff.mp hslot
  have hlength := length_rangesFrom first (rest ++ [slot]) last
  rw [List.length_append, List.length_singleton] at hlength
  obtain ⟨hranges, horder⟩ := rangesFrom_bounds first (rest ++ [slot]) last
  have hlt : rest.length < (rangesFrom first (rest ++ [slot]) last).length := by omega
  have hnext : rest.length + 1 < (rangesFrom first (rest ++ [slot]) last).length := by omega
  have hearly := hranges _ (List.getElem_mem hlt)
  have hlate := hranges _ (List.getElem_mem hnext)
  have hapart := List.pairwise_iff_getElem.mp horder _ _ hlt hnext (Nat.lt_succ_self _)
  have hargs : ((rest ++ [slot]).map Prod.fst ++ [last])[rest.length]? = some slot.1 ∧
      ((rest ++ [slot]).map Prod.fst ++ [last])[rest.length + 1]? = some last := by
    rw [List.map_append, List.append_assoc]
    constructor
    · rw [List.getElem?_append_right (by rw [List.length_map])]
      simp
    · rw [List.getElem?_append_right (by rw [List.length_map]; omega)]
      simp
  have hpenultimate := hmem (takeOf path ((rangesFrom first (rest ++ [slot]) last)[rest.length].1,
    (rangesFrom first (rest ++ [slot]) last)[rest.length + 1].1)) ⟨rest.length, slot.1, _, hargs.1, hone, by
      rw [reachOf, List.getElem?_eq_getElem hlt, List.getElem?_eq_getElem hnext], rfl⟩
  have hfinal := hmem (takeOf path ((rangesFrom first (rest ++ [slot]) last)[rest.length].2,
    (rangesFrom first (rest ++ [slot]) last)[rest.length + 1].2)) ⟨rest.length + 1, last, _, hargs.2, hother, by
      rw [reachOf, List.getElem?_eq_getElem hnext, List.getElem?_eq_none (by omega), Nat.add_sub_cancel,
        List.getElem?_eq_getElem hlt]
      rfl, rfl⟩
  have hclear := hfree.forall hpenultimate hfinal fun heq => by
    have hstart := congrArg TextEdit.start heq
    change _ = _ at hstart
    simp only [takeOf] at hstart
    omega
  refine hclear.1 ⟨?_, ?_⟩
  · change (rangesFrom first (rest ++ [slot]) last)[rest.length].1 <
      (rangesFrom first (rest ++ [slot]) last)[rest.length + 1].2
    omega
  · exact hapart

/-- One range taken out of a file. -/
theorem spliced_one {front inner back : Bytes} :
    splicedFrom (front ++ inner ++ back) 0 [takeOf path (front.length, front.length + inner.length)] = front ++ back := by
  have hstop : front.length + inner.length = (front ++ inner).length := List.length_append.symm
  have hslice : slice (front ++ inner ++ back) 0 front.length = front := by
    rw [slice, List.append_assoc, List.take_left, List.drop_zero]
  simp only [splicedFrom, takeOf]
  rw [hstop, List.drop_left, hslice, List.append_nil]

/-- The only argument dropped leaves parentheses, or nothing behind a decorator. -/
theorem spliced_only (lead : List Filler) (last : Argument) (tail : List Filler) (ending : Option (List Filler)) :
    splicedFrom (before ++ (Listing.full lead [] last tail ending).text ++ after) 0 [takeOf path (if decorated then
        (before.length, before.length + (Listing.full lead [] last tail ending).text.length)
      else (before.length + 1, before.length + (Listing.full lead [] last tail ending).text.length - 1))] =
      before ++ (if decorated then Listing.bare else Listing.empty []).text ++ after := by
  cases decorated with
  | true =>
      rw [if_pos rfl, if_pos rfl, spliced_one, Listing.text, List.append_nil]
  | false =>
      rw [if_neg Bool.false_ne_true, if_neg Bool.false_ne_true]
      have hparts : ∃ inner, (Listing.full lead [] last tail ending).text = [40] ++ inner ++ [41] :=
        ⟨fillers lead ++ body [] last ++ (fillers tail ++ ending.elim [] (fun inside => 44 :: fillers inside)), by
          simp [Listing.text, closing]⟩
      obtain ⟨inner, hinner⟩ := hparts
      have hone := @spliced_one path (before ++ [40]) inner ([41] ++ after)
      have hlength : before.length + (Listing.full lead [] last tail ending).text.length - 1 =
          (before ++ [40]).length + inner.length := by
        rw [hinner]
        simp only [List.length_append, List.length_singleton]
        omega
      have hdata : before ++ (Listing.full lead [] last tail ending).text ++ after =
          before ++ [40] ++ inner ++ ([41] ++ after) := by
        rw [hinner]
        simp only [List.append_assoc]
      have hstart : before.length + 1 = (before ++ [40]).length := by rw [List.length_append]; rfl
      rw [hlength, hdata, hstart, hone]
      simp [Listing.text, fillers]

/-- Arguments dropped from among several leave the list of the others. -/
theorem spliced_several {init : List Slot} {last : Argument} (lead tail : List Filler) (ending : Option (List Filler))
    (hinit : init ≠ []) (hlone : Lone dropped init last) :
    splicedFrom (before ++ (Listing.full lead init last tail ending).text ++ after) 0
        (takes path (cuts dropped (before.length + 1 + (fillers lead).length) init last)) =
      before ++ ((Listing.full lead init last tail ending).without decorated dropped).text ++ after := by
  have hdata : before ++ (Listing.full lead init last tail ending).text ++ after =
      (before ++ 40 :: fillers lead) ++ (body init last ++ (closing tail ending ++ after)) := by
    simp [Listing.text]
  have hbase : before.length + 1 + (fillers lead).length = (before ++ 40 :: fillers lead).length := by
    rw [List.length_append, List.length_cons]
    omega
  have hdrop : (before ++ (Listing.full lead init last tail ending).text ++ after).drop
      (before.length + 1 + (fillers lead).length) = body init last ++ (closing tail ending ++ after) := by
    rw [hdata, hbase, List.drop_left]
  obtain ⟨left, hleft, hspliced⟩ := @spliced_cuts _ _ _ dropped init last path hinit hlone hdrop
  rw [splicedFrom_from (Nat.zero_le _) (takes_starts (cuts_order _ _ _ _).1), hspliced, Listing.without, hleft, hdata,
    hbase, slice, List.take_left, List.drop_zero]
  simp [Listing.text]

/-- A pass leaves the list without the arguments whose drops it took, between what stood around it. -/
theorem Pass.reached (h : Pass grammar path before.length decorated call (before ++ call.text ++ after) dropped next)
    (hids : (call.arguments.map Argument.id).Nodup) :
    next = before ++ (call.without decorated dropped).text ++ after := by
  cases h with
  | made project asked plan taken files hread hreads hoffer hwritten =>
      have hlength : before.length + call.text.length ≤ (before ++ call.text ++ after).length := by
        rw [List.length_append, List.length_append]
        omega
      have hplan := dropPlan_offer hread (fun edits hedits => by
        obtain ⟨pair, hpair, hsome⟩ := List.mem_filterMap.mp hedits
        cases hlowered : DropArgument.lowered pair.2 with
        | error halt =>
            rw [hlowered] at hsome
            cases hsome
        | ok found =>
            rw [hlowered] at hsome
            obtain rfl : found = edits := Option.some.inj hsome
            obtain ⟨place, range, hplace, hreach, rfl⟩ := lowered_eq (hreads pair hpair) hlowered
            have hbounds := reach_bounds hplace hreach
            exact ⟨range, ⟨hbounds.1, hbounds.2.trans hlength⟩, rfl⟩) hoffer
      have htext := mem_text hids hlength hreads hplan (offer_sublist hoffer)
      obtain ⟨hpieces, hfree⟩ := hplan.free
      obtain ⟨pieces, hsame, hfollows, hnext⟩ := hplan.files hread hwritten
      rw [hnext]
      generalize droppedIn asked taken = dropped at htext ⊢
      have hnone : (∀ argument ∈ call.arguments, argument.id ∉ dropped) → pieces = [] := fun hkept =>
        List.eq_nil_iff_forall_not_mem.mpr fun piece hpiece => by
          obtain ⟨place, argument, range, hplace, hid, -, -⟩ := (htext piece).mp ((hsame piece).mp hpiece)
          exact hkept argument (List.mem_of_getElem? hplace) hid
      have hjoin : ∀ others : List TextEdit, (∀ piece, piece ∈ plan.text ↔ piece ∈ others) →
          (others.Pairwise fun one other => one.stop ≤ other.start) →
            splicedFrom (before ++ call.text ++ after) 0 pieces = splicedFrom (before ++ call.text ++ after) 0 others :=
        fun others hothers horder => splicedFrom_congr (fun piece => (hsame piece).trans (hothers piece))
          (fun piece hpiece => (hpieces piece ((hsame piece).mp hpiece)).2)
          (fun piece hpiece => (hpieces piece ((hsame piece).mp hpiece)).1) hfollows horder
      cases call with
      | bare =>
          rw [hnone fun _ h => absurd h List.not_mem_nil]
          rfl
      | empty inside =>
          rw [hnone fun _ h => absurd h List.not_mem_nil]
          rfl
      | full lead init last tail ending =>
          by_cases hinit : init = []
          · subst hinit
            by_cases hlast : last.id ∈ dropped
            · have hleft : leaving dropped [] last = none := by rw [leaving, if_pos hlast]; rfl
              have hreach : Listing.reach decorated before.length (.full lead [] last tail ending) 0 = some
                  (if decorated then (before.length, before.length + (Listing.full lead [] last tail ending).text.length)
                  else (before.length + 1, before.length + (Listing.full lead [] last tail ending).text.length - 1)) := by
                rw [Listing.reach, Listing.ranges, length_rangesFrom, if_pos (by rfl)]
                cases decorated <;> rfl
              have hone : ∀ piece, piece ∈ plan.text ↔ piece ∈ [takeOf path (if decorated then
                  (before.length, before.length + (Listing.full lead [] last tail ending).text.length)
                else (before.length + 1, before.length + (Listing.full lead [] last tail ending).text.length - 1))] := by
                intro piece
                rw [htext, List.mem_singleton]
                constructor
                · rintro ⟨place, argument, range, hplace, -, hrange, rfl⟩
                  cases place with
                  | zero =>
                      rw [hreach] at hrange
                      rw [Option.some.inj hrange]
                  | succ place => cases hplace
                · rintro rfl
                  exact ⟨0, last, _, rfl, hlast, hreach, rfl⟩
              rw [hjoin _ hone (List.pairwise_singleton _ _), spliced_only, Listing.without, hleft]
            · have hleft : leaving dropped [] last = some ([], last) := by rw [leaving, if_neg hlast]; rfl
              rw [hnone fun argument hargument => by rwa [List.mem_singleton.mp hargument], Listing.without, hleft]
              rfl
          · have hreach : ∀ place, Listing.reach decorated before.length (.full lead init last tail ending) place =
                reachOf (rangesFrom (before.length + 1 + (fillers lead).length) init last) place := fun place => by
              have hpos := List.length_pos_iff.mpr hinit
              rw [Listing.reach, Listing.ranges, length_rangesFrom, if_neg (by omega)]
            simp only [hreach] at htext
            have hlone : Lone dropped init last := lone_of_free (fun piece => (htext piece).mpr) hfree
            have hcuts : ∀ piece, piece ∈ plan.text ↔
                piece ∈ takes path (cuts dropped (before.length + 1 + (fillers lead).length) init last) := by
              intro piece
              rw [htext, mem_takes]
              simp only [mem_cuts hinit hlone]
              constructor
              · rintro ⟨place, argument, range, hplace, hid, hrange, rfl⟩
                exact ⟨range, ⟨place, argument, hplace, hid, hrange⟩, rfl⟩
              · rintro ⟨range, ⟨place, argument, hplace, hid, hrange⟩, rfl⟩
                exact ⟨place, argument, range, hplace, hid, hrange, rfl⟩
            have horder := (cuts_order dropped (before.length + 1 + (fillers lead).length) init last).2
            rw [hjoin _ hcuts (List.pairwise_map.mpr horder), spliced_several lead tail ending hinit hlone]

theorem without_nil (call : Listing) : call.without decorated [] = call := by
  cases call with
  | bare => rfl
  | empty inside => rfl
  | full lead init last tail ending =>
      have hleft : leaving [] init last = some (init, last) := by
        rw [leaving, if_neg List.not_mem_nil, List.filter_eq_self.mpr]
        exact fun _ _ => decide_eq_true List.not_mem_nil
      rw [Listing.without, hleft]

end Leaving

/-- A list without exactly the dropped arguments, the others in order; a comma stands behind the last of them only where
one did, and what is left without arguments are its parentheses, or nothing behind a decorator. -/
structure Gone (decorated : Bool) (dropped : List ℕ) (call left : Listing) : Prop where
  arguments : left.arguments = call.arguments.filter fun argument => argument.id ∉ dropped
  trailing : left.arguments ≠ [] → left.trailing = call.trailing
  nothing : call.arguments ≠ [] → left.arguments = [] → left.text = if decorated then [] else [40, 41]

theorem gone_without (decorated : Bool) (dropped : List ℕ) (call : Listing) :
    Gone decorated dropped call (call.without decorated dropped) where
  arguments := Listing.arguments_without call
  trailing := Listing.trailing_without call
  nothing := fun hsome hnone => by
    cases call with
    | bare => exact absurd rfl hsome
    | empty inside => exact absurd rfl hsome
    | full lead init last tail ending =>
        rw [Listing.without] at hnone ⊢
        cases hleft : leaving dropped init last with
        | none => cases decorated <;> rfl
        | some left =>
            rw [hleft] at hnone
            exact absurd (List.append_eq_nil_iff.mp hnone).2 (List.cons_ne_nil _ _)

/-- Passes over a call leave it, in the file it stands in, without exactly the arguments whose drops they took; what
else is written between its parentheses is the call's own, in its place. -/
theorem Passes.left {grammar : Grammar} {path : Place} {before after next : Bytes} {decorated : Bool} {call : Listing}
    {dropped : List ℕ} (hids : (call.arguments.map Argument.id).Nodup)
    (h : Passes grammar path before.length decorated call (before ++ call.text ++ after) dropped next) :
    Gone decorated dropped call (call.without decorated dropped) ∧
      next = before ++ (call.without decorated dropped).text ++ after := by
  refine ⟨gone_without decorated dropped call, ?_⟩
  generalize hdata : before ++ call.text ++ after = data at h
  induction h with
  | done => rw [without_nil, hdata]
  | pass first rest ih =>
      rename_i call data middle next dropped more
      subst hdata
      have hmiddle := first.reached hids
      have hless : (((call.without decorated dropped).arguments).map Argument.id).Nodup := by
        rw [Listing.arguments_without]
        exact hids.sublist (List.filter_sublist.map _)
      rw [ih hless hmiddle.symm, Listing.without_without]

/-! One call -/

def letter (id : ℕ) (byte : UInt8) : Argument := ⟨id, [byte], List.cons_ne_nil _ _⟩

def noGrammar : Grammar := ⟨fun _ => none, fun _ => none⟩

/-- `(a, b)`. -/
def pairCall : Listing := .full [] [(letter 0 97, ⟨[], [.blank 32]⟩)] (letter 1 98) [] none

/-- A node of the first line of a file. -/
def lineNode (node index : ℕ) (type semantic : String) (start stop : ℕ) : Node where
  node := node
  parent := none
  index := index
  type := type
  semantic := semantic
  start := start
  stop := stop
  line := 1
  column := start
  endLine := 1
  endColumn := stop

/-- The second argument of `f(a, b)`. -/
def pairSite : Site where
  path := ["m.py"]
  language := "python"
  content := utf8 "f(a, b)\n".toList
  target := lineNode 8 3 "identifier" "NAME_IDENTIFIER" 5 6
  siblings := [lineNode 5 0 "(" "PARSER_DELIMITER" 1 2, lineNode 6 1 "identifier" "NAME_IDENTIFIER" 2 3,
    lineNode 7 2 "," "PARSER_DELIMITER" 3 4, lineNode 8 3 "identifier" "NAME_IDENTIFIER" 5 6,
    lineNode 9 4 ")" "PARSER_DELIMITER" 6 7]
  ancestors := [lineNode 4 1 "argument_list" "ORGANIZATION_LIST" 1 7, lineNode 2 0 "call" "COMPUTATION_CALL" 0 7]

theorem pair_passes : Passes noGrammar ["m.py"] (utf8 "f".toList).length false pairCall
    (utf8 "f".toList ++ pairCall.text ++ utf8 "\n".toList) ([1] ++ []) (utf8 "f(a)\n".toList) := by
  have hdata : utf8 "f".toList ++ pairCall.text ++ utf8 "\n".toList = utf8 "f(a, b)\n".toList := by decide +kernel
  have hreads : Reads pairSite ["m.py"] (utf8 "f(a, b)\n".toList) (utf8 "f".toList).length false pairCall (letter 1 98) :=
    { path := rfl
      content := rfl
      parent := fun parent hparent => by
        obtain rfl := Option.some.inj hparent
        decide +kernel
      decorated := by decide +kernel
      args := by decide +kernel
      ids := by decide +kernel
      target := ⟨1, rfl, by decide +kernel⟩ }
  have hpass := @Pass.made noGrammar ["m.py"] (utf8 "f".toList).length false pairCall (utf8 "f(a, b)\n".toList)
    (FileTree.Tree.ofFiles [(["m.py"], utf8 "f(a, b)\n".toList)]) [(letter 1 98, pairSite)]
    { text := [takeOf ["m.py"] (3, 6)] } [dropOf (utf8 "f(a, b)\n".toList) ["m.py"] (3, 6)]
    [(["m.py"], utf8 "f(a)\n".toList)] (by decide +kernel)
    (fun pair hpair => by rw [List.mem_singleton.mp hpair]; exact hreads) (by decide +kernel) (by decide +kernel)
  have hdropped : droppedIn [(letter 1 98, pairSite)] [dropOf (utf8 "f(a, b)\n".toList) ["m.py"] (3, 6)] = [1] := by
    decide +kernel
  have hwritten : (OrderedMap.get [((["m.py"] : Place), utf8 "f(a)\n".toList)] ["m.py"]).getD (utf8 "f(a, b)\n".toList) =
      utf8 "f(a)\n".toList := by decide +kernel
  rw [hdropped, hwritten] at hpass
  rw [hdata]
  exact .pass hpass .done

/-- The second of two arguments dropped. -/
theorem left_pair : Gone false ([1] ++ []) pairCall (pairCall.without false ([1] ++ [])) ∧
    utf8 "f(a)\n".toList = utf8 "f".toList ++ (pairCall.without false ([1] ++ [])).text ++ utf8 "\n".toList :=
  Passes.left (by decide +kernel) pair_passes

/-- A decorated function, before and after. -/
def loneFile : Bytes := utf8 "@f(a)\ndef k(): ...\n".toList

def bareFile : Bytes := utf8 "@f\ndef k(): ...\n".toList

/-- `(a)`. -/
def loneCall : Listing := .full [] [] (letter 0 97) [] none

/-- The argument of `@f(a)`. -/
def loneSite : Site where
  path := ["m.py"]
  language := "python"
  content := loneFile
  target := lineNode 7 1 "identifier" "NAME_IDENTIFIER" 3 4
  siblings := [lineNode 6 0 "(" "PARSER_DELIMITER" 2 3, lineNode 7 1 "identifier" "NAME_IDENTIFIER" 3 4,
    lineNode 8 2 ")" "PARSER_DELIMITER" 4 5]
  ancestors := [lineNode 5 1 "argument_list" "ORGANIZATION_LIST" 2 5, lineNode 3 1 "call" "COMPUTATION_CALL" 1 5,
    lineNode 1 0 "decorator" "METADATA_ANNOTATION" 0 5]

/-- A decorator's only argument dropped leaves no call. -/
theorem left_fails : ¬ ∀ (grammar : Grammar) (path : Place) (before after next : Bytes) (decorated : Bool) (call : Listing)
    (dropped : List ℕ), (call.arguments.map Argument.id).Nodup →
      Passes grammar path before.length decorated call (before ++ call.text ++ after) dropped next →
        ∃ left, Gone false dropped call left ∧ next = before ++ left.text ++ after := by
  intro hall
  have hdata : utf8 "@f".toList ++ loneCall.text ++ utf8 "\ndef k(): ...\n".toList = loneFile := by decide +kernel
  have hreads : Reads loneSite ["m.py"] loneFile (utf8 "@f".toList).length true loneCall (letter 0 97) :=
    { path := rfl
      content := rfl
      parent := fun parent hparent => by
        obtain rfl := Option.some.inj hparent
        decide +kernel
      decorated := by decide +kernel
      args := by decide +kernel
      ids := by decide +kernel
      target := ⟨0, rfl, by decide +kernel⟩ }
  have hpass := @Pass.made noGrammar ["m.py"] (utf8 "@f".toList).length true loneCall loneFile
    (FileTree.Tree.ofFiles [(["m.py"], loneFile)]) [(letter 0 97, loneSite)]
    { text := [takeOf ["m.py"] (2, 5)] } [dropOf loneFile ["m.py"] (2, 5)]
    [(["m.py"], bareFile)] (by decide +kernel)
    (fun pair hpair => by rw [List.mem_singleton.mp hpair]; exact hreads) (by decide +kernel) (by decide +kernel)
  have hdropped : droppedIn [(letter 0 97, loneSite)] [dropOf loneFile ["m.py"] (2, 5)] = [0] := by
    decide +kernel
  have hwritten : (OrderedMap.get [((["m.py"] : Place), bareFile)] ["m.py"]).getD loneFile =
      bareFile := by decide +kernel
  rw [hdropped, hwritten] at hpass
  obtain ⟨left, hgone, hnext⟩ := hall noGrammar ["m.py"] (utf8 "@f".toList) (utf8 "\ndef k(): ...\n".toList)
    bareFile true loneCall ([0] ++ []) (by decide +kernel) (by rw [hdata]; exact .pass hpass .done)
  have hnone : left.arguments = [] := by
    rw [hgone.arguments]
    rfl
  rw [hgone.nothing (List.cons_ne_nil _ _) hnone] at hnext
  exact absurd hnext (by decide +kernel)

end Mainboard.Analysis.Nodes
