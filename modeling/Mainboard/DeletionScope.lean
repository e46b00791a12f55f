import Mainboard.DeletedLines

/-! What a deletion takes. The bytes it deletes are blanks or belong to the node, to the comments right above it or to
comments that end its last line, unless code stands on that line behind a comment. -/

namespace Mainboard.Analysis.Nodes

/-- A node's range and span name bytes of a file. -/
structure Placed (data : Bytes) (each : Node) : Prop where
  order : each.start ≤ each.stop
  stop : each.stop ≤ data.length
  line : each.line = lineOf data each.start
  column : (each.column : ℤ) = (placeOf data each.start).2
  endLine : each.endLine = lineOf data each.stop
  endColumn : (each.endColumn : ℤ) = (placeOf data each.stop).2

/-- A node among its siblings as a parser leaves them: in order, with only blanks between neighbours. -/
structure Grown (data : Bytes) (node : Node) (holder : List Node) : Prop where
  mem : node ∈ holder
  placed : ∀ each ∈ holder, Placed data each
  order : holder.Pairwise fun one other => one.index < other.index ∧ one.stop ≤ other.start
  gaps : ∀ (before : List Node) (one other : Node) (after : List Node), holder = before ++ one :: other :: after →
    ∀ (offset : ℕ) (byte : UInt8), one.stop ≤ offset → offset < other.start → data[offset]? = some byte →
      LineEdit.solid byte = false

/-- The node's text holds a byte. -/
def Node.Holds (node : Node) (offset : ℕ) : Prop := node.start ≤ offset ∧ offset < node.stop

/-- A comment on the lines right above a node, or right above such a comment. -/
inductive Above (holder : List Node) (node : Node) : Node → Prop where
  | next {each : Node} (mem : each ∈ holder) (comment : each.comment = true)
      (line : DeleteNode.last each + 1 = node.line) : Above holder node each
  | more {each other : Node} (above : Above holder node other) (mem : each ∈ holder) (comment : each.comment = true)
      (line : DeleteNode.last each + 1 = other.line) : Above holder node each

/-- A byte of a comment behind a node on its last line. -/
def Trails (node : Node) (holder : List Node) (offset : ℕ) : Prop :=
  ∃ each ∈ holder, each.comment = true ∧ node.stop ≤ each.start ∧
    DeleteNode.last each = DeleteNode.last node ∧ each.Holds offset

/-- A byte of a node, of a comment right above it or of one that ends its last line. -/
def Belongs (node : Node) (holder : List Node) (offset : ℕ) : Prop :=
  node.Holds offset ∨ (∃ each, Above holder node each ∧ each.Holds offset) ∨ Trails node holder offset

/-- The bytes that byte edits take out of a file are blanks or belong to a node. -/
def Spares (data : Bytes) (node : Node) (holder : List Node) (pieces : List TextEdit) : Prop :=
  ∀ piece ∈ pieces, piece.claims = false → ∀ (offset : ℕ) (byte : UInt8), piece.Covers offset →
    data[offset]? = some byte → LineEdit.solid byte = true → Belongs node holder offset

/-- Behind a node its last line holds only blanks and comments that end there. -/
def Clean (data : Bytes) (node : Node) (holder : List Node) : Prop :=
  ∀ (offset : ℕ) (byte : UInt8), node.stop ≤ offset → data[offset]? = some byte → LineEdit.solid byte = true →
    lineOf data offset = DeleteNode.last node → Trails node holder offset

/-- The dialect's filler takes the node's place. -/
def Fills (site : Site) (dialect : Dialect) : Prop :=
  ∃ block, site.ancestors[(DeleteNode.lifted site dialect).length]? = some block ∧ DeleteNode.fills dialect block
    (DeleteNode.chosen site dialect).1 (DeleteNode.chosen site dialect).2 = true

section Placing

variable {data : Bytes} {node each : Node} {holder : List Node} {offset : ℕ} {byte : UInt8}

theorem lineOf_pos (data : Bytes) (offset : ℕ) : 0 < lineOf data offset := Nat.succ_pos _

/-- A node's bytes stand on its lines. -/
theorem Placed.lineOf_le_last (h : Placed data each) (hoffset : offset < each.stop) :
    lineOf data offset ≤ DeleteNode.last each := by
  have hle := @lineOf_mono data offset each.stop hoffset.le
  rw [DeleteNode.last]
  split
  · next hend =>
      rw [h.endLine]
      rcases hle.lt_or_eq with hlt | heq
      · omega
      · have hwide := column_ge hoffset.le h.stop heq
        have hcolumn := h.endColumn
        rw [hend.1, placeOf] at hcolumn
        simp only [Nat.cast_inj] at hcolumn
        omega
  · rwa [h.endLine]

theorem Placed.line_le_last (h : Placed data each) : each.line ≤ DeleteNode.last each := by
  have hle := @lineOf_mono data each.start each.stop h.order
  rw [DeleteNode.last, h.line, h.endLine]
  split
  · omega
  · exact hle

/-- A node's span covers its bytes. -/
theorem Placed.covers (h : Placed data each) (path : Place) :
    Source.covers ⟨data⟩ (each.span path) = some (each.start, each.stop) := by
  have hspan : each.span path = rangeSpan data path each.start each.stop := by
    have hcolumn := congrArg Int.toNat h.column
    have hendColumn := congrArg Int.toNat h.endColumn
    rw [Int.toNat_natCast] at hcolumn hendColumn
    rw [Node.span, rangeSpan, h.line, h.endLine, hcolumn, hendColumn]
    rfl
  rw [hspan, covers_rangeSpan (h.order.trans h.stop) h.stop]

/-- Bytes behind a node stand on its last line or on later ones. -/
theorem Placed.last_le_lineOf (h : Placed data each) (hoffset : each.stop ≤ offset) :
    DeleteNode.last each ≤ lineOf data offset := by
  have hle := @lineOf_mono data each.stop offset hoffset
  rw [DeleteNode.last, h.endLine]
  split
  · exact (Nat.sub_le _ _).trans hle
  · exact hle

/-- Comments above a node stand on lines before its first. -/
theorem Above.last_lt (hplaced : ∀ each ∈ holder, Placed data each) (h : Above holder node each) :
    DeleteNode.last each < node.line ∧ each ∈ holder := by
  induction h with
  | next mem comment line => exact ⟨by omega, mem⟩
  | more above mem comment line ih =>
      have hother := (hplaced _ ih.2).line_le_last
      exact ⟨by omega, mem⟩

/-- Before a node that its line's blanks reach up to, its first line holds only blanks. -/
theorem Placed.before_blank (h : Placed data each) (hindent : indent data each.start = each.column)
    (hoffset : offset < each.start) (hline : each.line ≤ lineOf data offset) (hbyte : data[offset]? = some byte) :
    LineEdit.solid byte = false := by
  have hsame : lineOf data offset = lineOf data each.start := (lineOf_mono hoffset.le).antisymm (h.line ▸ hline)
  exact indent_blank hoffset (h.order.trans h.stop) (by rw [hindent, h.column]) hsame hbyte

/-- From a node or a comment up, bytes on the lines climbed to are those of comments, or blanks. -/
theorem Grown.climb (h : Grown data node holder) {first : Node} {rest after : List Node}
    (hparts : holder = rest.reverse ++ first :: after) (hfirst : first = node ∨ Above holder node first)
    (hindent : indent data first.start = first.column) :
    (DeleteNode.climb data first rest).line ≤ first.line ∧ 0 < (DeleteNode.climb data first rest).line ∧
      ∀ (offset : ℕ) (byte : UInt8), offset < first.start → (DeleteNode.climb data first rest).line ≤ lineOf data offset →
        data[offset]? = some byte → LineEdit.solid byte = true → ∃ each, Above holder node each ∧ each.Holds offset := by
  induction rest generalizing first after with
  | nil =>
      have hheld := h.placed first (hparts ▸ List.mem_append_right _ List.mem_cons_self)
      refine ⟨Nat.le_refl _, hheld.line ▸ lineOf_pos _ _, fun offset byte hoffset hline hbyte hsolid => ?_⟩
      rw [hheld.before_blank hindent hoffset hline hbyte] at hsolid
      cases hsolid
  | cons each rest ih =>
      rw [DeleteNode.climb]
      split
      · next hcomment =>
          obtain ⟨hcomment, -, howned, hlast⟩ := hcomment
          rw [List.reverse_cons, List.append_assoc, List.singleton_append] at hparts
          have heach : each ∈ holder := hparts ▸ List.mem_append_right _ List.mem_cons_self
          have habove : Above holder node each := by
            rcases hfirst with rfl | habove
            · exact .next heach hcomment hlast
            · exact .more habove heach hcomment hlast
          obtain ⟨hle, hpos, hbytes⟩ := ih hparts (.inr habove) howned
          have hline := (h.placed each heach).line_le_last
          refine ⟨by omega, hpos, fun offset byte hoffset hclimbed hbyte hsolid => ?_⟩
          rcases Nat.lt_or_ge offset each.start with hbefore | hge
          · exact hbytes offset byte hbefore hclimbed hbyte hsolid
          · rcases Nat.lt_or_ge offset each.stop with hin | hbehind
            · exact ⟨each, habove, hge, hin⟩
            · rw [h.gaps _ _ _ _ hparts offset byte hbehind hoffset hbyte] at hsolid
              cases hsolid
      · have hheld := h.placed first (hparts ▸ List.mem_append_right _ List.mem_cons_self)
        refine ⟨Nat.le_refl _, hheld.line ▸ lineOf_pos _ _, fun offset byte hoffset hline hbyte hsolid => ?_⟩
        rw [hheld.before_blank hindent hoffset hline hbyte] at hsolid
        cases hsolid

theorem indent_of_alone (h : DeleteNode.alone data node holder = true) : indent data node.start = node.column := by
  unfold DeleteNode.alone at h
  split at h
  · cases h
  · next hindent => exact not_not.mp hindent

/-- The lines deleted with a node hold blanks, the node, comments above it, and what stands behind it on its last line. -/
theorem Grown.lines (h : Grown data node holder) (halone : DeleteNode.alone data node holder = true) (path : Place) :
    0 < (DeleteNode.lines data node holder path).startLine ∧
      (DeleteNode.lines data node holder path).startLine ≤ DeleteNode.last node ∧
      DeleteNode.last node ≤ (DeleteNode.lines data node holder path).lastLine ∧
      ∀ (offset : ℕ) (byte : UInt8), (DeleteNode.lines data node holder path).startLine ≤ lineOf data offset →
        lineOf data offset ≤ (DeleteNode.lines data node holder path).lastLine → data[offset]? = some byte →
          LineEdit.solid byte = true → node.Holds offset ∨ (∃ each, Above holder node each ∧ each.Holds offset) ∨
            node.stop ≤ offset ∧ lineOf data offset = DeleteNode.last node := by
  obtain ⟨early, late, rfl⟩ := List.append_of_mem h.mem
  have hheld := h.placed node h.mem
  have hlast := hheld.line_le_last
  have hearly : (early ++ node :: late).filter (fun each => each.index < node.index) = early := by
    obtain ⟨-, hrest, hcross⟩ := List.pairwise_append.mp h.order
    have hlate : (node :: late).filter (fun each => each.index < node.index) = [] := by
      rw [List.filter_eq_nil_iff, List.forall_mem_cons]
      refine ⟨by simp, fun each heach => ?_⟩
      have := ((List.pairwise_cons.mp hrest).1 each heach).1
      rw [decide_eq_true_eq]
      omega
    rw [List.filter_append, hlate, List.append_nil, List.filter_eq_self]
    exact fun each heach => decide_eq_true (hcross each heach node List.mem_cons_self).1
  obtain ⟨hle, hpos, hbytes⟩ := @Grown.climb _ _ _ h node early.reverse late (by rw [List.reverse_reverse]) (.inl rfl)
    (indent_of_alone halone)
  have hfirst : DeleteNode.first data node (early ++ node :: late) = DeleteNode.climb data node early.reverse := by
    rw [DeleteNode.first, hearly]
  rw [← hfirst] at hle hpos hbytes
  have htop := blanksUp_le (DeleteNode.rowsOf data) (DeleteNode.first data node (early ++ node :: late)).line
  have htop' := blanksUp_pos (DeleteNode.rowsOf data) hpos
  have hdown : DeleteNode.last node ≤ DeleteNode.blanksDown (DeleteNode.rowsOf data) (DeleteNode.last node) :=
    Nat.le_add_right _ _
  have hpositive := lineOf_pos data node.start
  -- the lines start at the first comment or at the blanks above it, and end at the node or at the blanks below it
  obtain ⟨hstart, hend⟩ : ((DeleteNode.lines data node (early ++ node :: late) path).startLine =
        (DeleteNode.first data node (early ++ node :: late)).line ∨
      (DeleteNode.lines data node (early ++ node :: late) path).startLine =
        DeleteNode.blanksUp (DeleteNode.rowsOf data) (DeleteNode.first data node (early ++ node :: late)).line) ∧
      ((DeleteNode.lines data node (early ++ node :: late) path).lastLine = DeleteNode.last node ∨
        (DeleteNode.lines data node (early ++ node :: late) path).lastLine =
          DeleteNode.blanksDown (DeleteNode.rowsOf data) (DeleteNode.last node)) := by
    have hlastLine : ∀ (start line : ℕ), 0 < line →
        Span.lastLine { path := path, startLine := start, endLine := some line } = line := fun start line hline => by
      cases line with
      | zero => omega
      | succ line => rfl
    refine ⟨ite_eq_or_eq _ _ _, ?_⟩
    unfold DeleteNode.lines
    rw [hlastLine]
    · exact (ite_eq_or_eq _ _ _).symm
    · exact ite_pos (by omega) (by omega)
  refine ⟨by omega, by omega, by omega, fun offset byte hlow hhigh hbyte hsolid => ?_⟩
  have hblank : ∀ row, DeleteNode.blankRow (DeleteNode.rowsOf data) row = true → lineOf data offset = row + 1 → False := by
    intro row hrow hline
    rw [blankRow_blank hrow hbyte hline] at hsolid
    cases hsolid
  obtain ⟨row, hrow⟩ := Nat.exists_eq_succ_of_ne_zero (lineOf_pos data offset).ne'
  rcases Nat.lt_or_ge (lineOf data offset) (DeleteNode.first data node (early ++ node :: late)).line with hup | hge
  · have hreach : DeleteNode.blanksUp (DeleteNode.rowsOf data)
        (DeleteNode.first data node (early ++ node :: late)).line ≤ row + 1 := by omega
    exact (hblank row (blanksUp_blank hreach (by omega)) hrow).elim
  · rcases Nat.lt_or_ge (DeleteNode.last node) (lineOf data offset) with hbelow | hle
    · have hreach : row < DeleteNode.blanksDown (DeleteNode.rowsOf data) (DeleteNode.last node) := by omega
      exact (hblank row (blanksDown_blank (by omega : DeleteNode.last node ≤ row) hreach) hrow).elim
    · rcases Nat.lt_or_ge offset node.start with hbefore | hstarted
      · exact .inr (.inl (hbytes offset byte hbefore hge hbyte hsolid))
      · rcases Nat.lt_or_ge offset node.stop with hin | hbehind
        · exact .inl ⟨hstarted, hin⟩
        · exact .inr (.inr ⟨hbehind, hle.antisymm (hheld.last_le_lineOf hbehind)⟩)

end Placing

/-! Deletions -/

section Deleting

variable {project : Project} {plan : Plan} {site : Site} {dialect : Dialect} {edits : List Edit} {pieces : List TextEdit}

theorem alone_of_refusal {node : Node} {holder : List Node} {wrapped : ℕ}
    (h : DeleteNode.refusal site dialect node holder wrapped = "") : DeleteNode.alone site.content node holder = true := by
  unfold DeleteNode.refusal at h
  dsimp only at h
  split at h
  · next found why hfind =>
      have hmem := List.mem_of_find?_eq_some hfind
      subst h
      simp at hmem
  · next hfind =>
      have hnone := List.find?_eq_none.mp hfind (!DeleteNode.alone site.content node holder,
        "the node shares a line with other code") (by simp)
      simpa using hnone

/-- A deletion that is not refused is of a node alone on its lines: the filler in its place, or its lines. -/
theorem deletion_cases (hfind : Dialect.find site.language = some dialect) (h : DeleteNode.lowered site = .ok edits) :
    DeleteNode.alone site.content (DeleteNode.chosen site dialect).1 (DeleteNode.chosen site dialect).2 = true ∧
      ∃ claim : List Edit, (∀ edit ∈ claim, ∃ span, edit = .claim span) ∧
        ((Fills site dialect ∧ edits =
            .replace ((DeleteNode.chosen site dialect).1.span site.path) dialect.filler :: claim) ∨
          ¬ Fills site dialect ∧ edits = .delete (DeleteNode.lines site.content (DeleteNode.chosen site dialect).1
            (DeleteNode.chosen site dialect).2 site.path) :: claim) := by
  unfold DeleteNode.lowered at h
  rw [hfind] at h
  dsimp only at h
  split at h
  · cases h
  · next hwhy =>
      refine ⟨alone_of_refusal (not_not.mp hwhy), ?_⟩
      split at h
      · cases h
      · next block hblock =>
          refine ⟨if dialect.blocks.contains block.type then [Edit.claim (block.span site.path)] else [], ?_, ?_⟩
          · intro edit hedit
            split at hedit
            · exact ⟨_, List.mem_singleton.mp hedit⟩
            · cases hedit
          · have hfills : Fills site dialect ↔ DeleteNode.fills dialect block (DeleteNode.chosen site dialect).1
                (DeleteNode.chosen site dialect).2 = true := by
              constructor
              · rintro ⟨other, hother, hfills⟩
                obtain rfl := Option.some.inj (hblock.symm.trans hother)
                exact hfills
              · exact fun hfills => ⟨block, hblock, hfills⟩
            split at h
            · next hyes => exact .inl ⟨hfills.mpr hyes, (Except.ok.inj h).symm⟩
            · next hno => exact .inr ⟨fun hyes => hno (hfills.mp hyes), (Except.ok.inj h).symm⟩

/-- What an edit with claims behind it takes out are its own pieces. -/
theorem mem_pieces {edit : Edit} {claim : List Edit} (hclaim : ∀ edit ∈ claim, ∃ span, edit = .claim span)
    (h : Plan.expandAll project plan (edit :: claim) = some pieces) :
    ∃ own, Plan.expand project plan edit = some own ∧ (∀ piece ∈ own, piece ∈ pieces) ∧
      ∀ piece ∈ pieces, piece.claims = false → piece ∈ own := by
  obtain ⟨own, hown⟩ := Plan.exists_expand h edit List.mem_cons_self
  refine ⟨own, hown, fun piece hpiece => (Plan.mem_expandAll h).mpr ⟨edit, List.mem_cons_self, own, hown, hpiece⟩, ?_⟩
  intro piece hpiece hclaims
  obtain ⟨other, hother, found, hfound, hin⟩ := (Plan.mem_expandAll h).mp hpiece
  rcases List.mem_cons.mp hother with rfl | hlate
  · obtain rfl := Option.some.inj (hown.symm.trans hfound)
    exact hin
  · obtain ⟨span, rfl⟩ := hclaim other hlate
    simp only [Plan.expand, Option.bind_eq_bind, Option.bind_eq_some_iff] at hfound
    obtain ⟨source, -, range, -, heq⟩ := hfound
    cases heq
    rw [List.mem_singleton.mp hin] at hclaims
    cases hclaims

/-- A deletion takes nothing but the node, comments above it, comments that end its last line and blanks exactly when
the filler takes its place or its last line holds nothing else behind it. -/
theorem spares_iff (hfind : Dialect.find site.language = some dialect)
    (hgrown : Grown site.content (DeleteNode.chosen site dialect).1 (DeleteNode.chosen site dialect).2)
    (hlowered : DeleteNode.lowered site = .ok edits) (hsource : Plan.source project plan site.path = some ⟨site.content⟩)
    (hexpanded : Plan.expandAll project plan edits = some pieces) :
    Spares site.content (DeleteNode.chosen site dialect).1 (DeleteNode.chosen site dialect).2 pieces ↔
      Fills site dialect ∨ Clean site.content (DeleteNode.chosen site dialect).1 (DeleteNode.chosen site dialect).2 := by
  obtain ⟨halone, claim, hclaim, hcases⟩ := deletion_cases hfind hlowered
  generalize (DeleteNode.chosen site dialect).1 = node at *
  generalize (DeleteNode.chosen site dialect).2 = holder at *
  have hheld := hgrown.placed node hgrown.mem
  rcases hcases with ⟨hfills, rfl⟩ | ⟨hfills, rfl⟩
  · obtain ⟨own, hown, -, hpieces⟩ := mem_pieces hclaim hexpanded
    have hpath : (node.span site.path).path = site.path := rfl
    have hcovers := hheld.covers site.path
    simp only [Plan.expand, hpath, hsource, hcovers, Option.bind_eq_bind, Option.bind_some, Option.pure_def] at hown
    cases hown
    refine iff_of_true (fun piece hpiece hclaims offset byte hcovered _ _ => .inl ?_) (.inl hfills)
    rw [List.mem_singleton.mp (hpieces piece hpiece hclaims)] at hcovered
    exact hcovered
  · obtain ⟨own, hown, hback, hpieces⟩ := mem_pieces hclaim hexpanded
    obtain ⟨hpos, hlow, hhigh, hlines⟩ := hgrown.lines halone site.path
    have hpath : (DeleteNode.lines site.content node holder site.path).path = site.path := rfl
    simp only [Plan.expand, hpath, hsource, Option.bind_eq_bind, Option.bind_some, Option.bind_eq_some_iff] at hown
    obtain ⟨range, hrange, hown⟩ := hown
    cases hown
    rw [or_iff_right hfills]
    constructor
    · intro hspares offset byte hbehind hbyte hsolid hline
      have hlt := (List.getElem?_eq_some_iff.mp hbyte).1
      have hcovered := (mem_lines hpos hrange hlt).mpr ⟨by omega, by omega⟩
      rcases hspares _ (hback _ List.mem_cons_self) rfl offset byte hcovered hbyte hsolid with
        hnode | ⟨each, habove, heach⟩ | htrails
      · exact absurd hnode.2 (Nat.not_lt.mpr hbehind)
      · obtain ⟨hbefore, hmem⟩ := habove.last_lt hgrown.placed
        have hon := (hgrown.placed each hmem).lineOf_le_last heach.2
        have hlast := hheld.line_le_last
        omega
      · exact htrails
    · intro hclean piece hpiece hclaims offset byte hcovered hbyte hsolid
      rw [List.mem_singleton.mp (hpieces piece hpiece hclaims)] at hcovered
      have hlt := (List.getElem?_eq_some_iff.mp hbyte).1
      obtain ⟨hfrom, hto⟩ := (mem_lines hpos hrange hlt).mp hcovered
      rcases hlines offset byte hfrom hto hbyte hsolid with hnode | habove | ⟨hbehind, hline⟩
      · exact .inl hnode
      · exact .inr (.inl habove)
      · exact .inr (.inr (hclean offset byte hbehind hbyte hsolid hline))

end Deleting

/-! One deletion -/

/-- Between neighbours of a list stand only blanks. -/
def blankBetween (data : Bytes) : List Node → Bool
  | one :: other :: rest =>
      (slice data one.stop other.start).all (fun byte => !LineEdit.solid byte) && blankBetween data (other :: rest)
  | _ => true

theorem gaps_of_blankBetween {data : Bytes} {holder : List Node} (h : blankBetween data holder = true)
    (before : List Node) (one other : Node) (after : List Node) (hparts : holder = before ++ one :: other :: after)
    (offset : ℕ) (byte : UInt8) (hlow : one.stop ≤ offset) (hhigh : offset < other.start)
    (hbyte : data[offset]? = some byte) : LineEdit.solid byte = false := by
  subst hparts
  induction before with
  | nil =>
      rw [List.nil_append, blankBetween, Bool.and_eq_true] at h
      have hmem : byte ∈ slice data one.stop other.start := by
        refine List.mem_of_getElem? (i := offset - one.stop) ?_
        rw [slice, List.getElem?_drop, Nat.add_sub_cancel' hlow, List.getElem?_take_of_lt hhigh, hbyte]
      simpa using List.all_eq_true.mp h.1 byte hmem
  | cons first before ih =>
      refine ih ?_
      cases before with
      | nil =>
          rw [List.cons_append, List.nil_append, blankBetween, Bool.and_eq_true] at h
          exact h.2
      | cons second before =>
          rw [List.cons_append, List.cons_append, blankBetween, Bool.and_eq_true] at h
          exact h.2

/-- A node of a line of a file. -/
def rowNode (node index : ℕ) (type semantic : String) (start stop line column : ℕ) : Node where
  node := node
  parent := none
  index := index
  type := type
  semantic := semantic
  start := start
  stop := stop
  line := line
  column := column
  endLine := line
  endColumn := column + (stop - start)

/-- A statement on a line of its own. -/
def ownFile : Bytes := utf8 "void f() \x7b\nx;\n\x7d\n".toList

def ownSite : Site where
  path := ["m.c"]
  language := "c"
  content := ownFile
  target := rowNode 8 1 "expression_statement" "EXECUTION_STATEMENT" 11 13 2 0
  siblings := [rowNode 7 0 "\x7b" "PARSER_DELIMITER" 9 10 1 9,
    rowNode 8 1 "expression_statement" "EXECUTION_STATEMENT" 11 13 2 0, rowNode 9 2 "\x7d" "PARSER_DELIMITER" 14 15 3 0]
  ancestors := [rowNode 6 2 "compound_statement" "ORGANIZATION_BLOCK" 9 15 1 9,
    rowNode 1 0 "function_definition" "DEFINITION_FUNCTION" 0 15 1 0,
    rowNode 0 0 "translation_unit" "ORGANIZATION_MODULE" 0 16 1 0]

/-- A statement behind a comment on one's line. -/
def sharedFile : Bytes := utf8 "void f() \x7b\nx; /* c */ y;\n\x7d\n".toList

def sharedSite : Site where
  path := ["m.c"]
  language := "c"
  content := sharedFile
  target := rowNode 8 1 "expression_statement" "EXECUTION_STATEMENT" 11 13 2 0
  siblings := [rowNode 7 0 "\x7b" "PARSER_DELIMITER" 9 10 1 9,
    rowNode 8 1 "expression_statement" "EXECUTION_STATEMENT" 11 13 2 0,
    rowNode 9 2 "comment" "METADATA_COMMENT" 14 21 2 3,
    rowNode 10 3 "expression_statement" "EXECUTION_STATEMENT" 22 24 2 11, rowNode 11 4 "\x7d" "PARSER_DELIMITER" 25 26 3 0]
  ancestors := [rowNode 6 2 "compound_statement" "ORGANIZATION_BLOCK" 9 26 1 9,
    rowNode 1 0 "function_definition" "DEFINITION_FUNCTION" 0 26 1 0,
    rowNode 0 0 "translation_unit" "ORGANIZATION_MODULE" 0 27 1 0]

theorem placed_rowNode {data : Bytes} {node index start stop line column : ℕ} {type semantic : String}
    (h : start ≤ stop ∧ stop ≤ data.length ∧ placeOf data start = (line, (column : ℤ)) ∧
      placeOf data stop = (line, ((column + (stop - start) : ℕ) : ℤ))) :
    Placed data (rowNode node index type semantic start stop line column) where
  order := h.1
  stop := h.2.1
  line := (congrArg Prod.fst h.2.2.1).symm
  column := (congrArg Prod.snd h.2.2.1).symm
  endLine := (congrArg Prod.fst h.2.2.2).symm
  endColumn := (congrArg Prod.snd h.2.2.2).symm

theorem grown_own : Grown ownFile ownSite.target ownSite.siblings where
  mem := List.mem_cons_of_mem _ List.mem_cons_self
  placed := by
    intro each heach
    simp only [ownSite, List.mem_cons, List.not_mem_nil, or_false] at heach
    rcases heach with rfl | rfl | rfl <;> exact placed_rowNode (by decide +kernel)
  order := by decide +kernel
  gaps := gaps_of_blankBetween (by decide +kernel)

theorem grown_shared : Grown sharedFile sharedSite.target sharedSite.siblings where
  mem := List.mem_cons_of_mem _ List.mem_cons_self
  placed := by
    intro each heach
    simp only [sharedSite, List.mem_cons, List.not_mem_nil, or_false] at heach
    rcases heach with rfl | rfl | rfl | rfl | rfl <;> exact placed_rowNode (by decide +kernel)
  order := by decide +kernel
  gaps := gaps_of_blankBetween (by decide +kernel)

def cDialect : Dialect := { language := "c", wrappers := ["linkage_specification"] }

/-- A statement on a line of its own goes alone. -/
theorem spares_own : Spares ownFile ownSite.target ownSite.siblings
    [{ path := ["m.c"], start := 11, stop := 14, text := [] }] := by
  refine (@spares_iff (FileTree.Tree.ofFiles [(["m.c"], ownFile)]) {} ownSite cDialect
    [.delete ⟨["m.c"], 2, 0, some 2, none⟩] _ rfl grown_own (by decide +kernel) (by decide +kernel)
    (by decide +kernel)).mpr (.inr fun offset byte hbehind hbyte hsolid hline => ?_)
  have hlt : offset < 16 := (List.getElem?_eq_some_iff.mp hbyte).1.trans_eq (by decide +kernel)
  have hfrom : 13 ≤ offset := hbehind
  have hfile : ∀ offset : Fin 16, 13 ≤ offset.val →
      (ownFile[offset.val]?).all (fun byte => !LineEdit.solid byte) = true ∨ lineOf ownFile offset.val ≠ 2 := by
    decide +kernel
  rcases hfile ⟨offset, hlt⟩ hfrom with hblank | hother
  · rw [show ownFile[offset]? = some byte from hbyte, Option.all_some, hsolid] at hblank
    cases hblank
  · exact absurd hline hother

/-- A statement behind a comment on a deleted line goes too. -/
theorem spares_fails : ¬ ∀ (project : Project) (plan : Plan) (site : Site) (dialect : Dialect) (edits : List Edit)
    (pieces : List TextEdit), Dialect.find site.language = some dialect →
      Grown site.content (DeleteNode.chosen site dialect).1 (DeleteNode.chosen site dialect).2 →
        DeleteNode.lowered site = .ok edits → Plan.source project plan site.path = some ⟨site.content⟩ →
          Plan.expandAll project plan edits = some pieces →
            Spares site.content (DeleteNode.chosen site dialect).1 (DeleteNode.chosen site dialect).2 pieces := by
  intro hall
  have hspares := hall (FileTree.Tree.ofFiles [(["m.c"], sharedFile)]) {} sharedSite cDialect
    [.delete ⟨["m.c"], 2, 0, some 2, none⟩] [{ path := ["m.c"], start := 11, stop := 25, text := [] }] rfl grown_shared
    (by decide +kernel) (by decide +kernel) (by decide +kernel)
  have hbyte : sharedFile[22]? = some 121 := by decide +kernel
  rcases hspares _ List.mem_cons_self rfl 22 121 ⟨by decide, by decide⟩ hbyte (by decide) with
    hnode | ⟨each, habove, heach⟩ | ⟨each, heach, hcomment, -, -, hholds⟩
  · exact absurd hnode.2 (by decide)
  · obtain ⟨hbefore, hmem⟩ := habove.last_lt grown_shared.placed
    have hon := (grown_shared.placed each hmem).lineOf_le_last heach.2
    have hline : lineOf sharedFile 22 = 2 := by decide +kernel
    change DeleteNode.last each < 2 at hbefore
    omega
  · change each ∈ sharedSite.siblings at heach
    simp only [sharedSite, List.mem_cons, List.not_mem_nil, or_false] at heach
    rcases heach with rfl | rfl | rfl | rfl | rfl
    · exact absurd hcomment (by decide +kernel)
    · exact absurd hcomment (by decide +kernel)
    · exact absurd hholds.2 (by decide)
    · exact absurd hcomment (by decide +kernel)
    · exact absurd hcomment (by decide +kernel)

end Mainboard.Analysis.Nodes
