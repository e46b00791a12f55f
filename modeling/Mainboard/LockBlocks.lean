import Mainboard.PixiLock

/-! A lock in pixi's block style, with its lines and its parse, and what the canonical text is over it: every
label replaced, every run of labelled blocks sorted, and all else as it was. The rewrite of the lines at the
positions of the parse is followed piece by piece: the lines copied, and the run of blocks after them. -/

namespace Mainboard.Pixi

/-- A labelled block: the line its label is spelled on, cut around the label, and the lines under it. -/
structure Block where
  lead : Line
  label : Line
  trail : Line
  rest : List Line
  deriving DecidableEq

namespace Block

/-- The block's lines. -/
def lines (block : Block) : List Line := (block.lead ++ block.label ++ block.trail) :: block.rest

/-- The scalar spelling the label of a block that begins at a line. -/
def scalar (block : Block) (line : ℕ) : Scalar :=
  ⟨block.label, line, block.lead.length, block.lead.length + block.label.length⟩

/-- The block under another label. -/
def named (block : Block) (name : Line) : Block := { block with label := name }

/-- Replacing the label's spelling is naming the block. -/
theorem respelled_lines (block : Block) (line : ℕ) (name : Line) :
    respelled (block.scalar line) name block.lines = (block.named name).lines := by
  have htake : (block.lead ++ block.label ++ block.trail).take block.lead.length = block.lead := by
    rw [List.append_assoc, List.take_left]
  have hdrop : (block.lead ++ block.label ++ block.trail).drop (block.lead.length + block.label.length) =
      block.trail := by
    rw [← List.length_append, List.drop_left]
  dsimp only [lines, respelled, scalar, named]
  rw [htake, hdrop]

end Block

/-- The lines of a run of blocks. -/
def textOf (blocks : List Block) : List Line := blocks.flatMap Block.lines

/-- The scalars spelling the labels of a run of blocks that begins at a line. -/
def scalars (first : ℕ) : List Block → List Scalar
  | [] => []
  | block :: blocks => block.scalar first :: scalars (first + block.lines.length) blocks

/-- The run of the blocks that begin at a line. -/
def runAt (first : ℕ) (blocks : List Block) : Run := ⟨scalars first blocks, first + (textOf blocks).length⟩

/-- The name a label is replaced by. -/
def renamed (names : List (Line × Line)) (label : Line) : Line := (OrderedMap.get names label).getD label

/-- The blocks of a run, renamed and in the order of their new names. -/
def settledBlocks (names : List (Line × Line)) (blocks : List Block) : List Block :=
  StableSort.sortOn (·.label) (blocks.map fun block => block.named (renamed names block.label))

theorem bounds_scalars (first : ℕ) (blocks : List Block) :
    (scalars first blocks).map (·.line) ++ [first + (textOf blocks).length] =
      BlockLines.bounds first (blocks.map Block.lines) := by
  induction blocks generalizing first with
  | nil => rfl
  | cons block blocks ih =>
      rw [scalars, List.map_cons, List.map_cons, BlockLines.bounds, ← ih, List.cons_append]
      rw [textOf, List.flatMap_cons, List.length_append, ← Nat.add_assoc]
      rfl

/-- A run's scalars cut its blocks out of the text. -/
theorem blocks_runAt (before after : List Line) (bs : List Block) :
    blocks (runAt before.length bs) (before ++ textOf bs ++ after) = bs.map Block.lines := by
  rw [blocks, runAt, bounds_scalars, textOf, List.flatMap_def]
  exact BlockLines.between_bounds _ _ _

theorem zip_scalars (first : ℕ) (blocks : List Block) {β : Type} (f : Scalar → List Line → β) (g : Block → β)
    (h : ∀ block line, f (Block.scalar block line) block.lines = g block) :
    ((scalars first blocks).zip (blocks.map Block.lines)).map (fun entry => f entry.1 entry.2) = blocks.map g := by
  induction blocks generalizing first with
  | nil => rfl
  | cons block blocks ih =>
      rw [scalars, List.map_cons, List.zip_cons_cons, List.map_cons, List.map_cons, ih, h]

/-- The rewrite of a run is the run's settled blocks. -/
theorem ordered_runAt (before after : List Line) (bs : List Block) (names : List (Line × Line)) :
    ordered (runAt before.length bs) (before ++ textOf bs ++ after) names = textOf (settledBlocks names bs) := by
  dsimp only [ordered]
  rw [blocks_runAt]
  have hnamed := zip_scalars before.length bs
    (fun label lines => (renamed names label.value, respelled label (renamed names label.value) lines))
    (fun block => (renamed names block.label, (block.named (renamed names block.label)).lines))
    (fun block line => Prod.ext rfl (Block.respelled_lines block line _))
  have hsorted := StableSort.map_sortOn (fun block : Block => block.label)
    (fun block : Block => (block.label, block.lines)) (fun entry : Line × List Line => entry.1)
    (bs.map fun block => block.named (renamed names block.label)) (fun _ _ => rfl)
  rw [List.map_map] at hsorted
  refine (congrArg (fun named => (StableSort.sortOn (·.1) named).flatMap (·.2)) hnamed).trans ?_
  refine (congrArg (List.flatMap (·.2)) hsorted.symm).trans ?_
  rw [List.flatMap_map]
  rfl

/-- Lines that are copied, and the run of blocks after them. -/
structure Piece where
  copied : List Line
  blocks : List Block
  deriving DecidableEq

namespace Piece

/-- The piece's lines. -/
def lines (piece : Piece) : List Line := piece.copied ++ textOf piece.blocks

/-- The piece with its blocks settled. -/
def settled (names : List (Line × Line)) (piece : Piece) : Piece :=
  { piece with blocks := settledBlocks names piece.blocks }

end Piece

/-- The runs of the pieces from a line on; a piece without blocks has none. -/
def runsFrom (first : ℕ) : List Piece → List Run
  | [] => []
  | piece :: pieces =>
      (if piece.blocks = [] then [] else [runAt (first + piece.copied.length) piece.blocks]) ++
        runsFrom (first + piece.lines.length) pieces

theorem le_stop_of_mem_runsFrom {first : ℕ} {pieces : List Piece} {run : Run} (h : run ∈ runsFrom first pieces) :
    first ≤ run.stop := by
  induction pieces generalizing first with
  | nil => cases h
  | cons piece pieces ih =>
      rcases List.mem_append.mp h with hown | hlater
      · split at hown
        · cases hown
        · obtain rfl := List.mem_singleton.mp hown
          dsimp only [runAt]
          omega
      · exact (Nat.le_add_right _ _).trans (ih hlater)

theorem rising_runsFrom (first : ℕ) (pieces : List Piece) : StableSort.Rising Run.stop (runsFrom first pieces) := by
  induction pieces generalizing first with
  | nil => exact List.Pairwise.nil
  | cons piece pieces ih =>
      refine List.pairwise_append.mpr ⟨?_, ih _, fun run hrun later hlater => ?_⟩
      · split
        · exact List.Pairwise.nil
        · exact List.pairwise_singleton _ _
      · split at hrun
        · cases hrun
        · obtain rfl := List.mem_singleton.mp hrun
          have hstop := le_stop_of_mem_runsFrom hlater
          rw [Piece.lines, List.length_append, ← Nat.add_assoc] at hstop
          exact hstop

theorem settledBlocks_nil (names : List (Line × Line)) : settledBlocks names [] = [] := rfl

/-- The rewrite of one run behind lines already passed: they are copied, and the run is settled. -/
theorem rewrite_runAt (names : List (Line × Line)) (passed pending after out : List Line) {bs : List Block}
    (hbs : bs ≠ []) :
    rewrite (passed ++ pending ++ textOf bs ++ after) names (out, passed.length)
        (runAt (passed.length + pending.length) bs) =
      (out ++ pending ++ textOf (settledBlocks names bs), (passed ++ pending ++ textOf bs).length) := by
  cases bs with
  | nil => exact absurd rfl hbs
  | cons block bs =>
      have hordered := ordered_runAt (passed ++ pending) after (block :: bs) names
      rw [List.length_append] at hordered
      refine Prod.ext ?_ ?_
      · refine congrArg₂ (· ++ ·) (congrArg (out ++ ·) ?_) hordered
        dsimp only [Block.scalar]
        rw [List.append_assoc, List.append_assoc, List.drop_left, Nat.add_sub_cancel_left, List.take_left]
      · rw [List.length_append, List.length_append]
        rfl

/-- The rewrite of all pieces behind lines already passed. -/
theorem rewrite_pieces (names : List (Line × Line)) (after : List Line) (pieces : List Piece)
    (passed pending out : List Line) (done : List Line × ℕ)
    (hdone : done = (runsFrom (passed.length + pending.length) pieces).foldl
      (rewrite (passed ++ pending ++ pieces.flatMap Piece.lines ++ after) names) (out, passed.length)) :
    done.1 ++ (passed ++ pending ++ pieces.flatMap Piece.lines ++ after).drop done.2 =
      out ++ pending ++ (pieces.map (Piece.settled names)).flatMap Piece.lines ++ after := by
  induction pieces generalizing passed pending out with
  | nil =>
      rw [runsFrom, List.foldl_nil] at hdone
      rw [hdone, List.flatMap_nil, List.map_nil, List.flatMap_nil, List.append_nil, List.append_nil, List.append_assoc,
        List.drop_left, List.append_assoc]
  | cons piece pieces ih =>
      rw [runsFrom, List.flatMap_cons] at hdone
      rw [List.flatMap_cons, List.map_cons, List.flatMap_cons]
      by_cases hblocks : piece.blocks = []
      · -- the piece's lines wait for the next run
        have hlines : piece.lines = piece.copied := by
          rw [Piece.lines, hblocks, textOf, List.flatMap_nil, List.append_nil]
        have hsettled : (piece.settled names).lines = piece.copied := by
          rw [Piece.settled, Piece.lines, hblocks, settledBlocks_nil, textOf, List.flatMap_nil, List.append_nil]
        rw [if_pos hblocks, List.nil_append, hlines, Nat.add_assoc, ← List.length_append] at hdone
        have hrest := ih passed (pending ++ piece.copied) out (by simpa only [List.append_assoc] using hdone)
        rw [hlines, hsettled]
        simpa only [List.append_assoc] using hrest
      · have hstep := rewrite_runAt names passed (pending ++ piece.copied) (pieces.flatMap Piece.lines ++ after) out hblocks
        rw [List.length_append, ← Nat.add_assoc] at hstep
        rw [if_neg hblocks, List.singleton_append, List.foldl_cons] at hdone
        have htext : passed ++ pending ++ (piece.lines ++ pieces.flatMap Piece.lines) ++ after =
            passed ++ (pending ++ piece.copied) ++ textOf piece.blocks ++ (pieces.flatMap Piece.lines ++ after) := by
          simp only [Piece.lines, List.append_assoc]
        rw [htext, hstep] at hdone
        have hrest := ih (passed ++ (pending ++ piece.copied) ++ textOf piece.blocks) []
          (out ++ (pending ++ piece.copied) ++ textOf (settledBlocks names piece.blocks)) (by
            rw [hdone]
            simp only [Piece.lines, List.append_assoc, List.length_append, List.append_nil, List.length_nil,
              Nat.add_zero, Nat.add_assoc])
        rw [htext]
        simp only [List.append_nil, List.append_assoc, Piece.settled, Piece.lines] at hrest ⊢
        exact hrest

end Mainboard.Pixi
