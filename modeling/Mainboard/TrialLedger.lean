import Mainboard.Runs
import Mainboard.TrialCoverage

/-! The one readable file of a trial store. A run that closes asks first whether its own rows show every lane the
store has recorded, then which run opened last, then for that run's rows, and writes those: four reads of a store
that other runs write meanwhile. Where no partial run that opened after the closing one has rows by then, no lane is
recorded between the comparison and the reading, and no run writes the file while another does, what the file holds
are the rows of one run that showed every lane when they were read. -/

namespace Mainboard.Trials.Ledger

open Runs

/-- A run's name: its opening stamp and an id, so never empty. -/
abbrev Run := { name : String // name ≠ "" }

/-- A row as a coverage question reads it, and its `trial_receipt` line. -/
structure Row where
  receipt : Receipt
  line : List UInt8
  named : receipt.run ≠ ""
  deriving DecidableEq, Repr

def Row.run (row : Row) : Run := ⟨row.receipt.run, row.named⟩

/-- Where a run's close stands at one store: with the lanes it showed, then with every lane those were compared with,
then also with the run it was answered is the newest. -/
inductive Phase where
  | running
  | counted (mine : List String)
  | full (every : List String)
  | named (every : List String) (newest : String)
  | holding (text : List UInt8)
  | writing (text : List UInt8)
  | closed
  deriving DecidableEq, Repr

/-- A store's rows, where each run stands, its readable files and the runs that have `latest.jsonl` open; and each
read a run minted from, the run named beside the rows there were. -/
structure Store where
  rows : List Row := []
  phase : Run → Phase := fun _ => .running
  latest : Option (List UInt8) := none
  partials : List (String × List UInt8) := []
  opened : List Run := []
  mints : List (String × List Row) := []

/-- What can happen at a store: a run commits a row, or goes one step on in its close, or stops for good. -/
inductive Label where
  | record (row : Row)
  | count (run : Run)
  | compare (run : Run)
  | name (run : Run)
  | read (run : Run)
  | open (run : Run)
  | put (run : Run)
  | stop (run : Run)
  deriving DecidableEq, Repr

/-- One run's rows, every row where none is named. -/
def scan (rows : List Row) (run : String) : List Row :=
  if run = "" then rows else rows.filter fun row => row.receipt.run = run

/-- The lanes recorded in a run. -/
def lanes (rows : List Row) (run : String) : List String := (scan rows run).map fun row => row.receipt.lane

def jsonl (rows : List Row) : List UInt8 := rows.flatMap Row.line

/-- The run opened last, none where two opened at the same instant, empty where there is none. -/
def newest (dataset : Dataset) (rows : List Row) : Option String :=
  (runs dataset (rows.map Row.receipt)).map fun names => names.getLast?.getD ""

/-- A text written over a file from its start. -/
def overwrite (text held : List UInt8) : List UInt8 := text ++ held.drop text.length

namespace Store

def turn (s : Store) (run : Run) (phase : Phase) : Store :=
  { s with phase := fun other => if other = run then phase else s.phase other }

/-- One step of a run at the store. -/
def step (dataset : Dataset) (s : Store) : Label → Store
  | .record row => if s.phase row.run = .running then { s with rows := s.rows ++ [row] } else s
  | .count run => if s.phase run = .running then s.turn run (.counted (lanes s.rows run.val)) else s
  | .compare run => match s.phase run with
      | .counted mine =>
          if ∀ lane ∈ lanes s.rows "", lane ∈ mine then s.turn run (.full (lanes s.rows ""))
          else { s.turn run .closed with
            partials := OrderedMap.put s.partials run.val (jsonl (scan s.rows run.val)) }
      | _ => s
  | .name run => match s.phase run with
      | .full every => match newest dataset s.rows with
          | some found => s.turn run (.named every found)
          | none => s.turn run .closed
      | _ => s
  | .read run => match s.phase run with
      | .named _ found =>
          { s.turn run (.holding (jsonl (scan s.rows found))) with mints := s.mints ++ [(found, s.rows)] }
      | _ => s
  | .open run => match s.phase run with
      | .holding text => { s.turn run (.writing text) with latest := some [], opened := s.opened ++ [run] }
      | _ => s
  | .put run => match s.phase run with
      | .writing text =>
          { s.turn run .closed with latest := s.latest.map (overwrite text), opened := s.opened.filter (· ≠ run) }
      | _ => s
  | .stop run => { s.turn run .closed with opened := s.opened.filter (· ≠ run) }

end Store

/-- The run shows every lane recorded in the rows. -/
def Covers (rows : List Row) (run : String) : Prop :=
  ∀ row ∈ rows, ∃ other ∈ rows, other.receipt.run = run ∧ other.receipt.lane = row.receipt.lane

instance (rows : List Row) (run : String) : Decidable (Covers rows run) :=
  inferInstanceAs (Decidable (∀ row ∈ rows, ∃ other ∈ rows, other.receipt.run = run ∧ other.receipt.lane = row.receipt.lane))

/-- The text is of one run's rows that showed every lane when they were read. -/
def Full (s : Store) (text : List UInt8) : Prop :=
  ∃ mint ∈ s.mints, Covers mint.2 mint.1 ∧ text = jsonl (mint.2.filter fun row => row.receipt.run = mint.1)

instance (s : Store) (text : List UInt8) : Decidable (Full s text) :=
  inferInstanceAs (Decidable (∃ mint ∈ s.mints,
    Covers mint.2 mint.1 ∧ text = jsonl (mint.2.filter fun row => row.receipt.run = mint.1)))

/-- `latest.jsonl` holds a full run, wherever no run is writing it. -/
def HoldsFull (s : Store) : Prop := s.opened = [] → ∀ text, s.latest = some text → Full s text

/-- The run has a row of each of the lanes. -/
def Shows (rows : List Row) (every : List String) (run : String) : Prop :=
  ∀ lane ∈ every, ∃ row ∈ rows, row.receipt.run = run ∧ row.receipt.lane = lane

instance (rows : List Row) (every : List String) (run : String) : Decidable (Shows rows every run) :=
  inferInstanceAs (Decidable (∀ lane ∈ every, ∃ row ∈ rows, row.receipt.run = run ∧ row.receipt.lane = lane))

/-- The first run opened after the other, by what the rows say. -/
def After (dataset : Dataset) (rows : List Row) (run other : String) : Prop :=
  opened dataset (rows.map Row.receipt) other < opened dataset (rows.map Row.receipt) run

instance (dataset : Dataset) (rows : List Row) (run other : String) : Decidable (After dataset rows run other) :=
  inferInstanceAs (Decidable (opened dataset (rows.map Row.receipt) other < opened dataset (rows.map Row.receipt) run))

/-- Of a full run that asks for the newest one: each run with rows that opened after it shows the lanes it was
compared with. -/
def Outlasts (dataset : Dataset) (rows : List Row) (run : Run) : Phase → Prop
  | .full every => ∀ row ∈ rows, After dataset rows row.receipt.run run.val → Shows rows every row.receipt.run
  | _ => True

/-- Of a run that reads the rows to mint: no lane was recorded since its comparison. -/
def Settled (rows : List Row) : Phase → Prop
  | .named every _ => ∀ row ∈ rows, row.receipt.lane ∈ every
  | _ => True

instance (dataset : Dataset) (rows : List Row) (run : Run) : (phase : Phase) → Decidable (Outlasts dataset rows run phase)
  | .full every => inferInstanceAs (Decidable (∀ row ∈ rows,
      After dataset rows row.receipt.run run.val → Shows rows every row.receipt.run))
  | .running | .counted _ | .named _ _ | .holding _ | .writing _ | .closed => .isTrue trivial

instance (rows : List Row) : (phase : Phase) → Decidable (Settled rows phase)
  | .named every _ => inferInstanceAs (Decidable (∀ row ∈ rows, row.receipt.lane ∈ every))
  | .running | .counted _ | .full _ | .holding _ | .writing _ | .closed => .isTrue trivial

/-- No partial run that opened after the closing one has rows when it asks for the newest, no lane is new when it reads
the rows to mint, no run opens the file while another writes it, and none stops while it writes. -/
def Meets (dataset : Dataset) (s : Store) : Label → Prop
  | .name run => Outlasts dataset s.rows run (s.phase run)
  | .read run => Settled s.rows (s.phase run)
  | .open _ => s.opened = []
  | .stop run => run ∉ s.opened
  | _ => True

instance decidableMeets (dataset : Dataset) (s : Store) : (label : Label) → Decidable (Meets dataset s label)
  | .name run => inferInstanceAs (Decidable (Outlasts dataset s.rows run (s.phase run)))
  | .read run => inferInstanceAs (Decidable (Settled s.rows (s.phase run)))
  | .open _ => inferInstanceAs (Decidable (s.opened = []))
  | .stop run => inferInstanceAs (Decidable (run ∉ s.opened))
  | .record _ | .count _ | .compare _ | .put _ => .isTrue trivial

/-- What a closing run goes by is shown by the rows: its own lanes, those it was compared with, and these by the run
it was named. -/
def Backed (rows : List Row) (run : Run) : Phase → Prop
  | .counted mine => Shows rows mine run.val
  | .full every => Shows rows every run.val
  | .named every found => Shows rows every found
  | _ => True

/-- What holds at a store whose steps meet the condition: what each closing run goes by is shown, every text held is of
a full run, and a run writing the file is the only one and found it empty. -/
structure Sound (s : Store) : Prop where
  backed : ∀ run, Backed s.rows run (s.phase run)
  held : ∀ run text, s.phase run = .holding text ∨ s.phase run = .writing text → Full s text
  opened : ∀ run, run ∈ s.opened ↔ ∃ text, s.phase run = .writing text
  alone : s.opened = [] ∨ ∃ run, s.opened = [run] ∧ s.latest = some []
  latest : HoldsFull s

section Naming

variable {dataset : Dataset} {rows later : List Row} {every : List String} {run : String}

theorem mem_lanes (hrun : run ≠ "") {lane : String} :
    lane ∈ lanes rows run ↔ ∃ row ∈ rows, row.receipt.run = run ∧ row.receipt.lane = lane := by
  unfold lanes scan
  rw [if_neg hrun, List.mem_map]
  constructor
  · rintro ⟨row, hrow, hlane⟩
    obtain ⟨hrow, hown⟩ := List.mem_filter.mp hrow
    exact ⟨row, hrow, of_decide_eq_true hown, hlane⟩
  · rintro ⟨row, hrow, hown, hlane⟩
    exact ⟨row, List.mem_filter.mpr ⟨hrow, decide_eq_true hown⟩, hlane⟩

theorem Shows.append (h : Shows rows every run) (later : List Row) : Shows (rows ++ later) every run :=
  fun lane hlane => (h lane hlane).imp fun _ hrow => ⟨List.mem_append_left _ hrow.1, hrow.2⟩

theorem Backed.append {run : Run} {phase : Phase} (h : Backed rows run phase) (later : List Row) :
    Backed (rows ++ later) run phase := by
  cases phase with
  | counted | full | named => exact Shows.append h later
  | running | holding | writing | closed => trivial

/-- The newest run has rows, and none with rows opened after it. -/
theorem newest_last {found : String} (h : newest dataset rows = some found) {row : Row} (hrow : row ∈ rows) :
    (∃ mine ∈ rows, mine.receipt.run = found) ∧ (row.receipt.run = found ∨ After dataset rows found row.receipt.run) := by
  unfold newest runs at h
  dsimp only at h
  split at h
  swap
  · cases h
  rename_i hapart
  rw [Option.map_some, Option.some.injEq] at h
  set names := ((rows.map Row.receipt).map Receipt.run).dedup with hnames
  set before := fun one other : String =>
    Trials.opened dataset (rows.map Row.receipt) one ≤ Trials.opened dataset (rows.map Row.receipt) other
  have hin : ∀ name, name ∈ names ↔ ∃ mine ∈ rows, mine.receipt.run = name := by
    intro name
    rw [hnames, List.mem_dedup, List.map_map, List.mem_map]
    rfl
  have hown : row.receipt.run ∈ names := (hin _).mpr ⟨row, hrow, rfl⟩
  have hsorted : (names.insertionSort before).Pairwise before := List.pairwise_insertionSort _ _
  have hsome : names.insertionSort before ≠ [] := List.ne_nil_of_mem ((List.mem_insertionSort _).mpr hown)
  rw [List.getLast?_eq_some_getLast hsome, Option.getD_some] at h
  have hlast : found ∈ names := (List.mem_insertionSort _).mp (h ▸ List.getLast_mem hsome)
  refine ⟨(hin found).mp hlast, ?_⟩
  have hle : before row.receipt.run found := by
    have hsplit := List.dropLast_append_getLast hsome
    rw [h] at hsplit
    have hmem : row.receipt.run ∈ (names.insertionSort before).dropLast ++ [found] :=
      hsplit.symm ▸ (List.mem_insertionSort _).mpr hown
    rw [← hsplit] at hsorted
    rcases List.mem_append.mp hmem with hearly | hsame
    · exact (List.pairwise_append.mp hsorted).2.2 _ hearly _ (List.mem_singleton_self _)
    · rw [List.mem_singleton.mp hsame]
  rcases lt_or_eq_of_le hle with hlt | heq
  · exact Or.inr hlt
  · exact Or.inl (List.inj_on_of_nodup_map hapart hown hlast heq)

/-- A run that shows the lanes asks for the newest: that one shows them too, where all that opened later do. -/
theorem shows_newest (h : Shows rows every run) {found : String} (hfound : newest dataset rows = some found)
    (hlater : ∀ row ∈ rows, After dataset rows row.receipt.run run → Shows rows every row.receipt.run) :
    Shows rows every found := by
  intro lane hlane
  obtain ⟨row, hrow, hown, -⟩ := h lane hlane
  obtain ⟨⟨mine, hmine, hrun⟩, hlast⟩ := newest_last hfound hrow
  rw [hown] at hlast
  rcases hlast with hsame | hafter
  · exact hsame ▸ h lane hlane
  · rw [← hrun] at hafter ⊢
    exact hlater mine hmine hafter lane hlane

/-- Where no lane is new, the run that shows them shows every one; rows of no name there are none. -/
theorem covers_of_shows (h : Shows rows every run) (hknown : ∀ row ∈ rows, row.receipt.lane ∈ every) :
    Covers rows run ∧ (run = "" → rows = []) := by
  refine ⟨fun row hrow => h _ (hknown row hrow), fun hempty => List.eq_nil_iff_forall_not_mem.mpr fun row hrow => ?_⟩
  obtain ⟨other, -, hown, -⟩ := h _ (hknown row hrow)
  exact other.named (hown.trans hempty)

end Naming

section Steps

variable {dataset : Dataset} {s : Store} {run : Run} {phase : Phase}

theorem turn_phase (other : Run) : (s.turn run phase).phase other = if other = run then phase else s.phase other := rfl

theorem Sound.backed_turn (h : Sound s) (hbacked : Backed s.rows run phase) (other : Run) :
    Backed s.rows other ((s.turn run phase).phase other) := by
  rw [turn_phase]
  split
  · rename_i hsame
    exact hsame ▸ hbacked
  · exact h.backed other

/-- A run that does not write the file turns to a phase that holds nothing. -/
theorem Sound.turn (h : Sound s) (hnot : ∀ text, s.phase run ≠ .writing text)
    (hphase : ∀ text, phase ≠ .holding text ∧ phase ≠ .writing text) (hbacked : Backed s.rows run phase) :
    Sound (s.turn run phase) := by
  refine ⟨h.backed_turn hbacked, fun other text hother => ?_, fun other => ?_, h.alone, h.latest⟩
  · rw [turn_phase] at hother
    split at hother
    · exact (hother.elim (hphase text).1 (hphase text).2).elim
    · exact h.held other text hother
  · rw [turn_phase]
    change other ∈ s.opened ↔ _
    rw [h.opened]
    split
    · rename_i hsame
      refine ⟨fun ⟨text, htext⟩ => (hnot text (hsame ▸ htext)).elim, fun ⟨text, htext⟩ => ((hphase text).2 htext).elim⟩
    · rfl

theorem Sound.read (h : Sound s) {every : List String} {found : String} (hphase : s.phase run = .named every found)
    (hmeets : Covers s.rows found ∧ (found = "" → s.rows = [])) :
    Sound { s.turn run (.holding (jsonl (scan s.rows found))) with mints := s.mints ++ [(found, s.rows)] } := by
  have hmono : ∀ text, Full s text →
      Full { s.turn run (.holding (jsonl (scan s.rows found))) with mints := s.mints ++ [(found, s.rows)] } text :=
    fun text ⟨mint, hmint, hfull⟩ => ⟨mint, List.mem_append_left _ hmint, hfull⟩
  have hscan : scan s.rows found = s.rows.filter fun row => row.receipt.run = found := by
    unfold scan
    split
    · rename_i hempty
      rw [hmeets.2 hempty, List.filter_nil]
    · rfl
  refine ⟨h.backed_turn trivial, fun other text hother => ?_, fun other => ?_, h.alone,
    fun hopened text htext => hmono text (h.latest hopened text htext)⟩
  · change (s.turn run _).phase other = _ ∨ (s.turn run _).phase other = _ at hother
    rw [turn_phase] at hother
    split at hother
    · rcases hother with hother | hother
      · cases hother
        exact ⟨(found, s.rows), List.mem_append_right _ List.mem_cons_self, hmeets.1, congrArg jsonl hscan⟩
      · cases hother
    · exact hmono text (h.held other text hother)
  · change other ∈ s.opened ↔ ∃ text, (s.turn run _).phase other = _
    rw [turn_phase, h.opened]
    split
    · rename_i hsame
      rw [hsame, hphase]
      exact ⟨fun ⟨text, htext⟩ => (by cases htext), fun ⟨text, htext⟩ => (by cases htext)⟩
    · rfl

theorem Sound.open (h : Sound s) {text : List UInt8} (hphase : s.phase run = .holding text) (hopened : s.opened = []) :
    Sound { s.turn run (.writing text) with latest := some [], opened := s.opened ++ [run] } := by
  have hfull : Full s text := h.held run text (Or.inl hphase)
  rw [hopened, List.nil_append]
  refine ⟨h.backed_turn trivial, fun other bytes hother => ?_, fun other => ?_, Or.inr ⟨run, rfl, rfl⟩,
    fun hnil => by cases hnil⟩
  · change (s.turn run _).phase other = _ ∨ (s.turn run _).phase other = _ at hother
    rw [turn_phase] at hother
    split at hother
    · rcases hother with hother | hother
      · cases hother
      · cases hother
        exact hfull
    · exact h.held other bytes hother
  · change other ∈ [run] ↔ ∃ text, (s.turn run _).phase other = _
    rw [turn_phase, List.mem_singleton]
    split
    · rename_i hsame
      exact ⟨fun _ => ⟨text, rfl⟩, fun _ => hsame⟩
    · rename_i hother
      have hnone := h.opened other
      rw [hopened] at hnone
      exact ⟨fun hsame => absurd hsame hother, fun hwriting => (List.not_mem_nil (hnone.mpr hwriting)).elim⟩

theorem Sound.put (h : Sound s) {text : List UInt8} (hphase : s.phase run = .writing text) :
    Sound { s.turn run .closed with latest := s.latest.map (overwrite text), opened := s.opened.filter (· ≠ run) } := by
  have hmem : run ∈ s.opened := (h.opened run).mpr ⟨text, hphase⟩
  obtain ⟨held, hheld, hlatest⟩ := h.alone.resolve_left fun hnil => List.not_mem_nil (hnil ▸ hmem)
  obtain rfl : run = held := List.mem_singleton.mp (hheld ▸ hmem)
  have hfull : Full s text := h.held run text (Or.inr hphase)
  have hnil : s.opened.filter (· ≠ run) = [] := by rw [hheld]; simp
  rw [hnil, hlatest]
  refine ⟨h.backed_turn trivial, fun other bytes hother => ?_, fun other => ?_, Or.inl rfl, fun _ bytes hbytes => ?_⟩
  · change (s.turn run _).phase other = _ ∨ (s.turn run _).phase other = _ at hother
    rw [turn_phase] at hother
    split at hother
    · exact hother.elim (fun h => by cases h) fun h => by cases h
    · exact h.held other bytes hother
  · change other ∈ [] ↔ ∃ text, (s.turn run _).phase other = _
    rw [turn_phase]
    refine ⟨fun hother => (List.not_mem_nil hother).elim, fun ⟨bytes, hbytes⟩ => ?_⟩
    split at hbytes
    · cases hbytes
    · rename_i hother
      have hopen := (h.opened other).mpr ⟨bytes, hbytes⟩
      rw [hheld] at hopen
      exact (hother (List.mem_singleton.mp hopen)).elim
  · cases hbytes
    rw [overwrite, List.drop_nil, List.append_nil]
    exact hfull

theorem Sound.stop (h : Sound s) (hnot : run ∉ s.opened) :
    Sound { s.turn run .closed with opened := s.opened.filter (· ≠ run) } := by
  have hsame : s.opened.filter (· ≠ run) = s.opened :=
    List.filter_eq_self.mpr fun other hother => decide_eq_true fun heq => hnot (heq ▸ hother)
  rw [hsame]
  exact h.turn (fun text htext => hnot ((h.opened run).mpr ⟨text, htext⟩)) (fun text => ⟨by simp, by simp⟩) trivial

/-- A step that meets the condition keeps what holds. -/
theorem sound_step (label : Label) (h : Sound s) (hmeets : Meets dataset s label) : Sound (s.step dataset label) := by
  cases label with
  | record row =>
      dsimp only [Store.step]
      split
      · exact ⟨fun run => (h.backed run).append [row], h.held, h.opened, h.alone, h.latest⟩
      · exact h
  | count run =>
      dsimp only [Store.step]
      split
      · rename_i hphase
        exact h.turn (fun text => by rw [hphase]; simp) (fun text => ⟨by simp, by simp⟩)
          fun lane hlane => (mem_lanes run.property).mp hlane
      · exact h
  | compare run =>
      dsimp only [Store.step]
      split
      · rename_i mine hphase
        have hmine : Shows s.rows mine run.val := by
          have hbacked := h.backed run
          rwa [hphase] at hbacked
        have hturn : ∀ phase : Phase, (∀ text, phase ≠ .holding text ∧ phase ≠ .writing text) →
            Backed s.rows run phase → Sound (s.turn run phase) :=
          fun phase => h.turn fun text => by rw [hphase]; simp
        split
        · rename_i hall
          exact hturn _ (fun text => ⟨by simp, by simp⟩) fun lane hlane => hmine lane (hall lane hlane)
        · have hclosed := hturn .closed (fun text => ⟨by simp, by simp⟩) trivial
          exact ⟨hclosed.backed, hclosed.held, hclosed.opened, hclosed.alone, hclosed.latest⟩
      · exact h
  | name run =>
      dsimp only [Store.step]
      split
      · rename_i every hphase
        have hturn : ∀ phase : Phase, (∀ text, phase ≠ .holding text ∧ phase ≠ .writing text) →
            Backed s.rows run phase → Sound (s.turn run phase) :=
          fun phase => h.turn fun text => by rw [hphase]; simp
        split
        · rename_i found hfound
          have hevery : Shows s.rows every run.val := by
            have hbacked := h.backed run
            rwa [hphase] at hbacked
          dsimp only [Meets] at hmeets
          rw [hphase] at hmeets
          exact hturn _ (fun text => ⟨by simp, by simp⟩) (shows_newest hevery hfound hmeets)
        · exact hturn _ (fun text => ⟨by simp, by simp⟩) trivial
      · exact h
  | read run =>
      dsimp only [Store.step]
      split
      · rename_i every found hphase
        have hshows : Shows s.rows every found := by
          have hbacked := h.backed run
          rwa [hphase] at hbacked
        dsimp only [Meets] at hmeets
        rw [hphase] at hmeets
        exact h.read hphase (covers_of_shows hshows hmeets)
      · exact h
  | «open» run =>
      dsimp only [Store.step]
      split
      · rename_i text hphase
        exact h.open hphase hmeets
      · exact h
  | put run =>
      dsimp only [Store.step]
      split
      · rename_i text hphase
        exact h.put hphase
      · exact h
  | stop run => exact h.stop hmeets

end Steps

/-- Over every order of commits and closes that meet the condition, `latest.jsonl` holds a full run. -/
theorem ledger_full (dataset : Dataset) {labels : List Label}
    (hmeets : Each (Store.step dataset) (Meets dataset) {} labels) : Always (Store.step dataset) HoldsFull {} labels := by
  have hinit : Sound {} := ⟨fun _ => trivial, fun run text h => (by rcases h with h | h <;> cases h),
    fun run => ⟨fun h => (by cases h), fun ⟨text, h⟩ => (by cases h)⟩, Or.inl rfl, fun _ text h => (by cases h)⟩
  have hsound := invariant_always (fun s label h hlabel => sound_step label h hlabel) hinit hmeets
  exact always_mono (fun s h => h.latest) hsound

/-- Two runs by their names. -/
def first : Run := ⟨"first", by decide⟩

def second : Run := ⟨"second", by decide⟩

/-- A row of one run and lane, told by the run's opening. -/
def laneRow (run : Run) (lane : String) (opened : ℤ) (line : UInt8) : Row :=
  ⟨{ run := run.val, lane, key := "", outcome := "passed", opened := some opened }, [line], run.property⟩

/-- A run's close, each step after the other. -/
def closing (run : Run) : List Label := [.count run, .compare run, .name run, .read run, .open run, .put run]

/-- A full run closes beside another that opened later and shows both lanes, then a partial one. -/
def fullLast : List Label :=
  ([.record (laneRow first "a" 1 1), .record (laneRow first "b" 1 2), .record (laneRow second "b" 2 3),
    .record (laneRow second "a" 2 4)] : List Label) ++ closing first ++
    ([.record (laneRow ⟨"zeroth", by decide⟩ "a" 0 5)] : List Label) ++ closing ⟨"zeroth", by decide⟩

theorem ledger_full_fullLast : Always (Store.step { stamped := fun _ => none }) HoldsFull {} fullLast :=
  ledger_full { stamped := fun _ => none } (by decide +kernel)

/-- A full run closes while a partial one that opened after it has written a row. -/
def partialLast : List Label :=
  ([.record (laneRow first "a" 1 1), .record (laneRow first "b" 1 2), .record (laneRow second "a" 2 3)] : List Label) ++
    closing first

/-- The file then holds the partial run's row. -/
theorem ledger_full_fails :
    ¬ ∀ labels : List Label, Always (Store.step { stamped := fun _ => none }) HoldsFull {} labels := by
  intro h
  have hfull := h partialLast partialLast (List.prefix_refl _) rfl [3] (by decide +kernel)
  revert hfull
  decide +kernel

end Mainboard.Trials.Ledger
