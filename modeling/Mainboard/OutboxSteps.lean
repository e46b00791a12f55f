import Mathlib.Data.List.Basic
import Mainboard.OutboxSafety

/-! The steps of appends and of the pass, one by one, and what each keeps: an append opens, locks, cuts and writes
the file its handle is on, the pass moves a file off its path. A calm step creates no line for a receipted key, cuts
no refused file short, unlinks no copy of a keep that waits, and sets aside no line that is not written yet. -/

namespace Mainboard.Memory
open LineText

section Custody

variable {κ ι : Type} {wire : Wire κ ι}

section Calm

variable [DecidableEq κ]

/-- The step of an append creates no line for a receipted key, cuts no refused file short while nothing else holds
its keep, unlinks no copy beside a complete line, and completes no file's line without its copy; the step of the pass
sets aside a line with a complete line, or a receipted key's. -/
def calm (wire : Wire κ ι) (s : Outbox κ ι) : Label κ ι → Bool
  | .advance id same _ amount => (s.appends id).all fun append =>
      let slot := s.slots (wire.key append.keep)
      match append.stage with
      | .checked => slot.line.isSome || !slot.receipt
      | .cutting file length =>
          decide (slot.refused ≠ some file) || decide (ended '\n' (slot.files file) ≤ length) || slot.receipt ||
            slot.line.any fun path => decide (ended '\n' (slot.files path) ≠ 0)
      | .copied _ => same || slot.receipt || slot.line.all fun path => decide (ended '\n' (slot.files path) = 0)
      | .writing file pending =>
          decide (slot.line ≠ some file) || decide (pending.drop amount ≠ []) || !wire.file append.keep ||
            slot.receipt || slot.blob
      | _ => true
  | .deal key _ _ => s.pass.all fun tasks =>
      let slot := s.slots key
      match tasks key with
      | .aside => slot.receipt || slot.line.all fun file => decide (ended '\n' (slot.files file) ≠ 0)
      | _ => true
  | _ => true

end Calm

variable {key : κ} {slot later : Slot} {id file : ℕ} {text : List Char}

theorem Slot.Keeps.refl (id : ℕ) (hslot : slot.Sound wire key) : slot.Keeps wire key id slot :=
  ⟨rfl, rfl, rfl, rfl, fun _ _ _ hlock => ⟨hlock, rfl⟩, fun _ _ _ => rfl, hslot.shape,
    fun haside => Or.inr (Or.inr haside), hslot.copied⟩

theorem Slot.Keeps.trans {last : Slot} (h : slot.Keeps wire key id later) (hlast : later.Keeps wire key id last)
    (hslot : slot.Sound wire key) : slot.Keeps wire key id last := by
  refine ⟨hlast.line.trans h.line, hlast.refused.trans h.refused, hlast.receipt.trans h.receipt,
    hlast.next.trans h.next, fun other file hne hlock => ?_, fun file hline hfull => ?_, fun file hline => ?_,
    fun haside => ?_, hlast.copied⟩
  · obtain ⟨hlock', hfile⟩ := h.others other file hne hlock
    obtain ⟨hlock'', hfile'⟩ := hlast.others other file hne hlock'
    exact ⟨hlock'', hfile'.trans hfile⟩
  · have hsame := h.full file hline hfull
    exact (hlast.full file (h.line.trans hline) (hsame.symm ▸ hfull)).trans hsame
  · exact hlast.shape file (h.line.trans hline)
  · exact (hlast.follows (h.sound hslot)).safe (h.aside haside)

/-- A step that touches the copy beside the line alone, and takes it from no whole line. -/
theorem keeps_blob (id : ℕ) (hslot : slot.Sound wire key) {blob : Bool}
    (hcopied : Slot.Copied wire { slot with blob }) : slot.Keeps wire key id { slot with blob } :=
  ⟨rfl, rfl, rfl, rfl, fun _ _ _ hlock => ⟨hlock, rfl⟩, fun _ _ _ => rfl, hslot.shape,
    fun haside => Or.inr (Or.inr haside), hcopied⟩

/-- An append takes a lock nobody holds. -/
theorem keeps_lock (hslot : slot.Sound wire key) (hfree : slot.locks file = none) :
    slot.Keeps wire key id { slot with locks := Function.update slot.locks file (some id) } := by
  refine ⟨rfl, rfl, rfl, rfl, fun other file' _ hlock => ⟨?_, rfl⟩, fun _ _ _ => rfl, hslot.shape,
    fun haside => Or.inr (Or.inr haside), hslot.copied⟩
  have hne : file' ≠ file := by
    rintro rfl
    rw [hfree] at hlock
    cases hlock
  exact (Function.update_of_ne hne ..).trans hlock

/-- An append releases the lock it holds. -/
theorem keeps_unlocked {append : Append ι} (hslot : slot.Sound wire key)
    (hlocks : ∀ file, append.stage.lock = some file → slot.locks file = some id) :
    slot.Keeps wire key id (slot.unlocked append.stage) := by
  unfold Slot.unlocked
  cases hlock : append.stage.lock with
  | none => exact .refl id hslot
  | some file =>
      refine ⟨rfl, rfl, rfl, rfl, fun other file' hother hlock' => ⟨?_, rfl⟩, fun _ _ _ => rfl, hslot.shape,
        fun haside => Or.inr (Or.inr haside), hslot.copied⟩
      have hne : file' ≠ file := by
        rintro rfl
        exact hother (Option.some.inj (hlock'.symm.trans (hlocks _ hlock)))
      exact (Function.update_of_ne hne ..).trans hlock'

/-- An append writes the file it holds locked. -/
theorem keeps_write (hslot : slot.Sound wire key) (hlock : slot.locks file = some id)
    (hfull : slot.line = some file → Full wire key (slot.files file) → text = slot.files file)
    (hshape : slot.line = some file → '\n' ∉ text ∨ Full wire key text)
    (haside : slot.refused = some file → Holds wire key (slot.files file) →
      Holds wire key text ∨ (slot.write file text).Safe wire key)
    (hcopied : slot.receipt = false → slot.line = some file → ∀ keep moment,
      text = wire.line keep moment ++ ['\n'] → wire.file keep = true → slot.blob = true) :
    slot.Keeps wire key id (slot.write file text) := by
  have hself : (slot.write file text).files file = text := Function.update_self ..
  have hother : ∀ other, other ≠ file → (slot.write file text).files other = slot.files other :=
    fun other hne => Function.update_of_ne hne ..
  refine ⟨rfl, rfl, rfl, rfl, fun other file' hne hlock' => ⟨hlock', hother _ ?_⟩, fun file' hline hbefore => ?_,
    fun file' hline => ?_, fun hset => ?_, fun hreceipt file' keep moment hline htext => ?_⟩
  · rintro rfl
    exact hne (Option.some.inj (hlock'.symm.trans hlock))
  · by_cases hsame : file' = file
    · subst hsame
      rw [hself]
      exact hfull hline hbefore
    · exact hother _ hsame
  · by_cases hsame : file' = file
    · subst hsame
      rw [hself]
      exact hshape hline
    · rw [hother _ hsame]
      exact hslot.shape file' hline
  · obtain ⟨file', hrefused, hholds⟩ := hset
    by_cases hsame : file' = file
    · subst hsame
      rcases haside hrefused hholds with hstill | hsafe
      · exact Or.inr (Or.inr ⟨file', hrefused, hself.symm ▸ hstill⟩)
      · exact hsafe
    · exact Or.inr (Or.inr ⟨file', hrefused, (hother _ hsame).symm ▸ hholds⟩)
  · by_cases hsame : file' = file
    · subst hsame
      exact hcopied hreceipt hline keep moment (hself.symm.trans htext)
    · exact hslot.copied hreceipt file' keep moment hline ((hother _ hsame).symm.trans htext)

/-- What the file at the path is to an append that holds it locked. -/
theorem Append.Sound.safe_of_full {append : Append ι} (hsound : append.Sound wire slot id)
    (hhandle : append.stage.handle = some file) {later : Slot} (hlater : later.Sound wire (wire.key append.keep))
    (hline : later.line = slot.line)
    (hkeeps : slot.Safe wire (wire.key append.keep) → later.Safe wire (wire.key append.keep))
    (hfull : slot.line = some file → Full wire (wire.key append.keep) (later.files file)) :
    later.Safe wire (wire.key append.keep) := by
  by_cases hpath : slot.line = some file
  · exact hlater.safe_of_full (hline.trans hpath) (hfull hpath)
  · exact hkeeps (hsound.left file hhandle hpath)

/-- A text that with what is still to be written makes one line is whole, or holds no newline yet. -/
theorem part_or_full {keep : ι} {pending : List Char} {moment : ℕ} (hkey : wire.key keep = key)
    (hline : text ++ pending = wire.line keep moment ++ ['\n']) : Full wire key text ∧ pending = [] ∨ '\n' ∉ text := by
  rcases List.eq_nil_or_concat' pending with rfl | ⟨rest, last, rfl⟩
  · rw [List.append_nil] at hline
    exact Or.inl ⟨⟨keep, moment, hkey, hline⟩, rfl⟩
  · rw [← List.append_assoc] at hline
    have hbody := (List.append_inj' hline rfl).1
    refine Or.inr fun hin => wire.plain keep moment ?_
    rw [← hbody]
    exact List.mem_append_left _ hin

section Steps

variable [DecidableEq κ] {s : Outbox κ ι} {append : Append ι} {same : Bool} {moment : ℕ}

theorem put_self (s : Outbox κ ι) (key : κ) : s.put key (s.slots key) = s := by
  unfold Outbox.put
  rw [Function.update_eq_self]

theorem close_put (s : Outbox κ ι) (id : ℕ) (append : Append ι) (slot : Slot) :
    (s.put (wire.key append.keep) slot).close wire id append =
      { s.put (wire.key append.keep) (slot.unlocked append.stage) with
        appends := Function.update s.appends id none } := by
  unfold Outbox.close Outbox.put
  dsimp only
  rw [Function.update_self, Function.update_idem]

/-- An append ends after its last step on the slot. -/
theorem Sound.close_put (h : Sound wire s)
    (hkeeps : (s.slots (wire.key append.keep)).Keeps wire (wire.key append.keep) id later)
    (hlocks : ∀ file, append.stage.lock = some file → later.locks file = some id) :
    Sound wire ((s.put (wire.key append.keep) later).close wire id append) := by
  rw [Memory.close_put]
  exact h.finished (hkeeps.trans (keeps_unlocked (hkeeps.sound (h.slots _)) hlocks) (h.slots _)) fun _ hin => Or.inl hin

/-- An append returns after its last step on the slot, its keep safe. -/
theorem Sound.keeps_put (h : Sound wire s)
    (hkeeps : (s.slots (wire.key append.keep)).Keeps wire (wire.key append.keep) id later)
    (hlocks : ∀ file, append.stage.lock = some file → later.locks file = some id)
    (hsafe : later.Safe wire (wire.key append.keep)) :
    Sound wire ((s.put (wire.key append.keep) later).keeps wire id append) := by
  have hunlocked := keeps_unlocked (hkeeps.sound (h.slots _)) hlocks
  unfold Outbox.keeps
  rw [Memory.close_put]
  refine h.finished (hkeeps.trans hunlocked (h.slots _)) fun other hin => ?_
  rcases List.mem_append.mp hin with hold | hnew
  · exact Or.inl hold
  · rw [List.mem_singleton] at hnew
    exact Or.inr ⟨hnew, (hunlocked.follows (hkeeps.sound (h.slots _))).safe hsafe⟩

theorem Sound.close (h : Sound wire s) (happend : s.appends id = some append) :
    Sound wire (s.close wire id append) := by
  have hput := h.close_put (.refl id (h.slots _)) (h.appends id append happend).locks
  rwa [put_self] at hput

theorem Sound.keeps (h : Sound wire s) (happend : s.appends id = some append)
    (hsafe : (s.slots (wire.key append.keep)).Safe wire (wire.key append.keep)) :
    Sound wire (s.keeps wire id append) := by
  have hput := h.keeps_put (.refl id (h.slots _)) (h.appends id append happend).locks hsafe
  rwa [put_self] at hput

theorem Sound.enter (h : Sound wire s) {keep : ι} {before stage : Stage}
    (hsound : Append.Sound wire (s.slots (wire.key keep)) id ⟨keep, stage⟩) :
    Sound wire (s.enter id ⟨keep, before⟩ stage) := by
  have hput : Sound wire ((s.put (wire.key keep) (s.slots (wire.key keep))).enter id ⟨keep, before⟩ stage) :=
    h.advanced (.refl id (h.slots _)) hsound
  rwa [put_self] at hput

/-- An append opens the line: the file at the path, or one it creates for a key without a receipt. -/
theorem Sound.checked (h : Sound wire s) {keep : ι} {before : Stage}
    (hcalm : (s.slots (wire.key keep)).line.isSome = true ∨ (s.slots (wire.key keep)).receipt = false) :
    Sound wire ((s.put (wire.key keep) (s.slots (wire.key keep)).opened.1).enter id ⟨keep, before⟩
      (.opened (s.slots (wire.key keep)).opened.2)) := by
  have hslot := h.slots (wire.key keep)
  set slot := s.slots (wire.key keep) with hdef
  unfold Slot.opened
  cases hline : slot.line with
  | some file =>
      dsimp only
      rw [hdef, put_self]
      refine h.enter ⟨fun file' hhandle => ?_, fun file' hhandle hleft => ?_, fun file' hlock => (by cases hlock),
        fun file' _ _ => trivial⟩
      · obtain rfl := Option.some.inj hhandle
        exact hslot.made file hline
      · obtain rfl := Option.some.inj hhandle
        exact absurd hline hleft
  | none =>
      dsimp only
      have hreceipt : slot.receipt = false := by
        rcases hcalm with hsome | hnone
        · rw [hline] at hsome
          cases hsome
        · exact hnone
      have hother : ∀ file, file ≠ slot.next → (slot.write slot.next []).files file = slot.files file :=
        fun file hne => Function.update_of_ne hne ..
      have hself : (slot.write slot.next []).files slot.next = [] := Function.update_self ..
      have hlater : Slot.Sound wire (wire.key keep)
          { slot.write slot.next [] with line := some slot.next, next := slot.next + 1 } := by
        refine ⟨fun file hfile => ?_, fun file hfile => (hslot.madeAside file hfile).trans (Nat.lt_succ_self _),
          fun file hfile hrefused => ?_, fun file hfile => ?_, fun hreceipted => ?_,
          fun _ file other moment hfile htext => ?_⟩
        · obtain rfl := Option.some.inj hfile
          exact Nat.lt_succ_self _
        · obtain rfl := Option.some.inj hfile
          exact absurd (hslot.madeAside _ hrefused) (lt_irrefl _)
        · obtain rfl := Option.some.inj hfile
          exact Or.inl (hself.symm ▸ List.not_mem_nil)
        · have hsame : slot.receipt = true := hreceipted
          rw [hreceipt] at hsame
          cases hsame
        · obtain rfl := Option.some.inj hfile
          exact absurd (hself.symm.trans htext) (List.append_ne_nil_of_right_ne_nil _ (List.cons_ne_nil _ _)).symm
      have hfollows : Slot.Follows wire (wire.key keep) slot
          { slot.write slot.next [] with line := some slot.next, next := slot.next + 1 } := by
        refine ⟨Nat.le_succ _, fun hsafe => ?_, fun file hfile => ?_, fun file hfile => ?_⟩
        · rcases hsafe with hreceipted | ⟨file, _, _, hfile, -⟩ | ⟨file, hrefused, hholds⟩
          · exact Or.inl hreceipted
          · rw [hline] at hfile
            cases hfile
          · have hne : file ≠ slot.next := (hslot.madeAside file hrefused).ne
            exact Or.inr (Or.inr ⟨file, hrefused, (hother file hne).symm ▸ hholds⟩)
        · rw [hline] at hfile
          cases hfile
        · exact Or.inr (Option.some.inj hfile).le
      refine h.moved hlater hfollows (fun other append' happend => ?_) (fun tasks hpass => ⟨?_, fun _ _ =>
        ⟨tasks, hpass, rfl⟩⟩) fun _ hin => Or.inl hin
      · by_cases hsame : other = id
        · subst hsame
          rw [Function.update_self] at happend
          obtain rfl := Option.some.inj happend
          refine ⟨fun _ => ⟨fun file hhandle => ?_, fun file hhandle hleft => ?_, fun file hlock => (by cases hlock),
            fun _ _ _ => trivial⟩, fun hne => absurd rfl hne⟩
          · obtain rfl := Option.some.inj hhandle
            exact Nat.lt_succ_self _
          · obtain rfl := Option.some.inj hhandle
            exact absurd rfl hleft
        · rw [Function.update_of_ne hsame] at happend
          refine ⟨fun hkey => ?_, fun _ => happend⟩
          have hsound := h.appends other append' happend
          rw [hkey] at hsound
          rw [← hkey] at hfollows
          refine hsound.follows hfollows (fun _ _ => rfl) fun file hlock => hother file ?_
          exact (hsound.made file (Stage.handle_of_lock hlock)).ne
      · have htask := h.tasks tasks hpass (wire.key keep)
        cases hwhich : tasks (wire.key keep) with
        | waiting keep | delivered keep =>
            rw [hwhich] at htask
            obtain ⟨file, hfile, -⟩ := htask
            rw [← hdef, hline] at hfile
            cases hfile
        | receipted | unlinked =>
            rw [hwhich] at htask
            exact htask
        | todo | aside | done => trivial

theorem Sound.opened (h : Sound wire s) {keep : ι} (happend : s.appends id = some ⟨keep, .opened file⟩)
    (hfree : (s.slots (wire.key keep)).locks file = none) :
    Sound wire ((s.put (wire.key keep) { s.slots (wire.key keep) with
      locks := Function.update (s.slots (wire.key keep)).locks file (some id) }).enter id ⟨keep, .opened file⟩
        (.locked file)) := by
  have hsound := h.appends id _ happend
  refine h.advanced (keeps_lock (h.slots _) hfree) ⟨hsound.made, hsound.left, fun file' hlock => ?_,
    fun _ _ _ => trivial⟩
  obtain rfl := Option.some.inj hlock
  exact Function.update_self ..

theorem Sound.locked (h : Sound wire s) {keep : ι} {path : ℕ} (happend : s.appends id = some ⟨keep, .locked file⟩)
    (hline : (s.slots (wire.key keep)).line = some path) :
    Sound wire (s.enter id ⟨keep, .locked file⟩
      (.cutting file (ended '\n' ((s.slots (wire.key keep)).files path)))) := by
  have hsound := h.appends id _ happend
  refine h.enter ⟨hsound.made, hsound.left, hsound.locks, fun file' hhandle hpath => ?_⟩
  obtain rfl := Option.some.inj (hline.symm.trans hpath)
  rfl

/-- A cut of the file at the path takes away what a dead writer left unfinished, and nothing of a whole line. -/
theorem Sound.cutting (h : Sound wire s) {keep : ι} {length : ℕ}
    (happend : s.appends id = some ⟨keep, .cutting file length⟩)
    (hcalm : (s.slots (wire.key keep)).refused = some file →
      ended '\n' ((s.slots (wire.key keep)).files file) ≤ length ∨ (s.slots (wire.key keep)).receipt = true ∨
        ∃ path, (s.slots (wire.key keep)).line = some path ∧ ended '\n' ((s.slots (wire.key keep)).files path) ≠ 0) :
    Sound wire ((s.put (wire.key keep) ((s.slots (wire.key keep)).write file
      (cut '\x00' length ((s.slots (wire.key keep)).files file)))).enter id ⟨keep, .cutting file length⟩
        (.ready file)) := by
  have hsound := h.appends id _ happend
  have hslot := h.slots (wire.key keep)
  dsimp only at hsound
  set slot := s.slots (wire.key keep)
  have hlength : slot.line = some file → length = ended '\n' (slot.files file) := hsound.reads file rfl
  have hself : (slot.write file (cut '\x00' length (slot.files file))).files file =
      cut '\x00' length (slot.files file) := Function.update_self ..
  have hfull : slot.line = some file → Full wire (wire.key keep) (slot.files file) →
      cut '\x00' length (slot.files file) = slot.files file := by
    intro hline hfull
    obtain ⟨other, moment, -, htext⟩ := hfull
    rw [hlength hline, htext]
    exact cut_ended_concat
  have hreads : slot.line = some file → cut '\x00' length (slot.files file) = [] ∨
      Full wire (wire.key keep) (cut '\x00' length (slot.files file)) := by
    intro hline
    rcases hslot.shape file hline with hpart | hwhole
    · refine Or.inl ?_
      rw [hlength hline]
      exact cut_ended_of_not_mem hpart
    · exact Or.inr ((hfull hline hwhole).symm ▸ hwhole)
  have hkeeps : slot.Keeps wire (wire.key keep) id (slot.write file (cut '\x00' length (slot.files file))) := by
    refine keeps_write hslot (hsound.locks file rfl) hfull (fun hline => ?_) (fun hrefused hholds => ?_) ?_
    · rcases hreads hline with hnil | hwhole
      · rw [hnil]
        exact Or.inl List.not_mem_nil
      · exact Or.inr hwhole
    · rcases hcalm hrefused with hlong | hreceipt | ⟨path, hline, hended⟩
      · exact Or.inl (hholds.cut hlong)
      · exact Or.inr (Or.inl hreceipt)
      · have hne : path ≠ file := by
          rintro rfl
          exact hslot.apart path hline hrefused
        have hsame : (slot.write file (cut '\x00' length (slot.files file))).files path = slot.files path :=
          Function.update_of_ne hne ..
        refine Or.inr ?_
        cases hreceipt : slot.receipt with
        | true => exact Or.inl hreceipt
        | false =>
            obtain ⟨other, moment, hkey, htext⟩ := hslot.full hline hended
            exact Or.inr (Or.inl ⟨path, other, moment, hline, hkey, (hsame.trans htext) ▸ contains_concat _,
              hslot.copied hreceipt path other moment hline htext⟩)
    · intro hreceipt hline other moment htext
      rcases hslot.shape file hline with hpart | hwhole
      · rw [hlength hline, cut_ended_of_not_mem hpart] at htext
        exact absurd htext.symm (List.append_ne_nil_of_right_ne_nil _ (List.cons_ne_nil _ _))
      · exact hslot.copied hreceipt file other moment hline ((hfull hline hwhole).symm.trans htext)
  refine h.advanced hkeeps ⟨hsound.made, fun file' hhandle hleft =>
    (hkeeps.follows hslot).safe (hsound.left file' hhandle hleft), hsound.locks, fun file' hhandle hline => ?_⟩
  obtain rfl := Option.some.inj hhandle
  rw [hself]
  exact hreads hline

/-- An append that looked at the path and found a file with something in it returns; it writes where the file is
empty. -/
theorem Sound.ready (h : Sound wire s) {keep : ι} {path : ℕ} (happend : s.appends id = some ⟨keep, .ready file⟩)
    (hline : (s.slots (wire.key keep)).line = some path) (hsome : (s.slots (wire.key keep)).files path ≠ []) :
    Sound wire (s.keeps wire id ⟨keep, .ready file⟩) := by
  have hsound := h.appends id _ happend
  refine h.keeps happend (hsound.safe_of_full rfl (h.slots _) rfl (fun hsafe => hsafe) fun hpath => ?_)
  obtain rfl := Option.some.inj (hline.symm.trans hpath)
  rcases hsound.reads path rfl hpath with hnil | hfull
  · exact absurd hnil hsome
  · exact hfull

theorem Sound.found_empty (h : Sound wire s) {keep : ι} {path : ℕ} {stage : Stage}
    (happend : s.appends id = some ⟨keep, .ready file⟩) (hline : (s.slots (wire.key keep)).line = some path)
    (hnil : (s.slots (wire.key keep)).files path = []) (hhandle : stage.handle = some file)
    (hlock : stage.lock = some file) (hreads : ∀ text, text = [] → stage.Reads wire keep text) :
    Sound wire (s.enter id ⟨keep, .ready file⟩ stage) := by
  have hsound := h.appends id _ happend
  refine h.enter ⟨fun file' hfile => ?_, fun file' hfile => ?_, fun file' hfile => ?_, fun file' hfile hpath => ?_⟩
  · obtain rfl := Option.some.inj (hhandle.symm.trans hfile)
    exact hsound.made file rfl
  · obtain rfl := Option.some.inj (hhandle.symm.trans hfile)
    exact hsound.left file rfl
  · obtain rfl := Option.some.inj (hlock.symm.trans hfile)
    exact hsound.locks file rfl
  · obtain rfl := Option.some.inj (hline.symm.trans hpath)
    exact hreads _ hnil

/-- An append writes a piece of its line, the last one with the copy beside it. -/
theorem Sound.writing (h : Sound wire s) {keep : ι} {pending : List Char} {amount : ℕ}
    (happend : s.appends id = some ⟨keep, .writing file pending⟩)
    (hcalm : (s.slots (wire.key keep)).line = some file → pending.drop amount = [] → wire.file keep = true →
      (s.slots (wire.key keep)).receipt = false → (s.slots (wire.key keep)).blob = true) :
    Sound wire (advance wire s id ⟨keep, .writing file pending⟩ same moment amount) := by
  have hsound := h.appends id _ happend
  have hslot := h.slots (wire.key keep)
  dsimp only [advance]
  dsimp only at hsound
  set slot := s.slots (wire.key keep)
  have hreads : slot.line = some file →
      ∃ moment, slot.files file ++ pending = wire.line keep moment ++ ['\n'] := hsound.reads file rfl
  have hself : (slot.write file (slot.files file ++ pending.take amount)).files file =
      slot.files file ++ pending.take amount := Function.update_self ..
  have hrest : slot.line = some file → ∃ moment,
      (slot.files file ++ pending.take amount) ++ pending.drop amount = wire.line keep moment ++ ['\n'] := by
    intro hline
    obtain ⟨moment, hwhole⟩ := hreads hline
    exact ⟨moment, by rw [List.append_assoc, List.take_append_drop, hwhole]⟩
  have hkeeps : slot.Keeps wire (wire.key keep) id
      (slot.write file (slot.files file ++ pending.take amount)) := by
    refine keeps_write hslot (hsound.locks file rfl) (fun hline hfull => ?_) (fun hline => ?_)
      (fun _ hholds => Or.inl (hholds.append _)) fun hreceipt hline other moment htext hfile => ?_
    · obtain ⟨moment, hwhole⟩ := hreads hline
      rcases part_or_full rfl hwhole with ⟨-, hnone⟩ | hpart
      · rw [hnone, List.take_nil, List.append_nil]
      · exact absurd hfull.holds.mem hpart
    · obtain ⟨moment, hwhole⟩ := hrest hline
      rcases part_or_full rfl hwhole with ⟨hfull, -⟩ | hpart
      · exact Or.inr hfull
      · exact Or.inl hpart
    · -- A whole line is the append's own, so what was to be written is.
      obtain ⟨moment', hwhole⟩ := hrest hline
      rcases part_or_full rfl hwhole with ⟨-, hnone⟩ | hpart
      · rw [hnone, List.append_nil] at hwhole
        have hlines : wire.line other moment = wire.line keep moment' :=
          (List.append_inj' (htext.symm.trans hwhole) rfl).1
        have hevents := congrArg wire.parse hlines
        rw [wire.parse_line, wire.parse_line] at hevents
        obtain rfl : other = keep := congrArg Prod.snd (Option.some.inj hevents)
        exact hcalm hline hnone hfile hreceipt
      · exact absurd (htext ▸ List.mem_append_right _ (List.mem_singleton_self _)) hpart
  have hsafe := (hkeeps.follows hslot).safe
  by_cases hdone : pending.drop amount = []
  · rw [if_pos hdone]
    refine h.keeps_put hkeeps hsound.locks
      (hsound.safe_of_full rfl (hkeeps.sound hslot) rfl hsafe fun hline => ?_)
    obtain ⟨moment, hwhole⟩ := hrest hline
    rw [hdone, List.append_nil] at hwhole
    exact ⟨keep, moment, rfl, hself.trans hwhole⟩
  · rw [if_neg hdone]
    refine h.advanced hkeeps ⟨hsound.made, fun file' hhandle hleft => hsafe (hsound.left file' hhandle hleft),
      hsound.locks, fun file' hhandle hline => ?_⟩
    obtain rfl := Option.some.inj hhandle
    rw [hself]
    exact hrest hline

/-- Every step of an append. -/
theorem Sound.advance (h : Sound wire s) (happend : s.appends id = some append) {amount : ℕ}
    (hcalm : calm wire s (.advance id same moment amount) = true) :
    Sound wire (advance wire s id append same moment amount) := by
  dsimp only [calm] at hcalm
  rw [happend, Option.all_some] at hcalm
  obtain ⟨keep, stage⟩ := append
  have hsound := h.appends id _ happend
  unfold Memory.advance
  cases stage with
  | checked =>
      rw [Bool.or_eq_true, Bool.not_eq_true'] at hcalm
      exact h.checked hcalm
  | opened file =>
      dsimp only
      split
      · rename_i hfree
        exact h.opened happend hfree
      · exact h.close happend
  | locked file =>
      dsimp only
      split
      · exact h.close happend
      · rename_i path hline
        exact h.locked happend hline
  | cutting file length =>
      dsimp only at hcalm
      refine h.cutting happend fun hrefused => ?_
      rw [Bool.or_eq_true, Bool.or_eq_true, Bool.or_eq_true, decide_eq_true_eq, decide_eq_true_eq] at hcalm
      rcases hcalm with ((hnot | hlong) | hreceipt) | hpath
      · exact absurd hrefused hnot
      · exact Or.inl hlong
      · exact Or.inr (Or.inl hreceipt)
      · rw [Option.any_eq_true] at hpath
        obtain ⟨path, hline, hended⟩ := hpath
        exact Or.inr (Or.inr ⟨path, hline, of_decide_eq_true hended⟩)
  | ready file =>
      dsimp only
      split
      · exact h.close happend
      · rename_i path hline
        by_cases hsome : (s.slots (wire.key keep)).files path ≠ []
        · rw [if_pos hsome]
          exact h.ready happend hline hsome
        · rw [if_neg hsome]
          have hnil := not_not.mp hsome
          split
          · exact h.found_empty happend hline hnil rfl rfl fun _ htext => htext
          · refine h.found_empty happend hline hnil rfl rfl fun text htext => ⟨moment, ?_⟩
            rw [htext, List.nil_append]
  | copying file =>
      have hkeeps := keeps_blob id (h.slots (wire.key keep)) fun _ _ _ _ _ _ _ => (rfl : true = true)
      exact h.advanced hkeeps ⟨hsound.made, fun file' hhandle hleft =>
        (hkeeps.follows (h.slots _)).safe (hsound.left file' hhandle hleft), hsound.locks, hsound.reads⟩
  | copied file =>
      dsimp only
      cases same with
      | true =>
          rw [if_pos rfl]
          refine h.enter ⟨hsound.made, hsound.left, hsound.locks, fun file' hhandle hline => ⟨moment, ?_⟩⟩
          have hnil : (s.slots (wire.key keep)).files file' = [] := hsound.reads file' hhandle hline
          rw [hnil, List.nil_append]
      | false =>
          rw [if_neg (by decide)]
          refine h.close_put (keeps_blob id (h.slots _) fun hreceipt path other moment hline htext hfile => ?_)
            hsound.locks
          dsimp only at hcalm hreceipt hline htext
          rw [hreceipt, hline, Option.all_some, htext] at hcalm
          simp [ended_concat] at hcalm
  | writing file pending =>
      have hwritten : Sound wire (Memory.advance wire s id ⟨keep, .writing file pending⟩ same moment amount) := by
        refine h.writing happend fun hline hdone hfile hreceipt => ?_
        dsimp only at hcalm
        rw [hline, hdone, hfile, hreceipt] at hcalm
        simpa using hcalm
      exact hwritten

omit [DecidableEq κ] in
/-- The pass touches the path, the refused path, the copy and the receipt of a key, and no file, lock or append. -/
theorem Append.Sound.dealt {other : ℕ} (hsound : append.Sound wire slot other)
    (hfollows : Slot.Follows wire (wire.key append.keep) slot later) (hlocks : later.locks = slot.locks)
    (hfiles : later.files = slot.files) : append.Sound wire later other :=
  hsound.follows hfollows (fun _ _ => by rw [hlocks]) fun _ _ => by rw [hfiles]

/-- A step of the pass on a key's slot. -/
theorem Sound.dealt (h : Sound wire s) {tasks : κ → Task ι} (hpass : s.pass = some tasks) {task : Task ι}
    (hslot : later.Sound wire key) (hfollows : Slot.Follows wire key (s.slots key) later)
    (hlocks : later.locks = (s.slots key).locks) (hfiles : later.files = (s.slots key).files)
    (htask : task.Sound wire key later) : Sound wire ((s.put key later).task tasks key task) := by
  refine h.moved hslot hfollows (fun other append happend => ⟨fun hkey => ?_, fun _ => happend⟩)
    (fun tasks' hpass' => ?_) fun _ hin => Or.inl hin
  · have hsound := h.appends other append happend
    rw [hkey] at hsound
    subst hkey
    exact hsound.dealt hfollows hlocks hfiles
  · obtain rfl := Option.some.inj hpass'
    refine ⟨?_, fun other hne => ⟨tasks, hpass, Function.update_of_ne hne ..⟩⟩
    rw [Function.update_self]
    exact htask

/-- The pass goes on with a key without touching its slot. -/
theorem Sound.task (h : Sound wire s) {tasks : κ → Task ι} (hpass : s.pass = some tasks) {task : Task ι}
    (htask : task.Sound wire key (s.slots key)) : Sound wire (s.task tasks key task) := by
  have hput : Sound wire ((s.put key (s.slots key)).task tasks key task) :=
    h.dealt hpass (h.slots key) ⟨le_refl _, fun hsafe => hsafe, fun _ hline hleft => absurd hline hleft,
      fun _ hline => Or.inl hline⟩ rfl rfl htask
  rwa [put_self] at hput

omit [DecidableEq κ] in
theorem Sound.leave (h : Sound wire s) : Sound wire { s with pass := none } :=
  ⟨h.slots, h.appends, fun _ hpass => (by cases hpass), h.kept⟩

/-- What the pass reads as waiting is at the path, whole. -/
theorem read_sound (hslot : slot.Sound wire key) (readable : Bool) :
    (slot.read wire key readable).Sound wire key slot := by
  unfold Slot.read
  cases hline : slot.line with
  | none => trivial
  | some file =>
      cases readable with
      | false => trivial
      | true =>
          dsimp only
          rw [if_pos rfl]
          split
          · trivial
          · trivial
          · rename_i first rest hlines
            split
            · refine ⟨file, hline, hslot.full hline fun hnone => ?_⟩
              -- Without a complete line there is nothing to parse.
              unfold linesOf at hlines
              rw [hnone] at hlines
              cases hlines
            · trivial

/-- A line set aside holds its keep still. -/
theorem Sound.aside (h : Sound wire s) {tasks : κ → Task ι} (hpass : s.pass = some tasks)
    (hline : (s.slots key).line = some file)
    (hcalm : (s.slots key).receipt = true ∨ ended '\n' ((s.slots key).files file) ≠ 0) :
    Sound wire ((s.put key { s.slots key with line := none, refused := some file }).task tasks key .done) := by
  have hslot := h.slots key
  have hsafe : ({ s.slots key with line := none, refused := some file } : Slot).Safe wire key := by
    rcases hcalm with hreceipt | hended
    · exact Or.inl hreceipt
    · exact Or.inr (Or.inr ⟨file, rfl, (hslot.full hline hended).holds⟩)
  refine h.dealt hpass ⟨fun _ hnone => (by cases hnone), fun file' hfile => ?_, fun _ hnone => (by cases hnone),
    fun _ hnone => (by cases hnone), fun _ _ hnone => (by cases hnone), fun _ _ _ _ hnone => (by cases hnone)⟩
    ⟨le_refl _, fun _ => hsafe, fun _ _ _ => hsafe, fun _ hnone => (by cases hnone)⟩ rfl rfl trivial
  obtain rfl := Option.some.inj hfile
  exact hslot.made file hline

/-- A delivered keep is receipted while its line is still whole at the path. -/
theorem Sound.receipted (h : Sound wire s) {tasks : κ → Task ι} (hpass : s.pass = some tasks)
    (hline : (s.slots key).line = some file) (hfull : Full wire key ((s.slots key).files file)) :
    Sound wire ((s.put key { s.slots key with receipt := true }).task tasks key .receipted) := by
  have hslot := h.slots key
  refine h.dealt hpass ⟨hslot.made, hslot.madeAside, hslot.apart, hslot.shape, fun _ file' hfile => ?_,
      fun hnone => (by cases hnone)⟩
    ⟨le_refl _, fun _ => Or.inl rfl, fun _ _ _ => Or.inl rfl, fun _ hfile => Or.inl hfile⟩ rfl rfl rfl
  obtain rfl := Option.some.inj (hline.symm.trans hfile)
  exact hfull

theorem Sound.unlinked (h : Sound wire s) {tasks : κ → Task ι} (hpass : s.pass = some tasks)
    (hreceipt : (s.slots key).receipt = true) :
    Sound wire ((s.put key { s.slots key with line := none }).task tasks key .unlinked) := by
  have hslot := h.slots key
  exact h.dealt hpass ⟨fun _ hnone => (by cases hnone), hslot.madeAside, fun _ hnone => (by cases hnone),
    fun _ hnone => (by cases hnone), fun _ _ hnone => (by cases hnone), fun _ _ _ _ hnone => (by cases hnone)⟩
    ⟨le_refl _, fun _ => Or.inl hreceipt, fun _ _ _ => Or.inl hreceipt, fun _ hnone => (by cases hnone)⟩ rfl rfl
    hreceipt

/-- Every step of the pass. -/
theorem Sound.deal (h : Sound wire s) {tasks : κ → Task ι} (hpass : s.pass = some tasks) {readable : Bool}
    {answer : Answer} (hcalm : calm wire s (.deal key readable answer) = true) :
    Sound wire (deal wire s tasks key readable answer) := by
  dsimp only [calm] at hcalm
  rw [hpass, Option.all_some] at hcalm
  have hslot := h.slots key
  have htask := h.tasks tasks hpass key
  unfold Memory.deal
  cases hwhich : tasks key with
  | todo => exact h.task hpass (read_sound hslot readable)
  | aside =>
      rw [hwhich] at hcalm
      dsimp only at hcalm ⊢
      split
      · exact h.leave
      · rename_i file hline
        rw [hline, Option.all_some, Bool.or_eq_true, decide_eq_true_eq] at hcalm
        exact h.aside hpass hline hcalm
  | waiting keep =>
      rw [hwhich] at htask
      cases answer with
      | accepted => exact h.task hpass htask
      | refused => exact h.task hpass trivial
      | unreachable => exact h.leave
  | delivered keep =>
      rw [hwhich] at htask
      obtain ⟨file, hline, hfull⟩ := htask
      exact h.receipted hpass hline hfull
  | receipted =>
      rw [hwhich] at htask
      exact h.unlinked hpass htask
  | unlinked =>
      rw [hwhich] at htask
      have hreceipt : (s.slots key).receipt = true := htask
      exact h.dealt hpass ⟨hslot.made, hslot.madeAside, hslot.apart, hslot.shape, hslot.receipts,
          fun hnone => absurd hreceipt (Bool.eq_false_iff.mp hnone)⟩
        ⟨le_refl _, fun _ => Or.inl hreceipt, fun _ hline hleft => absurd hline hleft, fun _ hline => Or.inl hline⟩
        rfl rfl trivial
  | done => exact h

/-- A calm step keeps every kept item safe. -/
theorem step_sound (s : Outbox κ ι) (label : Label κ ι) (h : Sound wire s) (hcalm : calm wire s label = true) :
    Sound wire (step wire s label) := by
  cases label with
  | append id keep =>
      dsimp only [step]
      split
      · exact h
      · split
        · rename_i hreceipt
          refine ⟨h.slots, h.appends, h.tasks, fun key hin => ?_⟩
          rcases List.mem_append.mp hin with hold | hnew
          · exact h.kept key hold
          · rw [List.mem_singleton.mp hnew]
            exact Or.inl hreceipt
        · exact h.enter ⟨fun _ hhandle => (by cases hhandle), fun _ hhandle => (by cases hhandle),
            fun _ hlock => (by cases hlock), fun _ hhandle => (by cases hhandle)⟩
  | advance id same moment amount =>
      dsimp only [step]
      cases happend : s.appends id with
      | none => exact h
      | some append => exact h.advance happend hcalm
  | stop id =>
      dsimp only [step]
      cases happend : s.appends id with
      | none => exact h
      | some append => exact h.close happend
  | drain =>
      dsimp only [step]
      split
      · exact h
      · refine ⟨h.slots, h.appends, fun tasks hpass key => ?_, h.kept⟩
        obtain rfl := Option.some.inj hpass
        trivial
  | deal key readable answer =>
      dsimp only [step]
      cases hpass : s.pass with
      | none => exact h
      | some tasks => exact h.deal hpass hcalm
  | leave => exact h.leave

end Steps

end Custody

end Mainboard.Memory
