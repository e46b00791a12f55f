import Mainboard.Outbox

/-! What keeps a spooled keep from being lost. A file at the path holds a part of one line or one line whole; only
the holder of its lock writes it; and a file leaves the path for the refused one or for a receipt, so an append
whose handle is on a file no longer at the path writes about a key that is safe. -/

namespace Mainboard.Memory
open LineText

section Safety

variable {κ ι : Type} (wire : Wire κ ι)

/-- The text is one line of a keep of the key, whole. -/
def Full (key : κ) (text : List Char) : Prop :=
  ∃ keep moment, wire.key keep = key ∧ text = wire.line keep moment ++ ['\n']

/-- A line of a keep of the key is among the complete lines of the text. -/
def Holds (key : κ) (text : List Char) : Prop :=
  ∃ keep moment, wire.key keep = key ∧ Contains '\n' (wire.line keep moment) text

/-- A line of a keep of the key stands at the path. -/
def Slot.Lined (key : κ) (slot : Slot) : Prop := ∃ file, slot.line = some file ∧ Holds wire key (slot.files file)

/-- The key's keep waits in the outbox: its line stands at the path, and a file's copy beside it. -/
def Slot.Spooled (key : κ) (slot : Slot) : Prop :=
  ∃ file keep moment, slot.line = some file ∧ wire.key keep = key ∧
    Contains '\n' (wire.line keep moment) (slot.files file) ∧ (wire.file keep = true → slot.blob = true)

/-- The key's keep was set aside as refused. -/
def Slot.Aside (key : κ) (slot : Slot) : Prop := ∃ file, slot.refused = some file ∧ Holds wire key (slot.files file)

/-- The key's keep is receipted as delivered, waiting, or refused. -/
def Slot.Safe (key : κ) (slot : Slot) : Prop := slot.receipt = true ∨ slot.Spooled wire key ∨ slot.Aside wire key

/-- What the file at the path holds at an append's stage, where its handle is on it. -/
def Stage.Reads (keep : ι) (stage : Stage) (text : List Char) : Prop :=
  match stage with
  | .checked | .opened _ | .locked _ => True
  | .cutting _ length => length = ended '\n' text
  | .ready _ => text = [] ∨ Full wire (wire.key keep) text
  | .copying _ | .copied _ => text = []
  | .writing _ pending => ∃ moment, text ++ pending = wire.line keep moment ++ ['\n']

/-- What an append under way finds of its key's slot. -/
structure Append.Sound (slot : Slot) (id : ℕ) (append : Append ι) : Prop where
  made : ∀ file, append.stage.handle = some file → file < slot.next
  left : ∀ file, append.stage.handle = some file → slot.line ≠ some file → slot.Safe wire (wire.key append.keep)
  locks : ∀ file, append.stage.lock = some file → slot.locks file = some id
  reads : ∀ file, append.stage.handle = some file → slot.line = some file →
    append.stage.Reads wire append.keep (slot.files file)

/-- What the pass's place at a key says of its slot. -/
def Task.Sound (key : κ) (slot : Slot) : Task ι → Prop
  | .waiting _ | .delivered _ => ∃ file, slot.line = some file ∧ Full wire key (slot.files file)
  | .receipted | .unlinked => slot.receipt = true
  | _ => True

/-- A file's line that stands whole at the path has its copy beside it, unless the key is receipted. -/
def Slot.Copied (slot : Slot) : Prop :=
  slot.receipt = false → ∀ file keep moment, slot.line = some file →
    slot.files file = wire.line keep moment ++ ['\n'] → wire.file keep = true → slot.blob = true

/-- What a slot keeps. -/
structure Slot.Sound (key : κ) (slot : Slot) : Prop where
  made : ∀ file, slot.line = some file → file < slot.next
  madeAside : ∀ file, slot.refused = some file → file < slot.next
  apart : ∀ file, slot.line = some file → slot.refused ≠ some file
  shape : ∀ file, slot.line = some file → '\n' ∉ slot.files file ∨ Full wire key (slot.files file)
  receipts : slot.receipt = true → ∀ file, slot.line = some file → Full wire key (slot.files file)
  copied : slot.Copied wire

/-- What every calm step keeps. -/
structure Sound (s : Outbox κ ι) : Prop where
  slots : ∀ key, (s.slots key).Sound wire key
  appends : ∀ id append, s.appends id = some append → append.Sound wire (s.slots (wire.key append.keep)) id
  tasks : ∀ tasks, s.pass = some tasks → ∀ key, (tasks key).Sound wire key (s.slots key)
  kept : ∀ key ∈ s.kept, (s.slots key).Safe wire key

variable {wire} {key : κ} {slot later : Slot} {text : List Char}

/-- An append holds the lock of the file its handle is on. -/
theorem Stage.handle_of_lock {stage : Stage} {file : ℕ} (h : stage.lock = some file) : stage.handle = some file := by
  cases stage with
  | checked | opened => cases h
  | locked | cutting | ready | copying | copied | writing => exact h

theorem Full.holds (h : Full wire key text) : Holds wire key text := by
  obtain ⟨keep, moment, hkey, rfl⟩ := h
  exact ⟨keep, moment, hkey, contains_concat _⟩

theorem Full.ne_nil (h : Full wire key text) : text ≠ [] := by
  obtain ⟨keep, moment, -, rfl⟩ := h
  simp

/-- A file at the path with a complete line holds its keep's line whole. -/
theorem Slot.Sound.full (h : slot.Sound wire key) {file : ℕ} (hline : slot.line = some file)
    (hended : ended '\n' (slot.files file) ≠ 0) : Full wire key (slot.files file) := by
  rcases h.shape file hline with hpart | hfull
  · exact absurd (ended_of_not_mem hpart) hended
  · exact hfull

/-- A whole line at the path keeps its keep. -/
theorem Slot.Sound.safe_of_full (h : slot.Sound wire key) {file : ℕ} (hline : slot.line = some file)
    (hfull : Full wire key (slot.files file)) : slot.Safe wire key := by
  cases hreceipt : slot.receipt with
  | true => exact Or.inl hreceipt
  | false =>
      obtain ⟨keep, moment, hkey, htext⟩ := hfull
      exact Or.inr (Or.inl ⟨file, keep, moment, hline, hkey, htext ▸ contains_concat _,
        h.copied hreceipt file keep moment hline htext⟩)

theorem Holds.append (h : Holds wire key text) (more : List Char) : Holds wire key (text ++ more) := by
  obtain ⟨keep, moment, hkey, hin⟩ := h
  exact ⟨keep, moment, hkey, hin.append more⟩

theorem Holds.cut (h : Holds wire key text) {fill : Char} {length : ℕ} (hlength : ended '\n' text ≤ length) :
    Holds wire key (cut fill length text) := by
  obtain ⟨keep, moment, hkey, hin⟩ := h
  exact ⟨keep, moment, hkey, hin.cut hlength⟩

/-- How a slot goes on so that nothing known elsewhere of its key is lost: files are made anew, one that leaves the
path leaves the key safe, one that comes to it was not there yet, and safety stays. -/
structure Slot.Follows (wire : Wire κ ι) (key : κ) (slot later : Slot) : Prop where
  next : slot.next ≤ later.next
  safe : slot.Safe wire key → later.Safe wire key
  left : ∀ file, slot.line = some file → later.line ≠ some file → later.Safe wire key
  came : ∀ file, later.line = some file → slot.line = some file ∨ slot.next ≤ file

/-- An append is as sound as it was where the step leaves its lock and, under its lock, its file alone. -/
theorem Append.Sound.follows {id : ℕ} {append : Append ι} (h : append.Sound wire slot id)
    (hfollows : Slot.Follows wire (wire.key append.keep) slot later)
    (hlocks : ∀ file, append.stage.lock = some file → later.locks file = slot.locks file)
    (hfiles : ∀ file, append.stage.lock = some file → later.files file = slot.files file) :
    append.Sound wire later id := by
  refine ⟨fun file hhandle => (h.made file hhandle).trans_le hfollows.next, fun file hhandle hleft => ?_,
    fun file hlock => (hlocks file hlock).trans (h.locks file hlock), fun file hhandle hline => ?_⟩
  · by_cases hline : slot.line = some file
    · exact hfollows.left file hline hleft
    · exact hfollows.safe (h.left file hhandle hline)
  · have hbefore : slot.line = some file := by
      rcases hfollows.came file hline with hsame | hnew
      · exact hsame
      · exact absurd (h.made file hhandle) (by omega)
    have hreads := h.reads file hhandle hbefore
    obtain ⟨keep, stage⟩ := append
    cases stage with
    | checked | opened | locked => trivial
    | cutting | ready | copying | copied | writing =>
        rw [hfiles file hhandle]
        exact hreads

section Moving

variable [DecidableEq κ] {s : Outbox κ ι}

/-- What a step on one key's slot has to show, whatever becomes of the appends and the pass. -/
theorem Sound.moved (h : Sound wire s) {appends : ℕ → Option (Append ι)} {pass : Option (κ → Task ι)} {kept : List κ}
    (hslot : later.Sound wire key) (hfollows : Slot.Follows wire key (s.slots key) later)
    (happends : ∀ id append, appends id = some append →
      (wire.key append.keep = key → append.Sound wire later id) ∧
        (wire.key append.keep ≠ key → s.appends id = some append))
    (htasks : ∀ tasks, pass = some tasks → (tasks key).Sound wire key later ∧
      ∀ other, other ≠ key → ∃ before, s.pass = some before ∧ tasks other = before other)
    (hkept : ∀ other ∈ kept, other ∈ s.kept ∨ other = key ∧ later.Safe wire key) :
    Sound wire { slots := Function.update s.slots key later, appends, pass, kept } := by
  have hself : Function.update s.slots key later key = later := Function.update_self ..
  have hother : ∀ other, other ≠ key → Function.update s.slots key later other = s.slots other :=
    fun other hne => Function.update_of_ne hne ..
  refine ⟨fun other => ?_, fun id append happend => ?_, fun tasks hpass other => ?_, fun other hin => ?_⟩
  · dsimp only
    by_cases hsame : other = key
    · subst hsame
      rw [hself]
      exact hslot
    · rw [hother other hsame]
      exact h.slots other
  · dsimp only
    by_cases hsame : wire.key append.keep = key
    · rw [hsame, hself]
      exact (happends id append happend).1 hsame
    · rw [hother _ hsame]
      exact h.appends id append ((happends id append happend).2 hsame)
  · dsimp only
    by_cases hsame : other = key
    · subst hsame
      rw [hself]
      exact (htasks tasks hpass).1
    · rw [hother other hsame]
      obtain ⟨before, hbefore, htask⟩ := (htasks tasks hpass).2 other hsame
      rw [htask]
      exact h.tasks before hbefore other
  · dsimp only
    by_cases hsame : other = key
    · subst hsame
      rw [hself]
      rcases hkept other hin with hold | ⟨-, hsafe⟩
      · exact hfollows.safe (h.kept other hold)
      · exact hsafe
    · rw [hother other hsame]
      rcases hkept other hin with hold | ⟨hnew, -⟩
      · exact h.kept other hold
      · exact absurd hnew hsame

end Moving

/-- A slot as an append's step leaves it where the path and the receipt do not change: the files other appends hold
locked are left alone, a whole line at the path stays, and a keep set aside stays safe. -/
structure Slot.Keeps (wire : Wire κ ι) (key : κ) (id : ℕ) (slot later : Slot) : Prop where
  line : later.line = slot.line
  refused : later.refused = slot.refused
  receipt : later.receipt = slot.receipt
  next : later.next = slot.next
  others : ∀ other file, other ≠ id → slot.locks file = some other →
    later.locks file = some other ∧ later.files file = slot.files file
  full : ∀ file, slot.line = some file → Full wire key (slot.files file) → later.files file = slot.files file
  shape : ∀ file, slot.line = some file → '\n' ∉ later.files file ∨ Full wire key (later.files file)
  aside : slot.Aside wire key → later.Safe wire key
  copied : later.Copied wire

theorem Holds.mem (h : Holds wire key text) : '\n' ∈ text := by
  obtain ⟨keep, moment, -, before, after, rfl, -⟩ := h
  exact List.mem_append_right _ List.mem_cons_self

/-- A keep that waits has its line whole at the path. -/
theorem Slot.Sound.full_of_spooled (h : slot.Sound wire key) {file : ℕ} (hline : slot.line = some file)
    (hholds : Holds wire key (slot.files file)) : Full wire key (slot.files file) := by
  rcases h.shape file hline with hpart | hfull
  · exact absurd hholds.mem hpart
  · exact hfull

theorem Slot.Keeps.sound {id : ℕ} (h : slot.Keeps wire key id later) (hslot : slot.Sound wire key) :
    later.Sound wire key := by
  refine ⟨fun file hline => ?_, fun file hrefused => ?_, fun file hline => ?_, fun file hline => ?_,
    fun hreceipt file hline => ?_, h.copied⟩
  · rw [h.next]
    exact hslot.made file (h.line.symm.trans hline)
  · rw [h.next]
    exact hslot.madeAside file (h.refused.symm.trans hrefused)
  · rw [h.refused]
    exact hslot.apart file (h.line.symm.trans hline)
  · exact h.shape file (h.line.symm.trans hline)
  · have hfull := hslot.receipts (h.receipt.symm.trans hreceipt) file (h.line.symm.trans hline)
    rw [h.full file (h.line.symm.trans hline) hfull]
    exact hfull

theorem Slot.Keeps.follows {id : ℕ} (h : slot.Keeps wire key id later) (hslot : slot.Sound wire key) :
    Slot.Follows wire key slot later := by
  refine ⟨h.next.ge, fun hsafe => ?_, fun file hline hleft => absurd (h.line.trans hline) hleft,
    fun file hline => Or.inl (h.line.symm.trans hline)⟩
  rcases hsafe with hreceipt | ⟨file, keep, moment, hline, hkey, hin, -⟩ | haside
  · exact Or.inl (h.receipt.trans hreceipt)
  · have hfull := hslot.full_of_spooled hline ⟨keep, moment, hkey, hin⟩
    exact (h.sound hslot).safe_of_full (h.line.trans hline) ((h.full file hline hfull).symm ▸ hfull)
  · exact h.aside haside

theorem Task.Sound.keeps {id : ℕ} (h : slot.Keeps wire key id later) {task : Task ι}
    (htask : task.Sound wire key slot) : task.Sound wire key later := by
  cases task with
  | waiting keep | delivered keep =>
      obtain ⟨file, hline, hfull⟩ := htask
      exact ⟨file, h.line.trans hline, (h.full file hline hfull).symm ▸ hfull⟩
  | receipted | unlinked => exact h.receipt.trans htask
  | todo | aside | done => trivial

theorem Append.Sound.keeps {id other : ℕ} {append : Append ι} (h : slot.Keeps wire key id later)
    (hslot : slot.Sound wire key) (hkey : wire.key append.keep = key) (hne : other ≠ id)
    (hsound : append.Sound wire slot other) : append.Sound wire later other := by
  subst hkey
  exact hsound.follows (h.follows hslot)
    (fun file hlock => (h.others other file hne (hsound.locks file hlock)).1.trans (hsound.locks file hlock).symm)
    (fun file hlock => (h.others other file hne (hsound.locks file hlock)).2)

section Stepping

variable [DecidableEq κ] {s : Outbox κ ι} {id : ℕ} {stage : Stage}

/-- An append's step that leaves the path alone and goes on to a stage. -/
theorem Sound.advanced (h : Sound wire s) {keep : ι} {before : Stage}
    (hkeeps : (s.slots (wire.key keep)).Keeps wire (wire.key keep) id later)
    (hsound : Append.Sound wire later id ⟨keep, stage⟩) :
    Sound wire ((s.put (wire.key keep) later).enter id ⟨keep, before⟩ stage) := by
  refine h.moved (hkeeps.sound (h.slots _)) (hkeeps.follows (h.slots _)) (fun other append' happend => ?_)
    (fun tasks hpass => ⟨(h.tasks tasks hpass _).keeps hkeeps, fun _ _ => ⟨tasks, hpass, rfl⟩⟩)
    fun other hin => Or.inl hin
  by_cases hsame : other = id
  · subst hsame
    have hmoved : ⟨keep, stage⟩ = append' := by
      rw [Function.update_self] at happend
      exact Option.some.inj happend
    subst hmoved
    exact ⟨fun _ => hsound, fun hne => absurd rfl hne⟩
  · rw [Function.update_of_ne hsame] at happend
    have hbefore : s.appends other = some append' := happend
    refine ⟨fun hkey => ?_, fun _ => hbefore⟩
    have hsound' := h.appends other append' hbefore
    rw [hkey] at hsound'
    exact Append.Sound.keeps hkeeps (h.slots _) hkey hsame hsound'

/-- An append's step that leaves the path alone and ends it; a keep it returns for is safe. -/
theorem Sound.finished (h : Sound wire s) (hkeeps : (s.slots key).Keeps wire key id later) {kept : List κ}
    (hkept : ∀ other ∈ kept, other ∈ s.kept ∨ other = key ∧ later.Safe wire key) :
    Sound wire { s.put key later with appends := Function.update s.appends id none, kept } := by
  refine h.moved (hkeeps.sound (h.slots _)) (hkeeps.follows (h.slots _)) (fun other append' happend => ?_)
    (fun tasks hpass => ⟨(h.tasks tasks hpass _).keeps hkeeps, fun _ _ => ⟨tasks, hpass, rfl⟩⟩) hkept
  by_cases hsame : other = id
  · subst hsame
    rw [Function.update_self] at happend
    cases happend
  · rw [Function.update_of_ne hsame] at happend
    refine ⟨fun hkey => ?_, fun _ => happend⟩
    have hsound' := h.appends other append' happend
    rw [hkey] at hsound'
    exact Append.Sound.keeps hkeeps (h.slots _) hkey hsame hsound'

end Stepping

end Safety

end Mainboard.Memory
