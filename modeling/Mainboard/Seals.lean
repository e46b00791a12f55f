import Mathlib.Data.List.DropRight
import Mainboard.TextSources

/-! Which files a registration has sealed: those beneath a folder whose `node.md` carries a registration digest in
its front matter, other than the placeholder of zeros. The question is asked of one path, and answered from the
folders above it. -/

namespace Mainboard.Analysis.Sealed

/-- A character `str.isspace` and `\s` hold of. -/
def isSpace (char : Char) : Bool :=
  let code := char.toNat
  (9 ≤ code && code ≤ 13) || (28 ≤ code && code ≤ 32) || code == 0x85 || code == 0xa0 || code == 0x1680 ||
    (0x2000 ≤ code && code ≤ 0x200a) || code == 0x2028 || code == 0x2029 || code == 0x202f || code == 0x205f ||
    code == 0x3000

/-- `str.rstrip`. -/
def rstrip (text : Text) : Text := text.rdropWhile isSpace

/-- One of `[0-9a-f]`. -/
def isDigit (char : Char) : Bool := ('0' ≤ char && char ≤ '9') || ('a' ≤ char && char ≤ 'f')

/-- The digest `_SEAL` finds at the start of a line: the key, blanks, 64 digits, and blanks up to an end of line. -/
def digestOn (text : Text) : Option Text :=
  let key := "registration_sha256:".toList
  if key <+: text then
    let value := (text.drop key.length).dropWhile isSpace
    let digest := value.take 64
    let rest := (value.drop 64).dropWhile fun char => isSpace char && char != '\n'
    if digest.length = 64 ∧ digest.all isDigit ∧ (rest = [] ∨ rest.head? = some '\n') then some digest else none
  else none

/-- The first match of `_SEAL` in the lines of a text: the pattern begins at a line and may run over its end. -/
def search : List Text → Option Text
  | [] => none
  | line :: lines => match digestOn ("\n".toList.intercalate (line :: lines)) with
    | some digest => some digest
    | none => search lines

def fence : Text := "---".toList

/-- The lines between the opening fence and the closing one, none where it is missing. -/
def frontMatter (lines : List Text) : List Text :=
  match lines.tail.findIdx? fun line => rstrip line = fence with
  | some closing => lines.tail.take closing
  | none => []

/-- A node's text declares a seal other than the placeholder. -/
def declares (text : Text) : Bool :=
  let lines := textLines text
  match lines with
  | [] => false
  | opening :: _ =>
      if rstrip opening ≠ fence then false
      else match search (frontMatter lines) with
        | some digest => digest.any (· != '0')
        | none => false

variable (project : Project)

/-- Whether a folder's node declares a seal. A folder in the node's place raises. -/
def registers (folder : Place) : Option Bool :=
  match project.read (folder ++ ["node.md"]) with
  | .ok data => match decode data with
    | some text => some (declares text)
    | none => some false
  | .error .missing | .error .notFolder => some false
  | .error _ => none

/-- Whether one of the folders is registered, up to the first that is or that raises. -/
def registersAny : List Place → Option Bool
  | [] => some false
  | folder :: folders => match registers project folder with
    | some true => some true
    | some false => registersAny folders
    | none => none

/-- Whether a path is sealed by a registered node above it. -/
def holds (path : Place) : Option Bool := registersAny project (FileTree.above path)

/-- A registered node above the path seals it. -/
def Seals (path : Place) : Prop := ∃ folder ∈ FileTree.above path, registers project folder = some true

variable {project} {path : Place}

theorem registersAny_of_false {folders : List Place} (h : registersAny project folders = some false) :
    ∀ folder ∈ folders, registers project folder = some false := by
  induction folders with
  | nil =>
      intro folder hfolder
      cases hfolder
  | cons first folders ih =>
      unfold registersAny at h
      split at h
      · cases h
      · rename_i hfirst
        intro folder hfolder
        rcases List.mem_cons.mp hfolder with rfl | hmem
        · exact hfirst
        · exact ih h folder hmem
      · cases h

theorem registersAny_of_true {folders : List Place} (h : registersAny project folders = some true) :
    ∃ folder ∈ folders, registers project folder = some true := by
  induction folders with
  | nil => cases h
  | cons first folders ih =>
      unfold registersAny at h
      split at h
      · rename_i hfirst
        exact ⟨first, List.mem_cons_self, hfirst⟩
      · obtain ⟨folder, hmem, hfolder⟩ := ih h
        exact ⟨folder, List.mem_cons_of_mem _ hmem, hfolder⟩
      · cases h

/-- A path that is answered for and found open is sealed by no node. -/
theorem not_seals_of_holds (h : holds project path = some false) : ¬ Seals project path := by
  rintro ⟨folder, hfolder, hregistered⟩
  rw [registersAny_of_false h folder hfolder] at hregistered
  cases hregistered

/-- A registered folder's node is a file of the project. -/
theorem isFile_of_registers {folder : Place} (h : registers project folder = some true) :
    ∃ data, project.entry (folder ++ ["node.md"]) = some (.file data) := by
  unfold registers at h
  split at h
  · rename_i data hread
    unfold FileTree.Tree.read at hread
    split at hread
    · rename_i contents hentry
      exact ⟨contents, hentry⟩
    · cases hread
    · cases hread
  · cases h
  · cases h
  · cases h

/-- A registered node is sealed by itself. -/
theorem seals_node {folder : Place} (h : registers project folder = some true) :
    Seals project (folder ++ ["node.md"]) := by
  refine ⟨folder, FileTree.mem_above.mpr ⟨List.prefix_append _ _, fun heq => ?_⟩, h⟩
  have hlength := congrArg List.length heq
  rw [List.length_append, List.length_singleton] at hlength
  omega

end Mainboard.Analysis.Sealed
