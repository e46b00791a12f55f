import Mainboard.RegistryOperations

/-! The placeholder a dispatch refused for its target's quota is kept as. Its handle is derived from
the request, so holding a request twice keeps one row; the row it finds is read before the registry
lock is taken for the write. -/

namespace Mainboard

/-- The handle of a held request. `digest` is the keyed hash of the seed, in hexadecimal. -/
def heldHandle (digest : String → String) (asked : Request) : String :=
  "held-" ++ digest (asked.target ++ "\n" ++ asked.name ++ "\n" ++ asked.command)

/-- One call of `Dispatcher.hold` between its read of the registry and its write. -/
structure Holding where
  asked : Request
  reason : String
  project : String
  stamped : Int
  deriving DecidableEq, Repr

/-- The row a hold writes. -/
def Holding.placeholder (digest : String → String) (holding : Holding) : RunRecord where
  handle := heldHandle digest holding.asked
  target := holding.asked.target
  script := holding.asked.command
  submittedAt := holding.stamped
  fetchPath := holding.asked.fetch
  name := holding.asked.name
  node := holding.asked.node
  state := some Word.held.value
  verdict := some Word.held.value
  request := some holding.asked
  reason := holding.reason
  project := holding.project

@[simp] theorem Holding.verdict_placeholder (digest : String → String) (holding : Holding) :
    (holding.placeholder digest).verdict = some Word.held.value := rfl

namespace Registry

/-- The read half of a hold: the stamp of the row kept under the request's handle, else the clock. -/
def hold (log : Registry) (digest : String → String) (asked : Request) (reason project : String)
    (now : Int) : Holding where
  asked
  reason
  project
  stamped :=
    match log.run (heldHandle digest asked) asked.target with
    | .ok run => run.submittedAt
    | .error _ => now

/-- The write half of a hold: the row is recorded over whatever its identity recorded before. -/
def held (log : Registry) (digest : String → String) (holding : Holding) : Registry :=
  log.record (holding.placeholder digest)

end Registry

end Mainboard
