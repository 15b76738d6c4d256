import StructureDb.Spec.LogFormat

/-! The parsing loops over a page with the reason why they end. `BufferReader::Read` copies
without a check, so a read that reaches beyond the end of the page buffer is told apart
from the exception of `kParsers.at`. What happens behind such a read is not modelled here. -/

namespace StructureDb

/-- Why `ParseEvent` returns no event. -/
inductive ParseFault
  -- a read reaches beyond the end of the page buffer
  | overrun
  -- `kParsers.at` throws
  | outOfRange
deriving DecidableEq

/-- `ParseEvent`. The parsers of the two types fail only by a read that reaches too far; a size that
`resize` refuses counts as one. -/
def readEvent (order : EvaluationOrder) (buf : Bytes) : Except ParseFault (LogEvent × Bytes) :=
  match BufferReader.readInt buf with
  | none => .error .overrun
  | some (type, buf) =>
    if type = 1 then (parseUpsertIn order.arguments buf).elim (.error .overrun) .ok
    else if type = 2 then (parseCommit buf).elim (.error .overrun) .ok
    else .error .outOfRange

/-- `while (HasMore()) ParseEvent`: the events it gets to, and what ends it before the end of the page. -/
def readEvents (order : EvaluationOrder) : ℕ → Bytes → List LogEvent × Option ParseFault
  | 0, _ => ([], none)
  | rounds + 1, buf =>
    if buf = [] then ([], none)
    else
      match readEvent order buf with
      | .error fault => ([], some fault)
      | .ok (event, buf) => (event :: (readEvents order rounds buf).1, (readEvents order rounds buf).2)

/-- The events that are applied; an exception leaves the page and the segment. -/
def RecoveryStrategy.onPage (order : EvaluationOrder) (page : Bytes) : List LogEvent × Option ParseFault :=
  readEvents order page.length page

/-- The events whose persistence is accumulated; an exception leaves the page and the segment. -/
def CleanerStrategy.onPage (order : EvaluationOrder) (page : Bytes) : List LogEvent × Option ParseFault :=
  readEvents order page.length page

/-- The events that a follower applies; an exception of `ParseEvent` is caught and ends the loop. -/
def processPage (order : EvaluationOrder) (page : Bytes) : List LogEvent × Option ParseFault :=
  ((readEvents order page.length page).1, (readEvents order page.length page).2.filter fun fault => fault ≠ .outOfRange)

end StructureDb
