import StructureDb.Spec.LogReader

/-! `Reader::Read` in the memory it runs in. `BufferReader::Read` copies without a look at the end of
its buffer, so a read that begins on a page may take bytes from behind it; `HasMore` is false from
then on and the next page is parsed. The order in which `LsmStorageUpsertEvent::Parse` evaluates its
arguments is the compiler's. -/

namespace StructureDb

/-- What the source leaves to the compiler and to the allocator: the order of evaluation, and the
bytes behind the buffer of each page up to the end of the memory that can be read. -/
structure Platform where
  order : EvaluationOrder
  beyond : Position → Bytes

/-- The loop of `OnPage` on `buf` with `beyond` behind it. A read of more than there is ends the
segment like an exception. -/
def parseMemory (arguments : List UpsertArgument) (beyond : Bytes) : ℕ → Bytes → List LogEvent × Bool
  | 0, _ => ([], false)
  | rounds + 1, buf =>
    if buf = [] then ([], false)
    else
      match parseEventIn arguments (buf ++ beyond) with
      | none => ([], true)
      | some (event, rest) =>
        -- what is left of the page; nothing if the event went over its end
        let rest := rest.take (rest.length - beyond.length)
        (event :: (parseMemory arguments beyond rounds rest).1, (parseMemory arguments beyond rounds rest).2)

namespace Platform

def onPage (p : Platform) (position : Position) (page : Bytes) : List LogEvent × Bool :=
  parseMemory p.order.arguments (p.beyond position) page.length page

def readSegment (p : Platform) (segmentNo : ℤ) : ℕ → List Bytes → List LogEvent
  | _, [] => []
  | pageNo, page :: rest =>
    let r := p.onPage ⟨segmentNo, pageNo⟩ page
    if r.2 then r.1 else r.1 ++ p.readSegment segmentNo (pageNo + 1) rest

def read (p : Platform) (dir : Dir Bytes Bytes) : List LogEvent :=
  (Reader.segments dir).flatMap fun segment => p.readSegment segment.1 0 (pages segment.2)

end Platform

end StructureDb
