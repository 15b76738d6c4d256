import StructureDb.Spec.LogFormat
import StructureDb.Spec.Wal

/-! The log as bytes, from the reading side: the pages of a segment file, `Reader::Read`
with the parsing loop of `RecoveryStrategy`, and `CollectPagesFrom`. -/

namespace StructureDb

/-- The reads of at most `kWalPageSize` bytes up to the end of the file; each gets at least one
byte, so there are no more of them than bytes. -/
def readPages : ℕ → Bytes → List Bytes
  | 0, _ => []
  | reads + 1, data =>
    if data = [] then [] else data.take kWalPageSize :: readPages reads (data.drop kWalPageSize)

/-- The pages of a segment file; only the last one may be shorter. -/
def pages (data : Bytes) : List Bytes := readPages data.length data

structure Position where
  segmentNo : ℤ
  pageNo : ℤ
deriving DecidableEq

/-- `operator<` of positions. -/
instance : LT Position where
  lt lhs rhs := if lhs.segmentNo ≠ rhs.segmentNo then lhs.segmentNo < rhs.segmentNo else lhs.pageNo < rhs.pageNo

instance (lhs rhs : Position) : Decidable (lhs < rhs) :=
  inferInstanceAs (Decidable (ite (lhs.segmentNo ≠ rhs.segmentNo) _ _))

structure WalPageData where
  position : Position
  data : Bytes
deriving DecidableEq

/-- `ReadSegmentPages`: the pages of one segment from a position on. -/
def readSegmentPages (segmentNo : ℤ) (data : Bytes) (origin : Position) : List WalPageData :=
  ((pages data).zipIdx.map fun page => ⟨⟨segmentNo, page.2⟩, page.1⟩).filter fun page => ¬page.position < origin

/-- The segments in the order in which `Reader::Read` and `CollectPagesFrom` go through them. -/
def Reader.segments (dir : Dir Bytes Bytes) : List (ℤ × Bytes) :=
  dir.listing.map fun file => (getSegmentNoFromName file.1, file.2)

/-- `ReadSegment`: the pages one after another; an exception leaves the segment. -/
def readSegment : List Bytes → List LogEvent
  | [] => []
  | page :: rest => if (onPage page).2 then (onPage page).1 else (onPage page).1 ++ readSegment rest

def Reader.read (dir : Dir Bytes Bytes) : List LogEvent :=
  (Reader.segments dir).flatMap fun segment => readSegment (pages segment.2)

/-- The segments that `CollectPagesFrom` opens. -/
def segmentsFrom (dir : Dir Bytes Bytes) (origin : Position) : List (ℤ × Bytes) :=
  (Reader.segments dir).filter fun segment => ¬segment.1 < origin.segmentNo

def collectPagesFrom (dir : Dir Bytes Bytes) (origin : Position) : List WalPageData :=
  (segmentsFrom dir origin).flatMap fun segment => readSegmentPages segment.1 segment.2 origin

end StructureDb
