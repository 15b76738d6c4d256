import StructureDb.Spec.Background

/-! The iterators of a tree with what they hold on to: indices into the containers of the tree,
references to their elements, and positions in a `std::multiset`. Puts, flushes and compactions go
on while one is open, so a reference may outlive its table. `none` is undefined behaviour: an index
out of range, a table that is gone, or the end of a container read as an element. -/

namespace StructureDb

variable {V : Type} [LinearOrder V]

/-- A tree in memory, with the number of mem tables its deque has dropped and the number of times its
vector has given up its elements. -/
structure Memory (V : Type) [LinearOrder V] where
  lsm : Lsm V
  popped : ℕ
  storage : ℕ

namespace OpenScan

/-- A `MemTable&`: the member `mem_table_`, or an element of the deque. The mem tables are numbered
in the order they are frozen in. -/
inductive MemTableRef
  | active
  | frozen (no : ℕ)
deriving DecidableEq

/-- A `std::multiset<Record>::iterator`. A node belongs to the contents of a mem table, which move
as a whole when it is frozen; the end belongs to the object. No two nodes hold the same record. -/
inductive Position (V : Type)
  | node (no : ℕ) (r : Record V)
  | past (ref : MemTableRef)
deriving DecidableEq

end OpenScan

namespace Memory

open OpenScan

def activeNo (m : Memory V) : ℕ := m.popped + m.lsm.roMemTables.length

def roMemTable (m : Memory V) (no : ℕ) : Option (MemTable V) :=
  if no < m.popped then none else m.lsm.roMemTables[no - m.popped]?

def memTable (m : Memory V) : MemTableRef → Option (MemTable V)
  | .active => some m.lsm.memTable
  | .frozen no => m.roMemTable no

def contents (m : Memory V) (no : ℕ) : Option (MemTable V) :=
  if no = m.activeNo then some m.lsm.memTable else m.roMemTable no

def numberOf (m : Memory V) : MemTableRef → ℕ
  | .active => m.activeNo
  | .frozen no => no

def holder (m : Memory V) (no : ℕ) : MemTableRef := if no = m.activeNo then .active else .frozen no

/-- An element of the vector, through a reference taken when it had the storage. -/
def ssTable (m : Memory V) (storage idx : ℕ) : Option (SSTable V) :=
  if storage = m.storage then m.lsm.ssTables[idx]? else none

end Memory

namespace OpenScan

structure MemTableIterator (V : Type) where
  memTable : MemTableRef
  range : ScanRange
  it : Position V

namespace MemTableIterator

def position (no : ℕ) (ref : MemTableRef) : List (Record V) → Position V
  | [] => .past ref
  | r :: _ => .node no r

def create (m : Memory V) (ref : MemTableRef) (range : ScanRange) : Option (MemTableIterator V) :=
  (m.memTable ref).map fun t =>
    let start := match range.lowerBound with
      | some lo => t.impl.dropWhile fun r => r.key < lo
      | none => t.impl
    ⟨ref, range, position (m.numberOf ref) ref start⟩

def hasMore (m : Memory V) (it : MemTableIterator V) : Option Bool :=
  (m.memTable it.memTable).bind fun _ =>
    if it.it = .past it.memTable then some false
    else
      match it.range.upperBound, it.it with
      | none, _ => some true
      | some hi, .node no r => (m.contents no).map fun _ => decide (r.key ≤ hi)
      | some _, .past _ => none

def next (m : Memory V) (it : MemTableIterator V) : Option (Record V × MemTableIterator V) :=
  match it.it with
  | .past _ => none
  | .node no r => (m.contents no).map fun t =>
    (r, { it with it := position no (m.holder no) (t.impl.dropWhile fun s => s ≤ r) })

end MemTableIterator

/-- `pos` stands for `current_page_` and `current_record_`. -/
structure SSTableIterator (V : Type) where
  storage : ℕ
  idx : ℕ
  range : ScanRange
  pos : ℕ
  next : Option (Record V)

namespace SSTableIterator

/-- `next_ = co_await NextImpl()` -/
def advance (m : Memory V) (it : SSTableIterator V) : Option (SSTableIterator V) :=
  (m.ssTable it.storage it.idx).map fun t =>
    match t.records[it.pos]? with
    | none => { it with next := none }
    | some r => { it with pos := it.pos + 1, next := some r }

def create (m : Memory V) (idx : ℕ) (range : ScanRange) : Option (SSTableIterator V) :=
  (m.lsm.ssTables[idx]?).bind fun t =>
    let pos := match range.lowerBound with
      | some lo => (t.records.takeWhile fun r => r.key < lo).length
      | none => 0
    advance m ⟨m.storage, idx, range, pos, none⟩

def hasMore (it : SSTableIterator V) : Bool :=
  match it.next with
  | none => false
  | some r => it.range.upperBound.all fun hi => decide (r.key ≤ hi)

def getNext (m : Memory V) (it : SSTableIterator V) : Option (Record V × SSTableIterator V) :=
  match it.next with
  | none => none
  | some r => (it.advance m).map fun it => (r, it)

end SSTableIterator

inductive TableIterator (V : Type)
  | memTable (it : MemTableIterator V)
  | ssTable (it : SSTableIterator V)

namespace TableIterator

def hasMore (m : Memory V) : TableIterator V → Option Bool
  | .memTable it => it.hasMore m
  | .ssTable it => some it.hasMore

def next (m : Memory V) : TableIterator V → Option (Record V × TableIterator V)
  | .memTable it => (it.next m).map fun x => (x.1, .memTable x.2)
  | .ssTable it => (it.getNext m).map fun x => (x.1, .ssTable x.2)

end TableIterator

structure LsmKeyIterator (V : Type) where
  range : ScanRange
  roMemTableIdx : ℤ
  ssTableIdx : ℤ
  currentIterator : Option (TableIterator V)

namespace LsmKeyIterator

def getNextIterator (m : Memory V) (it : LsmKeyIterator V) : Option (LsmKeyIterator V) :=
  if 0 ≤ it.roMemTableIdx then
    (MemTableIterator.create m (.frozen (m.popped + it.roMemTableIdx.toNat)) it.range).map fun c =>
      { it with roMemTableIdx := it.roMemTableIdx - 1, currentIterator := some (.memTable c) }
  else if 0 ≤ it.ssTableIdx then
    (SSTableIterator.create m it.ssTableIdx.toNat it.range).map fun c =>
      { it with ssTableIdx := it.ssTableIdx - 1, currentIterator := some (.ssTable c) }
  else some { it with currentIterator := none }

/-- The loop of `Advance`, which is over when every index is used up. -/
def advance (m : Memory V) : ℕ → LsmKeyIterator V → Option (LsmKeyIterator V)
  | 0, _ => none
  | n + 1, it =>
    match it.currentIterator with
    | none => some it
    | some c => (c.hasMore m).bind fun more =>
      if more then some it else (it.getNextIterator m).bind fun it => advance m n it

def turns (it : LsmKeyIterator V) : ℕ := (it.roMemTableIdx + 1).toNat + (it.ssTableIdx + 1).toNat + 2

def create (m : Memory V) (key : Bytes) : Option (LsmKeyIterator V) :=
  (MemTableIterator.create m .active (.only key)).bind fun c =>
    let it := ⟨.only key, (m.lsm.roMemTables.length : ℤ) - 1, (m.lsm.ssTables.length : ℤ) - 1, some (.memTable c)⟩
    advance m it.turns it

def hasMore (m : Memory V) (it : LsmKeyIterator V) : Option Bool :=
  match it.currentIterator with
  | none => some false
  | some c => c.hasMore m

def next (m : Memory V) (it : LsmKeyIterator V) : Option (Record V × LsmKeyIterator V) :=
  match it.currentIterator with
  | none => none
  | some c => (c.next m).bind fun x =>
    let it := { it with currentIterator := some x.2 }
    (advance m it.turns it).map fun it => (x.1, it)

end LsmKeyIterator

/-- `LsmRangeIterator` is its `MergeIterator`: a heap of records, each with the iterator it came from. -/
structure LsmRangeIterator (V : Type) where
  heap : List (Record V × TableIterator V)

namespace LsmRangeIterator

def add (m : Memory V) (heap : List (Record V × TableIterator V)) (c : TableIterator V) :
    Option (List (Record V × TableIterator V)) :=
  (c.hasMore m).bind fun more => if more then (c.next m).map fun x => x :: heap else some heap

/-- `MergeIterator::Create` -/
def addAll (m : Memory V) : List (Record V × TableIterator V) → List (TableIterator V) →
    Option (List (Record V × TableIterator V))
  | heap, [] => some heap
  | heap, c :: rest => (add m heap c).bind fun heap => addAll m heap rest

def create (m : Memory V) (range : ScanRange) : Option (LsmRangeIterator V) :=
  (MemTableIterator.create m .active range).bind fun memTable =>
    ((List.range m.lsm.roMemTables.length).mapM fun i =>
      MemTableIterator.create m (.frozen (m.popped + i)) range).bind fun roMemTables =>
      ((List.range m.lsm.ssTables.length).mapM fun i => SSTableIterator.create m i range).bind fun ssTables =>
        (addAll m [] (.memTable memTable :: roMemTables.map .memTable ++ ssTables.map .ssTable)).map fun heap => ⟨heap⟩

def hasMore (it : LsmRangeIterator V) : Bool := !it.heap.isEmpty

def next (m : Memory V) (it : LsmRangeIterator V) : Option (Record V × LsmRangeIterator V) :=
  (KMerge.pop it.heap).bind fun x => (add m x.2 x.1.2).map fun heap => (x.1.1, ⟨heap⟩)

end LsmRangeIterator

inductive Query
  | key (key : Bytes)
  | range (range : ScanRange)

inductive Iterator (V : Type)
  | key (it : LsmKeyIterator V)
  | range (it : LsmRangeIterator V)

namespace Iterator

def create (m : Memory V) : Query → Option (Iterator V)
  | .key k => (LsmKeyIterator.create m k).map .key
  | .range r => (LsmRangeIterator.create m r).map .range

def hasMore (m : Memory V) : Iterator V → Option Bool
  | .key it => it.hasMore m
  | .range it => some it.hasMore

def next (m : Memory V) : Iterator V → Option (Record V × Iterator V)
  | .key it => (it.next m).map fun x => (x.1, .key x.2)
  | .range it => (it.next m).map fun x => (x.1, .range x.2)

end Iterator

end OpenScan

/-- A tree in use with an iterator that is open. The vector has room for some elements more. -/
structure OpenScan (V : Type) [LinearOrder V] where
  served : Served V
  popped : ℕ
  storage : ℕ
  room : ℕ
  it : OpenScan.Iterator V
  yielded : List (Record V)
  faulted : Bool

namespace OpenScan

inductive Input (V : Type)
  | act (a : Action V)
  | next

def memory (s : OpenScan V) : Memory V := ⟨s.served.lsm, s.popped, s.storage⟩

/-- `Lsm::Scan` on a tree whose vector has some room. -/
def create (served : Served V) (room : ℕ) (query : Query) : Option (OpenScan V) :=
  (Iterator.create ⟨served.lsm, 0, 0⟩ query).map fun it => ⟨served, 0, 0, room, it, [], false⟩

/-- `push_back`: a full vector moves its `size` elements to a storage of twice the size. -/
def pushBack (s : OpenScan V) (size : ℕ) : OpenScan V :=
  if s.room = 0 then { s with storage := s.storage + 1, room := size - 1 } else { s with room := s.room - 1 }

/-- What a step of the tree does to the containers; `clear` keeps the storage but not its elements. -/
def moved (s : OpenScan V) : Action V → OpenScan V
  | .advance =>
    match s.served.job with
    | .flushWritten _ _ => { s.pushBack s.served.lsm.ssTables.length with popped := s.popped + 1 }
    | .compactWritten _ _ =>
      let cleared := { s with storage := s.storage + 1, room := s.room + s.served.lsm.ssTables.length }
      cleared.pushBack 0
    | _ => s
  | _ => s

/-- Steps of the tree and calls of `Next`; an iterator does not outlive its process. -/
def step (o : Options) (s : OpenScan V) : Input V → Option (OpenScan V)
  | .act .restart => none
  | .act a => (s.served.step o a).map fun served => { s.moved a with served }
  | .next =>
    if s.faulted then none
    else
      match s.it.hasMore s.memory with
      | none => some { s with faulted := true }
      | some false => none
      | some true =>
        match s.it.next s.memory with
        | none => some { s with faulted := true }
        | some (r, it) => some { s with it, yielded := s.yielded ++ [r] }

end OpenScan

end StructureDb
