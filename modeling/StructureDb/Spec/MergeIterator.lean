import StructureDb.Lib.PriorityQueue
import StructureDb.Spec.Lsm

/-! `MergeIterator` with its heap, over iterators of any kind and for any priority queue. The
sequence numbers are only compared, so `0` may as well be the least `int64_t`. -/

namespace StructureDb

namespace MergeIterator

variable {V σ Q : Type} [LinearOrder V]

structure Item (V σ : Type) where
  record : Record V
  iterator : σ

def Item.operatorLt (i other : Item V σ) : Prop := other.record.operatorLt i.record

abbrev MinHeap (Q V σ : Type) [LinearOrder V] := PriorityQueue Q (Item V σ) Item.operatorLt

/-- `none` where `Next` of an iterator fails. -/
def add (I : Cursor σ (Record V)) (H : MinHeap Q V σ) (heap : Q) (iter : σ) : Option Q :=
  if I.hasMore iter then (I.next iter).map fun r => H.push heap ⟨r.1, r.2⟩ else some heap

def create (I : Cursor σ (Record V)) (H : MinHeap Q V σ) (iterators : List σ) : Option Q :=
  iterators.foldlM (add I H) H.empty

def iterator (I : Cursor σ (Record V)) (H : MinHeap Q V σ) : Cursor Q (Record V) where
  hasMore heap := !(H.items heap).isEmpty
  next heap := (H.pop heap).bind fun top => (add I H top.2 top.1.iterator).map fun heap => (top.1.record, heap)

end MergeIterator

end StructureDb
