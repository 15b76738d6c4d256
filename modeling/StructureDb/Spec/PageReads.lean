import StructureDb.Lib.Machine
import StructureDb.Spec.TableFile

/-! Calls of `SSTable::GetPage` beside each other. A call that misses the cache waits for `Seek`
and for `Read`; both go through the one file descriptor of the table, whose offset they share.
A call that waits may be overtaken by any other one. -/

namespace StructureDb

namespace Disk

/-- Where a call of `GetPage` is, with the number of its page. -/
inductive PageCall
  -- the pool has not made the `lseek` yet
  | seeking (pageNum : ℕ)
  -- the file is not read yet
  | reading (pageNum : ℕ)
  -- the page is read, and the call has not gone on
  | loading (pageNum : ℕ) (buffer : Bytes)
  -- `none` is an exception
  | returned (pageNum : ℕ) (page : Option Page)
deriving DecidableEq

def PageCall.done : PageCall → Bool
  | .returned _ _ => true
  | _ => false

/-- A table with the offset of its file and all calls of `GetPage` so far, in the order in which they were made. -/
structure PageReads where
  table : SSTable
  offset : ℕ
  calls : List PageCall

namespace PageReads

inductive Action
  -- a call with the number of a page that exists, up to its first wait
  | getPage (pageNum : ℕ)
  -- a thread of the pool seeks for a call
  | seek (call : ℕ)
  -- the file is read for a call
  | read (call : ℕ)
  -- a call whose page is there goes on
  | resume (call : ℕ)
deriving DecidableEq

def setCall (s : PageReads) (i : ℕ) (call : PageCall) : PageReads := { s with calls := s.calls.set i call }

def step (crc : Bytes → BitVec 32) (s : PageReads) : Action → Option PageReads
  | .getPage pageNum =>
    if s.table.header.pageCount ≤ pageNum then none
    else
      match s.table.pageCache.get pageNum with
      | some (page, pageCache) =>
        some { s with
          table := { s.table with pageCache }
          calls := s.calls ++ [.returned pageNum (some page)] }
      | none => some { s with calls := s.calls ++ [.seeking pageNum] }
  | .seek i =>
    match s.calls[i]? with
    | some (.seeking pageNum) =>
      some (setCall { s with offset := SSTable.pageOffset s.table.header pageNum } i (.reading pageNum))
    | _ => none
  | .read i =>
    match s.calls[i]? with
    | some (.reading pageNum) =>
      match readAt s.table.file s.offset s.table.header.pageSize with
      | none => some (s.setCall i (.returned pageNum none))
      | some buffer =>
        some (setCall { s with offset := min (s.offset + s.table.header.pageSize) s.table.file.length } i
          (.loading pageNum buffer))
    | _ => none
  | .resume i =>
    match s.calls[i]? with
    | some (.loading pageNum buffer) =>
      match Page.load crc buffer with
      | none => some (s.setCall i (.returned pageNum none))
      | some page =>
        some (setCall { s with table := { s.table with pageCache := s.table.pageCache.put pageNum page } } i
          (.returned pageNum (some page)))
    | _ => none

def start (table : SSTable) (offset : ℕ) : PageReads := ⟨table, offset, []⟩

end PageReads

def SSTable.decodedPage (crc : Bytes → BitVec 32) (t : SSTable) (pageNum : ℕ) : Option Page :=
  (readAt t.file (SSTable.pageOffset t.header pageNum) t.header.pageSize).bind (Page.load crc)

end Disk

end StructureDb
