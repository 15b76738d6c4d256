import Mathlib.Logic.Function.Basic
import StructureDb.Spec.Types

/-! `transaction::Storage`: transaction ids and their status, and the row locks.
The maps are functions; waiting for a lock is a step that is not enabled. -/

namespace StructureDb

/-- Ids count up from 10, so `int64_t` is a natural number here. -/
abbrev TransactionId := ℕ

inductive Status
  | started
  | commited
  | rollbacked
deriving DecidableEq

structure TxStorage where
  nextTxId : TransactionId
  txStatus : TransactionId → Option Status
  rowLocks : Bytes → Option TransactionId
  txLocks : TransactionId → List Bytes

namespace TxStorage

def kInitialTxId : TransactionId := 10

def empty : TxStorage := ⟨kInitialTxId, fun _ => none, fun _ => none, fun _ => []⟩

def begin (s : TxStorage) : TxStorage × TransactionId :=
  ({ s with
      nextTxId := s.nextTxId + 1
      txStatus := Function.update s.txStatus s.nextTxId (some .started) }, s.nextTxId)

def setStatus (s : TxStorage) (tx : TransactionId) (status : Status) : TxStorage :=
  { s with txStatus := Function.update s.txStatus tx (some status) }

def getStatus (s : TxStorage) (tx : TransactionId) : Option Status := s.txStatus tx

def isCommited (s : TxStorage) (tx : TransactionId) : Bool := s.txStatus tx = some .commited

def isStarted (s : TxStorage) (tx : TransactionId) : Bool := s.txStatus tx = some .started

/-- `AcquireRowLock`: `none` while anybody holds the key, the caller included. -/
def acquireRowLock (s : TxStorage) (tx : TransactionId) (rowKey : Bytes) : Option TxStorage :=
  if s.rowLocks rowKey = none then
    some { s with
      rowLocks := Function.update s.rowLocks rowKey (some tx)
      txLocks := Function.update s.txLocks tx (rowKey :: s.txLocks tx) }
  else none

def releaseRow (tx : TransactionId) (locks : Bytes → Option TransactionId) (rowKey : Bytes) :
    Bytes → Option TransactionId :=
  if locks rowKey = some tx then Function.update locks rowKey none else locks

def releaseAllLocks (s : TxStorage) (tx : TransactionId) : TxStorage :=
  { s with
    rowLocks := (s.txLocks tx).foldl (releaseRow tx) s.rowLocks
    txLocks := Function.update s.txLocks tx [] }

def rollback (s : TxStorage) (tx : TransactionId) : TxStorage := (s.setStatus tx .rollbacked).releaseAllLocks tx

def recoverFromLog (s : TxStorage) (tx : TransactionId) : TxStorage :=
  { s.setStatus tx .commited with nextTxId := max s.nextTxId (tx + 1) }

end TxStorage

end StructureDb
