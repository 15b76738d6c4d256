import StructureDb.Lib.LruCache

/-! `cache::LruCache` with its list of nodes and its map of list iterators. A list iterator is the
address of a node; `none` is an access through one that has no node any more. -/

namespace StructureDb

namespace Cache

structure Node (κ α : Type) where
  address : ℕ
  key : κ
  value : α

structure LruCache (κ α : Type) where
  entries : List (Node κ α)
  index : List (κ × ℕ)
  capacity : ℕ
  -- the addresses below are used up
  fresh : ℕ

namespace LruCache

variable {κ α : Type} [DecidableEq κ]

def create (capacity : ℕ) : LruCache κ α := ⟨[], [], capacity, 0⟩

/-- `entries_.splice(entries_.begin(), entries_, it)` -/
def splice (c : LruCache κ α) (it : ℕ) : LruCache κ α :=
  { c with entries := (c.entries.filter fun n => n.address = it) ++ c.entries.filter fun n => n.address ≠ it }

def deref (c : LruCache κ α) (it : ℕ) : Option (Node κ α) := c.entries.find? fun n => n.address = it

/-- `it->second = value` -/
def assign (c : LruCache κ α) (it : ℕ) (value : α) : LruCache κ α :=
  { c with entries := c.entries.map fun n => if n.address = it then { n with value } else n }

def get (c : LruCache κ α) (key : κ) : Option (Option α × LruCache κ α) :=
  match c.index.lookup key with
  | none => some (none, c)
  | some it => (c.deref it).map fun n => (some n.value, c.splice it)

/-- `emplace_front`, and the new entry of the map. -/
def emplaceFront (c : LruCache κ α) (key : κ) (value : α) : LruCache κ α :=
  { c with
    entries := ⟨c.fresh, key, value⟩ :: c.entries
    index := (key, c.fresh) :: c.index.filter fun e => e.1 ≠ key
    fresh := c.fresh + 1 }

def evict (c : LruCache κ α) : Option (LruCache κ α) :=
  c.entries.getLast?.map fun n =>
    { c with entries := c.entries.dropLast, index := c.index.filter fun e => e.1 ≠ n.key }

def size (c : LruCache κ α) : ℕ := c.index.length

def put (c : LruCache κ α) (key : κ) (value : α) : Option (LruCache κ α) :=
  if c.capacity = 0 then some c
  else
    match c.index.lookup key with
    | some it => (c.deref it).map fun _ => (c.assign it value).splice it
    | none =>
      let c := c.emplaceFront key value
      if c.capacity < c.size then c.evict else some c

def contains (c : LruCache κ α) (key : κ) : Bool := (c.index.lookup key).isSome

def clear (c : LruCache κ α) : LruCache κ α := { c with entries := [], index := [] }

inductive Request (κ α : Type)
  | put (key : κ) (value : α)
  | get (key : κ)
  | contains (key : κ)
  | clear

def call (c : LruCache κ α) : Request κ α → Option (LruCache κ α × Recency.Call κ α)
  | .put key value => (c.put key value).map fun c => (c, .put key value)
  | .get key => (c.get key).map fun r => (r.2, .get key r.1)
  | .contains key => some (c, .contains key (c.contains key))
  | .clear => some (c.clear, .clear)

/-- Calls one after another on a new cache, and the history of their results, the last one first. -/
def run (capacity : ℕ) (requests : List (Request κ α)) :
    Option (LruCache κ α × List (Recency.Call κ α)) :=
  requests.foldlM (fun s r => (s.1.call r).map fun x => (x.1, x.2 :: s.2)) (create capacity, [])

end LruCache

end Cache

end StructureDb
