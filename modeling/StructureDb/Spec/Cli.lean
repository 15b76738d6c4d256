import StructureDb.Spec.Types

/-! The commands of the CLI: `Split`, the `TryParse` functions and `CommandManager::ParseCommand`.
`tokens[i]` is not checked by `std::vector`, so an access beyond the end is a fault of its own. -/

namespace StructureDb

namespace Cli

inductive Fault
  -- `std::runtime_error` of a text, and behind it the line
  | runtimeError (text : String) (line : Bytes)
  | outOfRange
deriving DecidableEq

inductive Command
  | createTable (tableName : Bytes)
  | dropTable (tableName : Bytes)
  | begin
  | commit
  | rollback
  | upsert (tableName key value : Bytes)
  | lookup (tableName key : Bytes)
  | delete (tableName key : Bytes)
  | scan (tableName : Bytes) (lowerBound upperBound : Option Bytes)
deriving DecidableEq

/-- `Command::Factory`; `none` is a null pointer. -/
abbrev Factory := List Bytes → Except Fault (Option Command)

/-! ### Split -/

/-- One round of the loop for each delimiter; a string has no more of them than characters. -/
def splitRounds (delimiter : Byte) : ℕ → Bytes → List Bytes
  | 0, str => [str]
  | rounds + 1, str =>
    match str.idxOf? delimiter with
    | none => [str]
    | some pos => str.take pos :: splitRounds delimiter rounds (str.drop (pos + 1))

def split (str : Bytes) (delimiter : Byte) : List Bytes := splitRounds delimiter str.length str

def space : Byte := 32

/-! ### The commands -/

def kCreate : Bytes := [67, 82, 69, 65, 84, 69]

def kTable : Bytes := [84, 65, 66, 76, 69]

def kDrop : Bytes := [68, 82, 79, 80]

def kBegin : Bytes := [66, 69, 71, 73, 78]

def kCommit : Bytes := [67, 79, 77, 77, 73, 84]

def kRollback : Bytes := [82, 79, 76, 76, 66, 65, 67, 75]

def kUpsert : Bytes := [85, 80, 83, 69, 82, 84]

def kLookup : Bytes := [76, 79, 79, 75, 85, 80]

def kDelete : Bytes := [68, 69, 76, 69, 84, 69]

def kScan : Bytes := [83, 67, 65, 78]

def token (tokens : List Bytes) (i : ℕ) : Except Fault Bytes := tokens[i]?.elim (.error .outOfRange) .ok

def createTable : Factory := fun tokens => do
  if tokens.length < 2 then return none
  if (← token tokens 0) ≠ kCreate then return none
  if (← token tokens 1) ≠ kTable then return none
  if tokens.length ≠ 3 then throw (.runtimeError "CREATE TABLE command requires exactly one table name." [])
  return some (.createTable (← token tokens 2))

/-- It asks for the second token if there is a first one. -/
def dropTable : Factory := fun tokens => do
  if tokens.isEmpty then return none
  if (← token tokens 0) ≠ kDrop then return none
  if (← token tokens 1) ≠ kTable then return none
  if tokens.length ≠ 3 then throw (.runtimeError "DROP TABLE command requires exactly one table name." [])
  return some (.dropTable (← token tokens 2))

/-- The commands that are known by their first token and then need a number of tokens. -/
def exactly (name : Bytes) (size : ℕ) (text : String) (make : List Bytes → Except Fault Command) : Factory :=
  fun tokens => do
    if tokens.isEmpty then return none
    if (← token tokens 0) ≠ name then return none
    if tokens.length ≠ size then throw (.runtimeError text [])
    return some (← make tokens)

def begin : Factory := exactly kBegin 1 "BEGIN command does not require any arguments." fun _ => return .begin

def commit : Factory := exactly kCommit 1 "COMMIT command does not require any arguments." fun _ => return .commit

def rollback :
    Factory := exactly kRollback 1 "ROLLBACK command does not require any arguments." fun _ => return .rollback

def upsert : Factory :=
  exactly kUpsert 4 "UPSERT command requires exactly three arguments: <table_name> <key> <value>" fun tokens =>
    return .upsert (← token tokens 1) (← token tokens 2) (← token tokens 3)

def lookup : Factory :=
  exactly kLookup 3 "LOOKUP command requires exactly two arguments: <table_name> <key>" fun tokens =>
    return .lookup (← token tokens 1) (← token tokens 2)

/-- With fewer than three tokens it is not recognised. -/
def delete : Factory := fun tokens => do
  if tokens.length < 3 then return none
  if (← token tokens 0) ≠ kDelete then return none
  if tokens.length ≠ 3 then
    throw (.runtimeError "DELETE command requires exactly two arguments: <table_name> <key>" [])
  return some (.delete (← token tokens 1) (← token tokens 2))

def scan : Factory := fun tokens => do
  if tokens.isEmpty then return none
  if (← token tokens 0) ≠ kScan then return none
  if tokens.length = 2 then return some (.scan (← token tokens 1) none none)
  if tokens.length = 3 then return some (.scan (← token tokens 1) (some (← token tokens 2)) none)
  if tokens.length = 4 then
    return some (.scan (← token tokens 1) (some (← token tokens 2)) (some (← token tokens 3)))
  throw (.runtimeError
    "SCAN command requires one or two optional arguments: <table_name> [<lower_bound> <upper_bound>]" [])

def commandFactories : List (Bytes × Factory) :=
  [(kCreate, createTable), (kDrop, dropTable), (kBegin, begin), (kCommit, commit), (kRollback, rollback),
    (kUpsert, upsert), (kLookup, lookup), (kDelete, delete), (kScan, scan)]

def parseCommand (line : Bytes) : Except Fault Command := do
  let tokens := split line space
  if tokens.isEmpty then throw (.runtimeError "Empty command." [])
  let cmd ← token tokens 0
  match commandFactories.lookup cmd with
  | none => throw (.runtimeError "Unknown command: " line)
  | some factory =>
    match ← factory tokens with
    | none => throw (.runtimeError "Unknown command: " line)
    | some command => return command

end Cli

end StructureDb
