import StructureDb.Spec.Cli

/-! Completion and hints of the CLI: the `Trie` of the command names and the `CommandManager` that holds it beside the
factories and the hints. An `unordered_map` of children is a list of them with distinct characters; in which order it is
walked is not specified, so nothing is said about the order of the completions. -/

namespace StructureDb

namespace Cli

/-- The children of a node; each entry has the character and then the two fields of the child. -/
inductive Children
  | nil
  | cons (ch : Byte) (isEndOfWord : Bool) (children : Children) (rest : Children)
deriving DecidableEq

structure Node where
  isEndOfWord : Bool
  children : Children
deriving DecidableEq

namespace Children

def find (ch : Byte) : Children → Option Node
  | nil => none
  | cons c isEndOfWord children rest => if c = ch then some ⟨isEndOfWord, children⟩ else rest.find ch

/-- One character of the loop of `Add`: the child is made if it is not there, and what follows is done to it. -/
def update (ch : Byte) (f : Node → Node) : Children → Children
  | nil => cons ch (f ⟨false, nil⟩).isEndOfWord (f ⟨false, nil⟩).children nil
  | cons c isEndOfWord children rest =>
    if c = ch then cons c (f ⟨isEndOfWord, children⟩).isEndOfWord (f ⟨isEndOfWord, children⟩).children rest
    else cons c isEndOfWord children (rest.update ch f)

/-- No two children have the same character, at any depth. -/
def Distinct : Children → Prop
  | nil => True
  | cons c _ children rest => rest.find c = none ∧ children.Distinct ∧ rest.Distinct

/-- The loop of `CollectSuffixes` over the children of a node. -/
def collect (suffix : Bytes) : Children → List Bytes
  | nil => []
  | cons c isEndOfWord children rest =>
    (if isEndOfWord then [suffix ++ [c]] else []) ++ children.collect (suffix ++ [c]) ++ rest.collect suffix

end Children

namespace Node

def add : Bytes → Node → Node
  | [], node => { node with isEndOfWord := true }
  | ch :: word, node => { node with children := node.children.update ch (add word) }

def walk : Bytes → Node → Option Node
  | [], node => some node
  | ch :: path, node =>
    match node.children.find ch with
    | none => none
    | some child => child.walk path

def collectSuffixes (node : Node) (suffix : Bytes) : List Bytes :=
  (if node.isEndOfWord then [suffix] else []) ++ node.children.collect suffix

end Node

structure Trie where
  root : Node

namespace Trie

def empty : Trie := ⟨⟨false, .nil⟩⟩

def add (t : Trie) (word : Bytes) : Trie := ⟨t.root.add word⟩

def findCompletion (t : Trie) (start : Bytes) : List Bytes :=
  match t.root.walk start with
  | none => []
  | some node => node.collectSuffixes start

end Trie

def tryEmplace {β : Type} (m : List (Bytes × β)) (key : Bytes) (value : β) : List (Bytes × β) :=
  if (m.lookup key).isSome then m else m ++ [(key, value)]

structure CommandManager where
  completionTrie : Trie
  hints : List (Bytes × Bytes)
  commandFactories : List (Bytes × Factory)

namespace CommandManager

def empty : CommandManager := ⟨Trie.empty, [], []⟩

structure Registration where
  cmd : Bytes
  factory : Factory
  hint : Bytes

def add (m : CommandManager) (r : Registration) : CommandManager where
  completionTrie := m.completionTrie.add r.cmd
  commandFactories := tryEmplace m.commandFactories r.cmd r.factory
  hints := tryEmplace m.hints r.cmd r.hint

def findCompletion (m : CommandManager) (start : Bytes) : List Bytes := m.completionTrie.findCompletion start

/-- `kNoHint` is empty. -/
def getHint (m : CommandManager) (key : Bytes) : Bytes := (m.hints.lookup key).getD []

/-- `ParseCommand` with the commands that were added. -/
def parseCommand (m : CommandManager) (line : Bytes) : Except Fault Command := do
  let tokens := split line space
  if tokens.isEmpty then throw (.runtimeError "Empty command." [])
  let cmd ← token tokens 0
  match m.commandFactories.lookup cmd with
  | none => throw (.runtimeError "Unknown command: " line)
  | some factory =>
    match ← factory tokens with
    | none => throw (.runtimeError "Unknown command: " line)
    | some command => return command

end CommandManager

/-- `" TABLE <table_name>"` -/
def kTableHint : Bytes := [32, 84, 65, 66, 76, 69, 32, 60, 116, 97, 98, 108, 101, 95, 110, 97, 109, 101, 62]

/-- `" <table_name> <key> <value>"` -/
def kUpsertHint : Bytes :=
  [32, 60, 116, 97, 98, 108, 101, 95, 110, 97, 109, 101, 62, 32, 60, 107, 101, 121, 62, 32, 60, 118, 97, 108, 117,
    101, 62]

/-- `" <table_name> <key>"` -/
def kKeyHint : Bytes := [32, 60, 116, 97, 98, 108, 101, 95, 110, 97, 109, 101, 62, 32, 60, 107, 101, 121, 62]

/-- `" <table_name> [<lower_bound> <upper_bound>]"` -/
def kScanHint : Bytes :=
  [32, 60, 116, 97, 98, 108, 101, 95, 110, 97, 109, 101, 62, 32, 91, 60, 108, 111, 119, 101, 114, 95, 98, 111, 117,
    110, 100, 62, 32, 60, 117, 112, 112, 101, 114, 95, 98, 111, 117, 110, 100, 62, 93]

def registrations : List CommandManager.Registration :=
  [⟨kCreate, createTable, kTableHint⟩, ⟨kDrop, dropTable, kTableHint⟩, ⟨kBegin, begin, []⟩,
    ⟨kCommit, commit, []⟩, ⟨kRollback, rollback, []⟩, ⟨kUpsert, upsert, kUpsertHint⟩,
      ⟨kLookup, lookup, kKeyHint⟩, ⟨kDelete, delete, kKeyHint⟩,
    ⟨kScan, scan, kScanHint⟩]

def registerCommands (m : CommandManager) : CommandManager := registrations.foldl CommandManager.add m

end Cli

end StructureDb
