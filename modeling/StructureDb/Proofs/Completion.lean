import StructureDb.Spec.Completion

/-! The completions of the CLI. A node of the trie stands for the set of the words that lead from it to an end of word;
`Add` puts one word into the set of the root, and `CollectSuffixes` lists the set of a node, each word once. So the
completions of a beginning are the commands that begin with it. -/

namespace StructureDb

namespace Cli

namespace Node

def Has (node : Node) (word : Bytes) : Prop := (node.walk word).any Node.isEndOfWord = true

@[simp] theorem has_nil {node : Node} : node.Has [] ↔ node.isEndOfWord = true := Iff.rfl

theorem has_cons {node : Node} {ch : Byte} {word : Bytes} :
    node.Has (ch :: word) ↔ ∃ child, node.children.find ch = some child ∧ child.Has word := by
  rw [Has, walk]
  rcases node.children.find ch with _ | child
  · simp
  · simp [Has]

end Node

namespace Children

variable {children : Children} {ch : Byte} {suffix word : Bytes} {f : Node → Node}

theorem find_update (ch : Byte) (f : Node → Node) (children : Children) (c : Byte) :
    (children.update ch f).find c =
      if c = ch then some (f ((children.find ch).getD ⟨false, nil⟩)) else children.find c := by
  induction children with
  | nil =>
    by_cases hc : c = ch
    · simp [update, find, hc]
    · simp [update, find, hc, Ne.symm hc]
  | cons c' isEndOfWord children rest _ ih =>
    by_cases hch : c' = ch
    · subst hch
      by_cases hc : c = c'
      · simp [update, find, hc]
      · simp [update, find, hc, Ne.symm hc]
    · by_cases hc : c' = c
      · subst hc
        simp [update, find, hch]
      · simp [update, find, hch, hc, ih]

theorem Distinct.of_find (h : children.Distinct) {child : Node} (hf : children.find ch = some child) :
    child.children.Distinct := by
  induction children with
  | nil => cases hf
  | cons c isEndOfWord children rest _ ih =>
    rw [find] at hf
    split_ifs at hf
    · cases hf
      exact h.2.1
    · exact ih h.2.2 hf

theorem Distinct.update (h : children.Distinct)
    (hf : ∀ node : Node, node.children.Distinct → (f node).children.Distinct) :
    (children.update ch f).Distinct := by
  induction children with
  | nil => exact ⟨rfl, hf _ trivial, trivial⟩
  | cons c isEndOfWord children rest _ ih =>
    obtain ⟨hc, hchildren, hrest⟩ := h
    rw [Children.update]
    split_ifs with hch
    · exact ⟨hc, hf _ hchildren, hrest⟩
    · refine ⟨?_, hchildren, ih hrest⟩
      rw [find_update, if_neg hch, hc]

/-- The words below the children, behind what led to them. -/
theorem mem_collect (h : children.Distinct) :
    word ∈ children.collect suffix ↔
      ∃ ch rest child, word = suffix ++ ch :: rest ∧ children.find ch = some child ∧ child.Has rest := by
  induction children generalizing suffix with
  | nil => simp [collect, find]
  | cons c isEndOfWord children others ih ih' =>
    obtain ⟨hc, hchildren, hothers⟩ := h
    rw [collect, List.mem_append, List.mem_append, ih hchildren, ih' hothers]
    constructor
    · rintro ((hend | ⟨ch, rest, child, rfl, hf, hh⟩) | ⟨ch, rest, child, rfl, hf, hh⟩)
      · split_ifs at hend with he
        · exact ⟨c, [], ⟨isEndOfWord, children⟩, List.mem_singleton.mp hend, by simp [find], by simpa using he⟩
        · cases hend
      · refine ⟨c, ch :: rest, ⟨isEndOfWord, children⟩, by simp, by simp [find], ?_⟩
        exact Node.has_cons.mpr ⟨child, hf, hh⟩
      · refine ⟨ch, rest, child, rfl, ?_, hh⟩
        have hne : c ≠ ch := by
          rintro rfl
          cases hc.symm.trans hf
        rw [find, if_neg hne, hf]
    · rintro ⟨ch, rest, child, rfl, hf, hh⟩
      rw [find] at hf
      split_ifs at hf with hch
      · cases hf
        subst hch
        refine Or.inl ?_
        cases rest with
        | nil => exact Or.inl (by rw [if_pos (by simpa using hh)]; exact List.mem_singleton.mpr rfl)
        | cons ch rest =>
          obtain ⟨child, hf, hh⟩ := Node.has_cons.mp hh
          exact Or.inr ⟨ch, rest, child, by simp, hf, hh⟩
      · exact Or.inr ⟨ch, rest, child, rfl, hf, hh⟩

theorem collect_nodup (h : children.Distinct) : (children.collect suffix).Nodup := by
  induction children generalizing suffix with
  | nil => exact List.nodup_nil
  | cons c isEndOfWord children others ih ih' =>
    obtain ⟨hc, hchildren, hothers⟩ := h
    rw [collect, List.nodup_append, List.nodup_append]
    refine ⟨⟨?_, ih hchildren, ?_⟩, ih' hothers, ?_⟩
    · split_ifs <;> simp
    -- a word that ends at the child is shorter than those below it
    · intro a ha b hb hab
      split_ifs at ha
      · rw [List.mem_singleton.mp ha] at hab
        obtain ⟨ch, rest, child, hb, -⟩ := (mem_collect hchildren).mp hb
        have hlen := congrArg List.length (hab.trans hb)
        simp only [List.length_append, List.length_cons, List.length_nil] at hlen
        omega
      · cases ha
    -- words of different children differ in the character behind the suffix
    · intro a ha b hb hab
      have hfirst : ∃ rest, a = suffix ++ c :: rest := by
        rcases List.mem_append.mp ha with hend | hbelow
        · split_ifs at hend
          · exact ⟨[], List.mem_singleton.mp hend⟩
          · cases hend
        · obtain ⟨ch, rest, child, ha, -⟩ := (mem_collect hchildren).mp hbelow
          exact ⟨ch :: rest, by simpa using ha⟩
      obtain ⟨rest, ha⟩ := hfirst
      obtain ⟨ch, rest', child, hb, hf, -⟩ := (mem_collect hothers).mp hb
      have heq := List.append_cancel_left (ha.symm.trans (hab.trans hb))
      rw [← (List.cons.inj heq).1, hc] at hf
      cases hf

end Children

namespace Node

variable {node : Node} {word suffix : Bytes}

theorem add_distinct (h : node.children.Distinct) (word : Bytes) : (node.add word).children.Distinct := by
  induction word generalizing node with
  | nil => exact h
  | cons ch word ih => exact h.update fun _ hn => ih hn

theorem has_add (node : Node) (word other : Bytes) : (node.add word).Has other ↔ other = word ∨ node.Has other := by
  induction word generalizing node other with
  | nil =>
    cases other with
    | nil => simp [add]
    | cons ch other => simp [add, has_cons]
  | cons c word ih =>
    cases other with
    | nil => simp [add]
    | cons ch other =>
      simp only [has_cons, add, Children.find_update]
      by_cases hch : ch = c
      · subst hch
        simp only [if_true, Option.some.injEq, exists_eq_left', ih, List.cons.injEq, true_and]
        refine or_congr_right ?_
        rcases node.children.find ch with _ | child
        · cases other <;> simp [has_cons, Children.find]
        · simp
      · simp [hch]

theorem mem_collectSuffixes (h : node.children.Distinct) :
    word ∈ node.collectSuffixes suffix ↔ ∃ rest, word = suffix ++ rest ∧ node.Has rest := by
  rw [collectSuffixes, List.mem_append, Children.mem_collect h]
  constructor
  · rintro (hend | ⟨ch, rest, child, rfl, hf, hh⟩)
    · split_ifs at hend with he
      · exact ⟨[], by simpa using List.mem_singleton.mp hend, he⟩
      · cases hend
    · exact ⟨ch :: rest, rfl, has_cons.mpr ⟨child, hf, hh⟩⟩
  · rintro ⟨rest, rfl, hh⟩
    cases rest with
    | nil =>
      rw [has_nil] at hh
      simp [hh]
    | cons ch rest =>
      obtain ⟨child, hf, hh⟩ := has_cons.mp hh
      exact Or.inr ⟨ch, rest, child, rfl, hf, hh⟩

theorem collectSuffixes_nodup (h : node.children.Distinct) : (node.collectSuffixes suffix).Nodup := by
  rw [collectSuffixes, List.nodup_append]
  refine ⟨?_, Children.collect_nodup h, ?_⟩
  · split_ifs <;> simp
  · intro a ha b hb hab
    split_ifs at ha
    · rw [List.mem_singleton.mp ha] at hab
      obtain ⟨ch, rest, child, hb, -⟩ := (Children.mem_collect h).mp hb
      have hlen := congrArg List.length (hab.trans hb)
      simp only [List.length_append, List.length_cons] at hlen
      omega
    · cases ha

theorem walk_distinct (h : node.children.Distinct) {path : Bytes} {last : Node} (hw : node.walk path = some last) :
    last.children.Distinct := by
  induction path generalizing node with
  | nil =>
    cases hw
    exact h
  | cons ch path ih =>
    rw [walk] at hw
    split at hw
    · cases hw
    · rename_i child hf
      exact ih (h.of_find hf) hw

theorem walk_append (node : Node) (path rest : Bytes) :
    node.walk (path ++ rest) = (node.walk path).bind fun last => last.walk rest := by
  induction path generalizing node with
  | nil => rfl
  | cons ch path ih =>
    rw [List.cons_append, walk, walk]
    split
    · rfl
    · exact ih _

end Node

namespace Trie

variable {t : Trie}

/-- The completions of a beginning are the words that have it. -/
theorem findCompletion_spec (h : t.root.children.Distinct) (start : Bytes) :
    (t.findCompletion start).Nodup ∧ ∀ word, word ∈ t.findCompletion start ↔ start <+: word ∧ t.root.Has word := by
  have hsplit : ∀ rest, t.root.Has (start ++ rest) ↔ ∃ last, t.root.walk start = some last ∧ last.Has rest := by
    intro rest
    rw [Node.Has, Node.walk_append]
    rcases t.root.walk start with _ | last
    · simp
    · simp [Node.Has]
  rw [findCompletion]
  split
  · rename_i hnone
    refine ⟨List.nodup_nil, fun word => ?_⟩
    refine iff_of_false List.not_mem_nil ?_
    rintro ⟨⟨rest, rfl⟩, hh⟩
    obtain ⟨last, hlast, -⟩ := (hsplit rest).mp hh
    cases hnone.symm.trans hlast
  · rename_i last hlast
    have hdistinct := Node.walk_distinct h hlast
    refine ⟨Node.collectSuffixes_nodup hdistinct, fun word => ?_⟩
    rw [Node.mem_collectSuffixes hdistinct]
    constructor
    · rintro ⟨rest, rfl, hh⟩
      exact ⟨List.prefix_append _ _, (hsplit rest).mpr ⟨last, hlast, hh⟩⟩
    · rintro ⟨⟨rest, rfl⟩, hh⟩
      obtain ⟨last', hlast', hh⟩ := (hsplit rest).mp hh
      rw [Option.some.inj (hlast.symm.trans hlast')]
      exact ⟨rest, rfl, hh⟩

end Trie

theorem lookup_tryEmplace {β : Type} (m : List (Bytes × β)) (key : Bytes) (value : β) (key' : Bytes) :
    (tryEmplace m key value).lookup key' = (m.lookup key').or (if key' = key then some value else none) := by
  unfold tryEmplace
  split_ifs with hsome hkey hkey
  · rw [hkey]
    obtain ⟨v, hv⟩ := Option.isSome_iff_exists.mp hsome
    rw [hv, Option.some_or]
  · rw [Option.or_none]
  · rw [List.lookup_append, hkey]
    simp
  · have hne : (key' == key) = false := by simpa using hkey
    rw [List.lookup_append, List.lookup_cons, hne, List.lookup_nil]

namespace CommandManager

structure Knows (m : CommandManager) (rs : List Registration) : Prop where
  distinct : m.completionTrie.root.children.Distinct
  words : ∀ cmd, m.completionTrie.root.Has cmd ↔ ∃ r ∈ rs, r.cmd = cmd
  factories : ∀ cmd, m.commandFactories.lookup cmd = (rs.find? fun r => cmd = r.cmd).map Registration.factory
  hints : ∀ cmd, m.hints.lookup cmd = (rs.find? fun r => cmd = r.cmd).map Registration.hint

theorem empty_knows : empty.Knows [] := by
  refine ⟨trivial, fun cmd => ?_, fun _ => rfl, fun _ => rfl⟩
  cases cmd with
  | nil => simp [empty, Trie.empty]
  | cons ch cmd => simp [empty, Trie.empty, Node.has_cons, Children.find]

theorem Knows.add {m : CommandManager} {rs : List Registration} (h : m.Knows rs) (r : Registration) :
    (m.add r).Knows (rs ++ [r]) := by
  have hfind : ∀ {β : Type} (f : Registration → β) (cmd : Bytes),
      ((rs ++ [r]).find? fun r => cmd = r.cmd).map f =
        ((rs.find? fun r => cmd = r.cmd).map f).or (if cmd = r.cmd then some (f r) else none) := by
    intro β f cmd
    rw [List.find?_append, Option.map_or, List.find?_singleton]
    by_cases hcmd : cmd = r.cmd <;> simp [hcmd]
  refine ⟨Node.add_distinct h.distinct _, ?_, ?_, ?_⟩
  · intro cmd
    rw [show (m.add r).completionTrie.root = m.completionTrie.root.add r.cmd from rfl, Node.has_add, h.words]
    simp only [List.mem_append, List.mem_singleton, or_and_right, exists_or, exists_eq_left]
    rw [or_comm, eq_comm]
  · intro cmd
    rw [hfind, ← h.factories]
    exact lookup_tryEmplace ..
  · intro cmd
    rw [hfind, ← h.hints]
    exact lookup_tryEmplace ..

theorem knows (rs : List Registration) : (rs.foldl CommandManager.add empty).Knows rs := by
  induction rs using List.reverseRecOn with
  | nil => exact empty_knows
  | append_singleton rs r ih =>
    rw [List.foldl_append]
    exact ih.add r

/-- Whatever commands were added: the completions of a beginning are those that begin with it, each once; the hint of
a command is the one it was first added with; and the first word of a line that is parsed is among the completions of
each of its beginnings. -/
theorem completions_exact (rs : List Registration) :
    (∀ start, ((rs.foldl CommandManager.add empty).findCompletion start).Nodup ∧
      ∀ cmd, cmd ∈ (rs.foldl CommandManager.add empty).findCompletion start ↔
        start <+: cmd ∧ ∃ r ∈ rs, r.cmd = cmd) ∧
    (∀ cmd, (rs.foldl CommandManager.add empty).getHint cmd =
      ((rs.find? fun r => cmd = r.cmd).map Registration.hint).getD []) ∧
    ∀ line command, (rs.foldl CommandManager.add empty).parseCommand line = .ok command →
      ∃ cmd ∈ (split line space).head?, ∀ n,
        cmd ∈ (rs.foldl CommandManager.add empty).findCompletion (cmd.take n) := by
  have h := knows rs
  have hcompletion : ∀ start cmd, cmd ∈ (rs.foldl CommandManager.add empty).findCompletion start ↔
      start <+: cmd ∧ ∃ r ∈ rs, r.cmd = cmd := by
    intro start cmd
    rw [← h.words]
    exact (Trie.findCompletion_spec h.distinct start).2 cmd
  refine ⟨fun start => ⟨(Trie.findCompletion_spec h.distinct start).1, hcompletion start⟩, ?_, ?_⟩
  · intro cmd
    rw [getHint, h.hints]
  · intro line command hparse
    rcases htokens : split line space with _ | ⟨cmd, tokens⟩
    · simp only [parseCommand, htokens] at hparse
      cases hparse
    · refine ⟨cmd, rfl, fun n => (hcompletion _ _).mpr ⟨List.take_prefix _ _, ?_⟩⟩
      have hfactory : ((rs.foldl CommandManager.add empty).commandFactories.lookup cmd).isSome = true := by
        by_contra hnone
        rw [Option.not_isSome_iff_eq_none] at hnone
        have hcmd : token (cmd :: tokens) 0 = .ok cmd := rfl
        simp only [parseCommand, htokens, hcmd] at hparse
        simp [bind, Except.bind, hnone] at hparse
      rw [h.factories, Option.isSome_map] at hfactory
      obtain ⟨r, hr⟩ := Option.isSome_iff_exists.mp hfactory
      have hcmd : cmd = r.cmd := by simpa using List.find?_some hr
      exact ⟨r, List.mem_of_find?_eq_some hr, hcmd.symm⟩

/-- The manager with the commands of the CLI parses a line as `ParseCommand` does. -/
theorem parseCommand_registered (line : Bytes) : (registerCommands empty).parseCommand line = Cli.parseCommand line :=
  rfl

/-- Two of the commands begin with a `C`, and a line that is parsed. -/
theorem completions_exact_registered :
    (∀ cmd, cmd ∈ (registerCommands empty).findCompletion [67] ↔ cmd = kCreate ∨ cmd = kCommit) ∧
      (registerCommands empty).getHint kScan = kScanHint ∧
      ∃ cmd ∈ (split kCommit space).head?, ∀ n, cmd ∈ (registerCommands empty).findCompletion (cmd.take n) := by
  obtain ⟨hcompletion, hhint, hparse⟩ := completions_exact registrations
  refine ⟨fun cmd => ?_, hhint kScan, hparse kCommit .commit rfl⟩
  rw [show registerCommands empty = registrations.foldl CommandManager.add empty from rfl, (hcompletion [67]).2]
  constructor
  · rintro ⟨hstart, r, hr, rfl⟩
    have hall : ∀ r ∈ registrations, [67] <+: r.cmd → r.cmd = kCreate ∨ r.cmd = kCommit := by decide
    exact hall r hr hstart
  · rintro (rfl | rfl)
    · exact ⟨by decide, ⟨kCreate, createTable, kTableHint⟩, List.mem_cons_self, rfl⟩
    · exact ⟨by decide, ⟨kCommit, commit, []⟩, List.mem_of_getElem? (i := 3) rfl, rfl⟩

end CommandManager

end Cli

end StructureDb
