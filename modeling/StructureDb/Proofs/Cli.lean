import StructureDb.Spec.Cli

/-! What `ParseCommand` accepts is the documented grammar. The tokens of a line are what the line
is with spaces between them, so acceptance is a matter of tokens. -/

namespace StructureDb

namespace Cli

/-- The grammar. A scan has no upper bound without a lower one. -/
def Command.tokens : Command → Option (List Bytes)
  | .createTable tableName => some [kCreate, kTable, tableName]
  | .dropTable tableName => some [kDrop, kTable, tableName]
  | .begin => some [kBegin]
  | .commit => some [kCommit]
  | .rollback => some [kRollback]
  | .upsert tableName key value => some [kUpsert, tableName, key, value]
  | .lookup tableName key => some [kLookup, tableName, key]
  | .delete tableName key => some [kDelete, tableName, key]
  | .scan tableName none none => some [kScan, tableName]
  | .scan tableName (some lower) none => some [kScan, tableName, lower]
  | .scan tableName (some lower) (some upper) => some [kScan, tableName, lower, upper]
  | .scan _ none (some _) => none

def Spells (tokens : List Bytes) (line : Bytes) : Prop :=
  (∀ t ∈ tokens, space ∉ t) ∧ [space].intercalate tokens = line

/-! ### Split -/

theorem splitRounds_spec {delimiter : Byte} {rounds : ℕ} {str : Bytes} (h : str.length ≤ rounds) :
    splitRounds delimiter rounds str = str.splitOn delimiter ∧
      ∀ t ∈ splitRounds delimiter rounds str, delimiter ∉ t := by
  induction rounds generalizing str with
  | zero =>
    rw [List.eq_nil_of_length_eq_zero (Nat.le_zero.mp h)]
    simp [splitRounds]
  | succ rounds ih =>
    rw [splitRounds]
    cases hpos : str.idxOf? delimiter with
    | none =>
      rw [List.idxOf?_eq_none_iff] at hpos
      refine ⟨(List.splitOnP_eq_singleton fun x hx => ?_).symm, by simpa using hpos⟩
      exact beq_false_of_ne fun he => hpos (he ▸ hx)
    | some pos =>
      obtain ⟨hlt, hat, hfirst⟩ := List.idxOf?_eq_some_iff.mp hpos
      have hsplit : str = str.take pos ++ delimiter :: str.drop (pos + 1) := by
        rw [← hat, List.cons_getElem_drop_succ, List.take_append_drop]
      have hfree : delimiter ∉ str.take pos := by
        intro hmem
        obtain ⟨j, hj, he⟩ := List.mem_take_iff_getElem.mp hmem
        exact hfirst j (lt_min_iff.mp hj).1 he
      have hshorter : (str.drop (pos + 1)).length ≤ rounds := by
        rw [List.length_drop]
        omega
      obtain ⟨heq, hrest⟩ := ih hshorter
      refine ⟨?_, List.forall_mem_cons.mpr ⟨hfree, hrest⟩⟩
      dsimp only
      rw [heq]
      conv_rhs => rw [hsplit]
      have hbefore : ∀ x ∈ str.take pos, (x == delimiter) = false :=
        fun x hx => beq_false_of_ne fun he => hfree (he ▸ hx)
      exact (List.splitOnP_append_cons_of_forall_mem hbefore delimiter (beq_self_eq_true delimiter) _).symm

theorem split_eq_iff {line : Bytes} {tokens : List Bytes} (hne : tokens ≠ []) :
    split line space = tokens ↔ Spells tokens line := by
  obtain ⟨heq, hfree⟩ := @splitRounds_spec space _ _ (le_refl line.length)
  constructor
  · rintro rfl
    refine ⟨hfree, ?_⟩
    rw [split, heq]
    exact List.intercalate_splitOn space
  · rintro ⟨htokens, rfl⟩
    rw [split, heq]
    exact List.splitOn_intercalate space htokens hne

theorem split_ne_nil (line : Bytes) : split line space ≠ [] := by
  unfold split
  cases line.length with
  | zero => exact List.cons_ne_nil _ _
  | succ rounds =>
    rw [splitRounds]
    split
    · exact List.cons_ne_nil _ _
    · exact List.cons_ne_nil _ _

/-! ### The commands -/

@[simp] theorem token_zero (a : Bytes) (rest : List Bytes) : token (a :: rest) 0 = .ok a := by
  rw [token, List.getElem?_cons_zero, Option.elim_some]

/-- No fault but `runtime_error`, and no command that is not in the grammar. -/
def Parses (factory : Factory) (tokens : List Bytes) : Prop :=
  factory tokens = .ok none ∨ (∃ text, factory tokens = .error (.runtimeError text [])) ∨
    ∃ command : Command, command.tokens = some tokens ∧ factory tokens = .ok (some command)

theorem createTable_parses (tokens : List Bytes) : Parses createTable tokens := by
  rcases tokens with _ | ⟨a, _ | ⟨b, rest⟩⟩
  · exact Or.inl rfl
  · exact Or.inl rfl
  · by_cases ha : a = kCreate
    · by_cases hb : b = kTable
      · subst ha hb
        rcases rest with _ | ⟨t, _ | ⟨u, rest⟩⟩
        · exact Or.inr (Or.inl ⟨_, rfl⟩)
        · exact Or.inr (Or.inr ⟨.createTable t, rfl, rfl⟩)
        · exact Or.inr (Or.inl ⟨_, rfl⟩)
      · exact Or.inl (by simp [createTable, token, bind, Except.bind, pure, Except.pure, ha, hb])
    · exact Or.inl (by simp [createTable, token, bind, Except.bind, pure, Except.pure, ha])

theorem dropTable_parses {tokens : List Bytes} (hne : tokens ≠ [kDrop]) : Parses dropTable tokens := by
  rcases tokens with _ | ⟨a, rest⟩
  · exact Or.inl rfl
  · by_cases ha : a = kDrop
    · subst ha
      rcases rest with _ | ⟨b, rest⟩
      · exact absurd rfl hne
      · by_cases hb : b = kTable
        · subst hb
          rcases rest with _ | ⟨t, _ | ⟨u, rest⟩⟩
          · exact Or.inr (Or.inl ⟨_, rfl⟩)
          · exact Or.inr (Or.inr ⟨.dropTable t, rfl, rfl⟩)
          · exact Or.inr (Or.inl ⟨_, rfl⟩)
        · exact Or.inl (by simp [dropTable, token, bind, Except.bind, pure, Except.pure, hb])
    · exact Or.inl (by simp [dropTable, token, bind, Except.bind, pure, Except.pure, ha])

theorem exactly_parses {name : Bytes} {size : ℕ} {text : String} {make : List Bytes → Except Fault Command}
    (hmake : ∀ rest, (name :: rest).length = size →
      ∃ command : Command, command.tokens = some (name :: rest) ∧ make (name :: rest) = .ok command)
    (tokens : List Bytes) : Parses (exactly name size text make) tokens := by
  rcases tokens with _ | ⟨a, rest⟩
  · exact Or.inl rfl
  · by_cases ha : a = name
    · subst ha
      by_cases hsize : (a :: rest).length = size
      · obtain ⟨command, htokens, hcommand⟩ := hmake rest hsize
        refine Or.inr (Or.inr ⟨command, htokens, ?_⟩)
        rw [List.length_cons] at hsize
        simp [exactly, bind, Except.bind, pure, Except.pure, hsize, hcommand]
      · refine Or.inr (Or.inl ⟨text, ?_⟩)
        rw [List.length_cons] at hsize
        simp [exactly, bind, Except.bind, throw, throwThe, MonadExceptOf.throw, hsize]
    · exact Or.inl (by simp [exactly, bind, Except.bind, pure, Except.pure, ha])

theorem begin_parses : ∀ tokens, Parses begin tokens := by
  refine exactly_parses ?_
  rintro (_ | ⟨a, rest⟩) hsize
  · exact ⟨.begin, rfl, rfl⟩
  · cases hsize

theorem commit_parses : ∀ tokens, Parses commit tokens := by
  refine exactly_parses ?_
  rintro (_ | ⟨a, rest⟩) hsize
  · exact ⟨.commit, rfl, rfl⟩
  · cases hsize

theorem rollback_parses : ∀ tokens, Parses rollback tokens := by
  refine exactly_parses ?_
  rintro (_ | ⟨a, rest⟩) hsize
  · exact ⟨.rollback, rfl, rfl⟩
  · cases hsize

theorem upsert_parses : ∀ tokens, Parses upsert tokens := by
  refine exactly_parses ?_
  rintro (_ | ⟨t, _ | ⟨k, _ | ⟨v, _ | ⟨a, rest⟩⟩⟩⟩) hsize
  · cases hsize
  · cases hsize
  · cases hsize
  · exact ⟨.upsert t k v, rfl, rfl⟩
  · cases hsize

theorem lookup_parses : ∀ tokens, Parses lookup tokens := by
  refine exactly_parses ?_
  rintro (_ | ⟨t, _ | ⟨k, _ | ⟨a, rest⟩⟩⟩) hsize
  · cases hsize
  · cases hsize
  · exact ⟨.lookup t k, rfl, rfl⟩
  · cases hsize

theorem delete_parses (tokens : List Bytes) : Parses delete tokens := by
  rcases tokens with _ | ⟨a, _ | ⟨t, _ | ⟨k, rest⟩⟩⟩
  · exact Or.inl rfl
  · exact Or.inl rfl
  · exact Or.inl rfl
  · by_cases ha : a = kDelete
    · subst ha
      rcases rest with _ | ⟨u, rest⟩
      · exact Or.inr (Or.inr ⟨.delete t k, rfl, rfl⟩)
      · exact Or.inr (Or.inl ⟨_, rfl⟩)
    · exact Or.inl (by simp [delete, bind, Except.bind, pure, Except.pure, ha])

theorem scan_parses (tokens : List Bytes) : Parses scan tokens := by
  rcases tokens with _ | ⟨a, rest⟩
  · exact Or.inl rfl
  · by_cases ha : a = kScan
    · subst ha
      rcases rest with _ | ⟨t, _ | ⟨lower, _ | ⟨upper, _ | ⟨u, rest⟩⟩⟩⟩
      · exact Or.inr (Or.inl ⟨_, rfl⟩)
      · exact Or.inr (Or.inr ⟨.scan t none none, rfl, rfl⟩)
      · exact Or.inr (Or.inr ⟨.scan t (some lower) none, rfl, rfl⟩)
      · exact Or.inr (Or.inr ⟨.scan t (some lower) (some upper), rfl, rfl⟩)
      · exact Or.inr (Or.inl ⟨_, rfl⟩)
    · exact Or.inl (by simp [scan, bind, Except.bind, pure, Except.pure, ha])

theorem commandFactories_parses {name : Bytes} {factory : Factory} (h : (name, factory) ∈ commandFactories)
    {tokens : List Bytes} (hne : tokens ≠ [kDrop]) : Parses factory tokens := by
  simp only [commandFactories, List.mem_cons, Prod.mk.injEq, List.not_mem_nil, or_false] at h
  rcases h with ⟨-, rfl⟩ | ⟨-, rfl⟩ | ⟨-, rfl⟩ | ⟨-, rfl⟩ | ⟨-, rfl⟩ | ⟨-, rfl⟩ | ⟨-, rfl⟩ |
    ⟨-, rfl⟩ | ⟨-, rfl⟩
  · exact createTable_parses tokens
  · exact dropTable_parses hne
  · exact begin_parses tokens
  · exact commit_parses tokens
  · exact rollback_parses tokens
  · exact upsert_parses tokens
  · exact lookup_parses tokens
  · exact delete_parses tokens
  · exact scan_parses tokens

/-! ### Lines -/

theorem parseCommand_of_tokens {line : Bytes} {command : Command} (h : command.tokens = some (split line space)) :
    parseCommand line = .ok command := by
  unfold parseCommand
  cases command with
  | scan tableName lowerBound upperBound =>
    cases lowerBound with
    | none =>
      cases upperBound with
      | none => rw [← Option.some.inj h]; rfl
      | some upper => cases h
    | some lower =>
      cases upperBound with
      | none => rw [← Option.some.inj h]; rfl
      | some upper => rw [← Option.some.inj h]; rfl
  | createTable tableName => rw [← Option.some.inj h]; rfl
  | dropTable tableName => rw [← Option.some.inj h]; rfl
  | begin => rw [← Option.some.inj h]; rfl
  | commit => rw [← Option.some.inj h]; rfl
  | rollback => rw [← Option.some.inj h]; rfl
  | upsert tableName key value => rw [← Option.some.inj h]; rfl
  | lookup tableName key => rw [← Option.some.inj h]; rfl
  | delete tableName key => rw [← Option.some.inj h]; rfl

/-- What comes of a line that is not the word that breaks `DROP`. -/
theorem parseCommand_cases {line : Bytes} (hline : split line space ≠ [kDrop]) :
    (∃ text line', parseCommand line = .error (.runtimeError text line')) ∨
      ∃ command : Command, command.tokens = some (split line space) ∧ parseCommand line = .ok command := by
  unfold parseCommand
  obtain ⟨name, rest, htokens⟩ := List.exists_cons_of_ne_nil (split_ne_nil line)
  rw [htokens] at hline ⊢
  cases hl : commandFactories.lookup name with
  | none =>
    exact Or.inl ⟨"Unknown command: ", line, by simp [bind, Except.bind, throw, throwThe, MonadExceptOf.throw, hl]⟩
  | some factory =>
    obtain ⟨l₁, l₂, hmem, -⟩ := List.lookup_eq_some_iff.mp hl
    have hfactory : (name, factory) ∈ commandFactories := by rw [hmem]; simp
    rcases commandFactories_parses hfactory hline with h | ⟨text, h⟩ | ⟨command, hcommand, h⟩
    · exact Or.inl ⟨"Unknown command: ", line, by simp [bind, Except.bind, throw, throwThe, MonadExceptOf.throw, hl, h]⟩
    · exact Or.inl ⟨text, [], by simp [bind, Except.bind, hl, h]⟩
    · exact Or.inr ⟨command, hcommand, by simp [bind, Except.bind, pure, Except.pure, hl, h]⟩

/-- Every line but one gives the command of the grammar that it spells, or a `runtime_error`. -/
theorem parse_grammar (line : Bytes) (hline : line ≠ kDrop) :
    (∀ command, parseCommand line = .ok command ↔ ∃ tokens, command.tokens = some tokens ∧ Spells tokens line) ∧
      ∀ fault, parseCommand line = .error fault → ∃ text line', fault = .runtimeError text line' := by
  have hspells : Spells (split line space) line := (split_eq_iff (split_ne_nil line)).mp rfl
  have hdrop : split line space ≠ [kDrop] := by
    intro h
    rw [h] at hspells
    exact hline (hspells.2.symm.trans (by simp))
  refine ⟨fun command => ⟨?_, ?_⟩, ?_⟩
  · intro h
    rcases parseCommand_cases hdrop with ⟨text, line', he⟩ | ⟨command', htokens, he⟩
    · cases he.symm.trans h
    · obtain rfl := Except.ok.inj (he.symm.trans h)
      exact ⟨_, htokens, hspells⟩
  · rintro ⟨tokens, htokens, h⟩
    have hne : tokens ≠ [] := by
      rintro rfl
      cases command with
      | scan tableName lowerBound upperBound => cases lowerBound <;> cases upperBound <;> cases htokens
      | _ => cases htokens
    exact parseCommand_of_tokens (by rw [(split_eq_iff hne).mpr h]; exact htokens)
  · intro fault h
    rcases parseCommand_cases hdrop with ⟨text, line', he⟩ | ⟨command', -, he⟩
    · exact ⟨text, line', Except.error.inj (h.symm.trans he)⟩
    · cases he.symm.trans h

/-- `SCAN t 1` -/
theorem parse_grammar_scan :
    [83, 67, 65, 78, 32, 116, 32, 49] ≠ kDrop ∧
      (parseCommand [83, 67, 65, 78, 32, 116, 32, 49] = .ok (.scan [116] (some [49]) none) ↔
        ∃ tokens, (Command.scan [116] (some [49]) none).tokens = some tokens ∧
          Spells tokens [83, 67, 65, 78, 32, 116, 32, 49]) :=
  ⟨by decide, (parse_grammar [83, 67, 65, 78, 32, 116, 32, 49] (by decide)).1 _⟩

/-- `DROP` alone: `tokens[1]` is beyond the end. -/
theorem drop_alone : parseCommand kDrop = .error .outOfRange := rfl

end Cli

end StructureDb
