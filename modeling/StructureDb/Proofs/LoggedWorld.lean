import StructureDb.Proofs.Durability
import StructureDb.Proofs.Rebuild
import StructureDb.Proofs.ReplicaTrees

/-! What the log of a running database tells. The records of every storage are numbered from one on, and a transaction
writes nothing behind its commit event; so what is committed to a key can be read off the log. The log does not depend
on flushes and compactions: a database is compared with its twin, which makes none and so has every version. -/

namespace StructureDb

/-- The value of a key by the events of a log: that of its last version whose transaction has a commit event. -/
def committedIn (events : List Event) (id key : Bytes) : Option Bytes :=
  ((logOf id events).reverse.find? fun row => row.key = key ∧ .commit row.value.tx ∈ events).bind
    fun row => row.value.payload

/-- Not a commit event before a version of the same transaction. -/
def Event.Apart (a b : Event) : Prop :=
  ∀ tx id seqNo key value, a = .commit tx → b = .upsert id seqNo key value → value.tx ≠ tx

namespace World

variable {o : Options} {v v' w w' : World} {events : List Event} {op : Op}

structure Logs (v : World) (events : List Event) : Prop where
  kept : v.Kept events
  whole : v.db.Whole events
  numbers : ∀ id, Lsm.FromOne (logOf id events)
  apart : events.Pairwise Event.Apart
  unfrozen : ∀ id, ∀ row ∈ logOf id events, row.value.isFrozen = false

namespace Logs

theorem start (o : Options) : (start o).Logs [] :=
  ⟨start_kept o, Db.Whole.start o, fun _ => trivial, List.Pairwise.nil, by simp [logOf]⟩

theorem congr (hv : v.Logs events) (hk : v'.Kept events) (hw : v'.db.Whole events) : v'.Logs events :=
  ⟨hk, hw, hv.numbers, hv.apart, hv.unfrozen⟩

theorem commit (hv : v.Logs events) {h : Label} {t : TransactionId} (ht : v.tx h = some t)
    (hi : World.Inv { v with db := v.db.commit t, hist := .commit h :: v.hist }) :
    Logs { v with db := v.db.commit t, hist := .commit h :: v.hist } (events ++ [.commit t]) := by
  have hlog : ∀ id, logOf id (events ++ [.commit t]) = logOf id events :=
    fun id => (logOf_append ..).trans (List.append_nil _)
  refine ⟨hv.kept.commit ht hi, hv.whole.commit t, fun id => hlog id ▸ hv.numbers id, ?_,
    fun id => hlog id ▸ hv.unfrozen id⟩
  refine List.pairwise_append.mpr ⟨hv.apart, List.pairwise_singleton _ _, ?_⟩
  intro a _ b hb tx id seqNo key value _ he
  rw [List.mem_singleton.mp hb] at he
  cases he

theorem write (hv : v.Logs events) {h : Label} {t : TransactionId} {id key : Bytes} {value : TransactionalValue}
    (ht : v.tx h = some t) (htx : value.tx = t) (hf : value.isFrozen = false)
    (hsize : ∀ n, (Event.upsert id n key value).size ≤ kWalPageSize) (hs : v.writeRow o h id key value = some v')
    (hi : v'.Inv) : ∃ seqNo, v'.Logs (events ++ [.upsert id seqNo key value]) := by
  obtain ⟨n, hkept⟩ := hv.kept.write ht htx hf hsize hs hi
  obtain ⟨txStorage, db, seqNo, -, hu, rfl⟩ := writeRow_cases hs
  have hlocked : Db.Whole { v.db with txStorage } events := hv.whole.congr rfl rfl
  have hwhole := hlocked.put (hsize seqNo) hu
  obtain ⟨l, hl, hseq, -⟩ := Db.engineUpsert_cases hu
  have hlen : seqNo = 1 + (logOf id events).length := by
    rw [hseq, (hv.whole.trees id l hl).next, Nat.add_comm]
  -- the number in the log is that of the tree
  have hn : n = seqNo := by
    have hmem : Event.upsert id seqNo key value ∈ events ++ [.upsert id n key value] := by
      rw [hkept.durable.mem_events, ← hwhole.durable.mem_events]
      exact List.mem_append_right _ (List.mem_singleton.mpr rfl)
    rcases List.mem_append.mp hmem with hold | hnew
    · have hrow : (⟨key, seqNo, value⟩ : Row) ∈ logOf id events := mem_logOf.mpr hold
      have hlt := ((hv.numbers id).bounds _ hrow).2
      exact absurd hlt (by simp only; omega)
    · cases List.mem_singleton.mp hnew
      rfl
  subst hn
  refine ⟨n, hkept, hwhole, ?_, ?_, ?_⟩
  · intro id'
    rw [logOf_append, logOf_singleton, Lsm.FromOne, Consecutive.from_append]
    refine ⟨hv.numbers id', ?_⟩
    split_ifs with hid
    · subst hid
      exact ⟨hlen, trivial⟩
    · trivial
  · refine List.pairwise_append.mpr ⟨hv.apart, List.pairwise_singleton _ _, ?_⟩
    intro a ha b hb tx id' n' key' value' hcommit he
    rw [List.mem_singleton.mp hb] at he
    cases he
    rintro rfl
    -- its transaction runs
    have hdone := (hv.kept.commits _ (hcommit ▸ ha)).1
    rw [htx, TxStorage.not_committed_of_started (txOf_eq_some.mp ht).2] at hdone
    cases hdone
  · intro id' row hrow
    rw [logOf_append, logOf_singleton, List.mem_append] at hrow
    rcases hrow with hold | hnew
    · exact hv.unfrozen id' row hold
    · split_ifs at hnew
      · rw [List.mem_singleton.mp hnew]
        exact hf
      · cases hnew

theorem rows_eq (hv : v.Logs events) (id key : Bytes) :
    v.db.rows id key = ((logOf id events).filter fun row => row.key = key).reverse := by
  rcases hl : v.db.storages id with _ | l
  · have hlog : logOf id events = [] := by
      by_contra hne
      have hsome := hv.whole.durable.known id hne
      rw [hl] at hsome
      cases hsome
    rw [Db.rows_of_none hl, hlog]
    rfl
  · rw [Db.rows_of_some hl]
    exact (hv.whole.trees id l hl).records_of_key (hv.kept.inv.ordered id l hl) (hv.numbers id) key

end Logs

theorem committedIn_eq (events : List Event) (id key : Bytes) :
    committedIn events id key =
      (((logOf id events).filter fun row => row.key = key).reverse.find? fun row => .commit row.value.tx ∈ events).bind
        fun row => row.value.payload := by
  rw [← List.filter_reverse, List.find?_filter, committedIn]
  simp only [decide_eq_true_eq]

theorem Logs.committedIn (hv : v.Logs events) (id key : Bytes) :
    StructureDb.committedIn events id key = (TxMap.committed (id, key) v.hist).join := by
  rw [committedIn_eq, ← hv.rows_eq, ← hv.kept.inv.refines.committed id key]
  have hlogged : ∀ row ∈ v.db.rows id key, row.value.isFrozen = false := by
    intro row hrow
    rw [hv.rows_eq, List.mem_reverse, List.mem_filter] at hrow
    exact hv.unfrozen id row hrow.1
  refine congrArg (fun r => Option.bind r _) (FirstOf.find?_eq_of_first ?_ ?_)
  · intro row _ hc
    rw [TxStorage.seen, (hv.kept.commits _ (of_decide_eq_true hc)).1, Bool.or_true]
  · intro row hrow
    rcases hv.kept.seen id key row hrow with hfrozen | hc
    · rw [hlogged row (List.mem_of_find?_eq_some hrow)] at hfrozen
      cases hfrozen
    · exact decide_eq_true hc

/-- The same transactions, log and history, and the same next number of every storage. -/
structure Twin (w v : World) : Prop where
  txStorage : w.db.txStorage = v.db.txStorage
  wal : w.db.wal = v.db.wal
  begun : w.begun = v.begun
  hist : w.hist = v.hist
  written : w.written = v.written
  next : ∀ id, (w.db.storages id).map Lsm.nextSeqNo = (v.db.storages id).map Lsm.nextSeqNo

namespace Twin

theorem tx (h : w.Twin v) (label : Label) : w.tx label = v.tx label := by
  rw [World.tx, World.tx, h.txStorage, h.begun]

theorem isSome (h : w.Twin v) (id : Bytes) : (w.db.storages id).isSome = (v.db.storages id).isSome := by
  rw [← Option.isSome_map (f := Lsm.nextSeqNo), h.next, Option.isSome_map]

theorem congr (h : w.Twin v) {db : Db} (htx : db.txStorage = w.db.txStorage) (hwal : db.wal = w.db.wal)
    (hnext : ∀ id, (db.storages id).map Lsm.nextSeqNo = (w.db.storages id).map Lsm.nextSeqNo) :
    Twin { w with db } v :=
  ⟨htx.trans h.txStorage, hwal.trans h.wal, h.begun, h.hist, h.written, fun id => (hnext id).trans (h.next id)⟩

theorem next_update {f g : Bytes → Option (Lsm TransactionalValue)} {l m : Lsm TransactionalValue} {id : Bytes}
    (h : ∀ id, (f id).map Lsm.nextSeqNo = (g id).map Lsm.nextSeqNo) (hn : l.nextSeqNo = m.nextSeqNo) (id' : Bytes) :
    (Function.update f id (some l) id').map Lsm.nextSeqNo = (Function.update g id (some m) id').map Lsm.nextSeqNo := by
  by_cases hid : id' = id
  · rw [hid, Function.update_self, Function.update_self, Option.map_some, Option.map_some, hn]
  · rw [Function.update_of_ne hid, Function.update_of_ne hid]
    exact h id'

theorem writeRow (ht : w.Twin v) {h : Label} {id key : Bytes} {value : TransactionalValue}
    (hs : w.writeRow o h id key value = some w') : ∃ v', v.writeRow o h id key value = some v' ∧ w'.Twin v' := by
  obtain ⟨txStorage, db, seqNo, hl, hu, rfl⟩ := writeRow_cases hs
  obtain ⟨l, hlw, hseq, rfl⟩ := Db.engineUpsert_cases hu
  obtain ⟨m, hm⟩ : ∃ m, v.db.storages id = some m := by
    rw [← Option.isSome_iff_exists, ← ht.isSome]
    exact Option.isSome_iff_exists.mpr ⟨l, hlw⟩
  have hnext : l.nextSeqNo = m.nextSeqNo := by
    have h := ht.next id
    rw [show w.db.storages id = some l from hlw, hm] at h
    exact Option.some.inj h
  have hwrite : v.writeRow o h id key value = some { v with
      db := { { v.db with txStorage }.setStorage id (m.put o key value).1 with
        wal := v.db.wal.write (.upsert id m.nextSeqNo key value) }
      hist := .write h (id, key) value.payload :: v.hist
      written := (h, id, ⟨key, m.nextSeqNo, value⟩) :: v.written } := by
    simp only [World.writeRow, Db.writeRow, ← ht.txStorage, hl, Db.engineUpsert, hm]
    rfl
  refine ⟨_, hwrite, rfl, ?_, ht.begun, ?_, ?_, ?_⟩
  · change w.db.wal.write _ = v.db.wal.write _
    rw [ht.wal, hseq, hnext]
  · exact congrArg (TxMap.Event.write h (id, key) value.payload :: ·) ht.hist
  · change (h, id, (⟨key, seqNo, value⟩ : Row)) :: w.written = _ :: v.written
    rw [ht.written, hseq, hnext]
  · have hput : ∀ k : Lsm TransactionalValue, (k.put o key value).1.nextSeqNo = k.nextSeqNo + 1 :=
      fun k => Lsm.doPut_nextSeqNo ..
    refine next_update ht.next ?_
    rw [hput, hput, hnext]

theorem addStorage (ht : w.Twin v) {id : Bytes} {db : Db} (hdb : w.db.addStorage id = some db) :
    ∃ db', v.db.addStorage id = some db' ∧ Twin { w with db } { v with db := db' } := by
  obtain ⟨hid, hnone, rfl⟩ := Db.addStorage_cases hdb
  have hsome := ht.isSome id
  rw [hnone] at hsome
  refine ⟨v.db.setStorage id (Lsm.init Dir.empty), if_neg ?_, ht.txStorage, ht.wal, ht.begun, ht.hist, ht.written, ?_⟩
  · rw [← hsome]
    simpa using hid
  · exact next_update ht.next rfl

end Twin

/-- A leader that goes on running and keeps its log. -/
def Ships (w : World) : Op → Prop
  | .compact id => w.db.CompactHarmless id
  | .clean => False
  | .restart => False
  | op => op.FitsPage

instance (w : World) : (op : Op) → Decidable (w.Ships op)
  | .compact id => inferInstanceAs (Decidable (w.db.CompactHarmless id))
  | .clean | .restart => isFalse id
  | .begin h => inferInstanceAs (Decidable (Op.begin h).FitsPage)
  | .upsert h id key value => inferInstanceAs (Decidable (Op.upsert h id key value).FitsPage)
  | .delete h id key => inferInstanceAs (Decidable (Op.delete h id key).FitsPage)
  | .deleteFound h id key => inferInstanceAs (Decidable (Op.deleteFound h id key).FitsPage)
  | .commit h => inferInstanceAs (Decidable (Op.commit h).FitsPage)
  | .rollback h => inferInstanceAs (Decidable (Op.rollback h).FitsPage)
  | .addStorage id => inferInstanceAs (Decidable (Op.addStorage id).FitsPage)
  | .flush => inferInstanceAs (Decidable Op.flush.FitsPage)

theorem Ships.calm (h : w.Ships op) : w.Calm op := by
  cases op with
  | compact id => exact h
  | restart => exact h
  | _ => trivial

structure Source (w : World) (events : List Event) : Prop where
  inv : w.Inv
  twin : ∃ v, w.Twin v ∧ v.Logs events

namespace Source

theorem start (o : Options) : (start o).Source [] :=
  ⟨start_inv o, World.start o, ⟨rfl, rfl, rfl, rfl, rfl, fun _ => rfl⟩, Logs.start o⟩

theorem step (hw : w.Source events) (hg : w.Ships op) (hs : w.step o op = some w') :
    ∃ events', events <+: events' ∧ w'.Source events' := by
  have he := step_effect hs
  have hi := he.inv hw.inv hg.calm
  obtain ⟨v, ht, hv⟩ := hw.twin
  have hvi := hv.kept.inv
  cases he with
  | @begin h hh =>
    have hvb : Effect o v (.begin h) _ := .begin (ht.begun ▸ hh)
    have hvi' := hvb.inv hvi trivial
    refine ⟨events, List.prefix_refl _, hi, _, ?_, hv.congr (hv.kept.begin hvi') (hv.whole.congr rfl rfl)⟩
    refine ⟨?_, ht.wal, ?_, ht.hist, ht.written, ht.next⟩
    · change w.db.txStorage.begin.1 = v.db.txStorage.begin.1
      rw [ht.txStorage]
    · change (h, w.db.txStorage.nextTxId) :: w.begun = (h, v.db.txStorage.nextTxId) :: v.begun
      rw [ht.txStorage, ht.begun]
  | @write _ h t id key value _ hversion htx hfound hrow =>
    obtain ⟨-, hvalue, hfrozen⟩ := Op.version_spec hversion
    have hfits : op.FitsPage := by cases op <;> cases hversion <;> exact hg
    obtain ⟨v', hrow', ht'⟩ := ht.writeRow hrow
    have htx' : v.tx h = some t := ht.tx h ▸ htx
    -- both read the same, since they have the same history
    have hfound' : op = .delete h id key → v.db.lookup t id key ≠ none := by
      intro hop
      rw [hvi.lookup_eq htx', ← ht.hist, ← hw.inv.lookup_eq htx]
      exact hfound hop
    have hcalm : v.Calm op := by cases op <;> cases hversion <;> trivial
    have hvi' := (Effect.write hversion htx' hfound' hrow').inv hvi hcalm
    obtain ⟨seqNo, hlogs⟩ := hv.write htx' hvalue hfrozen (hfits.size_le hversion) hrow' hvi'
    exact ⟨_, List.prefix_append _ _, hi, v', ht', hlogs⟩
  | absent => exact ⟨events, List.prefix_refl _, hi, v, ht, hv⟩
  | @commit h t htx =>
    have htx' : v.tx h = some t := ht.tx h ▸ htx
    have hvi' := (Effect.commit (o := o) htx').inv hvi trivial
    refine ⟨_, List.prefix_append _ _, hi, _, ?_, hv.commit htx' hvi'⟩
    refine ⟨?_, ?_, ht.begun, ?_, ht.written, ht.next⟩
    · change (w.db.txStorage.setStatus t .commited).releaseAllLocks t =
        (v.db.txStorage.setStatus t .commited).releaseAllLocks t
      rw [ht.txStorage]
    · change w.db.wal.write _ = v.db.wal.write _
      rw [ht.wal]
    · exact congrArg (TxMap.Event.commit h :: ·) ht.hist
  | @rollback h t htx =>
    have htx' : v.tx h = some t := ht.tx h ▸ htx
    have hvi' := (Effect.rollback (o := o) htx').inv hvi trivial
    refine ⟨_, List.prefix_refl _, hi, _, ?_, hv.congr (hv.kept.rollback htx' hvi') (hv.whole.congr rfl rfl)⟩
    refine ⟨?_, ht.wal, ht.begun, ?_, ht.written, ht.next⟩
    · change w.db.txStorage.rollback t = v.db.txStorage.rollback t
      rw [ht.txStorage]
    · exact congrArg (TxMap.Event.rollback h :: ·) ht.hist
  | addStorage hdb =>
    obtain ⟨db', hdb', ht'⟩ := ht.addStorage hdb
    have hvi' := (Effect.addStorage (o := o) hdb').inv hvi trivial
    exact ⟨_, List.prefix_refl _, hi, _, ht', hv.congr (hv.kept.addStorage hdb' hvi') (hv.whole.addStorage hdb')⟩
  | flush =>
    refine ⟨_, List.prefix_refl _, hi, v, ht.congr rfl rfl ?_, hv⟩
    intro id
    change ((w.db.storages id).map Lsm.flush).map _ = _
    rw [Option.map_map]
    exact Option.map_congr fun l _ => Lsm.flush_nextSeqNo l
  | compact id =>
    refine ⟨_, List.prefix_refl _, hi, v, ht.congr (Db.compact_txStorage ..) ?_ ?_, hv⟩
    · unfold Db.compact
      split <;> rfl
    · intro id'
      unfold Db.compact
      split
      · rfl
      · rename_i l hl
        by_cases hid : id' = id
        · subst hid
          rw [Db.setStorage_self, hl]
          rfl
        · rw [Db.setStorage_of_ne _ _ hid]
  | clean => exact hg.elim
  | restart => exact hg.elim

end Source

end World

end StructureDb
