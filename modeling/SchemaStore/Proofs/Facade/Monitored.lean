import SchemaStore.Catalog
import SchemaStore.Store.Monitored
import SchemaStore.Proofs.Codec.Merge
import SchemaStore.Proofs.Facade.Run
import SchemaStore.Proofs.Store.Keyspace

/-!
# One call or none

A monitored store shows what an operation asks for. Either the operation is refused, by the first of
its values that cannot be written (`Op.refusal?`), and the store is left in peace; or it makes one
call, which `Op.Asks` spells out, and passes on the failure of this call. An operation that fails on
the way leaves the entries as they were: before the call nothing has happened, the call itself leaves
no trace when it fails (`RawStore.Atomic`), and what fails after its call is a read.
-/

namespace SchemaStore

/-! ## Calls that leave no trace -/

/-- A call that fails, and one that reads, leaves the store as it was. -/
class RawStore.Atomic (σ : Type) {ε : Type} [RawStore σ ε] : Prop where
  failed : ∀ (c : Call) (s : σ) (e : ε), (RawStore.perform c s).answer = .error e →
    (RawStore.perform c s).store = s
  read : ∀ (c : Call) (s : σ), c.isRead = true → (RawStore.perform c s).store = s

instance : RawStore.Atomic MemoryStore where
  failed c m e h := by cases e
  read c m h := by
    cases c with
    | get key | multiGet keys | allKeys | flush => rfl
    | _ => cases h

namespace Keyspace

theorem perform_of_isRead {s : Keyspace} {c : Call} (h : c.isRead = true) :
    (s.perform c).store = s := by
  cases c with
  | get key | multiGet keys | allKeys | flush => rfl
  | _ => cases h

end Keyspace

instance : RawStore.Atomic Keyspace where
  failed _ _ _ h := Keyspace.perform_of_error h
  read _ _ h := Keyspace.perform_of_isRead h

instance : RawStore.Atomic OpenDatabase where
  failed _ _ _ h := OpenDatabase.perform_of_error h
  read c o h := by
    have hkeyspace : (o.keyspace.perform c).store = o.keyspace := Keyspace.perform_of_isRead h
    show { o with keyspace := (o.keyspace.perform c).store } = o
    rw [hkeyspace]

namespace Monitored

variable {σ ε : Type} [RawStore σ ε] {c : Call} {m : Monitored σ}

/-- Every call is recorded, also one that is made to fail. -/
theorem calls_perform (c : Call) (m : Monitored σ) :
    (RawStore.perform c m).store.calls = m.calls ++ [c] := by
  simp only [RawStore.perform]
  split
  · rfl
  · rfl

/-- A call that fails leaves the store behind the monitor as it was, whether the store or the
monitor has failed it. -/
theorem store_of_error [RawStore.Atomic σ] {e : MonitorError ε}
    (h : (RawStore.perform c m).answer = .error e) :
    (RawStore.perform c m).store.store = m.store := by
  simp only [RawStore.perform] at h ⊢
  split at h
  · next hfails => rw [if_pos hfails]
  · next hpasses =>
    rw [if_neg hpasses]
    cases hanswer : (RawStore.perform c m.store).answer with
    | error e' => exact RawStore.Atomic.failed c m.store e' hanswer
    | ok a =>
      rw [hanswer] at h
      cases h

theorem store_of_read [RawStore.Atomic σ] (h : c.isRead = true) :
    (RawStore.perform c m).store.store = m.store := by
  simp only [RawStore.perform]
  split
  · rfl
  · exact RawStore.Atomic.read c m.store h

end Monitored

/-! ## Refusals -/

variable {S : Schema} {σ ε : Type}

/-- Why a value cannot be sent: it has no JSON form, or it has one that cannot be merged though it
is to be. -/
def Change.refusal? : Change S → Option (Failure ε)
  | .put e =>
    match (Schema.shape e.1).toJson e.2 with
    | .error p => some (.encode (Schema.name e.1) p.unplaced)
    | .ok _ => none
  | .merge e =>
    match (Schema.shape e.1.val).toJson e.2 with
    | .error p => some (.encode (Schema.name e.1.val) p.unplaced)
    | .ok j => j.unmergeable?.map (.mergeArgument (Schema.name e.1.val))
  | .remove _ | .clear => none

theorem Change.refusal?_put (e : S.Entry) :
    (put e).refusal? = errorOf (Batch.encodeEntry e : Except (Failure ε) _) := by
  unfold refusal? Batch.encodeEntry
  dsimp only
  cases h : (Schema.shape e.1).toJson e.2 with
  | error p =>
    rw [Codec.encode_of_error h]
    rfl
  | ok j =>
    obtain ⟨text, htext⟩ := Codec.encode_of_toJson h
    rw [htext]
    rfl

theorem Change.refusal?_merge (e : S.MergeEntry) :
    (merge e).refusal? = errorOf (Batch.encodeMergeEntry e : Except (Failure ε) _) := by
  unfold refusal? Batch.encodeMergeEntry
  dsimp only
  cases h : (Schema.shape e.1.val).toJson e.2 with
  | error p =>
    rw [Codec.encodeComposite, h]
    rfl
  | ok j =>
    rw [Codec.encodeComposite_of_toJson h]
    dsimp only
    cases j.unmergeable? with
    | none => rfl
    | some found => rfl

namespace Op

/-- Why an operation is refused: the refusal of the first of its values that cannot be sent. -/
def refusal? (op : Op S) : Option (Failure ε) := op.changes.findSome? Change.refusal?

/-- The first change that cannot be sent is the one at which the encoding of the call stops. -/
theorem refusal?_eq (op : Op S) : op.refusal? = errorOf (op.call : Except (Failure ε) Call) := by
  unfold refusal?
  cases op with
  | set k v => rw [call, errorOf_map, changes, List.findSome?_singleton, Change.refusal?_put]
  | merge k v => rw [call, errorOf_map, changes, List.findSome?_singleton, Change.refusal?_merge]
  | multiSet entries =>
    rw [call, errorOf_map, Batch.encode_eq_mapM, errorOf_mapM, changes, List.findSome?_map]
    exact congrArg (fun f => entries.findSome? f) (funext Change.refusal?_put)
  | multiMerge entries =>
    rw [call, errorOf_map, Batch.encodeMerge_eq_mapM, errorOf_mapM, changes, List.findSome?_map]
    exact congrArg (fun f => entries.findSome? f) (funext Change.refusal?_merge)
  | multiRemove keys =>
    rw [changes, List.findSome?_map]
    exact List.findSome?_eq_none_iff.2 fun k _ => rfl
  | _ => rfl

/-! ## Calls -/

/-- What is sent for a value: the name of its key and the text it is stored as. -/
def Sends (e : S.Entry) (sent : String × String) : Prop :=
  sent.1 = Schema.name e.1 ∧ Codec.encode (Schema.shape e.1) e.2 = .ok sent.2

/-- The call an operation asks the store for. It is of the same name, and has the names of the keys,
with the texts of their values, in the order of the operation. -/
def Asks : Op S → Call → Prop
  | .get k, c => c = .get (Schema.name k)
  | .getLegacy k, c => c = .get (Schema.name k)
  | .set k v, c => ∃ sent, Sends ⟨k, v⟩ sent ∧ c = .set sent.1 sent.2
  | .remove k, c => c = .remove (Schema.name k)
  | .merge k v, c => ∃ sent, Sends ⟨k.val, v⟩ sent ∧ c = .merge sent.1 sent.2
  | .multiGet keys, c => c = .multiGet (keys.map Schema.name)
  | .multiSet entries, c => ∃ sent, List.Forall₂ Sends entries sent ∧ c = .multiSet sent
  | .multiMerge entries, c =>
    ∃ sent, List.Forall₂ (fun e => Sends ⟨e.1.val, e.2⟩) entries sent ∧ c = .multiMerge sent
  | .multiRemove keys, c => c = .multiRemove (keys.map Schema.name)
  | .allKeys, c => c = .allKeys
  | .storedKeys, c => c = .allKeys
  | .clear, c => c = .clear
  | .flush, c => c = .flush

theorem sends_encodeEntry {e : S.Entry} {sent : String × String}
    (h : (Batch.encodeEntry e : Except (Failure ε) _) = .ok sent) : Sends e sent := by
  unfold Batch.encodeEntry at h
  split at h
  · next text htext =>
    cases h
    exact ⟨rfl, htext⟩
  · cases h

theorem sends_encodeMergeEntry {e : S.MergeEntry} {sent : String × String}
    (h : (Batch.encodeMergeEntry e : Except (Failure ε) _) = .ok sent) :
    Sends ⟨e.1.val, e.2⟩ sent := by
  unfold Batch.encodeMergeEntry at h
  split at h
  · next text htext =>
    cases h
    exact ⟨rfl, Codec.encode_of_composite htext⟩
  · cases h
  · cases h

/-- The call of an operation asks for its keys, in order, with the texts of its values. -/
theorem asks_call {op : Op S} {c : Call} (h : (op.call : Except (Failure ε) Call) = .ok c) :
    op.Asks c := by
  cases op with
  | set k v =>
    obtain ⟨sent, hsent, rfl⟩ := exists_of_map_ok h
    exact ⟨sent, sends_encodeEntry hsent, rfl⟩
  | merge k v =>
    obtain ⟨sent, hsent, rfl⟩ := exists_of_map_ok h
    exact ⟨sent, sends_encodeMergeEntry hsent, rfl⟩
  | multiSet entries =>
    obtain ⟨sent, hsent, rfl⟩ := exists_of_map_ok h
    rw [Batch.encode_eq_mapM] at hsent
    exact ⟨sent, (forall₂_of_mapM hsent fun _ _ _ _ => sends_encodeEntry).flip, rfl⟩
  | multiMerge entries =>
    obtain ⟨sent, hsent, rfl⟩ := exists_of_map_ok h
    rw [Batch.encodeMerge_eq_mapM] at hsent
    exact ⟨sent, (forall₂_of_mapM hsent fun _ _ _ _ => sends_encodeMergeEntry).flip, rfl⟩
  | get k | getLegacy k | remove k | multiGet keys | multiRemove keys | allKeys | storedKeys | clear
  | flush => exact (Except.ok.inj h).symm

/-! ## Whole operations -/

section Run

variable [RawStore σ ε]

/-- What fails leaves the entries as they were. -/
theorem store_of_failed [RawStore.Atomic σ] {op : Op S} {m : Monitored σ} {f : Failure (MonitorError ε)}
    (h : (op.run m).answer = .error f) : (op.run m).store.store = m.store := by
  cases hcall : (op.call : Except (Failure (MonitorError ε)) Call) with
  | error f' =>
    obtain ⟨events, hrun⟩ := run_of_refused hcall m
    rw [hrun]
  | ok c =>
    have hrelays := run_of_call hcall m
    rw [hrelays.store_eq]
    cases hanswer : (RawStore.perform c m).answer with
    | error e => exact Monitored.store_of_error hanswer
    | ok a =>
      -- the store has accepted the call, so that the operation has failed to read its answer
      apply Monitored.store_of_read
      by_contra hwrite
      obtain ⟨b, hb⟩ := hrelays.of_ok (Bool.eq_false_iff.2 hwrite) a hanswer
      rw [h] at hb
      cases hb

/-- An operation on a store of which any calls may be made to fail. If a value cannot be sent, the
operation fails with the refusal of the first such value and does not reach the store. Otherwise it
makes one call, and if this fails, the operation fails with the same failure. Whatever it fails with,
the entries are left as they were, if calls on the store leave no trace when they fail. -/
theorem run_monitored (op : Op S) (m : Monitored σ) :
    (∀ f, op.refusal? = some f → (op.run m).answer = .error f ∧ (op.run m).store = m) ∧
      (op.refusal? (ε := MonitorError ε) = none → ∃ c, op.Asks c ∧
        (op.run m).store.calls = m.calls ++ [c] ∧
        ∀ e, (RawStore.perform c m).answer = .error e → (op.run m).answer = .error (.store e)) ∧
      ∀ [RawStore.Atomic σ] f, (op.run m).answer = .error f → (op.run m).store.store = m.store := by
  refine ⟨?_, ?_, fun f hf => store_of_failed hf⟩
  · intro f hf
    rw [refusal?_eq] at hf
    obtain ⟨events, hrun⟩ := run_of_refused (errorOf_eq_some.1 hf) m
    rw [hrun]
    exact ⟨rfl, rfl⟩
  · intro hnone
    rw [refusal?_eq] at hnone
    obtain ⟨c, hc⟩ := exists_of_errorOf hnone
    have hrelays := run_of_call hc m
    refine ⟨c, asks_call hc, ?_, hrelays.of_error⟩
    rw [hrelays.store_eq, Monitored.calls_perform]

end Run

end Op

namespace Catalog

/-- The key of recent names. -/
def recentMerge : prefs.MergeKey := ⟨⟨6, by decide⟩, by decide⟩

/-- The key of hits, which are numbers though they may be merged. -/
def hitsMerge : prefs.MergeKey := ⟨⟨9, by decide⟩, by decide⟩

/-- A list to merge and then a number, twice. -/
def mergesHits : Op prefs :=
  .multiMerge [⟨recentMerge, ["a"]⟩, ⟨hitsMerge, ⟨5, by decide⟩⟩, ⟨hitsMerge, ⟨6, by decide⟩⟩]

/-- A store with one entry, of which every call fails. -/
def failingStore : Monitored MemoryStore :=
  { Monitored.of (.ofList [("recent", "[]")]) with failing := ["*"] }

end Catalog

open Catalog in
theorem Op.run_monitored_failing :
    (mergesHits.run failingStore).answer = .error (.mergeArgument "hits" .number) ∧
      (mergesHits.run failingStore).store = failingStore ∧
      ((Op.get recentMerge.val).run failingStore).answer = .error (.store .quota) ∧
      ((Op.get recentMerge.val).run failingStore).store.calls = [.get "recent"] ∧
      ((Op.get recentMerge.val).run failingStore).store.store = failingStore.store := by
  obtain ⟨hanswer, hstore⟩ := (Op.run_monitored mergesHits failingStore).1 _ rfl
  obtain ⟨-, hcall, hfailed⟩ := Op.run_monitored (Op.get recentMerge.val) failingStore
  obtain ⟨c, rfl, hcalls, hpassed⟩ := hcall rfl
  have hquota := hpassed .quota rfl
  exact ⟨hanswer, hstore, hquota, hcalls, hfailed _ hquota⟩

end SchemaStore
