import SchemaStore.Proofs.Codec.Merge
import SchemaStore.Proofs.Facade.Run
import SchemaStore.Proofs.Store.Keyspace

/-!
# What may be merged

The JSON form of a value decides about a merge (`Op.merge_by_form`). A value without one and a value
whose form is no object and no array are refused, the latter by what they are, before the store is
asked. Every other value is merged with the text it is put with, and where a store holds nothing the
merge of a text is the same as putting it.
-/

namespace SchemaStore

/-! ## Merging into nothing -/

theorem MemoryStore.merge_of_none {m : MemoryStore} {key : String} (h : m.get key = none)
    (text : String) : m.merge key text = m.set key text := by
  rw [merge, h]
  rfl

theorem Keyspace.mergeAll_of_none {s : Keyspace} {key : String}
    (h : s.entries.find? (Utf8.encode key) = none) (text : String) :
    s.mergeAll [(key, text)] = s.setAll [(key, text)] := by
  have hget : s.get key = .ok none := by
    unfold get
    rw [h]
  have hmerged : s.merged [(key, text)] .empty = .ok (SortedMap.empty.insert key text) := by
    have hfind : (SortedMap.empty : SortedMap String String).find? key = none := rfl
    simp only [merged, hfind, hget]
    rfl
  rw [mergeAll, hmerged]
  rfl

theorem MemoryStore.perform_merge_of_none {m : MemoryStore} {key : String} (h : m.get key = none)
    (text : String) : (RawStore.perform (.merge key text) m : Reply Empty MemoryStore Unit) =
      RawStore.perform (.set key text) m :=
  congrArg (fun after => (⟨.ok (), after, []⟩ : Reply Empty MemoryStore Unit))
    (MemoryStore.merge_of_none h text)

theorem OpenDatabase.perform_merge_of_none {o : OpenDatabase} {key : String}
    (h : o.keyspace.entries.find? (Utf8.encode key) = none) (text : String) :
    (RawStore.perform (.merge key text) o : Reply KeyspaceError OpenDatabase Unit) =
      RawStore.perform (.set key text) o := by
  have hperform : (o.keyspace.perform (.merge key text) : Reply KeyspaceError Keyspace Unit) =
      o.keyspace.perform (.set key text) :=
    congrArg o.keyspace.writing (Keyspace.mergeAll_of_none h text)
  exact congrArg (fun reply : Reply KeyspaceError Keyspace Unit =>
    (⟨reply.answer, { o with keyspace := reply.store }, reply.events⟩ :
      Reply KeyspaceError OpenDatabase Unit)) hperform

theorem OpenDatabase.perform_set_of_accepts {o : OpenDatabase} {key : String}
    (h : Keyspace.accepts (Utf8.encode key) = true) (text : String) :
    (RawStore.perform (.set key text) o).answer = .ok () := by
  have hset : o.keyspace.setAll [(key, text)] = .ok (o.keyspace.set key text) := by
    rw [Keyspace.setAll, Keyspace.checkKeys_ok (by simpa using h)]
    rfl
  have hanswer : (o.keyspace.writing (o.keyspace.setAll [(key, text)])).answer = .ok () := by
    rw [hset]
    rfl
  exact hanswer

/-! ## Arguments -/

namespace Op

variable {S : Schema} {k : S.MergeKey} {v : S.Val k.val}

/-- The value is refused before the store is asked, and so is a batch that comes to it. -/
structure RefusesMerge (k : S.MergeKey) (v : S.Val k.val) (f : {ε : Type} → Failure ε) : Prop where
  entry : ∀ ε, (Batch.encodeMergeEntry ⟨k, v⟩ : Except (Failure ε) _) = .error f
  batch : ∀ ε rest, (Batch.encodeMerge (⟨k, v⟩ :: rest) : Except (Failure ε) _) = .error f
  run : ∀ {σ ε : Type} [RawStore σ ε] (store : σ),
    ((Op.merge k v).run store).answer = .error f ∧ ((Op.merge k v).run store).store = store

/-- A store is asked to merge the text that it is asked to put for the value. Where it holds nothing
under the key, the merge does what the put does, and it is accepted if the key is. -/
structure MergesAsPut (k : S.MergeKey) (v : S.Val k.val) (text : String) : Prop where
  encode : Codec.encode (Schema.shape k.val) v = .ok text
  entry : ∀ ε, (Batch.encodeMergeEntry ⟨k, v⟩ : Except (Failure ε) _) =
    .ok (Schema.name k.val, text)
  batch : ∀ ε rest, (Batch.encodeMerge (⟨k, v⟩ :: rest) : Except (Failure ε) _) =
    (Batch.encodeMerge rest).map ((Schema.name k.val, text) :: ·)
  merge : ∀ {σ ε : Type} [RawStore σ ε] (store : σ),
    Relays (.merge (Schema.name k.val) text) store ((Op.merge k v).run store)
  set : ∀ {σ ε : Type} [RawStore σ ε] (store : σ),
    Relays (.set (Schema.name k.val) text) store ((Op.set k.val v).run store)
  memory : ∀ m : MemoryStore, m.get (Schema.name k.val) = none →
    ((Op.merge k v).run m).answer = .ok () ∧ ((Op.set k.val v).run m).answer = .ok () ∧
      ((Op.merge k v).run m).store = ((Op.set k.val v).run m).store
  keyspace : ∀ o : OpenDatabase, o.keyspace.entries.find? (Utf8.encode (Schema.name k.val)) = none →
    Keyspace.accepts (Utf8.encode (Schema.name k.val)) = true →
      ((Op.merge k v).run o).answer = .ok () ∧ ((Op.set k.val v).run o).answer = .ok () ∧
        ((Op.merge k v).run o).store = ((Op.set k.val v).run o).store

/-- What cannot be encoded for a merge fails it before the store is asked, alone or at the head of a
batch. -/
theorem refusesMerge {f : {ε : Type} → Failure ε}
    (h : ∀ ε, (Batch.encodeMergeEntry ⟨k, v⟩ : Except (Failure ε) _) = .error f) :
    RefusesMerge k v f := by
  refine ⟨h, fun ε rest => ?_, fun {σ ε} _ store => ?_⟩
  · rw [Batch.encodeMerge, h]
  · have hcall : ((Op.merge k v).call : Except (Failure ε) Call) = .error f := by
      rw [call, h]
      rfl
    obtain ⟨events, hrun⟩ := run_of_refused hcall store
    rw [hrun]
    exact ⟨rfl, rfl⟩

/-- A merge that a store takes like a put is answered and carried out like one. -/
theorem merge_eq_set_of_perform {σ ε : Type} [RawStore σ ε] {store : σ} {name text : String}
    {merged put : Reply (Failure ε) σ Unit} (hmerged : Relays (.merge name text) store merged)
    (hput : Relays (.set name text) store put)
    (h : (RawStore.perform (.merge name text) store : Reply ε σ Unit) =
      RawStore.perform (.set name text) store)
    (hanswer : (RawStore.perform (.set name text) store).answer = .ok ()) :
    merged.answer = .ok () ∧ put.answer = .ok () ∧ merged.store = put.store := by
  obtain ⟨_, hmergeAnswer⟩ := hmerged.of_ok rfl () ((congrArg Reply.answer h).trans hanswer)
  obtain ⟨_, hputAnswer⟩ := hput.of_ok rfl () hanswer
  refine ⟨hmergeAnswer, hputAnswer, ?_⟩
  rw [hmerged.store_eq, hput.store_eq]
  exact congrArg Reply.store h

/-- A value that has one text for both is merged with the call of a merge and put with that of a
put, and where nothing is stored the two calls come to the same. -/
theorem mergesAsPut {text : String} (hencode : Codec.encode (Schema.shape k.val) v = .ok text)
    (hcomposite : Codec.encodeComposite (Schema.shape k.val) v = .ok text) :
    MergesAsPut k v text := by
  have hentry : ∀ ε, (Batch.encodeMergeEntry ⟨k, v⟩ : Except (Failure ε) _) =
      .ok (Schema.name k.val, text) := fun ε => by
    rw [Batch.encodeMergeEntry, hcomposite]
  have hmerge : ∀ {σ ε : Type} [RawStore σ ε] (store : σ),
      Relays (.merge (Schema.name k.val) text) store ((Op.merge k v).run store) :=
    run_of_call (call_merge hcomposite)
  have hset : ∀ {σ ε : Type} [RawStore σ ε] (store : σ),
      Relays (.set (Schema.name k.val) text) store ((Op.set k.val v).run store) :=
    run_of_call (call_set hencode)
  refine ⟨hencode, hentry, fun ε rest => ?_, hmerge, hset, fun m hm => ?_, fun o ho haccepts => ?_⟩
  · rw [Batch.encodeMerge, hentry]
  · exact merge_eq_set_of_perform (hmerge m) (hset m) (MemoryStore.perform_merge_of_none hm text) rfl
  · exact merge_eq_set_of_perform (hmerge o) (hset o)
      (OpenDatabase.perform_merge_of_none ho text) (OpenDatabase.perform_set_of_accepts haccepts text)

/-- A value is merged exactly if its JSON form is an object or an array, and otherwise refused for
what it is. -/
theorem merge_by_form (k : S.MergeKey) (v : S.Val k.val) :
    match (Schema.shape k.val).toJson v with
    | .error p => RefusesMerge k v (.encode (Schema.name k.val) p.unplaced)
    | .ok .null => RefusesMerge k v (.mergeArgument (Schema.name k.val) .null)
    | .ok (.bool _) => RefusesMerge k v (.mergeArgument (Schema.name k.val) .boolean)
    | .ok (.num _) => RefusesMerge k v (.mergeArgument (Schema.name k.val) .number)
    | .ok (.str _) => RefusesMerge k v (.mergeArgument (Schema.name k.val) .text)
    | .ok (.arr js) => MergesAsPut k v (Json.arr js).render
    | .ok (.obj fs) => MergesAsPut k v (Json.obj fs).render := by
  cases hj : (Schema.shape k.val).toJson v with
  | error p =>
    refine refusesMerge fun ε => ?_
    rw [Batch.encodeMergeEntry, Codec.encodeComposite, hj]
  | ok j =>
    have hcomposite := Codec.encodeComposite_of_toJson hj
    cases j with
    | arr js => exact mergesAsPut (Codec.encode_of_composite hcomposite) hcomposite
    | obj fs => exact mergesAsPut (Codec.encode_of_composite hcomposite) hcomposite
    | null | bool b | num n | str t =>
      refine refusesMerge fun ε => ?_
      rw [Batch.encodeMergeEntry, hcomposite]
      rfl

end Op

end SchemaStore
