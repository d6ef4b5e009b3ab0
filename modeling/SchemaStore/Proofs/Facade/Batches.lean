import SchemaStore.Proofs.Facade.Monitored
import SchemaStore.Proofs.Facade.TypedMap
import SchemaStore.Proofs.Store.Keyspace

/-!
# Batches and single operations

An operation on several keys comes to the same as one operation for each of them, in their order
(`Op.singles`), however often a key comes again. A store in memory takes a batch of writes apart
itself. A keyspace has ways of its own for them, but it follows a store in memory with the same
entries, and there is only one keyspace with given entries (`Keyspace.eq_of_holds`); so both are
instances of `RawStore.FollowsMemory`, from which the rest is derived. The writes of a batch are
matched with single calls by `Op.singles_call`. A read of several keys is the list of the single
reads (`Op.answer_multiGet_eq_mapM`).
-/

namespace SchemaStore

/-! ## Calls -/

/-- The calls for one key each that a call on several keys stands for. -/
def Call.singles : Call → List Call
  | .multiGet keys => keys.map .get
  | .multiSet entries => entries.map fun e => .set e.1 e.2
  | .multiMerge entries => entries.map fun e => .merge e.1 e.2
  | .multiRemove keys => keys.map .remove
  | c => [c]

/-- On the keys it can be used with, the store answers like a store in memory, and what it makes of a
call on several keys is what it makes of its single calls. -/
structure RawStore.FollowsMemory {σ ε : Type} [RawStore σ ε] (usable : String → Prop)
    (m : MemoryStore) (store : σ) : Prop where
  answer_eq : ∀ c : Call, (∀ key ∈ c.keys, usable key) →
    (RawStore.perform c store).answer = .ok (m.answer c)
  afterCalls_singles : ∀ c : Call, (∀ key ∈ c.keys, usable key) →
    afterCalls c.singles store = (RawStore.perform c store).store

namespace MemoryStore

theorem afterCalls_reads (m : MemoryStore) (keys : List String) :
    afterCalls (keys.map .get) m = m := by
  induction keys with
  | nil => rfl
  | cons key rest ih => exact ih

/-- A store in memory makes of a batch what it makes of its single calls, one after another. -/
theorem afterCalls_singles (m : MemoryStore) (c : Call) : afterCalls c.singles m = m.after c := by
  cases c with
  | multiGet keys => exact m.afterCalls_reads keys
  | multiSet entries | multiMerge entries | multiRemove keys =>
    rw [Call.singles, afterCalls, List.foldl_map]
    rfl
  | _ => rfl

theorem followsMemory (m : MemoryStore) : RawStore.FollowsMemory (fun _ => True) m m where
  answer_eq _ _ := rfl
  afterCalls_singles c _ := m.afterCalls_singles c

end MemoryStore

theorem Call.accepted_singles {c : Call} (h : c.Accepted) : ∀ c' ∈ c.singles, c'.Accepted := by
  intro c' hc'
  cases c with
  | multiGet keys | multiRemove keys =>
    obtain ⟨key, hkey, rfl⟩ := List.mem_map.1 hc'
    intro key' hkey'
    rw [List.mem_singleton.1 hkey']
    exact h key hkey
  | multiSet entries | multiMerge entries =>
    obtain ⟨e, he, rfl⟩ := List.mem_map.1 hc'
    intro key' hkey'
    rw [List.mem_singleton.1 hkey']
    exact h e.1 (List.mem_map_of_mem he)
  | _ =>
    rw [List.mem_singleton.1 hc']
    exact h

/-! ## Keyspaces of texts -/

namespace Keyspace

/-- Every key and every value is a text. -/
def IsText (s : Keyspace) : Prop :=
  ∀ e ∈ s.entries.entries, ∃ key text, e = (Utf8.encode key, Utf8.encode text)

theorem isText_of_holds {s : Keyspace} {m : MemoryStore} (h : s.Holds m) : s.IsText := by
  intro e he
  rw [h] at he
  obtain ⟨e', -, rfl⟩ := List.mem_map.1 he
  exact ⟨e'.1, e'.2, rfl⟩

/-- A keyspace of texts has the entries of some store in memory. -/
theorem IsText.exists_holds {s : Keyspace} (h : s.IsText) : ∃ m, s.Holds m := by
  have hlist : ∀ entries : List (Bytes × Bytes),
      (∀ e ∈ entries, ∃ key text, e = (Utf8.encode key, Utf8.encode text)) →
      ∃ texts : List (String × String),
        entries = texts.map fun e => (Utf8.encode e.1, Utf8.encode e.2) := by
    intro entries hentries
    induction entries with
    | nil => exact ⟨[], rfl⟩
    | cons e rest ih =>
      obtain ⟨key, text, rfl⟩ := hentries e List.mem_cons_self
      obtain ⟨texts, rfl⟩ := ih fun e he => hentries e (List.mem_cons_of_mem _ he)
      exact ⟨(key, text) :: texts, rfl⟩
  obtain ⟨texts, htexts⟩ := hlist _ h
  have hascending : Ascending texts := by
    have hbytes := s.entries.ascending
    rw [htexts, Ascending, List.pairwise_map] at hbytes
    exact hbytes.imp fun {e f} hlt => by rwa [Utf8.compare_encode] at hlt
  exact ⟨⟨⟨texts, hascending⟩⟩, htexts⟩

theorem eq_of_holds {s s' : Keyspace} {m : MemoryStore} (h : s.Holds m) (h' : s'.Holds m) :
    s = s' := by
  have hentries : s.entries = s'.entries := SortedMap.ext (Eq.trans h (Eq.symm h'))
  cases s
  cases s'
  cases hentries
  rfl

end Keyspace

namespace OpenDatabase

theorem afterCalls_eq (calls : List Call) (o : OpenDatabase) :
    afterCalls calls o = { o with keyspace := (afterCalls calls o).keyspace } := by
  induction calls generalizing o with
  | nil => rfl
  | cons c rest ih => exact ih (RawStore.perform c o).store

/-- An open keyspace of texts follows the store in memory that it holds, on the keys it can
write. -/
theorem followsMemory {o : OpenDatabase} {m : MemoryStore} (h : o.keyspace.Holds m) :
    RawStore.FollowsMemory (fun key => Keyspace.accepts (Utf8.encode key) = true) m o where
  answer_eq c hc := (Keyspace.perform_holds h hc).1
  afterCalls_singles c hc := by
    have hsingles := afterCalls_holds h c.singles (Call.accepted_singles hc)
    rw [m.afterCalls_singles] at hsingles
    have hwhole := (Keyspace.perform_holds h hc).2
    rw [afterCalls_eq, Keyspace.eq_of_holds hsingles hwhole]
    rfl

end OpenDatabase

/-! ## Operations as single ones -/

variable {S : Schema} {σ ε : Type}

namespace Op

/-- The operations on one key each that an operation on several keys stands for. -/
def singles : Op S → List (Op S)
  | .multiGet keys => keys.map .get
  | .multiSet entries => entries.map fun e => .set e.1 e.2
  | .multiMerge entries => entries.map fun e => .merge e.1 e.2
  | .multiRemove keys => keys.map .remove
  | op => [op]

/-- Each operation makes the call at its place. -/
def AreCalled (ε : Type) (ops : List (Op S)) (calls : List Call) : Prop :=
  List.Forall₂ (fun op c => (op.call : Except (Failure ε) Call) = .ok c) ops calls

theorem areCalled_map {α β : Type} {f : α → Except (Failure ε) β} {op : α → Op S} {call : β → Call}
    (h : ∀ a, (op a).call = (f a).map call) {as : List α} {bs : List β}
    (hbs : List.mapM f as = .ok bs) : AreCalled ε (as.map op) (bs.map call) := by
  rw [AreCalled, List.forall₂_map_left_iff, List.forall₂_map_right_iff]
  refine (forall₂_of_mapM hbs ?_).flip
  intro a _ b _ hb
  show (op a).call = .ok (call b)
  rw [h, hb]
  rfl

/-- The single operations of a batch make the single calls of its call, place by place. -/
theorem singles_call {op : Op S} {c : Call} (h : (op.call : Except (Failure ε) Call) = .ok c) :
    AreCalled ε op.singles c.singles := by
  cases op with
  | multiSet entries =>
    obtain ⟨texts, htexts, rfl⟩ := exists_of_map_ok h
    rw [Batch.encode_eq_mapM] at htexts
    exact areCalled_map (fun _ => rfl) htexts
  | multiMerge entries =>
    obtain ⟨texts, htexts, rfl⟩ := exists_of_map_ok h
    rw [Batch.encodeMerge_eq_mapM] at htexts
    exact areCalled_map (fun _ => rfl) htexts
  | multiGet keys | multiRemove keys =>
    cases h
    rw [singles, Call.singles, Batch.names, List.map_map, AreCalled, List.forall₂_map_left_iff,
      List.forall₂_map_right_iff]
    exact List.forall₂_same.2 fun _ _ => rfl
  | set k v | merge k v =>
    have hcall := h
    obtain ⟨t, -, rfl⟩ := exists_of_map_ok h
    exact .cons hcall .nil
  | get k | getLegacy k | remove k | allKeys | storedKeys | clear | flush =>
    cases h
    exact .cons rfl .nil

theorem afterAll_of_areCalled [RawStore σ ε] {ops : List (Op S)} {calls : List Call}
    (h : AreCalled ε ops calls) (store : σ) : afterAll ops store = afterCalls calls store := by
  induction h generalizing store with
  | nil => rfl
  | @cons op c ops calls hc _ ih =>
    show afterAll ops (op.run store).store = afterCalls calls (RawStore.perform c store).store
    rw [ih, (run_of_call hc store).store_eq]

theorem map_fst_of_sent {α : Type} {R : α → String × String → Prop} {name : α → String}
    {as : List α} {sent : List (String × String)} (h : List.Forall₂ R as sent)
    (hname : ∀ a t, R a t → t.1 = name a) : sent.map (·.1) = as.map name := by
  induction h with
  | nil => rfl
  | cons ht _ ih => rw [List.map_cons, List.map_cons, hname _ _ ht, ih]

/-- The call of an operation names the keys of the operation, in order. -/
theorem keys_call {op : Op S} {c : Call} (h : (op.call : Except (Failure ε) Call) = .ok c) :
    c.keys = op.keys.map Schema.name := by
  have hasks := asks_call h
  cases op with
  | set k v | merge k v =>
    obtain ⟨sent, hsent, rfl⟩ := hasks
    exact congrArg (fun name => [name]) hsent.1
  | multiSet entries =>
    obtain ⟨sent, hsent, rfl⟩ := hasks
    rw [Call.keys, keys, List.map_map]
    exact map_fst_of_sent hsent fun _ _ ht => ht.1
  | multiMerge entries =>
    obtain ⟨sent, hsent, rfl⟩ := hasks
    rw [Call.keys, keys, List.map_map]
    exact map_fst_of_sent hsent fun _ _ ht => ht.1
  | get k | getLegacy k | remove k | multiGet keys | multiRemove keys | allKeys | storedKeys | clear
  | flush =>
    obtain rfl := hasks
    rfl

end Op

/-! ## Batches over a store -/

theorem Change.exists_write_put {e : S.Entry} {j : Json} (h : (Schema.shape e.1).toJson e.2 = .ok j) :
    ∃ w, (put e).write? = some w := by
  obtain ⟨text, htext⟩ := Codec.encode_of_toJson h
  exact ⟨.put (Schema.name e.1) text, by rw [write?, htext]; rfl⟩

theorem Change.exists_write_merge {e : S.MergeEntry} {j : Json}
    (h : (Schema.shape e.1.val).toJson e.2 = .ok j) (hj : j.unmergeable? = none) :
    ∃ w, (merge e).write? = some w := by
  have htext := Codec.encodeComposite_of_toJson h
  rw [hj] at htext
  exact ⟨.merge (Schema.name e.1.val) j.render, by rw [write?, htext]; rfl⟩

namespace Batch

theorem decodeSlot_eq (k : S.Key) (text : Option String) :
    (decodeSlot k text : Logged (Except (Failure ε) _)).value =
      (Op.readValue k text).value.map fun v => ⟨k, v⟩ := by
  cases text with
  | none => rfl
  | some raw =>
    rw [decodeSlot, Op.readValue]
    cases (decodeText k raw : Except (Failure ε) _) <;> rfl

/-- The answer of a store in memory matches the keys it was asked for, so the texts alone decide
about the values, each on its own. -/
theorem decode_memory (m : MemoryStore) (keys : List S.Key) :
    (decode keys ((names keys).map fun key => (key, m.get key))).value =
      (List.mapM (fun k =>
        (Op.readValue k (m.get (Schema.name k))).value.map fun v => ⟨k, v⟩) keys :
          Except (Failure ε) (List (Slot S))) := by
  induction keys with
  | nil => rfl
  | cons k rest ih =>
    rw [names] at ih ⊢
    simp only [List.map_cons, decode]
    rw [if_neg (not_not_intro rfl), List.mapM_cons, ← ih, ← decodeSlot_eq]
    generalize (decodeSlot k (m.get (Schema.name k)) : Logged (Except (Failure ε) _)) = read
    obtain ⟨value, events⟩ := read
    cases value with
    | error f => rfl
    | ok slot =>
      dsimp only
      generalize (decode rest _ : Logged (Except (Failure ε) _)) = after
      obtain ⟨value, events⟩ := after
      cases value <;> rfl

end Batch

namespace Op

variable [RawStore σ ε] {usable : String → Prop} {m : MemoryStore} {store : σ}

theorem answer_ask {c : Call} {a : c.Answer} (h : (RawStore.perform c store).answer = .ok a) :
    (ask c store).answer = .ok a := by
  rw [ask, h]
  rfl

omit [RawStore σ ε] in
theorem answer_interpret {α β : Type} {reply : Reply (Failure ε) σ α} {a : α}
    (h : reply.answer = .ok a) (f : α → Logged (Except (Failure ε) β)) :
    (interpret f reply).answer = (f a).value := by
  obtain ⟨answer, after, events⟩ := reply
  cases h
  rfl

theorem answer_get (hs : RawStore.FollowsMemory usable m store) {k : S.Key}
    (hk : usable (Schema.name k)) :
    ((Op.get k).run store).answer = (readValue k (m.get (Schema.name k))).value := by
  have hcall := hs.answer_eq (.get (Schema.name k)) (List.forall_mem_singleton.2 hk)
  exact answer_interpret (answer_ask hcall) _

/-- A read of several keys is the reads of each of them, one after another. -/
theorem answer_multiGet_eq_mapM (hs : RawStore.FollowsMemory usable m store) {keys : List S.Key}
    (hkeys : ∀ k ∈ keys, usable (Schema.name k)) :
    ((Op.multiGet keys).run store).answer =
      List.mapM (fun k => (((Op.get k).run store).answer.map fun v => ⟨k, v⟩ :
        Except (Failure ε) (Batch.Slot S))) keys := by
  have hcall := hs.answer_eq (.multiGet (Batch.names keys)) (List.forall_mem_map.2 hkeys)
  have hanswer : ((Op.multiGet keys).run store).answer = (Batch.decode keys _).value :=
    answer_interpret (answer_ask hcall) _
  refine hanswer.trans ((Batch.decode_memory m keys).trans ?_)
  clear hcall hanswer
  induction keys with
  | nil => rfl
  | cons k rest ih =>
    obtain ⟨hk, hrest⟩ := List.forall_mem_cons.1 hkeys
    rw [List.mapM_cons, List.mapM_cons, ih hrest, answer_get hs hk]

/-- An operation of which all values can be written makes its call, and leaves what its single
operations leave. -/
theorem run_singles (hs : RawStore.FollowsMemory usable m store) {op : Op S}
    (hkeys : ∀ k ∈ op.keys, usable (Schema.name k)) (h : ∀ c ∈ op.changes, ∃ w, c.write? = some w) :
    ∃ c, (op.call : Except (Failure ε) Call) = .ok c ∧
      (c.isRead = false → ∃ a, (op.run store).answer = .ok a) ∧
      (op.run store).store = afterAll op.singles store := by
  obtain ⟨c, hc⟩ := exists_call (ε := ε) h
  have hnames : ∀ key ∈ c.keys, usable key := by
    rw [keys_call hc]
    exact List.forall_mem_map.2 hkeys
  have hrun := run_of_call hc store
  refine ⟨c, hc, fun hwrite => hrun.of_ok hwrite _ (hs.answer_eq c hnames), ?_⟩
  rw [hrun.store_eq, afterAll_of_areCalled (singles_call hc), hs.afterCalls_singles c hnames]

/-- The reads of some keys that all have an answer, as one list. -/
theorem mapM_eq_ok_iff {read : (k : S.Key) → Except (Failure ε) (Option (S.Val k))}
    {keys : List S.Key} {slots : List (Batch.Slot S)} :
    List.mapM (fun k => ((read k).map fun v => ⟨k, v⟩ : Except _ (Batch.Slot S))) keys = .ok slots ↔
      slots.map (·.1) = keys ∧ ∀ slot ∈ slots, read slot.1 = .ok slot.2 := by
  constructor
  · intro h
    have hslots : List.Forall₂ (fun slot k => slot.1 = k ∧ read slot.1 = .ok slot.2) slots keys := by
      apply forall₂_of_mapM h
      intro k _ slot _ hslot
      obtain ⟨v, hv, rfl⟩ := exists_of_map_ok hslot
      exact ⟨rfl, hv⟩
    clear h
    induction hslots with
    | nil => exact ⟨rfl, nofun⟩
    | cons hslot _ ih =>
      refine ⟨?_, List.forall_mem_cons.2 ⟨hslot.2, ih.2⟩⟩
      rw [List.map_cons, hslot.1, ih.1]
  · rintro ⟨rfl, h⟩
    induction slots with
    | nil => rfl
    | cons slot rest ih =>
      obtain ⟨hslot, hrest⟩ := List.forall_mem_cons.1 h
      rw [List.map_cons, List.mapM_cons, ih hrest, hslot]
      rfl

/-- Batches over a store agree with single operations, on the keys it can be used with. A batch of
writes succeeds if all of its values can be written, and leaves what the single writes leave one
after another. A read of several keys succeeds if all of the single reads do, with their values at
the places of the keys, and the answer of the store always matches the keys. -/
structure BatchesAgree (S : Schema) [RawStore σ ε] (usable : String → Prop) (store : σ) : Prop where
  multiSet : ∀ entries : List S.Entry, (∀ e ∈ entries, usable (Schema.name e.1)) →
    (∀ e ∈ entries, ∃ j, (Schema.shape e.1).toJson e.2 = .ok j) →
    ((Op.multiSet entries).run store).answer = .ok () ∧
      ((Op.multiSet entries).run store).store =
        afterAll (entries.map fun e => Op.set e.1 e.2) store
  multiMerge : ∀ entries : List S.MergeEntry, (∀ e ∈ entries, usable (Schema.name e.1.val)) →
    (∀ e ∈ entries, ∃ j, (Schema.shape e.1.val).toJson e.2 = .ok j ∧ j.unmergeable? = none) →
    ((Op.multiMerge entries).run store).answer = .ok () ∧
      ((Op.multiMerge entries).run store).store =
        afterAll (entries.map fun e => Op.merge e.1 e.2) store
  multiRemove : ∀ keys : List S.Key, (∀ k ∈ keys, usable (Schema.name k)) →
    ((Op.multiRemove keys).run store).answer = .ok () ∧
      ((Op.multiRemove keys).run store).store = afterAll (keys.map Op.remove) store
  multiGet : ∀ keys : List S.Key, (∀ k ∈ keys, usable (Schema.name k)) →
    ∀ slots : List (Batch.Slot S), ((Op.multiGet keys).run store).answer = .ok slots ↔
      slots.map (·.1) = keys ∧ ∀ slot ∈ slots, ((Op.get slot.1).run store).answer = .ok slot.2
  multiGet_succeeds : ∀ keys : List S.Key, (∀ k ∈ keys, usable (Schema.name k)) →
    ((∃ slots, ((Op.multiGet keys).run store).answer = .ok slots) ↔
      ∀ k ∈ keys, ∃ v, ((Op.get k).run store).answer = .ok v)
  multiGet_matches : ∀ keys : List S.Key, (∀ k ∈ keys, usable (Schema.name k)) →
    ∀ expected found,
      ((Op.multiGet keys).run store).answer ≠ .error (.batchMismatch expected found)

/-- A single read is never answered for another key. -/
theorem answer_get_ne_mismatch (hs : RawStore.FollowsMemory usable m store) {k : S.Key}
    (hk : usable (Schema.name k)) (expected found : String) :
    errorOf ((Op.get k).run store).answer ≠ some (.batchMismatch expected found) := by
  rw [answer_get hs hk]
  intro h
  cases htext : m.get (Schema.name k) with
  | none =>
    rw [htext] at h
    cases h
  | some raw =>
    rw [htext, readValue, Batch.decodeText] at h
    cases hdecode : Codec.decode (Schema.shape k) raw with
    | error c =>
      rw [hdecode] at h
      cases h
    | ok v =>
      rw [hdecode] at h
      cases h

/-- A store that follows one in memory makes of every batch what it makes of the single operations.
The writes of a batch are compared by their calls, its reads by the texts they answer. -/
theorem batchesAgree_of_followsMemory (hs : RawStore.FollowsMemory usable m store) :
    BatchesAgree S usable store where
  multiSet entries hkeys hvalues := by
    have hnames : ∀ k ∈ (Op.multiSet entries).keys, usable (Schema.name k) :=
      List.forall_mem_map.2 hkeys
    have hwritten : ∀ c ∈ (Op.multiSet entries).changes, ∃ w, c.write? = some w := by
      intro c hc
      obtain ⟨e, he, rfl⟩ := List.mem_map.1 hc
      obtain ⟨j, hj⟩ := hvalues e he
      exact Change.exists_write_put hj
    obtain ⟨c, hc, hanswer, hstore⟩ := run_singles hs hnames hwritten
    obtain ⟨texts, -, rfl⟩ := exists_of_map_ok hc
    obtain ⟨a, ha⟩ := hanswer rfl
    exact ⟨ha, hstore⟩
  multiMerge entries hkeys hvalues := by
    have hnames : ∀ k ∈ (Op.multiMerge entries).keys, usable (Schema.name k) :=
      List.forall_mem_map.2 hkeys
    have hwritten : ∀ c ∈ (Op.multiMerge entries).changes, ∃ w, c.write? = some w := by
      intro c hc
      obtain ⟨e, he, rfl⟩ := List.mem_map.1 hc
      obtain ⟨j, hj, hmergeable⟩ := hvalues e he
      exact Change.exists_write_merge hj hmergeable
    obtain ⟨c, hc, hanswer, hstore⟩ := run_singles hs hnames hwritten
    obtain ⟨texts, -, rfl⟩ := exists_of_map_ok hc
    obtain ⟨a, ha⟩ := hanswer rfl
    exact ⟨ha, hstore⟩
  multiRemove keys hkeys := by
    have hwritten : ∀ c ∈ (Op.multiRemove keys).changes, ∃ w, c.write? = some w := by
      intro c hc
      obtain ⟨k, -, rfl⟩ := List.mem_map.1 hc
      exact ⟨_, rfl⟩
    obtain ⟨c, hc, hanswer, hstore⟩ := run_singles hs hkeys hwritten
    cases hc
    obtain ⟨a, ha⟩ := hanswer rfl
    exact ⟨ha, hstore⟩
  multiGet keys hkeys slots := by
    rw [answer_multiGet_eq_mapM hs hkeys]
    exact mapM_eq_ok_iff
  multiGet_succeeds keys hkeys := by
    rw [answer_multiGet_eq_mapM hs hkeys]
    constructor
    · rintro ⟨slots, hslots⟩ k hk
      obtain ⟨hnames, hread⟩ := mapM_eq_ok_iff.1 hslots
      rw [← hnames] at hk
      obtain ⟨slot, hslot, rfl⟩ := List.mem_map.1 hk
      exact ⟨slot.2, hread slot hslot⟩
    · intro h
      apply Shape.exists_mapM
      intro k hk
      obtain ⟨v, hv⟩ := h k hk
      exact ⟨⟨k, v⟩, congrArg (Except.map _) hv⟩
  multiGet_matches keys hkeys expected found := by
    rw [answer_multiGet_eq_mapM hs hkeys]
    intro h
    -- the failure is that of the first read that fails
    have herror := congrArg errorOf h
    rw [errorOf_mapM] at herror
    obtain ⟨k, hk, hfirst⟩ := List.exists_of_findSome?_eq_some herror
    exact answer_get_ne_mismatch hs (hkeys k hk) expected found ((errorOf_map _ _).symm.trans hfirst)

end Op

/-- Batches agree with single operations over a store in memory, whatever it holds, and over an open
keyspace of texts, for the keys it can write. -/
theorem Op.batchesAgree (S : Schema) :
    (∀ m : MemoryStore, BatchesAgree S (fun _ => True) m) ∧
      ∀ o : OpenDatabase, o.keyspace.IsText →
        BatchesAgree S (fun key => Keyspace.accepts (Utf8.encode key) = true) o := by
  constructor
  · intro m
    exact batchesAgree_of_followsMemory m.followsMemory
  · intro o htext
    obtain ⟨m, hm⟩ := htext.exists_holds
    exact batchesAgree_of_followsMemory (OpenDatabase.followsMemory hm)

namespace Catalog

/-- An open keyspace with a list of names. -/
def recentDatabase : OpenDatabase := ⟨.atPath "db", .empty, .ofTexts [("recent", "[\"a\"]")]⟩

end Catalog

open Catalog in
theorem Op.batchesAgree_recent :
    ((Op.multiMerge [⟨recentMerge, ["b"]⟩, ⟨recentMerge, ["c"]⟩]).run recentDatabase).store =
        afterAll [Op.merge recentMerge ["b"], Op.merge recentMerge ["c"]] recentDatabase ∧
      ((Op.multiGet [recentMerge.val, launches, recentMerge.val]).run recentDatabase).answer =
        .ok [⟨recentMerge.val, some ["a"]⟩, ⟨launches, none⟩, ⟨recentMerge.val, some ["a"]⟩] := by
  have htext : recentDatabase.keyspace.IsText :=
    Keyspace.isText_of_holds (Keyspace.holds_foldl_set Keyspace.holds_empty _)
  have hagree := (Op.batchesAgree prefs).2 recentDatabase htext
  have hmerge := hagree.multiMerge [⟨recentMerge, ["b"]⟩, ⟨recentMerge, ["c"]⟩] (by decide)
    (List.forall_mem_cons.2 ⟨⟨_, rfl, rfl⟩, List.forall_mem_singleton.2 ⟨_, rfl, rfl⟩⟩)
  refine ⟨hmerge.2, (hagree.multiGet _ (by decide) _).2 ⟨rfl, ?_⟩⟩
  have hrecent : ((Op.get recentMerge.val).run recentDatabase).answer = .ok (some ["a"]) := rfl
  exact List.forall_mem_cons.2
    ⟨hrecent, List.forall_mem_cons.2 ⟨rfl, List.forall_mem_singleton.2 hrecent⟩⟩

end SchemaStore
