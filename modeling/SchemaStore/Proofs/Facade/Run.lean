import SchemaStore.Facade
import SchemaStore.Store.Memory
import SchemaStore.Proofs.Schema
import SchemaStore.Proofs.Shape.RoundTrip
import SchemaStore.Proofs.SortedMap

/-!
# Operations as changes of entries

An operation of a facade asks the store at most one thing (`Op.call`). If one of its values has no
text, it is refused before that (`Op.run_of_refused`), and else it passes on what the store replies
(`Op.run_of_call`). Over a store in memory this call comes down to writes of single
entries, one after another: `Op.changes` lists them with their typed values, and `Change.write?` gives
the write of each. So an operation makes all of its changes or none (`Op.run_cases`), and what every
change of one entry keeps, an operation keeps (`Change.foldl_related`).
-/

namespace SchemaStore

/-! ## Writes to a store -/

/-- A change of one entry, or the removal of all of them. -/
inductive Write
  /-- Put a text under a key. -/
  | put (key text : String)
  /-- Merge a text into the one under a key. -/
  | merge (key text : String)
  /-- Remove the entry under a key. -/
  | remove (key : String)
  /-- Remove every entry. -/
  | clear
deriving DecidableEq

/-- The writes a call consists of, in order. -/
def Call.writes : Call → List Write
  | .set key text => [.put key text]
  | .remove key => [.remove key]
  | .merge key text => [.merge key text]
  | .multiSet entries => entries.map fun e => .put e.1 e.2
  | .multiMerge entries => entries.map fun e => .merge e.1 e.2
  | .multiRemove keys => keys.map .remove
  | .clear => [.clear]
  | .get _ | .multiGet _ | .allKeys | .flush => []

/-- The call changes nothing. -/
def Call.isRead : Call → Bool
  | .get _ | .multiGet _ | .allKeys | .flush => true
  | _ => false

theorem Call.writes_of_isRead {c : Call} (h : c.isRead = true) : c.writes = [] := by
  cases c with
  | get key | multiGet keys | allKeys | flush => rfl
  | _ => cases h

namespace MemoryStore

/-- The store after a write. -/
def write (m : MemoryStore) : Write → MemoryStore
  | .put key text => m.set key text
  | .merge key text => m.merge key text
  | .remove key => m.remove key
  | .clear => empty

/-- A call is the sequence of its writes. -/
theorem after_eq_foldl (m : MemoryStore) (c : Call) : m.after c = c.writes.foldl write m := by
  cases c with
  | multiSet entries => rw [Call.writes, List.foldl_map]; rfl
  | multiMerge entries => rw [Call.writes, List.foldl_map]; rfl
  | multiRemove keys => rw [Call.writes, List.foldl_map]; rfl
  | _ => rfl

theorem get_set (m : MemoryStore) (key key' text : String) :
    (m.set key text).get key' = if key' = key then some text else m.get key' := by
  have hfind := SortedMap.find?_insert m.entries key key' text
  simp only [Std.LawfulEqCmp.compare_eq_iff_eq] at hfind
  exact hfind

theorem get_remove (m : MemoryStore) (key key' : String) :
    (m.remove key).get key' = if key' = key then none else m.get key' := by
  have hfind := SortedMap.find?_erase m.entries key key'
  simp only [Std.LawfulEqCmp.compare_eq_iff_eq] at hfind
  exact hfind

/-- The text under a key is the only one that a merge into it looks at or changes. -/
theorem get_merge (m : MemoryStore) (key key' text : String) :
    (m.merge key text).get key' =
      if key' = key then some (Codec.shallowMerge (m.get key) text) else m.get key' :=
  get_set m key key' _

theorem get_empty (key : String) : empty.get key = none := rfl

end MemoryStore

/-! ## Changes -/

/-- A change of the value under one key, or the removal of every entry. -/
inductive Change (S : Schema)
  /-- Put a value under a key. -/
  | put (e : S.Entry)
  /-- Merge a value into the one under a key. -/
  | merge (e : S.MergeEntry)
  /-- Remove the value under a key. -/
  | remove (k : S.Key)
  /-- Remove every entry. -/
  | clear

variable {S : Schema} {σ ε : Type}

/-- The write a change is made by, if its value has a text that can be written. -/
def Change.write? : Change S → Option Write
  | .put e => (Codec.encode (Schema.shape e.1) e.2).toOption.map (.put (Schema.name e.1))
  | .merge e =>
    (Codec.encodeComposite (Schema.shape e.1.val) e.2).toOption.map (.merge (Schema.name e.1.val))
  | .remove k => some (.remove (Schema.name k))
  | .clear => some .clear

/-- The writes are those of the changes. -/
def Change.AreWritten (ws : List Write) (cs : List (Change S)) : Prop :=
  List.Forall₂ (fun w c => c.write? = some w) ws cs

namespace Op

/-- The changes an operation makes when it succeeds, in order. -/
def changes : Op S → List (Change S)
  | .set k v => [.put ⟨k, v⟩]
  | .remove k => [.remove k]
  | .merge k v => [.merge ⟨k, v⟩]
  | .multiSet entries => entries.map .put
  | .multiMerge entries => entries.map .merge
  | .multiRemove keys => keys.map .remove
  | .clear => [.clear]
  | .get _ | .getLegacy _ | .multiGet _ | .allKeys | .storedKeys | .flush => []

/-- The call an operation makes, unless one of its values is refused. -/
def call : Op S → Except (Failure ε) Call
  | .get k => .ok (.get (Schema.name k))
  | .getLegacy k => .ok (.get (Schema.name k))
  | .set k v => (Batch.encodeEntry ⟨k, v⟩).map fun t => .set t.1 t.2
  | .remove k => .ok (.remove (Schema.name k))
  | .merge k v => (Batch.encodeMergeEntry ⟨k, v⟩).map fun t => .merge t.1 t.2
  | .multiGet keys => .ok (.multiGet (Batch.names keys))
  | .multiSet entries => (Batch.encode entries).map .multiSet
  | .multiMerge entries => (Batch.encodeMerge entries).map .multiMerge
  | .multiRemove keys => .ok (.multiRemove (Batch.names keys))
  | .allKeys | .storedKeys => .ok .allKeys
  | .clear => .ok .clear
  | .flush => .ok .flush

end Op

theorem error_of_map_error {α β δ : Type} {f : α → β} {r : Except δ α} {e : δ}
    (h : r.map f = .error e) : r = .error e := by
  cases r with
  | error e' => exact congrArg Except.error (Except.error.inj h)
  | ok a => cases h

namespace Batch

/-- The entries of a batch are encoded one by one, up to the first that cannot be. -/
theorem encode_eq_mapM : ∀ entries : List S.Entry,
    (encode entries : Except (Failure ε) _) = List.mapM encodeEntry entries
  | [] => rfl
  | e :: rest => by
    rw [encode, List.mapM_cons, encode_eq_mapM rest]
    cases (encodeEntry e : Except (Failure ε) _) with
    | error f => rfl
    | ok entry => cases (List.mapM encodeEntry rest : Except (Failure ε) _) <;> rfl

theorem encodeMerge_eq_mapM : ∀ entries : List S.MergeEntry,
    (encodeMerge entries : Except (Failure ε) _) = List.mapM encodeMergeEntry entries
  | [] => rfl
  | e :: rest => by
    rw [encodeMerge, List.mapM_cons, encodeMerge_eq_mapM rest]
    cases (encodeMergeEntry e : Except (Failure ε) _) with
    | error f => rfl
    | ok entry => cases (List.mapM encodeMergeEntry rest : Except (Failure ε) _) <;> rfl

theorem refusalEvents_of_encodeEntry {e : S.Entry} {f : Failure ε}
    (h : encodeEntry e = .error f) : refusalEvents f = [] := by
  rw [encodeEntry] at h
  split at h
  · cases h
  · cases h
    rfl

/-- Only the refusal to merge is reported. A value that cannot be written fails without an event. -/
theorem refusalEvents_of_encode {entries : List S.Entry} {f : Failure ε}
    (h : encode entries = .error f) : refusalEvents f = [] := by
  induction entries with
  | nil => cases h
  | cons e rest ih =>
    rw [encode] at h
    split at h
    · next hentry =>
      cases h
      exact refusalEvents_of_encodeEntry hentry
    · exact ih (error_of_map_error h)

end Batch

/-! ## What an operation does to a store -/

namespace Change

theorem text_of_write {δ : Type} {r : Except δ String} {f : String → Write} {w : Write}
    (h : r.toOption.map f = some w) : ∃ text, r = .ok text ∧ w = f text := by
  cases r with
  | ok text => exact ⟨text, rfl, (Option.some.inj h).symm⟩
  | error e => cases h

theorem write?_put_eq {e : S.Entry} {w : Write} (h : (put e).write? = some w) :
    ∃ text, Codec.encode (Schema.shape e.1) e.2 = .ok text ∧ w = .put (Schema.name e.1) text :=
  text_of_write h

theorem write?_merge_eq {e : S.MergeEntry} {w : Write} (h : (merge e).write? = some w) :
    ∃ text, Codec.encodeComposite (Schema.shape e.1.val) e.2 = .ok text ∧
      w = .merge (Schema.name e.1.val) text :=
  text_of_write h

theorem write?_put {e : S.Entry} {t : String × String}
    (h : (Batch.encodeEntry e : Except (Failure ε) _) = .ok t) :
    (put e).write? = some (.put t.1 t.2) := by
  rw [Batch.encodeEntry] at h
  split at h
  · next text htext =>
    cases h
    rw [write?, htext]
    rfl
  · cases h

theorem write?_merge {e : S.MergeEntry} {t : String × String}
    (h : (Batch.encodeMergeEntry e : Except (Failure ε) _) = .ok t) :
    (merge e).write? = some (.merge t.1 t.2) := by
  rw [Batch.encodeMergeEntry] at h
  split at h
  · next text htext =>
    cases h
    rw [write?, htext]
    rfl
  · cases h
  · cases h

theorem exists_encodeEntry {e : S.Entry} {w : Write} (h : (put e).write? = some w) :
    ∃ t, (Batch.encodeEntry e : Except (Failure ε) _) = .ok t := by
  obtain ⟨text, htext, -⟩ := write?_put_eq h
  exact ⟨_, by rw [Batch.encodeEntry, htext]⟩

theorem exists_encodeMergeEntry {e : S.MergeEntry} {w : Write} (h : (merge e).write? = some w) :
    ∃ t, (Batch.encodeMergeEntry e : Except (Failure ε) _) = .ok t := by
  obtain ⟨text, htext, -⟩ := write?_merge_eq h
  exact ⟨_, by rw [Batch.encodeMergeEntry, htext]⟩

theorem areWritten_map {α : Type} {encode : α → Except (Failure ε) (String × String)}
    {write : String × String → Write} {change : α → Change S}
    (h : ∀ {a t}, encode a = .ok t → (change a).write? = some (write t)) {as : List α}
    {texts : List (String × String)} (htexts : List.mapM encode as = .ok texts) :
    AreWritten (texts.map write) (as.map change) := by
  rw [AreWritten, List.forall₂_map_left_iff, List.forall₂_map_right_iff]
  exact forall₂_of_mapM htexts fun _ _ _ _ hat => h hat

end Change

namespace Op

/-- A refused operation does nothing but report the refusal, if its value cannot be merged. -/
theorem body_of_refused [RawStore σ ε] {op : Op S} {f : Failure ε} (h : op.call = .error f)
    (store : σ) : op.body store = refuse f store (Batch.refusalEvents f) := by
  cases op with
  | set k v =>
    have hencode := error_of_map_error h
    rw [body, hencode, Batch.refusalEvents_of_encodeEntry hencode]
  | merge k v => rw [body, error_of_map_error h]
  | multiSet entries =>
    have hencode := error_of_map_error h
    rw [body, hencode, Batch.refusalEvents_of_encode hencode]
  | multiMerge entries => rw [body, Batch.encodeMergeLogged, error_of_map_error h]
  | _ => cases h

/-- A refused operation does not reach the store. -/
theorem run_of_refused [RawStore σ ε] {op : Op S} {f : Failure ε} (h : op.call = .error f)
    (store : σ) : ∃ events, op.run store = ⟨.error f, store, events⟩ := by
  apply Exists.intro
  rw [run, body_of_refused h]
  rfl

theorem call_set {k : S.Key} {v : S.Val k} {text : String}
    (h : Codec.encode (Schema.shape k) v = .ok text) :
    ((Op.set k v).call : Except (Failure ε) Call) = .ok (.set (Schema.name k) text) := by
  rw [call, Batch.encodeEntry, h]
  rfl

theorem call_merge {k : S.MergeKey} {v : S.Val k.val} {text : String}
    (h : Codec.encodeComposite (Schema.shape k.val) v = .ok text) :
    ((Op.merge k v).call : Except (Failure ε) Call) = .ok (.merge (Schema.name k.val) text) := by
  rw [call, Batch.encodeMergeEntry, h]
  rfl

/-- The reply of an operation is made from that of a call. What is written is not refused after the
store has accepted it. -/
structure Relays [RawStore σ ε] (c : Call) (store : σ) {β : Type}
    (reply : Reply (Failure ε) σ β) : Prop where
  store_eq : reply.store = (RawStore.perform c store).store
  of_error : ∀ e, (RawStore.perform c store).answer = .error e → reply.answer = .error (.store e)
  of_ok : c.isRead = false → ∀ a, (RawStore.perform c store).answer = .ok a →
    ∃ b, reply.answer = .ok b

section Relays

variable [RawStore σ ε] {c : Call} {store : σ}

theorem relays_ask (c : Call) (store : σ) : Relays c store (ask c store) := by
  refine ⟨rfl, ?_, ?_⟩
  · intro e he
    show (RawStore.perform c store).answer.mapError _ = _
    rw [he]
    rfl
  · intro _ a ha
    refine ⟨a, ?_⟩
    show (RawStore.perform c store).answer.mapError _ = _
    rw [ha]
    rfl

theorem Relays.after {β : Type} {reply : Reply (Failure ε) σ β} (h : Relays c store reply)
    (events : List Event) : Relays c store (Op.after events reply) :=
  ⟨h.store_eq, h.of_error, h.of_ok⟩

/-- Only the answer to a read is interpreted. -/
theorem Relays.interpret {β γ : Type} {reply : Reply (Failure ε) σ β} (h : Relays c store reply)
    (hread : c.isRead = true) (f : β → Logged (Except (Failure ε) γ)) :
    Relays c store (Op.interpret f reply) := by
  obtain ⟨answer, after, events⟩ := reply
  refine ⟨?_, ?_, ?_⟩
  · cases answer <;> exact h.store_eq
  · intro e he
    obtain rfl : answer = .error (.store e) := h.of_error e he
    rfl
  · intro hwrite
    rw [hread] at hwrite
    cases hwrite

/-- An operation that is not refused passes on what the store replies to its call. -/
theorem run_of_call {op : Op S} (h : (op.call : Except (Failure ε) Call) = .ok c) (store : σ) :
    Relays c store (op.run store) := by
  refine Relays.after ?_ _
  cases op with
  | get k | getLegacy k | multiGet keys | storedKeys =>
    cases h
    exact (relays_ask _ store).interpret rfl _
  | set k v =>
    obtain ⟨t, ht, rfl⟩ := exists_of_map_ok h
    rw [body, ht]
    exact relays_ask _ store
  | merge k v =>
    obtain ⟨t, ht, rfl⟩ := exists_of_map_ok h
    rw [body, ht]
    exact relays_ask _ store
  | multiSet entries =>
    obtain ⟨texts, htexts, rfl⟩ := exists_of_map_ok h
    rw [body, htexts]
    exact (relays_ask _ store).after _
  | multiMerge entries =>
    obtain ⟨texts, htexts, rfl⟩ := exists_of_map_ok h
    rw [body, Batch.encodeMergeLogged, htexts]
    exact (relays_ask _ store).after _
  | remove k | multiRemove keys | allKeys | clear | flush =>
    cases h
    exact relays_ask _ store

end Relays

/-- The call of an operation consists of the writes of its changes. -/
theorem call_writes {op : Op S} {c : Call} (h : (op.call : Except (Failure ε) Call) = .ok c) :
    Change.AreWritten c.writes op.changes := by
  cases op with
  | set k v =>
    obtain ⟨t, ht, rfl⟩ := exists_of_map_ok h
    exact .cons (Change.write?_put ht) .nil
  | merge k v =>
    obtain ⟨t, ht, rfl⟩ := exists_of_map_ok h
    exact .cons (Change.write?_merge ht) .nil
  | multiSet entries =>
    obtain ⟨texts, htexts, rfl⟩ := exists_of_map_ok h
    rw [Batch.encode_eq_mapM] at htexts
    exact Change.areWritten_map Change.write?_put htexts
  | multiMerge entries =>
    obtain ⟨texts, htexts, rfl⟩ := exists_of_map_ok h
    rw [Batch.encodeMerge_eq_mapM] at htexts
    exact Change.areWritten_map Change.write?_merge htexts
  | multiRemove keys =>
    cases h
    rw [Call.writes, Batch.names, List.map_map, Change.AreWritten, changes,
      List.forall₂_map_left_iff, List.forall₂_map_right_iff]
    exact List.forall₂_same.2 fun k _ => rfl
  | remove k =>
    cases h
    exact .cons rfl .nil
  | clear =>
    cases h
    exact .cons rfl .nil
  | get k | getLegacy k | multiGet keys | allKeys | storedKeys | flush =>
    cases h
    exact .nil

/-- An operation whose changes can all be written makes its call. -/
theorem exists_call {op : Op S} (h : ∀ c ∈ op.changes, ∃ w, c.write? = some w) :
    ∃ c, (op.call : Except (Failure ε) Call) = .ok c := by
  cases op with
  | set k v =>
    obtain ⟨w, hw⟩ := h _ List.mem_cons_self
    obtain ⟨t, ht⟩ := Change.exists_encodeEntry hw
    exact ⟨.set t.1 t.2, by rw [call, ht]; rfl⟩
  | merge k v =>
    obtain ⟨w, hw⟩ := h _ List.mem_cons_self
    obtain ⟨t, ht⟩ := Change.exists_encodeMergeEntry hw
    exact ⟨.merge t.1 t.2, by rw [call, ht]; rfl⟩
  | multiSet entries =>
    have hall : ∀ e ∈ entries, ∃ t, (Batch.encodeEntry e : Except (Failure ε) _) = .ok t := by
      intro e he
      obtain ⟨w, hw⟩ := h (.put e) (List.mem_map_of_mem he)
      exact Change.exists_encodeEntry hw
    obtain ⟨texts, htexts⟩ := Shape.exists_mapM hall
    rw [← Batch.encode_eq_mapM] at htexts
    exact ⟨_, congrArg (Except.map Call.multiSet) htexts⟩
  | multiMerge entries =>
    have hall : ∀ e ∈ entries, ∃ t, (Batch.encodeMergeEntry e : Except (Failure ε) _) = .ok t := by
      intro e he
      obtain ⟨w, hw⟩ := h (.merge e) (List.mem_map_of_mem he)
      exact Change.exists_encodeMergeEntry hw
    obtain ⟨texts, htexts⟩ := Shape.exists_mapM hall
    rw [← Batch.encodeMerge_eq_mapM] at htexts
    exact ⟨_, congrArg (Except.map Call.multiMerge) htexts⟩
  | get k | getLegacy k | remove k | multiGet keys | multiRemove keys | allKeys | storedKeys | clear
  | flush => exact ⟨_, rfl⟩

end Op

/-! ## Operations on a store in memory -/

namespace Op

variable {op : Op S} {m : MemoryStore}

theorem run_set {k : S.Key} {v : S.Val k} {text : String}
    (h : Codec.encode (Schema.shape k) v = .ok text) (m : MemoryStore) :
    ((Op.set k v).run m).answer = .ok () ∧
      ((Op.set k v).run m).store = m.set (Schema.name k) text := by
  have hrun := run_of_call (call_set h) m
  obtain ⟨b, hb⟩ := hrun.of_ok rfl () rfl
  exact ⟨hb, hrun.store_eq⟩

theorem run_merge {k : S.MergeKey} {v : S.Val k.val} {text : String}
    (h : Codec.encodeComposite (Schema.shape k.val) v = .ok text) (m : MemoryStore) :
    ((Op.merge k v).run m).answer = .ok () ∧
      ((Op.merge k v).run m).store = m.merge (Schema.name k.val) text := by
  have hrun := run_of_call (call_merge h) m
  obtain ⟨b, hb⟩ := hrun.of_ok rfl () rfl
  exact ⟨hb, hrun.store_eq⟩

/-- An operation that fails leaves the store as it was, and one that succeeds makes all of its
changes. -/
theorem run_cases (op : Op S) (m : MemoryStore) :
    ((∃ f, (op.run m).answer = .error f) ∧ (op.run m).store = m) ∨
      (∃ a, (op.run m).answer = .ok a) ∧
        ∃ ws, Change.AreWritten ws op.changes ∧ (op.run m).store = ws.foldl MemoryStore.write m := by
  cases hcall : (op.call : Except (Failure Empty) Call) with
  | error f =>
    obtain ⟨events, hrun⟩ := run_of_refused hcall m
    rw [hrun]
    exact .inl ⟨⟨f, rfl⟩, rfl⟩
  | ok c =>
    have hrun := run_of_call hcall m
    have hwrites := call_writes hcall
    have hafter : (op.run m).store = c.writes.foldl MemoryStore.write m :=
      hrun.store_eq.trans (m.after_eq_foldl c)
    cases hanswer : (op.run m).answer with
    | ok a => exact .inr ⟨⟨a, rfl⟩, c.writes, hwrites, hafter⟩
    | error f =>
      -- what fails after its call is a read
      have hread : c.isRead = true := by
        by_contra hwrite
        obtain ⟨b, hb⟩ := hrun.of_ok (Bool.eq_false_iff.2 hwrite) (m.answer c) rfl
        rw [hanswer] at hb
        cases hb
      rw [Call.writes_of_isRead hread] at hafter
      exact .inl ⟨⟨f, rfl⟩, hafter⟩

/-- Where every change can be written, a store in memory carries out all of them, in order. -/
theorem run_of_writable (m : MemoryStore) (h : ∀ c ∈ op.changes, ∃ w, c.write? = some w) :
    ∃ ws, Change.AreWritten ws op.changes ∧ (op.run m).store = ws.foldl MemoryStore.write m := by
  obtain ⟨c, hc⟩ := exists_call (ε := Empty) h
  exact ⟨c.writes, call_writes hc, (run_of_call hc m).store_eq.trans (m.after_eq_foldl c)⟩

end Op

theorem Change.exists_write {ws : List Write} {cs : List (Change S)} (h : AreWritten ws cs) :
    ∀ c ∈ cs, ∃ w, c.write? = some w := by
  induction h with
  | nil => nofun
  | cons hw _ ih => exact List.forall_mem_cons.2 ⟨⟨_, hw⟩, ih⟩

/-- What relates a state to a store is kept by a sequence of changes if it is by each of them. -/
theorem Change.foldl_related {α : Type} {R : α → MemoryStore → Prop} {f : α → Change S → α}
    {ws : List Write} {cs : List (Change S)} (hws : AreWritten ws cs)
    (h : ∀ c ∈ cs, ∀ w, c.write? = some w → ∀ a m, R a m → R (f a c) (m.write w)) {a : α}
    {m : MemoryStore} (hR : R a m) : R (cs.foldl f a) (ws.foldl MemoryStore.write m) := by
  induction hws generalizing a m with
  | nil => exact hR
  | @cons w c ws cs hw _ ih =>
    exact ih (fun c hc => h c (List.mem_cons_of_mem _ hc)) (h c List.mem_cons_self w hw a m hR)

end SchemaStore
