import SchemaStore.Proofs.SortedMap
import SchemaStore.Proofs.Text.Utf8
import SchemaStore.Store.Keyspace
import SchemaStore.Store.Memory

/-!
# A keyspace and a store in memory

A keyspace behaves like a store in memory as long as it is given keys that it can write. The two are
related by `Keyspace.Holds`: the keyspace has the same entries, as bytes, in the same order. Every
call keeps the relation and is answered alike (`Keyspace.perform_holds`). The only call that takes
different ways is a batch of merges. The results that wait to be written, put over what is stored,
are what the store in memory has come to (`Keyspace.merged_union`).
-/

namespace SchemaStore

/-! ## Outcomes -/

/-- The error, if there is one. -/
def errorOf {δ α : Type} : Except δ α → Option δ
  | .error e => some e
  | .ok _ => none

section ErrorOf

variable {δ α β : Type}

theorem errorOf_eq_some {r : Except δ α} {e : δ} : errorOf r = some e ↔ r = .error e := by
  cases r <;> simp [errorOf]

theorem exists_of_errorOf {r : Except δ α} (h : errorOf r = none) : ∃ a, r = .ok a := by
  cases r with
  | error e => cases h
  | ok a => exact ⟨a, rfl⟩

theorem errorOf_map (f : α → β) (r : Except δ α) : errorOf (r.map f) = errorOf r := by
  cases r <;> rfl

/-- The first error ends the whole. -/
theorem errorOf_mapM (f : α → Except δ β) (as : List α) :
    errorOf (List.mapM f as) = as.findSome? fun a => errorOf (f a) := by
  induction as with
  | nil => rfl
  | cons a as ih =>
    rw [List.mapM_cons, List.findSome?_cons, ← ih]
    cases f a with
    | error e => rfl
    | ok b => cases List.mapM f as <;> rfl

end ErrorOf

/-! ## Calls -/

/-- The store after some calls. -/
def afterCalls {σ ε : Type} [RawStore σ ε] (calls : List Call) (store : σ) : σ :=
  calls.foldl (fun s c => (RawStore.perform c s).store) store

namespace Call

/-- The keys a call names. -/
def keys : Call → List String
  | .get key => [key]
  | .set key _ => [key]
  | .remove key => [key]
  | .merge key _ => [key]
  | .multiGet keys => keys
  | .multiSet entries => entries.map (·.1)
  | .multiMerge entries => entries.map (·.1)
  | .multiRemove keys => keys
  | .allKeys | .clear | .flush => []

/-- A keyspace can write every key the call names. -/
def Accepted (c : Call) : Prop := ∀ key ∈ c.keys, Keyspace.accepts (Utf8.encode key) = true

instance (c : Call) : Decidable c.Accepted :=
  inferInstanceAs (Decidable (∀ key ∈ c.keys, Keyspace.accepts (Utf8.encode key) = true))

end Call

theorem MemoryStore.foldl_set (entries : List (String × String)) (m : MemoryStore) :
    entries.foldl (fun m e => m.set e.1 e.2) m = ⟨m.entries.insertAll entries⟩ := by
  induction entries generalizing m with
  | nil => rfl
  | cons e rest ih => exact ih (m.set e.1 e.2)

namespace Keyspace

/-- The keyspace of some texts, of which a later one replaces an earlier one. -/
def ofTexts (entries : List (String × String)) : Keyspace :=
  entries.foldl (fun s e => s.set e.1 e.2) .empty

/-- The keyspace has the entries of the store in memory, in the same order. -/
def Holds (s : Keyspace) (m : MemoryStore) : Prop :=
  s.entries.entries = m.entries.entries.map fun e => (Utf8.encode e.1, Utf8.encode e.2)

variable {s : Keyspace} {m : MemoryStore}

/-! ## Failures -/

theorem writing_of_error {s : Keyspace} {result : Except KeyspaceError Keyspace} {e : KeyspaceError}
    (h : (s.writing result).answer = .error e) : (s.writing result).store = s := by
  unfold writing at h ⊢
  cases result with
  | error e' => rfl
  | ok s' => cases h

/-- A call that fails leaves the keyspace as it was, since a batch is checked before any of it is
written. -/
theorem perform_of_error {s : Keyspace} {c : Call} {e : KeyspaceError}
    (h : (s.perform c).answer = .error e) : (s.perform c).store = s := by
  cases c with
  | get key | multiGet keys | allKeys | flush => rfl
  | set key text | merge key text | remove key | multiSet entries | multiMerge entries
  | multiRemove keys => exact writing_of_error h
  | clear => cases h

/-! ## Single entries -/

theorem holds_empty : Holds .empty .empty := rfl

/-- The bytes of the keys have the order of the keys, so a new entry goes to the same place. -/
theorem holds_set (h : s.Holds m) (key text : String) : (s.set key text).Holds (m.set key text) := by
  have hinsert := SortedMap.insertEntry_map (g := Utf8.encode) Utf8.compare_encode key text
    m.entries.entries
  rw [← h] at hinsert
  exact hinsert

theorem holds_remove (h : s.Holds m) (key : String) : (s.remove key).Holds (m.remove key) := by
  have herase := SortedMap.eraseEntry_map (g := Utf8.encode) Utf8.compare_encode key
    m.entries.entries
  rw [← h] at herase
  exact herase

/-- Whatever the keys are, none is left. -/
theorem clear_eq_empty (s : Keyspace) : s.clear = empty := by
  have hentries : ∀ (keys : List Bytes) (entries : SortedMap Bytes Bytes),
      keys.foldl removeBytes ⟨entries⟩ = ⟨keys.foldl SortedMap.erase entries⟩ := by
    intro keys
    induction keys with
    | nil => exact fun _ => rfl
    | cons key rest ih => exact fun entries => ih (entries.erase key)
  rw [clear, hentries s.entries.keys s.entries, SortedMap.foldl_erase_keys]
  rfl

/-- A read of a key is answered as from memory, since the bytes under it are a text. -/
theorem get_holds (h : s.Holds m) (key : String) : s.get key = .ok (m.get key) := by
  have hlookup := SortedMap.lookup_map (g := Utf8.encode) Utf8.compare_encode key m.entries.entries
  rw [← h] at hlookup
  have hfind : s.entries.find? (Utf8.encode key) = (m.get key).map Utf8.encode := hlookup
  rw [get, hfind]
  cases m.get key with
  | none => rfl
  | some text => simp only [Option.map_some, Utf8.decode?_encode]

theorem keys_holds (h : s.Holds m) : s.keys = m.entries.keys := by
  rw [keys, SortedMap.keys, SortedMap.keys, h]
  simp

/-! ## Batches -/

theorem checkKeys_ok {keys : List String}
    (h : ∀ key ∈ keys, accepts (Utf8.encode key) = true) : checkKeys keys = .ok () := by
  induction keys with
  | nil => rfl
  | cons key rest ih =>
    rw [checkKeys, if_pos (h key List.mem_cons_self)]
    exact ih fun k hk => h k (List.mem_cons_of_mem _ hk)

theorem holds_foldl_set (h : s.Holds m) (entries : List (String × String)) :
    (entries.foldl (fun s e => s.set e.1 e.2) s).Holds
      (entries.foldl (fun m e => m.set e.1 e.2) m) := by
  induction entries generalizing s m with
  | nil => exact h
  | cons e rest ih => exact ih (holds_set h e.1 e.2)

theorem holds_foldl_remove (h : s.Holds m) (keys : List String) :
    (keys.foldl remove s).Holds (keys.foldl MemoryStore.remove m) := by
  induction keys generalizing s m with
  | nil => exact h
  | cons key rest ih => exact ih (holds_remove h key)

theorem setAll_holds (h : s.Holds m) {entries : List (String × String)}
    (hkeys : ∀ key ∈ entries.map (·.1), accepts (Utf8.encode key) = true) :
    ∃ s', s.setAll entries = .ok s' ∧ s'.Holds (entries.foldl (fun m e => m.set e.1 e.2) m) := by
  refine ⟨_, ?_, holds_foldl_set h entries⟩
  rw [setAll, checkKeys_ok hkeys]
  rfl

theorem removeAll_holds (h : s.Holds m) {keys : List String}
    (hkeys : ∀ key ∈ keys, accepts (Utf8.encode key) = true) :
    ∃ s', s.removeAll keys = .ok s' ∧ s'.Holds (keys.foldl MemoryStore.remove m) := by
  refine ⟨_, ?_, holds_foldl_remove h keys⟩
  rw [removeAll, checkKeys_ok hkeys]
  rfl

theorem multiGet_holds (h : s.Holds m) (keys : List String) :
    List.mapM (fun key => (s.get key).map fun text => (key, text)) keys =
      .ok (keys.map fun key => (key, m.get key)) := by
  induction keys with
  | nil => rfl
  | cons key rest ih =>
    rw [List.mapM_cons, get_holds h, ih]
    rfl

/-! ## Merges -/

/-- What is stored, with the results that wait to be written put over it. -/
def pendingStore (m : MemoryStore) (pending : SortedMap String String) : MemoryStore :=
  ⟨m.entries.union pending⟩

theorem pendingStore_set (m : MemoryStore) (pending : SortedMap String String) (key text : String) :
    pendingStore m (pending.insert key text) = (pendingStore m pending).set key text :=
  congrArg MemoryStore.mk (SortedMap.union_insert m.entries pending key text)

/-- Results are written under the keys that were merged. -/
theorem accepts_merged {entries : List (String × String)} {pending results : SortedMap String String}
    (hmerged : s.merged entries pending = .ok results)
    (hkeys : ∀ key ∈ entries.map (·.1), accepts (Utf8.encode key) = true)
    (hpending : ∀ key ∈ pending.keys, accepts (Utf8.encode key) = true) :
    ∀ key ∈ results.keys, accepts (Utf8.encode key) = true := by
  induction entries generalizing pending with
  | nil =>
    cases hmerged
    exact hpending
  | cons e rest ih =>
    obtain ⟨hkey, hrest⟩ := List.forall_mem_cons.1 hkeys
    have hlater : ∀ text, ∀ key ∈ (pending.insert e.1 text).keys,
        accepts (Utf8.encode key) = true := by
      intro text key hmem
      obtain ⟨e', he', rfl⟩ := List.mem_map.1 hmem
      rcases SortedMap.mem_entries_insert he' with rfl | he'
      · exact hkey
      · exact hpending e'.1 (List.mem_map_of_mem he')
    rw [merged] at hmerged
    split at hmerged
    · exact ih hmerged hrest (hlater _)
    · split at hmerged
      · exact ih hmerged hrest (hlater _)
      · cases hmerged

/-- The results that wait to be written are those of the merges made in place. -/
theorem merged_union (h : s.Holds m) (entries : List (String × String))
    (pending : SortedMap String String) :
    ∃ results, s.merged entries pending = .ok results ∧
      pendingStore m results =
        entries.foldl (fun m e => m.merge e.1 e.2) (pendingStore m pending) := by
  -- a key that comes again finds the result that waits for it, so the pending map is generalized
  induction entries generalizing pending with
  | nil => exact ⟨pending, rfl, rfl⟩
  | cons e rest ih =>
    obtain ⟨key, text⟩ := e
    have hget : (pendingStore m pending).get key = (pending.find? key).or (m.get key) :=
      SortedMap.find?_union m.entries pending key
    have hstep := fun merged : String => ih (pending.insert key merged)
    simp only [pendingStore_set] at hstep
    rw [merged, List.foldl_cons, MemoryStore.merge, hget]
    cases hfind : pending.find? key with
    | some earlier => exact hstep _
    | none =>
      simp only [get_holds h]
      exact hstep _

/-- A batch of merges keeps the relation, though it collects its results before it writes any. -/
theorem mergeAll_holds (h : s.Holds m) {entries : List (String × String)}
    (hkeys : ∀ key ∈ entries.map (·.1), accepts (Utf8.encode key) = true) :
    ∃ s', s.mergeAll entries = .ok s' ∧
      s'.Holds (entries.foldl (fun m e => m.merge e.1 e.2) m) := by
  obtain ⟨results, hmerged, hunion⟩ := merged_union h entries .empty
  have hstart : pendingStore m .empty = m := rfl
  obtain ⟨s', hset, hs'⟩ := setAll_holds h (accepts_merged hmerged hkeys nofun)
  rw [MemoryStore.foldl_set] at hs'
  rw [hstart] at hunion
  refine ⟨s', ?_, hunion ▸ hs'⟩
  rw [mergeAll, hmerged]
  exact hset

/-! ## Whole calls -/

theorem writing_holds {result : Except KeyspaceError Keyspace}
    (h : ∃ s', result = .ok s' ∧ s'.Holds m) :
    (s.writing result).answer = .ok () ∧ (s.writing result).store.Holds m := by
  obtain ⟨s', rfl, hs'⟩ := h
  exact ⟨rfl, hs'⟩

/-- Every call is answered as by a store in memory with the same entries, and leaves the same entries
behind. -/
theorem perform_holds (h : s.Holds m) {c : Call} (hc : c.Accepted) :
    (s.perform c).answer = .ok (m.answer c) ∧ (s.perform c).store.Holds (m.after c) := by
  cases c with
  | get key => exact ⟨get_holds h key, h⟩
  | set key text => exact writing_holds (setAll_holds h hc)
  | remove key => exact writing_holds (removeAll_holds h hc)
  | merge key text => exact writing_holds (mergeAll_holds h hc)
  | multiGet keys => exact ⟨multiGet_holds h keys, h⟩
  | multiSet entries => exact writing_holds (setAll_holds h hc)
  | multiMerge entries => exact writing_holds (mergeAll_holds h hc)
  | multiRemove keys => exact writing_holds (removeAll_holds h hc)
  | allKeys => exact ⟨congrArg Except.ok (keys_holds h), h⟩
  | clear =>
    have hempty : (s.perform .clear).store = empty := s.clear_eq_empty
    exact ⟨rfl, hempty ▸ holds_empty⟩
  | flush => exact ⟨rfl, h⟩

end Keyspace

namespace OpenDatabase

theorem perform_of_error {o : OpenDatabase} {c : Call} {e : KeyspaceError}
    (h : (RawStore.perform c o).answer = .error e) : (RawStore.perform c o).store = o := by
  have hkeyspace : (o.keyspace.perform c).store = o.keyspace := Keyspace.perform_of_error h
  show { o with keyspace := (o.keyspace.perform c).store } = o
  rw [hkeyspace]

/-- A run of accepted calls keeps the relation. -/
theorem afterCalls_holds {o : OpenDatabase} {m : MemoryStore} (h : o.keyspace.Holds m)
    (calls : List Call) (hcalls : ∀ c ∈ calls, c.Accepted) :
    (afterCalls calls o).keyspace.Holds (afterCalls calls m) := by
  induction calls generalizing o m with
  | nil => exact h
  | cons c rest ih =>
    have hstep := (Keyspace.perform_holds h (hcalls c List.mem_cons_self)).2
    exact ih hstep fun c hc => hcalls c (List.mem_cons_of_mem _ hc)

/-- An open keyspace and a store in memory that start with the same entries answer every call alike
and have the same entries in the same order after every call, whatever the settings. -/
theorem answers_like_memory (settings : Settings) (database : Database)
    (entries : List (String × String)) (calls : List Call) (c : Call)
    (h : ∀ c' ∈ calls ++ [c], c'.Accepted) :
    let opened : OpenDatabase := afterCalls calls ⟨settings, database, Keyspace.ofTexts entries⟩
    let memory : MemoryStore := afterCalls calls (MemoryStore.ofList entries)
    opened.keyspace.Holds memory ∧
      (∃ answer, (RawStore.perform c opened).answer = .ok answer ∧
        (RawStore.perform c memory).answer = .ok answer) ∧
      (RawStore.perform c opened).store.keyspace.Holds (RawStore.perform c memory).store := by
  have hstart : (Keyspace.ofTexts entries).Holds (MemoryStore.ofList entries) := by
    have hfold := Keyspace.holds_foldl_set Keyspace.holds_empty entries
    rw [MemoryStore.foldl_set] at hfold
    exact hfold
  have hholds := @afterCalls_holds ⟨settings, database, Keyspace.ofTexts entries⟩ _ hstart calls
    fun c hc => h c (List.mem_append_left _ hc)
  obtain ⟨hanswer, hafter⟩ := Keyspace.perform_holds hholds (h c (by simp))
  exact ⟨hholds, ⟨_, hanswer, rfl⟩, hafter⟩

theorem answers_like_memory_merges :
    ∃ answer,
      (RawStore.perform (.get "a") (afterCalls [.multiMerge [("a", "[1]"), ("a", "[2]")]]
        (⟨.atPath "db", .empty, .ofTexts [("a", "[]")]⟩ : OpenDatabase))).answer = .ok answer ∧
      (RawStore.perform (.get "a") (afterCalls [.multiMerge [("a", "[1]"), ("a", "[2]")]]
        (MemoryStore.ofList [("a", "[]")]))).answer = .ok answer :=
  (answers_like_memory (.atPath "db") .empty [("a", "[]")]
    [.multiMerge [("a", "[1]"), ("a", "[2]")]] (.get "a") (by decide)).2.1

end OpenDatabase

end SchemaStore
