import SchemaStore.Proofs.Store.Keyspace

/-!
# Values that are no text

The values of a keyspace may have been written by others and need not be text. A call that needs the
text under a key fails if there is a value which is none, and the failure names the first such key
(`Keyspace.errorOf_perform`). A batch of merges finds the keys out one by one, and reads each of them
once; since the results that wait have all been read, it fails like a batch of reads
(`Keyspace.errorOf_merged`). Every other call succeeds, whatever the bytes are.
-/

namespace SchemaStore

/-- The call needs the texts under the keys that it names. -/
def Call.needsTexts : Call → Bool
  | .get _ | .merge .. | .multiGet _ | .multiMerge _ => true
  | .set .. | .remove _ | .multiSet _ | .multiRemove _ | .allKeys | .clear | .flush => false

namespace Keyspace

variable {s : Keyspace} {key : String} {e : KeyspaceError}

/-- There is a value under the key, and it is no text. -/
def IsUnreadable (s : Keyspace) (key : String) : Prop :=
  ∃ bytes, s.entries.find? (Utf8.encode key) = some bytes ∧ ∀ text, Utf8.encode text ≠ bytes

/-- The first of some keys under which there is a value that is no text. -/
def FirstUnreadable (s : Keyspace) (keys : List String) (key : String) : Prop :=
  ∃ before after, keys = before ++ key :: after ∧ s.IsUnreadable key ∧
    ∀ earlier ∈ before, ¬ s.IsUnreadable earlier

/-! ## Reads -/

theorem get_of_isUnreadable (h : s.IsUnreadable key) : s.get key = .error (.notText key) := by
  obtain ⟨bytes, hfind, hnone⟩ := h
  have hdecode : Utf8.decode? bytes = none := by
    rw [Option.eq_none_iff_forall_ne_some]
    intro text htext
    exact hnone text (Utf8.decode?_eq_some_iff.1 htext)
  rw [get, hfind]
  dsimp only
  rw [hdecode]

theorem exists_get (h : ¬ s.IsUnreadable key) : ∃ text, s.get key = .ok text := by
  unfold get
  cases hfind : s.entries.find? (Utf8.encode key) with
  | none => exact ⟨none, rfl⟩
  | some bytes =>
    dsimp only
    cases hdecode : Utf8.decode? bytes with
    | some text => exact ⟨some text, rfl⟩
    | none =>
      refine absurd ⟨bytes, hfind, fun text htext => ?_⟩ h
      rw [Utf8.decode?_eq_some_iff.2 htext] at hdecode
      cases hdecode

theorem errorOf_get_eq_none : errorOf (s.get key) = none ↔ ¬ s.IsUnreadable key := by
  constructor
  · intro hnone h
    rw [get_of_isUnreadable h] at hnone
    cases hnone
  · intro h
    obtain ⟨text, htext⟩ := exists_get h
    rw [htext]
    rfl

theorem errorOf_get_eq_some :
    errorOf (s.get key) = some e ↔ s.IsUnreadable key ∧ e = .notText key := by
  by_cases h : s.IsUnreadable key
  · rw [get_of_isUnreadable h]
    simp [errorOf, h, eq_comm]
  · simp [errorOf_get_eq_none.2 h, h]

/-- The first failure of some reads is that of the first value that is no text. -/
theorem findSome?_get_eq_some {keys : List String} :
    (keys.findSome? fun key => errorOf (s.get key)) = some e ↔
      ∃ key, s.FirstUnreadable keys key ∧ e = .notText key := by
  simp only [List.findSome?_eq_some_iff, errorOf_get_eq_some, errorOf_get_eq_none, FirstUnreadable]
  constructor
  · rintro ⟨before, key, after, hkeys, ⟨hkey, he⟩, hbefore⟩
    exact ⟨key, ⟨before, after, hkeys, hkey, hbefore⟩, he⟩
  · rintro ⟨key, ⟨before, after, hkeys, hkey, hbefore⟩, he⟩
    exact ⟨before, key, after, hkeys, ⟨hkey, he⟩, hbefore⟩

theorem exists_firstUnreadable_iff {keys : List String} :
    (∃ key, s.FirstUnreadable keys key) ↔ ∃ key ∈ keys, s.IsUnreadable key := by
  constructor
  · rintro ⟨key, before, after, rfl, hkey, -⟩
    exact ⟨key, by simp, hkey⟩
  · rintro ⟨key, hmem, hkey⟩
    cases hfirst : keys.findSome? fun key => errorOf (s.get key) with
    | some e =>
      obtain ⟨first, hfirst, -⟩ := findSome?_get_eq_some.1 hfirst
      exact ⟨first, hfirst⟩
    | none => exact absurd hkey (errorOf_get_eq_none.1 (List.findSome?_eq_none_iff.1 hfirst key hmem))

/-! ## Batches -/

/-- Merges fail like the reads of their keys, one after another. -/
theorem errorOf_merged {entries : List (String × String)} {pending : SortedMap String String}
    (hpending : ∀ key ∈ pending.keys, errorOf (s.get key) = none) :
    errorOf (s.merged entries pending) =
      (entries.map (·.1)).findSome? fun key => errorOf (s.get key) := by
  -- the results that wait are those of keys that have been read, which the induction keeps
  induction entries generalizing pending with
  | nil => rfl
  | cons e rest ih =>
    obtain ⟨key, text⟩ := e
    have hlater : errorOf (s.get key) = none → ∀ text, ∀ k ∈ (pending.insert key text).keys,
        errorOf (s.get k) = none := by
      intro hread text k hk
      obtain ⟨e', he', rfl⟩ := List.mem_map.1 hk
      rcases SortedMap.mem_entries_insert he' with rfl | he'
      · exact hread
      · exact hpending e'.1 (List.mem_map_of_mem he')
    rw [merged, List.map_cons, List.findSome?_cons]
    cases hfind : pending.find? key with
    | some earlier =>
      have hread : errorOf (s.get key) = none := by
        refine hpending key (Decidable.byContradiction fun hmem => ?_)
        rw [SortedMap.find?_eq_none_iff.2 hmem] at hfind
        cases hfind
      dsimp only
      rw [hread]
      exact ih (hlater hread _)
    | none =>
      cases hget : s.get key with
      | ok existing => exact ih (hlater (by rw [hget]; rfl) _)
      | error e => rfl

theorem errorOf_setAll {entries : List (String × String)}
    (h : ∀ key ∈ entries.map (·.1), accepts (Utf8.encode key) = true) :
    errorOf (s.setAll entries) = none := by
  rw [setAll, checkKeys_ok h]
  rfl

theorem errorOf_removeAll {keys : List String}
    (h : ∀ key ∈ keys, accepts (Utf8.encode key) = true) : errorOf (s.removeAll keys) = none := by
  rw [removeAll, checkKeys_ok h]
  rfl

theorem errorOf_mergeAll {entries : List (String × String)}
    (h : ∀ key ∈ entries.map (·.1), accepts (Utf8.encode key) = true) :
    errorOf (s.mergeAll entries) =
      (entries.map (·.1)).findSome? fun key => errorOf (s.get key) := by
  rw [← @errorOf_merged s entries .empty nofun, mergeAll]
  cases hmerged : s.merged entries .empty with
  | error e => rfl
  | ok results => exact errorOf_setAll (accepts_merged hmerged h nofun)

theorem errorOf_writing (s : Keyspace) (result : Except KeyspaceError Keyspace) :
    errorOf (s.writing result).answer = errorOf result := by
  cases result <;> rfl

/-! ## Calls -/

/-- A call that needs texts fails like the reads of its keys, and every other call succeeds. -/
theorem errorOf_perform {c : Call} (hc : c.Accepted) : errorOf (s.perform c).answer =
    if c.needsTexts then c.keys.findSome? fun key => errorOf (s.get key) else none := by
  cases c with
  | get key => exact (List.findSome?_singleton).symm
  | merge key text => exact (errorOf_writing _ _).trans (errorOf_mergeAll hc)
  | multiGet keys => exact (errorOf_mapM _ keys).trans (by simp only [errorOf_map]; rfl)
  | multiMerge entries => exact (errorOf_writing _ _).trans (errorOf_mergeAll hc)
  | set key text => exact (errorOf_writing _ _).trans (errorOf_setAll hc)
  | multiSet entries => exact (errorOf_writing _ _).trans (errorOf_setAll hc)
  | remove key => exact (errorOf_writing _ _).trans (errorOf_removeAll hc)
  | multiRemove keys => exact (errorOf_writing _ _).trans (errorOf_removeAll hc)
  | allKeys | clear | flush => rfl

/-- An accepted call fails exactly if it needs texts and one of its keys has none, and it fails for
the first of these. -/
theorem perform_eq_error_iff {c : Call} (hc : c.Accepted) : (s.perform c).answer = .error e ↔
    c.needsTexts = true ∧ ∃ key, s.FirstUnreadable c.keys key ∧ e = .notText key := by
  rw [← errorOf_eq_some, errorOf_perform hc, ← findSome?_get_eq_some]
  cases c.needsTexts <;> simp

end Keyspace

namespace OpenDatabase

/-- A call with keys that can be written fails exactly if it needs texts and there is a value that is
none under a key that it names. The failure names the first such key, and nothing is changed. Every
other call succeeds, and clearing leaves nothing, whatever the bytes of the keys. -/
theorem perform_on_foreign_bytes (o : OpenDatabase) {c : Call} (hc : c.Accepted) :
    ((∃ e, (RawStore.perform c o).answer = .error e) ↔
      c.needsTexts = true ∧ ∃ key ∈ c.keys, o.keyspace.IsUnreadable key) ∧
    (∀ e, (RawStore.perform c o).answer = .error e ↔
      c.needsTexts = true ∧ ∃ key, o.keyspace.FirstUnreadable c.keys key ∧ e = .notText key) ∧
    (∀ e, (RawStore.perform c o).answer = .error e → (RawStore.perform c o).store = o) ∧
    (c.needsTexts = false → ∃ a, (RawStore.perform c o).answer = .ok a) ∧
    (RawStore.perform Call.clear o).store.keyspace = .empty := by
  have hiff : ∀ e, (RawStore.perform c o).answer = .error e ↔ c.needsTexts = true ∧
      ∃ key, o.keyspace.FirstUnreadable c.keys key ∧ e = .notText key :=
    fun e => Keyspace.perform_eq_error_iff hc
  refine ⟨?_, hiff, fun e => perform_of_error, fun htexts => ?_, o.keyspace.clear_eq_empty⟩
  · rw [← Keyspace.exists_firstUnreadable_iff]
    constructor
    · rintro ⟨e, he⟩
      obtain ⟨htexts, key, hkey, -⟩ := (hiff e).1 he
      exact ⟨htexts, key, hkey⟩
    · rintro ⟨htexts, key, hkey⟩
      exact ⟨_, (hiff _).2 ⟨htexts, key, hkey, rfl⟩⟩
  · apply exists_of_errorOf
    have hperform : errorOf (o.keyspace.perform c).answer = _ := Keyspace.errorOf_perform hc
    rw [htexts] at hperform
    exact hperform

/-- A keyspace with texts under `a` and `c`, and a value and a key that are none. -/
def garbled : OpenDatabase :=
  let texts : Keyspace := .ofTexts [("a", "1"), ("c", "2")]
  ⟨.atPath "db", .empty, (texts.setBytes (Utf8.encode "b") [0xFF]).setBytes [0xFE] []⟩

/-- The merges before the value that is no text are not made either. -/
theorem perform_on_foreign_bytes_garbled :
    let merges : Call := .multiMerge [("a", "2"), ("b", "3"), ("b", "4"), ("c", "5")]
    (RawStore.perform merges garbled).answer = .error (.notText "b") ∧
      (RawStore.perform merges garbled).store = garbled ∧
      (RawStore.perform Call.clear garbled).store.keyspace = .empty := by
  intro merges
  have hc : merges.Accepted := by decide
  have hunreadable : garbled.keyspace.IsUnreadable "b" := by
    refine ⟨[0xFF], by decide, fun text htext => ?_⟩
    have hdecode := Utf8.decode?_eq_some_iff.2 htext
    cases hdecode
  have hreadable : ¬ garbled.keyspace.IsUnreadable "a" := by
    rw [← Keyspace.errorOf_get_eq_none]
    decide
  have hfirst : garbled.keyspace.FirstUnreadable merges.keys "b" :=
    ⟨["a"], ["b", "c"], rfl, hunreadable, by simpa using hreadable⟩
  obtain ⟨-, herror, hstore, -, hclear⟩ := perform_on_foreign_bytes garbled hc
  have hfails := (herror _).2 ⟨rfl, "b", hfirst, rfl⟩
  exact ⟨hfails, hstore _ hfails, hclear⟩

end OpenDatabase

end SchemaStore
