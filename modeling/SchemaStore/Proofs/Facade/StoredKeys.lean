import SchemaStore.Proofs.Facade.Sharing
import SchemaStore.Proofs.Store.Keyspace

/-!
# The declared keys in a store

A facade lists the declared keys that a store has entries for (`Op.storedKeys_exact`). A store of
bytes shows its keys as texts, and a key that is no text as one with replacement characters. Bytes
that are shown as a name without such a character are the bytes of that name
(`Utf8.decodeLossy_eq_iff`), so nothing else in the store is taken for a declared key, and the order
of the bytes is kept.
-/

namespace SchemaStore

theorem Schema.key?_eq_some_iff {S : Schema} {name : String} {k : S.Key} :
    S.key? name = some k ↔ Schema.name k = name := by
  constructor
  · intro h
    obtain ⟨hname, -⟩ := List.findFinIdx?_eq_some_iff.1 h
    exact eq_of_beq hname
  · intro h
    cases hkey : S.key? name with
    | none =>
      rw [Schema.key?, List.findFinIdx?_eq_none_iff] at hkey
      exact absurd (beq_iff_eq.2 h) (hkey _ (List.get_mem S.decls k))
    | some k' =>
      obtain ⟨hname, -⟩ := List.findFinIdx?_eq_some_iff.1 hkey
      exact congrArg some (Schema.name_inj ((eq_of_beq hname).trans h.symm))

/-- No name of the schema has a replacement character. -/
def Schema.AvoidsReplacement (S : Schema) : Prop := ∀ name ∈ S.names, '\uFFFD' ∉ name.toList

instance (S : Schema) : Decidable S.AvoidsReplacement :=
  inferInstanceAs (Decidable (∀ name ∈ S.names, '\uFFFD' ∉ name.toList))

theorem SortedMap.exists_find?_iff {α β : Type} [Ord α] [Std.LawfulEqOrd α] [Std.TransOrd α]
    {m : SortedMap α β} {k : α} : (∃ v, m.find? k = some v) ↔ k ∈ m.keys := by
  rw [← not_iff_not, ← find?_eq_none_iff, Option.eq_none_iff_forall_ne_some, not_exists]

namespace Op

variable {S : Schema}

/-- The keys are those that are held, each once, and the bytes of their names ascend. -/
structure ListsStored (held : S.Key → Prop) (keys : List S.Key) : Prop where
  mem_iff : ∀ k, k ∈ keys ↔ held k
  ascending : keys.Pairwise fun k k' =>
    compare (Utf8.encode (Schema.name k)) (Utf8.encode (Schema.name k')) = .lt

/-- The declared keys among the bytes of some keys are found by the texts that these are shown as. -/
theorem listsStored_declared (hS : S.AvoidsReplacement) {raw : List Bytes}
    (hraw : raw.Pairwise fun a b => compare a b = .lt) :
    ListsStored (fun k : S.Key => Utf8.encode (Schema.name k) ∈ raw)
      (declared (raw.map Utf8.decodeLossy)) := by
  have hshown : ∀ (bytes : Bytes) (k : S.Key),
      S.key? (Utf8.decodeLossy bytes) = some k ↔ Utf8.encode (Schema.name k) = bytes := by
    intro bytes k
    have hname : Schema.name k ∈ S.names := List.mem_map_of_mem (List.get_mem S.decls k)
    rw [Schema.key?_eq_some_iff, eq_comm, Utf8.decodeLossy_eq_iff (hS _ hname)]
  rw [declared, List.filterMap_map]
  refine ⟨fun k => ?_, hraw.filterMap _ fun a b hab k hk k' hk' => ?_⟩
  · simp only [List.mem_filterMap, Function.comp_apply, hshown, exists_eq_right']
  · rw [(hshown a k).1 hk, (hshown b k').1 hk']
    exact hab

/-- Of a store in memory and of one of bytes, whatever it holds, the declared keys are listed that it
has an entry for. -/
theorem storedKeys_exact (hS : S.AvoidsReplacement) :
    (∀ m : MemoryStore, ∃ keys, ((storedKeys : Op S).run m).answer = .ok keys ∧
      ListsStored (fun k => ∃ text, m.get (Schema.name k) = some text) keys) ∧
    ∀ o : OpenDatabase, ∃ keys, ((storedKeys : Op S).run o).answer = .ok keys ∧
      ListsStored (fun k =>
        ∃ bytes, o.keyspace.entries.find? (Utf8.encode (Schema.name k)) = some bytes) keys := by
  refine ⟨fun m => ⟨declared m.entries.keys, rfl, ?_⟩, fun o => ⟨declared o.keyspace.keys, rfl, ?_⟩⟩
  · have hraw : (m.entries.keys.map Utf8.encode).Pairwise fun a b => compare a b = .lt := by
      rw [List.pairwise_map]
      simp only [Utf8.compare_encode]
      exact List.pairwise_map.2 m.entries.ascending
    have hinjective := Function.LeftInverse.injective Utf8.decodeLossy_encode
    have hlisted := listsStored_declared hS hraw
    simp only [List.map_map, Function.comp_def, Utf8.decodeLossy_encode, List.map_id',
      List.mem_map_of_injective hinjective] at hlisted
    simp only [MemoryStore.get, SortedMap.exists_find?_iff]
    exact hlisted
  · simp only [SortedMap.exists_find?_iff]
    exact listsStored_declared hS (List.pairwise_map.2 o.keyspace.entries.ascending)

example : ∀ S ∈ Catalog.schemas, S.AvoidsReplacement := by decide

end Op

namespace Catalog

/-- A keyspace with an entry for the scopes of a session, one for a key that is not declared, and
some under bytes that are no text. -/
def foreignKeys : OpenDatabase :=
  let texts : Keyspace := .ofTexts [("session.scopes", "[]"), ("other", "1")]
  let broken := (texts.setBytes [0xFE] []).setBytes [0xFF] [0xFF]
  ⟨.atPath "db", .empty, broken.setBytes (Utf8.encode "session.token" ++ [0xFF]) []⟩

theorem storedKeys_exact_foreignKeys : ∃ keys : List session.Key,
    ((Op.storedKeys : Op session).run foreignKeys).answer = .ok keys ∧
      ∀ k, k ∈ keys ↔ Schema.name k = "session.scopes" := by
  have hplain : session.AvoidsReplacement := by decide
  obtain ⟨keys, hkeys, hlisted⟩ := (Op.storedKeys_exact hplain).2 foreignKeys
  refine ⟨keys, hkeys, fun k => ?_⟩
  have hstored : ∀ k : session.Key,
      (foreignKeys.keyspace.entries.find? (Utf8.encode (Schema.name k))).isSome = true ↔
        Schema.name k = "session.scopes" := by
    decide
  rw [hlisted.mem_iff, ← Option.isSome_iff_exists, hstored]

end Catalog

end SchemaStore
