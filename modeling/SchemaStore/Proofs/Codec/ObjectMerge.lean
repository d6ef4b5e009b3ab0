import SchemaStore.Proofs.Codec.Merge
import SchemaStore.Proofs.Json.Nesting

/-!
# Merging the texts of two objects

Of two texts that spell objects a merge makes the text of their union, in which the incoming fields
win (`Codec.shallowMerge_of_objects`); in every other case the incoming text is kept as it is
(`Codec.shallowMerge_of_not`). The union nests no deeper than the two objects and has no number that
they lack, so its text spells it again (`Codec.objectOf?_shallowMerge`). What a merge leaves behind is
therefore fit to be merged once more, and a sequence of merges comes to the union of all the objects
in their order (`Codec.objectOf?_foldl_shallowMerge`).
-/

namespace SchemaStore

theorem SortedMap.pairwise_keys {α : Type} (m : SortedMap String α) :
    m.keys.Pairwise (· < ·) := by
  rw [SortedMap.keys, List.pairwise_map]
  exact m.ascending.imp fun hlt => compareOfLessAndEq_eq_lt.1 hlt

namespace Codec

variable {existing incoming : String} {b u : SortedMap String Document}

/-! ## Which texts are merged -/

theorem shallowMerge_of_objects (hb : objectOf? existing = some b) (hu : objectOf? incoming = some u) :
    shallowMerge (some existing) incoming = (Document.ofFields (b.union u)).json.render := by
  rw [shallowMerge, hb, hu]

/-- Unless both texts are objects, the incoming one is kept as it came. -/
theorem shallowMerge_of_not {existing : Option String}
    (h : ∀ old ∈ existing, ∀ b u, objectOf? old = some b → objectOf? incoming ≠ some u) :
    shallowMerge existing incoming = incoming := by
  cases existing with
  | none => rfl
  | some old =>
    cases hb : objectOf? old with
    | none => exact shallowMerge_of_left hb incoming
    | some b =>
      cases hu : objectOf? incoming with
      | none => exact shallowMerge_of_right hu (some old)
      | some u => exact absurd hu (h old rfl b u hb)

/-! ## Reading the result -/

/-- The floats of some fields are found again when their texts are read. -/
def FloatsReadBack (fields : SortedMap String Document) : Prop :=
  ∀ x ∈ (Document.ofFields fields).json.floats, x.2.ReadsBack

instance (fields : SortedMap String Document) : Decidable (FloatsReadBack fields) :=
  inferInstanceAs (Decidable (∀ x ∈ _, _))

theorem readable_of_objectOf? (h : objectOf? existing = some b) (hx : FloatsReadBack b) :
    (Document.ofFields b).json.Readable := by
  obtain ⟨rest, hread, -⟩ := Read.whole_ok (objectOf?_eq_some.1 h)
  exact ⟨Shape.readsBack_document hx, Document.depth_le_of_read hread⟩

theorem readable_union (hb : (Document.ofFields b).json.Readable)
    (hu : (Document.ofFields u).json.Readable) :
    (Document.ofFields (b.union u)).json.Readable := by
  have hmerged : (Json.obj (Json.mergeFields (Document.entries b) (Document.entries u))).Readable :=
    Json.readable_mergeFields hb hu
  rw [Document.mergeFields_entries] at hmerged
  exact hmerged

theorem floatsReadBack_union (hb : FloatsReadBack b) (hu : FloatsReadBack u) :
    FloatsReadBack (b.union u) := by
  have hfields : ∀ fs : SortedMap String Document,
      (Document.ofFields fs).json.floats = fs.entries.flatMap fun f => f.2.json.floats := by
    intro fs
    rw [Document.ofFields, Json.floats_obj, List.flatMap_map]
  rw [FloatsReadBack, hfields] at hb hu ⊢
  intro x hx
  obtain ⟨f, hf, hx⟩ := List.mem_flatMap.1 hx
  rcases SortedMap.mem_entries_union hf with hf | hf
  · exact hb x (List.mem_flatMap.2 ⟨f, hf, hx⟩)
  · exact hu x (List.mem_flatMap.2 ⟨f, hf, hx⟩)

/-- A merge of two objects spells their union. -/
theorem objectOf?_shallowMerge (hb : objectOf? existing = some b) (hu : objectOf? incoming = some u)
    (hbx : FloatsReadBack b) (hux : FloatsReadBack u) :
    objectOf? (shallowMerge (some existing) incoming) = some (b.union u) := by
  rw [shallowMerge_of_objects hb hu, objectOf?_eq_some]
  apply Document.parse_render
  exact readable_union (readable_of_objectOf? hb hbx) (readable_of_objectOf? hu hux)

/-- Objects merged one after another spell the union of all of them. -/
theorem objectOf?_foldl_shallowMerge {incoming : List String}
    {updates : List (SortedMap String Document)}
    (hupdates : List.Forall₂ (fun text u => objectOf? text = some u ∧ FloatsReadBack u)
      incoming updates)
    (hb : objectOf? existing = some b) (hbx : FloatsReadBack b) :
    objectOf? (incoming.foldl (fun text i => shallowMerge (some text) i) existing) =
      some (updates.foldl SortedMap.union b) := by
  induction hupdates generalizing existing b with
  | nil => exact hb
  | cons hu _ ih =>
    exact ih (objectOf?_shallowMerge hb hu.1 hbx hu.2) (floatsReadBack_union hbx hu.2)

/-- The rule of merging. Of two texts that are read as objects, with floats that are found again, the
result is the text of the union: the names ascend, an incoming field wins over a stored one, and the
text is read as exactly this union. In every other case the result is the incoming text. -/
theorem shallowMerge_rule :
    (∀ existing incoming b u, Document.parse existing.toList = .ok (.ofFields b) →
      Document.parse incoming.toList = .ok (.ofFields u) → FloatsReadBack b → FloatsReadBack u →
      ∃ w : SortedMap String Document, w.keys.Pairwise (· < ·) ∧
        (∀ name, w.find? name = (u.find? name).or (b.find? name)) ∧
        shallowMerge (some existing) incoming = (Document.ofFields w).json.render ∧
        Document.parse (shallowMerge (some existing) incoming).toList = .ok (.ofFields w)) ∧
      ∀ existing incoming,
        (¬ ∃ old b u, existing = some old ∧ Document.parse old.toList = .ok (.ofFields b) ∧
          Document.parse incoming.toList = .ok (.ofFields u)) →
        shallowMerge existing incoming = incoming := by
  constructor
  · intro existing incoming b u hb hu hbx hux
    rw [← objectOf?_eq_some] at hb hu
    refine ⟨b.union u, SortedMap.pairwise_keys _, SortedMap.find?_union b u, ?_, ?_⟩
    · exact shallowMerge_of_objects hb hu
    · exact objectOf?_eq_some.1 (objectOf?_shallowMerge hb hu hbx hux)
  · intro existing incoming h
    apply shallowMerge_of_not
    intro old hold b u hb hu
    exact h ⟨old, b, u, hold, objectOf?_eq_some.1 hb, objectOf?_eq_some.1 hu⟩

/-- An object with a list and a number. -/
def listed : SortedMap String Document :=
  .ofList [("b", .ofItems [.ofBool true, .null]), ("a", .ofDouble Catalog.oneAndHalf)]

theorem shallowMerge_rule_listed :
    (∃ w, w.find? "a" = some (Document.ofDouble Catalog.oneAndHalf) ∧
      w.find? "b" = some Document.null ∧
      Document.parse (shallowMerge (some (Document.ofFields listed).json.render)
        " \x7b\"b\":1,\"b\":null\x7d").toList = .ok (.ofFields w)) ∧
      shallowMerge (some "[1]") "\x7b\x7d " = "\x7b\x7d " := by
  constructor
  · have hback : FloatsReadBack listed := by decide +kernel
    have hlisted := Document.parse_render ⟨Shape.readsBack_document hback, by decide⟩
    obtain ⟨w, -, hfind, -, hparse⟩ := shallowMerge_rule.1 _
      " \x7b\"b\":1,\"b\":null\x7d" listed (.ofList [("b", .null)]) hlisted rfl hback (by decide)
    exact ⟨w, hfind "a", hfind "b", hparse⟩
  · apply shallowMerge_rule.2
    rintro ⟨old, b, u, hold, hb, -⟩
    obtain rfl : "[1]" = old := Option.some.inj hold
    have hlist : Document.parse "[1]".toList = .ok (.ofItems [.ofInt 1 (by decide)]) := rfl
    cases congrArg Document.json (Except.ok.inj (hlist.symm.trans hb))

end Codec

end SchemaStore
