import SchemaStore.Proofs.Json.Document

/-!
# Trees with sorted fields

`Json.sorted` is the tree that is left when a tree is read with no declared type and written again:
the fields of every object are sorted. It has no new numbers and no deeper nesting
(`Json.within_sorted`), so it can be read again if the tree could. A merge of two objects sorts in
this way what it keeps (`Json.lookup_mergeFields`).
-/

namespace SchemaStore

namespace Json

/-! ## Parts of trees -/

theorem floats_obj (fs : List (String × Json)) :
    (obj fs).floats = fs.flatMap fun f => f.2.floats := by
  rw [floats, numbers]
  induction fs with
  | nil => rfl
  | cons f fs ih =>
    rw [numbersFields, List.flatMap_append, ih]
    rfl

/-- The tree has only numbers of another one and is nested no deeper. -/
structure Within (a b : Json) : Prop where
  numbers : ∀ n ∈ a.numbers, n ∈ b.numbers
  depth : a.depth ≤ b.depth

theorem Within.refl (j : Json) : j.Within j := ⟨fun _ h => h, Nat.le_refl _⟩

theorem within_arr {as bs : List Json} (h : ∀ a ∈ as, ∃ b ∈ bs, a.Within b) :
    (arr as).Within (arr bs) := by
  constructor
  · intro n hn
    rw [Json.numbers, mem_numbersItems] at hn ⊢
    obtain ⟨a, ha, hn⟩ := hn
    obtain ⟨b, hb, hab⟩ := h a ha
    exact ⟨b, hb, hab.numbers n hn⟩
  · refine depth_arr_le_iff.2 fun a ha => ?_
    obtain ⟨b, hb, hab⟩ := h a ha
    exact Nat.le_trans hab.depth (depth_arr_le_iff.1 (Nat.le_refl _) b hb)

theorem within_obj {es fs : List (String × Json)} (h : ∀ e ∈ es, ∃ f ∈ fs, e.2.Within f.2) :
    (obj es).Within (obj fs) := by
  constructor
  · intro n hn
    rw [Json.numbers, mem_numbersFields] at hn ⊢
    obtain ⟨e, he, hn⟩ := hn
    obtain ⟨f, hf, hef⟩ := h e he
    exact ⟨f, hf, hef.numbers n hn⟩
  · refine depth_obj_le_iff.2 fun e he => ?_
    obtain ⟨f, hf, hef⟩ := h e he
    exact Nat.le_trans hef.depth (depth_obj_le_iff.1 (Nat.le_refl _) f hf)

/-- An object can be read if each of its fields can, with one level of nesting less. -/
theorem readable_obj_iff {fs : List (String × Json)} :
    (obj fs).Readable ↔ ∀ f ∈ fs, (∀ n ∈ f.2.numbers, n.ReadsBack) ∧ f.2.depth < maxDepth := by
  constructor
  · intro h f hf
    refine ⟨fun n hn => h.numbers n ?_, ?_⟩
    · rw [Json.numbers, mem_numbersFields]
      exact ⟨f, hf, hn⟩
    · exact Nat.lt_succ_of_le (depth_obj_le_iff.1 h.depth f hf)
  · intro h
    refine ⟨fun n hn => ?_, ?_⟩
    · rw [Json.numbers, mem_numbersFields] at hn
      obtain ⟨f, hf, hn⟩ := hn
      exact (h f hf).1 n hn
    · exact depth_obj_le_iff.2 fun f hf => Nat.le_of_lt_succ (h f hf).2

/-! ## Sorting -/

/-- The tree with the fields of all its objects sorted. Numbers that a reader with no declared type
does not find become null. -/
def sorted (j : Json) : Json := (Document.ofJson j).json

theorem sorted_of_canonical {j : Json} (h : j.Canonical) : j.sorted = j := by
  rw [sorted, Document.ofJson_canonical j h]

theorem within_ofAnyNumber (n : Number) : (Document.ofAnyNumber n).json.Within (num n) := by
  have hnull : null.Within (num n) := ⟨by simp [Json.numbers], Nat.zero_le _⟩
  cases n with
  | int n =>
    rw [Document.ofAnyNumber]
    split
    · exact .refl _
    · exact hnull
  | single x => exact hnull
  | double x => exact .refl _

end Json

mutual

/-- Sorting brings in no number and no nesting that was not there. -/
theorem Json.within_sorted : ∀ j : Json, j.sorted.Within j
  | .null => by
    rw [sorted, Document.ofJson]
    exact .refl _
  | .bool b => by
    rw [sorted, Document.ofJson]
    exact .refl _
  | .num n => by
    rw [sorted, Document.ofJson]
    exact within_ofAnyNumber n
  | .str s => by
    rw [sorted, Document.ofJson]
    exact .refl _
  | .arr js => by
    rw [sorted, Document.ofJson]
    exact within_arr (List.forall_mem_map.2 (within_sortedItems js))
  | .obj fs => by
    rw [sorted, Document.ofJson]
    refine within_obj (List.forall_mem_map.2 fun f hf => ?_)
    exact within_sortedFields fs f (SortedMap.mem_entries_ofList hf)

theorem Json.within_sortedItems : ∀ (js : List Json), ∀ d ∈ Document.ofJsonItems js,
    ∃ j ∈ js, d.json.Within j
  | [] => by simp [Document.ofJsonItems]
  | j :: rest => by
    rw [Document.ofJsonItems]
    refine List.forall_mem_cons.2 ⟨⟨j, List.mem_cons_self, within_sorted j⟩, fun d hd => ?_⟩
    obtain ⟨j', hj', hd⟩ := within_sortedItems rest d hd
    exact ⟨j', List.mem_cons_of_mem _ hj', hd⟩

theorem Json.within_sortedFields : ∀ (fs : List (String × Json)), ∀ d ∈ Document.ofJsonFields fs,
    ∃ f ∈ fs, d.2.json.Within f.2
  | [] => by simp [Document.ofJsonFields]
  | (name, j) :: rest => by
    rw [Document.ofJsonFields]
    refine List.forall_mem_cons.2 ⟨⟨_, List.mem_cons_self, within_sorted j⟩, fun d hd => ?_⟩
    obtain ⟨f, hf, hd⟩ := within_sortedFields rest d hd
    exact ⟨f, List.mem_cons_of_mem _ hf, hd⟩

end

namespace Json

/-! ## Merging fields -/

/-- The fields of an object after those of another one have been merged into it. -/
def mergeFields (es fs : List (String × Json)) : List (String × Json) :=
  ((SortedMap.ofList (Document.ofJsonFields es)).union
    (SortedMap.ofList (Document.ofJsonFields fs))).entries.map fun f => (f.1, f.2.json)

theorem ascending_mergeFields (es fs : List (String × Json)) : Ascending (mergeFields es fs) :=
  List.pairwise_map.2 (SortedMap.ascending _)

/-- Sorting an object is merging it into an empty one. -/
theorem sorted_obj (fs : List (String × Json)) : (obj fs).sorted = .obj (mergeFields [] fs) := by
  have hunion : (SortedMap.ofList (Document.ofJsonFields [])).union
      (SortedMap.ofList (Document.ofJsonFields fs)) = SortedMap.ofList (Document.ofJsonFields fs) := by
    rw [Document.ofJsonFields]
    exact SortedMap.ofList_entries _
  rw [mergeFields, hunion, sorted, Document.ofJson]
  rfl

/-- Nothing is in the merged object that was in neither. -/
theorem exists_of_mem_mergeFields {es fs : List (String × Json)} {f : String × Json}
    (h : f ∈ mergeFields es fs) : ∃ j, (f.1, j) ∈ es ++ fs ∧ f.2 = j.sorted := by
  obtain ⟨d, hd, rfl⟩ := List.mem_map.1 h
  have hmem : ∀ {gs : List (String × Json)}, d ∈ Document.ofJsonFields gs →
      ∃ j, (d.1, j) ∈ gs ∧ d.2.json = j.sorted := by
    intro gs hgs
    rw [Document.ofJsonFields_eq_map] at hgs
    obtain ⟨g, hg, rfl⟩ := List.mem_map.1 hgs
    exact ⟨g.2, hg, rfl⟩
  rcases SortedMap.mem_entries_union hd with hd | hd
  · obtain ⟨j, hj, hd⟩ := hmem (SortedMap.mem_entries_ofList hd)
    exact ⟨j, List.mem_append_left _ hj, hd⟩
  · obtain ⟨j, hj, hd⟩ := hmem (SortedMap.mem_entries_ofList hd)
    exact ⟨j, List.mem_append_right _ hj, hd⟩

/-- The merge of two objects that can be read can be read again. -/
theorem readable_mergeFields {es fs : List (String × Json)} (hes : (obj es).Readable)
    (hfs : (obj fs).Readable) : (obj (mergeFields es fs)).Readable := by
  rw [readable_obj_iff] at hes hfs ⊢
  intro f hf
  obtain ⟨j, hj, hsorted⟩ := exists_of_mem_mergeFields hf
  have hwithin := within_sorted j
  rw [← hsorted] at hwithin
  have hreadable : (∀ n ∈ j.numbers, n.ReadsBack) ∧ j.depth < maxDepth := by
    rcases List.mem_append.1 hj with hj | hj
    · exact hes _ hj
    · exact hfs _ hj
  exact ⟨fun n hn => hreadable.1 n (hwithin.numbers n hn),
    Nat.lt_of_le_of_lt hwithin.depth hreadable.2⟩

theorem lookup_ofJsonFields (name : String) (fs : List (String × Json)) :
    SortedMap.lookup name (Document.ofJsonFields fs) =
      (SortedMap.lookup name fs).map Document.ofJson := by
  rw [Document.ofJsonFields_eq_map]
  exact SortedMap.lookup_map (f := id) (fun _ _ => rfl) name fs

/-- A field of the merged object is that of the second object if it has one of the name, and else
that of the first. -/
theorem lookup_mergeFields {es fs : List (String × Json)} (hes : SortedMap.Distinct es)
    (hfs : SortedMap.Distinct fs) (name : String) :
    SortedMap.lookup name (mergeFields es fs) =
      ((SortedMap.lookup name fs).or (SortedMap.lookup name es)).map sorted := by
  have hmap := SortedMap.lookup_map (f := id) (g := Document.json) (fun _ _ => rfl) name
    ((SortedMap.ofList (Document.ofJsonFields es)).union
      (SortedMap.ofList (Document.ofJsonFields fs))).entries
  have hunion := SortedMap.find?_union (SortedMap.ofList (Document.ofJsonFields es))
    (SortedMap.ofList (Document.ofJsonFields fs)) name
  rw [SortedMap.find?_ofList (Document.distinct_ofJsonFields hes),
    SortedMap.find?_ofList (Document.distinct_ofJsonFields hfs), lookup_ofJsonFields,
    lookup_ofJsonFields] at hunion
  refine hmap.trans ((congrArg (Option.map Document.json) hunion).trans ?_)
  rw [← Option.map_or, Option.map_map]
  rfl

end Json

namespace Codec

theorem shallowMerge_of_left {existing : String} (h : objectOf? existing = none)
    (incoming : String) : shallowMerge (some existing) incoming = incoming := by
  rw [shallowMerge, h]

theorem shallowMerge_of_right {incoming : String} (h : objectOf? incoming = none)
    (existing : Option String) : shallowMerge existing incoming = incoming := by
  cases existing with
  | none => rfl
  | some existing =>
    rw [shallowMerge, h]
    cases objectOf? existing <;> rfl

/-- The texts of two objects are merged field by field. -/
theorem shallowMerge_obj {es fs : List (String × Json)} (hes : (Json.obj es).Readable)
    (hfs : (Json.obj fs).Readable) :
    shallowMerge (some (Json.obj es).render) (Json.obj fs).render =
      (Json.obj (Json.mergeFields es fs)).render := by
  rw [shallowMerge, objectOf?_obj hes, objectOf?_obj hfs]
  rfl

end Codec

end SchemaStore
