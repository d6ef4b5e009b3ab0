import SchemaStore.Proofs.Codec.ObjectMerge
import SchemaStore.Proofs.Json.Reread

/-!
# The order of merges

Merging two texts one after another comes to the same as merging the second into the first and the
result into what is held, if the first is an object (`Codec.shallowMerge_shallowMerge`). It also does
unless an object is held and of the two texts only the second is one: then the first text drops what
is held, or the second text drops the first. Objects without a common field can change places
(`Codec.shallowMerge_right_comm`), so a list of them comes to the same in any order. What is merged
into nothing keeps its spelling, but the next merge rewrites it, whichever text came first. The
floats of an object that is held may change whenever it is rewritten, but they change alike in every
order (`Codec.isObject_rewritten`).
-/

namespace SchemaStore.Codec

/-- The reader accepts the text as the object of these fields. -/
def IsObject (text : String) (fields : SortedMap String Document) : Prop :=
  Document.parse text.toList = .ok (.ofFields fields)

/-- If the text is accepted as an object, the floats of the object are found again. -/
def KeepsFloats (text : String) : Prop := ∀ fields, IsObject text fields → FloatsReadBack fields

instance (text : String) : Decidable (KeepsFloats text) :=
  decidable_of_iff (∀ fields ∈ objectOf? text, FloatsReadBack fields)
    (forall_congr' fun _ => imp_congr objectOf?_eq_some Iff.rfl)

/-- What is held after some texts are merged into it, one after another. -/
def afterMerges (existing : Option String) (texts : List String) : Option String :=
  texts.foldl (fun held text => some (shallowMerge held text)) existing

variable {existing : Option String} {incoming first second : String}
  {fs gs : SortedMap String Document}

/-! ## One merge -/

theorem shallowMerge_of_isObject {old : String} {b : SortedMap String Document}
    (hb : IsObject old b) (hf : IsObject incoming fs) :
    shallowMerge (some old) incoming = (Document.ofFields (b.union fs)).json.render :=
  shallowMerge_of_objects (objectOf?_eq_some.2 hb) (objectOf?_eq_some.2 hf)

/-- Where the floats are found again, a merge of two objects is accepted as their union. -/
theorem isObject_shallowMerge {old : String} {b : SortedMap String Document} (hb : IsObject old b)
    (hf : IsObject incoming fs) (hold : KeepsFloats old) (hnew : KeepsFloats incoming) :
    IsObject (shallowMerge (some old) incoming) (b.union fs) :=
  objectOf?_eq_some.1 (objectOf?_shallowMerge (objectOf?_eq_some.2 hb) (objectOf?_eq_some.2 hf)
    (hold b hb) (hnew fs hf))

theorem shallowMerge_of_no_object (h : ∀ old ∈ existing, ∀ b, ¬ IsObject old b) :
    shallowMerge existing incoming = incoming :=
  shallowMerge_of_not fun old hold b _ hb => absurd (objectOf?_eq_some.1 hb) (h old hold b)

theorem shallowMerge_of_no_update (h : ∀ fs, ¬ IsObject incoming fs) :
    shallowMerge existing incoming = incoming :=
  shallowMerge_of_not fun _ _ _ fs _ hf => h fs (objectOf?_eq_some.1 hf)

/-- Merging concerns an object that is held and an object that comes in, or it does nothing but
replace what is held. -/
theorem merge_objects_or_replace (existing : Option String) (incoming : String) :
    (∃ old b fs, existing = some old ∧ IsObject old b ∧ IsObject incoming fs) ∨
      (∀ old ∈ existing, ∀ b, ¬ IsObject old b) ∨ ∀ fs, ¬ IsObject incoming fs := by
  by_contra h
  simp only [not_or, not_forall, not_not] at h
  obtain ⟨hnone, ⟨old, hold, b, hb⟩, fs, hf⟩ := h
  exact hnone ⟨old, b, fs, hold, hb, hf⟩

theorem depth_le_of_isObject (hf : IsObject incoming fs) :
    (Document.ofFields fs).json.depth ≤ maxDepth := by
  obtain ⟨rest, hread, -⟩ := Read.whole_ok hf
  exact Document.depth_le_of_read hread

theorem depth_union_le (hf : (Document.ofFields fs).json.depth ≤ maxDepth)
    (hg : (Document.ofFields gs).json.depth ≤ maxDepth) :
    (Document.ofFields (fs.union gs)).json.depth ≤ maxDepth := by
  have hiff : ∀ hs : SortedMap String Document, (Document.ofFields hs).json.depth ≤ maxDepth ↔
      ∀ h ∈ hs.entries, h.2.json.depth ≤ maxDepth - 1 :=
    fun hs => (Json.depth_obj_le_iff (n := maxDepth - 1)).trans List.forall_mem_map
  rw [hiff] at hf hg ⊢
  intro h hmem
  rcases SortedMap.mem_entries_union hmem with hmem | hmem
  · exact hf h hmem
  · exact hg h hmem

/-- A merge of two objects spells their union, as it is found when it is read again. -/
theorem isObject_rewritten {old : String} {b : SortedMap String Document} (hb : IsObject old b)
    (hf : IsObject incoming fs) :
    IsObject (shallowMerge (some old) incoming) ((b.union fs).mapValues Document.reread) := by
  have hdepth := depth_union_le (depth_le_of_isObject hb) (depth_le_of_isObject hf)
  rw [IsObject, shallowMerge_of_isObject hb hf, Document.parse_render_reread hdepth,
    Document.reread_ofFields]

/-- An object whose floats are found again is kept as it is when it is rewritten. -/
theorem KeepsFloats.mapValues_reread (h : KeepsFloats incoming) (hf : IsObject incoming fs) :
    fs.mapValues Document.reread = fs := by
  apply SortedMap.mapValues_eq_self
  intro e he
  apply Document.reread_of_readsBack
  apply Shape.readsBack_document
  intro x hx
  apply h fs hf
  rw [Document.ofFields, Json.floats_obj, List.flatMap_map]
  exact List.mem_flatMap.2 ⟨e, he, hx⟩

/-! ## Two merges -/

section Two

variable (he : ∀ old ∈ existing, KeepsFloats old) (hfirst : KeepsFloats first)
  (hsecond : KeepsFloats second)

include he hfirst hsecond

/-- Merging an object and then another text is merging the text into the object beforehand. -/
theorem shallowMerge_shallowMerge (hf : IsObject first fs) :
    shallowMerge (some (shallowMerge existing first)) second =
      shallowMerge existing (shallowMerge (some first) second) := by
  rcases merge_objects_or_replace existing second with ⟨old, b, gs, rfl, hb, hg⟩ | hold | hnew
  · have hleft := isObject_shallowMerge hb hf (he old rfl) hfirst
    have hright := isObject_shallowMerge hf hg hfirst hsecond
    rw [shallowMerge_of_isObject hleft hg, shallowMerge_of_isObject hb hright,
      SortedMap.union_assoc]
  · rw [shallowMerge_of_no_object hold, shallowMerge_of_no_object hold]
  · simp only [shallowMerge_of_no_update hnew]

end Two

/-- Merging two texts one after another, and merging the second into the first beforehand. The two
ways lead to the same text, except when an object is held and of the two texts only the second is an
object. Then the first way ends with the second text as it is, and the second way with the union of
the second object and the one that is held. -/
theorem shallowMerge_assoc (existing : Option String) (first second : String)
    (hfloats : ∀ text ∈ existing.toList ++ [first, second], KeepsFloats text) :
    ((¬ ∃ old b gs, existing = some old ∧ IsObject old b ∧ (∀ fs, ¬ IsObject first fs) ∧
        IsObject second gs) →
      shallowMerge (some (shallowMerge existing first)) second =
        shallowMerge existing (shallowMerge (some first) second)) ∧
      ∀ old b gs, existing = some old → IsObject old b → (∀ fs, ¬ IsObject first fs) →
        IsObject second gs →
        shallowMerge (some (shallowMerge existing first)) second = second ∧
          shallowMerge existing (shallowMerge (some first) second) =
            (Document.ofFields (b.union gs)).json.render := by
  simp only [List.forall_mem_append, List.forall_mem_cons, Option.mem_toList] at hfloats
  obtain ⟨he, hfirst, hsecond, -⟩ := hfloats
  constructor
  · intro hexcept
    by_cases hf : ∃ fs, IsObject first fs
    · obtain ⟨fs, hf⟩ := hf
      exact shallowMerge_shallowMerge he hfirst hsecond hf
    · have hnone := not_exists.1 hf
      rw [shallowMerge_of_no_update hnone]
      rcases merge_objects_or_replace existing second with ⟨old, b, gs, hold, hb, hg⟩ | hold | hnew
      · exact absurd ⟨old, b, gs, hold, hb, hnone, hg⟩ hexcept
      · rw [shallowMerge_of_no_object hold]
      · simp only [shallowMerge_of_no_update hnew]
  · rintro old b gs rfl hb hnone hg
    have hdropped : shallowMerge (some first) second = second := by
      apply shallowMerge_of_no_object
      rintro text ⟨⟩
      exact hnone
    rw [shallowMerge_of_no_update hnone, hdropped]
    exact ⟨rfl, shallowMerge_of_isObject hb hg⟩

theorem shallowMerge_assoc_number :
    shallowMerge (some (shallowMerge (some " \x7b\"b\":1.5\x7d") "\x7b\"a\":[]\x7d"))
        "\x7b\"a\":null\x7d" =
      shallowMerge (some " \x7b\"b\":1.5\x7d")
        (shallowMerge (some "\x7b\"a\":[]\x7d") "\x7b\"a\":null\x7d") ∧
      shallowMerge (some (shallowMerge (some " \x7b\"b\":1\x7d") "7")) "\x7b \x7d" = "\x7b \x7d" ∧
      shallowMerge (some " \x7b\"b\":1\x7d") (shallowMerge (some "7") "\x7b \x7d") =
        "\x7b\"b\":1\x7d" := by
  have hlist : IsObject "\x7b\"a\":[]\x7d" (.ofList [("a", .ofItems [])]) := rfl
  have hnumber : ∀ fs, ¬ IsObject "7" fs := by
    intro fs hfs
    cases (objectOf?_eq_some.2 hfs : none = some fs)
  constructor
  · apply (shallowMerge_assoc (some " \x7b\"b\":1.5\x7d") "\x7b\"a\":[]\x7d"
      "\x7b\"a\":null\x7d" (by decide +kernel)).1
    rintro ⟨old, b, gs, -, -, hnone, -⟩
    exact hnone _ hlist
  · obtain ⟨hleft, hright⟩ := (shallowMerge_assoc (some " \x7b\"b\":1\x7d") "7" "\x7b \x7d"
      (by decide +kernel)).2 _ (.ofList [("b", .ofInt 1 (by decide))]) .empty rfl rfl hnumber rfl
    exact ⟨hleft, hright.trans (by decide +kernel)⟩

/-! ## Lists of merges -/

/-- Texts of objects no two of which have a field in common, and whose floats are found again. -/
structure AreIndependent (texts : List String) : Prop where
  isObject : ∀ text ∈ texts, ∃ fields, IsObject text fields
  disjoint : texts.Pairwise fun s t => ∀ fs gs, IsObject s fs → IsObject t gs → fs.Disjoint gs
  keepsFloats : ∀ text ∈ texts, KeepsFloats text

namespace AreIndependent

variable {texts texts' : List String}

theorem tail {text : String} (h : AreIndependent (text :: texts)) : AreIndependent texts where
  isObject t ht := h.isObject t (List.mem_cons_of_mem _ ht)
  disjoint := (List.pairwise_cons.1 h.disjoint).2
  keepsFloats t ht := h.keepsFloats t (List.mem_cons_of_mem _ ht)

theorem perm (h : AreIndependent texts) (hperm : texts.Perm texts') : AreIndependent texts' where
  isObject t ht := h.isObject t (hperm.mem_iff.2 ht)
  disjoint := hperm.pairwise h.disjoint fun hdisjoint fs gs hf hg => (hdisjoint gs fs hg hf).symm
  keepsFloats t ht := h.keepsFloats t (hperm.mem_iff.2 ht)

theorem iff_objectOf? : AreIndependent texts ↔ (∀ text ∈ texts, (objectOf? text).isSome = true) ∧
    (texts.Pairwise fun s t => ∀ fs ∈ objectOf? s, ∀ gs ∈ objectOf? t, fs.Disjoint gs) ∧
      ∀ text ∈ texts, KeepsFloats text := by
  simp only [Option.isSome_iff_exists, Option.mem_def, objectOf?_eq_some]
  constructor
  · rintro ⟨hobject, hdisjoint, hfloats⟩
    exact ⟨hobject, hdisjoint.imp fun h fs hf gs hg => h fs gs hf hg, hfloats⟩
  · rintro ⟨hobject, hdisjoint, hfloats⟩
    exact ⟨hobject, hdisjoint.imp fun h fs gs hf hg => h fs hf gs hg, hfloats⟩

instance (texts : List String) : Decidable (AreIndependent texts) :=
  decidable_of_iff _ iff_objectOf?.symm

end AreIndependent

/-- Two objects without a common field may change places, whatever is held. -/
theorem shallowMerge_right_comm (hfirst : KeepsFloats first) (hsecond : KeepsFloats second)
    (hf : IsObject first fs) (hg : IsObject second gs) (hdisjoint : fs.Disjoint gs) :
    shallowMerge (some (shallowMerge existing first)) second =
      shallowMerge (some (shallowMerge existing second)) first := by
  rcases merge_objects_or_replace existing first with ⟨old, b, fs', rfl, hb, hf'⟩ | hold | hnew
  · -- what is held is rewritten once in either order
    rw [shallowMerge_of_isObject (isObject_rewritten hb hf) hg,
      shallowMerge_of_isObject (isObject_rewritten hb hg) hf, SortedMap.mapValues_union,
      SortedMap.mapValues_union, hfirst.mapValues_reread hf, hsecond.mapValues_reread hg,
      SortedMap.union_assoc, SortedMap.union_assoc, hdisjoint.union_comm]
  · rw [shallowMerge_of_no_object hold, shallowMerge_of_no_object hold, shallowMerge_of_isObject hf hg,
      shallowMerge_of_isObject hg hf, hdisjoint.union_comm]
  · exact absurd hf (hnew fs)

/-- Independent objects that are merged one after another, into whatever is held, come to the same
text in any order. -/
theorem afterMerges_perm (existing : Option String) {texts texts' : List String}
    (h : AreIndependent texts) (hperm : texts.Perm texts') :
    afterMerges existing texts = afterMerges existing texts' := by
  induction hperm generalizing existing with
  | nil => rfl
  | cons text _ ih => exact ih (some (shallowMerge existing text)) h.tail
  | swap first second rest =>
    obtain ⟨fs, hf⟩ := h.isObject first (by simp)
    obtain ⟨gs, hg⟩ := h.isObject second (by simp)
    have hdisjoint := (List.pairwise_cons.1 h.disjoint).1 first List.mem_cons_self gs fs hg hf
    have hswap := @shallowMerge_right_comm existing _ _ _ _ (h.keepsFloats second (by simp))
      (h.keepsFloats first (by simp)) hg hf hdisjoint
    exact congrArg (fun text => afterMerges (some text) rest) hswap
  | trans hmiddle _ ih₁ ih₂ => exact (ih₁ existing h).trans (ih₂ existing (h.perm hmiddle))

theorem afterMerges_perm_padded :
    let number := " \x7b\"b\":1.5\x7d"
    let list := "\x7b\"c\":\x7b\x7d,\"a\":[7]\x7d"
    -- a float that is held and is not found again
    let held := "\x7b\"x\":1.7976931348623155e308\x7d"
    afterMerges none [number, list] = afterMerges none [list, number] ∧
      afterMerges none [list, number] = some "\x7b\"a\":[7],\"b\":1.5,\"c\":\x7b\x7d\x7d" ∧
      afterMerges (some held) [number, list] = afterMerges (some held) [list, number] := by
  intro number list held
  have hindependent : AreIndependent [number, list] := by decide +kernel
  have hswap := fun existing => afterMerges_perm existing hindependent (.swap _ _ [])
  exact ⟨hswap none, by decide +kernel, hswap (some held)⟩

end SchemaStore.Codec
