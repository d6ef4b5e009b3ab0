import SchemaStore.Proofs.Codec.Dynamic
import SchemaStore.Proofs.Codec.ObjectMerge
import SchemaStore.Proofs.Facade.TypedMap

/-!
# Merging into documents

A read and a merge each tell on their own whether a stored text is an object. A read takes a padded
text for a string (`Codec.dynamic`), a merge takes every text the reader accepts for what it denotes
(`Codec.objectOf?`). The two agree on all other texts (`Codec.dynamic_eq_ofFields_iff`), so a merge
extends the object that a read shows and replaces everything else that it shows. Under a padded
object the read shows a string while the merge extends the object.
-/

namespace SchemaStore

namespace Document

/-- What a merge makes of the document that is there, if any: the fields are added to those of an
object, and replace everything else. -/
def extended (u : SortedMap String Document) : Option Document → Document
  | some d =>
    match d.view with
    | .fields b => .ofFields (b.union u)
    | _ => .ofFields u
  | none => .ofFields u

theorem eq_ofFields_of_view {d : Document} {b : SortedMap String Document}
    (h : d.view = .fields b) : d = ofFields b := by
  rw [← ofView_view d, h, ofView]

theorem extended_ofFields (b u : SortedMap String Document) :
    extended u (some (ofFields b)) = ofFields (b.union u) := by
  simp only [extended, view_ofFields]

theorem extended_of_ne {d : Document} (h : ∀ b, d ≠ ofFields b) (u : SortedMap String Document) :
    extended u (some d) = ofFields u := by
  unfold extended
  dsimp only
  split
  · next b hview => exact absurd (eq_ofFields_of_view hview) (h b)
  · rfl

end Document

/-! ## Objects among stored texts -/

namespace Codec

variable {text : String} {b u : SortedMap String Document}

theorem first_of_not_padded (hpadded : Text.isPadded text.toList = false)
    (h : objectOf? text = some b) : Attempt.first text = .json := by
  obtain ⟨rest, hread, -⟩ := Read.whole_ok (objectOf?_eq_some.1 h)
  have hbrace := Document.head_of_read_fields hread (Document.view_ofFields b)
  rw [skipBlanks_of_not_padded hpadded] at hbrace
  unfold Attempt.first
  rw [hbrace, hpadded]
  decide

/-- A read shows an object exactly if a merge finds it and the text is not padded. -/
theorem dynamic_eq_ofFields_iff :
    dynamic text = .ofFields b ↔ Text.isPadded text.toList = false ∧ objectOf? text = some b := by
  constructor
  · intro h
    unfold dynamic at h
    split at h
    · next d hfirst hparse =>
      rw [h] at hparse
      exact ⟨(first_json hfirst).2, objectOf?_eq_some.2 hparse⟩
    · cases congrArg Document.json h
  · intro ⟨hpadded, h⟩
    exact dynamic_of_parse (first_of_not_padded hpadded h) (objectOf?_eq_some.1 h)

/-! ## Merged texts -/

theorem ofFields_ne_ofText (u : SortedMap String Document) (s : String) :
    Document.ofFields u ≠ .ofText s := by
  intro h
  cases congrArg Document.json h

theorem encodeComposite_ofFields (u : SortedMap String Document) :
    encodeComposite .json (.ofFields u) = .ok (Document.ofFields u).json.render :=
  encodeComposite_of_toJson (s := .json) (v := Document.ofFields u) rfl

section Update

variable (hu : (Document.ofFields u).json.Readable)

include hu in
theorem dynamic_object : dynamic (Document.ofFields u).json.render = .ofFields u :=
  dynamic_render (ofFields_ne_ofText u) hu

include hu in
/-- An update extends an object, be it padded or not. -/
theorem dynamic_merge_object (h : objectOf? text = some b)
    (hx : ∀ x ∈ (Document.ofFields b).json.floats, x.2.ReadsBack) :
    dynamic (shallowMerge (some text) (Document.ofFields u).json.render) =
      .ofFields (b.union u) := by
  have hupdate := objectOf?_eq_some.2 (Document.parse_render hu)
  rw [shallowMerge_of_objects h hupdate]
  exact dynamic_object (readable_union (readable_of_objectOf? h hx) hu)

include hu in
/-- Where no object is padded, a merge acts on what a read shows. -/
theorem dynamic_merge {existing : Option String}
    (h : ∀ old ∈ existing, ∀ b, objectOf? old = some b → Text.isPadded old.toList = false ∧
      ∀ x ∈ (Document.ofFields b).json.floats, x.2.ReadsBack) :
    dynamic (shallowMerge existing (Document.ofFields u).json.render) =
      Document.extended u (existing.map dynamic) := by
  cases existing with
  | none => exact dynamic_object hu
  | some old =>
    cases hold : objectOf? old with
    | some b =>
      obtain ⟨hpadded, hx⟩ := h old rfl b hold
      have hread : dynamic old = .ofFields b := dynamic_eq_ofFields_iff.2 ⟨hpadded, hold⟩
      rw [dynamic_merge_object hu hold hx, Option.map_some, hread, Document.extended_ofFields]
    | none =>
      have hread : ∀ b, dynamic old ≠ .ofFields b := by
        intro b hb
        cases hold.symm.trans (dynamic_eq_ofFields_iff.1 hb).2
      rw [shallowMerge_of_left hold, Option.map_some, Document.extended_of_ne hread,
        dynamic_object hu]

end Update

end Codec

/-! ## The key of documents -/

namespace Catalog

open Codec

/-- The key of documents. -/
def anything : prefs.MergeKey := ⟨⟨8, by decide⟩, by decide⟩

/-- Merge fields into the document. -/
def mergeAnything (u : SortedMap String Document) : Op prefs := .merge anything (Document.ofFields u)

/-- The floats of the document under the key are found again. -/
def AnythingReadsBack (m : MemoryStore) : Prop :=
  ∀ text ∈ m.get "anything", ∀ d, Document.parse text.toList = .ok d →
    ∀ x ∈ d.json.floats, x.2.ReadsBack

variable {m : MemoryStore} {u : SortedMap String Document}

/-- A read under the key of documents shows the document its text stands for, whatever the text. -/
theorem answerGet_anything (m : MemoryStore) :
    Op.answerGet anything.val m = .ok ((m.get "anything").map dynamic) := by
  have hget : m.get (Schema.name anything.val) = m.get "anything" := rfl
  have hdecode : ∀ raw, (Batch.decodeText anything.val raw : Except (Failure Empty) _) =
      .ok (dynamic raw) :=
    fun raw => congrArg (Except.mapError (Failure.decode "anything")) (decode_document raw)
  rw [Op.answerGet_eq, hget]
  cases m.get "anything" with
  | none => rfl
  | some raw =>
    dsimp only
    rw [hdecode]
    rfl

theorem run_mergeAnything (u : SortedMap String Document) (m : MemoryStore) :
    ((mergeAnything u).run m).answer = .ok () ∧ ((mergeAnything u).run m).store =
      m.merge "anything" (Document.ofFields u).json.render :=
  Op.run_merge (k := anything) (encodeComposite_ofFields u) m

/-- After a merge it shows what the merged text stands for. -/
theorem answerGet_mergeAnything (u : SortedMap String Document) (m : MemoryStore) :
    Op.answerGet anything.val ((mergeAnything u).run m).store =
      .ok (some (dynamic (shallowMerge (m.get "anything") (Document.ofFields u).json.render))) := by
  rw [(run_mergeAnything u m).2, answerGet_anything, MemoryStore.get_merge, if_pos rfl]
  rfl

theorem anythingReadsBack_of_object {text : String} {b : SortedMap String Document}
    (hget : m.get "anything" = some text) (h : objectOf? text = some b)
    (hx : ∀ x ∈ (Document.ofFields b).json.floats, x.2.ReadsBack) : AnythingReadsBack m := by
  intro text' htext' d hd
  obtain rfl : text = text' := Option.some.inj (hget.symm.trans htext')
  obtain rfl := Except.ok.inj ((objectOf?_eq_some.1 h).symm.trans hd)
  exact hx

/-- The text under the key spells an object, but it is padded. -/
def PadsObject (m : MemoryStore) : Prop :=
  ∃ text ∈ m.get "anything", Text.isPadded text.toList = true ∧ ∃ b, objectOf? text = some b

/-- What a merge of fields makes of a document. Unless an object is stored with blanks around it, the
document that a read shows is extended if it is an object and replaced if it is not. With blanks
around it a read shows the text of the object, and the merge extends the object all the same. -/
theorem answerGet_after_mergeAnything (m : MemoryStore) (u : SortedMap String Document)
    (hm : AnythingReadsBack m) (hx : ∀ x ∈ (Document.ofFields u).json.floats, x.2.ReadsBack)
    (hd : (Document.ofFields u).json.depth ≤ maxDepth) :
    ((mergeAnything u).run m).answer = .ok () ∧
      ∃ g, Op.answerGet anything.val m = .ok g ∧
        (¬ PadsObject m → Op.answerGet anything.val ((mergeAnything u).run m).store =
          .ok (some (Document.extended u g))) ∧
        ∀ text ∈ m.get "anything", Text.isPadded text.toList = true →
          ∀ b, objectOf? text = some b → g = some (Document.ofText text) ∧
            Op.answerGet anything.val ((mergeAnything u).run m).store =
              .ok (some (Document.ofFields (b.union u))) := by
  have hu : (Document.ofFields u).json.Readable := ⟨Shape.readsBack_document hx, hd⟩
  have hfloats : ∀ text ∈ m.get "anything", ∀ b, objectOf? text = some b →
      ∀ x ∈ (Document.ofFields b).json.floats, x.2.ReadsBack :=
    fun text htext b hb => hm text htext _ (objectOf?_eq_some.1 hb)
  refine ⟨(run_mergeAnything u m).1, _, answerGet_anything m, ?_, ?_⟩
  · intro hplain
    have hunpadded : ∀ text ∈ m.get "anything", ∀ b, objectOf? text = some b →
        Text.isPadded text.toList = false := by
      intro text htext b hb
      by_contra hpadded
      exact hplain ⟨text, htext, Bool.of_not_eq_false hpadded, b, hb⟩
    have hmerge := dynamic_merge hu fun text htext b hb =>
      ⟨hunpadded text htext b hb, hfloats text htext b hb⟩
    rw [answerGet_mergeAnything, hmerge]
    rfl
  · intro text htext hpadded b hb
    have hget : m.get "anything" = some text := htext
    have hbare : Attempt.first text = .bare := if_pos (.inr hpadded)
    rw [answerGet_mergeAnything, hget, dynamic_merge_object hu hb (hfloats text htext b hb)]
    exact ⟨congrArg some (dynamic_of_bare hbare), rfl⟩

/-- An object with one field, `a`, which is 1. -/
def oneField : SortedMap String Document := .ofList [("a", .ofInt 1 (by decide))]

/-- An object with one field, `b`, which is one and a half. -/
def halfField : SortedMap String Document := .ofList [("b", .ofDouble oneAndHalf)]

/-- A store in which the first object is a document. -/
def oneFieldStored : MemoryStore := .ofList [("anything", "\x7b\"a\":1\x7d")]

theorem objectOf?_oneField : objectOf? "\x7b\"a\":1\x7d" = some oneField := rfl

theorem answerGet_after_mergeAnything_half :
    Op.answerGet anything.val ((mergeAnything halfField).run oneFieldStored).store =
      .ok (some (Document.ofFields (oneField.union halfField))) := by
  have hback : AnythingReadsBack oneFieldStored :=
    anythingReadsBack_of_object rfl objectOf?_oneField (by decide)
  have hplain : ¬ PadsObject oneFieldStored := by
    rintro ⟨text, htext, hpadded, -⟩
    obtain rfl : "\x7b\"a\":1\x7d" = text := Option.some.inj htext
    cases hpadded
  obtain ⟨-, g, hg, hafter, -⟩ := answerGet_after_mergeAnything oneFieldStored halfField hback
    (by decide +kernel) (by decide)
  have hread : Op.answerGet anything.val oneFieldStored = .ok (some (Document.ofFields oneField)) :=
    rfl
  obtain rfl := Except.ok.inj (hread.symm.trans hg)
  have hextended := Document.extended_ofFields oneField halfField
  exact (hafter hplain).trans (congrArg (fun d => Except.ok (some d)) hextended)

/-- A string that is an object with a blank before it. -/
def paddedField : String := " \x7b\"a\":1\x7d"

/-- The store after that string was put. -/
def paddedFieldStored : MemoryStore :=
  ((Op.set anything.val (Document.ofText paddedField)).run MemoryStore.empty).store

/-- A merge need not act on what a read shows: a string may become part of an object. -/
theorem answerGet_after_mergeAnything_padded :
    ¬ ∀ (m : MemoryStore) (u : SortedMap String Document), AnythingReadsBack m →
      (∀ x ∈ (Document.ofFields u).json.floats, x.2.ReadsBack) →
      (Document.ofFields u).json.depth ≤ maxDepth →
      ∃ g, Op.answerGet anything.val m = .ok g ∧
        Op.answerGet anything.val ((mergeAnything u).run m).store =
          .ok (some (Document.extended u g)) := by
  intro h
  have hget : paddedFieldStored.get "anything" = some paddedField := rfl
  have hobject : objectOf? paddedField = some oneField := rfl
  have hx : ∀ x ∈ (Document.ofFields halfField).json.floats, x.2.ReadsBack := by decide +kernel
  have hd : (Document.ofFields halfField).json.depth ≤ maxDepth := by decide
  obtain ⟨g, hg, hafter⟩ := h paddedFieldStored halfField
    (anythingReadsBack_of_object hget hobject (by decide)) hx hd
  -- the string is read, and the merge would have to replace it
  have hread : Op.answerGet anything.val paddedFieldStored =
      .ok (some (Document.ofText paddedField)) := rfl
  obtain rfl := Except.ok.inj (hread.symm.trans hg)
  have hmerged := dynamic_merge_object ⟨Shape.readsBack_document hx, hd⟩ hobject (by decide)
  rw [answerGet_mergeAnything, hget, hmerged] at hafter
  have hsame : Document.ofFields (oneField.union halfField) = Document.ofFields halfField :=
    Option.some.inj (Except.ok.inj hafter)
  exact absurd (congrArg (fun d => d.json.numbers.length) hsame) (by decide)

end Catalog

end SchemaStore
