import SchemaStore.Proofs.Codec.RoundTrip
import SchemaStore.Proofs.Json.Nesting

/-!
# Stored documents

Where any document may be stored, no text is refused: `Codec.dynamic` is the document a stored text
stands for. What is not JSON of its own accord stands for the string it is. So a string is read back
only from a text that no reader takes for JSON (`dynamic_eq_ofText_iff`), and any other document
only from a text the reader can follow down to its deepest container (`dynamic_render_iff`).
-/

namespace SchemaStore

namespace Codec

/-- The document a stored text stands for. -/
def dynamic (raw : String) : Document :=
  match Attempt.first raw, Document.parse raw.toList with
  | .json, .ok d => d
  | _, _ => .ofText raw

/-- Reading a document never fails, as what is not JSON of one is a string. -/
theorem decode_document (raw : String) : decode .json raw = .ok (dynamic raw) := by
  have hparse : Shape.parse .json raw.toList = Document.parse raw.toList := rfl
  unfold decode dynamic
  cases hfirst : Attempt.first raw with
  | bare => rfl
  | json =>
    simp only [Attempt.read, Attempt.other, hparse]
    cases hread : Document.parse raw.toList with
    | ok d => rfl
    | error e => rfl

theorem dynamic_of_parse {raw : String} {d : Document} (hfirst : Attempt.first raw = .json)
    (h : Document.parse raw.toList = .ok d) : dynamic raw = d := by
  unfold dynamic
  rw [hfirst, h]

theorem dynamic_of_bare {raw : String} (h : Attempt.first raw = .bare) :
    dynamic raw = .ofText raw := by
  unfold dynamic
  rw [h]

theorem dynamic_of_refused {raw : String} (h : ∀ d, Document.parse raw.toList ≠ .ok d) :
    dynamic raw = .ofText raw := by
  unfold dynamic
  split
  · next d _ hparse => exact absurd hparse (h d)
  · rfl

/-! ## Strings -/

/-- The text cannot be JSON of a document: it starts with a quote, it is padded with blanks, or the
reader refuses it. -/
def StaysText (s : String) : Prop :=
  s.toList.head? = some '"' ∨ Text.isPadded s.toList = true ∨
    ∀ d, Document.parse s.toList ≠ .ok d

/-- A text that is tried as JSON is not read as a string. -/
theorem parse_ne_ofText {raw s : String} (hfirst : Attempt.first raw = .json) :
    Document.parse raw.toList ≠ .ok (.ofText s) := by
  intro h
  obtain ⟨hquote, hpadded⟩ := first_json hfirst
  obtain ⟨rest, hread, -⟩ := Read.whole_ok h
  have hhead := Document.head_of_read_text hread
  rw [skipBlanks_of_not_padded hpadded] at hhead
  exact hquote hhead

theorem dynamic_of_staysText {s : String} (h : StaysText s) : dynamic s = .ofText s := by
  by_cases hfirst : s.toList.head? = some '"' ∨ Text.isPadded s.toList = true
  · exact dynamic_of_bare (by rw [Attempt.first, if_pos hfirst])
  · exact dynamic_of_refused ((or_assoc.2 h).resolve_left hfirst)

/-- A string that does not stay text denotes a document, and this document is no string. -/
theorem parse_of_not_staysText {s : String} (h : ¬ StaysText s) :
    Document.parse s.toList = .ok (dynamic s) ∧ dynamic s ≠ .ofText s := by
  obtain ⟨hfirst, hparse⟩ := not_or.1 (fun hs => h (or_assoc.1 hs))
  have hjson : Attempt.first s = .json := by rw [Attempt.first, if_neg hfirst]
  obtain ⟨d, hd⟩ := not_forall_not.1 hparse
  rw [dynamic_of_parse hjson hd]
  refine ⟨hd, ?_⟩
  rintro rfl
  exact parse_ne_ofText hjson hd

/-- A stored string is read back exactly if it starts with a quote, is padded, or is no JSON of a
document. -/
theorem dynamic_eq_ofText_iff {s : String} : dynamic s = .ofText s ↔ StaysText s :=
  ⟨fun h => by_contra fun hs => (parse_of_not_staysText hs).2 h, dynamic_of_staysText⟩

/-! ## Other documents -/

variable {v : Document}

theorem dynamic_render (hv : ∀ s, v ≠ .ofText s) (h : v.json.Readable) :
    dynamic v.json.render = v := by
  refine dynamic_of_parse (first_render ?_) (Document.parse_render h)
  intro s hs
  exact hv s (Document.ext hs)

/-- The text of a document that is nested too deep is read as a string, since the reader gives up on
it. -/
theorem dynamic_render_of_deep (hx : ∀ x ∈ v.json.floats, x.2.ReadsBack)
    (hd : ¬ v.json.depth ≤ maxDepth) : dynamic v.json.render = .ofText v.json.render := by
  refine dynamic_of_refused fun d => ?_
  rw [Json.render, String.toList_ofList]
  exact Document.parse_text_of_deep (Shape.readsBack_document hx) (Nat.lt_of_not_le hd) d

/-- A document that is no string is read back from its own text exactly if it is not nested too
deep. -/
theorem dynamic_render_iff (hv : ∀ s, v ≠ .ofText s) (hx : ∀ x ∈ v.json.floats, x.2.ReadsBack) :
    dynamic v.json.render = v ↔ v.json.depth ≤ maxDepth := by
  constructor
  · intro h
    by_contra hd
    rw [dynamic_render_of_deep hx hd] at h
    exact hv _ h.symm
  · intro hd
    exact dynamic_render hv ⟨Shape.readsBack_document hx, hd⟩

theorem encode_ofText (s : String) : encode .json (.ofText s) = .ok s := encode_str rfl

/-- A document that is no string is stored as its JSON. -/
theorem encode_document (hv : ∀ s, v ≠ .ofText s) : encode .json v = .ok v.json.render := by
  obtain ⟨text, h⟩ := encode_of_toJson (s := .json) (v := v) rfl
  rcases encode_cases h with hstr | ⟨j, hj, -, rfl⟩
  · have hjson : v.json = .str text := Except.ok.inj hstr
    exact absurd (Document.ext hjson) (hv text)
  · cases hj
    exact h

/-- What becomes of a document that is stored and read. A string is read back exactly if it stays
text, and else becomes the document it denotes. Any other document is read back exactly if it is not
nested too deep, and else becomes the string of its own text. -/
theorem decode_encode_document (v : Document) (hx : ∀ x ∈ v.json.floats, x.2.ReadsBack) :
    ∃ text w, encode .json v = .ok text ∧ decode .json text = .ok w ∧
      (∀ s, v = .ofText s → (w = v ↔ StaysText s) ∧
        (¬ StaysText s → Document.parse s.toList = .ok w)) ∧
      ((∀ s, v ≠ .ofText s) → (w = v ↔ v.json.depth ≤ maxDepth) ∧
        (¬ v.json.depth ≤ maxDepth → w = .ofText text)) := by
  by_cases hv : ∃ s, v = .ofText s
  · obtain ⟨s, rfl⟩ := hv
    refine ⟨s, dynamic s, encode_ofText s, decode_document s, ?_, fun hne => absurd rfl (hne s)⟩
    intro t ht
    obtain rfl : s = t := Json.str.inj (congrArg Document.json ht)
    exact ⟨dynamic_eq_ofText_iff, fun hs => (parse_of_not_staysText hs).1⟩
  · have hne : ∀ s, v ≠ .ofText s := fun s hs => hv ⟨s, hs⟩
    refine ⟨_, _, encode_document hne, decode_document _, fun s hs => absurd hs (hne s), ?_⟩
    exact fun _ => ⟨dynamic_render_iff hne hx, dynamic_render_of_deep hx⟩

theorem decode_encode_bracketed :
    decode .json "[1.5]" = .ok (.ofItems [.ofDouble Catalog.oneAndHalf]) := by
  have hfloats : ∀ x ∈ (Document.ofItems [.ofDouble Catalog.oneAndHalf]).json.floats,
      x.2.ReadsBack := by decide +kernel
  obtain ⟨text, w, hencode, hdecode, -, hw⟩ := decode_encode_document _ hfloats
  have htext : encode .json (.ofItems [.ofDouble Catalog.oneAndHalf]) = .ok "[1.5]" := by
    decide +kernel
  obtain rfl := Except.ok.inj (htext.symm.trans hencode)
  rw [hdecode, (hw nofun).1.2 (by decide)]

end Codec

end SchemaStore
