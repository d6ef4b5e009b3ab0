import SchemaStore.Codec.Legacy
import SchemaStore.Proofs.Codec.RoundTrip

/-!
# Texts written without the codec

A text written without the codec is a number if it is how a number prints (`Codec.displayed`), and no
such text stands in braces or brackets. So the text of an array or an object is read as its document
(`Codec.parseLegacy_render`), and a value whose text this is is found in it: reading it through the
document gives what reading its text gives (`Catalog.decodeLegacy_encode`).
-/

namespace SchemaStore

namespace Codec

/-! ## Numbers that print back -/

/-- How a number prints: an integer in decimal, a float with all places of its shortest decimal. -/
def displayed : Number → List Char
  | .int n => Text.decimal n
  | .single x => legacyLayout.text x
  | .double x => legacyLayout.text x

theorem displayed_head (n : Number) :
    ∃ c tail, displayed n = c :: tail ∧ (c = '-' ∨ c.isDigit = true) := by
  cases n with
  | int n => exact Json.decimal_head n
  | single x => exact Layout.text_head legacyLayout x
  | double x => exact Layout.text_head legacyLayout x

/-- A legacy float is a double that is shown as the text it was read from. -/
theorem exists_of_legacyFloat? {cs : List Char} {n : WordNumber} (h : legacyFloat? cs = some n) :
    ∃ x, n = ⟨.double x, trivial⟩ ∧ legacyLayout.text x = cs := by
  unfold legacyFloat? at h
  split at h
  · next x _ =>
    split at h
    · next htext =>
      cases h
      exact ⟨x, rfl, htext⟩
    · cases h
  · cases h

/-- A text is taken for a number only if it is how this number prints. -/
theorem displayed_of_legacyNumber? {cs : List Char} {n : WordNumber}
    (h : legacyNumber? cs = some n) : displayed n.val = cs := by
  have hfloat : legacyFloat? cs = some n → displayed n.val = cs := fun h => by
    obtain ⟨x, rfl, htext⟩ := exists_of_legacyFloat? h
    exact htext
  unfold legacyNumber? at h
  split at h
  · next i _ =>
    split at h
    · split at h
      · next htext =>
        cases h
        exact htext
      · cases h
    · exact hfloat h
  · exact hfloat h

section Cases

variable {raw : String}

theorem parseLegacy_of_number {n : WordNumber} (h : legacyNumber? raw.toList = some n) :
    parseLegacy raw = .ofNumber n := by
  simp only [parseLegacy, h]

theorem parseLegacy_of_document {d : Document} (h : legacyNumber? raw.toList = none)
    (hbracketed : isBracketed raw.toList = true) (hparse : Document.parse raw.toList = .ok d) :
    parseLegacy raw = d := by
  simp only [parseLegacy, h, hbracketed, if_true, hparse]

/-- What is neither a number nor the JSON of something between brackets stays a string. -/
theorem parseLegacy_of_text (h : legacyNumber? raw.toList = none)
    (hdocument : isBracketed raw.toList = true → ∀ d, Document.parse raw.toList ≠ .ok d) :
    parseLegacy raw = .ofText raw := by
  simp only [parseLegacy, h]
  split
  · next hbracketed =>
    split
    · next d hparse => exact absurd hparse (hdocument hbracketed d)
    · rfl
  · rfl

end Cases

/-! ## Arrays and objects -/

theorem legacyNumber?_of_mark {cs : List Char} (h : cs.head? = some '\x7b' ∨ cs.head? = some '[') :
    legacyNumber? cs = none := by
  refine Option.eq_none_iff_forall_ne_some.2 fun n hn => ?_
  obtain ⟨c, tail, htext, hc⟩ := displayed_head n.val
  rw [displayed_of_legacyNumber? hn] at htext
  obtain ⟨-, -, hbracket, hbrace, -, -⟩ := Json.digit_mark hc
  rw [htext, List.head?_cons, Option.some.injEq, Option.some.injEq] at h
  exact h.elim hbrace hbracket

theorem isBracketed_iff {cs : List Char} : isBracketed cs = true ↔
    (cs.head? = some '\x7b' ∧ cs.getLast? = some '\x7d') ∨
      (cs.head? = some '[' ∧ cs.getLast? = some ']') := by
  rw [isBracketed, Bool.or_eq_true, Bool.and_eq_true, Bool.and_eq_true, beq_iff_eq, beq_iff_eq,
    beq_iff_eq, beq_iff_eq]

theorem isBracketed_arr (js : List Json) : isBracketed (Json.arr js).text = true :=
  isBracketed_iff.2 (.inr ⟨by rw [Json.text_arr]; rfl, Json.getLast?_arr js⟩)

theorem isBracketed_obj (fs : List (String × Json)) : isBracketed (Json.obj fs).text = true :=
  isBracketed_iff.2 (.inl ⟨by rw [Json.text_obj]; rfl, Json.getLast?_obj fs⟩)

/-- The text of an array or an object is read as its document. -/
theorem parseLegacy_render {j : Json} (hj : (∃ js, j = .arr js) ∨ ∃ fs, j = .obj fs)
    (h : j.Readable) : parseLegacy j.render = Document.ofJson j := by
  have hbracketed : isBracketed j.text = true := by
    rcases hj with ⟨js, rfl⟩ | ⟨fs, rfl⟩
    · exact isBracketed_arr js
    · exact isBracketed_obj fs
  have hmark := (isBracketed_iff.1 hbracketed).imp And.left And.left
  have htext : j.render.toList = j.text := String.toList_ofList
  rw [← htext] at hbracketed hmark
  exact parseLegacy_of_document (legacyNumber?_of_mark hmark) hbracketed
    (by rw [htext, Document.parse_text h])

end Codec

/-! ## Composite values -/

namespace Shape

/-- The values are lists, sets, tuples, maps, records, choices or objects of documents. -/
def isComposite : Shape → Bool
  | .list _ | .set _ | .array _ _ | .pair _ _ | .map _ _ | .record _ | .choice _ | .object => true
  | .leaf _ | .unit | .option _ | .json => false

/-- No name of a variant looks like an array or an object. -/
def isUnbracketed : Shape → Bool
  | .choice c => c.variants.all fun v =>
    v.name.toList.head? != some '\x7b' && v.name.toList.head? != some '['
  | _ => true

/-- A composite value is written as an array, as an object or as the name of a variant. -/
theorem toJson_composite {s : Shape} {v : s.Val} {j : Json} (hs : s.isComposite = true)
    (h : s.toJson v = .ok j) : ((∃ js, j = .arr js) ∨ ∃ fs, j = .obj fs) ∨
      ∃ t, j = .str t ∧ (s.isUnbracketed = true →
        ¬ (t.toList.head? = some '\x7b' ∨ t.toList.head? = some '[')) := by
  cases s with
  | leaf l => cases hs
  | unit => cases hs
  | option s => cases hs
  | json => cases hs
  | list s =>
    obtain ⟨js, -, rfl⟩ := exists_of_map_ok h
    exact .inl (.inl ⟨js, rfl⟩)
  | set s =>
    cases h
    exact .inl (.inl ⟨_, rfl⟩)
  | array n s =>
    obtain ⟨js, -, rfl⟩ := exists_of_map_ok h
    exact .inl (.inl ⟨js, rfl⟩)
  | pair s t =>
    obtain ⟨a, b, -, -, rfl⟩ := toJson_pair (v := v.1) (w := v.2) h
    exact .inl (.inl ⟨_, rfl⟩)
  | map k s =>
    obtain ⟨fs, -, rfl⟩ := exists_of_map_ok h
    exact .inl (.inr ⟨fs, rfl⟩)
  | record r =>
    cases h
    exact .inl (.inr ⟨_, rfl⟩)
  | object =>
    cases h
    exact .inl (.inr ⟨_, rfl⟩)
  | choice c =>
    cases h
    rcases Choice.toJson_eq_str_or_obj v with ⟨-, hstr⟩ | ⟨j, -, hobj⟩
    · refine .inr ⟨_, hstr, fun hnames => ?_⟩
      have hname := List.all_eq_true.1 hnames _ (List.get_mem c.variants v.1)
      rw [Bool.and_eq_true, bne_iff_ne, bne_iff_ne] at hname
      exact not_or.2 hname
    · exact .inl (.inr ⟨_, hobj⟩)

end Shape

/-- A composite value whose text is an array or an object is found in this text, and also reading the
text finds it. -/
theorem Codec.decodeLegacy_of_composite {s : Shape} {v : s.Val} {text : String}
    (hs : s.isComposite = true) (hdynamic : s.isDynamic = true) (hnames : s.isUnbracketed = true)
    (htext : encode s v = .ok text)
    (hmark : text.toList.head? = some '\x7b' ∨ text.toList.head? = some '[')
    (ho : s.OptionsShow v) (hx : ∀ x ∈ s.floats v, x.2.ReadsBack)
    (hd : ∀ j, s.toJson v = .ok j → j.depth ≤ maxDepth) :
    decodeLegacy s text = .ok v ∧ decode s text = .ok v := by
  rcases encode_cases htext with hstr | ⟨j, hj, hnostr, rfl⟩
  · rcases Shape.toJson_composite hs hstr with hcontainer | ⟨t, ht, hname⟩
    · rcases hcontainer with ⟨js, hjs⟩ | ⟨fs, hfs⟩
      · cases hjs
      · cases hfs
    · cases ht
      exact absurd hmark (hname hnames)
  · rcases Shape.toJson_composite hs hj with hcontainer | ⟨t, rfl, -⟩
    · have hreadable : j.Readable := ⟨Shape.readsBack_toJson hdynamic hj hx, hd j hj⟩
      refine ⟨?_, decode_of_reads hnostr (s.reads_toJson maxDepth v j hj (hd j hj) ho hx)⟩
      rw [decodeLegacy, parseLegacy_render hcontainer hreadable]
      exact Shape.ofDocument_ofJson hdynamic v j hj ho hx
    · exact absurd rfl (hnostr t)

namespace Catalog

theorem composite_shapes : ∀ s ∈ shapes, s.isComposite = true →
    (s.isDynamic && s.isUnbracketed && s.isShown && s.isShallow) = true := by
  decide

/-- A list, set, tuple, map, record, choice or object that is written as an array or an object is
found in its text without the codec, and decoding the text gives the same value: if the floats in it
are found again and its documents are not nested too deep. -/
theorem decodeLegacy_encode {s : Shape} (hs : s ∈ shapes) (hcomposite : s.isComposite = true)
    (v : s.Val) {text : String} (htext : Codec.encode s v = .ok text)
    (hmark : text.toList.head? = some '\x7b' ∨ text.toList.head? = some '[')
    (hx : ∀ x ∈ s.floats v, x.2.ReadsBack) (hd : s.NestsAtMost maxDepth v) :
    Codec.decodeLegacy s text = .ok v ∧ Codec.decode s text = .ok v := by
  have hshape := composite_shapes s hs hcomposite
  simp only [Bool.and_eq_true] at hshape
  obtain ⟨⟨⟨hdynamic, hnames⟩, hshown⟩, hshallow⟩ := hshape
  exact Codec.decodeLegacy_of_composite hcomposite hdynamic hnames htext hmark
    (Shape.optionsShow_of_shown s v hshown hx) hx fun j hj => Shape.depth_of_shallow hshallow hd hj

/-- Two entries whose keys come in another order than the names they are written under. -/
def nineAndTen : (Shape.map (.scalar (.int .u8)) .text).Val :=
  SortedMap.ofList [(⟨9, by decide⟩, "a"), (⟨10, by decide⟩, "b")]

theorem decodeLegacy_encode_nineAndTen :
    Codec.decodeLegacy (.map (.scalar (.int .u8)) .text) "\x7b\"9\":\"a\",\"10\":\"b\"\x7d" =
        .ok nineAndTen ∧
      Codec.decode (.map (.scalar (.int .u8)) .text) "\x7b\"9\":\"a\",\"10\":\"b\"\x7d" =
        .ok nineAndTen := by
  have hshape : Shape.map (.scalar (.int .u8)) .text ∈ shapes := by simp [shapes]
  exact decodeLegacy_encode hshape rfl nineAndTen (by decide +kernel) (by decide)
    (by decide +kernel) trivial

end Catalog

end SchemaStore
