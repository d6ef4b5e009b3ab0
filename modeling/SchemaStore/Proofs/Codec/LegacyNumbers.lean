import SchemaStore.Proofs.Binary.Parse
import SchemaStore.Proofs.Codec.Legacy

/-!
# Which texts are numbers

A text written without the codec is a number exactly if it is how an integer of 64 bits or a double
prints, negative zero apart (`Codec.parseLegacy_eq_ofNumber`, `Codec.exists_legacyNumber?`). One text
can be both, since a whole double prints as digits; it is then the integer. Everything else is an
array, an object or the text itself (`Codec.parseLegacy_classifies`).
-/

namespace SchemaStore

/-- A layout that always writes all places writes digits before the point and after it. -/
theorem Layout.splitsAtPoint_magnitudeText {l : Layout} (hl : l.positional = none) {p : Precision}
    (x : FiniteBinary p) : ∃ m n, l.SplitsAtPoint (l.magnitudeText x) m n := by
  obtain ⟨c, ds, lead, hds, ⟨hzero, htext⟩ | ⟨hpositional, -⟩⟩ := l.magnitudeText_cases x
  · rw [htext]
    exact ⟨_, _, l.splitsAtPoint_positionalText hds hzero⟩
  · rw [isPositional, hl] at hpositional
    cases hpositional

namespace Codec

open Token (signedDigits)

/-! ## Texts of integers -/

theorem decimal_eq_signedDigits (i : Int) :
    Text.decimal i = signedDigits (decide (i < 0)) i.natAbs := by
  simp only [Text.decimal, signedDigits, decide_eq_true_eq]

theorem integer?_signedDigits (negative : Bool) (m : Nat) :
    integer? (signedDigits negative m) = some (if negative then -(m : Int) else (m : Int)) := by
  obtain ⟨c, ds, hds, hc⟩ := Text.exists_toDigits m
  have hall : (c :: ds).all Char.isDigit = true :=
    List.all_eq_true.2 (Text.isDigit_of_toDigits_eq hds)
  have hvalue := Text.digitsValue_toDigits m
  rw [hds] at hvalue
  rw [signedDigits, hds, integer?, Text.spanSign_of_digit hc]
  simp [hall, hvalue]

theorem integer?_decimal (i : Int) : integer? (Text.decimal i) = some i := by
  rw [decimal_eq_signedDigits, integer?_signedDigits, Option.some.injEq]
  simp only [decide_eq_true_eq]
  split <;> omega

/-- A double that prints as an integer prints as its decimal digits. -/
theorem text_of_integer? {x : FiniteBinary .double} {i : Int}
    (h : integer? (legacyLayout.text x) = some i) :
    ∃ m, legacyLayout.text x = signedDigits x.negative m := by
  obtain ⟨_, _, w, ws, fraction, hmagnitude, hws, hzero, -, hfraction⟩ :=
    Layout.splitsAtPoint_magnitudeText (l := legacyLayout) rfl x
  obtain ⟨hw, -⟩ := List.forall_mem_cons.1 hws
  rw [List.cons_append] at hmagnitude
  have htext := legacyLayout.text_eq x
  rw [hmagnitude] at htext
  have hall : (ws ++ fraction).all Char.isDigit = true := by
    rw [htext, integer?, Text.spanSign_of_digit hw] at h
    dsimp only at h
    split at h
    · cases h
    · next hdigits => simpa [hw] using hdigits
  -- a fraction would start with a point
  obtain rfl : fraction = [] := by
    rcases hfraction with ⟨rfl, -⟩ | ⟨d, es, rfl, -⟩
    · rfl
    · simp [show Char.isDigit '.' = false from rfl] at hall
  rw [List.append_nil] at htext
  refine ⟨Text.digitsValue (w :: ws), ?_⟩
  rw [htext, signedDigits, Text.toDigits_of_zero_alone hws hzero]

/-- Negative zero apart, a number that prints as an integer prints as this integer does. -/
theorem decimal_of_displayed {n : WordNumber} {i : Int} (hneg : displayed n.val ≠ ['-', '0'])
    (h : integer? (displayed n.val) = some i) : Text.decimal i = displayed n.val := by
  obtain ⟨n, hn⟩ := n
  cases n with
  | int j =>
    rw [displayed, integer?_decimal] at h
    cases h
    rfl
  | single x => exact hn.elim
  | double x =>
    obtain ⟨m, hm⟩ := text_of_integer? h
    rw [displayed] at h hneg ⊢
    rw [hm, integer?_signedDigits] at h
    rw [hm, Ne, Token.signedDigits_eq] at hneg
    rw [hm, ← Option.some.inj h, Token.decimal_signed hneg]

/-! ## Numbers -/

/-- Some number prints as the text: an integer of 64 bits, signed or unsigned, or a double. -/
def IsDisplayed (cs : List Char) : Prop := ∃ n : WordNumber, displayed n.val = cs

/-- The number that a printed text stands for: the integer it denotes, if that has 64 bits, and the
double that prints as it otherwise. -/
def StandsFor (cs : List Char) : Number → Prop
  | .int i => FitsWord i ∧ integer? cs = some i
  | .double x => (∀ i, integer? cs = some i → ¬ FitsWord i) ∧ legacyLayout.text x = cs
  | .single _ => False

theorem legacyFloat?_text (x : FiniteBinary .double) :
    legacyFloat? (legacyLayout.text x) = some ⟨.double x, trivial⟩ := by
  have hparse := Binary.parse?_text (l := legacyLayout) rfl rfl x
  simp only [legacyFloat?, hparse, if_true]

theorem standsFor_of_legacyNumber? {cs : List Char} {n : WordNumber}
    (h : legacyNumber? cs = some n) : StandsFor cs n.val := by
  have hfloat : (∀ i, integer? cs = some i → ¬ FitsWord i) → legacyFloat? cs = some n →
      StandsFor cs n.val := fun hnone h => by
    obtain ⟨x, rfl, htext⟩ := exists_of_legacyFloat? h
    exact ⟨hnone, htext⟩
  unfold legacyNumber? at h
  split at h
  · next i hi =>
    split at h
    · next hfits =>
      split at h
      · cases h
        exact ⟨hfits, hi⟩
      · cases h
    · next hfits =>
      refine hfloat (fun j hj => ?_) h
      rw [hi] at hj
      cases hj
      exact hfits
  · next hnone =>
    refine hfloat (fun j hj => ?_) h
    rw [hnone] at hj
    cases hj

/-- What is displayed is taken for a number, unless it is negative zero. -/
theorem exists_legacyNumber? {cs : List Char} (hneg : cs ≠ ['-', '0']) (h : IsDisplayed cs) :
    ∃ n, legacyNumber? cs = some n := by
  obtain ⟨n, rfl⟩ := h
  have hfloat : (∀ i, integer? (displayed n.val) = some i → ¬ FitsWord i) →
      ∃ n', legacyFloat? (displayed n.val) = some n' := fun hnone => by
    obtain ⟨n, hn⟩ := n
    cases n with
    | int j => exact absurd hn (hnone j (integer?_decimal j))
    | single x => exact hn.elim
    | double x => exact ⟨_, legacyFloat?_text x⟩
  unfold legacyNumber?
  cases hi : integer? (displayed n.val) with
  | none => exact hfloat (by rw [hi]; nofun)
  | some i =>
    by_cases hfits : FitsWord i
    · simp only [dif_pos hfits, if_pos (decimal_of_displayed hneg hi)]
      exact ⟨_, rfl⟩
    · simp only [dif_neg hfits]
      refine hfloat fun j hj => ?_
      rw [hi] at hj
      cases hj
      exact hfits

theorem legacyNumber?_negativeZero : legacyNumber? ['-', '0'] = none := rfl

/-! ## Documents -/

/-- What is read from a bracket on is an array or an object. -/
theorem items_or_fields_of_parse {cs : List Char} {d : Document} (hbracketed : isBracketed cs = true)
    (h : Document.parse cs = .ok d) : (∃ ds, d = .ofItems ds) ∨ ∃ fs, d = .ofFields fs := by
  obtain ⟨rest, hread, -⟩ := Read.whole_ok h
  obtain ⟨c, tail, hcs, hc⟩ : ∃ c tail, Text.skipBlanks cs = c :: tail ∧ (c = '[' ∨ c = '\x7b') := by
    cases cs with
    | nil => cases hbracketed
    | cons c tail =>
      rcases isBracketed_iff.1 hbracketed with ⟨hbrace, -⟩ | ⟨hbracket, -⟩
      · obtain rfl := Option.some.inj hbrace
        exact ⟨_, tail, Token.skipBlanks_cons rfl tail, .inr rfl⟩
      · obtain rfl := Option.some.inj hbracket
        exact ⟨_, tail, Token.skipBlanks_cons rfl tail, .inl rfl⟩
  cases Document.readBy_of_read hread with
  | plain always =>
    -- no container is read where none may be opened
    have hzero := always 0
    rw [Document.read.eq_def] at hzero
    dsimp only at hzero
    rw [hcs] at hzero
    rcases hc with rfl | rfl <;> cases hzero
  | text start =>
    rw [hcs] at start
    cases start
    simp at hc
  | items start body => exact .inl ⟨_, rfl⟩
  | fields start body => exact .inr ⟨_, rfl⟩

/-- A text is a number, an array or an object it denotes, or itself. -/
theorem parseLegacy_cases (raw : String) :
    (∃ n, legacyNumber? raw.toList = some n ∧ parseLegacy raw = .ofNumber n) ∨
      (legacyNumber? raw.toList = none ∧
        ((∃ d, isBracketed raw.toList = true ∧ Document.parse raw.toList = .ok d ∧
            parseLegacy raw = d) ∨
          (∀ d, isBracketed raw.toList = true → Document.parse raw.toList ≠ .ok d) ∧
            parseLegacy raw = .ofText raw)) := by
  cases hnumber : legacyNumber? raw.toList with
  | some n => exact .inl ⟨n, rfl, parseLegacy_of_number hnumber⟩
  | none =>
    refine .inr ⟨rfl, ?_⟩
    by_cases hdocument : ∃ d, isBracketed raw.toList = true ∧ Document.parse raw.toList = .ok d
    · obtain ⟨d, hbracketed, hparse⟩ := hdocument
      exact .inl ⟨d, hbracketed, hparse, parseLegacy_of_document hnumber hbracketed hparse⟩
    · have hnone : ∀ d, isBracketed raw.toList = true → Document.parse raw.toList ≠ .ok d :=
        fun d hbracketed hparse => hdocument ⟨d, hbracketed, hparse⟩
      exact .inr ⟨hnone, parseLegacy_of_text hnumber fun hbracketed d => hnone d hbracketed⟩

theorem parseLegacy_eq_ofNumber {raw : String} {n : WordNumber} :
    parseLegacy raw = .ofNumber n ↔ legacyNumber? raw.toList = some n := by
  refine ⟨fun h => ?_, parseLegacy_of_number⟩
  rcases parseLegacy_cases raw with ⟨m, hm, hnumber⟩ | ⟨-, ⟨d, hbracketed, hparse, rfl⟩ | ⟨-, htext⟩⟩
  · rw [hnumber] at h
    rw [hm, Option.some.injEq]
    exact Subtype.ext (Json.num.inj (congrArg Document.json h))
  · rcases items_or_fields_of_parse hbracketed hparse with ⟨ds, hd⟩ | ⟨fs, hd⟩
    · exact nomatch congrArg Document.json (h.symm.trans hd)
    · exact nomatch congrArg Document.json (h.symm.trans hd)
  · exact nomatch congrArg Document.json (h.symm.trans htext)

/-- Nothing is read as null or as a boolean. -/
theorem parseLegacy_json (raw : String) :
    (parseLegacy raw).json ≠ .null ∧ ∀ b, (parseLegacy raw).json ≠ .bool b := by
  rcases parseLegacy_cases raw with ⟨m, hm, hnumber⟩ | ⟨-, ⟨d, hbracketed, hparse, hd⟩ | ⟨-, htext⟩⟩
  · rw [hnumber]
    exact ⟨nofun, nofun⟩
  · rw [hd]
    rcases items_or_fields_of_parse hbracketed hparse with ⟨ds, rfl⟩ | ⟨fs, rfl⟩
    · exact ⟨nofun, nofun⟩
    · exact ⟨nofun, nofun⟩
  · rw [htext]
    exact ⟨nofun, nofun⟩

theorem decodeLegacy_option_ne_none (s : Shape) (raw : String) :
    decodeLegacy (.option s) raw ≠ .ok none := by
  intro h
  have hnull : (parseLegacy raw).view = .null := Document.view_null_of_toOption h
  refine (parseLegacy_json raw).1 ?_
  rw [← Document.ofView_view (parseLegacy raw), hnull]
  rfl

/-- What a text written without the codec means. It is a number exactly if a number of 64 bits prints
as it and it is not negative zero; then it is the integer it denotes or the double that prints as it.
Otherwise it is the array or the object it denotes, if it stands in brackets and the reader accepts
it, and else a string. So it is never null or a boolean, and no optional value is missing. -/
theorem parseLegacy_classifies (raw : String) :
    ((∃ n, parseLegacy raw = .ofNumber n) ↔ raw ≠ "-0" ∧ IsDisplayed raw.toList) ∧
      (∀ n, parseLegacy raw = .ofNumber n → StandsFor raw.toList n.val) ∧
      (¬ (raw ≠ "-0" ∧ IsDisplayed raw.toList) →
        (∀ d, isBracketed raw.toList = true → Document.parse raw.toList = .ok d →
          parseLegacy raw = d ∧ ((∃ ds, d = .ofItems ds) ∨ ∃ fs, d = .ofFields fs)) ∧
        ((∀ d, isBracketed raw.toList = true → Document.parse raw.toList ≠ .ok d) →
          parseLegacy raw = .ofText raw)) ∧
      parseLegacy raw ≠ .null ∧ (∀ b, parseLegacy raw ≠ .ofBool b) ∧
      ∀ s, decodeLegacy (.option s) raw ≠ .ok none := by
  have hnumber : (∃ n, parseLegacy raw = .ofNumber n) ↔ raw ≠ "-0" ∧ IsDisplayed raw.toList := by
    simp only [parseLegacy_eq_ofNumber]
    constructor
    · rintro ⟨n, hn⟩
      refine ⟨?_, n, displayed_of_legacyNumber? hn⟩
      rintro rfl
      cases hn.symm.trans legacyNumber?_negativeZero
    · rintro ⟨hneg, hdisplayed⟩
      refine exists_legacyNumber? (fun h => hneg ?_) hdisplayed
      exact String.toList_inj.1 h
  refine ⟨hnumber, fun n hn => standsFor_of_legacyNumber? (parseLegacy_eq_ofNumber.1 hn),
    fun hnot => ?_, fun h => (parseLegacy_json raw).1 (congrArg Document.json h),
    fun b h => (parseLegacy_json raw).2 b (congrArg Document.json h),
    fun s => decodeLegacy_option_ne_none s raw⟩
  rcases parseLegacy_cases raw with ⟨n, -, hn⟩ | ⟨hnone, -⟩
  · exact absurd (hnumber.1 ⟨n, hn⟩) hnot
  · exact ⟨fun d hbracketed hparse => ⟨parseLegacy_of_document hnone hbracketed hparse,
      items_or_fields_of_parse hbracketed hparse⟩,
      fun h => parseLegacy_of_text hnone fun hbracketed d => h d hbracketed⟩

-- An integer and a double, neither written as it prints.
example : parseLegacy "007" = .ofText "007" := rfl

example : parseLegacy "1e3" = .ofText "1e3" := rfl

end Codec

end SchemaStore
