import SchemaStore.Proofs.Json.Document

/-!
# Single values, written and read

Every scalar is read back from its JSON form and from its text as a key, and every float that the
reader finds again from its JSON form. An optional value is read back unless its JSON form is null
(`Token.reads_some`).
-/

namespace SchemaStore

open Token (Reads)
open Container (ReadsKey)

/-! ## Integers -/

theorem IntKind.ofInt?_val {k : IntKind} (n : k.Val) : k.ofInt? n.val = some n :=
  dif_pos n.property

theorem IntKind.val_of_ofInt? {k : IntKind} {n : Int} {v : k.Val} (h : k.ofInt? n = some v) :
    v.val = n := by
  unfold ofInt? at h
  split at h
  · cases h
    rfl
  · cases h

/-- The integer types that are not wide have 64 bits at most. -/
theorem IntKind.fitsWord {k : IntKind} (hk : k.isWide = false) (n : k.Val) : FitsWord n.val := by
  obtain ⟨n, hn⟩ := n
  obtain ⟨signed, width⟩ := k
  unfold FitsWord
  cases signed <;> cases width <;>
    simp [isWide, Holds, least, bound, card, Width.bits] at hk hn ⊢ <;> omega

namespace Token

theorem reads_integer (k : IntKind) (n : k.Val) : Reads (integer k) (Text.decimal n.val) n := by
  intro rest hr
  obtain ⟨c, tail, htext, hc⟩ := Json.decimal_head n.val
  rw [integer]
  cases hk : k.isWide with
  | false =>
    have hread := anyNumber_decimal (IntKind.fitsWord hk n) (.integer k)
    rw [if_neg (by decide)]
    rw [htext] at hread ⊢
    rw [anyNumber_append hc hr hread]
    simp only [Read.check, IntKind.ofNumber, IntKind.ofInt?_val]
    rfl
  | true =>
    rw [if_pos rfl, wide]
    by_cases hneg : n.val < 0
    · have hdecimal : Text.decimal n.val = '-' :: Nat.toDigits 10 n.val.natAbs := if_pos hneg
      have hsigned : k.signed ≠ false := by
        intro hs
        have hlow := n.property.1
        rw [IntKind.least, hs, if_neg (by decide)] at hlow
        omega
      have hval : -(n.val.natAbs : Int) = n.val := by omega
      rw [hdecimal, List.cons_append, value_cons rfl, if_neg (fun h => hsigned h.2), if_pos rfl,
        wideInteger_toDigits true _ hr]
      simp only [Read.andThen, if_true, hval, IntKind.ofInt?_val]
    · have hdecimal : Text.decimal n.val = Nat.toDigits 10 n.val.natAbs := if_neg hneg
      have hval : (n.val.natAbs : Int) = n.val := by omega
      have hwide := wideInteger_toDigits false n.val.natAbs hr
      obtain ⟨d, ds, hds, hd⟩ := Text.exists_toDigits n.val.natAbs
      have hminus : d ≠ '-' := by
        rintro rfl
        cases hd
      rw [hds] at hwide
      rw [hdecimal, hds, List.cons_append, value_cons (not_blank_of_numeral (.inr hd)),
        if_neg (fun h => hminus h.1), if_neg hminus, ← List.cons_append, hwide]
      simp only [Read.andThen, Bool.false_eq_true, if_false, hval, IntKind.ofInt?_val]

/-! ## Texts and names -/

theorem text_str (s : String) (rest : List Char) :
    (Json.str s).text ++ rest = '"' :: (s.toList.flatMap Json.escapedChar ++ '"' :: rest) := by
  rw [Json.text, Json.stringText]
  simp

/-- A text is read back from its quoted form, escapes included. -/
theorem reads_textFor (expected : Expected) (s : String) :
    Reads (textFor expected) (Json.str s).text s := by
  intro rest _
  rw [text_str, textFor, value_cons rfl, if_pos rfl, string_escaped]

theorem indexOf?_get : ∀ {names : List String} (_ : names.Nodup) (i : Fin names.length),
    Labels.indexOf? (names.get i) names = some i
  | _ :: _, _, ⟨0, _⟩ => if_pos rfl
  | n :: rest, h, ⟨i + 1, hi⟩ => by
    obtain ⟨hn, hrest⟩ := List.nodup_cons.1 h
    have hlt : i < rest.length := Nat.lt_of_succ_lt_succ hi
    have hne : n ≠ rest.get ⟨i, hlt⟩ := by
      intro heq
      exact hn (heq ▸ List.get_mem rest _)
    have htail := indexOf?_get hrest ⟨i, hlt⟩
    simp only [List.get_eq_getElem, List.getElem_cons_succ] at hne htail ⊢
    rw [Labels.indexOf?, if_neg hne, htail]
    rfl

/-- Where no name occurs twice, a name is found at its own place. -/
theorem variantIndex_get {names : List String} (h : names.Nodup) (i : Fin names.length) :
    variantIndex names (names.get i) = .ok i := by
  rw [variantIndex, indexOf?_get h i]

theorem indexOf?_of_not_mem {name : String} {names : List String} (h : name ∉ names) :
    Labels.indexOf? name names = none := by
  induction names with
  | nil => rfl
  | cons n rest ih =>
    obtain ⟨hn, hrest⟩ := not_or.1 (mt List.mem_cons.2 h)
    rw [Labels.indexOf?, if_neg (Ne.symm hn), ih hrest]
    rfl

theorem variantIndex_of_not_mem {name : String} {names : List String} (h : name ∉ names) :
    variantIndex names name = .error (.unknownVariant name names) := by
  rw [variantIndex, indexOf?_of_not_mem h]

/-- A variant without data is read back from its name alone. -/
theorem reads_bareVariant {α : Type} {names : List String} (h : names.Nodup)
    (i : Fin names.length) {bare : Fin names.length → Except Problem α} {a : α}
    (ha : bare i = .ok a) (carried : Fin names.length → Nat → List Char → Read α) (depth : Nat) :
    Reads (variant names bare carried depth) (Json.str (names.get i)).text a := by
  intro rest _
  rw [text_str, variant, value_cons rfl, if_pos rfl, string_escaped]
  simp only [Read.check, variantIndex_get h, Read.settle, ha]

theorem single?_singleton (c : Char) : Text.single? (String.singleton c) = some c := by
  simp [Text.single?]

theorem toChar_singleton (c : Char) : Text.toChar (String.singleton c) = .ok c := by
  rw [Text.toChar, single?_singleton]

/-! ## Null -/

theorem reads_unit : Reads unit Json.null.text () := by
  intro rest _
  rfl

theorem reads_none {α : Type} (read : List Char → Read α) :
    Reads (option read) Json.null.text none := by
  intro rest _
  rfl

/-- An optional value is read back unless its JSON form is null. -/
theorem reads_some {α : Type} {read : List Char → Read α} {j : Json} {a : α} (hj : j ≠ .null)
    (h : Reads read j.text a) : Reads (option read) j.text (some a) := by
  intro rest hr
  have hskip := j.skipBlanks_text rest
  have hread := h rest hr
  obtain ⟨c, tail, htext, hc⟩ := j.text_head
  have hn := hc.ne_n hj
  rw [htext, List.cons_append] at hskip hread ⊢
  rw [option, hskip]
  split
  · next heq =>
    cases heq
    exact absurd rfl hn
  · rw [hread]
    rfl

end Token

/-! ## Scalars -/

namespace Scalar

/-- Every scalar is read back from its JSON form. -/
theorem reads_toJson (s : Scalar) (v : s.Val) (depth : Nat) :
    Reads (s.read depth) (s.toJson v).text v := by
  cases s with
  | bool =>
    intro rest _
    cases v <;> rfl
  | int k => exact Token.reads_integer k v
  | char =>
    intro rest hr
    have htext := Token.reads_textFor .character (String.singleton v) rest hr
    have hchar : Text.toChar (String.singleton v) = .ok v := Token.toChar_singleton v
    simp only [Scalar.read, Scalar.toJson, Token.char, htext, Read.check, hchar]
    rfl
  | text => exact Token.reads_textFor .text v
  | label l => exact Token.reads_bareVariant l.distinct v rfl _ depth

theorem toJson_ne_null (s : Scalar) (v : s.Val) : s.toJson v ≠ .null := by
  cases s <;> nofun

theorem not_control_of_isNumeral {c : Char} (h : Layout.isNumeral c = true) : ¬ c.toNat < 32 := by
  simp only [Layout.isNumeral, Bool.or_eq_true, beq_iff_eq] at h
  rcases h with (((h | rfl) | rfl) | rfl) | rfl
  · simp only [Char.isDigit, Bool.and_eq_true, decide_eq_true_eq] at h
    have hzero := UInt32.le_iff_toNat_le.1 h.1
    exact Nat.not_lt.2 (Nat.le_trans (by decide) hzero)
  · decide
  · decide
  · decide
  · decide

theorem escapedChar_of_isNumeral {c : Char} (h : Layout.isNumeral c = true) :
    Json.escapedChar c = [c] := by
  unfold Json.escapedChar
  -- every character that has an escape of its own is no number character
  split
  · cases h
  · cases h
  · cases h
  · cases h
  · cases h
  · cases h
  · cases h
  · rw [if_neg (not_control_of_isNumeral h)]

/-- A number has no character that would be escaped, so as a key it is its own text. -/
theorem escaped_numeral {cs : List Char} (h : ∀ c ∈ cs, Layout.isNumeral c = true) :
    cs.flatMap Json.escapedChar = cs := by
  induction cs with
  | nil => rfl
  | cons c cs ih =>
    rw [List.flatMap_cons, escapedChar_of_isNumeral (h c List.mem_cons_self),
      ih fun d hd => h d (List.mem_cons_of_mem _ hd)]
    rfl

/-- Every scalar is read back from its text as a key. -/
theorem readsKey_toKey (s : Scalar) (v : s.Val) : ReadsKey s.readKey (s.toKey v) v := by
  intro rest
  cases s with
  | bool => cases v <;> rfl
  | int k =>
    obtain ⟨c, tail, htext, hc⟩ := Json.decimal_head v.val
    have hread := Token.reads_integer k v ('"' :: rest) (Token.ends_cons _ (by decide))
    have hstart : Text.startsWithDigit (Text.decimal v.val ++ '"' :: rest) = true ∨
        (Text.decimal v.val ++ '"' :: rest).head? = some '-' := by
      rw [htext]
      rcases hc with rfl | hc
      · exact .inr rfl
      · exact .inl hc
    simp only [readKey, toKey, String.toList_ofList]
    rw [escaped_numeral (Json.isNumeral_decimal v.val), Token.integerKey, if_pos hstart, hread]
    rfl
  | char =>
    have hstring := Token.string_escaped (String.singleton v) rest
    have hchar : Text.toChar (String.singleton v) = .ok v := Token.toChar_singleton v
    simp only [readKey, toKey, hstring, Read.check, hchar]
  | text => exact Token.string_escaped v rest
  | label l =>
    have hstring := Token.string_escaped (l.names.get v) rest
    simp only [readKey, toKey, hstring, Read.check, Token.variantIndex_get l.distinct v]
    rfl

end Scalar

/-! ## Leaves -/

namespace Leaf

/-- The float a leaf is, if it is one. -/
def floats : (l : Leaf) → l.Val → List AnyBinary
  | .scalar _, _ => []
  | .float p, x => [⟨p, x⟩]

/-- Only a float that is not found again may have null for its JSON form. -/
theorem toJson_ne_null (l : Leaf) (v : l.Val) (h : ∀ x ∈ l.floats v, x.2.ReadsBack) :
    l.toJson v ≠ .null := by
  cases l with
  | scalar s => exact s.toJson_ne_null v
  | float p =>
    have hv := h ⟨p, v⟩ List.mem_cons_self
    cases v with
    | finite x => nofun
    | infinite negative => exact hv.elim
    | nan => exact hv.elim

/-- A leaf is read back from its JSON form, if a float of it is found again. -/
theorem reads_toJson (l : Leaf) (v : l.Val) (depth : Nat) (h : ∀ x ∈ l.floats v, x.2.ReadsBack) :
    Reads (l.read depth) (l.toJson v).text v := by
  cases l with
  | scalar s => exact s.reads_toJson v depth
  | float p =>
    have hv := h ⟨p, v⟩ List.mem_cons_self
    cases v with
    | finite x => exact Token.reads_float hv
    | infinite negative => exact hv.elim
    | nan => exact hv.elim

theorem depth_toJson (l : Leaf) (v : l.Val) : (l.toJson v).depth = 0 := by
  cases l with
  | scalar s => cases s <;> rfl
  | float p => cases v <;> rfl

/-! ## Leaves without a declared type -/

/-- A reader with no declared type finds the values of the type: integers have 64 bits and floats are
double. -/
def isDynamic : Leaf → Bool
  | .scalar (.int k) => !k.isWide
  | .float .single => false
  | _ => true

theorem canonical_toJson {l : Leaf} (h : l.isDynamic = true) (v : l.Val) :
    (l.toJson v).Canonical := by
  cases l with
  | scalar s =>
    cases s with
    | int k => exact IntKind.fitsWord (by simpa [isDynamic] using h) v
    | bool => exact trivial
    | char => exact trivial
    | text => exact trivial
    | label l => exact trivial
  | float p =>
    cases p with
    | single => cases h
    | double => cases v <;> exact trivial

theorem readsBack_toJson {l : Leaf} (h : l.isDynamic = true) {v : l.Val}
    (hx : ∀ x ∈ l.floats v, x.2.ReadsBack) : ∀ n ∈ (l.toJson v).numbers, n.ReadsBack := by
  intro n hn
  refine ⟨Json.isDynamic_of_canonical _ (canonical_toJson h v) n hn, fun x hxn => hx x ?_⟩
  cases l with
  | scalar s =>
    cases s with
    | int k =>
      obtain rfl := List.mem_singleton.1 hn
      cases hxn
    | bool => cases hn
    | char => cases hn
    | text => cases hn
    | label l => cases hn
  | float p =>
    cases v with
    | finite y =>
      obtain rfl := List.mem_singleton.1 hn
      cases p <;> exact hxn
    | infinite negative => cases hn
    | nan => cases hn

end Leaf

end SchemaStore
