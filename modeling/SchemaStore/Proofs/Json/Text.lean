import SchemaStore.Proofs.Json.Float

/-!
# The characters of a JSON text

The first character of a text says which sort of tree it spells (`Json.text_head`), and it is never
a blank. The last one is no blank either, so only a string, which may be written without its quotes,
can look padded (`Json.not_padded`). `listText` and `objectText` are the texts of a container after
its opening bracket, from the first or from a later member on.
-/

namespace SchemaStore.Json

/-! ## The first character -/

/-- A character that the text of a tree may start with. -/
def Starts : Json → Char → Prop
  | .null, c => c = 'n'
  | .bool b, c => c = cond b 't' 'f'
  | .num _, c => c = '-' ∨ c.isDigit = true
  | .str _, c => c = '"'
  | .arr _, c => c = '['
  | .obj _, c => c = '\x7b'

theorem decimal_head (n : Int) :
    ∃ c tail, Text.decimal n = c :: tail ∧ (c = '-' ∨ c.isDigit = true) := by
  unfold Text.decimal
  split
  · exact ⟨'-', _, rfl, .inl rfl⟩
  · obtain ⟨d, ds, hds, hd⟩ := Text.exists_toDigits n.natAbs
    exact ⟨d, ds, hds, .inr hd⟩

/-- Every text has a first character, and it tells the sort of the tree. -/
theorem text_head (j : Json) : ∃ c tail, j.text = c :: tail ∧ j.Starts c := by
  cases j with
  | null => exact ⟨'n', _, rfl, rfl⟩
  | bool b =>
    cases b with
    | true => exact ⟨'t', _, rfl, rfl⟩
    | false => exact ⟨'f', _, rfl, rfl⟩
  | num n =>
    cases n with
    | int n => exact decimal_head n
    | single x => exact Layout.text_head .jsonSingle x
    | double x => exact Layout.text_head .jsonDouble x
  | str s => exact ⟨'"', _, rfl, rfl⟩
  | arr js =>
    cases js with
    | nil => exact ⟨'[', _, rfl, rfl⟩
    | cons j js => exact ⟨'[', _, rfl, rfl⟩
  | obj fs =>
    cases fs with
    | nil => exact ⟨'\x7b', _, rfl, rfl⟩
    | cons f fs => exact ⟨'\x7b', _, rfl, rfl⟩

/-- A number is told from all other trees by its first character, which closes no container
either. -/
theorem digit_mark {c : Char} (h : c = '-' ∨ c.isDigit = true) :
    c ≠ 'n' ∧ c ≠ '"' ∧ c ≠ '[' ∧ c ≠ '\x7b' ∧ c ≠ ']' ∧ c ≠ '\x7d' := by
  refine ⟨?_, ?_, ?_, ?_, ?_, ?_⟩ <;>
    (rintro rfl; rcases h with h | h <;> cases h)

theorem Starts.not_blank {j : Json} {c : Char} (h : j.Starts c) : Text.isJsonBlank c = false := by
  cases j with
  | null => cases h; rfl
  | bool b => cases b <;> (cases h; rfl)
  | num n => exact Token.not_blank_of_numeral h
  | str s => cases h; rfl
  | arr js => cases h; rfl
  | obj fs => cases h; rfl

/-- A member of a container is not taken for the end of the container. -/
theorem Starts.ne_close {j : Json} {c : Char} (h : j.Starts c) : c ≠ ']' ∧ c ≠ '\x7d' := by
  cases j with
  | null => cases h; decide
  | bool b => cases b <;> (cases h; decide)
  | num n => exact (digit_mark h).2.2.2.2
  | str s => cases h; decide
  | arr js => cases h; decide
  | obj fs => cases h; decide

/-- Only `null` starts with its letter, so one character decides whether a value is absent. -/
theorem Starts.ne_n {j : Json} {c : Char} (h : j.Starts c) (hj : j ≠ .null) : c ≠ 'n' := by
  cases j with
  | null => exact absurd rfl hj
  | bool b => cases b <;> (cases h; decide)
  | num n => exact (digit_mark h).1
  | str s => cases h; decide
  | arr js => cases h; decide
  | obj fs => cases h; decide

theorem Starts.ne_quote {j : Json} {c : Char} (h : j.Starts c) (hj : ∀ s, j ≠ .str s) :
    c ≠ '"' := by
  cases j with
  | null => cases h; decide
  | bool b => cases b <;> (cases h; decide)
  | num n => exact (digit_mark h).2.1
  | str s => exact absurd rfl (hj s)
  | arr js => cases h; decide
  | obj fs => cases h; decide

/-- No blank stands before the text of a tree. -/
theorem skipBlanks_text (j : Json) (rest : List Char) :
    Text.skipBlanks (j.text ++ rest) = j.text ++ rest := by
  obtain ⟨c, tail, htext, hc⟩ := j.text_head
  rw [htext, List.cons_append, Token.skipBlanks_cons hc.not_blank]

/-! ## The text of a container after its bracket -/

/-- The text of an array from an item on, which stands first or after a comma. -/
def listText (first : Bool) : List Json → List Char
  | [] => [']']
  | j :: rest => (if first then j.text else ',' :: j.text) ++ textItems rest

/-- The text of an object from a field on, which stands first or after a comma. -/
def objectText (first : Bool) : List (String × Json) → List Char
  | [] => ['\x7d']
  | (name, j) :: rest =>
    (if first then [] else [',']) ++ stringText name.toList ++ ':' :: j.text ++ textFields rest

theorem listText_false : ∀ js : List Json, listText false js = textItems js
  | [] => by rw [listText, textItems]
  | j :: rest => by rw [listText, textItems]; rfl

theorem objectText_false : ∀ fs : List (String × Json), objectText false fs = textFields fs
  | [] => by rw [objectText, textFields]
  | (name, j) :: rest => by rw [objectText, textFields]; rfl

/-- Only the comma before an item depends on where the item stands. -/
theorem listText_cons (first : Bool) (j : Json) (js : List Json) :
    listText first (j :: js) = (if first then j.text else ',' :: j.text) ++ listText false js := by
  rw [listText, listText_false]

theorem objectText_cons (first : Bool) (name : String) (j : Json) (fs : List (String × Json)) :
    objectText first ((name, j) :: fs) = (if first then [] else [',']) ++ stringText name.toList ++
      ':' :: j.text ++ objectText false fs := by
  rw [objectText, objectText_false]

theorem text_arr : ∀ js : List Json, (Json.arr js).text = '[' :: listText true js
  | [] => by rw [text, listText]
  | j :: rest => by rw [text, listText]; rfl

theorem text_obj : ∀ fs : List (String × Json), (Json.obj fs).text = '\x7b' :: objectText true fs
  | [] => by rw [text, objectText]
  | (name, j) :: rest => by rw [text, objectText]; rfl

/-- A text has more characters than items, so its length bounds the steps of the loop over them. -/
theorem length_lt_listText (first : Bool) (js : List Json) :
    js.length < (listText first js).length := by
  induction js generalizing first with
  | nil => simp [listText]
  | cons j js ih =>
    have htail := ih false
    obtain ⟨c, tail, htext, -⟩ := j.text_head
    rw [listText_cons, List.length_append, htext]
    cases first <;> simp only [Bool.false_eq_true, if_false, if_true, List.length_cons] <;> omega

theorem length_lt_objectText (first : Bool) (fs : List (String × Json)) :
    fs.length < (objectText first fs).length := by
  induction fs generalizing first with
  | nil => simp [objectText]
  | cons f fs ih =>
    obtain ⟨name, j⟩ := f
    have htail := ih false
    rw [objectText_cons]
    simp only [List.length_append, List.length_cons]
    omega

/-- After an item or a field stands a comma or a closing bracket, so a number ends there. -/
theorem ends_listText (js : List Json) (rest : List Char) :
    Token.Ends (listText false js ++ rest) := by
  cases js with
  | nil => exact Token.ends_cons _ (by decide)
  | cons j js => exact Token.ends_cons _ (by decide)

theorem ends_objectText (fs : List (String × Json)) (rest : List Char) :
    Token.Ends (objectText false fs ++ rest) := by
  cases fs with
  | nil => exact Token.ends_cons _ (by decide)
  | cons f fs => exact Token.ends_cons _ (by decide)

/-! ## The last character -/

theorem getLast?_textItems : ∀ js : List Json, (textItems js).getLast? = some ']'
  | [] => by rw [textItems]; rfl
  | j :: rest => by rw [textItems, List.getLast?_append, getLast?_textItems rest]; rfl

theorem getLast?_textFields : ∀ fs : List (String × Json), (textFields fs).getLast? = some '\x7d'
  | [] => by rw [textFields]; rfl
  | (name, j) :: rest => by rw [textFields, List.getLast?_append, getLast?_textFields rest]; rfl

theorem getLast?_arr : ∀ js : List Json, (Json.arr js).text.getLast? = some ']'
  | [] => by rw [text]; rfl
  | j :: rest => by rw [text, List.getLast?_append, getLast?_textItems rest]; rfl

theorem getLast?_obj : ∀ fs : List (String × Json), (Json.obj fs).text.getLast? = some '\x7d'
  | [] => by rw [text]; rfl
  | (name, j) :: rest => by rw [text, List.getLast?_append, getLast?_textFields rest]; rfl

/-- No character of a number is a blank, in the wide sense that counts for padding. -/
theorem not_blank_of_isNumeral {c : Char} (h : Layout.isNumeral c = true) :
    Text.isBlank c = false := by
  simp only [Layout.isNumeral, Bool.or_eq_true, beq_iff_eq] at h
  rcases h with (((h | rfl) | rfl) | rfl) | rfl
  · have hrange : 48 ≤ c.toNat ∧ c.toNat ≤ 57 := by
      simp only [Char.isDigit, Bool.and_eq_true, decide_eq_true_eq] at h
      exact ⟨UInt32.le_iff_toNat_le.1 h.1, UInt32.le_iff_toNat_le.1 h.2⟩
    simp only [Text.isBlank, Bool.or_eq_false_iff, Bool.and_eq_false_iff, decide_eq_false_iff_not,
      beq_eq_false_iff_ne]
    omega
  · rfl
  · rfl
  · rfl
  · rfl

theorem isNumeral_decimal (n : Int) : ∀ c ∈ Text.decimal n, Layout.isNumeral c = true := by
  have hdigits : ∀ c ∈ Nat.toDigits 10 n.natAbs, Layout.isNumeral c = true := fun c hc =>
    Layout.isNumeral_of_isDigit (Text.isDigit_of_mem_toDigits hc)
  unfold Text.decimal
  split
  · intro c hc
    rcases List.mem_cons.1 hc with rfl | hc
    · rfl
    · exact hdigits c hc
  · exact hdigits

/-- A number is written with digits, signs, a point and the letter of an exponent. -/
theorem isNumeral_number (n : Number) : ∀ c ∈ n.text, Layout.isNumeral c = true := by
  cases n with
  | int n => exact isNumeral_decimal n
  | single x => exact Layout.isNumeral_text .jsonSingle x
  | double x => exact Layout.isNumeral_text .jsonDouble x

theorem not_padded_of_forall {cs : List Char} (h : ∀ c ∈ cs, Text.isBlank c = false) :
    Text.isPadded cs = false := by
  have hhead : cs.head?.any Text.isBlank = false := by
    cases hc : cs.head? with
    | none => rfl
    | some c => exact h c (List.mem_of_head? hc)
  have hlast : cs.getLast?.any Text.isBlank = false := by
    cases hc : cs.getLast? with
    | none => rfl
    | some c => exact h c (List.mem_of_getLast? hc)
  rw [Text.isPadded, hhead, hlast]
  rfl

/-- Only a string can look padded, since it may stand without its quotes. -/
theorem not_padded {j : Json} (hj : ∀ s, j ≠ .str s) : Text.isPadded j.text = false := by
  cases j with
  | null => rfl
  | bool b => cases b <;> rfl
  | num n =>
    rw [text]
    exact not_padded_of_forall fun c hc => not_blank_of_isNumeral (isNumeral_number n c hc)
  | str s => exact absurd rfl (hj s)
  | arr js =>
    rw [Text.isPadded, getLast?_arr, text_arr]
    rfl
  | obj fs =>
    rw [Text.isPadded, getLast?_obj, text_obj]
    rfl

end SchemaStore.Json
