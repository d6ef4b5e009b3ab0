import SchemaStore.Proofs.Json.Float
import SchemaStore.Proofs.Json.Skip

/-!
# Skipping what was written

The text of every tree can be skipped (`Skip.value_text`), also where it could not be read again: for
its numbers it is enough that they are written by the grammar, whatever they are. A float is written
without superfluous zeros, since its shortest decimal starts with another digit.
-/

namespace SchemaStore

namespace Skip

open Token (Ends)

/-! ## Numbers -/

section Number

variable {rest : List Char}

theorem exponentPart?_ends (h : Ends rest) : exponentPart? rest = .ok rest := by
  cases rest with
  | nil => rfl
  | cons c rest =>
    rw [exponentPart?, if_neg]
    simp [(h c rfl).2.2]

theorem afterWhole_ends (h : Ends rest) : afterWhole rest = .ok rest := by
  unfold afterWhole
  split
  · exact absurd rfl (h '.' rfl).2.1
  · exact exponentPart?_ends h

theorem exponentPart?_digits {c sign : Char} {ds : List Char} (hsign : sign = '+' ∨ sign = '-')
    (hds : ∀ d ∈ c :: ds, d.isDigit = true) (h : Ends rest) :
    exponentPart? ('e' :: sign :: (c :: ds ++ rest)) = .ok rest := by
  have hstart : Text.startsWithDigit (c :: ds ++ rest) = true := hds c List.mem_cons_self
  have hspan := Text.spanDigits_digits hds h.startsWithDigit
  rw [exponentPart?, if_pos (by decide)]
  rcases hsign with rfl | rfl
  · simp only [exponentPart, hstart, hspan, if_true]
  · simp only [exponentPart, hstart, hspan, if_true]

theorem afterWhole_fraction {c : Char} {ds tail : List Char}
    (hds : ∀ d ∈ c :: ds, d.isDigit = true) (htail : Text.startsWithDigit tail = false) :
    afterWhole ('.' :: (c :: ds ++ tail)) = exponentPart? tail := by
  have hstart : Text.startsWithDigit (c :: ds ++ tail) = true := hds c List.mem_cons_self
  rw [afterWhole, if_pos hstart, Text.spanDigits_digits hds htail]

/-- The digits before the point, of which a zero stands alone. -/
theorem number_whole {c : Char} {ds tail : List Char} (hds : ∀ d ∈ c :: ds, d.isDigit = true)
    (hzero : c = '0' → ds = []) (htail : Text.startsWithDigit tail = false) :
    number (c :: ds ++ tail) = afterWhole tail := by
  by_cases hc : c = '0'
  · obtain rfl := hzero hc
    subst hc
    rw [List.singleton_append, number, htail]
    rfl
  · have hstart : Text.startsWithDigit (c :: ds ++ tail) = true := hds c List.mem_cons_self
    unfold number
    split
    · next heq =>
      cases heq
      exact absurd rfl hc
    · rw [if_pos hstart, Text.spanDigits_digits hds htail]

/-- Digits before a point and after it. -/
theorem number_fraction {c d : Char} {ds es tail : List Char} (hds : ∀ x ∈ c :: ds, x.isDigit = true)
    (hzero : c = '0' → ds = []) (hes : ∀ x ∈ d :: es, x.isDigit = true)
    (htail : Text.startsWithDigit tail = false) :
    number (c :: ds ++ '.' :: (d :: es ++ tail)) = exponentPart? tail := by
  have hpoint : Text.startsWithDigit ('.' :: (d :: es ++ tail)) = false := rfl
  rw [number_whole hds hzero hpoint, afterWhole_fraction hes htail]

theorem number_fraction_ends {c d : Char} {ds es : List Char} (hds : ∀ x ∈ c :: ds, x.isDigit = true)
    (hzero : c = '0' → ds = []) (hes : ∀ x ∈ d :: es, x.isDigit = true) (h : Ends rest) :
    number (c :: ds ++ '.' :: (d :: es ++ rest)) = .ok rest :=
  (number_fraction hds hzero hes h.startsWithDigit).trans (exponentPart?_ends h)

end Number

/-! ## Floats -/

section Layout

variable {c : Char} {ds rest : List Char} (hds : ∀ d ∈ c :: ds, d.isDigit = true)

include hds in
theorem number_positionalText (l : Layout) {lead : Int}
    (hzero : c = '0' → ds = [] ∧ lead ≤ 0) (h : Ends rest) :
    number (l.positionalText (c :: ds) lead ++ rest) = .ok rest := by
  obtain ⟨w, ws, fraction, htext, hws, halone, -, hfraction⟩ :=
    l.splitsAtPoint_positionalText hds hzero
  rw [htext, List.append_assoc]
  rcases hfraction with ⟨rfl, -⟩ | ⟨d, es, rfl, hes, -⟩
  · rw [List.nil_append, number_whole hws halone h.startsWithDigit]
    exact afterWhole_ends h
  · exact number_fraction_ends hws halone hes h

include hds in
theorem number_scientificText (lead : Int) (h : Ends rest) :
    number (Layout.scientificText (c :: ds) lead ++ rest) = .ok rest := by
  obtain ⟨e, es, hexponent, -⟩ := Text.exists_toDigits lead.natAbs
  have hes := Text.isDigit_of_toDigits_eq hexponent
  have hsign : (if lead < 0 then '-' else '+') = '+' ∨ (if lead < 0 then '-' else '+') = '-' := by
    split
    · exact .inr rfl
    · exact .inl rfl
  have hpart := exponentPart?_digits hsign hes h
  have hmark : Text.startsWithDigit ('e' :: (if lead < 0 then '-' else '+') :: (e :: es ++ rest)) =
      false := rfl
  unfold Layout.scientificText
  rw [hexponent]
  cases ds with
  | nil =>
    have hwhole := number_whole hds (fun _ => rfl) hmark
    rw [List.append_assoc]
    exact hwhole.trans hpart
  | cons d ds =>
    have hfirst : ∀ x ∈ [c], x.isDigit = true := by simpa using hds c List.mem_cons_self
    have hlater : ∀ x ∈ d :: ds, x.isDigit = true := fun x hx => hds x (List.mem_cons_of_mem _ hx)
    have hnumber := number_fraction hfirst (fun _ => rfl) hlater hmark
    rw [List.append_assoc]
    exact hnumber.trans hpart

end Layout

section Text

variable {rest : List Char}

theorem number_magnitudeText (l : Layout) {p : Precision} (x : FiniteBinary p) (h : Ends rest) :
    number (l.magnitudeText x ++ rest) = .ok rest := by
  obtain ⟨c, ds, lead, hds, ⟨hzero, htext⟩ | ⟨-, htext⟩⟩ := l.magnitudeText_cases x
  · rw [htext]
    exact number_positionalText hds l hzero h
  · rw [htext]
    exact number_scientificText hds lead h

theorem number_toDigits_append (n : Nat) (h : Text.startsWithDigit rest = false) :
    number (Nat.toDigits 10 n ++ rest) = afterWhole rest := by
  by_cases hn : 0 < n
  · obtain ⟨c, ds, hds, -, hc⟩ := Text.exists_toDigits_eq_cons hn
    have hall := Text.isDigit_of_toDigits_eq hds
    rw [hds, number_whole hall (fun h0 => absurd h0 hc) h]
  · obtain rfl : n = 0 := by omega
    exact @number_whole '0' [] rest (by simp) (fun _ => rfl) h

theorem number_toDigits (n : Nat) (h : Ends rest) : number (Nat.toDigits 10 n ++ rest) = .ok rest :=
  (number_toDigits_append n h.startsWithDigit).trans (afterWhole_ends h)

/-- A number is written as a sign, if it has one, and a text that is skipped as a number. -/
theorem exists_unsigned (n : Number) : ∃ c body, c.isDigit = true ∧
    (n.text = c :: body ∨ n.text = '-' :: c :: body) ∧
    ∀ rest, Ends rest → number (c :: body ++ rest) = .ok rest := by
  have hfloat : ∀ (l : Layout) {p : Precision} (x : FiniteBinary p), ∃ c body, c.isDigit = true ∧
      (l.text x = c :: body ∨ l.text x = '-' :: c :: body) ∧
      ∀ rest, Ends rest → number (c :: body ++ rest) = .ok rest := by
    intro l p x
    obtain ⟨c, body, hbody, hc⟩ := l.magnitudeText_head x
    refine ⟨c, body, hc, ?_, fun rest h => hbody ▸ number_magnitudeText l x h⟩
    rw [l.text_eq, hbody]
    cases x.negative <;> simp
  cases n with
  | single x => exact hfloat _ x
  | double x => exact hfloat _ x
  | int i =>
    obtain ⟨c, body, hbody, hc⟩ := Text.exists_toDigits i.natAbs
    refine ⟨c, body, hc, ?_, fun rest h => hbody ▸ number_toDigits _ h⟩
    rw [Number.text, Text.decimal, hbody]
    split
    · exact .inr rfl
    · exact .inl rfl

end Text

/-! ## Values -/

section Start

variable {cs rest : List Char}

theorem start_digit {c : Char} {tail : List Char} (hc : c.isDigit = true)
    (hcs : Text.skipBlanks cs = c :: tail) (h : number (c :: tail) = .ok rest) :
    start cs = .ok (none, rest) := by
  refine start_plain ?_ h
  unfold start
  dsimp only
  rw [hcs]
  -- no other first character is a digit
  split
  case h_9 =>
    next heq =>
    cases heq
    rw [if_pos hc]
  all_goals
    next heq => cases heq <;> cases hc

theorem start_number {n : Number} (hcs : Text.skipBlanks cs = n.text ++ rest) (h : Ends rest) :
    start cs = .ok (none, rest) := by
  obtain ⟨c, body, hc, htext, hnumber⟩ := exists_unsigned n
  rcases htext with htext | htext
  · rw [htext] at hcs
    exact start_digit hc hcs (hnumber rest h)
  · rw [htext] at hcs
    exact start_plain (by rw [start, hcs]; rfl) (hnumber rest h)

theorem start_string {s : String} (hcs : Text.skipBlanks cs = Json.stringText s.toList ++ rest) :
    start cs = .ok (none, rest) := by
  have hbody := stringBody_of_token (Token.stringBody_flatMap s.toList rest)
  refine start_plain ?_ hbody
  rw [start, hcs]
  simp [Json.stringText]

end Start

/-! ## Trees -/

mutual

/-- The text of a tree is passed as one value. -/
theorem moves_text : ∀ (j : Json) {cs rest : List Char}, Text.skipBlanks cs = j.text ++ rest →
    Ends rest → ∀ stack, Moves .value stack cs .element stack rest
  | .null, _, _, hcs, _, stack => moves_plain (start_plain (by rw [start, hcs]; rfl) rfl) stack
  | .bool true, _, _, hcs, _, stack => moves_plain (start_plain (by rw [start, hcs]; rfl) rfl) stack
  | .bool false, _, _, hcs, _, stack => moves_plain (start_plain (by rw [start, hcs]; rfl) rfl) stack
  | .num _, _, _, hcs, h, stack => moves_plain (start_number hcs h) stack
  | .str _, _, _, hcs, _, stack => moves_plain (start_string hcs) stack
  | .arr js, cs, rest, hcs, _, stack => by
    rw [Json.text_arr] at hcs
    have hopen : start cs = .ok (some .list, Json.listText true js ++ rest) := by
      rw [start, hcs]
      rfl
    exact (moves_open hopen stack).trans (moves_listText js true rest stack)
  | .obj fs, cs, rest, hcs, _, stack => by
    rw [Json.text_obj] at hcs
    have hopen : start cs = .ok (some .object, Json.objectText true fs ++ rest) := by
      rw [start, hcs]
      rfl
    exact (moves_open hopen stack).trans (moves_objectText fs true rest stack)

/-- The items of an array are passed, with the bracket that closes it. -/
theorem moves_listText : ∀ (js : List Json) (first : Bool) (rest : List Char) (stack : List Bracket),
    Moves (.before first) (.list :: stack) (Json.listText first js ++ rest) .element stack rest
  | [], first, rest, stack => moves_close (b := .list) (by cases first <;> nofun) (by cases first <;> rfl)
  | j :: js, first, rest, stack => by
    obtain ⟨mid, hmid, hmoves⟩ := moves_nextItem (Container.nextItem_listText first j js rest) stack
    have hitem := moves_text j hmid (Json.ends_listText js rest) (.list :: stack)
    exact (hmoves.trans hitem).trans (moves_listText js false rest stack)

/-- The fields of an object are passed, with the brace that closes it. -/
theorem moves_objectText : ∀ (fs : List (String × Json)) (first : Bool) (rest : List Char)
    (stack : List Bracket),
    Moves (.before first) (.object :: stack) (Json.objectText first fs ++ rest) .element stack rest
  | [], first, rest, stack => moves_close (b := .object) (by cases first <;> nofun) (by cases first <;> rfl)
  | (name, j) :: fs, first, rest, stack => by
    have hnext := Container.nextKey_objectText first (name, j) fs rest
    rw [Container.fieldText, List.append_assoc] at hnext
    have hkey := moves_nextKey hnext (Token.string_escaped name _) (Container.colon_cons _) stack
    have hvalue := moves_text j (j.skipBlanks_text _) (Json.ends_objectText fs rest) (.object :: stack)
    exact (hkey.trans hvalue).trans (moves_objectText fs false rest stack)

end

/-- The text of a tree is skipped, with what can follow a number after it. -/
theorem value_text (j : Json) {rest : List Char} (h : Ends rest) : value (j.text ++ rest) = .ok rest :=
  value_of_moves (moves_text j (j.skipBlanks_text rest) h [])

end Skip

end SchemaStore
