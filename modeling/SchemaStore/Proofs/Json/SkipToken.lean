import SchemaStore.Json.Skip
import SchemaStore.Proofs.Json.Nesting

/-!
# Skipping the tokens that can be read

A number and a string are skipped as far as they are read (`Skip.number_of_token`,
`Skip.stringBody_of_token`). The reader of numbers takes the digits in two runs, those that fit its
significand and the others, where skipping takes one; the reader of strings takes a surrogate pair at
once, where skipping takes two escapes. What is left after a token is always an end of the text.
-/

namespace SchemaStore

theorem Text.skipBlanks_skipBlanks (cs : List Char) : skipBlanks (skipBlanks cs) = skipBlanks cs := by
  unfold skipBlanks
  cases h : cs.dropWhile isJsonBlank with
  | nil => rfl
  | cons c rest =>
    have hc : isJsonBlank c = false := by
      have hhead := List.head?_dropWhile_not isJsonBlank cs
      rw [h] at hhead
      simpa using hhead
    exact List.dropWhile_cons_of_neg (by simp [hc])

theorem Text.skipBlanks_suffix (cs : List Char) : skipBlanks cs <:+ cs := List.dropWhile_suffix _

/-- Blanks before a document make no difference to what is read. -/
theorem Document.read_skipBlanks (depth : Nat) (cs : List Char) :
    read depth (Text.skipBlanks cs) = read depth cs := by
  rw [read.eq_def, read.eq_def]
  simp only [Text.skipBlanks_skipBlanks]

/-! ## Numbers -/

theorem Text.spanDigits_of_not_digit {cs : List Char} (h : startsWithDigit cs = false) :
    (spanDigits cs).2 = cs := by
  cases cs with
  | nil => rfl
  | cons c cs =>
    have hc : c.isDigit = false := h
    simp [spanDigits, hc]

namespace Skip

section Number

variable {negative : Bool} {significand : Nat} {e : Int} {n : WordNumber} {cs rest : List Char}

theorem rest_of_scaledNumber (h : Token.scaledNumber negative significand e cs = .ok (n, rest)) :
    rest = cs := by
  unfold Token.scaledNumber at h
  split at h
  · cases h
    rfl
  · cases h

theorem exponentDigits_ok {down : Bool}
    (h : Token.exponentDigits negative significand e down cs = .ok (n, rest)) :
    Text.startsWithDigit cs = true ∧ (Text.spanDigits cs).2 = rest := by
  unfold Token.exponentDigits at h
  split at h
  · cases h
  · split at h
    · cases h
    · next hdigit =>
      refine ⟨by simpa using hdigit, ?_⟩
      have hspan := Text.spanDigits_absorbDigits 2147483647 0 cs
      dsimp only at h
      split at h
      · split at h
        · cases h
        · rw [← hspan, rest_of_scaledNumber h]
      · next hend =>
        rw [← hspan, rest_of_scaledNumber h]
        exact Text.spanDigits_of_not_digit (Bool.eq_false_iff.2 hend)

theorem exponentPart_of_token (h : Token.exponentPart negative significand e cs = .ok (n, rest)) :
    exponentPart cs = .ok rest := by
  unfold Token.exponentPart at h
  split at h
  · obtain ⟨hdigit, hspan⟩ := exponentDigits_ok h
    simp only [exponentPart, hdigit, hspan, if_true]
  · obtain ⟨hdigit, hspan⟩ := exponentDigits_ok h
    simp only [exponentPart, hdigit, hspan, if_true]
  · next hplus hminus =>
    obtain ⟨hdigit, hspan⟩ := exponentDigits_ok h
    unfold exponentPart
    split
    · next tail => exact absurd rfl (hplus tail)
    · next tail => exact absurd rfl (hminus tail)
    · rw [if_pos hdigit, hspan]

theorem exponentPart?_of_token (h : Token.exponentPart? negative significand e cs = .ok (n, rest)) :
    exponentPart? cs = .ok rest := by
  cases cs with
  | nil =>
    rw [rest_of_scaledNumber h]
    rfl
  | cons c cs =>
    rw [Token.exponentPart?] at h
    rw [exponentPart?]
    split at h
    · next hmark =>
      rw [if_pos hmark]
      exact exponentPart_of_token h
    · next hmark => rw [if_neg hmark, rest_of_scaledNumber h]

/-- A fraction has a digit, and after its digits the exponent is left, if there is one. -/
theorem fractionPart_ok (h : Token.fractionPart negative significand e cs = .ok (n, rest)) :
    Text.startsWithDigit cs = true ∧ exponentPart? (Text.spanDigits cs).2 = .ok rest := by
  unfold Token.fractionPart at h
  dsimp only at h
  rw [Text.spanDigits_absorbDigits] at h
  split at h
  · cases h
  · next hlength =>
    refine ⟨?_, exponentPart?_of_token h⟩
    by_contra hdigit
    rw [Text.spanDigits_of_not_digit (Bool.eq_false_iff.2 hdigit)] at hlength
    exact hlength rfl

/-- What follows the whole part is skipped as far as it is read. -/
theorem afterWhole_of_token {extra : Nat}
    (h : Token.afterWhole negative significand extra cs = .ok (n, rest)) :
    afterWhole cs = .ok rest := by
  have hwhole : ∀ {cs : List Char}, (if extra = 0 then Token.wordNumber negative significand cs
      else Token.scaledNumber negative significand extra cs) = .ok (n, rest) → rest = cs := by
    intro cs h
    split at h
    · exact (Token.wordNumber_ok h).1
    · exact rest_of_scaledNumber h
  unfold Token.afterWhole at h
  split at h
  · obtain ⟨hdigit, hrest⟩ := fractionPart_ok h
    rw [afterWhole, if_pos hdigit, hrest]
  · next c cs hpoint =>
    have hafter : afterWhole (c :: cs) = exponentPart? (c :: cs) := by
      unfold afterWhole
      split
      · next heq =>
        cases heq
        exact absurd rfl hpoint
      · rfl
    rw [hafter, exponentPart?]
    split at h
    · next hmark =>
      rw [if_pos hmark]
      exact exponentPart_of_token h
    · next hmark => rw [if_neg hmark, hwhole h]
  · rw [hwhole h]
    rfl

/-- A number is skipped as far as it is read. -/
theorem number_of_token (h : Token.number negative cs = .ok (n, rest)) : number cs = .ok rest := by
  unfold Token.number at h
  split at h
  · cases h
  · split at h
    · cases h
    · next hdigit =>
      rw [number, if_neg hdigit]
      exact afterWhole_of_token h
  · next c cs hzero =>
    split at h
    · next hdigit =>
      have hstart : Text.startsWithDigit (c :: cs) = true := hdigit
      dsimp only at h
      rw [Text.spanDigits_absorbDigits] at h
      unfold number
      split
      · next heq =>
        cases heq
        exact absurd rfl hzero
      · rw [if_pos hstart]
        exact afterWhole_of_token h
    · cases h

end Number

/-! ## Strings -/

section Text

variable {cs rest tail : List Char}

theorem stringBody_drop {taken : Nat} (h : taken ≤ cs.length) :
    stringBody taken cs = stringBody 0 (cs.drop taken) := by
  induction cs generalizing taken with
  | nil =>
    obtain rfl : taken = 0 := by simpa using h
    rfl
  | cons c cs ih =>
    cases taken with
    | zero => rfl
    | succ taken => exact ih (Nat.le_of_succ_le_succ h)

/-- After an escape skipping goes on where the escape has ended. -/
theorem stringBody_of_suffix (h : tail <:+ cs) :
    stringBody (cs.length - tail.length) cs = stringBody 0 tail := by
  obtain ⟨front, rfl⟩ := h
  rw [stringBody_drop (Nat.sub_le _ _)]
  simp

theorem hexEscape_ok {n : Nat} (h : Token.hexEscape cs = .ok (n, rest)) : rest <:+ cs := by
  unfold Token.hexEscape at h
  split at h
  · cases h
  · split at h
    · cases h
      exact List.drop_suffix 4 cs
    · cases h

theorem escape_unicode {n : Nat} (h : Token.hexEscape cs = .ok (n, rest)) :
    escape ('u' :: cs) = .ok rest := by
  rw [escape, h]

theorem escape_plain {c : Char} (h : c ∈ ['"', '\\', '/', 'b', 'f', 'n', 'r', 't'])
    (rest : List Char) : escape (c :: rest) = .ok rest := by
  unfold escape
  split
  · next heq => cases heq
  · next heq =>
    cases heq
    exact absurd h (by decide)
  · next heq =>
    cases heq
    rw [if_pos h]

/-- The second half of a surrogate pair is an escape of its own. -/
theorem lowSurrogate_ok {high : Nat} {c : Char} (h : Token.lowSurrogate high cs = .ok (c, rest)) :
    rest <:+ cs ∧ stringBody 0 cs = stringBody 0 rest := by
  have hmark : ∀ {mark : Char} {cs tail : List Char}, Token.pairMark mark cs = .ok tail →
      cs = mark :: tail := by
    intro mark cs tail h
    cases cs with
    | nil => cases h
    | cons c cs =>
      rw [Token.pairMark] at h
      split at h
      · next hc =>
        cases h
        rw [hc]
      · cases h
  unfold Token.lowSurrogate at h
  split at h
  · cases h
  · next tail hslash =>
    split at h
    · cases h
    · next digits hu =>
      obtain ⟨low, mid, hlow, h⟩ := Read.andThen_ok h
      obtain rfl : mid = rest := by
        split at h
        · exact (Prod.mk.inj (Except.ok.inj h)).2
        · cases h
      obtain rfl := hmark hslash
      obtain rfl := hmark hu
      have hsuffix := hexEscape_ok hlow
      refine ⟨hsuffix.trans (List.suffix_append ['\\', 'u'] digits), ?_⟩
      rw [stringBody, if_neg (by decide), if_pos rfl, escape_unicode hlow]
      exact stringBody_of_suffix (hsuffix.trans (List.suffix_cons 'u' digits))

/-- An escape is skipped as far as it is read, but for the second half of a surrogate pair, which is
skipped as the next piece of the string. -/
theorem escape_of_token {c : Char} (h : Token.escape cs = .ok (c, rest)) :
    ∃ mid, escape cs = .ok mid ∧ mid <:+ cs ∧ rest <:+ mid ∧
      stringBody 0 mid = stringBody 0 rest := by
  unfold Token.escape at h
  split at h
  · cases h
  · next digits =>
    obtain ⟨n, mid, hmid, h⟩ := Read.andThen_ok h
    refine ⟨mid, escape_unicode hmid, (hexEscape_ok hmid).trans (List.suffix_cons 'u' digits), ?_⟩
    split at h
    · cases h
    · split at h
      · exact lowSurrogate_ok h
      · cases h
        exact ⟨List.suffix_refl _, rfl⟩
  iterate 8
    · cases h
      exact ⟨rest, escape_plain (by decide) rest, List.suffix_cons _ _, List.suffix_refl _, rfl⟩
  · cases h

/-- A string is skipped as far as it is read. -/
theorem stringBody_of_token {taken : Nat} {s : List Char}
    (h : Token.stringBody taken cs = .ok (s, rest)) : stringBody taken cs = .ok rest := by
  induction cs generalizing taken s with
  | nil => cases taken <;> cases h
  | cons c cs ih =>
    cases taken with
    | succ taken => exact ih h
    | zero =>
      rw [Token.stringBody] at h
      rw [stringBody]
      split at h
      · next hquote =>
        cases h
        rw [if_pos hquote]
      · next hquote =>
        rw [if_neg hquote]
        split at h
        · next hslash =>
          rw [if_pos hslash]
          split at h
          · cases h
          · next x tail hescape =>
            obtain ⟨t, ht, -⟩ := Read.map_ok h
            obtain ⟨mid, hmid, hsuffix, htail, hsame⟩ := escape_of_token hescape
            have hrest := ih ht
            rw [stringBody_of_suffix (htail.trans hsuffix)] at hrest
            rw [hmid]
            dsimp only
            rw [stringBody_of_suffix hsuffix, hsame, hrest]
        · next hslash =>
          rw [if_neg hslash]
          split at h
          · cases h
          · next hcontrol =>
            obtain ⟨t, ht, -⟩ := Read.map_ok h
            rw [if_neg hcontrol]
            exact ih ht

end Text

/-! ## What is left after a token -/

section Suffix

variable {cs rest : List Char}

theorem spanDigits_suffix (cs : List Char) : (Text.spanDigits cs).2 <:+ cs := List.dropWhile_suffix _

/-- An exponent has a sign or none, and digits. -/
theorem exponentPart_ok (h : exponentPart cs = .ok rest) :
    ∃ sign tail, (sign = [] ∨ sign = ['+'] ∨ sign = ['-']) ∧ cs = sign ++ tail ∧
      Text.startsWithDigit tail = true ∧ rest = (Text.spanDigits tail).2 := by
  have hdigits : ∀ {tail : List Char}, (if Text.startsWithDigit tail = true then
      (.ok (Text.spanDigits tail).2 : Except Fault (List Char))
        else .error (.next .badNumber tail)) = .ok rest →
          Text.startsWithDigit tail = true ∧ rest = (Text.spanDigits tail).2 := by
    intro tail h
    split at h
    · next hstart =>
      cases h
      exact ⟨hstart, rfl⟩
    · cases h
  unfold exponentPart at h
  dsimp only at h
  split at h
  · exact ⟨['+'], _, .inr (.inl rfl), rfl, hdigits h⟩
  · exact ⟨['-'], _, .inr (.inr rfl), rfl, hdigits h⟩
  · exact ⟨[], _, .inl rfl, rfl, hdigits h⟩

theorem exponentPart_suffix (h : exponentPart cs = .ok rest) : rest <:+ cs := by
  obtain ⟨sign, tail, -, rfl, -, rfl⟩ := exponentPart_ok h
  exact (spanDigits_suffix tail).trans (List.suffix_append sign tail)

theorem exponentPart?_suffix (h : exponentPart? cs = .ok rest) : rest <:+ cs := by
  unfold exponentPart? at h
  split at h
  · split at h
    · exact (exponentPart_suffix h).trans (List.suffix_cons _ _)
    · cases h
      exact List.suffix_refl _
  · cases h
    exact List.suffix_refl _

theorem afterWhole_suffix (h : afterWhole cs = .ok rest) : rest <:+ cs := by
  unfold afterWhole at h
  split at h
  · next tail =>
    split at h
    · have hdigits := (exponentPart?_suffix h).trans (spanDigits_suffix tail)
      exact hdigits.trans (List.suffix_cons '.' tail)
    · cases h
  · exact exponentPart?_suffix h

/-- A number takes its first digit at least. -/
theorem number_suffix {c : Char} (h : number (c :: cs) = .ok rest) : rest <:+ cs := by
  unfold number at h
  split at h
  · next heq =>
    cases heq
    split at h
    · cases h
    · exact afterWhole_suffix h
  · split at h
    · next hdigit =>
      have hc : c.isDigit = true := hdigit
      rw [Text.rest_spanDigits_cons hc] at h
      exact (afterWhole_suffix h).trans (spanDigits_suffix cs)
    · cases h

theorem number_suffix_self (h : number cs = .ok rest) : rest <:+ cs := by
  cases cs with
  | nil => cases h
  | cons c cs => exact (number_suffix h).trans (List.suffix_cons c cs)

theorem literal_suffix {letters : List Char} (h : Token.literal letters cs = .ok rest) :
    rest <:+ cs := by
  induction letters generalizing cs with
  | nil =>
    cases h
    exact List.suffix_refl _
  | cons e es ih =>
    cases cs with
    | nil => cases h
    | cons c cs =>
      rw [Token.literal] at h
      split at h
      · exact (ih h).trans (List.suffix_cons c cs)
      · cases h

theorem stringBody_suffix {taken : Nat} (h : stringBody taken cs = .ok rest) : rest <:+ cs := by
  induction cs generalizing taken with
  | nil => cases taken <;> cases h
  | cons c cs ih =>
    refine List.IsSuffix.trans ?_ (List.suffix_cons c cs)
    cases taken with
    | succ taken => exact ih h
    | zero =>
      rw [stringBody] at h
      split at h
      · cases h
        exact List.suffix_refl _
      · split at h
        · split at h
          · cases h
          · exact ih h
        · split at h
          · cases h
          · exact ih h

theorem map_plain_ok {r : Except Fault (List Char)} {o : Option Bracket}
    (h : (r.map fun rest => (none, rest)) = .ok (o, rest)) : r = .ok rest := by
  cases r with
  | error e => cases h
  | ok tail =>
    cases h
    rfl

/-- The token that starts a value takes a character at least. -/
theorem start_ok {o : Option Bracket} (h : start cs = .ok (o, rest)) :
    ∃ c tail, Text.skipBlanks cs = c :: tail ∧ rest <:+ tail := by
  unfold start at h
  dsimp only at h
  split at h
  · cases h
  · next tail hcs => exact ⟨_, tail, hcs, literal_suffix (map_plain_ok h)⟩
  · next tail hcs => exact ⟨_, tail, hcs, literal_suffix (map_plain_ok h)⟩
  · next tail hcs => exact ⟨_, tail, hcs, literal_suffix (map_plain_ok h)⟩
  · next tail hcs => exact ⟨_, tail, hcs, number_suffix_self (map_plain_ok h)⟩
  · next tail hcs => exact ⟨_, tail, hcs, stringBody_suffix (map_plain_ok h)⟩
  · next tail hcs =>
    cases h
    exact ⟨_, _, hcs, List.suffix_refl _⟩
  · next tail hcs =>
    cases h
    exact ⟨_, _, hcs, List.suffix_refl _⟩
  · next c tail _ _ _ _ _ _ _ hcs =>
    split at h
    · exact ⟨c, tail, hcs, number_suffix (map_plain_ok h)⟩
    · cases h

end Suffix

end Skip

end SchemaStore
