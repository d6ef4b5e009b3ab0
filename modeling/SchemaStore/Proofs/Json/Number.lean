import SchemaStore.Json.Writer
import SchemaStore.Proofs.Text.Digits
import SchemaStore.Shape.ReadLeaf

/-!
# Numbers, written and read

A number has no closing mark: its reader stops at the first character that cannot continue it.
`Token.Ends` says that a text starts with no such character, and `Token.Reads` that a reader takes
exactly a given text as long as what follows `Ends`. The number reader minds nothing of what follows
(`number_append`), it reads the digits of a 64-bit integer back (`number_toDigits`), and it makes an
integer only of a text that is digits throughout (`isDigit_of_number_int`).
-/

namespace SchemaStore.Token

/-- The characters cannot continue a number: no digit, point or exponent stands first. -/
def Ends (rest : List Char) : Prop :=
  ∀ c, rest.head? = some c → c.isDigit = false ∧ c ≠ '.' ∧ isExponentMark c = false

/-- The reader takes exactly `text`, whatever follows. -/
def Reads {α : Type} (read : List Char → Read α) (text : List Char) (a : α) : Prop :=
  ∀ rest, Ends rest → read (text ++ rest) = .ok (a, rest)

theorem ends_nil : Ends [] := by
  intro c hc
  cases hc

theorem Ends.startsWithDigit {rest : List Char} (h : Ends rest) :
    Text.startsWithDigit rest = false := by
  cases rest with
  | nil => rfl
  | cons c rest => exact (h c rfl).1

/-- A character that is no digit, point or exponent ends a number. -/
theorem ends_cons {c : Char} (rest : List Char)
    (h : c.isDigit = false ∧ c ≠ '.' ∧ isExponentMark c = false) : Ends (c :: rest) := by
  intro c' hc'
  cases hc'
  exact h

/-! ## What follows a number -/

section Append

variable {negative : Bool} {significand : Nat} {e : Int} {n : WordNumber} {cs r rest : List Char}

/-- A number of the digits that were taken does not depend on the text after them. -/
theorem wordNumber_ok (h : wordNumber negative significand cs = .ok (n, r)) :
    r = cs ∧ ∀ tail, wordNumber negative significand tail = .ok (n, tail) := by
  unfold wordNumber at h ⊢
  by_cases hfits : FitsWord (if negative then -(significand : Int) else (significand : Int)) ∧
      ¬ (negative = true ∧ significand = 0)
  · simp only [dif_pos hfits] at h ⊢
    cases h
    exact ⟨rfl, fun _ => rfl⟩
  · simp only [dif_neg hfits] at h ⊢
    cases hm : Magnitude.ofRatio? Precision.double.format ⟨significand, 1⟩ with
    | none =>
      rw [hm] at h
      cases h
    | some m =>
      rw [hm] at h
      cases h
      exact ⟨rfl, fun _ => rfl⟩

theorem wordNumber_append (h : wordNumber negative significand cs = .ok (n, r)) :
    wordNumber negative significand (cs ++ rest) = .ok (n, r ++ rest) := by
  obtain ⟨rfl, htail⟩ := wordNumber_ok h
  exact htail _

theorem scaledNumber_append (h : scaledNumber negative significand e cs = .ok (n, r)) :
    scaledNumber negative significand e (cs ++ rest) = .ok (n, r ++ rest) := by
  unfold scaledNumber at h ⊢
  split at h
  · cases h
    rfl
  · cases h

theorem exponentDigits_append (hr : Ends rest) {down : Bool}
    (h : exponentDigits negative significand e down cs = .ok (n, r)) :
    exponentDigits negative significand e down (cs ++ rest) = .ok (n, r ++ rest) := by
  cases cs with
  | nil => cases h
  | cons c cs =>
    unfold exponentDigits at h ⊢
    simp only [List.isEmpty_cons, Bool.false_eq_true, if_false, List.cons_append] at h ⊢
    rw [← List.cons_append, Text.startsWithDigit_append _ hr.startsWithDigit]
    split at h
    · cases h
    · next hd =>
      rw [if_neg hd, Text.absorbDigits_append _ _ _ hr.startsWithDigit]
      dsimp only at h ⊢
      rw [Text.startsWithDigit_append _ hr.startsWithDigit]
      split at h
      · next hlong =>
        rw [if_pos hlong]
        split at h
        · cases h
        · next hzero =>
          rw [if_neg hzero, Text.spanDigits_append _ hr.startsWithDigit]
          exact scaledNumber_append h
      · next hshort =>
        rw [if_neg hshort]
        exact scaledNumber_append h

theorem exponentPart_append (hr : Ends rest)
    (h : exponentPart negative significand e cs = .ok (n, r)) :
    exponentPart negative significand e (cs ++ rest) = .ok (n, r ++ rest) := by
  cases cs with
  | nil => cases h
  | cons c cs =>
    unfold exponentPart at h
    split at h
    · next hc =>
      cases hc
      exact exponentDigits_append hr h
    · next hc =>
      cases hc
      exact exponentDigits_append hr h
    · next hplus hminus =>
      have hp : ∀ t, c :: (cs ++ rest) = '+' :: t → False := by
        intro t ht
        cases ht
        exact hplus _ rfl
      have hm : ∀ t, c :: (cs ++ rest) = '-' :: t → False := by
        intro t ht
        cases ht
        exact hminus _ rfl
      rw [List.cons_append, exponentPart]
      · exact exponentDigits_append hr h
      · exact hp
      · exact hm

/-- Whether an exponent follows is seen from one character, which the text after a number cannot
supply. -/
theorem exponentPart?_append (hr : Ends rest)
    (h : exponentPart? negative significand e cs = .ok (n, r)) :
    exponentPart? negative significand e (cs ++ rest) = .ok (n, r ++ rest) := by
  cases cs with
  | nil =>
    have hscaled : scaledNumber negative significand e ([] ++ rest) = .ok (n, r ++ rest) :=
      scaledNumber_append h
    cases rest with
    | nil => exact hscaled
    | cons c rest =>
      rw [List.nil_append, exponentPart?, (hr c rfl).2.2]
      exact hscaled
  | cons c cs =>
    rw [exponentPart?] at h
    rw [List.cons_append, exponentPart?]
    split at h
    · next hc =>
      rw [if_pos hc]
      exact exponentPart_append hr h
    · next hc =>
      rw [if_neg hc]
      exact scaledNumber_append h

theorem fractionPart_append (hr : Ends rest)
    (h : fractionPart negative significand e cs = .ok (n, r)) :
    fractionPart negative significand e (cs ++ rest) = .ok (n, r ++ rest) := by
  unfold fractionPart at h ⊢
  rw [Text.absorbDigits_append _ _ _ hr.startsWithDigit]
  dsimp only at h ⊢
  rw [Text.spanDigits_append _ hr.startsWithDigit]
  dsimp only
  split at h
  · cases h
  · next hlen =>
    have hlen' : ¬ ((Text.spanDigits (Text.absorbDigits maxWord significand cs).2).2 ++
        rest).length = (cs ++ rest).length := by
      simp only [List.length_append]
      omega
    rw [if_neg hlen', List.length_append, List.length_append, Nat.add_sub_add_right]
    exact exponentPart?_append hr h

/-- A number without a point and an exponent is a word unless digits were dropped. -/
theorem wholeNumber_append {extra : Nat}
    (h : (if extra = 0 then wordNumber negative significand cs
      else scaledNumber negative significand (extra : Int) cs) = .ok (n, r)) :
    (if extra = 0 then wordNumber negative significand (cs ++ rest)
      else scaledNumber negative significand (extra : Int) (cs ++ rest)) = .ok (n, r ++ rest) := by
  split at h
  · next hx =>
    rw [if_pos hx]
    exact wordNumber_append h
  · next hx =>
    rw [if_neg hx]
    exact scaledNumber_append h

theorem afterWhole_append (hr : Ends rest) {extra : Nat}
    (h : afterWhole negative significand extra cs = .ok (n, r)) :
    afterWhole negative significand extra (cs ++ rest) = .ok (n, r ++ rest) := by
  cases cs with
  | nil =>
    rw [afterWhole] at h
    have hend : (if extra = 0 then wordNumber negative significand rest
        else scaledNumber negative significand (extra : Int) rest) = .ok (n, r ++ rest) :=
      wholeNumber_append h
    -- what follows can be neither the point nor the mark of an exponent
    cases rest with
    | nil => exact hend
    | cons c rest =>
      obtain ⟨-, hpoint, hmark⟩ := hr c rfl
      rw [List.nil_append, afterWhole, hmark]
      · exact hend
      · exact hpoint
  | cons c cs =>
    by_cases hpoint : c = '.'
    · subst hpoint
      rw [afterWhole] at h
      rw [List.cons_append, afterWhole]
      exact fractionPart_append hr h
    · rw [afterWhole] at h
      · rw [List.cons_append, afterWhole]
        · split at h
          · next hmark =>
            rw [if_pos hmark]
            exact exponentPart_append hr h
          · next hmark =>
            rw [if_neg hmark]
            exact wholeNumber_append h
        · exact hpoint
      · exact hpoint

/-- The number reader minds nothing of what follows, as long as that cannot continue a number. -/
theorem number_append (hr : Ends rest) (h : number negative cs = .ok (n, r)) :
    number negative (cs ++ rest) = .ok (n, r ++ rest) := by
  cases cs with
  | nil => cases h
  | cons c cs =>
    by_cases hzero : c = '0'
    · subst hzero
      rw [number] at h
      rw [List.cons_append, number, Text.startsWithDigit_append _ hr.startsWithDigit]
      split at h
      · cases h
      · next hd =>
        rw [if_neg hd]
        exact afterWhole_append hr h
    · rw [number] at h
      · rw [List.cons_append, number]
        · split at h
          · next hd =>
            rw [if_pos hd, ← List.cons_append, Text.absorbDigits_append _ _ _ hr.startsWithDigit]
            dsimp only at h ⊢
            rw [Text.spanDigits_append _ hr.startsWithDigit]
            exact afterWhole_append hr h
          · cases h
        · exact hzero
      · exact hzero

end Append

/-! ## Reading an integer back -/

/-- The sign and digits of an integer of 64 bits are read as that integer. -/
theorem number_toDigits {negative : Bool} {n : Nat} {i : Int} (h : FitsWord i)
    (hi : i = if negative then -(n : Int) else (n : Int)) (hn : n ≤ maxWord)
    (hz : ¬ (negative = true ∧ n = 0)) :
    number negative (Nat.toDigits 10 n) = .ok (⟨.int i, h⟩, []) := by
  subst hi
  have hword : wordNumber negative n [] =
      .ok (⟨.int (if negative then -(n : Int) else (n : Int)), h⟩, []) := by
    unfold wordNumber
    rw [dif_pos ⟨h, hz⟩]
  by_cases hpos : 0 < n
  · obtain ⟨d, ds, hds, hdigit, hzero⟩ := Text.exists_toDigits_eq_cons hpos
    have habsorb := Text.absorbDigits_toDigits hn
    rw [hds] at habsorb ⊢
    rw [number, if_pos hdigit, habsorb]
    · exact hword
    · exact hzero
  · obtain rfl : n = 0 := by omega
    exact hword

theorem wideInteger_toDigits (negative : Bool) (n : Nat) {rest : List Char} (hr : Ends rest) :
    wideInteger negative (Nat.toDigits 10 n ++ rest) =
      .ok (if negative then -(n : Int) else (n : Int), rest) := by
  by_cases hpos : 0 < n
  · obtain ⟨d, ds, hds, hdigit, hzero⟩ := Text.exists_toDigits_eq_cons hpos
    have hspan := Text.spanDigits_append (Nat.toDigits 10 n) hr.startsWithDigit
    rw [Text.spanDigits_toDigits, hds] at hspan
    rw [hds, List.cons_append, wideInteger, if_pos hdigit]
    · dsimp only
      rw [← List.cons_append, hspan, ← hds, Text.digitsValue_toDigits]
      rfl
    · exact hzero
  · obtain rfl : n = 0 := by omega
    have hzero : Nat.toDigits 10 0 = ['0'] := rfl
    rw [hzero, List.cons_append, List.nil_append, wideInteger, hr.startsWithDigit]
    cases negative <;> rfl

/-- What is read as an integer of any size are its digits. -/
theorem eq_toDigits_of_wideInteger {negative : Bool} {cs rest : List Char} {n : Int}
    (h : wideInteger negative cs = .ok (n, rest)) :
    ∃ m : Nat, cs = Nat.toDigits 10 m ++ rest ∧ n = if negative then -(m : Int) else (m : Int) := by
  unfold wideInteger at h
  dsimp only at h
  split at h
  · cases h
  · split at h
    · cases h
    · cases h
      exact ⟨0, rfl, by simp⟩
  · next c tail hzero =>
    split at h
    · next hdigit =>
      have hvalue := congrArg Prod.fst (Except.ok.inj h)
      have hrest := congrArg Prod.snd (Except.ok.inj h)
      dsimp only at hvalue hrest
      obtain ⟨ds, hds, hcs⟩ := Text.exists_digits_cons tail hdigit
      have hspan := Text.spanDigits_digits hds (Text.startsWithDigit_rest (c :: tail))
      rw [← hcs] at hspan
      rw [hspan] at hvalue
      refine ⟨Text.digitsValue (c :: ds), ?_, hvalue.symm⟩
      rw [Text.toDigits_digitsValue hds hzero, ← hrest]
      exact hcs
    · cases h

/-! ## Integers and doubles -/

section Double

variable {negative : Bool} {significand : Nat} {e : Int} {n : WordNumber} {cs r : List Char}

theorem scaledNumber_double (h : scaledNumber negative significand e cs = .ok (n, r)) :
    ∃ x, n.1 = .double x := by
  unfold scaledNumber at h
  split at h
  · cases h
    exact ⟨_, rfl⟩
  · cases h

theorem exponentDigits_double {down : Bool}
    (h : exponentDigits negative significand e down cs = .ok (n, r)) : ∃ x, n.1 = .double x := by
  unfold exponentDigits at h
  split at h
  · cases h
  · split at h
    · cases h
    · dsimp only at h
      split at h
      · split at h
        · cases h
        · exact scaledNumber_double h
      · exact scaledNumber_double h

theorem exponentPart_double (h : exponentPart negative significand e cs = .ok (n, r)) :
    ∃ x, n.1 = .double x := by
  unfold exponentPart at h
  split at h <;> exact exponentDigits_double h

theorem exponentPart?_double (h : exponentPart? negative significand e cs = .ok (n, r)) :
    ∃ x, n.1 = .double x := by
  unfold exponentPart? at h
  split at h
  · split at h
    · exact exponentPart_double h
    · exact scaledNumber_double h
  · exact scaledNumber_double h

theorem fractionPart_double (h : fractionPart negative significand e cs = .ok (n, r)) :
    ∃ x, n.1 = .double x := by
  unfold fractionPart at h
  dsimp only at h
  split at h
  · cases h
  · exact exponentPart?_double h

/-- Past the digits an integer takes nothing. -/
theorem rest_of_afterWhole_int {extra : Nat} {i : Int} (hi : n.1 = .int i)
    (h : afterWhole negative significand extra cs = .ok (n, r)) : r = cs := by
  have notDouble : ¬ ∃ x, n.1 = .double x := by
    rintro ⟨x, hx⟩
    rw [hi] at hx
    cases hx
  unfold afterWhole at h
  split at h
  · exact absurd (fractionPart_double h) notDouble
  · split at h
    · exact absurd (exponentPart_double h) notDouble
    · split at h
      · exact (wordNumber_ok h).1
      · exact absurd (scaledNumber_double h) notDouble
  · split at h
    · exact (wordNumber_ok h).1
    · exact absurd (scaledNumber_double h) notDouble

/-- A text that is read as an integer to its end is digits throughout. -/
theorem isDigit_of_number_int {i : Int} (hi : n.1 = .int i)
    (h : number negative cs = .ok (n, [])) : ∀ c ∈ cs, c.isDigit = true := by
  unfold number at h
  split at h
  · cases h
  · split at h
    · cases h
    · have hrest := rest_of_afterWhole_int hi h
      subst hrest
      simp
  · next c tail hzero =>
    split at h
    · dsimp only at h
      have hrest := rest_of_afterWhole_int hi h
      have hspan := List.dropWhile_eq_nil_iff.1 hrest.symm
      exact Text.isDigit_of_absorbDigits hspan
    · cases h

theorem wordNumber_int {i : Int} (hi : n.1 = .int i)
    (h : wordNumber negative significand cs = .ok (n, r)) :
    FitsWord (if negative then -(significand : Int) else (significand : Int)) ∧
      ¬ (negative = true ∧ significand = 0) := by
  by_contra hfits
  unfold wordNumber at h
  simp only [dif_neg hfits] at h
  cases hm : Magnitude.ofRatio? Precision.double.format ⟨significand, 1⟩ with
  | none =>
    rw [hm] at h
    cases h
  | some m =>
    rw [hm] at h
    cases h
    cases hi

theorem afterWhole_of_ends {extra : Nat} (hcs : Ends cs) :
    afterWhole negative significand extra cs =
      if extra = 0 then wordNumber negative significand cs
      else scaledNumber negative significand extra cs := by
  cases cs with
  | nil => rfl
  | cons c cs =>
    obtain ⟨-, hpoint, hmark⟩ := hcs c rfl
    rw [afterWhole, hmark]
    · rfl
    · exact hpoint

/-- Digits are read as an integer only if it has 64 bits, and as a zero only without a sign. -/
theorem fits_of_number_toDigits {m : Nat} {i : Int} (hcs : Ends cs) (hi : n.1 = .int i)
    (h : number negative (Nat.toDigits 10 m ++ cs) = .ok (n, r)) :
    FitsWord (if negative then -(m : Int) else (m : Int)) ∧ ¬ (negative = true ∧ m = 0) := by
  by_cases hm : 0 < m
  · obtain ⟨d, ds, hds, hdigit, hzero⟩ := Text.exists_toDigits_eq_cons hm
    have habsorb := Text.absorbDigits_append maxWord 0 (d :: ds) hcs.startsWithDigit
    rw [hds, List.cons_append, number, if_pos hdigit, ← List.cons_append, habsorb] at h
    · dsimp only at h
      rw [Text.spanDigits_append _ hcs.startsWithDigit, ← hds] at h
      dsimp only at h
      have hnone : (Text.spanDigits (Text.absorbDigits maxWord 0 (Nat.toDigits 10 m)).2).2 = [] := by
        rw [Text.spanDigits_absorbDigits, Text.spanDigits_toDigits]
      rw [hnone, List.nil_append, afterWhole_of_ends hcs] at h
      by_cases hfew : m ≤ maxWord
      · rw [Text.absorbDigits_toDigits hfew] at h
        exact wordNumber_int hi h
      · -- some digits are left over, and what they are part of is a double
        have hleft : (Text.absorbDigits maxWord 0 (Nat.toDigits 10 m)).2 ≠ [] := fun hall =>
          hfew (by simpa using Text.le_of_absorbDigits (Nat.zero_le maxWord) hall)
        have hextra : ¬ (Text.spanDigits
            (Text.absorbDigits maxWord 0 (Nat.toDigits 10 m)).2).1.length = 0 := by
          intro hlength
          have happend := Text.append_spanDigits
            (Text.absorbDigits maxWord 0 (Nat.toDigits 10 m)).2
          rw [List.eq_nil_of_length_eq_zero hlength, hnone] at happend
          exact hleft happend.symm
        rw [if_neg hextra] at h
        obtain ⟨x, hx⟩ := scaledNumber_double h
        rw [hi] at hx
        cases hx
    · exact hzero
  · obtain rfl : m = 0 := by omega
    have hdigits : Nat.toDigits 10 0 = ['0'] := rfl
    rw [hdigits, List.singleton_append, number, hcs.startsWithDigit, if_neg (by decide),
      afterWhole_of_ends hcs, if_pos rfl] at h
    exact wordNumber_int hi h

end Double

/-! ## Where a number may start -/

theorem not_blank_of_numeral {c : Char} (h : c = '-' ∨ c.isDigit = true) :
    Text.isJsonBlank c = false := by
  rcases h with rfl | h
  · rfl
  · refine Bool.eq_false_iff.2 fun hb => ?_
    simp only [Text.isJsonBlank, Bool.or_eq_true, beq_iff_eq] at hb
    rcases hb with ((rfl | rfl) | rfl) | rfl <;> cases h

theorem skipBlanks_cons {c : Char} (h : Text.isJsonBlank c = false) (cs : List Char) :
    Text.skipBlanks (c :: cs) = c :: cs :=
  List.dropWhile_cons_of_neg (by simp [h])

/-- Blanks do not continue a number. -/
theorem Ends.of_skipBlanks {cs : List Char} (h : Ends (Text.skipBlanks cs)) : Ends cs := by
  cases cs with
  | nil => exact ends_nil
  | cons c cs =>
    by_cases hc : Text.isJsonBlank c = true
    · apply ends_cons
      simp only [Text.isJsonBlank, Bool.or_eq_true, beq_iff_eq] at hc
      rcases hc with ((rfl | rfl) | rfl) | rfl <;> decide
    · rwa [skipBlanks_cons (Bool.eq_false_iff.2 hc)] at h

theorem value_cons {α : Type} {c : Char} (h : Text.isJsonBlank c = false) (cs : List Char)
    (read : Char → List Char → Read α) : value (c :: cs) read = read c cs := by
  rw [value, skipBlanks_cons h]

/-- Where a number may start, the number reader is asked. -/
theorem anyNumber_cons {c : Char} (h : c = '-' ∨ c.isDigit = true) (expected : Expected)
    (cs : List Char) : anyNumber expected (c :: cs) =
      if c = '-' then number true cs else number false (c :: cs) := by
  rw [anyNumber, value_cons (not_blank_of_numeral h)]
  by_cases hc : c = '-'
  · rw [if_pos hc, if_pos hc]
  · rw [if_neg hc, if_neg hc, if_pos (h.resolve_left hc)]

theorem anyNumber_append {c : Char} (hc : c = '-' ∨ c.isDigit = true) {expected : Expected}
    {cs r rest : List Char} {n : WordNumber} (hr : Ends rest)
    (h : anyNumber expected (c :: cs) = .ok (n, r)) :
    anyNumber expected (c :: cs ++ rest) = .ok (n, r ++ rest) := by
  rw [List.cons_append, anyNumber_cons hc]
  rw [anyNumber_cons hc] at h
  split at h
  · next hm =>
    rw [if_pos hm]
    exact number_append hr h
  · next hm =>
    rw [if_neg hm, ← List.cons_append]
    exact number_append hr h

/-- An integer of 64 bits is read back wherever a number may stand. -/
theorem anyNumber_decimal {n : Int} (h : FitsWord n) (expected : Expected) :
    anyNumber expected (Text.decimal n) = .ok (⟨.int n, h⟩, []) := by
  have hrange := h
  unfold FitsWord at hrange
  unfold Text.decimal
  by_cases hneg : n < 0
  · have habs : n = -(n.natAbs : Int) := by omega
    rw [if_pos hneg, anyNumber_cons (.inl rfl), if_pos rfl]
    exact number_toDigits h habs (by unfold maxWord; omega) (by omega)
  · obtain ⟨d, ds, hds, hd⟩ := Text.exists_toDigits n.natAbs
    have habs : n = (n.natAbs : Int) := by omega
    have hminus : d ≠ '-' := by
      rintro rfl
      cases hd
    rw [if_neg hneg, hds, anyNumber_cons (.inr hd), if_neg hminus, ← hds]
    exact number_toDigits h habs (by unfold maxWord; omega) (by simp)

/-! ## Signed digits -/

/-- A sign and the digits of a number. -/
def signedDigits (negative : Bool) (n : Nat) : List Char :=
  if negative then '-' :: Nat.toDigits 10 n else Nat.toDigits 10 n

theorem signedDigits_eq {negative : Bool} {m : Nat} :
    signedDigits negative m = ['-', '0'] ↔ negative = true ∧ m = 0 := by
  constructor
  · intro h
    cases negative with
    | true =>
      have hvalue := Text.digitsValue_toDigits m
      rw [signedDigits, if_pos rfl] at h
      rw [(List.cons.inj h).2] at hvalue
      exact ⟨rfl, hvalue.symm⟩
    | false =>
      obtain ⟨d, ds, hds, hdigit⟩ := Text.exists_toDigits m
      rw [signedDigits, if_neg (by decide), hds] at h
      cases h
      cases hdigit
  · rintro ⟨rfl, rfl⟩
    rfl

theorem decimal_signed {negative : Bool} {m : Nat} (h : ¬ (negative = true ∧ m = 0)) :
    Text.decimal (if negative then -(m : Int) else (m : Int)) = signedDigits negative m := by
  unfold Text.decimal signedDigits
  cases negative with
  | true =>
    have hm : m ≠ 0 := fun hm => h ⟨rfl, hm⟩
    simp [hm]
  | false => simp

end SchemaStore.Token
