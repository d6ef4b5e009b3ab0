import SchemaStore.Proofs.Json.SkipText

/-!
# The literals of numbers

A number literal has a sign, digits without a superfluous zero, and then it may have a fraction and an
exponent (`Token.NumberLiteral`). These are the texts that are skipped as a number
(`Token.skip_number_iff`), and no other text is read as one (`Token.NumberLiteral.of_number`).
-/

namespace SchemaStore.Token

/-- The fraction of a number literal: nothing, or a point and digits. -/
inductive IsFraction : List Char → Prop
  | none : IsFraction []
  | digits {d : Char} {ds : List Char} (h : ∀ x ∈ d :: ds, x.isDigit = true) :
      IsFraction ('.' :: d :: ds)

/-- The exponent of a number literal: nothing, or its letter, a sign or none, and digits. -/
inductive IsExponent : List Char → Prop
  | none : IsExponent []
  | digits {mark d : Char} {sign ds : List Char} (hmark : isExponentMark mark = true)
      (hsign : sign = [] ∨ sign = ['+'] ∨ sign = ['-']) (h : ∀ x ∈ d :: ds, x.isDigit = true) :
      IsExponent (mark :: (sign ++ d :: ds))

/-- A number literal of JSON. -/
structure NumberLiteral where
  negative : Bool
  whole : Nat
  fraction : List Char
  exponent : List Char
  isFraction : IsFraction fraction
  isExponent : IsExponent exponent

namespace NumberLiteral

/-- How the literal is written. -/
def text (l : NumberLiteral) : List Char := signedDigits l.negative l.whole ++ l.fraction ++ l.exponent

/-- The integer before the point. -/
def integer (l : NumberLiteral) : Int := if l.negative then -(l.whole : Int) else (l.whole : Int)

/-- The literal is an integer of 64 bits: it has no fraction and no exponent, it is no negative zero,
and a signed or an unsigned word holds it. -/
def IsWordInteger (l : NumberLiteral) : Prop :=
  l.fraction = [] ∧ l.exponent = [] ∧ ¬ (l.negative = true ∧ l.whole = 0) ∧ FitsWord l.integer

end NumberLiteral

/-! ## What is skipped as a number -/

section Skip

variable {cs rest : List Char}

theorem isExponent_of_skip (h : Skip.exponentPart? cs = .ok rest) :
    ∃ exponent, IsExponent exponent ∧ cs = exponent ++ rest := by
  unfold Skip.exponentPart? at h
  split at h
  · next mark tail =>
    split at h
    · next hmark =>
      obtain ⟨sign, digits, hsign, rfl, hstart, rfl⟩ := Skip.exponentPart_ok h
      obtain ⟨d, ds, hds, hdigits⟩ := Text.exists_digits hstart
      refine ⟨_, .digits hmark hsign hds, ?_⟩
      rw [List.cons_append, List.append_assoc, ← hdigits]
    · cases h
      exact ⟨[], .none, rfl⟩
  · cases h
    exact ⟨[], .none, rfl⟩

theorem isFraction_of_skip (h : Skip.afterWhole cs = .ok rest) :
    ∃ fraction exponent, IsFraction fraction ∧ IsExponent exponent ∧
      cs = fraction ++ (exponent ++ rest) := by
  unfold Skip.afterWhole at h
  split at h
  · next tail =>
    split at h
    · next hstart =>
      obtain ⟨d, ds, hds, htail⟩ := Text.exists_digits hstart
      obtain ⟨exponent, hexponent, hrest⟩ := isExponent_of_skip h
      rw [hrest] at htail
      exact ⟨_, exponent, .digits hds, hexponent, by rw [htail]; rfl⟩
    · cases h
  · obtain ⟨exponent, hexponent, rfl⟩ := isExponent_of_skip h
    exact ⟨[], exponent, .none, hexponent, rfl⟩

/-- What is skipped as a number without a sign is digits, a fraction and an exponent. -/
theorem whole_of_skip (h : Skip.number cs = .ok rest) :
    ∃ n fraction exponent, IsFraction fraction ∧ IsExponent exponent ∧
      cs = Nat.toDigits 10 n ++ (fraction ++ (exponent ++ rest)) := by
  unfold Skip.number at h
  split at h
  · split at h
    · cases h
    · obtain ⟨fraction, exponent, hfraction, hexponent, rfl⟩ := isFraction_of_skip h
      exact ⟨0, fraction, exponent, hfraction, hexponent, rfl⟩
  · next hzero =>
    split at h
    · next hstart =>
      obtain ⟨d, ds, hds, hcs⟩ := Text.exists_digits hstart
      obtain ⟨fraction, exponent, hfraction, hexponent, hrest⟩ := isFraction_of_skip h
      have hd : d ≠ '0' := fun hd => hzero _ (by rw [hcs, hd]; rfl)
      refine ⟨Text.digitsValue (d :: ds), fraction, exponent, hfraction, hexponent, ?_⟩
      rw [Text.toDigits_digitsValue hds hd, ← hrest]
      exact hcs
    · cases h

theorem IsExponent.skip {exponent : List Char} (h : IsExponent exponent) :
    Skip.exponentPart? exponent = .ok [] := by
  cases h with
  | none => rfl
  | @digits mark d sign ds hmark hsign hds =>
    have hstart : Text.startsWithDigit (d :: ds) = true := hds d List.mem_cons_self
    have hspan := Text.spanDigits_of_digits hds
    rw [Skip.exponentPart?, if_pos hmark]
    unfold Skip.exponentPart
    rcases hsign with rfl | rfl | rfl
    · have hsign : d ≠ '+' ∧ d ≠ '-' := by
        refine ⟨?_, ?_⟩ <;> rintro rfl <;> cases hstart
      dsimp only [List.nil_append]
      split
      · next h => exact absurd (List.cons.inj h).1 hsign.1
      · next h => exact absurd (List.cons.inj h).1 hsign.2
      · rw [if_pos hstart, hspan]
    · simp only [List.singleton_append, hstart, hspan, if_true]
    · simp only [List.singleton_append, hstart, hspan, if_true]

/-- An exponent starts with its letter, so neither digits nor a point run into it. -/
theorem IsExponent.head {exponent : List Char} (h : IsExponent exponent) :
    Text.startsWithDigit exponent = false ∧ exponent.head? ≠ some '.' := by
  cases h with
  | none => exact ⟨rfl, nofun⟩
  | digits hmark =>
    simp only [isExponentMark, Bool.or_eq_true, beq_iff_eq] at hmark
    rcases hmark with rfl | rfl
    · exact ⟨rfl, nofun⟩
    · exact ⟨rfl, nofun⟩

theorem IsFraction.skip {fraction exponent : List Char} (h : IsFraction fraction)
    (hexponent : IsExponent exponent) : Skip.afterWhole (fraction ++ exponent) = .ok [] := by
  obtain ⟨hdigit, hpoint⟩ := hexponent.head
  cases h with
  | none =>
    rw [List.nil_append]
    unfold Skip.afterWhole
    split
    · exact absurd rfl hpoint
    · exact hexponent.skip
  | digits hds => exact (Skip.afterWhole_fraction hds hdigit).trans hexponent.skip

/-- A text is skipped as a number exactly if it is a number literal without its sign. -/
theorem skip_number_iff : Skip.number cs = .ok [] ↔
    ∃ n fraction exponent, IsFraction fraction ∧ IsExponent exponent ∧
      cs = Nat.toDigits 10 n ++ (fraction ++ exponent) := by
  constructor
  · intro h
    obtain ⟨n, fraction, exponent, hfraction, hexponent, hcs⟩ := whole_of_skip h
    rw [List.append_nil] at hcs
    exact ⟨n, fraction, exponent, hfraction, hexponent, hcs⟩
  · rintro ⟨n, fraction, exponent, hfraction, hexponent, rfl⟩
    have hdigit : Text.startsWithDigit (fraction ++ exponent) = false := by
      cases hfraction with
      | none => exact hexponent.head.1
      | digits hds => rfl
    rw [Skip.number_toDigits_append n hdigit]
    exact hfraction.skip hexponent

end Skip

namespace NumberLiteral

theorem text_head (l : NumberLiteral) :
    ∃ c tail, l.text = c :: tail ∧ (c = '-' ∨ c.isDigit = true) := by
  obtain ⟨d, ds, hds, hd⟩ := Text.exists_toDigits l.whole
  rw [text, signedDigits, hds]
  split
  · exact ⟨_, _, rfl, .inl rfl⟩
  · exact ⟨_, _, rfl, .inr hd⟩

/-- What is read as a number is a number literal. -/
theorem of_number {negative : Bool} {cs : List Char} {n : WordNumber}
    (h : number negative cs = .ok (n, [])) :
    ∃ l : NumberLiteral, l.text = if negative then '-' :: cs else cs := by
  obtain ⟨whole, fraction, exponent, hfraction, hexponent, rfl⟩ :=
    skip_number_iff.1 (Skip.number_of_token h)
  refine ⟨⟨negative, whole, fraction, exponent, hfraction, hexponent⟩, ?_⟩
  rw [text, signedDigits]
  dsimp only
  cases negative <;> simp

end NumberLiteral

end SchemaStore.Token
