import SchemaStore.Binary.Parse
import SchemaStore.Proofs.Binary.Interval
import SchemaStore.Proofs.Json.Float

/-!
# Floats, printed in full and read exactly

A layout that writes all places and no superfluous point writes digits, with a point between them or
not, and zeros on one side (`Layout.decimal?_positionalText`). Reading them gives the value of the
shortest decimal, which is a number the float owns; so the nearest float is the one that was written
(`Binary.parse?_text`).
-/

namespace SchemaStore

namespace Text

variable {ds es : List Char}

theorem decimal?_whole (hne : ds ≠ []) (hds : ∀ d ∈ ds, d.isDigit = true) :
    decimal? ds = some (digitsValue ds, 0) := by
  rw [decimal?, spanDigits_of_digits hds]
  simp [exponent?, hne]

theorem decimal?_point (hne : ds ≠ []) (hds : ∀ d ∈ ds, d.isDigit = true)
    (hes : ∀ d ∈ es, d.isDigit = true) :
    decimal? (ds ++ '.' :: es) = some (digitsValue (ds ++ es), -(es.length : Int)) := by
  rw [decimal?, spanDigits_digits hds rfl]
  simp [spanDigits_of_digits hes, exponent?, hne]

theorem digitsValue_zeros (n : Nat) (ds : List Char) :
    digitsValue (List.replicate n '0' ++ ds) = digitsValue ds := by
  show Nat.ofDigitChars 10 _ 0 = Nat.ofDigitChars 10 ds 0
  rw [Nat.ofDigitChars_append, Nat.ofDigitChars_replicate_zero, Nat.mul_zero]

theorem digitsValue_append_zeros (ds : List Char) (n : Nat) :
    digitsValue (ds ++ List.replicate n '0') = digitsValue ds * 10 ^ n := by
  show Nat.ofDigitChars 10 _ 0 = Nat.ofDigitChars 10 ds 0 * _
  rw [Nat.ofDigitChars_append, Nat.ofDigitChars_replicate_zero, Nat.mul_comm]

theorem spanSign_of_digit {c : Char} (hc : c.isDigit = true) (cs : List Char) (negative : Bool) :
    spanSign (if negative then '-' :: c :: cs else c :: cs) = (negative, c :: cs) := by
  cases negative with
  | true => rfl
  | false =>
    rw [if_neg (by decide), spanSign.eq_def]
    split
    · next h => cases h; cases hc
    · next h => cases h; cases hc
    · rfl

end Text

/-- What is read in digits that are written out around the point is what they count. -/
theorem Layout.decimal?_positionalText {l : Layout} (hl : l.keepsPoint = false) {ds : List Char}
    (hne : ds ≠ []) (hds : ∀ d ∈ ds, d.isDigit = true) (lead : Int) :
    ∃ n e, Text.decimal? (l.positionalText ds lead) = some (n, e) ∧
      (n : ℚ) * 10 ^ e = Text.digitsValue ds * 10 ^ (lead + 1 - ds.length) := by
  have hten : (10 : ℚ) ≠ 0 := by norm_num
  unfold positionalText
  dsimp only
  split
  · have hfraction : ∀ d ∈ List.replicate (-lead - 1).toNat '0' ++ ds, d.isDigit = true :=
      List.forall_mem_append.2 ⟨isDigit_zeros _, hds⟩
    have hwhole : ∀ d ∈ ['0'], d.isDigit = true := by simp
    have hread := Text.decimal?_point (by simp) hwhole hfraction
    refine ⟨_, _, hread, ?_⟩
    rw [List.singleton_append, ← List.cons_append, ← List.replicate_succ, Text.digitsValue_zeros,
      List.length_append, List.length_replicate]
    congr 2
    omega
  · split
    · next hshort =>
      have hall : ∀ d ∈ ds ++ List.replicate (lead.toNat + 1 - ds.length) '0', d.isDigit = true :=
        List.forall_mem_append.2 ⟨hds, isDigit_zeros _⟩
      rw [hl, if_neg (by decide), List.append_nil]
      refine ⟨_, _, Text.decimal?_whole (by simp [hne]) hall, ?_⟩
      rw [Text.digitsValue_append_zeros, zpow_zero, mul_one, Nat.cast_mul, Nat.cast_pow,
        ← zpow_natCast]
      congr 2
      omega
    · next hlong =>
      have hwhole : ∀ d ∈ ds.take (lead.toNat + 1), d.isDigit = true :=
        fun d hd => hds d (List.mem_of_mem_take hd)
      have hfraction : ∀ d ∈ ds.drop (lead.toNat + 1), d.isDigit = true :=
        fun d hd => hds d (List.mem_of_mem_drop hd)
      refine ⟨_, _, Text.decimal?_point (by simp [hne]) hwhole hfraction, ?_⟩
      rw [List.take_append_drop, List.length_drop]
      congr 2
      omega

/-- The first digit of a decimal tells its value up to a factor of ten. -/
theorem Ratio.value_ofDecimal_bounds {n : Nat} {c : Char} {ds : List Char}
    (hds : Nat.toDigits 10 n = c :: ds) (hn : 0 < n) (e : Int) :
    (10 : ℚ) ^ (ds.length + e) ≤ (ofDecimal n e).value ∧
      (ofDecimal n e).value < 10 ^ (ds.length + 1 + e) := by
  have hpow : (0 : ℚ) < 10 ^ e := by positivity
  have hlow : (10 : ℚ) ^ ds.length ≤ n := by exact_mod_cast Text.pow_le_of_toDigits hds hn
  have hhigh : (n : ℚ) < 10 ^ (ds.length + 1) := by exact_mod_cast Text.lt_pow_of_toDigits hds
  rw [value_ofDecimal, ← Nat.cast_succ, zpow_add₀ (by norm_num), zpow_add₀ (by norm_num),
    zpow_natCast, zpow_natCast]
  exact ⟨mul_le_mul_of_nonneg_right hlow hpow.le, mul_lt_mul_of_pos_right hhigh hpow⟩

namespace Magnitude

variable {f : Format} {m : Magnitude f} {r : Ratio} (hf : f.Printable) (hm : m.val ≠ 0)
  (hden : 0 < r.den) (h : m.owns r = true) {k : Int}

include hf hm hden h

/-- The powers of ten below what is owned are within the bounds of the format. -/
theorem exponent_lt_of_owns (hk : (10 : ℚ) ^ k ≤ r.value) : k < (Nat.pow 2 f.exponentBits : Nat) := by
  have hless := hf.high
  refine (zpow_lt_zpow_iff_right₀ (by norm_num : (1 : ℚ) < 10)).1 (hk.trans_lt ?_)
  calc r.value < 2 ^ (f.leastExponent + (Nat.pow 2 f.exponentBits : Nat) + f.fractionBits + 1) :=
        (range_of_owns hm hden h).2
    _ ≤ 2 ^ ((Nat.pow 2 f.exponentBits : Nat) : Int) :=
        zpow_le_zpow_right₀ (by norm_num) (by omega)
    _ ≤ 10 ^ ((Nat.pow 2 f.exponentBits : Nat) : Int) :=
        zpow_le_zpow_left₀ (Int.natCast_nonneg _) (by norm_num) (by norm_num)

/-- So are the powers of ten above it. -/
theorem lt_exponent_of_owns (hk : r.value < (10 : ℚ) ^ k) :
    -(Nat.pow 2 f.exponentBits : Nat) ≤ k := by
  have hleast := hf.low
  have hless := hf.high
  have hlow : (10 : ℚ) ^ (f.leastExponent - 1) < 10 ^ k := by
    refine lt_of_le_of_lt ?_ ((range_of_owns hm hden h).1.trans_lt hk)
    exact Ratio.zpow_anti_left (by norm_num) (by norm_num) (by omega)
  have hexp := (zpow_lt_zpow_iff_right₀ (by norm_num : (1 : ℚ) < 10)).1 hlow
  omega

end Magnitude

namespace Binary

variable {p : Precision} {n : Nat} {e : Int}

theorem ofRatio_of_nearest {r : Ratio} {m : Magnitude p.format} (h : p.format.nearest r = m.val)
    (negative : Bool) : ofRatio p negative r = .finite ⟨negative, m⟩ := by
  have hfinite : p.format.nearest r < p.format.finiteCount := h ▸ m.isLt
  rw [ofRatio, Magnitude.ofRatio?, dif_pos hfinite]
  simp only [h]

theorem ofDecimal_zero {m : Magnitude p.format} (hm : m.val = 0) (negative : Bool) (e : Int) :
    ofDecimal p negative 0 e = .finite ⟨negative, m⟩ := by
  rw [ofDecimal, if_pos (.inl rfl)]
  have hnearest : p.format.nearest ⟨0, 1⟩ = m.val := hm.symm
  exact ofRatio_of_nearest hnearest negative

/-- A decimal that a magnitude owns is read as this magnitude, and never lies out of range. -/
theorem ofDecimal_of_owns {m : Magnitude p.format} (hm : m.val ≠ 0)
    (h : m.owns (Ratio.ofDecimal n e) = true) (negative : Bool) :
    ofDecimal p negative n e = .finite ⟨negative, m⟩ := by
  have hf := p.printable
  have hden := Ratio.den_ofDecimal_pos n e
  have hn : 0 < n := by
    rcases Nat.eq_zero_or_pos n with rfl | hn
    · rw [Magnitude.owns_zero hm] at h
      cases h
    · exact hn
  obtain ⟨c, ds, hds, -⟩ := Text.exists_toDigits n
  obtain ⟨hfirst, hnext⟩ := Ratio.value_ofDecimal_bounds hds hn e
  have habove := Magnitude.exponent_lt_of_owns hf hm hden h hfirst
  have hbelow := Magnitude.lt_exponent_of_owns hf hm hden h hnext
  rw [ofDecimal, hds, List.length_cons, if_neg (by omega), if_neg (by omega)]
  exact ofRatio_of_nearest (Magnitude.nearest_of_owns hm hden h hf.even) negative

/-! ## Reading a text -/

theorem toLower_of_digit {c : Char} (hc : c.isDigit = true) : c.toLower = c := by
  have hrange := Char.isDigit_iff_toNat.1 hc
  refine dif_neg fun hupper => ?_
  have hle : 'A'.toNat ≤ c.toNat := hupper.1
  have hlt : '9'.toNat < 'A'.toNat := by decide
  omega

/-- A text that starts with a digit, after its sign, spells no word. -/
theorem parse?_of_digit {c : Char} (hc : c.isDigit = true) (cs : List Char) (negative : Bool) :
    parse? p (if negative then '-' :: c :: cs else c :: cs) =
      (Text.decimal? (c :: cs)).map fun d => ofDecimal p negative d.1 d.2 := by
  have hletter : ∀ d ds, d.isDigit = false → (c :: cs).map Char.toLower ≠ d :: ds := by
    intro d ds hd h
    rw [List.map_cons, toLower_of_digit hc] at h
    cases h
    rw [hc] at hd
    cases hd
  rw [parse?, Text.spanSign_of_digit hc]
  dsimp only
  rw [if_neg (not_or.2 ⟨hletter _ _ rfl, hletter _ _ rfl⟩), if_neg (hletter _ _ rfl)]

/-- A float whose places are all printed is found in its text. -/
theorem parse?_text {l : Layout} (hl : l.positional = none) (hpoint : l.keepsPoint = false)
    (x : FiniteBinary p) : parse? p (l.text x) = some (.finite x) := by
  obtain ⟨c, cs, hmagnitude, hc⟩ := l.magnitudeText_head x
  rw [l.text_eq, hmagnitude, parse?_of_digit hc, ← hmagnitude, Layout.magnitudeText]
  split
  · next hzero =>
    have hdigit : ∀ d ∈ ['0'], d.isDigit = true := by simp
    obtain ⟨n, e, hread, hvalue⟩ := l.decimal?_positionalText hpoint (by simp) hdigit 0
    obtain rfl : n = 0 := by
      have hten : (10 : ℚ) ^ e ≠ 0 := by positivity
      have hn : (n : ℚ) * 10 ^ e = 0 := hvalue.trans (by simp [Text.digitsValue, Text.digitValue])
      exact Nat.cast_eq_zero.1 ((mul_eq_zero.1 hn).resolve_right hten)
    rw [hread, Option.map_some, ofDecimal_zero hzero]
  · next hx =>
    obtain ⟨howns, -⟩ := Magnitude.shortest_spec p.printable hx l.tie
    rw [Layout.decimalText, Layout.isPositional, hl]
    generalize x.magnitude.shortest l.tie = d at howns
    obtain ⟨n, e, hread, hvalue⟩ := l.decimal?_positionalText hpoint Nat.toDigits_ne_nil
      (fun _ => Text.isDigit_of_mem_toDigits) ((Nat.toDigits 10 d.digits).length - 1 + d.exponent)
    have hsame : d.ratio.value = (Ratio.ofDecimal n e).value := by
      rw [Ratio.value_ofDecimal, hvalue, Text.digitsValue_toDigits, Decimal.ratio,
        Ratio.value_ofDecimal]
      congr 2
      omega
    have hnear := Magnitude.owns_of_value (Ratio.den_ofDecimal_pos _ _)
      (Ratio.den_ofDecimal_pos _ _) hsame howns
    dsimp only
    rw [if_pos rfl, hread, Option.map_some, ofDecimal_of_owns hx hnear]

end Binary

end SchemaStore
