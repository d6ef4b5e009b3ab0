import SchemaStore.Proofs.Binary.Interval
import SchemaStore.Proofs.Json.Float

/-!
# Every double can be read

The reader scales a significand of 64 bits by a power of ten in rounded steps. It does not always
find the double that was written, but it always finds one (`Token.exists_anyNumber_number`): rounding
is monotone, so whatever is at most the greatest double but one (`Magnitude.headroom`) is scaled
without overflow, and the shortest decimal of every other double is. The greatest double has no
headroom; it is found again.
-/

namespace SchemaStore

/-! ## Scaling -/

namespace Magnitude

/-- The greatest double but one. A decimal that is no greater is scaled without overflow. -/
def headroom : Magnitude Precision.double.format :=
  ⟨Precision.double.format.finiteCount - 2, by decide⟩

/-- The greatest double. -/
def greatest : Magnitude Precision.double.format :=
  ⟨Precision.double.format.finiteCount - 1, by decide⟩

/-- What the reader computes of the greatest double and of the least and the greatest power of ten
that it scales by. -/
theorem powers_computed :
    (ofRatio? Precision.double.format greatest.ratio).isSome = true ∧
      (powerOfTen? Precision.double.format 308).isSome = true ∧
      (powerOfTen? Precision.double.format 0).any
        (fun q => (Ratio.ofDecimal 1 0).le q.ratio) = true := by
  decide +kernel

/-- The greatest double but one is an integer between those that a significand and a power of ten can
reach, and its shortest decimals are no greater. -/
theorem headroom_computed :
    headroom.ratio.den = 1 ∧ maxWord ≤ headroom.ratio.num ∧ headroom.ratio.num < 10 ^ (308 + 1) ∧
      (headroom.shortest .even).ratio.le headroom.ratio = true ∧
      (headroom.shortest .up).ratio.le headroom.ratio = true := by
  decide +kernel

theorem powerOfTen?_mono {n n' : Nat} (h : n ≤ n') {p' : Magnitude Precision.double.format}
    (hp' : powerOfTen? Precision.double.format n' = some p') :
    ∃ p, powerOfTen? Precision.double.format n = some p ∧ p ≤ p' := by
  apply ofRatio?_mono Nat.one_pos Nat.one_pos _ hp'
  have hpow : 10 ^ n ≤ 10 ^ n' := Nat.pow_le_pow_right (by decide) h
  simpa [Ratio.value] using (Nat.cast_le (α := ℚ)).2 hpow

theorem exists_powerOfTen? {n : Nat} (h : n ≤ 308) :
    ∃ p, powerOfTen? Precision.double.format n = some p ∧ 1 ≤ p.value := by
  obtain ⟨last, hlast⟩ : ∃ p, powerOfTen? Precision.double.format 308 = some p :=
    Option.isSome_iff_exists.1 powers_computed.2.1
  obtain ⟨p, hp, -⟩ := powerOfTen?_mono h hlast
  obtain ⟨one, hone, hle⟩ := powerOfTen?_mono (Nat.zero_le n) hp
  have hvalue : 1 ≤ one.value := by
    have hany := powers_computed.2.2
    rw [hone, Option.any_some, Ratio.le_iff (Ratio.den_ofDecimal_pos 1 0) one.den_ratio_pos,
      Ratio.value_ofDecimal] at hany
    exact le_of_eq_of_le (by norm_num) hany
  exact ⟨p, hp, hvalue.trans (value_mono hle)⟩

/-- Nothing becomes infinite when it is divided by one or more. -/
theorem exists_div? (m : Magnitude Precision.double.format) {p : Magnitude Precision.double.format}
    (hp : 1 ≤ p.value) : ∃ q, m.div? p = some q := by
  obtain ⟨q, hq⟩ := Option.isSome_iff_exists.1 powers_computed.1
  have hle : (m.ratio.div p.ratio).value ≤ greatest.ratio.value := by
    rw [Ratio.value_div]
    calc m.value / p.value ≤ m.value := div_le_self m.ratio.value_nonneg hp
      _ ≤ greatest.value := value_mono (Nat.le_sub_one_of_lt m.isLt)
  have hden : 0 < (m.ratio.div p.ratio).den := by
    apply Nat.mul_pos m.den_ratio_pos
    rw [value, Ratio.value] at hp
    by_contra hnum
    obtain hnum : p.ratio.num = 0 := by omega
    rw [hnum] at hp
    norm_num at hp
  obtain ⟨q, hq, -⟩ := ofRatio?_mono hden greatest.den_ratio_pos hle hq
  exact ⟨q, hq⟩

theorem exists_scaleByTen?_of_neg (steps : Nat) (m : Magnitude Precision.double.format) {e : Int}
    (he : e < 0) (hlow : -(308 * (steps + 1)) ≤ e) : ∃ q, m.scaleByTen? steps e = some q := by
  induction steps generalizing m e with
  | zero =>
    obtain ⟨p, hp, hone⟩ := exists_powerOfTen? (show e.natAbs ≤ 308 by omega)
    obtain ⟨q, hq⟩ := m.exists_div? hone
    rw [scaleByTen?, if_pos (by omega), hp, Option.bind_some, if_neg (by omega)]
    exact ⟨q, hq⟩
  | succ steps ih =>
    rw [scaleByTen?]
    split
    · next hsmall =>
      obtain ⟨p, hp, hone⟩ := exists_powerOfTen? hsmall
      obtain ⟨q, hq⟩ := m.exists_div? hone
      rw [hp, Option.bind_some, if_neg (by omega)]
      exact ⟨q, hq⟩
    · split
      · exact ⟨m, rfl⟩
      · obtain ⟨p, hp, hone⟩ := exists_powerOfTen? (le_refl 308)
        obtain ⟨q, hq⟩ := m.exists_div? hone
        rw [if_neg (by omega), hp, Option.bind_some, hq, Option.bind_some]
        exact ih q (by omega) (by push_cast at hlow; omega)

/-- A significand times a power of ten, in the steps that the reader makes. -/
def scaleUp? (v n : Nat) : Option (Magnitude Precision.double.format) :=
  (ofRatio? Precision.double.format ⟨v, 1⟩).bind fun m =>
    (powerOfTen? Precision.double.format n).bind m.mul?

theorem scaleUp?_mono {v v' n n' : Nat} (hv : v ≤ v') (hn : n ≤ n')
    (h : ∃ q', scaleUp? v' n' = some q') : ∃ q, scaleUp? v n = some q := by
  obtain ⟨q', h⟩ := h
  obtain ⟨m', hm', h⟩ := Option.bind_eq_some_iff.1 h
  obtain ⟨p', hp', hq'⟩ := Option.bind_eq_some_iff.1 h
  have hvalue : (⟨v, 1⟩ : Ratio).value ≤ (⟨v', 1⟩ : Ratio).value := by simpa [Ratio.value] using hv
  obtain ⟨m, hm, hmm'⟩ := ofRatio?_mono Nat.one_pos Nat.one_pos hvalue hm'
  obtain ⟨p, hp, hpp'⟩ := powerOfTen?_mono hn hp'
  have hproduct : (m.ratio.mul p.ratio).value ≤ (m'.ratio.mul p'.ratio).value := by
    rw [Ratio.value_mul, Ratio.value_mul]
    exact mul_le_mul (value_mono hmm') (value_mono hpp') p.ratio.value_nonneg m'.ratio.value_nonneg
  obtain ⟨q, hq, -⟩ := ofRatio?_mono (Nat.mul_pos m.den_ratio_pos p.den_ratio_pos)
    (Nat.mul_pos m'.den_ratio_pos p'.den_ratio_pos) hproduct hq'
  refine ⟨q, ?_⟩
  rw [scaleUp?, hm, Option.bind_some, hp, Option.bind_some]
  exact hq

theorem value_headroom : headroom.value = headroom.ratio.num := by
  rw [value, Ratio.value, headroom_computed.1, Nat.cast_one, div_one]

/-- The products with headroom that come closest to an overflow: that of the greatest significand, and
those of the greatest powers of ten. -/
theorem scaleUp?_computed :
    (scaleUp? maxWord 288).isSome = true ∧
      ∀ i < 20, (scaleUp? (headroom.ratio.num / 10 ^ (i + 289)) (i + 289)).isSome = true := by
  decide +kernel

/-- A decimal with headroom is scaled without overflow: for small exponents because of the size of
its significand, for each of the others because it is no worse than the greatest one. -/
theorem exists_scaleUp? {v n : Nat} (hv : v ≤ maxWord) (hn : n ≤ 308)
    (h : (v : ℚ) * 10 ^ n ≤ headroom.value) : ∃ q, scaleUp? v n = some q := by
  rcases Nat.lt_or_ge 288 n with hlarge | hsmall
  · have hgreatest : v ≤ headroom.ratio.num / 10 ^ n := by
      rw [Nat.le_div_iff_mul_le (by positivity)]
      rw [value_headroom] at h
      exact_mod_cast h
    have hi := scaleUp?_computed.2 (n - 289) (by omega)
    rw [Nat.sub_add_cancel hlarge] at hi
    exact scaleUp?_mono hgreatest le_rfl (Option.isSome_iff_exists.1 hi)
  · exact scaleUp?_mono hv hsmall (Option.isSome_iff_exists.1 scaleUp?_computed.1)

theorem maxWord_le_headroom : (maxWord : ℚ) ≤ headroom.value := by
  rw [value_headroom]
  exact_mod_cast headroom_computed.2.1

/-- A power of ten with headroom is one of those that can be scaled by. -/
theorem le_308_of_headroom {v n : Nat} (hv : 0 < v) (h : (v : ℚ) * 10 ^ n ≤ headroom.value) :
    n ≤ 308 := by
  by_contra! hn
  rw [value_headroom] at h
  obtain ⟨-, -, hnum, -, -⟩ := headroom_computed
  have hlt : headroom.ratio.num < headroom.ratio.num :=
    calc headroom.ratio.num < 10 ^ (308 + 1) := hnum
      _ ≤ 10 ^ n := pow_le_pow_right₀ (by decide) hn
      _ ≤ v * 10 ^ n := Nat.le_mul_of_pos_left _ hv
      _ ≤ headroom.ratio.num := by exact_mod_cast h
  exact lt_irrefl _ hlt

/-- A significand of 64 bits is scaled by a power of ten, unless what comes out is too great or the
exponent is out of reach. -/
theorem exists_scaleByTen? {v : Nat} {e : Int} (hv : v ≤ maxWord) (hlow : -1232 ≤ e)
    (hhigh : 0 ≤ e → (v : ℚ) * 10 ^ e ≤ headroom.value) :
    ∃ q, ((ofRatio? Precision.double.format ⟨v, 1⟩).bind fun m => m.scaleByTen? 3 e) = some q := by
  have hwhole : ∃ m, ofRatio? Precision.double.format ⟨v, 1⟩ = some m := by
    have hbound : (v : ℚ) * 10 ^ 0 ≤ headroom.value := by
      rw [pow_zero, mul_one]
      exact (Nat.cast_le.2 hv).trans maxWord_le_headroom
    obtain ⟨q, hq⟩ := exists_scaleUp? hv (Nat.zero_le 308) hbound
    obtain ⟨m, hm, -⟩ := Option.bind_eq_some_iff.1 hq
    exact ⟨m, hm⟩
  obtain ⟨m, hm⟩ := hwhole
  rw [hm, Option.bind_some]
  rcases lt_or_ge e 0 with hneg | hpos
  · exact exists_scaleByTen?_of_neg 3 m hneg (by omega)
  · obtain ⟨n, rfl⟩ := Int.eq_ofNat_of_zero_le hpos
    have hbound : (v : ℚ) * 10 ^ n ≤ headroom.value := by simpa using hhigh hpos
    rw [scaleByTen?, Int.natAbs_natCast]
    by_cases hn : n ≤ 308
    · obtain ⟨q, hq⟩ := exists_scaleUp? hv hn hbound
      rw [scaleUp?, hm, Option.bind_some] at hq
      simp only [if_pos hn, if_pos hpos]
      exact ⟨q, hq⟩
    · -- only zero has so much room
      obtain rfl : v = 0 := Nat.eq_zero_of_not_pos fun hv => hn (le_308_of_headroom hv hbound)
      have hzero : ofRatio? Precision.double.format ⟨0, 1⟩ = some ⟨0, by decide⟩ := rfl
      rw [hzero] at hm
      cases hm
      exact ⟨⟨0, by decide⟩, by rw [if_neg hn]; rfl⟩

/-! ## The shortest decimal -/

/-- No positive double is less than a power of ten with this exponent. -/
theorem le_log10 {m : Magnitude Precision.double.format} (h : m.val ≠ 0) :
    -325 ≤ m.ratio.log10 := by
  have hnum : 0 < m.ratio.num := Ratio.num_ofScaled_pos (scaled_pos h) _
  have hvalue : (2 : ℚ) ^ (-1074 : Int) ≤ m.value := by
    rw [value_eq]
    have hone : (1 : ℚ) ≤ m.scaled.1 := by exact_mod_cast scaled_pos h
    have hexponent : -1074 ≤ m.scaled.2 := leastExponent_le_scaled m
    calc (2 : ℚ) ^ (-1074 : Int) ≤ 2 ^ m.scaled.2 := zpow_le_zpow_right₀ (by norm_num) hexponent
      _ ≤ m.scaled.1 * 2 ^ m.scaled.2 := le_mul_of_one_le_left (by positivity) hone
  have hlog : -1074 < m.ratio.log2 + 1 :=
    (zpow_lt_zpow_iff_right₀ (by norm_num : (1 : ℚ) < 2)).1
      (hvalue.trans_lt (Ratio.log2_spec hnum m.den_ratio_pos).2)
  refine le_trans ?_ (Ratio.le_log10From _ _ _)
  rw [Int.fdiv_eq_ediv_of_nonneg _ (by decide)]
  omega

theorem value_shortest_headroom (tie : Tie) :
    (headroom.shortest tie).ratio.value ≤ headroom.value := by
  have hle : (headroom.shortest tie).ratio.le headroom.ratio = true := by
    obtain ⟨-, -, -, heven, hup⟩ := headroom_computed
    cases tie
    · exact heven
    · exact hup
  exact (Ratio.le_iff (Ratio.den_ofDecimal_pos _ _) headroom.den_ratio_pos).1 hle

/-- The shortest decimal of a double has headroom, and its exponent is within reach. -/
theorem shortest_bounds (tie : Tie) {m : Magnitude Precision.double.format} (h : m.val ≠ 0)
    (htop : m ≤ headroom) :
    (m.shortest tie).ratio.value ≤ headroom.value ∧ -345 ≤ (m.shortest tie).exponent := by
  obtain ⟨howns, hexponent⟩ := shortest_spec Precision.double.printable h tie
  constructor
  · have hval : m.val ≤ headroom.val := htop
    rcases hval.lt_or_eq with hlt | heq
    · have hnext : m.val + 1 < Precision.double.format.finiteCount :=
        (Nat.succ_le_of_lt hlt).trans_lt headroom.isLt
      exact (value_le_of_owns (Ratio.den_ofDecimal_pos _ _) howns hnext).trans
        (value_mono (Nat.succ_le_of_lt hlt))
    · rw [Fin.ext heq]
      exact value_shortest_headroom tie
  · have hlow := le_log10 h
    have hlimit : Precision.double.format.digitLimit = 17 := rfl
    omega

end Magnitude

/-! ## The texts of floats -/

namespace Token

variable {negative : Bool} {v : Nat} {e : Int} {c d : Char} {ds es tail : List Char}

theorem exponentPart?_toDigits {n : Nat} (hn : n ≤ 2147483647) {sign : Char} {e' : Int}
    (hsign : sign = '+' ∧ e' = e + n ∨ sign = '-' ∧ e' = e - n) :
    exponentPart? negative v e ('e' :: sign :: Nat.toDigits 10 n) = scaledNumber negative v e' [] := by
  obtain ⟨c, cs, hcs, hc⟩ := Text.exists_toDigits n
  have hdigits : ∀ down, exponentDigits negative v e down (Nat.toDigits 10 n) =
      scaledNumber negative v (if down then e - n else e + n) [] := by
    intro down
    have habsorb := Text.absorbDigits_toDigits hn
    rw [hcs] at habsorb ⊢
    have hstart : ¬ (!Text.startsWithDigit (c :: cs)) = true := by simp [Text.startsWithDigit, hc]
    rw [exponentDigits, if_neg (by simp), if_neg hstart, habsorb]
    rfl
  rw [exponentPart?, if_pos (by decide)]
  rcases hsign with ⟨rfl, rfl⟩ | ⟨rfl, rfl⟩
  · exact hdigits false
  · exact hdigits true

/-- The digits after the point that fit the significand are taken into it. -/
theorem fractionPart_digits (hds : ∀ x ∈ d :: ds, x.isDigit = true)
    (htail : Text.startsWithDigit tail = false) :
    fractionPart negative v e (d :: ds ++ tail) =
      let taken := Text.absorbDigits maxWord v (d :: ds)
      exponentPart? negative taken.1 (e - (((d :: ds).length - taken.2.length : Nat) : Int)) tail := by
  have hspan : (Text.spanDigits (Text.absorbDigits maxWord v (d :: ds)).2).2 = [] := by
    rw [Text.spanDigits_absorbDigits]
    exact List.dropWhile_eq_nil_iff.2 hds
  rw [fractionPart, Text.absorbDigits_append _ _ _ htail]
  dsimp only
  have hshorter : ¬ tail.length = (d :: ds ++ tail).length := by
    rw [List.length_append, List.length_cons]
    omega
  rw [Text.spanDigits_append _ htail, hspan, List.nil_append]
  dsimp only
  rw [if_neg hshorter, List.length_append, List.length_append, Nat.add_sub_add_right]

/-- The digits before the point, of which a zero stands alone. -/
theorem number_whole (hds : ∀ x ∈ c :: ds, x.isDigit = true) (hzero : c = '0' → ds = [])
    (hfits : Nat.ofDigitChars 10 (c :: ds) 0 ≤ maxWord) (htail : Text.startsWithDigit tail = false) :
    number negative (c :: ds ++ tail) =
      afterWhole negative (Nat.ofDigitChars 10 (c :: ds) 0) 0 tail := by
  by_cases hc : c = '0'
  · obtain rfl := hzero hc
    subst hc
    rw [List.singleton_append, number, htail]
    rfl
  · have hspan : Text.spanDigits tail = ([], tail) := Text.spanDigits_append [] htail
    rw [List.cons_append, number, if_pos (hds c List.mem_cons_self), ← List.cons_append,
      Text.absorbDigits_append _ _ _ htail, Text.absorbDigits_of_le hds hfits]
    · dsimp only
      rw [List.nil_append, hspan]
      rfl
    · exact hc

/-- The text of a magnitude is read as a double, whatever its sign. -/
def IsDouble (cs : List Char) : Prop :=
  ∃ y, ∀ negative, number negative cs = .ok (⟨.double ⟨negative, y⟩, trivial⟩, [])

theorem isDouble_of_scaledNumber {cs : List Char} (hv : v ≤ maxWord) (hlow : -1232 ≤ e)
    (hhigh : 0 ≤ e → (v : ℚ) * 10 ^ e ≤ Magnitude.headroom.value)
    (h : ∀ negative, number negative cs = scaledNumber negative v e []) : IsDouble cs := by
  obtain ⟨y, hy⟩ := Magnitude.exists_scaleByTen? hv hlow hhigh
  refine ⟨y, fun negative => ?_⟩
  rw [h, scaledNumber, hy]

section Digits

variable (hds : ∀ x ∈ c :: ds, x.isDigit = true)

include hds

/-- Of digits before and after the point those that fit the significand are scaled. -/
theorem number_point (hzero : c = '0' → ds = []) (hfits : Nat.ofDigitChars 10 (c :: ds) 0 ≤ maxWord)
    (hes : ∀ x ∈ d :: es, x.isDigit = true) : number negative (c :: ds ++ '.' :: d :: es) =
      let taken := Text.absorbDigits maxWord (Nat.ofDigitChars 10 (c :: ds) 0) (d :: es)
      scaledNumber negative taken.1 (0 - (((d :: es).length - taken.2.length : Nat) : Int)) [] := by
  have hpoint := @fractionPart_digits negative (Nat.ofDigitChars 10 (c :: ds) 0) 0 d es [] hes rfl
  rw [List.append_nil] at hpoint
  rw [number_whole hds hzero hfits rfl]
  exact hpoint

theorem isDouble_point (hzero : c = '0' → ds = []) (hlength : ds.length ≤ 15)
    (hes : ∀ x ∈ d :: es, x.isDigit = true) (hfraction : (d :: es).length ≤ 1232) :
    IsDouble (c :: ds ++ '.' :: d :: es) := by
  have hfits : Nat.ofDigitChars 10 (c :: ds) 0 ≤ maxWord := by
    have hlt := Text.ofDigitChars_lt hds 0
    have hpow : 10 ^ (c :: ds).length ≤ 10 ^ 16 :=
      Nat.pow_le_pow_right (by decide) (by rw [List.length_cons]; omega)
    exact (hlt.le.trans (by omega)).trans (show 10 ^ 16 ≤ maxWord by decide)
  obtain ⟨hword, -, -⟩ := Text.absorbDigits_bounds (d :: es) hfits
  refine isDouble_of_scaledNumber hword (by omega) (fun hpos => ?_)
    fun negative => number_point hds hzero hfits hes
  obtain heq := le_antisymm (Int.sub_nonpos_of_le (Int.natCast_nonneg _)) hpos
  rw [heq, zpow_zero, mul_one]
  exact (Nat.cast_le.2 hword).trans Magnitude.maxWord_le_headroom

theorem isDouble_positionalText {l : Layout} (hl : l.keepsPoint = true) {lead : Int}
    (hlead : lead ≤ 15) (hlow : -1200 ≤ lead - ds.length)
    (hzero : c = '0' → ds = [] ∧ lead ≤ 0) : IsDouble (l.positionalText (c :: ds) lead) := by
  obtain ⟨w, ws, fraction, htext, hws, halone, hlength, hfraction⟩ :=
    l.splitsAtPoint_positionalText hds hzero
  rw [htext]
  rcases hfraction with ⟨-, hnone⟩ | ⟨d, es, rfl, hes, hle⟩
  · rw [hl] at hnone
    cases hnone
  · exact isDouble_point hws halone (by omega) hes (by rw [List.length_cons]; omega)

end Digits

section Scientific

variable {n : Nat} {exponent : Int}

variable (hdigits : Nat.toDigits 10 n = c :: ds) (hn : 0 < n) (hlow : -1232 ≤ exponent)
  (hhigh : (n : ℚ) * 10 ^ exponent ≤ Magnitude.headroom.value)

include hdigits hn hlow hhigh

/-- The exponent of the first digit is read in one piece. -/
theorem exponentPart?_lead {lead : Int} (hlead : lead = ds.length + exponent) :
    exponentPart? negative v e
      ('e' :: (if lead < 0 then '-' else '+') :: Nat.toDigits 10 lead.natAbs) =
        scaledNumber negative v (e + lead) [] := by
  have hle : lead ≤ 308 := by
    by_contra! hlarge
    obtain ⟨k, rfl⟩ := Int.eq_ofNat_of_zero_le (show 0 ≤ lead by omega)
    have hpow : ((1 : Nat) : ℚ) * 10 ^ k ≤ Magnitude.headroom.value := by
      have hcast : (10 : ℚ) ^ ds.length ≤ n := by exact_mod_cast Text.pow_le_of_toDigits hdigits hn
      calc ((1 : Nat) : ℚ) * 10 ^ k = 10 ^ ds.length * 10 ^ exponent := by
            rw [Nat.cast_one, one_mul, ← zpow_natCast, ← zpow_natCast, ← zpow_add₀ (by norm_num), hlead]
        _ ≤ n * 10 ^ exponent := mul_le_mul_of_nonneg_right hcast (by positivity)
        _ ≤ Magnitude.headroom.value := hhigh
    have hk := Magnitude.le_308_of_headroom Nat.one_pos hpow
    omega
  apply exponentPart?_toDigits (by omega)
  split
  · exact .inr ⟨rfl, by omega⟩
  · exact .inl ⟨rfl, by omega⟩

/-- Of the digits before an exponent those that fit the significand are scaled. -/
theorem number_scientificText {lead : Int} (hlead : lead = ds.length + exponent) :
    number negative (Layout.scientificText (c :: ds) lead) =
      let taken := Text.absorbDigits maxWord (Nat.ofDigitChars 10 [c] 0) ds
      scaledNumber negative taken.1 (taken.2.length + exponent) [] := by
  have hall := Text.isDigit_of_toDigits_eq hdigits
  have hone : ∀ x ∈ [c], x.isDigit = true := by simpa using hall c List.mem_cons_self
  have hfits : Nat.ofDigitChars 10 [c] 0 ≤ maxWord :=
    (Text.ofDigitChars_lt hone 0).le.trans (show 10 ≤ maxWord by decide)
  have hexponent := fun v e =>
    @exponentPart?_lead negative v e c ds n exponent hdigits hn hlow hhigh lead hlead
  have hfirst := fun tail (htail : Text.startsWithDigit tail = false) =>
    @number_whole negative c [] tail hone (fun _ => rfl) hfits htail
  cases ds with
  | nil =>
    -- no point
    refine (hfirst _ rfl).trans ((hexponent _ 0).trans ?_)
    rw [hlead, zero_add]
    rfl
  | cons d es =>
    have hlater : ∀ x ∈ d :: es, x.isDigit = true := fun x hx => hall x (List.mem_cons_of_mem _ hx)
    obtain ⟨-, hlength, -⟩ := Text.absorbDigits_bounds (d :: es) hfits
    refine (hfirst _ rfl).trans ?_
    refine (@fractionPart_digits negative _ 0 d es _ hlater rfl).trans ?_
    refine (hexponent _ _).trans ?_
    congr 1
    omega

theorem isDouble_scientificText {lead : Int} (hlead : lead = ds.length + exponent) :
    IsDouble (Layout.scientificText (c :: ds) lead) := by
  have hone : ∀ x ∈ [c], x.isDigit = true := by
    simpa using Text.isDigit_of_toDigits_eq hdigits c List.mem_cons_self
  have hfits : Nat.ofDigitChars 10 [c] 0 ≤ maxWord :=
    (Text.ofDigitChars_lt hone 0).le.trans (show 10 ≤ maxWord by decide)
  have hvalue : Nat.ofDigitChars 10 (c :: ds) 0 = n := by
    rw [← hdigits]
    simp
  obtain ⟨hword, -, hbound⟩ := Text.absorbDigits_bounds ds hfits
  refine isDouble_of_scaledNumber hword (by omega) (fun _ => ?_)
    fun negative => number_scientificText hdigits hn hlow hhigh hlead
  rw [zpow_add₀ (by norm_num), ← mul_assoc, zpow_natCast]
  refine le_trans (mul_le_mul_of_nonneg_right ?_ (by positivity)) hhigh
  rw [← hvalue]
  exact_mod_cast hbound

end Scientific

theorem isDouble_magnitudeText {x : FiniteBinary .double}
    (htop : x.magnitude ≤ Magnitude.headroom) :
    IsDouble (Layout.jsonDouble.magnitudeText x) := by
  unfold Layout.magnitudeText
  split
  · have hzero : ∀ d ∈ ['0'], d.isDigit = true := by simp
    exact isDouble_positionalText hzero rfl (by decide) (by decide) fun _ => ⟨rfl, le_rfl⟩
  · next hx =>
    obtain ⟨hvalue, hlow⟩ := Magnitude.shortest_bounds Layout.jsonDouble.tie hx htop
    have hn := Nat.pos_of_ne_zero
      (Magnitude.digits_shortest_ne_zero Precision.double.printable hx Layout.jsonDouble.tie)
    obtain ⟨c, ds, hds, -, hc⟩ := Text.exists_toDigits_eq_cons hn
    have hall := Text.isDigit_of_toDigits_eq hds
    rw [Decimal.ratio, Ratio.value_ofDecimal] at hvalue
    unfold Layout.decimalText
    dsimp only
    rw [hds, List.length_cons]
    split
    · next hpositional =>
      have hlead := Bool.and_eq_true_iff.1 hpositional
      exact isDouble_positionalText hall rfl (by simpa using hlead.2) (by omega) fun h => absurd h hc
    · exact isDouble_scientificText hds hn (by omega) hvalue (by omega)

/-- The text of a double is always read as a double. -/
theorem exists_anyNumber_number (x : FiniteBinary .double) (expected : Expected) :
    ∃ y, anyNumber expected x.number.text = .ok (⟨.double y, trivial⟩, []) := by
  by_cases htop : x.magnitude ≤ Magnitude.headroom
  · obtain ⟨y, hy⟩ := isDouble_magnitudeText htop
    rw [anyNumber_number]
    exact ⟨_, hy x.negative⟩
  · -- the greatest double has no headroom, but it is found again
    have hgreatest : ∀ negative, FiniteBinary.ReadsBack (p := .double)
        ⟨negative, Magnitude.greatest⟩ := by decide +kernel
    refine ⟨x, number_of_readsBack ?_ expected⟩
    obtain ⟨negative, magnitude⟩ := x
    have heq : magnitude = Magnitude.greatest := by
      have hlt := magnitude.isLt
      have hgt : Magnitude.headroom.val < magnitude.val := not_le.1 htop
      have hheadroom : Magnitude.headroom.val = Precision.double.format.finiteCount - 2 := rfl
      have hval : Magnitude.greatest.val = Precision.double.format.finiteCount - 1 := rfl
      exact Fin.ext (by omega)
    rw [heq]
    exact hgreatest negative

end Token

end SchemaStore
