import SchemaStore.Proofs.Binary.Parse
import SchemaStore.Proofs.Json.Reread

/-!
# Doubles of few digits are found again

The reader makes one rounded step when the significand and the power of ten it scales by are doubles
themselves. Then the step is that of the exact decimal, and it finds what the decimal was written for
(`Magnitude.scaleByTen?_of_owns`). So a double of few digits reads back
(`FiniteBinary.readsBack_of_short`), whichever layout its text has.
-/

namespace SchemaStore

/-! ## Exact doubles -/

namespace Magnitude

theorem ofRatio?_of_owns {f : Format} {m : Magnitude f} {r : Ratio} (hf : f.Printable)
    (hm : m.val ≠ 0) (hden : 0 < r.den) (h : m.owns r = true) : ofRatio? f r = some m := by
  have hnearest := nearest_of_owns hm hden h hf.even
  have hfinite : f.nearest r < f.finiteCount := hnearest ▸ m.isLt
  rw [ofRatio?, dif_pos hfinite]
  exact congrArg some (Fin.ext hnearest)

/-- An integer of no more bits than a significand is a magnitude of the format. -/
theorem exists_value_eq {v : Nat} (hpos : 0 < v) (h : v < 2 ^ 53) :
    ∃ m : Magnitude Precision.double.format, m.val ≠ 0 ∧ m.value = v := by
  obtain ⟨k, hk⟩ := Nat.exists_eq_add_of_le (Nat.le_of_lt_succ ((Nat.log2_lt hpos.ne').2 h))
  have hbinade : Precision.double.format.binade = 2 ^ (v.log2 + k) := by rw [← hk]; rfl
  have hcount : Precision.double.format.finiteCount = 2047 * Precision.double.format.binade := rfl
  -- the significand, shifted until it is full
  have hfull : Precision.double.format.binade ≤ v * 2 ^ k := by
    rw [hbinade, Nat.pow_add]
    exact Nat.mul_le_mul_right _ (Nat.log2_self_le hpos.ne')
  have hrest : v * 2 ^ k - Precision.double.format.binade < Precision.double.format.binade := by
    have hlt := Nat.mul_lt_mul_of_pos_right (Nat.lt_log2_self (n := v)) (Nat.two_pow_pos k)
    rw [← Nat.pow_add, Nat.add_right_comm, Nat.pow_succ, ← hbinade] at hlt
    omega
  have hcode : (1074 - k + 1) * Precision.double.format.binade +
      (v * 2 ^ k - Precision.double.format.binade) < Precision.double.format.finiteCount := by
    rw [hcount]
    have hsteps : (1074 - k + 1) * Precision.double.format.binade ≤
        1075 * Precision.double.format.binade := Nat.mul_le_mul_right _ (by omega)
    omega
  refine ⟨⟨_, hcode⟩, ?_, ?_⟩
  · have hone : 1 * Precision.double.format.binade ≤ (1074 - k + 1) * Precision.double.format.binade :=
      Nat.mul_le_mul_right _ (Nat.succ_pos _)
    have hpos := Precision.double.format.binade_pos
    show (1074 - k + 1) * Precision.double.format.binade +
      (v * 2 ^ k - Precision.double.format.binade) ≠ 0
    omega
  · have hscaled := @scaled_of_eq _ ⟨_, hcode⟩ (1074 - k) _ rfl hrest
    have hexp : (k : Int) + (-1074 + (1074 - k : Nat)) = 0 := by omega
    have hleast : Precision.double.format.leastExponent = -1074 := rfl
    rw [value_eq, hscaled, hleast]
    dsimp only
    rw [Nat.add_sub_cancel' hfull, Nat.cast_mul, Nat.cast_pow, mul_assoc, Nat.cast_ofNat,
      ← zpow_natCast, ← zpow_add₀ (by norm_num), hexp, zpow_zero, mul_one]

theorem ofRatio?_natCast {v : Nat} (hpos : 0 < v) (h : v < 2 ^ 53) :
    ∃ m, ofRatio? Precision.double.format ⟨v, 1⟩ = some m ∧ m.value = v := by
  obtain ⟨m, hm, hvalue⟩ := exists_value_eq hpos h
  have hsame : m.ratio.value = (⟨v, 1⟩ : Ratio).value := hvalue.trans (by simp [Ratio.value])
  have howns := owns_of_value m.den_ratio_pos Nat.one_pos hsame (owns_ratio hm)
  exact ⟨m, ofRatio?_of_owns Precision.double.printable hm Nat.one_pos howns, hvalue⟩

/-- The powers of ten that are doubles themselves. -/
theorem powers_exact : ∀ n < 23, (powerOfTen? Precision.double.format n).any
    (fun p => p.ratio.num == 10 ^ n * p.ratio.den) = true := by
  decide +kernel

theorem powerOfTen?_exact {n : Nat} (h : n < 23) :
    ∃ p, powerOfTen? Precision.double.format n = some p ∧ p.value = 10 ^ n := by
  have hexact := powers_exact n h
  cases hp : powerOfTen? Precision.double.format n with
  | none =>
    rw [hp] at hexact
    cases hexact
  | some p =>
    rw [hp, Option.any_some, beq_iff_eq] at hexact
    refine ⟨p, rfl, ?_⟩
    rw [value, Ratio.value, hexact, div_eq_iff (Nat.cast_ne_zero.2 p.den_ratio_pos.ne')]
    push_cast
    rfl

/-- An exact significand divided by an exact power of ten is rounded once, as the decimal is. -/
theorem scaleByTen?_of_owns {m : Magnitude Precision.double.format} (hm : m.val ≠ 0) {v : Nat}
    (hv : v < 2 ^ 53) {e : Int} (hlow : -23 < e) (hneg : e < 0)
    (howns : m.owns (Ratio.ofDecimal v e) = true) :
    ((ofRatio? Precision.double.format ⟨v, 1⟩).bind fun s => s.scaleByTen? 3 e) = some m := by
  have hpos : 0 < v := by
    rcases Nat.eq_zero_or_pos v with rfl | hpos
    · rw [owns_zero hm] at howns
      cases howns
    · exact hpos
  obtain ⟨s, hs, hsv⟩ := ofRatio?_natCast hpos hv
  obtain ⟨n, rfl⟩ : ∃ n : Nat, e = -n := ⟨e.natAbs, by omega⟩
  obtain ⟨p, hp, hpv⟩ := powerOfTen?_exact (show n < 23 by omega)
  have hden : 0 < (s.ratio.div p.ratio).den := by
    have hpow : 0 < p.value := hpv ▸ pow_pos (by norm_num) n
    exact Nat.mul_pos s.den_ratio_pos (Ratio.num_pos p.den_ratio_pos hpow)
  have hsame : (Ratio.ofDecimal v (-n)).value = (s.ratio.div p.ratio).value := by
    have hquotient : (s.ratio.div p.ratio).value = s.value / p.value := Ratio.value_div _ _
    rw [hquotient, hsv, hpv, Ratio.value_ofDecimal, zpow_neg, zpow_natCast, div_eq_mul_inv]
  rw [hs, Option.bind_some, scaleByTen?, Int.natAbs_neg, Int.natAbs_natCast, if_pos (by omega), hp,
    Option.bind_some, if_neg (by omega)]
  exact ofRatio?_of_owns Precision.double.printable hm hden
    (owns_of_value (Ratio.den_ofDecimal_pos _ _) hden hsame howns)

end Magnitude

/-! ## Texts of few digits -/

namespace Token

variable {negative : Bool} {c : Char} {ds : List Char}

section Digits

variable (hds : ∀ x ∈ c :: ds, x.isDigit = true)

include hds

/-- Digits before and after the point that fit the significand are read as the number they spell. -/
theorem number_point_of_le {es : List Char} (hzero : c = '0' → ds = []) (hne : es ≠ [])
    (hes : ∀ x ∈ es, x.isDigit = true) (hfits : Text.digitsValue (c :: ds ++ es) ≤ maxWord) :
    number negative (c :: ds ++ '.' :: es) =
      scaledNumber negative (Text.digitsValue (c :: ds ++ es)) (-(es.length : Int)) [] := by
  obtain ⟨d, es, rfl⟩ := List.exists_cons_of_ne_nil hne
  have hvalue : Text.digitsValue (c :: ds ++ d :: es) =
      Nat.ofDigitChars 10 (d :: es) (Nat.ofDigitChars 10 (c :: ds) 0) := Nat.ofDigitChars_append 0
  have hwhole := Text.le_ofDigitChars (d :: es) (Nat.ofDigitChars 10 (c :: ds) 0)
  rw [hvalue] at hfits ⊢
  rw [number_point hds hzero (hwhole.trans hfits) hes, Text.absorbDigits_of_le hes hfits]
  simp

/-- Digits written out around the point, of which a whole number has one more, are read as the number
they count. -/
theorem number_positionalText_of_le {l : Layout} (hl : l.keepsPoint = true) (hc : c ≠ '0') {e : Int}
    (hfits : Text.digitsValue (c :: ds) * 10 ^ (e + 1).toNat ≤ maxWord) :
    number negative (l.positionalText (c :: ds) (ds.length + e)) =
      scaledNumber negative (Text.digitsValue (c :: ds) * 10 ^ (e + 1).toNat) (min e (-1)) [] := by
  unfold Layout.positionalText
  dsimp only
  rw [List.length_cons, hl, if_pos rfl]
  split
  · -- zeros before the digits
    have hzeros := Text.digitsValue_zeros ((-(ds.length + e) - 1).toNat + 1) (c :: ds)
    rw [List.replicate_succ, List.cons_append] at hzeros
    have hfraction := List.forall_mem_append.2
      ⟨Layout.isDigit_zeros (-(ds.length + e) - 1).toNat, hds⟩
    have hone : ∀ x ∈ ['0'], x.isDigit = true := by simp
    have hexp : (e + 1).toNat = 0 := by omega
    rw [hexp, Nat.pow_zero, Nat.mul_one] at hfits ⊢
    have hread := @number_point_of_le negative '0' [] hone _ (fun _ => rfl) (by simp) hfraction
      (hzeros ▸ hfits)
    refine hread.trans ?_
    rw [List.singleton_append, hzeros, List.length_append, List.length_replicate, List.length_cons]
    congr 1
    omega
  · split
    · -- a whole number, with zeros after the digits and after the point
      have hzeros := Text.digitsValue_append_zeros (c :: ds) (e.toNat + 1)
      have hall := List.forall_mem_append.2 ⟨hds, Layout.isDigit_zeros e.toNat⟩
      have hexp : (e + 1).toNat = e.toNat + 1 := by omega
      rw [hexp, ← hzeros, List.replicate_succ', ← List.append_assoc] at hfits ⊢
      have hread := @number_point_of_le negative c (ds ++ List.replicate e.toNat '0') hall ['0']
        (fun h => absurd h hc) (by simp) (by simp) hfits
      rw [show (ds.length + e).toNat + 1 - (ds.length + 1) = e.toNat by omega]
      refine hread.trans ?_
      congr 1
      simp
      omega
    · -- the point stands between the digits
      have hexp : (e + 1).toNat = 0 := by omega
      rw [hexp, Nat.pow_zero, Nat.mul_one] at hfits ⊢
      rw [List.take_succ_cons, List.drop_succ_cons]
      have hbefore : ∀ x ∈ c :: ds.take (ds.length + e).toNat, x.isDigit = true :=
        fun x hx => hds x (List.mem_of_mem_take (i := (ds.length + e).toNat + 1) hx)
      have hafter : ∀ x ∈ ds.drop (ds.length + e).toNat, x.isDigit = true :=
        fun x hx => hds x (List.mem_cons_of_mem _ (List.mem_of_mem_drop hx))
      have hall : c :: ds.take (ds.length + e).toNat ++ ds.drop (ds.length + e).toNat = c :: ds := by
        rw [List.cons_append, List.take_append_drop]
      have hread := @number_point_of_le negative c _ hbefore _ (fun h => absurd h hc)
        (by simp; omega) hafter (hall.symm ▸ hfits)
      refine hread.trans ?_
      rw [hall, List.length_drop]
      congr 1
      omega

end Digits

/-- Digits before an exponent that fit the significand are read as the number they spell. -/
theorem number_scientificText_of_le {n : Nat} {e : Int} (hds : Nat.toDigits 10 n = c :: ds)
    (hn : 0 < n) (hfits : n ≤ maxWord) (hlow : -1232 ≤ e) (hneg : e < 0) :
    number negative (Layout.scientificText (c :: ds) (ds.length + e)) =
      scaledNumber negative n e [] := by
  have hhigh : (n : ℚ) * 10 ^ e ≤ Magnitude.headroom.value :=
    calc (n : ℚ) * 10 ^ e ≤ n * 1 := by
          refine mul_le_mul_of_nonneg_left ?_ (Nat.cast_nonneg n)
          exact zpow_le_one_of_nonpos₀ (by norm_num) hneg.le
      _ ≤ maxWord := by rw [mul_one]; exact Nat.cast_le.2 hfits
      _ ≤ Magnitude.headroom.value := Magnitude.maxWord_le_headroom
  have hlater : ∀ x ∈ ds, x.isDigit = true := fun x hx =>
    Text.isDigit_of_toDigits_eq hds x (List.mem_cons_of_mem c hx)
  have hvalue : Nat.ofDigitChars 10 ds (Nat.ofDigitChars 10 [c] 0) = n := by
    rw [← Nat.ofDigitChars_append, List.singleton_append, ← hds]
    exact Text.digitsValue_toDigits n
  have habsorb := Text.absorbDigits_of_le hlater (hvalue ▸ hfits)
  rw [number_scientificText hds hn hlow hhigh rfl, habsorb, hvalue]
  simp

end Token

/-! ## Doubles of few digits -/

namespace FiniteBinary

variable {x : FiniteBinary .double}

/-- The double is written with few digits: those up to the first place after the point count less
than `2 ^ 53`, and there are at most 22 places after the point. -/
def IsShort (x : FiniteBinary .double) : Prop :=
  let d := x.magnitude.shortest Layout.jsonDouble.tie
  d.digits * 10 ^ (d.exponent + 1).toNat < 2 ^ 53 ∧ -22 ≤ d.exponent

instance (x : FiniteBinary .double) : Decidable x.IsShort := inferInstanceAs (Decidable (_ ∧ _))

/-- A whole number with few digits is written without an exponent. -/
theorem isPositional_of_lt {n : Nat} {c : Char} {ds : List Char} {e : Int}
    (hds : Nat.toDigits 10 n = c :: ds) (hn : 0 < n) (he : 0 ≤ e)
    (h : n * 10 ^ (e + 1).toNat < 2 ^ 53) : Layout.jsonDouble.isPositional (ds.length + e) = true := by
  have hpow : 10 ^ (ds.length + (e + 1).toNat) < 10 ^ 16 :=
    calc 10 ^ (ds.length + (e + 1).toNat) ≤ n * 10 ^ (e + 1).toNat := by
          rw [Nat.pow_add]
          exact Nat.mul_le_mul_right _ (Text.pow_le_of_toDigits hds hn)
      _ < 2 ^ 53 := h
      _ < 10 ^ 16 := by decide
  have hlead := (Nat.pow_lt_pow_iff_right (by decide)).1 hpow
  rw [Layout.isPositional, Layout.jsonDouble, Bool.and_eq_true, decide_eq_true_iff,
    decide_eq_true_iff]
  omega

/-- The text of a double of few digits is scaled down from a significand that is exact. -/
theorem number_of_short (hx : x.magnitude.val ≠ 0) (h : x.IsShort) (negative : Bool) :
    ∃ v e, v < 2 ^ 53 ∧ -23 < e ∧ e < 0 ∧
      (Ratio.ofDecimal v e).value = (x.magnitude.shortest Layout.jsonDouble.tie).ratio.value ∧
      Token.number negative (Layout.jsonDouble.magnitudeText x) =
        Token.scaledNumber negative v e [] := by
  obtain ⟨hv, he⟩ := h
  have hn := Nat.pos_of_ne_zero
    (Magnitude.digits_shortest_ne_zero Precision.double.printable hx Layout.jsonDouble.tie)
  rw [Layout.magnitudeText, if_neg hx, Decimal.ratio, Ratio.value_ofDecimal]
  generalize x.magnitude.shortest Layout.jsonDouble.tie = d at hv he hn
  obtain ⟨n, e⟩ := d
  dsimp only at hv he hn
  obtain ⟨c, ds, hds, -, hc⟩ := Text.exists_toDigits_eq_cons hn
  have hall := Text.isDigit_of_toDigits_eq hds
  have hvalue : Text.digitsValue (c :: ds) = n := hds ▸ Text.digitsValue_toDigits n
  refine ⟨n * 10 ^ (e + 1).toNat, min e (-1), hv, by omega, by omega, ?_, ?_⟩
  · rw [Ratio.value_ofDecimal, Nat.cast_mul, Nat.cast_pow, mul_assoc, ← zpow_natCast,
      Nat.cast_ofNat, ← zpow_add₀ (by norm_num)]
    dsimp only
    congr 2
    omega
  · have hfits : Text.digitsValue (c :: ds) * 10 ^ (e + 1).toNat ≤ maxWord := by
      rw [hvalue]
      exact hv.le.trans (by decide)
    have hlead : ((ds.length + 1 : Nat) : Int) - 1 + e = ds.length + e := by omega
    rw [Layout.decimalText]
    dsimp only
    rw [hds, List.length_cons, hlead]
    split
    · rw [← hvalue]
      exact Token.number_positionalText_of_le hall rfl hc hfits
    · next hscientific =>
      have hneg : e < 0 := by
        by_contra! hpos
        exact hscientific (isPositional_of_lt hds hn hpos hv)
      have hexp : (e + 1).toNat = 0 := by omega
      rw [hexp, Nat.pow_zero, Nat.mul_one] at hfits ⊢
      rw [min_eq_left (by omega)]
      rw [hvalue] at hfits
      exact Token.number_scientificText_of_le hds hn hfits (by omega) hneg

/-- Doubles of few digits are found again in their texts. -/
theorem readsBack_of_short (h : x.magnitude.val = 0 ∨ x.IsShort) : x.ReadsBack := by
  obtain ⟨negative, m⟩ := x
  by_cases hm : m.val = 0
  · have hzero : ∀ negative, ReadsBack (p := .double) ⟨negative, ⟨0, by decide⟩⟩ := by
      decide +kernel
    obtain rfl : m = ⟨0, by decide⟩ := Fin.ext hm
    exact hzero negative
  · obtain ⟨v, e, hv, hlow, hneg, hvalue, hread⟩ := number_of_short hm (h.resolve_left hm) negative
    obtain ⟨howns, -⟩ := Magnitude.shortest_spec Precision.double.printable hm Layout.jsonDouble.tie
    have hnear := Magnitude.owns_of_value (Ratio.den_ofDecimal_pos _ _) (Ratio.den_ofDecimal_pos _ _)
      hvalue.symm howns
    rw [Token.scaledNumber, Magnitude.scaleByTen?_of_owns hm hv hlow hneg hnear] at hread
    rw [ReadsBack, Token.float, Token.anyNumber_number]
    exact congrArg (Read.map Precision.double.ofNumber) hread

end FiniteBinary

end SchemaStore
