import Mathlib.Tactic.NormNum.OfScientific
import SchemaStore.Proofs.Binary.Rounding

/-!
# The shortest decimal rounds back

Whatever a magnitude owns rounds to it (`Magnitude.nearest_of_owns`). It owns everything that is less
than half a step away, and the steps of the finest decimal grid that is searched are so small that one
of two neighbours is (`Magnitude.exists_onGrid`). So the search finds a decimal, and that decimal is
nearest to the magnitude it was made from (`Magnitude.shortest_spec`).
-/

namespace SchemaStore

namespace Ratio

variable {r : Ratio}

/-- A ratio at most half away from an integer is rounded to it, an odd one if the ratio is nearer. -/
theorem roundEven_eq (hden : 0 < r.den) {n : Nat} (hlow : (n : ℚ) - 1 / 2 ≤ r.value)
    (hhigh : r.value ≤ n + 1 / 2)
    (hodd : n % 2 = 1 → (n : ℚ) - 1 / 2 < r.value ∧ r.value < n + 1 / 2) : r.roundEven = n := by
  have hden' : (0 : ℚ) < r.den := Nat.cast_pos.2 hden
  obtain ⟨hfloor, hceil⟩ := floor_bounds hden
  have hnext : n < r.num / r.den + 2 := by
    have hcast : (n : ℚ) < (r.num / r.den : Nat) + 2 := by linarith
    exact_mod_cast hcast
  have hlast : r.num / r.den < n + 1 := by
    have hcast : ((r.num / r.den : Nat) : ℚ) < n + 1 := by linarith
    exact_mod_cast hcast
  clear hfloor hceil
  rw [value_eq hden] at hlow hhigh hodd
  have hhalf : ∀ a b : Nat, (a : ℚ) / r.den ≤ b / 2 ↔ 2 * a ≤ b * r.den := fun a b => by
    rw [div_le_div_iff₀ hden' two_pos, mul_comm]
    exact_mod_cast Iff.rfl
  unfold roundEven
  dsimp only
  generalize r.num / r.den = q at hlow hhigh hodd hnext hlast
  generalize r.num % r.den = t at hlow hhigh hodd
  rcases (show q = n ∨ q + 1 = n by omega) with rfl | rfl
  · -- the rest is at most a half
    have hle := (hhalf t 1).1 (by push_cast; linarith)
    have hless : q % 2 = 1 → 2 * t < r.den := fun hq => by
      have hrest : (t : ℚ) / r.den < 1 / 2 := by linarith [(hodd hq).2]
      rw [div_lt_div_iff₀ hden' two_pos, one_mul, mul_comm] at hrest
      exact_mod_cast hrest
    split
    · rfl
    · rw [if_neg (by omega)]
      omega
  · -- the rest is at least a half
    push_cast at hlow hhigh hodd
    have hge : r.den ≤ 2 * t := by
      have hrest : (1 : ℚ) / 2 ≤ t / r.den := by linarith
      rw [div_le_div_iff₀ two_pos hden', one_mul, mul_comm] at hrest
      exact_mod_cast hrest
    have hmore : (q + 1) % 2 = 1 → r.den < 2 * t := fun hq => by
      have hrest : (1 : ℚ) / 2 < t / r.den := by linarith [(hodd hq).1]
      rw [div_lt_div_iff₀ two_pos hden', one_mul, mul_comm] at hrest
      exact_mod_cast hrest
    rw [if_neg (by omega)]
    split
    · rfl
    · omega

/-! ## The leading power of ten -/

theorem pow_log10From_le (hden : 0 < r.den) (n : Nat) {x : Int} (h : (10 : ℚ) ^ x ≤ r.value) :
    (10 : ℚ) ^ r.log10From n x ≤ r.value := by
  induction n generalizing x with
  | zero => exact h
  | succ n ih =>
    rw [log10From]
    split
    · next hle =>
      rw [le_iff (den_ofDecimal_pos _ _) hden, value_ofDecimal, Nat.cast_one, one_mul] at hle
      exact ih hle
    · exact h

theorem zpow_anti_left {a b : ℚ} (ha : 0 < a) (h : a ≤ b) {e : Int} (he : e ≤ 0) :
    b ^ e ≤ a ^ e := by
  have hinv := inv_anti₀ (zpow_pos ha (-e)) (zpow_le_zpow_left₀ (neg_nonneg.2 he) ha.le h)
  rwa [zpow_neg, zpow_neg, inv_inv, inv_inv] at hinv

/-- The exponent of a power of two, taken to powers of ten, is estimated from below. -/
theorem pow_estimate_le {b : Int} (hlow : -20000 ≤ b) (hhigh : b ≤ 20000) :
    (10 : ℚ) ^ ((b * 30103).fdiv 100000 - 1) ≤ 2 ^ b := by
  rw [Int.fdiv_eq_ediv_of_nonneg _ (by decide)]
  generalize hk : b * 30103 / 100000 - 1 = k
  -- it is enough that a high power of the one is at most the same power of the other
  have hroot : ∀ n : Nat, n ≠ 0 → (10 : ℚ) ^ (k * n) ≤ 2 ^ (b * n) → (10 : ℚ) ^ k ≤ 2 ^ b := by
    intro n hn h
    rw [zpow_mul, zpow_mul, zpow_natCast, zpow_natCast] at h
    exact le_of_pow_le_pow_left₀ hn (by positivity) h
  rcases le_or_gt 0 b with hb | hb
  · refine hroot 196 (by decide) ?_
    have hsmaller : (10 : ℚ) ^ 59 ≤ 2 ^ 196 := by norm_num
    calc (10 : ℚ) ^ (k * (196 : Nat)) ≤ 10 ^ ((59 : Nat) * b) :=
          zpow_le_zpow_right₀ (by norm_num) (by push_cast; omega)
      _ = (10 ^ 59) ^ b := by rw [zpow_mul, zpow_natCast]
      _ ≤ (2 ^ 196) ^ b := zpow_le_zpow_left₀ hb (by positivity) hsmaller
      _ = 2 ^ (b * (196 : Nat)) := by rw [mul_comm b, zpow_mul, zpow_natCast]
  · refine hroot 93 (by decide) ?_
    have hgreater : (2 : ℚ) ^ 93 ≤ 10 ^ 28 := by norm_num
    calc (10 : ℚ) ^ (k * (93 : Nat)) ≤ 10 ^ ((28 : Nat) * b) :=
          zpow_le_zpow_right₀ (by norm_num) (by push_cast; omega)
      _ = (10 ^ 28) ^ b := by rw [zpow_mul, zpow_natCast]
      _ ≤ (2 ^ 93) ^ b := zpow_anti_left (by positivity) hgreater hb.le
      _ = 2 ^ (b * (93 : Nat)) := by rw [mul_comm b, zpow_mul, zpow_natCast]

/-- A power of ten with the exponent that was found is no greater than the ratio. -/
theorem pow_log10_le (hnum : 0 < r.num) (hden : 0 < r.den) (hlow : -20000 ≤ r.log2)
    (hhigh : r.log2 ≤ 20000) : (10 : ℚ) ^ r.log10 ≤ r.value :=
  pow_log10From_le hden 3 ((pow_estimate_le hlow hhigh).trans (log2_spec hnum hden).1)

end Ratio

namespace Format

variable {r : Ratio}

theorem pow_add_fractionBits (f : Format) (e : Int) :
    (2 : ℚ) ^ (e + f.fractionBits) = f.binade * 2 ^ e := by
  rw [zpow_add₀ two_ne_zero, zpow_natCast, cast_binade, mul_comm]

/-- The grid is that of an exponent if the ratio lies in its range, below which the least one is. -/
theorem gridExponent_eq (f : Format) (hnum : 0 < r.num) (hden : 0 < r.den) {e : Int}
    (hleast : f.leastExponent ≤ e) (hlow : e = f.leastExponent ∨ 2 ^ (e + f.fractionBits) ≤ r.value)
    (hhigh : r.value < 2 ^ (e + f.fractionBits + 1)) : f.gridExponent r = e := by
  have htwo : (1 : ℚ) < 2 := by norm_num
  apply le_antisymm
  · by_contra! hlt
    have hpow := (pow_gridExponent_le_value f hnum hden (hleast.trans_lt hlt)).trans_lt hhigh
    have hexp := (zpow_lt_zpow_iff_right₀ htwo).1 hpow
    omega
  · rcases hlow with rfl | hlow
    · exact f.leastExponent_le_gridExponent r
    · have hpow := hlow.trans_lt (value_lt_pow_gridExponent f hnum hden)
      have hexp := (zpow_lt_zpow_iff_right₀ htwo).1 hpow
      omega

/-- On its grid a ratio is rounded to a point that is at most half a step away. -/
theorem gridCode_eq (f : Format) (hden : 0 < r.den) {e : Int} (he : f.gridExponent r = e) {n : Nat}
    (hlow : ((n : ℚ) - 1 / 2) * 2 ^ e ≤ r.value) (hhigh : r.value ≤ (n + 1 / 2) * 2 ^ e)
    (hodd : n % 2 = 1 → ((n : ℚ) - 1 / 2) * 2 ^ e < r.value ∧ r.value < (n + 1 / 2) * 2 ^ e) :
    f.gridCode r = n + (e - f.leastExponent).toNat * f.binade := by
  have hpow : (0 : ℚ) < 2 ^ e := by positivity
  rw [gridCode, he, Ratio.roundEven_eq (den_onGrid_pos hden e)]
  · rwa [value_onGrid, le_div_iff₀ hpow]
  · rwa [value_onGrid, div_le_iff₀ hpow]
  · rwa [value_onGrid, lt_div_iff₀ hpow, div_lt_iff₀ hpow]

end Format

namespace Magnitude

variable {f : Format} {m : Magnitude f} {r : Ratio}

/-! ## Codes and significands -/

theorem val_eq (m : Magnitude f) :
    m.val = m.scaled.1 + (m.scaled.2 - f.leastExponent).toNat * f.binade := by
  rcases lt_or_ge m.val f.binade with hlow | hhigh
  · rw [scaled_of_lt hlow]
    simp
  · obtain ⟨a, t, ht, hval⟩ := exists_steps hhigh
    rw [scaled_of_eq hval ht, hval]
    simp only [add_sub_cancel_left, Int.toNat_natCast]
    ring

theorem scaled_lt (m : Magnitude f) : m.scaled.1 < 2 * f.binade := by
  have hpos := f.binade_pos
  rcases lt_or_ge m.val f.binade with hlow | hhigh
  · rw [scaled_of_lt hlow]
    dsimp only
    omega
  · obtain ⟨a, t, ht, hval⟩ := exists_steps hhigh
    rw [scaled_of_eq hval ht]
    dsimp only
    omega

/-- Above the least exponent the significand is full. -/
theorem binade_le_scaled (h : m.scaled.2 ≠ f.leastExponent) : f.binade ≤ m.scaled.1 := by
  rcases lt_or_ge m.val f.binade with hlow | hhigh
  · rw [scaled_of_lt hlow] at h
    exact absurd rfl h
  · obtain ⟨a, t, ht, hval⟩ := exists_steps hhigh
    rw [scaled_of_eq hval ht]
    exact Nat.le_add_right _ _

/-- In a format with a stored bit, a code is odd if its significand is. -/
theorem val_mod_two (hf : f.binade % 2 = 0) (m : Magnitude f) : m.val % 2 = m.scaled.1 % 2 := by
  rw [m.val_eq, Nat.add_mod, Nat.mul_mod, hf]
  simp

/-! ## The interval of a magnitude -/

/-- The step below the magnitude is half the step above it. -/
def IsFirst (m : Magnitude f) : Prop := m.scaled.1 = f.binade ∧ f.leastExponent < m.scaled.2

theorem interval_low_of_first (h : m.IsFirst) :
    m.interval.1.value = (m.scaled.1 - 1 / 4) * 2 ^ m.scaled.2 := by
  have hpos : 1 ≤ 4 * m.scaled.1 := by
    have hbinade := f.binade_pos
    rw [h.1]
    omega
  have hlow : m.interval.1 = Ratio.ofScaled (4 * m.scaled.1 - 1) (m.scaled.2 - 2) := by
    exact congrArg Prod.fst (if_pos h)
  rw [hlow, Ratio.value_ofScaled, Nat.cast_sub hpos, zpow_sub₀ two_ne_zero]
  push_cast
  ring

theorem interval_low_of_not_first (hm : m.val ≠ 0) (h : ¬ m.IsFirst) :
    m.interval.1.value = (m.scaled.1 - 1 / 2) * 2 ^ m.scaled.2 := by
  have hpos : 1 ≤ 2 * m.scaled.1 := by
    have hscaled := scaled_pos hm
    omega
  have hlow : m.interval.1 = Ratio.ofScaled (2 * m.scaled.1 - 1) (m.scaled.2 - 1) := by
    exact congrArg Prod.fst (if_neg h)
  rw [hlow, Ratio.value_ofScaled, Nat.cast_sub hpos, zpow_sub₀ two_ne_zero]
  push_cast
  ring

theorem owns_of_value {s : Ratio} (hr : 0 < r.den) (hs : 0 < s.den) (h : r.value = s.value)
    (howns : m.owns r = true) : m.owns s = true := by
  rw [owns_iff hr, h] at howns
  exact (owns_iff hs).2 howns

/-! ## Rounding into the interval -/

section Owns

variable (hm : m.val ≠ 0) (hden : 0 < r.den) (h : m.owns r = true)

include hm hden h

theorem num_pos_of_owns : 0 < r.num := by
  have hpos : 0 < m.interval.1.value :=
    div_pos (Nat.cast_pos.2 (interval_pos hm)) (Nat.cast_pos.2 m.den_interval_pos.1)
  exact Ratio.num_pos hden (hpos.trans_le ((owns_iff hden).1 h).1.1)

/-- What is owned below the first magnitude of its exponent is rounded on the finer grid of the step
below, to the end of that grid. -/
theorem gridCode_of_below (hfirst : m.IsFirst) (hless : r.value < m.value) :
    f.gridCode r = m.val := by
  have hnum := num_pos_of_owns hm hden h
  obtain ⟨⟨hlow, -⟩, -⟩ := (owns_iff hden).1 h
  obtain ⟨hs, he⟩ := id hfirst
  have hhalf : (2 : ℚ) ^ m.scaled.2 = 2 * 2 ^ (m.scaled.2 - 1) := by
    rw [zpow_sub_one₀ two_ne_zero]
    ring
  have hpow : (0 : ℚ) < 2 ^ (m.scaled.2 - 1) := by positivity
  have hbinade : (1 : ℚ) ≤ f.binade := by exact_mod_cast f.binade_pos
  rw [interval_low_of_first hfirst, hs, hhalf] at hlow
  rw [value_eq, hs, hhalf] at hless
  have hexp : f.gridExponent r = m.scaled.2 - 1 := by
    refine f.gridExponent_eq hnum hden (by omega) (.inr ?_) ?_
    · rw [f.pow_add_fractionBits]
      nlinarith
    · rw [zpow_add_one₀ two_ne_zero, f.pow_add_fractionBits]
      linarith
  have hcode : f.gridCode r =
      2 * f.binade + (m.scaled.2 - 1 - f.leastExponent).toNat * f.binade :=
    f.gridCode_eq hden hexp (by push_cast; linarith) (by push_cast; linarith) (by omega)
  have hsteps : (m.scaled.2 - f.leastExponent).toNat =
      (m.scaled.2 - 1 - f.leastExponent).toNat + 1 := by omega
  rw [hcode, m.val_eq, hs, hsteps]
  ring

/-- Everything else that is owned is at most half a step below, and the significand stays full. -/
theorem low_of_not_below (hf : f.binade % 2 = 0) (hbelow : ¬ (m.IsFirst ∧ r.value < m.value)) :
    (m.scaled.1 - 1 / 2) * 2 ^ m.scaled.2 ≤ r.value ∧
      (m.scaled.1 % 2 = 1 → (m.scaled.1 - 1 / 2) * 2 ^ m.scaled.2 < r.value) ∧
      (m.scaled.2 ≠ f.leastExponent → f.binade * 2 ^ m.scaled.2 ≤ r.value) := by
  obtain ⟨⟨hlow, -⟩, hodd⟩ := (owns_iff hden).1 h
  rw [val_mod_two hf] at hodd
  have hpow : (0 : ℚ) < 2 ^ m.scaled.2 := by positivity
  by_cases hfirst : m.IsFirst
  · have hge : m.scaled.1 * 2 ^ m.scaled.2 ≤ r.value := by
      rw [← value_eq]
      exact not_lt.1 fun hless => hbelow ⟨hfirst, hless⟩
    have hgt : (m.scaled.1 - 1 / 2) * 2 ^ m.scaled.2 < r.value := by linarith
    exact ⟨hgt.le, fun _ => hgt, fun _ => by rwa [← hfirst.1]⟩
  · rw [interval_low_of_not_first hm hfirst] at hlow hodd
    refine ⟨hlow, fun hs => (hodd hs).1, fun he => ?_⟩
    have hlt : f.binade + 1 ≤ m.scaled.1 := (binade_le_scaled he).lt_of_ne fun heq =>
      hfirst ⟨heq.symm, m.leastExponent_le_scaled.lt_of_ne he.symm⟩
    have hcast : (f.binade : ℚ) + 1 ≤ m.scaled.1 := by exact_mod_cast hlt
    nlinarith

theorem gridCode_of_owns (hf : f.binade % 2 = 0) : f.gridCode r = m.val := by
  by_cases hbelow : m.IsFirst ∧ r.value < m.value
  · exact gridCode_of_below hm hden h hbelow.1 hbelow.2
  · obtain ⟨hlow, hstrict, hfull⟩ := low_of_not_below hm hden h hf hbelow
    obtain ⟨⟨-, hhigh⟩, hodd⟩ := (owns_iff hden).1 h
    rw [val_mod_two hf] at hodd
    rw [interval_high] at hhigh hodd
    have hpow : (0 : ℚ) < 2 ^ m.scaled.2 := by positivity
    have hsignificand : (m.scaled.1 : ℚ) + 1 ≤ 2 * f.binade := by exact_mod_cast m.scaled_lt
    have hexp : f.gridExponent r = m.scaled.2 := by
      refine f.gridExponent_eq (num_pos_of_owns hm hden h) hden m.leastExponent_le_scaled ?_ ?_
      · rw [f.pow_add_fractionBits]
        exact (em _).imp_right hfull
      · rw [zpow_add_one₀ two_ne_zero, f.pow_add_fractionBits]
        nlinarith
    rw [f.gridCode_eq hden hexp hlow hhigh fun hs => ⟨hstrict hs, (hodd hs).2⟩, m.val_eq]

/-- Whatever a magnitude owns rounds to it. -/
theorem nearest_of_owns (hf : f.binade % 2 = 0) : f.nearest r = m.val := by
  rw [Format.nearest_eq f (num_pos_of_owns hm hden h), gridCode_of_owns hm hden h hf]
  exact min_eq_left m.isLt.le

end Owns

/-! ## Neighbours on a decimal grid -/

theorem owns_of_ge (hm : m.val ≠ 0) (hden : 0 < r.den) (hge : m.value ≤ r.value)
    (hlt : r.value < (m.scaled.1 + 1 / 2) * 2 ^ m.scaled.2) : m.owns r = true := by
  have hpow : (0 : ℚ) < 2 ^ m.scaled.2 := by positivity
  rw [value_eq] at hge
  have hlow : m.interval.1.value < r.value := by
    by_cases hfirst : m.IsFirst
    · rw [interval_low_of_first hfirst]
      linarith
    · rw [interval_low_of_not_first hm hfirst]
      linarith
  rw [← interval_high] at hlt
  exact (owns_iff hden).2 ⟨⟨hlow.le, hlt.le⟩, fun _ => ⟨hlow, hlt⟩⟩

theorem owns_of_le (hm : m.val ≠ 0) (hfirst : ¬ m.IsFirst) (hden : 0 < r.den)
    (hle : r.value ≤ m.value) (hgt : (m.scaled.1 - 1 / 2) * 2 ^ m.scaled.2 < r.value) :
    m.owns r = true := by
  have hpow : (0 : ℚ) < 2 ^ m.scaled.2 := by positivity
  rw [value_eq] at hle
  have hhigh : r.value < m.interval.2.value := by
    rw [interval_high]
    linarith
  rw [← interval_low_of_not_first hm hfirst] at hgt
  exact (owns_iff hden).2 ⟨⟨hgt.le, hhigh.le⟩, fun _ => ⟨hgt, hhigh⟩⟩

/-- On a grid with steps under a binary step, or half of it where the step below is a half, there is
a decimal that the magnitude owns. -/
theorem exists_onGrid (tie : Tie) (hm : m.val ≠ 0) {g : Int} (hstep : (10 : ℚ) ^ g < 2 ^ m.scaled.2)
    (hfirst : m.IsFirst → 2 * (10 : ℚ) ^ g < 2 ^ m.scaled.2) : ∃ d, m.onGrid tie g = some d := by
  have hpow : (0 : ℚ) < 10 ^ g := by positivity
  have hden : 0 < (m.ratio.mul (Ratio.ofDecimal 1 (-g))).den :=
    Nat.mul_pos m.den_ratio_pos (Ratio.den_ofDecimal_pos _ _)
  have hvalue : m.value = (m.ratio.mul (Ratio.ofDecimal 1 (-g))).value * 10 ^ g := by
    rw [Ratio.value_mul, Ratio.value_ofDecimal, Nat.cast_one, one_mul, mul_assoc,
      ← zpow_add₀ (by norm_num), neg_add_cancel, zpow_zero, mul_one]
    rfl
  obtain ⟨hbelow, habove⟩ := Ratio.floor_bounds hden
  unfold onGrid
  dsimp only
  generalize m.ratio.mul (Ratio.ofDecimal 1 (-g)) = scaled at hvalue hbelow habove
  have hb := mul_le_mul_of_nonneg_right hbelow hpow.le
  have ha := mul_lt_mul_of_pos_right habove hpow
  rw [← hvalue] at hb ha
  have hvb : (Ratio.ofDecimal (scaled.num / scaled.den) g).value =
    (scaled.num / scaled.den : Nat) * 10 ^ g := Ratio.value_ofDecimal _ _
  have hva : (Ratio.ofDecimal (scaled.num / scaled.den + 1) g).value =
      ((scaled.num / scaled.den : Nat) + 1) * 10 ^ g := by
    rw [Ratio.value_ofDecimal]
    push_cast
    rfl
  have howns : m.owns (Ratio.ofDecimal (scaled.num / scaled.den) g) = true ∨
      m.owns (Ratio.ofDecimal (scaled.num / scaled.den + 1) g) = true := by
    by_cases hhalf : (Ratio.ofDecimal (scaled.num / scaled.den + 1) g).value <
        (m.scaled.1 + 1 / 2) * 2 ^ m.scaled.2
    · exact .inr (owns_of_ge hm (Ratio.den_ofDecimal_pos _ _) (hva ▸ ha.le) hhalf)
    · -- the neighbour above is too far away, so the one below is near
      have hvm := m.value_eq
      have hnot : ¬ m.IsFirst := fun h => hhalf (by have := hfirst h; linarith)
      exact .inl (owns_of_le hm hnot (Ratio.den_ofDecimal_pos _ _) (hvb ▸ hb) (by linarith))
  split
  · exact ⟨_, rfl⟩
  · exact ⟨_, rfl⟩
  · exact ⟨_, rfl⟩
  · next hno hno' =>
    rw [hno, hno'] at howns
    simp at howns

/-! ## The range of a format -/

/-- Whatever a magnitude owns is at least half the least positive magnitude, and no greater than the
exponent of the format allows. -/
theorem range_of_owns (hm : m.val ≠ 0) (hden : 0 < r.den) (h : m.owns r = true) :
    (2 : ℚ) ^ (f.leastExponent - 1) ≤ r.value ∧
      r.value < 2 ^ (f.leastExponent + (Nat.pow 2 f.exponentBits : Nat) + f.fractionBits + 1) := by
  obtain ⟨⟨hlow, hhigh⟩, -⟩ := (owns_iff hden).1 h
  have hone : (1 : ℚ) ≤ m.scaled.1 := by exact_mod_cast scaled_pos hm
  have htwo : (1 : ℚ) ≤ 2 := by norm_num
  have hpow : (0 : ℚ) < 2 ^ m.scaled.2 := by positivity
  constructor
  · have hhalf : (2 : ℚ) ^ (m.scaled.2 - 1) ≤ m.interval.1.value := by
      rw [zpow_sub_one₀ two_ne_zero]
      by_cases hfirst : m.IsFirst
      · rw [interval_low_of_first hfirst]
        nlinarith
      · rw [interval_low_of_not_first hm hfirst]
        nlinarith
    have hleast := m.leastExponent_le_scaled
    exact (zpow_le_zpow_right₀ htwo (by omega)).trans (hhalf.trans hlow)
  · have hexponent : m.scaled.2 - f.leastExponent ≤ (Nat.pow 2 f.exponentBits : Nat) := by
      have hsteps : (m.scaled.2 - f.leastExponent).toNat * f.binade ≤
          Nat.pow 2 f.exponentBits * f.binade := by
        have hval := m.val_eq
        have hlt : m.val < (Nat.pow 2 f.exponentBits - 1) * f.binade := m.isLt
        rw [Nat.sub_mul] at hlt
        omega
      have hle := Nat.le_of_mul_le_mul_right hsteps f.binade_pos
      omega
    have hsignificand : (m.scaled.1 : ℚ) + 1 ≤ 2 * f.binade := by exact_mod_cast m.scaled_lt
    have hfull : m.interval.2.value < 2 ^ (m.scaled.2 + f.fractionBits + 1) := by
      rw [interval_high, zpow_add_one₀ two_ne_zero, f.pow_add_fractionBits]
      nlinarith
    exact hhigh.trans_lt (hfull.trans_le (zpow_le_zpow_right₀ htwo (by omega)))

theorem owns_ratio (hm : m.val ≠ 0) : m.owns m.ratio = true := by
  refine owns_of_ge hm m.den_ratio_pos le_rfl ?_
  have hpow : (0 : ℚ) < 2 ^ m.scaled.2 := by positivity
  rw [← value, value_eq]
  linarith

end Magnitude

/-- What the search for shortest decimals needs of a format: significands have a stored bit and are
less than what the digits of the finest grid count, and the exponents are within the reach of the
estimate of a logarithm. -/
structure Format.Printable (f : Format) : Prop where
  even : f.binade % 2 = 0
  digits : 2 * f.binade < 10 ^ (f.digitLimit - 1)
  reach : Nat.pow 2 f.exponentBits ≤ 20000
  low : -(Nat.pow 2 f.exponentBits : Nat) < f.leastExponent
  high : f.leastExponent + f.fractionBits + 1 < 0

theorem Precision.printable : ∀ p : Precision, p.format.Printable
  | .single => ⟨by decide, by decide, by decide, by decide, by decide⟩
  | .double => ⟨by decide +kernel, by decide +kernel, by decide, by decide, by decide⟩

namespace Magnitude

variable {f : Format} {m : Magnitude f} (hf : f.Printable) (hm : m.val ≠ 0)

include hf hm

theorem pow_log10_le : (10 : ℚ) ^ m.ratio.log10 ≤ m.value := by
  have hnum : 0 < m.ratio.num := Ratio.num_ofScaled_pos (scaled_pos hm) _
  obtain ⟨hlow, hhigh⟩ := range_of_owns hm m.den_ratio_pos (owns_ratio hm)
  obtain ⟨hpow, hnext⟩ := Ratio.log2_spec hnum m.den_ratio_pos
  have htwo : (1 : ℚ) < 2 := by norm_num
  have hleast := (zpow_lt_zpow_iff_right₀ htwo).1 (hlow.trans_lt hnext)
  have hgreatest := (zpow_lt_zpow_iff_right₀ htwo).1 (hpow.trans_lt hhigh)
  have := hf.reach
  have := hf.low
  have := hf.high
  exact Ratio.pow_log10_le hnum m.den_ratio_pos (by omega) (by omega)

theorem exists_onGrid_last (tie : Tie) :
    ∃ d, m.onGrid tie (m.ratio.log10 - (f.digitLimit - 1 : Nat)) = some d := by
  have hlead := pow_log10_le hf hm
  have hpow : (0 : ℚ) < 2 ^ m.scaled.2 := by positivity
  have hdigits : (2 : ℚ) * f.binade < 10 ^ (f.digitLimit - 1) := by exact_mod_cast hf.digits
  rw [← sub_add_cancel m.ratio.log10 ((f.digitLimit - 1 : Nat) : Int), zpow_add₀ (by norm_num),
    zpow_natCast, value_eq] at hlead
  -- as many steps as the digits count fit into the magnitude
  have hstep : ∀ c : ℚ, 0 < c → c * m.scaled.1 < 10 ^ (f.digitLimit - 1) →
      c * 10 ^ (m.ratio.log10 - (f.digitLimit - 1 : Nat)) < 2 ^ m.scaled.2 := by
    intro c hc hless
    refine lt_of_mul_lt_mul_right ?_ (by positivity : (0 : ℚ) ≤ 10 ^ (f.digitLimit - 1))
    calc c * 10 ^ (m.ratio.log10 - (f.digitLimit - 1 : Nat)) * 10 ^ (f.digitLimit - 1)
        ≤ c * (m.scaled.1 * 2 ^ m.scaled.2) := by
          rw [mul_assoc]
          exact mul_le_mul_of_nonneg_left hlead hc.le
      _ = c * m.scaled.1 * 2 ^ m.scaled.2 := (mul_assoc _ _ _).symm
      _ < 10 ^ (f.digitLimit - 1) * 2 ^ m.scaled.2 := mul_lt_mul_of_pos_right hless hpow
      _ = 2 ^ m.scaled.2 * 10 ^ (f.digitLimit - 1) := mul_comm _ _
  have hsignificand : (m.scaled.1 : ℚ) < 2 * f.binade := by exact_mod_cast m.scaled_lt
  refine exists_onGrid tie hm ?_ fun hfirst => hstep 2 two_pos ?_
  · rw [← one_mul (10 ^ _)]
    exact hstep 1 one_pos (by rw [one_mul]; exact hsignificand.trans hdigits)
  · rwa [hfirst.1]

/-- The shortest decimal of a positive magnitude is one that the magnitude owns. It comes from one of
the grids that are searched. -/
theorem shortest_spec (tie : Tie) : m.owns (m.shortest tie).ratio = true ∧
    m.ratio.log10 - f.digitLimit ≤ (m.shortest tie).exponent := by
  obtain ⟨d, hd⟩ := exists_onGrid_last hf hm tie
  have hlimit : f.digitLimit - 1 < f.digitLimit := Nat.sub_one_lt (by simp [Format.digitLimit])
  rcases shortest_cases tie m with ⟨-, hnone⟩ | ⟨n, hn, e, he, hshortest⟩
  · rw [hnone _ hlimit] at hd
    cases hd
  · obtain ⟨howns, hexponent⟩ := owns_of_onGrid he
    have htrim := exponent_le_trim f.digitLimit e
    rw [hshortest]
    exact ⟨owns_of_value (Ratio.den_ofDecimal_pos _ _) (Ratio.den_ofDecimal_pos _ _)
      (value_trim _ e).symm howns, by omega⟩

theorem digits_shortest_ne_zero (tie : Tie) : (m.shortest tie).digits ≠ 0 := by
  intro hzero
  have howns := (shortest_spec hf hm tie).1
  rw [Decimal.ratio, hzero, owns_zero hm] at howns
  cases howns

end Magnitude

end SchemaStore
