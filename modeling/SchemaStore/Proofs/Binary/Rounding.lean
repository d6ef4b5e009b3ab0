import Mathlib.Algebra.Order.Field.Basic
import Mathlib.Algebra.Order.Field.Power
import Mathlib.Tactic.FieldSimp
import Mathlib.Tactic.Linarith
import Mathlib.Tactic.Ring
import SchemaStore.Proofs.Binary.Shortest

/-!
# Rounding is monotone

The rational a ratio stands for is its `Ratio.value`. Of two ratios the greater one has no smaller
nearest magnitude (`Format.nearest_mono`), and magnitudes ascend with their codes in steps of one
unit in the last place (`Magnitude.value_succ`). So whatever rounds to a magnitude is at most the
next one (`Magnitude.value_le_of_owns`).
-/

namespace SchemaStore

namespace Ratio

/-- The rational that a ratio stands for. -/
def value (r : Ratio) : ℚ := r.num / r.den

variable {r s : Ratio}

/-- A ratio that is scaled by a power has it in the numerator or, if the exponent is negative, in
the denominator. -/
theorem value_scaled (b n : Nat) (e : Int) :
    (if 0 ≤ e then (⟨n * Nat.pow b e.toNat, 1⟩ : Ratio) else ⟨n, Nat.pow b (-e).toNat⟩).value =
      n * (b : ℚ) ^ e := by
  unfold value
  split
  · next h =>
    obtain ⟨k, rfl⟩ := Int.eq_ofNat_of_zero_le h
    simp
  · next h =>
    obtain ⟨k, hk⟩ := Int.eq_ofNat_of_zero_le (show 0 ≤ -e by omega)
    obtain rfl : e = -k := by omega
    simp [div_eq_mul_inv]

theorem value_ofScaled (n : Nat) (e : Int) : (ofScaled n e).value = n * 2 ^ e :=
  value_scaled 2 n e

theorem value_ofDecimal (n : Nat) (e : Int) : (ofDecimal n e).value = n * 10 ^ e :=
  value_scaled 10 n e

theorem den_ofScaled_pos (n : Nat) (e : Int) : 0 < (ofScaled n e).den := by
  unfold ofScaled
  split
  · exact Nat.one_pos
  · exact Nat.pow_pos (by decide)

@[simp]
theorem value_mul (r s : Ratio) : (r.mul s).value = r.value * s.value := by
  simp [value, mul, div_mul_div_comm]

@[simp]
theorem value_div (r s : Ratio) : (r.div s).value = r.value / s.value := by
  simp [value, div, div_div_div_eq]

theorem value_nonneg (r : Ratio) : 0 ≤ r.value := div_nonneg (Nat.cast_nonneg _) (Nat.cast_nonneg _)

theorem num_pos (hden : 0 < r.den) (h : 0 < r.value) : 0 < r.num := by
  rw [value, div_pos_iff_of_pos_right (Nat.cast_pos.2 hden)] at h
  exact Nat.cast_pos.1 h

theorem le_iff (hr : 0 < r.den) (hs : 0 < s.den) : r.le s = true ↔ r.value ≤ s.value := by
  have hr' : (0 : ℚ) < r.den := Nat.cast_pos.2 hr
  have hs' : (0 : ℚ) < s.den := Nat.cast_pos.2 hs
  rw [le, decide_eq_true_iff, value, value, div_le_div_iff₀ hr' hs']
  exact_mod_cast Iff.rfl

theorem lt_iff (hr : 0 < r.den) (hs : 0 < s.den) : r.lt s = true ↔ r.value < s.value := by
  have hr' : (0 : ℚ) < r.den := Nat.cast_pos.2 hr
  have hs' : (0 : ℚ) < s.den := Nat.cast_pos.2 hs
  rw [lt, decide_eq_true_iff, value, value, div_lt_div_iff₀ hr' hs']
  exact_mod_cast Iff.rfl

/-! ## The leading power of two -/

section Log

variable (hnum : 0 < r.num) (hden : 0 < r.den)

include hnum hden

/-- The lengths of numerator and denominator fix the leading power of two up to one step. -/
theorem value_bounds : (2 : ℚ) ^ ((r.num.log2 : Int) - r.den.log2 - 1) < r.value ∧
    r.value < 2 ^ ((r.num.log2 : Int) - r.den.log2 + 1) := by
  have htwo : (2 : ℚ) ≠ 0 := by norm_num
  have hnumlow : (2 : ℚ) ^ r.num.log2 ≤ r.num := by exact_mod_cast Nat.log2_self_le hnum.ne'
  have hnumhigh : (r.num : ℚ) < 2 ^ (r.num.log2 + 1) := by exact_mod_cast Nat.lt_log2_self
  have hdenlow : (2 : ℚ) ^ r.den.log2 ≤ r.den := by exact_mod_cast Nat.log2_self_le hden.ne'
  have hdenhigh : (r.den : ℚ) < 2 ^ (r.den.log2 + 1) := by exact_mod_cast Nat.lt_log2_self
  have hden' : (0 : ℚ) < r.den := Nat.cast_pos.2 hden
  constructor
  · rw [value, lt_div_iff₀ hden', sub_sub, ← Nat.cast_succ, zpow_sub₀ htwo, zpow_natCast,
      zpow_natCast, div_mul_eq_mul_div, div_lt_iff₀ (by positivity)]
    exact mul_lt_mul' hnumlow hdenhigh hden'.le (by positivity)
  · rw [value, div_lt_iff₀ hden', sub_add_eq_add_sub, ← Nat.cast_succ, zpow_sub₀ htwo, zpow_natCast,
      zpow_natCast, div_mul_eq_mul_div, lt_div_iff₀ (by positivity)]
    exact mul_lt_mul hnumhigh hdenlow (by positivity) (by positivity)

/-- The leading power of two is the greatest that does not exceed the ratio. -/
theorem log2_spec : (2 : ℚ) ^ r.log2 ≤ r.value ∧ r.value < 2 ^ (r.log2 + 1) := by
  obtain ⟨hlow, hhigh⟩ := value_bounds hnum hden
  have hle := @le_iff (ofScaled 1 ((r.num.log2 : Int) - r.den.log2)) r (den_ofScaled_pos _ _) hden
  rw [value_ofScaled, Nat.cast_one, one_mul] at hle
  unfold log2
  dsimp only
  split
  · next h => exact ⟨hle.1 h, hhigh⟩
  · next h =>
    rw [sub_add_cancel]
    exact ⟨hlow.le, not_le.1 fun hge => h (hle.2 hge)⟩

end Log

/-! ## The nearest integer -/

theorem value_eq (hden : 0 < r.den) :
    r.value = (r.num / r.den : Nat) + (r.num % r.den : Nat) / (r.den : ℚ) := by
  have hden' : (r.den : ℚ) ≠ 0 := Nat.cast_ne_zero.2 hden.ne'
  rw [value, eq_comm, add_div_eq_mul_add_div _ _ hden', mul_comm]
  congr 1
  exact_mod_cast Nat.div_add_mod r.num r.den

theorem rest_lt_one (hden : 0 < r.den) : (r.num % r.den : Nat) / (r.den : ℚ) < 1 := by
  rw [div_lt_one (Nat.cast_pos.2 hden)]
  exact_mod_cast Nat.mod_lt _ hden

theorem floor_bounds (hden : 0 < r.den) :
    ((r.num / r.den : Nat) : ℚ) ≤ r.value ∧ r.value < (r.num / r.den : Nat) + 1 := by
  have hlt := rest_lt_one hden
  have hnonneg : (0 : ℚ) ≤ (r.num % r.den : Nat) / (r.den : ℚ) :=
    div_nonneg (Nat.cast_nonneg _) (Nat.cast_nonneg _)
  rw [value_eq hden]
  exact ⟨by linarith, by linarith⟩

/-- Rounding moves at most to the next integer. -/
theorem roundEven_bounds (r : Ratio) : r.num / r.den ≤ r.roundEven ∧ r.roundEven ≤ r.num / r.den + 1 := by
  unfold roundEven
  dsimp only
  split
  · omega
  · split <;> omega

/-- Between the same two integers the rests decide. -/
theorem roundEven_mono_of_rest (hr : 0 < r.den) (hs : 0 < s.den)
    (hfloor : r.num / r.den = s.num / s.den)
    (hrest : r.num % r.den * s.den ≤ s.num % s.den * r.den) : r.roundEven ≤ s.roundEven := by
  -- a rest is below, at or above a half, and the other rest is then not before it
  have hhalf : s.den ≤ 2 * (s.num % s.den) ∨ 2 * (r.num % r.den) < r.den := by
    by_contra! h
    have hless := Nat.mul_lt_mul_of_pos_right h.1 hr
    have hmore := Nat.mul_le_mul_right s.den h.2
    nlinarith
  have hover : s.den < 2 * (s.num % s.den) ∨ 2 * (r.num % r.den) ≤ r.den := by
    by_contra! h
    have hless := Nat.mul_le_mul_right r.den h.1
    have hmore := Nat.mul_lt_mul_of_pos_right h.2 hs
    nlinarith
  unfold roundEven
  dsimp only
  rw [hfloor]
  split
  · exact (roundEven_bounds s).1
  · next hr =>
    rw [if_neg (not_lt.2 (hhalf.resolve_right hr))]
    split
    · next hr =>
      rw [if_pos (hover.resolve_right (not_le.2 hr))]
    · split <;> omega

/-- Rounding to an integer keeps the order: ratios with the same integer part are compared by their
rests, others by the integer parts. -/
theorem roundEven_mono (hr : 0 < r.den) (hs : 0 < s.den) (h : r.value ≤ s.value) :
    r.roundEven ≤ s.roundEven := by
  have hfloor : r.num / r.den ≤ s.num / s.den := by
    have hlt := (floor_bounds hr).1.trans_lt (h.trans_lt (floor_bounds hs).2)
    exact Nat.lt_succ_iff.1 (by exact_mod_cast hlt)
  rcases hfloor.lt_or_eq with hlt | heq
  · calc r.roundEven ≤ r.num / r.den + 1 := (roundEven_bounds r).2
      _ ≤ s.num / s.den := hlt
      _ ≤ s.roundEven := (roundEven_bounds s).1
  · apply roundEven_mono_of_rest hr hs heq
    rw [value_eq hr, value_eq hs, heq] at h
    have hle : (r.num % r.den : Nat) / (r.den : ℚ) ≤ (s.num % s.den : Nat) / (s.den : ℚ) := by
      linarith
    rw [div_le_div_iff₀ (Nat.cast_pos.2 hr) (Nat.cast_pos.2 hs)] at hle
    exact_mod_cast hle

theorem roundEven_le (hr : 0 < r.den) {n : Nat} (h : r.value ≤ n) : r.roundEven ≤ n := by
  have hmono := @roundEven_mono r ⟨n, 1⟩ hr Nat.one_pos (by simpa [value] using h)
  simpa [roundEven, Nat.mod_one] using hmono

/-- A ratio that is at least an integer is not rounded below it. -/
theorem le_roundEven (hr : 0 < r.den) {n : Nat} (h : n ≤ r.value) : n ≤ r.roundEven := by
  have hmono := @roundEven_mono ⟨n, 1⟩ r Nat.one_pos hr (by simpa [value] using h)
  simpa [roundEven, Nat.mod_one] using hmono

theorem le_log10From (r : Ratio) (n : Nat) (x : Int) : x ≤ r.log10From n x := by
  induction n generalizing x with
  | zero => exact le_rfl
  | succ n ih =>
    rw [log10From]
    split
    · exact (lt_add_one _).le.trans (ih _)
    · exact le_rfl

end Ratio

/-! ## The nearest magnitude -/

namespace Format

variable {r s : Ratio}

theorem cast_binade (f : Format) : (f.binade : ℚ) = 2 ^ f.fractionBits := by
  exact_mod_cast Nat.cast_pow 2 f.fractionBits

theorem binade_pos (f : Format) : 0 < f.binade := Nat.pow_pos (by decide)

/-- The exponent of the grid on which a ratio is rounded. -/
def gridExponent (f : Format) (r : Ratio) : Int :=
  let lead := r.log2 - (f.fractionBits : Nat)
  if lead < f.leastExponent then f.leastExponent else lead

/-- The code of the nearest point of the grid, however great. -/
def gridCode (f : Format) (r : Ratio) : Nat :=
  (r.div (Ratio.ofScaled 1 (f.gridExponent r))).roundEven +
    (f.gridExponent r - f.leastExponent).toNat * f.binade

/-- The nearest magnitude is counted in steps of the grid, and past the last one it is the count of
finite ones. -/
theorem nearest_eq (f : Format) (hnum : 0 < r.num) :
    f.nearest r = min (f.gridCode r) f.finiteCount := by
  rw [nearest, if_neg hnum.ne', Nat.min_def]
  show (if f.gridCode r < f.finiteCount then f.gridCode r else f.finiteCount) = _
  split <;> split <;> omega

theorem leastExponent_le_gridExponent (f : Format) (r : Ratio) :
    f.leastExponent ≤ f.gridExponent r := by
  unfold gridExponent
  dsimp only
  split <;> omega

theorem value_onGrid (r : Ratio) (e : Int) :
    (r.div (Ratio.ofScaled 1 e)).value = r.value / 2 ^ e := by
  rw [Ratio.value_div, Ratio.value_ofScaled, Nat.cast_one, one_mul]

theorem den_onGrid_pos (hden : 0 < r.den) (e : Int) : 0 < (r.div (Ratio.ofScaled 1 e)).den :=
  Nat.mul_pos hden (Ratio.num_ofScaled_pos Nat.one_pos e)

section Grid

variable (f : Format) (hnum : 0 < r.num) (hden : 0 < r.den)

include hnum hden

/-- On its grid a ratio has one bit more than the fraction, at most. -/
theorem value_lt_pow_gridExponent : r.value < 2 ^ (f.gridExponent r + f.fractionBits + 1) := by
  apply (Ratio.log2_spec hnum hden).2.trans_le
  apply zpow_le_zpow_right₀ (by norm_num)
  unfold gridExponent
  dsimp only
  split <;> omega

/-- Above the least exponent the grid is the finest on which the significand is full. -/
theorem pow_gridExponent_le_value (h : f.leastExponent < f.gridExponent r) :
    2 ^ (f.gridExponent r + f.fractionBits) ≤ r.value := by
  have hlead : f.gridExponent r = r.log2 - f.fractionBits := by
    unfold gridExponent at h ⊢
    dsimp only at h ⊢
    split at h
    · exact absurd h (lt_irrefl _)
    · next hlead => exact if_neg hlead
  rw [hlead, sub_add_cancel]
  exact (Ratio.log2_spec hnum hden).1

/-- A ratio is coded at most where the next coarser grid starts. -/
theorem gridCode_le : f.gridCode r ≤
    2 * f.binade + (f.gridExponent r - f.leastExponent).toNat * f.binade := by
  refine Nat.add_le_add_right (Ratio.roundEven_le (den_onGrid_pos hden _) ?_) _
  have hlt := value_lt_pow_gridExponent f hnum hden
  rw [add_assoc, zpow_add₀ two_ne_zero, mul_comm, ← Nat.cast_succ, zpow_natCast, pow_succ'] at hlt
  rw [value_onGrid, div_le_iff₀ (by positivity), Nat.cast_mul, cast_binade]
  exact hlt.le

theorem le_gridCode (h : f.leastExponent < f.gridExponent r) :
    f.binade + (f.gridExponent r - f.leastExponent).toNat * f.binade ≤ f.gridCode r := by
  refine Nat.add_le_add_right (Ratio.le_roundEven (den_onGrid_pos hden _) ?_) _
  have hle := pow_gridExponent_le_value f hnum hden h
  rw [zpow_add₀ two_ne_zero, mul_comm, zpow_natCast] at hle
  rw [value_onGrid, le_div_iff₀ (by positivity), cast_binade]
  exact hle

end Grid

theorem gridExponent_mono (f : Format) (hr : 0 < r.den) (hs : 0 < s.den) (hnum : 0 < r.num)
    (hnum' : 0 < s.num) (h : r.value ≤ s.value) : f.gridExponent r ≤ f.gridExponent s := by
  by_contra! hlt
  have hleast := (f.leastExponent_le_gridExponent s).trans_lt hlt
  have hpow := (pow_gridExponent_le_value f hnum hr hleast).trans_lt
    (h.trans_lt (value_lt_pow_gridExponent f hnum' hs))
  have hexp := (zpow_lt_zpow_iff_right₀ (by norm_num : (1 : ℚ) < 2)).1 hpow
  omega

/-- Codes keep the order of ratios, also across grids, since these follow one another. -/
theorem gridCode_mono (f : Format) (hr : 0 < r.den) (hs : 0 < s.den) (hnum : 0 < r.num)
    (hnum' : 0 < s.num) (h : r.value ≤ s.value) : f.gridCode r ≤ f.gridCode s := by
  rcases (gridExponent_mono f hr hs hnum hnum' h).lt_or_eq with hlt | heq
  · -- a coarser grid starts where the finer one ends
    have hleast := (f.leastExponent_le_gridExponent r).trans_lt hlt
    have hstep : (f.gridExponent r - f.leastExponent).toNat + 1 ≤
        (f.gridExponent s - f.leastExponent).toNat := by omega
    calc f.gridCode r
        ≤ 2 * f.binade + (f.gridExponent r - f.leastExponent).toNat * f.binade :=
          gridCode_le f hnum hr
      _ = f.binade + ((f.gridExponent r - f.leastExponent).toNat + 1) * f.binade := by ring
      _ ≤ f.binade + (f.gridExponent s - f.leastExponent).toNat * f.binade :=
          Nat.add_le_add_left (Nat.mul_le_mul_right _ hstep) _
      _ ≤ f.gridCode s := le_gridCode f hnum' hs hleast
  · unfold gridCode
    rw [heq]
    refine Nat.add_le_add_right (Ratio.roundEven_mono (den_onGrid_pos hr _) (den_onGrid_pos hs _) ?_) _
    rw [value_onGrid, value_onGrid]
    exact div_le_div_of_nonneg_right h (by positivity)

/-- A greater ratio has no smaller nearest magnitude. -/
theorem nearest_mono (f : Format) (hr : 0 < r.den) (hs : 0 < s.den) (h : r.value ≤ s.value) :
    f.nearest r ≤ f.nearest s := by
  by_cases hnum : 0 < r.num
  · have hnum' : 0 < s.num := by
      have hpos : 0 < r.value := div_pos (Nat.cast_pos.2 hnum) (Nat.cast_pos.2 hr)
      exact Ratio.num_pos hs (hpos.trans_le h)
    rw [nearest_eq f hnum, nearest_eq f hnum']
    exact min_le_min_right _ (gridCode_mono f hr hs hnum hnum' h)
  · rw [nearest, if_pos (by omega)]
    exact Nat.zero_le _

end Format

/-! ## The magnitudes -/

namespace Magnitude

variable {f : Format}

/-- The rational of a magnitude. -/
def value (m : Magnitude f) : ℚ := m.ratio.value

theorem value_eq (m : Magnitude f) : m.value = m.scaled.1 * 2 ^ m.scaled.2 :=
  Ratio.value_ofScaled _ _

theorem den_ratio_pos (m : Magnitude f) : 0 < m.ratio.den := Ratio.den_ofScaled_pos _ _

theorem scaled_of_lt {m : Magnitude f} (h : m.val < f.binade) :
    m.scaled = (m.val, f.leastExponent) := if_pos h

theorem scaled_of_eq {m : Magnitude f} {a t : Nat} (h : m.val = (a + 1) * f.binade + t)
    (ht : t < f.binade) : m.scaled = (f.binade + t, f.leastExponent + a) := by
  have hge : ¬ m.val < f.binade := by
    have hle : f.binade ≤ (a + 1) * f.binade := Nat.le_mul_of_pos_left _ (Nat.succ_pos a)
    omega
  have hdiv : m.val / f.binade = a + 1 := by
    rw [h, mul_comm, Nat.mul_add_div f.binade_pos, Nat.div_eq_of_lt ht, add_zero]
  have hmod : m.val % f.binade = t := by
    rw [h, mul_comm, Nat.mul_add_mod, Nat.mod_eq_of_lt ht]
  rw [scaled, if_neg hge, hdiv, hmod, Nat.add_sub_cancel]

/-- A magnitude of a full significand by its exponent and the rest of its significand. -/
theorem exists_steps {m : Magnitude f} (h : f.binade ≤ m.val) :
    ∃ a t, t < f.binade ∧ m.val = (a + 1) * f.binade + t := by
  have hpos := f.binade_pos
  refine ⟨m.val / f.binade - 1, m.val % f.binade, Nat.mod_lt _ hpos, ?_⟩
  rw [Nat.sub_add_cancel ((Nat.one_le_div_iff hpos).2 h), mul_comm, Nat.div_add_mod]

theorem leastExponent_le_scaled (m : Magnitude f) : f.leastExponent ≤ m.scaled.2 := by
  unfold scaled
  split
  · exact le_rfl
  · dsimp only
    omega

/-- One step up is one unit of the significand. -/
theorem value_succ (m : Magnitude f) (h : m.val + 1 < f.finiteCount) :
    value ⟨m.val + 1, h⟩ = (m.scaled.1 + 1) * 2 ^ m.scaled.2 := by
  have hpos := f.binade_pos
  rw [value_eq]
  rcases lt_or_ge m.val f.binade with hlow | hhigh
  · rw [scaled_of_lt hlow]
    rcases (Nat.succ_le_of_lt hlow).lt_or_eq with hlt | heq
    · rw [scaled_of_lt hlt]
      push_cast
      rfl
    · -- the first full significand
      have heq' : m.val + 1 = (0 + 1) * f.binade + 0 := by omega
      rw [scaled_of_eq heq' hpos]
      dsimp only
      rw [add_zero, Nat.cast_zero, add_zero, ← heq]
      push_cast
      rfl
  · obtain ⟨a, t, ht, hval⟩ := exists_steps hhigh
    rw [scaled_of_eq hval ht]
    rcases (Nat.succ_le_of_lt ht).lt_or_eq with hlt | heq
    · have hnext : m.val + 1 = (a + 1) * f.binade + (t + 1) := by omega
      rw [scaled_of_eq hnext hlt]
      push_cast
      ring
    · -- the significand is full, so the exponent grows
      have hnext : m.val + 1 = (a + 1 + 1) * f.binade + 0 := by
        rw [Nat.succ_mul (a + 1)]
        omega
      rw [scaled_of_eq hnext hpos]
      dsimp only
      rw [Nat.cast_succ, ← add_assoc f.leastExponent, zpow_add_one₀ two_ne_zero]
      have hcast : (t : ℚ) + 1 = f.binade := by exact_mod_cast heq
      push_cast
      rw [add_zero, add_assoc, hcast]
      ring

theorem value_mono {m n : Magnitude f} (h : m ≤ n) : m.value ≤ n.value := by
  obtain ⟨n, hn⟩ := n
  replace h : m.val ≤ n := h
  induction n, h using Nat.le_induction with
  | base => exact le_rfl
  | succ n hmn ih =>
    refine (ih (Nat.lt_of_succ_lt hn)).trans ?_
    rw [value_succ ⟨n, Nat.lt_of_succ_lt hn⟩ hn, value_eq]
    exact mul_le_mul_of_nonneg_right (lt_add_one _).le (by positivity)

/-- The interval of a magnitude ends half a step above it. -/
theorem interval_high (m : Magnitude f) :
    m.interval.2.value = (m.scaled.1 + 1 / 2) * 2 ^ m.scaled.2 := by
  have hhigh : m.interval.2 = Ratio.ofScaled (2 * m.scaled.1 + 1) (m.scaled.2 - 1) := by
    unfold interval
    dsimp only
    split <;> rfl
  rw [hhigh, Ratio.value_ofScaled, zpow_sub_one₀ two_ne_zero]
  push_cast
  ring

theorem den_interval_pos (m : Magnitude f) : 0 < m.interval.1.den ∧ 0 < m.interval.2.den := by
  unfold interval
  dsimp only
  split <;> exact ⟨Ratio.den_ofScaled_pos _ _, Ratio.den_ofScaled_pos _ _⟩

/-- What a magnitude owns: the ends of its interval are among it if its code is even. -/
theorem owns_iff {m : Magnitude f} {r : Ratio} (hr : 0 < r.den) : m.owns r = true ↔
    (m.interval.1.value ≤ r.value ∧ r.value ≤ m.interval.2.value) ∧
      (m.val % 2 = 1 → m.interval.1.value < r.value ∧ r.value < m.interval.2.value) := by
  obtain ⟨hlow, hhigh⟩ := m.den_interval_pos
  unfold owns
  dsimp only
  split
  · next heven =>
    rw [Bool.and_eq_true, Ratio.le_iff hlow hr, Ratio.le_iff hr hhigh]
    exact ⟨fun h => ⟨h, by omega⟩, And.left⟩
  · next hodd =>
    rw [Bool.and_eq_true, Ratio.lt_iff hlow hr, Ratio.lt_iff hr hhigh]
    exact ⟨fun h => ⟨⟨h.1.le, h.2.le⟩, fun _ => h⟩, fun h => h.2 (by omega)⟩

/-- Whatever rounds to a magnitude is at most the next one. -/
theorem value_le_of_owns {m : Magnitude f} {r : Ratio} (hr : 0 < r.den) (h : m.owns r = true)
    (hnext : m.val + 1 < f.finiteCount) : r.value ≤ value ⟨m.val + 1, hnext⟩ := by
  obtain ⟨⟨-, hhigh⟩, -⟩ := (owns_iff hr).1 h
  refine hhigh.trans ?_
  rw [interval_high, value_succ]
  have hpow : (0 : ℚ) < 2 ^ m.scaled.2 := by positivity
  linarith

theorem ofRatio?_mono {r s : Ratio} (hr : 0 < r.den) (hs : 0 < s.den) (h : r.value ≤ s.value)
    {n : Magnitude f} (hn : ofRatio? f s = some n) : ∃ m, ofRatio? f r = some m ∧ m ≤ n := by
  have hmono := f.nearest_mono hr hs h
  unfold ofRatio? at hn ⊢
  split at hn
  · next hfinite =>
    cases hn
    exact ⟨_, dif_pos (hmono.trans_lt hfinite), hmono⟩
  · cases hn

/-! ## The shortest decimal -/

theorem value_trim (n : Nat) (d : Decimal) : (d.trim n).ratio.value = d.ratio.value := by
  induction n generalizing d with
  | zero => rfl
  | succ n ih =>
    rw [Decimal.trim]
    split
    · next h =>
      rw [ih, Decimal.ratio, Decimal.ratio, Ratio.value_ofDecimal, Ratio.value_ofDecimal,
        zpow_add_one₀ (by norm_num)]
      have hdigits : d.digits / 10 * 10 = d.digits := Nat.div_mul_cancel (Nat.dvd_of_mod_eq_zero h.1)
      have hcast : ((d.digits / 10 : Nat) : ℚ) * 10 = d.digits := by exact_mod_cast hdigits
      rw [← hcast]
      ring
    · rfl

end Magnitude

end SchemaStore
