import SchemaStore.Binary.Shortest

/-!
# The digits of the shortest decimal

A positive magnitude does not own zero, since its interval starts above it (`Magnitude.owns_zero`).
So a decimal that is found on a grid has digits, and their first one is not zero.
-/

namespace SchemaStore

namespace Ratio

theorem num_ofScaled_pos {n : Nat} (h : 0 < n) (e : Int) : 0 < (ofScaled n e).num := by
  unfold ofScaled
  split
  · exact Nat.mul_pos h (Nat.pow_pos (by decide))
  · exact h

theorem num_ofDecimal_zero (e : Int) : (ofDecimal 0 e).num = 0 := by
  unfold ofDecimal
  split
  · exact Nat.zero_mul _
  · rfl

theorem den_ofDecimal_pos (n : Nat) (e : Int) : 0 < (ofDecimal n e).den := by
  unfold ofDecimal
  split
  · exact Nat.one_pos
  · exact Nat.pow_pos (by decide)

end Ratio

namespace Magnitude

variable {f : Format}

theorem scaled_pos {m : Magnitude f} (h : m.val ≠ 0) : 0 < m.scaled.1 := by
  unfold scaled
  split
  · exact Nat.pos_of_ne_zero h
  · exact Nat.add_pos_left (Nat.pow_pos (by decide)) _

theorem interval_pos {m : Magnitude f} (h : m.val ≠ 0) : 0 < m.interval.1.num := by
  have hs := scaled_pos h
  unfold interval
  dsimp only
  split
  · exact Ratio.num_ofScaled_pos (by omega) _
  · exact Ratio.num_ofScaled_pos (by omega) _

/-- Zero does not round to a positive magnitude. -/
theorem owns_zero {m : Magnitude f} (h : m.val ≠ 0) (e : Int) :
    m.owns (Ratio.ofDecimal 0 e) = false := by
  have hlow := Nat.mul_pos (interval_pos h) (Ratio.den_ofDecimal_pos 0 e)
  unfold owns
  dsimp only
  split
  · have hle : m.interval.1.le (Ratio.ofDecimal 0 e) = false := by
      rw [Ratio.le, Ratio.num_ofDecimal_zero, Nat.zero_mul]
      exact decide_eq_false (by omega)
    rw [hle, Bool.false_and]
  · have hlt : m.interval.1.lt (Ratio.ofDecimal 0 e) = false := by
      rw [Ratio.lt, Ratio.num_ofDecimal_zero, Nat.zero_mul]
      exact decide_eq_false (by omega)
    rw [hlt, Bool.false_and]

/-- A decimal that is found on a grid is on the grid and rounds to the magnitude. -/
theorem owns_of_onGrid {tie : Tie} {m : Magnitude f} {e : Int} {d : Decimal}
    (h : m.onGrid tie e = some d) : m.owns d.ratio = true ∧ d.exponent = e := by
  unfold onGrid at h
  dsimp only at h
  split at h
  · next hbelow habove =>
    cases h
    refine ⟨?_, rfl⟩
    unfold Decimal.ratio
    dsimp only
    split
    · exact hbelow
    · exact habove
  · next hbelow _ =>
    cases h
    exact ⟨hbelow, rfl⟩
  · next _ habove =>
    cases h
    exact ⟨habove, rfl⟩
  · cases h

/-- A magnitude other than zero has no decimal without digits. -/
theorem digits_of_onGrid {tie : Tie} {m : Magnitude f} (h : m.val ≠ 0) {e : Int} {d : Decimal}
    (hd : m.onGrid tie e = some d) : d.digits ≠ 0 := by
  intro hzero
  have howns := (owns_of_onGrid hd).1
  rw [Decimal.ratio, hzero, owns_zero h] at howns
  cases howns

theorem digits_trim {d : Decimal} (h : d.digits ≠ 0) (n : Nat) : (d.trim n).digits ≠ 0 := by
  induction n generalizing d with
  | zero => exact h
  | succ n ih =>
    rw [Decimal.trim]
    split
    · exact ih (by dsimp only; omega)
    · exact h

theorem exponent_le_trim (n : Nat) (d : Decimal) : d.exponent ≤ (d.trim n).exponent := by
  induction n generalizing d with
  | zero => exact Int.le_refl _
  | succ n ih =>
    rw [Decimal.trim]
    split
    · exact Int.le_trans (Int.le_of_lt (Int.lt_succ _)) (ih _)
    · exact Int.le_refl _

theorem trim_zero (n : Nat) : Decimal.trim n ⟨0, 0⟩ = ⟨0, 0⟩ := by
  cases n with
  | zero => rfl
  | succ n => exact if_neg fun h => h.2 rfl

/-- The shortest decimal comes from a grid, unless no grid has one. -/
theorem shortest_cases (tie : Tie) (m : Magnitude f) :
    (m.shortest tie = ⟨0, 0⟩ ∧
      ∀ n < f.digitLimit, m.onGrid tie (m.ratio.log10 - (n : Int)) = none) ∨
    ∃ n < f.digitLimit, ∃ d, m.onGrid tie (m.ratio.log10 - (n : Int)) = some d ∧
      m.shortest tie = d.trim f.digitLimit := by
  unfold shortest
  dsimp only
  cases hfound : ((List.range f.digitLimit).map fun (n : Nat) => m.ratio.log10 - (n : Int)).findSome?
      (m.onGrid tie) with
  | none =>
    rw [List.findSome?_eq_none_iff] at hfound
    exact .inl ⟨trim_zero _, fun n hn => hfound _ (List.mem_map.2 ⟨n, List.mem_range.2 hn, rfl⟩)⟩
  | some d =>
    obtain ⟨e, he, hd⟩ := List.exists_of_findSome?_eq_some hfound
    obtain ⟨n, hn, rfl⟩ := List.mem_map.1 he
    exact .inr ⟨n, List.mem_range.1 hn, d, hd, rfl⟩

/-- The shortest decimal of a positive magnitude has digits, unless no grid has one. -/
theorem digits_shortest (tie : Tie) {m : Magnitude f} (h : m.val ≠ 0) :
    (m.shortest tie).digits ≠ 0 ∨ m.shortest tie = ⟨0, 0⟩ := by
  rcases shortest_cases tie m with ⟨hnone, -⟩ | ⟨n, -, d, hd, hshortest⟩
  · exact .inr hnone
  · rw [hshortest]
    exact .inl (digits_trim (digits_of_onGrid h hd) _)

end Magnitude

end SchemaStore
