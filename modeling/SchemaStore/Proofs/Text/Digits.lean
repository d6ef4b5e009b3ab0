import Mathlib.Algebra.Ring.Nat
import Mathlib.Data.List.Induction
import Mathlib.Data.List.TakeWhile
import SchemaStore.Text.Digits

/-!
# Decimal digits, written and read

`Nat.toDigits 10` writes the digits that `Text.digitsValue` and `Text.absorbDigits` read. The
splitting functions look at one character past the digits, so each is also shown not to mind what
follows, as long as that is no digit (`spanDigits_append`, `absorbDigits_append`). Digits without a
leading zero are the only way to write their number (`toDigits_digitsValue`).
-/

namespace SchemaStore.Text

/-! ## What follows a run of digits -/

theorem startsWithDigit_append (cs : List Char) {rest : List Char}
    (h : startsWithDigit rest = false) : startsWithDigit (cs ++ rest) = startsWithDigit cs := by
  cases cs with
  | nil => exact h
  | cons c cs => rfl

/-- A run of digits does not mind what follows, as long as that is no digit. -/
theorem spanDigits_append (cs : List Char) {rest : List Char} (h : startsWithDigit rest = false) :
    spanDigits (cs ++ rest) = ((spanDigits cs).1, (spanDigits cs).2 ++ rest) := by
  induction cs with
  | nil =>
    cases rest with
    | nil => rfl
    | cons r rest =>
      have hr : r.isDigit = false := h
      simp [spanDigits, hr]
  | cons c cs ih =>
    simp only [spanDigits, Prod.mk.injEq] at ih
    by_cases hc : c.isDigit = true
    · simp only [spanDigits, List.cons_append, List.takeWhile_cons, List.dropWhile_cons, hc,
        if_true, ih.1, ih.2]
    · simp [spanDigits, hc]

theorem rest_spanDigits_cons {c : Char} (hc : c.isDigit = true) (cs : List Char) :
    (spanDigits (c :: cs)).2 = (spanDigits cs).2 :=
  List.dropWhile_cons_of_pos hc

theorem spanDigits_of_digits {ds : List Char} (hd : ∀ d ∈ ds, d.isDigit = true) :
    spanDigits ds = (ds, []) := by
  simp only [spanDigits, Prod.mk.injEq]
  exact ⟨List.takeWhile_eq_self_iff.2 hd, List.dropWhile_eq_nil_iff.2 hd⟩

/-- Digits are split off in front of anything that is no digit. -/
theorem spanDigits_digits {ds rest : List Char} (hd : ∀ d ∈ ds, d.isDigit = true)
    (hrest : startsWithDigit rest = false) : spanDigits (ds ++ rest) = (ds, rest) := by
  rw [spanDigits_append ds hrest, spanDigits_of_digits hd, List.nil_append]

/-- Digits are taken up to a limit whatever follows them, as long as that is no digit. -/
theorem absorbDigits_append (limit n : Nat) (cs : List Char) {rest : List Char}
    (h : startsWithDigit rest = false) :
    absorbDigits limit n (cs ++ rest) =
      ((absorbDigits limit n cs).1, (absorbDigits limit n cs).2 ++ rest) := by
  induction cs generalizing n with
  | nil =>
    cases rest with
    | nil => rfl
    | cons r rest =>
      have hr : r.isDigit = false := h
      simp [absorbDigits, hr]
  | cons c cs ih =>
    simp only [List.cons_append, absorbDigits]
    split
    · exact ih _
    · rfl

theorem append_spanDigits (cs : List Char) : (spanDigits cs).1 ++ (spanDigits cs).2 = cs :=
  List.takeWhile_append_dropWhile

theorem exists_digits_cons {c : Char} (tail : List Char) (hc : c.isDigit = true) :
    ∃ ds, (∀ x ∈ c :: ds, x.isDigit = true) ∧
      c :: tail = c :: ds ++ (spanDigits (c :: tail)).2 := by
  refine ⟨(spanDigits tail).1, ?_, ?_⟩
  · exact List.forall_mem_cons.2 ⟨hc, fun x hx => List.mem_takeWhile_imp hx⟩
  · rw [rest_spanDigits_cons hc, List.cons_append, append_spanDigits]

theorem exists_digits {cs : List Char} (h : startsWithDigit cs = true) :
    ∃ d ds, (∀ x ∈ d :: ds, x.isDigit = true) ∧ cs = d :: ds ++ (spanDigits cs).2 := by
  cases cs with
  | nil => cases h
  | cons d tail => exact ⟨d, exists_digits_cons tail h⟩

theorem startsWithDigit_rest (cs : List Char) : startsWithDigit (spanDigits cs).2 = false := by
  have hhead := List.head?_dropWhile_not Char.isDigit cs
  unfold startsWithDigit spanDigits
  cases h : cs.dropWhile Char.isDigit with
  | nil => rfl
  | cons c rest =>
    rw [h] at hhead
    exact Bool.eq_false_iff.2 (by simpa using hhead)

/-- The digits that fit and those that do not are one run of digits. -/
theorem spanDigits_absorbDigits (limit n : Nat) (cs : List Char) :
    (spanDigits (absorbDigits limit n cs).2).2 = (spanDigits cs).2 := by
  induction cs generalizing n with
  | nil => rfl
  | cons c cs ih =>
    rw [absorbDigits]
    split
    · next hc =>
      rw [ih]
      simp [spanDigits, hc.1]
    · rfl

/-! ## Reading the digits of a number -/

theorem le_ofDigitChars (ds : List Char) (n : Nat) : n ≤ Nat.ofDigitChars 10 ds n := by
  induction ds generalizing n with
  | nil => simp
  | cons d ds ih =>
    rw [Nat.ofDigitChars_cons]
    have := ih (10 * n + (d.toNat - '0'.toNat))
    omega

theorem mul_pow_le_ofDigitChars (ds : List Char) (n : Nat) :
    n * 10 ^ ds.length ≤ Nat.ofDigitChars 10 ds n := by
  induction ds generalizing n with
  | nil => simp
  | cons d ds ih =>
    rw [Nat.ofDigitChars_cons, List.length_cons, Nat.pow_succ']
    refine Nat.le_trans ?_ (ih _)
    rw [← Nat.mul_assoc, Nat.mul_comm n 10]
    exact Nat.mul_le_mul_right _ (Nat.le_add_right _ _)

/-- Digits are taken whole if their number is within the limit. -/
theorem absorbDigits_of_le {limit n : Nat} {ds : List Char} (hd : ∀ d ∈ ds, d.isDigit = true)
    (hl : Nat.ofDigitChars 10 ds n ≤ limit) :
    absorbDigits limit n ds = (Nat.ofDigitChars 10 ds n, []) := by
  induction ds generalizing n with
  | nil => simp [absorbDigits]
  | cons d ds ih =>
    have hstep : Nat.ofDigitChars 10 (d :: ds) n = Nat.ofDigitChars 10 ds (10 * n + digitValue d) :=
      Nat.ofDigitChars_cons
    rw [hstep] at hl ⊢
    have hle := le_ofDigitChars ds (10 * n + digitValue d)
    have hcond : d.isDigit = true ∧ 10 * n + digitValue d ≤ limit :=
      ⟨hd d List.mem_cons_self, Nat.le_trans hle hl⟩
    rw [absorbDigits, if_pos hcond]
    exact ih (fun c hc => hd c (List.mem_cons_of_mem _ hc)) hl

theorem isDigit_of_absorbDigits {limit n : Nat} {cs : List Char}
    (h : ∀ c ∈ (absorbDigits limit n cs).2, c.isDigit = true) : ∀ c ∈ cs, c.isDigit = true := by
  induction cs generalizing n with
  | nil => simp
  | cons c cs ih =>
    rw [absorbDigits] at h
    split at h
    · next hc =>
      intro x hx
      rcases List.mem_cons.1 hx with rfl | hx
      · exact hc.1
      · exact ih h x hx
    · exact h

theorem isDigit_of_mem_toDigits {n : Nat} {c : Char} (h : c ∈ Nat.toDigits 10 n) :
    c.isDigit = true :=
  Nat.isDigit_of_mem_toDigits (by decide) (by decide) h

theorem isDigit_of_toDigits_eq {n : Nat} {ds : List Char} (h : Nat.toDigits 10 n = ds) :
    ∀ d ∈ ds, d.isDigit = true := by
  rw [← h]
  exact fun _ => isDigit_of_mem_toDigits

theorem absorbDigits_toDigits {limit n : Nat} (h : n ≤ limit) :
    absorbDigits limit 0 (Nat.toDigits 10 n) = (n, []) := by
  rw [absorbDigits_of_le (fun _ => isDigit_of_mem_toDigits) (by simpa using h)]
  simp

theorem digitsValue_toDigits (n : Nat) : digitsValue (Nat.toDigits 10 n) = n :=
  Nat.ofDigitChars_ten_toDigits

theorem spanDigits_toDigits (n : Nat) : spanDigits (Nat.toDigits 10 n) = (Nat.toDigits 10 n, []) :=
  spanDigits_of_digits fun _ => isDigit_of_mem_toDigits

/-- A positive number has no leading zero. -/
theorem exists_toDigits_eq_cons {n : Nat} (h : 0 < n) :
    ∃ d ds, Nat.toDigits 10 n = d :: ds ∧ d.isDigit = true ∧ d ≠ '0' := by
  induction n using Nat.strongRecOn with
  | ind n ih =>
    by_cases hn : n < 10
    · refine ⟨n.digitChar, [], Nat.toDigits_of_lt_base hn, ?_, ?_⟩
      · simpa [Nat.isDigit_digitChar] using hn
      · simpa using Nat.pos_iff_ne_zero.1 h
    · obtain ⟨d, ds, hds, hdigit, hzero⟩ := ih (n / 10) (by omega) (by omega)
      refine ⟨d, ds ++ [(n % 10).digitChar], ?_, hdigit, hzero⟩
      rw [Nat.toDigits_of_base_le (by decide) (by omega), hds, List.cons_append]

theorem exists_toDigits (n : Nat) : ∃ d ds, Nat.toDigits 10 n = d :: ds ∧ d.isDigit = true := by
  by_cases hn : 0 < n
  · obtain ⟨d, ds, hds, hd, -⟩ := exists_toDigits_eq_cons hn
    exact ⟨d, ds, hds, hd⟩
  · obtain rfl : n = 0 := by omega
    exact ⟨'0', [], rfl, rfl⟩

/-- A positive number is at least the power of ten at its leading place. -/
theorem pow_le_of_toDigits {n : Nat} {c : Char} {ds : List Char} (h : Nat.toDigits 10 n = c :: ds)
    (hn : 0 < n) : 10 ^ ds.length ≤ n := by
  rcases Nat.eq_zero_or_pos ds.length with hzero | hpos
  · rw [hzero]
    exact hn
  · by_contra! hlt
    have hlength := (Nat.length_toDigits_le_iff (by decide) hpos).2 hlt
    rw [h, List.length_cons] at hlength
    omega

/-- A number is less than the power of ten past its leading place. -/
theorem lt_pow_of_toDigits {n : Nat} {c : Char} {ds : List Char} (h : Nat.toDigits 10 n = c :: ds) :
    n < 10 ^ (ds.length + 1) := by
  refine (Nat.length_toDigits_le_iff (by decide) (Nat.succ_pos _)).1 (Nat.le_of_eq ?_)
  rw [h, List.length_cons]

/-- Digits that are all absorbed spell a number under the limit. -/
theorem le_of_absorbDigits {limit n : Nat} {ds : List Char} (hn : n ≤ limit)
    (h : (absorbDigits limit n ds).2 = []) : Nat.ofDigitChars 10 ds n ≤ limit := by
  induction ds generalizing n with
  | nil => simpa using hn
  | cons d ds ih =>
    rw [absorbDigits] at h
    split at h
    · next hd => exact ih hd.2 h
    · cases h

/-- The digits that are absorbed are no more than those that are there. -/
theorem absorbDigits_bounds {limit n : Nat} (ds : List Char) (hn : n ≤ limit) :
    (absorbDigits limit n ds).1 ≤ limit ∧ (absorbDigits limit n ds).2.length ≤ ds.length ∧
      (absorbDigits limit n ds).1 * 10 ^ (absorbDigits limit n ds).2.length ≤
        Nat.ofDigitChars 10 ds n := by
  induction ds generalizing n with
  | nil => simpa [absorbDigits] using hn
  | cons d ds ih =>
    rw [absorbDigits]
    split
    · next h =>
      obtain ⟨hlimit, hlength, hvalue⟩ := ih h.2
      have hstep : Nat.ofDigitChars 10 (d :: ds) n = Nat.ofDigitChars 10 ds (10 * n + digitValue d) :=
        Nat.ofDigitChars_cons
      exact ⟨hlimit, Nat.le_succ_of_le hlength, hstep ▸ hvalue⟩
    · exact ⟨hn, le_rfl, mul_pow_le_ofDigitChars _ _⟩

/-! ## Writing the number of some digits -/

theorem digitValue_lt {d : Char} (h : d.isDigit = true) : digitValue d < 10 := by
  have hhigh : d.toNat ≤ 57 := (Char.isDigit_iff_toNat.1 h).2
  rw [digitValue]
  omega

/-- Some digits add less than one unit of the place before them. -/
theorem ofDigitChars_lt {ds : List Char} (hd : ∀ d ∈ ds, d.isDigit = true) (n : Nat) :
    Nat.ofDigitChars 10 ds n < (n + 1) * 10 ^ ds.length := by
  induction ds generalizing n with
  | nil => simp
  | cons d ds ih =>
    have hstep : Nat.ofDigitChars 10 (d :: ds) n = Nat.ofDigitChars 10 ds (10 * n + digitValue d) :=
      Nat.ofDigitChars_cons
    have hdigit := digitValue_lt (hd d List.mem_cons_self)
    rw [hstep, List.length_cons, Nat.pow_succ', ← Nat.mul_assoc]
    refine Nat.lt_of_lt_of_le (ih (fun c hc => hd c (List.mem_cons_of_mem _ hc)) _) ?_
    exact Nat.mul_le_mul_right _ (by omega)

theorem digitChar_digitValue {d : Char} (h : d.isDigit = true) : (digitValue d).digitChar = d := by
  have hall : ∀ k : Fin 10, k.val.digitChar = Char.ofNat (48 + k.val) := by decide
  have hlow : 48 ≤ d.toNat := (Char.isDigit_iff_toNat.1 h).1
  have hsum : 48 + digitValue d = d.toNat := by
    rw [digitValue]
    omega
  rw [hall ⟨_, digitValue_lt h⟩, hsum, Char.ofNat_toNat]

theorem digitsValue_append (ds : List Char) (d : Char) :
    digitsValue (ds ++ [d]) = 10 * digitsValue ds + digitValue d := by
  rw [digitsValue, List.foldl_append]
  rfl

/-- Digits without a leading zero are those of the number they spell. -/
theorem toDigits_digitsValue {c : Char} {ds : List Char} (hds : ∀ d ∈ c :: ds, d.isDigit = true)
    (hc : c ≠ '0') : Nat.toDigits 10 (digitsValue (c :: ds)) = c :: ds := by
  -- the last digit is written last
  induction ds using List.reverseRecOn with
  | nil =>
    have hdigit := hds c List.mem_cons_self
    have hvalue : digitsValue [c] = digitValue c := by simp [digitsValue]
    rw [hvalue, Nat.toDigits_of_lt_base (digitValue_lt hdigit), digitChar_digitValue hdigit]
  | append_singleton ds d ih =>
    have hdigit : d.isDigit = true := hds d (by simp)
    have hfront : ∀ x ∈ c :: ds, x.isDigit = true := fun x hx => hds x (by
      rw [← List.cons_append]
      exact List.mem_append_left _ hx)
    have hlt := digitValue_lt hdigit
    have hpos : 0 < digitsValue (c :: ds) := by
      have hle : digitValue c ≤ digitsValue (c :: ds) := by
        have := le_ofDigitChars ds (10 * 0 + digitValue c)
        exact Nat.le_trans (by omega) this
      have hfirst : digitValue c ≠ 0 := by
        intro hzero
        have hchar := digitChar_digitValue (hds c List.mem_cons_self)
        rw [hzero] at hchar
        exact hc hchar.symm
      omega
    rw [← List.cons_append, digitsValue_append, Nat.toDigits_of_base_le (by decide) (by omega)]
    have hquotient : (10 * digitsValue (c :: ds) + digitValue d) / 10 = digitsValue (c :: ds) := by
      omega
    have hremainder : (10 * digitsValue (c :: ds) + digitValue d) % 10 = digitValue d := by
      omega
    rw [hquotient, hremainder, ih hfront, digitChar_digitValue hdigit]

theorem toDigits_of_zero_alone {c : Char} {ds : List Char} (hds : ∀ d ∈ c :: ds, d.isDigit = true)
    (hzero : c = '0' → ds = []) : Nat.toDigits 10 (digitsValue (c :: ds)) = c :: ds := by
  by_cases hc : c = '0'
  · rw [hzero hc, hc]
    rfl
  · exact toDigits_digitsValue hds hc

end SchemaStore.Text
