import SchemaStore.Proofs.Binary.Shortest
import SchemaStore.Proofs.Json.Number
import SchemaStore.Shape.Write

/-!
# Floats, written and read

The text of a float starts with its sign or a digit and holds number characters only, whatever its
layout. Whether the reader finds the same float in it depends on the reader's arithmetic, so that is
a condition on the float, `FiniteBinary.ReadsBack`. For a double it is enough: its text always has a
point or an exponent, so a reader without a declared type finds the double too, and not an integer
(`number_of_readsBack`).
-/

namespace SchemaStore

namespace Layout

/-- A character of the text of a number. -/
def isNumeral (c : Char) : Bool := c.isDigit || c == '.' || c == 'e' || c == '+' || c == '-'

variable (l : Layout) {p : Precision}

/-- The text of a float after its sign. -/
def magnitudeText (x : FiniteBinary p) : List Char :=
  if x.magnitude.val = 0 then l.positionalText ['0'] 0 else l.decimalText (x.magnitude.shortest l.tie)

theorem text_eq (x : FiniteBinary p) :
    l.text x = if x.negative then '-' :: l.magnitudeText x else l.magnitudeText x := rfl

/-! ## The first character -/

theorem positionalText_head (d : Char) (ds : List Char) (lead : Int) (hd : d.isDigit = true) :
    ∃ c tail, l.positionalText (d :: ds) lead = c :: tail ∧ c.isDigit = true := by
  unfold positionalText
  dsimp only
  split
  · exact ⟨'0', _, rfl, rfl⟩
  · split
    · exact ⟨d, _, rfl, hd⟩
    · exact ⟨d, _, rfl, hd⟩

theorem scientificText_head (d : Char) (ds : List Char) (lead : Int) (hd : d.isDigit = true) :
    ∃ c tail, scientificText (d :: ds) lead = c :: tail ∧ c.isDigit = true := by
  unfold scientificText
  cases ds with
  | nil => exact ⟨d, _, rfl, hd⟩
  | cons e ds => exact ⟨d, _, rfl, hd⟩

theorem magnitudeText_head (x : FiniteBinary p) :
    ∃ c tail, l.magnitudeText x = c :: tail ∧ c.isDigit = true := by
  unfold magnitudeText decimalText
  split
  · exact positionalText_head l '0' [] 0 rfl
  · obtain ⟨d, ds, hds, hd⟩ := Text.exists_toDigits (x.magnitude.shortest l.tie).digits
    dsimp only
    rw [hds]
    split
    · exact positionalText_head l d ds _ hd
    · exact scientificText_head d ds _ hd

theorem text_head (x : FiniteBinary p) :
    ∃ c tail, l.text x = c :: tail ∧ (c = '-' ∨ c.isDigit = true) := by
  obtain ⟨c, tail, hc, hd⟩ := magnitudeText_head l x
  rw [text_eq]
  split
  · exact ⟨'-', _, rfl, .inl rfl⟩
  · exact ⟨c, tail, hc, .inr hd⟩

/-! ## All characters -/

theorem isNumeral_of_isDigit {c : Char} (h : c.isDigit = true) : isNumeral c = true := by
  simp [isNumeral, h]

theorem isNumeral_positionalText {digits : List Char} (hd : ∀ c ∈ digits, c.isDigit = true)
    (lead : Int) : ∀ c ∈ l.positionalText digits lead, isNumeral c = true := by
  intro c hc
  unfold positionalText at hc
  dsimp only at hc
  split at hc
  · simp only [List.cons_append, List.mem_cons, List.mem_append, List.mem_replicate] at hc
    rcases hc with rfl | rfl | ⟨-, rfl⟩ | hc
    · rfl
    · rfl
    · rfl
    · exact isNumeral_of_isDigit (hd c hc)
  · split at hc
    · simp only [List.mem_append, List.mem_replicate] at hc
      rcases hc with (hc | ⟨-, rfl⟩) | hc
      · exact isNumeral_of_isDigit (hd c hc)
      · rfl
      · split at hc
        · simp only [List.mem_cons, List.not_mem_nil, or_false] at hc
          rcases hc with rfl | rfl <;> rfl
        · cases hc
    · simp only [List.mem_append, List.mem_cons] at hc
      rcases hc with hc | rfl | hc
      · exact isNumeral_of_isDigit (hd c (List.mem_of_mem_take hc))
      · rfl
      · exact isNumeral_of_isDigit (hd c (List.mem_of_mem_drop hc))

theorem isNumeral_scientificText {digits : List Char} (hd : ∀ c ∈ digits, c.isDigit = true)
    (lead : Int) : ∀ c ∈ scientificText digits lead, isNumeral c = true := by
  have hexp : ∀ c ∈ Nat.toDigits 10 lead.natAbs, isNumeral c = true := fun c hc =>
    isNumeral_of_isDigit (Text.isDigit_of_mem_toDigits hc)
  have hdigit : ∀ c ∈ digits, isNumeral c = true := fun c hc => isNumeral_of_isDigit (hd c hc)
  intro c hc
  simp only [scientificText, List.mem_append, List.mem_cons] at hc
  rcases hc with hc | rfl | rfl | hc
  · split at hc
    · simp only [List.mem_cons] at hc
      rcases hc with rfl | rfl | hc
      · exact hdigit _ List.mem_cons_self
      · rfl
      · exact hdigit c (List.mem_cons_of_mem _ (List.mem_cons.2 hc))
    · exact hdigit c hc
  · rfl
  · split <;> rfl
  · exact hexp c hc

theorem isNumeral_text (x : FiniteBinary p) : ∀ c ∈ l.text x, isNumeral c = true := by
  have hmagnitude : ∀ c ∈ l.magnitudeText x, isNumeral c = true := by
    unfold magnitudeText decimalText
    split
    · exact isNumeral_positionalText l (by simp) 0
    · dsimp only
      split
      · exact isNumeral_positionalText l (fun _ => Text.isDigit_of_mem_toDigits) _
      · exact isNumeral_scientificText (fun _ => Text.isDigit_of_mem_toDigits) _
  intro c hc
  rw [text_eq] at hc
  split at hc
  · rcases List.mem_cons.1 hc with rfl | hc
    · rfl
    · exact hmagnitude c hc
  · exact hmagnitude c hc

/-! ## Points and exponents -/

/-- A layout that keeps the point of whole numbers never writes digits alone. -/
theorem exists_not_digit (hl : l.keepsPoint = true) (x : FiniteBinary p) :
    ∃ c ∈ l.magnitudeText x, c.isDigit = false := by
  have hpositional : ∀ digits lead, ∃ c ∈ l.positionalText digits lead, c.isDigit = false := by
    intro digits lead
    refine ⟨'.', ?_, rfl⟩
    simp only [positionalText, hl, if_true]
    split
    · simp
    · split <;> simp
  unfold magnitudeText decimalText
  split
  · exact hpositional _ _
  · dsimp only
    split
    · exact hpositional _ _
    · exact ⟨'e', by simp [scientificText], rfl⟩

/-! ## Before and after the point -/

/-- A number without superfluous zeros, of `m` digits after the first, and a point with a digit and
`n` more, at most. The point may be missing if the layout does not keep it. -/
def SplitsAtPoint (l : Layout) (text : List Char) (m n : Nat) : Prop :=
  ∃ w ws fraction, text = w :: ws ++ fraction ∧ (∀ x ∈ w :: ws, x.isDigit = true) ∧
    (w = '0' → ws = []) ∧ ws.length ≤ m ∧
    (fraction = [] ∧ l.keepsPoint = false ∨ ∃ d es, fraction = '.' :: d :: es ∧
      (∀ x ∈ d :: es, x.isDigit = true) ∧ es.length ≤ n)

theorem SplitsAtPoint.mono {text : List Char} {m m' n n' : Nat} (h : l.SplitsAtPoint text m n)
    (hm : m ≤ m') (hn : n ≤ n') : l.SplitsAtPoint text m' n' := by
  obtain ⟨w, ws, fraction, htext, hws, hzero, hlength, hfraction⟩ := h
  refine ⟨w, ws, fraction, htext, hws, hzero, Nat.le_trans hlength hm, hfraction.imp_right ?_⟩
  rintro ⟨d, es, hes, hdigits, hle⟩
  exact ⟨d, es, hes, hdigits, Nat.le_trans hle hn⟩

theorem isDigit_zeros (n : Nat) : ∀ x ∈ List.replicate n '0', x.isDigit = true := by
  intro x hx
  rw [List.eq_of_mem_replicate hx]
  rfl

section Split

variable {c : Char} {ds : List Char} (hds : ∀ x ∈ c :: ds, x.isDigit = true)

include hds

/-- Digits after the point, and zeros before them. -/
theorem splitsAtPoint_zerosBefore (n : Nat) :
    l.SplitsAtPoint ('0' :: '.' :: List.replicate n '0' ++ c :: ds) 0 (n + ds.length) := by
  obtain ⟨d, es, hfraction⟩ : ∃ d es, List.replicate n '0' ++ c :: ds = d :: es :=
    List.exists_cons_of_ne_nil (by simp)
  have hlength := congrArg List.length hfraction
  rw [List.length_append, List.length_replicate, List.length_cons, List.length_cons] at hlength
  refine ⟨'0', [], '.' :: d :: es, ?_, by simp, fun _ => rfl, Nat.le_refl _,
    .inr ⟨d, es, rfl, ?_, by omega⟩⟩
  · rw [List.cons_append, List.cons_append, hfraction]
    rfl
  · rw [← hfraction]
    exact List.forall_mem_append.2 ⟨isDigit_zeros n, hds⟩

/-- Digits before the point, and zeros after them. -/
theorem splitsAtPoint_zerosAfter {n : Nat} (hzero : c = '0' → ds = [] ∧ n = 0) :
    l.SplitsAtPoint (c :: ds ++ List.replicate n '0' ++ if l.keepsPoint then ['.', '0'] else [])
      (ds.length + n) 0 := by
  refine ⟨c, ds ++ List.replicate n '0', _, rfl, ?_, fun hc => ?_, ?_, ?_⟩
  · rw [← List.cons_append]
    exact List.forall_mem_append.2 ⟨hds, isDigit_zeros n⟩
  · obtain ⟨rfl, rfl⟩ := hzero hc
    rfl
  · rw [List.length_append, List.length_replicate]
  · cases hpoint : l.keepsPoint with
    | false => exact .inl ⟨rfl, rfl⟩
    | true => exact .inr ⟨'0', [], rfl, by simp, Nat.le_refl _⟩

/-- Digits with the point between them. -/
theorem splitsAtPoint_pointAt {n : Nat} (hn : n < ds.length) (hzero : c = '0' → ds = []) :
    l.SplitsAtPoint ((c :: ds).take (n + 1) ++ '.' :: (c :: ds).drop (n + 1)) n
      (ds.length - n - 1) := by
  obtain ⟨d, es, hdrop⟩ : ∃ d es, ds.drop n = d :: es :=
    List.exists_cons_of_ne_nil fun hnil => Nat.not_lt.2 (List.drop_eq_nil_iff.1 hnil) hn
  have hlength := congrArg List.length hdrop
  rw [List.length_drop, List.length_cons] at hlength
  obtain ⟨hc, hlater⟩ := List.forall_mem_cons.1 hds
  refine ⟨c, ds.take n, '.' :: d :: es, ?_, ?_, fun hc => ?_, List.length_take_le _ _,
    .inr ⟨d, es, rfl, ?_, by omega⟩⟩
  · rw [List.take_succ_cons, List.drop_succ_cons, hdrop]
  · exact List.forall_mem_cons.2 ⟨hc, fun x hx => hlater x (List.mem_of_mem_take hx)⟩
  · rw [hzero hc]
    exact List.take_nil
  · rw [← hdrop]
    exact fun x hx => hlater x (List.mem_of_mem_drop hx)

theorem splitsAtPoint_positionalText {lead : Int} (hzero : c = '0' → ds = [] ∧ lead ≤ 0) :
    l.SplitsAtPoint (l.positionalText (c :: ds) lead) lead.toNat (ds.length - lead).toNat := by
  unfold positionalText
  dsimp only
  split
  · exact (l.splitsAtPoint_zerosBefore hds _).mono l (by omega) (by omega)
  · split
    · next hshort =>
      rw [List.length_cons] at hshort ⊢
      refine (l.splitsAtPoint_zerosAfter hds fun hc => ?_).mono l (by omega) (by omega)
      obtain ⟨rfl, hle⟩ := hzero hc
      exact ⟨rfl, by rw [List.length_nil]; omega⟩
    · next hlong =>
      rw [List.length_cons] at hlong
      exact (l.splitsAtPoint_pointAt hds (by omega) fun hc => (hzero hc).1).mono l (by omega)
        (by omega)

end Split

/-- The digits of a float are written out around the point, a leading zero alone, or before an
exponent. -/
theorem magnitudeText_cases (x : FiniteBinary p) : ∃ c ds lead, (∀ d ∈ c :: ds, d.isDigit = true) ∧
    ((c = '0' → ds = [] ∧ lead ≤ 0) ∧ l.magnitudeText x = l.positionalText (c :: ds) lead ∨
      l.isPositional lead = false ∧ l.magnitudeText x = scientificText (c :: ds) lead) := by
  have hzero : ∀ d ∈ ['0'], d.isDigit = true := by simp
  unfold magnitudeText decimalText
  split
  · exact ⟨'0', [], 0, hzero, .inl ⟨fun _ => ⟨rfl, Int.le_refl _⟩, rfl⟩⟩
  · next hx =>
    dsimp only
    rcases Magnitude.digits_shortest l.tie hx with hdigits | hnone
    · obtain ⟨c, ds, hds, -, hc⟩ := Text.exists_toDigits_eq_cons (Nat.pos_of_ne_zero hdigits)
      refine ⟨c, ds, ((c :: ds).length : Int) - 1 + (x.magnitude.shortest l.tie).exponent,
        Text.isDigit_of_toDigits_eq hds, ?_⟩
      rw [hds]
      split
      · exact .inl ⟨fun h => absurd h hc, rfl⟩
      · next hpositional => exact .inr ⟨Bool.eq_false_iff.2 hpositional, rfl⟩
    · rw [hnone]
      refine ⟨'0', [], 0, hzero, ?_⟩
      split
      · exact .inl ⟨fun _ => ⟨rfl, Int.le_refl _⟩, rfl⟩
      · next hpositional => exact .inr ⟨Bool.eq_false_iff.2 hpositional, rfl⟩

end Layout

/-! ## Floats the reader finds again -/

/-- The reader of a precision finds the float in the text that is written for it. -/
def FiniteBinary.ReadsBack {p : Precision} (x : FiniteBinary p) : Prop :=
  Token.float p x.number.text = .ok (.finite x, [])

/-- The float is finite and is found again in its text. -/
def Binary.ReadsBack {p : Precision} : Binary p → Prop
  | .finite x => x.ReadsBack
  | .infinite _ => False
  | .nan => False

instance {p : Precision} (x : FiniteBinary p) : Decidable x.ReadsBack :=
  decidable_of_iff ((match Token.float p x.number.text with
    | .ok (y, []) => decide (y = .finite x)
    | _ => false) = true) (by
    unfold FiniteBinary.ReadsBack
    split
    · next h => simp [h]
    · next h => exact iff_of_false (by decide) fun hx => h _ hx)

instance {p : Precision} : (x : Binary p) → Decidable x.ReadsBack
  | .finite x => inferInstanceAs (Decidable x.ReadsBack)
  | .infinite _ => inferInstanceAs (Decidable False)
  | .nan => inferInstanceAs (Decidable False)

namespace FiniteBinary

variable {p : Precision}

/-- How a precision is written. -/
def layout : Precision → Layout
  | .single => .jsonSingle
  | .double => .jsonDouble

theorem text_number (x : FiniteBinary p) : x.number.text = (layout p).text x := by
  cases p <;> rfl

theorem text_head (x : FiniteBinary p) :
    ∃ c tail, x.number.text = c :: tail ∧ (c = '-' ∨ c.isDigit = true) := by
  rw [text_number]
  exact Layout.text_head _ x

end FiniteBinary

namespace Token

/-- What is found in the text of a float is found in front of whatever follows it. -/
theorem reads_float_of_ok {p : Precision} {x : FiniteBinary p} {y : Binary p}
    (h : float p x.number.text = .ok (y, [])) : Reads (float p) x.number.text y := by
  intro rest hr
  obtain ⟨c, tail, htext, hc⟩ := x.text_head
  unfold float at h
  rw [htext] at h ⊢
  cases hn : anyNumber (.float p) (c :: tail) with
  | error e =>
    rw [hn] at h
    cases h
  | ok a =>
    obtain ⟨n, r⟩ := a
    rw [hn] at h
    simp only [Read.map, Except.ok.injEq, Prod.mk.injEq] at h
    obtain ⟨hvalue, rfl⟩ := h
    rw [float, anyNumber_append hc hr hn]
    simp only [Read.map, hvalue, List.nil_append]

theorem reads_float {p : Precision} {x : FiniteBinary p} (h : x.ReadsBack) :
    Reads (float p) x.number.text (.finite x) :=
  reads_float_of_ok h

/-- A float is read after its sign. -/
theorem anyNumber_number {p : Precision} (x : FiniteBinary p) (expected : Expected) :
    anyNumber expected x.number.text =
      number x.negative ((FiniteBinary.layout p).magnitudeText x) := by
  obtain ⟨c, tail, hmag, hdigit⟩ := Layout.magnitudeText_head (FiniteBinary.layout p) x
  rw [x.text_number, Layout.text_eq]
  by_cases hneg : x.negative = true
  · rw [if_pos hneg, anyNumber_cons (.inl rfl), if_pos rfl, hneg]
  · have hc : c ≠ '-' := by
      rintro rfl
      cases hdigit
    rw [if_neg hneg, hmag, anyNumber_cons (.inr hdigit), if_neg hc, Bool.eq_false_iff.2 hneg]

/-- Without a declared type the text of a double is read as the double, never as an integer. -/
theorem number_of_readsBack {x : FiniteBinary .double} (h : x.ReadsBack) (expected : Expected) :
    anyNumber expected x.number.text = .ok (⟨.double x, trivial⟩, []) := by
  obtain ⟨b, hb, hbd⟩ := Layout.exists_not_digit .jsonDouble rfl x
  unfold FiniteBinary.ReadsBack float at h
  rw [anyNumber_number] at h ⊢
  cases hn : number x.negative ((FiniteBinary.layout .double).magnitudeText x) with
  | error e =>
    rw [hn] at h
    cases h
  | ok a =>
    obtain ⟨n, r⟩ := a
    rw [hn] at h
    simp only [Read.map, Except.ok.injEq, Prod.mk.injEq] at h
    obtain ⟨hvalue, rfl⟩ := h
    obtain ⟨n, hdynamic⟩ := n
    cases n with
    | single y => exact hdynamic.elim
    | double y =>
      have hxy : (Binary.finite y : Binary .double) = .finite x := hvalue
      cases hxy
      rfl
    | int i =>
      -- an integer would be digits throughout, and the magnitude is not
      have hdigits := isDigit_of_number_int rfl hn
      rw [hdigits b hb] at hbd
      cases hbd

end Token

end SchemaStore
