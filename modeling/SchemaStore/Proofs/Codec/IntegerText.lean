import SchemaStore.Proofs.Codec.RoundTrip
import SchemaStore.Proofs.Json.SkipToken

/-!
# Texts of integers

An integer is read from its decimal text, with JSON blanks around it, and from no other text
(`Codec.decode_int_iff`). The reader of 64-bit numbers makes an integer only of digits that stand
alone and fit (`Token.number_int_ok`), and the wider types accept a sign and digits as well
(`Token.integer_ok`). The one text that is not how its integer is written is `-0`: the 64-bit reader
takes it for a float, and the reader of 128 bits for zero where a sign may stand.
-/

namespace SchemaStore

/-! ## Blanks -/

namespace Text

/-- The text is `body` with JSON blanks around it, if any. -/
def Spaced (body cs : List Char) : Prop :=
  ∃ before after, (∀ c ∈ before, isJsonBlank c = true) ∧ (∀ c ∈ after, isJsonBlank c = true) ∧
    cs = before ++ (body ++ after)

variable {cs body after : List Char}

theorem skipBlanks_eq_nil_iff : skipBlanks cs = [] ↔ ∀ c ∈ cs, isJsonBlank c = true :=
  List.dropWhile_eq_nil_iff

theorem spaced_of_skipBlanks (h : skipBlanks cs = body ++ after) (hafter : skipBlanks after = []) :
    Spaced body cs := by
  refine ⟨cs.takeWhile isJsonBlank, after, fun c hc => List.mem_takeWhile_imp hc,
    skipBlanks_eq_nil_iff.1 hafter, ?_⟩
  rw [← h]
  exact List.takeWhile_append_dropWhile.symm

/-- Blanks are skipped up to a body that starts with none. -/
theorem Spaced.skipBlanks {c : Char} {tail : List Char} (h : Spaced (c :: tail) cs)
    (hc : isJsonBlank c = false) :
    ∃ after, Text.skipBlanks cs = c :: tail ++ after ∧ Text.skipBlanks after = [] := by
  obtain ⟨before, after, hbefore, hafter, rfl⟩ := h
  refine ⟨after, ?_, skipBlanks_eq_nil_iff.2 hafter⟩
  rw [Text.skipBlanks, List.dropWhile_append_of_pos hbefore]
  exact Token.skipBlanks_cons hc _

end Text

/-! ## What is read as an integer -/

namespace Token

variable {negative : Bool} {n : WordNumber} {i : Int} {cs rest : List Char}

theorem ends_of_afterWhole_int {significand extra : Nat} (hdigit : Text.startsWithDigit cs = false)
    (hi : n.1 = .int i) (h : afterWhole negative significand extra cs = .ok (n, rest)) :
    Ends cs := by
  have notDouble : ¬ ∃ x, n.1 = .double x := by
    rintro ⟨x, hx⟩
    rw [hi] at hx
    cases hx
  intro c hc
  obtain ⟨tail, rfl⟩ := List.head?_eq_some_iff.1 hc
  have hpoint : c ≠ '.' := by
    rintro rfl
    exact notDouble (fractionPart_double h)
  refine ⟨hdigit, hpoint, Bool.eq_false_iff.2 fun hmark => ?_⟩
  rw [afterWhole, if_pos hmark] at h
  · exact notDouble (exponentPart_double h)
  · exact hpoint

/-- Of a number that is an integer the digits are read, and nothing follows that continues them. -/
theorem digits_of_number_int (hi : n.1 = .int i) (h : number negative cs = .ok (n, rest)) :
    ∃ m, cs = Nat.toDigits 10 m ++ rest ∧ Ends rest := by
  unfold number at h
  split at h
  · cases h
  · next tail =>
    split at h
    · cases h
    · next hdigit =>
      obtain rfl := rest_of_afterWhole_int hi h
      exact ⟨0, rfl, ends_of_afterWhole_int (Bool.eq_false_iff.2 hdigit) hi h⟩
  · next c tail hzero =>
    split at h
    · next hc =>
      dsimp only at h
      rw [Text.spanDigits_absorbDigits] at h
      obtain rfl := rest_of_afterWhole_int hi h
      obtain ⟨ds, hds, hcs⟩ := Text.exists_digits_cons tail hc
      refine ⟨Text.digitsValue (c :: ds), ?_, ?_⟩
      · rw [Text.toDigits_digitsValue hds hzero]
        exact hcs
      · exact ends_of_afterWhole_int (Text.startsWithDigit_rest _) hi h
    · cases h

/-- A number that is an integer is the one its sign and its digits spell, and no negative zero. -/
theorem number_int_ok (hi : n.1 = .int i) (h : number negative cs = .ok (n, rest)) :
    ∃ m : Nat, cs = Nat.toDigits 10 m ++ rest ∧ i = (if negative then -(m : Int) else (m : Int)) ∧
      ¬ (negative = true ∧ m = 0) := by
  obtain ⟨m, rfl, hrest⟩ := digits_of_number_int hi h
  obtain ⟨hfits, hzero⟩ := fits_of_number_toDigits hrest hi h
  have hfew : m ≤ maxWord := by
    unfold FitsWord at hfits
    unfold maxWord
    split at hfits <;> omega
  have hread := number_append hrest (number_toDigits hfits rfl hfew hzero)
  rw [List.nil_append, h] at hread
  cases hread
  exact ⟨m, rfl, (Number.int.inj hi).symm, hzero⟩

theorem anyNumber_ok {expected : Expected} (h : anyNumber expected cs = .ok (n, rest)) :
    ∃ negative body, Text.skipBlanks cs = (if negative then '-' :: body else body) ∧
      number negative body = .ok (n, rest) := by
  rw [anyNumber, value] at h
  split at h
  · cases h
  · next c tail hcs =>
    rw [hcs]
    split at h
    · next hminus => exact ⟨true, tail, by rw [hminus, if_pos rfl], h⟩
    · split at h
      · exact ⟨false, c :: tail, rfl, h⟩
      · exact absurd h (Codec.refuses_mismatch expected _ _ _)

theorem wide_ok {k : IntKind} {v : k.Val} (h : wide k cs = .ok (v, rest)) :
    ∃ negative body, Text.skipBlanks cs = (if negative then '-' :: body else body) ∧
      wideInteger negative body = .ok (v.val, rest) ∧ (negative = true → k.signed = true) := by
  rw [wide, value] at h
  split at h
  · cases h
  · next c tail hcs =>
    rw [hcs]
    split at h
    · cases h
    · next hsigned =>
      obtain ⟨n, mid, hread, hv⟩ := Read.andThen_ok h
      obtain ⟨hn, rfl⟩ : v.val = n ∧ rest = mid := by
        split at hv
        · next w hw =>
          cases hv
          exact ⟨IntKind.val_of_ofInt? hw, rfl⟩
        · cases hv
      rw [← hn] at hread
      split at hread
      · next hminus =>
        refine ⟨true, tail, by rw [hminus, if_pos rfl], hread, fun _ => ?_⟩
        exact Bool.of_not_eq_false fun hk => hsigned ⟨hminus, hk⟩
      · exact ⟨false, c :: tail, rfl, hread, fun h => absurd h Bool.false_ne_true⟩

/-- What is read as an integer are a sign and digits. A negative zero is read with 128 bits only. -/
theorem integer_ok {k : IntKind} {v : k.Val} (h : integer k cs = .ok (v, rest)) :
    ∃ (negative : Bool) (m : Nat), Text.skipBlanks cs = signedDigits negative m ++ rest ∧
      v.val = (if negative then -(m : Int) else (m : Int)) ∧
      (negative = true ∧ m = 0 → k = .i128) := by
  have hsign : ∀ (negative : Bool) (m : Nat) (body : List Char),
      body = Nat.toDigits 10 m ++ rest →
      (if negative then '-' :: body else body) = signedDigits negative m ++ rest := by
    intro negative m body hbody
    cases negative with
    | true => rw [if_pos rfl, hbody, signedDigits, if_pos rfl, List.cons_append]
    | false => rw [if_neg Bool.false_ne_true, hbody, signedDigits, if_neg Bool.false_ne_true]
  rw [integer] at h
  split at h
  · next hwide =>
    obtain ⟨negative, body, hcs, hread, hsigned⟩ := wide_ok h
    obtain ⟨m, hbody, hv⟩ := eq_toDigits_of_wideInteger hread
    refine ⟨negative, m, hcs.trans (hsign negative m body hbody), hv, fun hzero => ?_⟩
    obtain ⟨signed, width⟩ := k
    obtain rfl : signed = true := hsigned hzero.1
    obtain rfl : width = .w128 := by simpa [IntKind.isWide] using hwide
    rfl
  · cases hread : anyNumber (.integer k) cs with
    | error e =>
      rw [hread] at h
      cases h
    | ok p =>
      obtain ⟨⟨n, hn⟩, mid⟩ := p
      obtain ⟨negative, body, hcs, hnumber⟩ := anyNumber_ok hread
      rw [hread] at h
      cases n with
      | single x => exact hn.elim
      | double x => cases h
      | int i =>
        simp only [Read.check, IntKind.ofNumber] at h
        cases hv : k.ofInt? i with
        | none =>
          rw [hv] at h
          cases h
        | some w =>
          rw [hv] at h
          cases h
          obtain ⟨m, hbody, hi, hzero⟩ := number_int_ok rfl hnumber
          exact ⟨negative, m, hcs.trans (hsign negative m body hbody),
            (IntKind.val_of_ofInt? hv).trans hi, fun h => absurd h hzero⟩

/-- With 128 bits a zero may carry a sign. -/
theorem reads_minusZero : Reads (integer .i128) ['-', '0'] ⟨0, by decide⟩ := by
  intro rest hrest
  have hread : wideInteger true (['0'] ++ rest) = .ok (0, rest) := wideInteger_toDigits true 0 hrest
  have hwide : wide .i128 ('-' :: (['0'] ++ rest)) = .ok (⟨0, by decide⟩, rest) := by
    rw [wide, value_cons rfl, if_neg (by decide), if_pos rfl, hread]
    rfl
  exact hwide

theorem integer_skipBlanks (k : IntKind) (cs : List Char) :
    integer k (Text.skipBlanks cs) = integer k cs := by
  simp only [integer, wide, anyNumber, value, Text.skipBlanks_skipBlanks]

end Token

/-! ## Texts that are decoded -/

/-- A text is read to its end when blanks are all there is around what is read. -/
theorem Read.whole_of_spaced {α : Type} {read : List Char → Read α} {a : α} {c : Char}
    {tail cs : List Char} (hskip : ∀ cs, read (Text.skipBlanks cs) = read cs)
    (hc : Text.isJsonBlank c = false) (hreads : Token.Reads read (c :: tail) a)
    (h : Text.Spaced (c :: tail) cs) : Read.whole read cs = .ok a := by
  obtain ⟨after, hcs, hafter⟩ := h.skipBlanks hc
  have hends : Token.Ends after := by
    apply Token.Ends.of_skipBlanks
    rw [hafter]
    exact Token.ends_nil
  have hread := hreads after hends
  rw [← hcs, hskip] at hread
  rw [Read.whole, hread]
  dsimp only
  rw [hafter]

namespace Codec

/-- The text spells the integer: its decimal text, blanks around it, and for a zero of 128 bits with
a sign also the text with that sign. -/
def SpellsInteger (k : IntKind) (n : Int) (cs : List Char) : Prop :=
  Text.Spaced (Text.decimal n) cs ∨ (k = .i128 ∧ n = 0 ∧ Text.Spaced ['-', '0'] cs)

theorem parse_int_iff {k : IntKind} {v : k.Val} {cs : List Char} :
    (Shape.int k).parse cs = .ok v ↔ SpellsInteger k v.val cs := by
  constructor
  · intro h
    obtain ⟨rest, hread, hrest⟩ := Read.whole_ok h
    obtain ⟨negative, m, hcs, hv, hzero⟩ := Token.integer_ok hread
    have hspaced := Text.spaced_of_skipBlanks hcs hrest
    by_cases hsigned : negative = true ∧ m = 0
    · refine .inr ⟨hzero hsigned, ?_, ?_⟩
      · rw [hv, hsigned.2]
        simp
      · rwa [Token.signedDigits_eq.2 hsigned] at hspaced
    · rw [← Token.decimal_signed hsigned, ← hv] at hspaced
      exact .inl hspaced
  · rintro (hspaced | ⟨rfl, hv, hspaced⟩)
    · obtain ⟨c, tail, htext, hc⟩ := Json.decimal_head v.val
      have hreads := Token.reads_integer k v
      rw [htext] at hspaced hreads
      exact Read.whole_of_spaced (Token.integer_skipBlanks k) (Token.not_blank_of_numeral hc)
        hreads hspaced
    · obtain rfl : v = ⟨0, by decide⟩ := Subtype.ext hv
      exact Read.whole_of_spaced (Token.integer_skipBlanks .i128) rfl Token.reads_minusZero hspaced

/-- Where no bare text is a value, what is decoded is what the text is as JSON. -/
theorem decode_ok_iff {s : Shape} {raw : String} {v : s.Val}
    (hbare : ∀ w, s.ofDocument (Document.ofText raw) ≠ .ok w) :
    decode s raw = .ok v ↔ s.parse raw.toList = .ok v := by
  cases hread : s.ofDocument (Document.ofText raw) with
  | ok w => exact absurd hread (hbare w)
  | error e =>
    cases hparse : s.parse raw.toList with
    | ok w =>
      rw [decode]
      cases Attempt.first raw <;> simp only [Attempt.other, Attempt.read, hread, hparse]
    | error e' =>
      rw [decode]
      cases Attempt.first raw <;> simp [Attempt.other, Attempt.read, hread, hparse]

/-- An integer is decoded from its decimal text, whatever blanks stand around it, and with 128 bits
and a sign zero from `-0` as well. Every other text is refused. -/
theorem decode_int_iff (k : IntKind) (raw : String) :
    (∀ n : Int, (∃ v : k.Val, decode (.int k) raw = .ok v ∧ v.val = n) ↔
      k.Holds n ∧ SpellsInteger k n raw.toList) ∧
    ((∃ e, decode (.int k) raw = .error e) ↔ ∀ n, k.Holds n → ¬ SpellsInteger k n raw.toList) := by
  have hdecode : ∀ v : k.Val, decode (.int k) raw = .ok v ↔ SpellsInteger k v.val raw.toList :=
    fun v => (decode_ok_iff (s := .int k) nofun).trans parse_int_iff
  refine ⟨fun n => ⟨?_, ?_⟩, ?_, ?_⟩
  · rintro ⟨v, hv, rfl⟩
    exact ⟨v.property, (hdecode v).1 hv⟩
  · rintro ⟨hn, hspells⟩
    exact ⟨⟨n, hn⟩, (hdecode ⟨n, hn⟩).2 hspells, rfl⟩
  · rintro ⟨e, he⟩ n hn hspells
    rw [(hdecode ⟨n, hn⟩).2 hspells] at he
    cases he
  · intro hnone
    cases h : decode (.int k) raw with
    | error e => exact ⟨e, rfl⟩
    | ok v => exact absurd ((hdecode v).1 h) (hnone v.val v.property)

end Codec

end SchemaStore
