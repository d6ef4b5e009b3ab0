import SchemaStore.Text.Utf8

/-!
# UTF-8, encoded and decoded

Encoded text is decoded again, strictly and lossily (`decode?_encode`, `decodeLossy_encode`), since
one step of the decoder takes exactly the bytes of one character (`step_encode`). Only the bytes of a
character make one (`encodeChar_of_step`), so strict decoding accepts nothing but encoded text
(`decode?_eq_some_iff`). The order of the bytes is the order of the characters, so texts compare like
their encodings (`compare_encode`).
-/

namespace SchemaStore.Utf8

/-! ## One character -/

theorem toNat_ofNat {n : Nat} (h : n < 256) : (UInt8.ofNat n).toNat = n := by
  rw [UInt8.toNat_ofNat']
  exact Nat.mod_eq_of_lt h

theorem within_iff {low high b : UInt8} :
    within low high b = true ↔ low.toNat ≤ b.toNat ∧ b.toNat ≤ high.toNat := by
  simp only [within, Bool.and_eq_true, decide_eq_true_eq, UInt8.le_iff_toNat_le]

theorem within_ofNat {low high : UInt8} {n : Nat} (h : n < 256) :
    within low high (UInt8.ofNat n) = true ↔ low.toNat ≤ n ∧ n ≤ high.toNat := by
  rw [within_iff, toNat_ofNat h]

theorem isContinuation_ofNat (n : Nat) : isContinuation (UInt8.ofNat (n % 64 + 128)) = true := by
  have hlt : n % 64 < 64 := Nat.mod_lt _ (by decide)
  rw [isContinuation, within_ofNat (by omega)]
  exact ⟨Nat.le_add_left _ _, show n % 64 + 128 ≤ 191 by omega⟩

theorem payload_ofNat (n : Nat) : payload (UInt8.ofNat (n % 64 + 128)) = n % 64 := by
  have hlt : n % 64 < 64 := Nat.mod_lt _ (by decide)
  rw [payload, toNat_ofNat (by omega)]
  omega

theorem ofNat_eq_iff {n : Nat} {b : UInt8} (h : n < 256) : UInt8.ofNat n = b ↔ n = b.toNat := by
  rw [← UInt8.toNat_inj, toNat_ofNat h]

theorem ofNat_lt_iff {n : Nat} {b : UInt8} (h : n < 256) : UInt8.ofNat n < b ↔ n < b.toNat := by
  rw [UInt8.lt_iff_toNat_lt, toNat_ofNat h]

theorem step_one {n : Nat} (h : n < 128) (rest : Bytes) :
    step (UInt8.ofNat n) rest = (some (Char.ofNat n), 0) := by
  have hlow : UInt8.ofNat n < 0x80 := (ofNat_lt_iff (by omega)).2 h
  rw [step.eq_def, if_pos hlow, toNat_ofNat (by omega)]

theorem step_two {n : Nat} (hlow : 128 ≤ n) (hhigh : n < 2048) (rest : Bytes) :
    step (UInt8.ofNat (n / 64 % 32 + 192)) (UInt8.ofNat (n % 64 + 128) :: rest) =
      (some (Char.ofNat n), 1) := by
  have hb : n / 64 % 32 + 192 < 256 := by omega
  have hascii : ¬ UInt8.ofNat (n / 64 % 32 + 192) < 0x80 := by
    simp only [ofNat_lt_iff hb, UInt8.reduceToNat]
    omega
  have htwo : within 0xC2 0xDF (UInt8.ofNat (n / 64 % 32 + 192)) = true := by
    simp only [within_ofNat hb, UInt8.reduceToNat]
    omega
  have hvalue : (n / 64 % 32 + 192) % 32 * 64 + n % 64 = n := by omega
  rw [step.eq_def, if_neg hascii, if_pos htwo]
  dsimp only
  rw [if_pos (isContinuation_ofNat n), payload_ofNat, toNat_ofNat hb, hvalue]

/-- The second of three bytes is in range, since short forms and surrogates are excluded. -/
theorem isSecond_three {n : Nat} (hlow : 2048 ≤ n) (hhigh : n < 65536)
    (hsurrogate : n < 0xD800 ∨ 0xDFFF < n) :
    isSecond (UInt8.ofNat (n / 4096 % 16 + 224)) (UInt8.ofNat (n / 64 % 64 + 128)) = true := by
  have hb : n / 4096 % 16 + 224 < 256 := by omega
  have hc : n / 64 % 64 + 128 < 256 := by omega
  simp only [isSecond, ofNat_eq_iff hb, UInt8.reduceToNat]
  split
  · simp only [within_ofNat hc, UInt8.reduceToNat]
    omega
  · split
    · simp only [within_ofNat hc, UInt8.reduceToNat]
      omega
    · rw [if_neg (by omega), if_neg (by omega)]
      exact isContinuation_ofNat (n / 64)

theorem step_three {n : Nat} (hlow : 2048 ≤ n) (hhigh : n < 65536)
    (hsurrogate : n < 0xD800 ∨ 0xDFFF < n) (rest : Bytes) :
    step (UInt8.ofNat (n / 4096 % 16 + 224))
        (UInt8.ofNat (n / 64 % 64 + 128) :: UInt8.ofNat (n % 64 + 128) :: rest) =
      (some (Char.ofNat n), 2) := by
  have hb : n / 4096 % 16 + 224 < 256 := by omega
  have hascii : ¬ UInt8.ofNat (n / 4096 % 16 + 224) < 0x80 := by
    simp only [ofNat_lt_iff hb, UInt8.reduceToNat]
    omega
  have htwo : ¬ within 0xC2 0xDF (UInt8.ofNat (n / 4096 % 16 + 224)) = true := by
    simp only [within_ofNat hb, UInt8.reduceToNat]
    omega
  have hthree : within 0xE0 0xEF (UInt8.ofNat (n / 4096 % 16 + 224)) = true := by
    simp only [within_ofNat hb, UInt8.reduceToNat]
    omega
  have hvalue : ((n / 4096 % 16 + 224) % 16 * 64 + n / 64 % 64) * 64 + n % 64 = n := by omega
  rw [step.eq_def, if_neg hascii, if_neg htwo, if_pos hthree]
  simp only [isSecond_three hlow hhigh hsurrogate, isContinuation_ofNat, Bool.not_true,
    Bool.false_eq_true, if_false, payload_ofNat, toNat_ofNat hb, hvalue]

/-- The second of four bytes is in range, since code points end at `0x10FFFF`. -/
theorem isSecond_four {n : Nat} (hlow : 65536 ≤ n) (hhigh : n < 0x110000) :
    isSecond (UInt8.ofNat (n / 262144 % 8 + 240)) (UInt8.ofNat (n / 4096 % 64 + 128)) = true := by
  have hb : n / 262144 % 8 + 240 < 256 := by omega
  have hc : n / 4096 % 64 + 128 < 256 := by omega
  simp only [isSecond, ofNat_eq_iff hb, UInt8.reduceToNat]
  rw [if_neg (by omega), if_neg (by omega)]
  split
  · simp only [within_ofNat hc, UInt8.reduceToNat]
    omega
  · split
    · simp only [within_ofNat hc, UInt8.reduceToNat]
      omega
    · exact isContinuation_ofNat (n / 4096)

theorem step_four {n : Nat} (hlow : 65536 ≤ n) (hhigh : n < 0x110000) (rest : Bytes) :
    step (UInt8.ofNat (n / 262144 % 8 + 240)) (UInt8.ofNat (n / 4096 % 64 + 128) ::
        UInt8.ofNat (n / 64 % 64 + 128) :: UInt8.ofNat (n % 64 + 128) :: rest) =
      (some (Char.ofNat n), 3) := by
  have hb : n / 262144 % 8 + 240 < 256 := by omega
  have hascii : ¬ UInt8.ofNat (n / 262144 % 8 + 240) < 0x80 := by
    simp only [ofNat_lt_iff hb, UInt8.reduceToNat]
    omega
  have htwo : ¬ within 0xC2 0xDF (UInt8.ofNat (n / 262144 % 8 + 240)) = true := by
    simp only [within_ofNat hb, UInt8.reduceToNat]
    omega
  have hthree : ¬ within 0xE0 0xEF (UInt8.ofNat (n / 262144 % 8 + 240)) = true := by
    simp only [within_ofNat hb, UInt8.reduceToNat]
    omega
  have hfour : within 0xF0 0xF4 (UInt8.ofNat (n / 262144 % 8 + 240)) = true := by
    simp only [within_ofNat hb, UInt8.reduceToNat]
    omega
  have hvalue : (((n / 262144 % 8 + 240) % 8 * 64 + n / 4096 % 64) * 64 + n / 64 % 64) * 64 +
      n % 64 = n := by omega
  rw [step.eq_def, if_neg hascii, if_neg htwo, if_neg hthree, if_pos hfour]
  simp only [isSecond_four hlow hhigh, isContinuation_ofNat, Bool.not_true, Bool.false_eq_true,
    if_false, payload_ofNat, toNat_ofNat hb, hvalue]

/-- Code points leave out the surrogates and end at the last plane. -/
theorem codePoint_range (c : Char) :
    c.val.toNat < 0xD800 ∨ 0xDFFF < c.val.toNat ∧ c.val.toNat < 0x110000 :=
  c.valid

/-- One step of the decoder takes exactly the bytes of one character. -/
theorem step_encode (c : Char) : ∃ b tail, String.utf8EncodeChar c = b :: tail ∧
    ∀ rest, step b (tail ++ rest) = (some c, tail.length) := by
  have hrange := codePoint_range c
  have hc : Char.ofNat c.val.toNat = c := Char.ofNat_toNat c
  unfold String.utf8EncodeChar
  dsimp only
  split
  · exact ⟨_, _, rfl, fun rest => (step_one (by omega) _).trans (by rw [hc]; rfl)⟩
  · split
    · exact ⟨_, _, rfl, fun rest => (step_two (by omega) (by omega) _).trans (by rw [hc]; rfl)⟩
    · split
      · exact ⟨_, _, rfl, fun rest =>
          (step_three (by omega) (by omega) (by omega) _).trans (by rw [hc]; rfl)⟩
      · exact ⟨_, _, rfl, fun rest => (step_four (by omega) (by omega) _).trans (by rw [hc]; rfl)⟩

/-! ## The bytes of one character -/

theorem isContinuation_iff {b : UInt8} :
    isContinuation b = true ↔ 128 ≤ b.toNat ∧ b.toNat ≤ 191 := within_iff

theorem isSecond_iff {lead b : UInt8} : isSecond lead b = true ↔
    (128 ≤ b.toNat ∧ b.toNat ≤ 191) ∧ (lead.toNat = 0xE0 → 0xA0 ≤ b.toNat) ∧
      (lead.toNat = 0xED → b.toNat ≤ 0x9F) ∧ (lead.toNat = 0xF0 → 0x90 ≤ b.toNat) ∧
      (lead.toNat = 0xF4 → b.toNat ≤ 0x8F) := by
  simp only [isSecond, ← UInt8.toNat_inj, UInt8.reduceToNat]
  repeat' split
  all_goals
    simp only [isContinuation, within_iff, UInt8.reduceToNat]
    omega

theorem val_ofNat {n : Nat} (h : n < 0xD800 ∨ 0xDFFF < n ∧ n < 0x110000) :
    (Char.ofNat n).val.toNat = n := by
  have hvalid : n.isValidChar := h
  rw [Char.ofNat, dif_pos hvalid]
  rfl

theorem encodeChar_one {b : UInt8} (hb : b < 0x80) :
    String.utf8EncodeChar (Char.ofNat b.toNat) = [b] := by
  have hlow : b.toNat < 128 := hb
  unfold String.utf8EncodeChar
  rw [val_ofNat (by omega)]
  dsimp only
  rw [if_pos (by omega)]
  simp (disch := omega) only [ofNat_eq_iff, List.cons.injEq, and_true]

theorem encodeChar_two {b c : UInt8} (hb : within 0xC2 0xDF b = true)
    (hc : isContinuation c = true) :
    String.utf8EncodeChar (Char.ofNat (b.toNat % 32 * 64 + payload c)) = [b, c] := by
  rw [within_iff] at hb
  rw [isContinuation_iff] at hc
  simp only [UInt8.reduceToNat] at hb
  unfold String.utf8EncodeChar payload
  rw [val_ofNat (by omega)]
  dsimp only
  rw [if_neg (by omega), if_pos (by omega)]
  simp (disch := omega) only [ofNat_eq_iff, List.cons.injEq, and_true]
  omega

/-- Three bytes in range are the encoding of the character that they are decoded as. -/
theorem encodeChar_three {b c d : UInt8} (hb : within 0xE0 0xEF b = true)
    (hc : isSecond b c = true) (hd : isContinuation d = true) :
    String.utf8EncodeChar (Char.ofNat ((b.toNat % 16 * 64 + payload c) * 64 + payload d)) =
      [b, c, d] := by
  rw [within_iff] at hb
  rw [isSecond_iff] at hc
  rw [isContinuation_iff] at hd
  simp only [UInt8.reduceToNat] at hb
  unfold String.utf8EncodeChar payload
  rw [val_ofNat (by omega)]
  dsimp only
  rw [if_neg (by omega), if_neg (by omega), if_pos (by omega)]
  simp (disch := omega) only [ofNat_eq_iff, List.cons.injEq, and_true]
  omega

theorem encodeChar_four {b c d e : UInt8} (hb : within 0xF0 0xF4 b = true)
    (hc : isSecond b c = true) (hd : isContinuation d = true) (he : isContinuation e = true) :
    String.utf8EncodeChar (Char.ofNat
      (((b.toNat % 8 * 64 + payload c) * 64 + payload d) * 64 + payload e)) = [b, c, d, e] := by
  rw [within_iff] at hb
  rw [isSecond_iff] at hc
  rw [isContinuation_iff] at hd he
  simp only [UInt8.reduceToNat] at hb
  unfold String.utf8EncodeChar payload
  rw [val_ofNat (by omega)]
  dsimp only
  rw [if_neg (by omega), if_neg (by omega), if_neg (by omega)]
  simp (disch := omega) only [ofNat_eq_iff, List.cons.injEq, and_true]
  omega

/-- The bytes of which the decoder makes a character are those of the character. -/
theorem encodeChar_of_step {b : UInt8} {rest : Bytes} {c : Char} {used : Nat}
    (h : step b rest = (some c, used)) : ∃ tail after, rest = tail ++ after ∧
      tail.length = used ∧ String.utf8EncodeChar c = b :: tail := by
  rw [step.eq_def] at h
  split at h
  · next hb =>
    cases h
    exact ⟨[], rest, rfl, rfl, encodeChar_one hb⟩
  · split at h
    · next hb =>
      split at h
      · next c rest =>
        split at h
        · next hc =>
          cases h
          exact ⟨[c], rest, rfl, rfl, encodeChar_two hb hc⟩
        · cases h
      · cases h
    · split at h
      · next hb =>
        split at h
        · next c d rest =>
          split at h
          · cases h
          · next hc =>
            split at h
            · cases h
            · next hd =>
              cases h
              simp only [Bool.not_eq_true', Bool.not_eq_false] at hc hd
              exact ⟨[c, d], rest, rfl, rfl, encodeChar_three hb hc hd⟩
        · cases h
        · cases h
      · split at h
        · next hb =>
          split at h
          · next c d e rest =>
            split at h
            · cases h
            · next hc =>
              split at h
              · cases h
              · next hd =>
                split at h
                · cases h
                · next he =>
                  cases h
                  simp only [Bool.not_eq_true', Bool.not_eq_false] at hc hd he
                  exact ⟨[c, d, e], rest, rfl, rfl, encodeChar_four hb hc hd he⟩
          · cases h
          · cases h
          · cases h
        · cases h

/-! ## Whole texts -/

/-- Bytes that were taken with an earlier one are passed over. -/
theorem strict_taken (taken rest : Bytes) :
    strict taken.length (taken ++ rest) = strict 0 rest := by
  induction taken with
  | nil => rfl
  | cons b taken ih => exact ih

theorem lossy_taken (taken rest : Bytes) : lossy taken.length (taken ++ rest) = lossy 0 rest := by
  induction taken with
  | nil => rfl
  | cons b taken ih => exact ih

theorem strict_encode (cs : List Char) : strict 0 (cs.flatMap String.utf8EncodeChar) = some cs := by
  induction cs with
  | nil => rfl
  | cons c cs ih =>
    obtain ⟨b, tail, hbytes, hstep⟩ := step_encode c
    rw [List.flatMap_cons, hbytes, List.cons_append, strict, hstep]
    dsimp only
    rw [strict_taken, ih]
    rfl

theorem lossy_encode (cs : List Char) : lossy 0 (cs.flatMap String.utf8EncodeChar) = cs := by
  induction cs with
  | nil => rfl
  | cons c cs ih =>
    obtain ⟨b, tail, hbytes, hstep⟩ := step_encode c
    rw [List.flatMap_cons, hbytes, List.cons_append, lossy, hstep]
    dsimp only
    rw [lossy_taken, ih]
    rfl

/-- Encoded text is valid, and decoded again. -/
@[simp]
theorem decode?_encode (s : String) : decode? (encode s) = some s := by
  rw [decode?, encode, strict_encode, Option.map_some, String.ofList_toList]

/-- In encoded text nothing is replaced. -/
@[simp]
theorem decodeLossy_encode (s : String) : decodeLossy (encode s) = s := by
  rw [decodeLossy, encode, lossy_encode, String.ofList_toList]

theorem encode_injective : Function.Injective encode :=
  fun s t h => by rw [← decodeLossy_encode s, h, decodeLossy_encode]

/-- What is decoded strictly has the bytes it was decoded from. -/
theorem encode_of_strict {taken : Nat} {bytes : Bytes} {cs : List Char}
    (h : strict taken bytes = some cs) :
    cs.flatMap String.utf8EncodeChar = bytes.drop taken := by
  induction taken, bytes using strict.induct generalizing cs with
  | case1 taken =>
    cases h
    exact List.drop_nil.symm
  | case2 taken b rest ih => exact ih h
  | case3 b rest c used hstep ih =>
    rw [strict, hstep] at h
    obtain ⟨cs, hcs, rfl⟩ := Option.map_eq_some_iff.1 h
    obtain ⟨tail, after, rfl, rfl, hbytes⟩ := encodeChar_of_step hstep
    rw [List.flatMap_cons, hbytes, ih hcs, List.drop_left]
    rfl
  | case4 b rest used hstep =>
    rw [strict, hstep] at h
    cases h

/-- Only encoded text is valid. -/
theorem decode?_eq_some_iff {bytes : Bytes} {text : String} :
    decode? bytes = some text ↔ encode text = bytes := by
  constructor
  · intro h
    obtain ⟨cs, hcs, rfl⟩ := Option.map_eq_some_iff.1 h
    rw [encode, String.toList_ofList, encode_of_strict hcs, List.drop_zero]
  · rintro rfl
    exact decode?_encode text

/-- What is decoded lossily has the bytes it was decoded from, if no character stands for broken
ones. -/
theorem encode_of_lossy {taken : Nat} {bytes : Bytes} (h : '\uFFFD' ∉ lossy taken bytes) :
    (lossy taken bytes).flatMap String.utf8EncodeChar = bytes.drop taken := by
  induction taken, bytes using lossy.induct with
  | case1 taken => exact List.drop_nil.symm
  | case2 taken b rest ih => exact ih h
  | case3 b rest ih =>
    rw [lossy] at h ⊢
    obtain ⟨hfirst, hrest⟩ := not_or.1 (mt List.mem_cons.2 h)
    -- a character that is broken off would be replaced
    cases hstep : step b rest with
    | mk found used =>
      rw [hstep] at hfirst hrest ih
      cases found with
      | none => exact absurd rfl hfirst
      | some c =>
        obtain ⟨tail, after, rfl, rfl, hbytes⟩ := encodeChar_of_step hstep
        dsimp only at ih hrest ⊢
        rw [Option.getD_some, List.flatMap_cons, hbytes, ih hrest, List.drop_left]
        rfl

/-- A text without replacement characters is found in the bytes that spell it only. -/
theorem decodeLossy_eq_iff {bytes : Bytes} {text : String} (h : '\uFFFD' ∉ text.toList) :
    decodeLossy bytes = text ↔ encode text = bytes := by
  constructor
  · rintro rfl
    rw [decodeLossy, String.toList_ofList] at h
    rw [encode, decodeLossy, String.toList_ofList, encode_of_lossy h, List.drop_zero]
  · rintro rfl
    exact decodeLossy_encode text

/-! ## Order -/

theorem compare_ofNat_cons {n m : Nat} (hn : n < 256) (hm : m < 256) (as bs : Bytes) :
    compare (UInt8.ofNat n :: as) (UInt8.ofNat m :: bs) = .lt ↔
      n < m ∨ n = m ∧ compare as bs = .lt := by
  have hlt : compare (UInt8.ofNat n) (UInt8.ofNat m) = .lt ↔ n < m := by
    have hless : UInt8.ofNat n < UInt8.ofNat m ↔ n < m := by
      rw [ofNat_lt_iff hn, toNat_ofNat hm]
    rw [← hless]
    exact compareOfLessAndEq_eq_lt
  have heq : compare (UInt8.ofNat n) (UInt8.ofNat m) = .eq ↔ n = m := by
    rw [Std.LawfulEqCmp.compare_eq_iff_eq, ofNat_eq_iff hn, toNat_ofNat hm]
  rw [List.compare_cons_cons, Ordering.then_eq_lt, hlt, heq]

/-- A character with a lesser code point has lesser bytes. -/
theorem compare_encodeChar {c d : Char} (h : c < d) (as bs : Bytes) :
    compare (String.utf8EncodeChar c ++ as) (String.utf8EncodeChar d ++ bs) = .lt := by
  have hlt : c.val.toNat < d.val.toNat := h
  have hc := codePoint_range c
  have hd := codePoint_range d
  unfold String.utf8EncodeChar
  dsimp only
  -- the greater character has at least as many bytes, and the first byte tells how many
  split
  · split
    · simp (disch := omega) only [List.cons_append, compare_ofNat_cons]
      omega
    · split
      · simp (disch := omega) only [List.cons_append, compare_ofNat_cons]
        omega
      · split <;> simp (disch := omega) only [List.cons_append, compare_ofNat_cons] <;> omega
  · rw [if_neg (show ¬ d.val.toNat ≤ 127 by omega)]
    split
    · split
      · simp (disch := omega) only [List.cons_append, compare_ofNat_cons]
        omega
      · split <;> simp (disch := omega) only [List.cons_append, compare_ofNat_cons] <;> omega
    · rw [if_neg (show ¬ d.val.toNat ≤ 2047 by omega)]
      split
      · split <;> simp (disch := omega) only [List.cons_append, compare_ofNat_cons] <;> omega
      · have htwice : ∀ n : Nat, n / 4096 = n / 64 / 64 := fun n => by omega
        have hthrice : ∀ n : Nat, n / 262144 = n / 64 / 64 / 64 := fun n => by omega
        rw [if_neg (show ¬ d.val.toNat ≤ 65535 by omega)]
        simp (disch := omega) only [List.cons_append, compare_ofNat_cons]
        simp only [htwice, hthrice]
        omega

theorem compare_append_self (cs as bs : Bytes) : compare (cs ++ as) (cs ++ bs) = compare as bs := by
  induction cs with
  | nil => rfl
  | cons c cs ih =>
    have hc : compare c c = .eq := Std.ReflCmp.compare_self
    rw [List.cons_append, List.cons_append, List.compare_cons_cons, hc, ih]
    rfl

theorem compare_encode_lt : ∀ {as bs : List Char}, as < bs →
    compare (as.flatMap String.utf8EncodeChar) (bs.flatMap String.utf8EncodeChar) = .lt
  | [], [], h => by cases h
  | [], b :: bs, _ => by
    obtain ⟨x, tail, hbytes, -⟩ := step_encode b
    rw [List.flatMap_cons, hbytes]
    rfl
  | _ :: _, [], h => by cases h
  | a :: as, b :: bs, h => by
    rw [List.flatMap_cons, List.flatMap_cons]
    rcases List.cons_lt_cons_iff.1 h with hab | ⟨rfl, hrest⟩
    · exact compare_encodeChar hab _ _
    · rw [compare_append_self]
      exact compare_encode_lt hrest

/-- Texts compare like their bytes. -/
theorem compare_encode (s t : String) : compare (encode s) (encode t) = compare s t := by
  have hlt : ∀ {s t : String}, s < t → compare (encode s) (encode t) = .lt ∧ compare s t = .lt :=
    fun h => ⟨compare_encode_lt (String.lt_iff.1 h), compareOfLessAndEq_eq_lt.2 h⟩
  cases hc : compare s t with
  | lt => exact (hlt (compareOfLessAndEq_eq_lt.1 hc)).1
  | eq =>
    rw [Std.LawfulEqCmp.eq_of_compare hc]
    exact Std.ReflCmp.compare_self
  | gt =>
    have hts : compare t s = .lt := Std.OrientedCmp.lt_of_gt hc
    exact Std.OrientedCmp.gt_of_lt (hlt (compareOfLessAndEq_eq_lt.1 hts)).1

end SchemaStore.Utf8
