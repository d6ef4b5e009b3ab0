import SchemaStore.Proofs.Codec.Dynamic
import SchemaStore.Proofs.Codec.LegacyNumbers
import SchemaStore.Proofs.Json.NumberLiteral
import SchemaStore.Proofs.Json.Skip

/-!
# Two readings of one text

A text is read with the codec, where any document may be stored, and without it. The two readings
try different things in a different order, and agree on all texts but a few: the literals of null, of
booleans, and of numbers that are not integers of 64 bits (`Codec.decode_json_eq_parseLegacy`). What a
text denotes as JSON is told from its two ends (`Codec.cases_of_read`): every other JSON text is an
integer, stands in brackets or starts with a quote.
-/

namespace SchemaStore

open Token (NumberLiteral signedDigits)

namespace Codec

/-! ## The ends of a JSON text -/

theorem getLast?_of_suffix {c : Char} {cs : List Char} (h : [c] <:+ cs) : cs.getLast? = some c := by
  obtain ⟨start, rfl⟩ := h
  exact List.getLast?_concat

/-- An array that is read to the end of a text ends in a bracket. -/
theorem getLast?_of_list {depth : Nat} {tail : List Char} {ds : List Document}
    (h : Container.enclose Container.closeList (Container.listOf (Document.read depth) tail) =
      .ok (ds, [])) : tail.getLast? = some ']' := by
  obtain ⟨mid, hitems, hclose⟩ := Container.enclose_ok h
  have hmid : mid <:+ tail :=
    Skip.suffix_of_items (fun _ _ _ hread => (Skip.moves_of_read hread []).suffix) hitems
  have hend := Text.skipBlanks_suffix mid
  rw [Skip.closeList_ok hclose] at hend
  exact getLast?_of_suffix (hend.trans hmid)

/-- An object that is read to the end of a text ends in a brace. -/
theorem getLast?_of_object {depth : Nat} {tail : List Char} {fs : SortedMap String Document}
    (h : Container.enclose Container.closeObject (Container.foldEntries
      (Container.mapEntry Token.string (Document.read depth)) SortedMap.empty tail) = .ok (fs, [])) :
    tail.getLast? = some '\x7d' := by
  obtain ⟨mid, hentries, hclose⟩ := Container.enclose_ok h
  have hmid : mid <:+ tail :=
    Skip.suffix_of_entries (fun _ _ _ hread => (Skip.moves_of_read hread []).suffix) hentries
  have hend := Text.skipBlanks_suffix mid
  rw [Skip.closeObject_ok hclose] at hend
  exact getLast?_of_suffix (hend.trans hmid)

theorem getLast?_cons_of_getLast? {a c : Char} {cs : List Char} (h : cs.getLast? = some c) :
    (a :: cs).getLast? = some c := by
  rw [List.getLast?_cons, h]
  rfl

theorem literalAs_ok {letters : String} {a d : Document} {cs : List Char}
    (h : Token.literalAs letters a cs = .ok (d, [])) : cs = letters.toList := by
  rw [Token.literalAs] at h
  split at h
  · next hliteral =>
    cases h
    rw [literal_ok hliteral, List.append_nil]
  · cases h

/-- What is read as JSON to its end is a literal, starts with a quote or stands in brackets. -/
theorem cases_of_read {depth : Nat} {cs : List Char} {d : Document}
    (hskip : Text.skipBlanks cs = cs) (h : Document.read depth cs = .ok (d, [])) :
    cs = "null".toList ∨ cs = "true".toList ∨ cs = "false".toList ∨
      (∃ l : NumberLiteral, l.text = cs) ∨ cs.head? = some '"' ∨ isBracketed cs = true := by
  rw [Document.read.eq_def] at h
  dsimp only at h
  rw [hskip] at h
  split at h
  · cases h
  · exact .inl (congrArg (List.cons 'n') (literalAs_ok h))
  · exact .inr (.inl (congrArg (List.cons 't') (literalAs_ok h)))
  · exact .inr (.inr (.inl (congrArg (List.cons 'f') (literalAs_ok h))))
  · obtain ⟨n, hn, -⟩ := Read.map_ok h
    exact .inr (.inr (.inr (.inl (NumberLiteral.of_number hn))))
  · exact .inr (.inr (.inr (.inr (.inl rfl))))
  · split at h
    · cases h
    · obtain ⟨ds, hds, -⟩ := Read.map_ok h
      have hlast := getLast?_cons_of_getLast? (a := '[') (getLast?_of_list hds)
      exact .inr (.inr (.inr (.inr (.inr (isBracketed_iff.2 (.inr ⟨rfl, hlast⟩))))))
  · split at h
    · cases h
    · obtain ⟨fs, hfs, -⟩ := Read.map_ok h
      have hlast := getLast?_cons_of_getLast? (a := '\x7b') (getLast?_of_object hfs)
      exact .inr (.inr (.inr (.inr (.inr (isBracketed_iff.2 (.inl ⟨rfl, hlast⟩))))))
  · split at h
    · obtain ⟨n, hn, -⟩ := Read.map_ok h
      exact .inr (.inr (.inr (.inl (NumberLiteral.of_number hn))))
    · cases h

theorem read_of_parse {cs : List Char} {d : Document} (hpadded : Text.isPadded cs = false)
    (h : Document.parse cs = .ok d) : Document.read maxDepth cs = .ok (d, []) := by
  obtain ⟨rest, hread, hrest⟩ := Read.whole_ok h
  obtain ⟨start, hcs⟩ := (Skip.moves_of_read hread []).suffix
  rw [← hcs] at hpadded
  rwa [eq_nil_of_not_padded hpadded hrest] at hread

/-- A text in brackets is neither padded nor quoted. -/
theorem first_of_isBracketed {raw : String} (h : isBracketed raw.toList = true) :
    Attempt.first raw = .json := by
  rw [Attempt.first, if_neg]
  rcases isBracketed_iff.1 h with ⟨hhead, hlast⟩ | ⟨hhead, hlast⟩
  · rw [Text.isPadded, hhead, hlast]
    decide
  · rw [Text.isPadded, hhead, hlast]
    decide

/-! ## Number literals -/

/-- Whatever prints as a number is a number literal. -/
theorem exists_literal_of_displayed (n : WordNumber) :
    ∃ l : NumberLiteral, l.text = displayed n.val := by
  obtain ⟨n, hn⟩ := n
  cases n with
  | int i =>
    refine ⟨⟨decide (i < 0), i.natAbs, [], [], .none, .none⟩, ?_⟩
    rw [displayed, decimal_eq_signedDigits, NumberLiteral.text, List.append_nil, List.append_nil]
  | single x => exact hn.elim
  | double x =>
    obtain ⟨_, _, w, ws, fraction, hmagnitude, hws, hzero, -, hfraction⟩ :=
      Layout.splitsAtPoint_magnitudeText (l := legacyLayout) rfl x
    have hisFraction : Token.IsFraction fraction := by
      rcases hfraction with ⟨rfl, -⟩ | ⟨d, es, rfl, hes, -⟩
      · exact .none
      · exact .digits hes
    refine ⟨⟨x.negative, Text.digitsValue (w :: ws), fraction, [], hisFraction, .none⟩, ?_⟩
    rw [displayed, Layout.text_eq, hmagnitude, NumberLiteral.text, signedDigits,
      Text.toDigits_of_zero_alone hws hzero, List.append_nil]
    split <;> rfl

/-- An integer of 64 bits is found in its literal, with the codec and without it. -/
theorem decode_of_integer {l : NumberLiteral} {raw : String} (hl : l.text = raw.toList)
    (h : l.IsWordInteger) : decode .json raw = .ok (parseLegacy raw) := by
  obtain ⟨hfraction, hexponent, hzero, hfits⟩ := h
  have hdecimal : Text.decimal l.integer = raw.toList := by
    rw [← hl, NumberLiteral.text, hfraction, hexponent, List.append_nil, List.append_nil,
      NumberLiteral.integer, Token.decimal_signed hzero]
  have hnumber : legacyNumber? raw.toList = some ⟨.int l.integer, hfits⟩ := by
    rw [← hdecimal]
    simp only [legacyNumber?, integer?_decimal, dif_pos hfits, if_true]
  have hrender : raw = (Document.ofInt l.integer hfits).json.render := by
    rw [Document.ofInt, Json.render, Json.text, Number.text, hdecimal, String.ofList_toList]
  have hreadable : (Document.ofInt l.integer hfits).json.Readable := by
    refine ⟨fun n hn => ?_, Nat.zero_le _⟩
    obtain rfl := List.mem_singleton.1 hn
    exact ⟨hfits, fun x hx => absurd hx List.not_mem_nil⟩
  have hnotext : ∀ s, Document.ofInt l.integer hfits ≠ .ofText s := by
    intro s hs
    cases congrArg Document.json hs
  have hdynamic := dynamic_render hnotext hreadable
  rw [← hrender] at hdynamic
  rw [parseLegacy_of_number hnumber, decode_document, hdynamic]
  rfl

/-! ## The agreement -/

section Agreement

variable {raw : String}

theorem legacyNumber?_of_no_literal (h : ¬ ∃ l : NumberLiteral, l.text = raw.toList) :
    legacyNumber? raw.toList = none := by
  refine Option.eq_none_iff_forall_ne_some.2 fun n hn => h ?_
  rw [← displayed_of_legacyNumber? hn]
  exact exists_literal_of_displayed n

/-- Of a text that is no literal both readings find the array or the object, or the text itself. -/
theorem decode_of_no_literal (hnull : raw ≠ "null") (htrue : raw ≠ "true") (hfalse : raw ≠ "false")
    (h : ¬ ∃ l : NumberLiteral, l.text = raw.toList) : decode .json raw = .ok (parseLegacy raw) := by
  have hnone := legacyNumber?_of_no_literal h
  rw [decode_document]
  by_cases hparse : Attempt.first raw = .json ∧ ∃ d, Document.parse raw.toList = .ok d
  · obtain ⟨hfirst, d, hd⟩ := hparse
    obtain ⟨hquote, hpadded⟩ := first_json hfirst
    have hcases := cases_of_read (skipBlanks_of_not_padded hpadded) (read_of_parse hpadded hd)
    simp only [String.toList_inj, hnull, htrue, hfalse, h, hquote, false_or] at hcases
    rw [dynamic_of_parse hfirst hd, parseLegacy_of_document hnone hcases hd]
  · have htext : ∀ d, isBracketed raw.toList = true → Document.parse raw.toList ≠ .ok d :=
      fun d hbracketed hd => hparse ⟨first_of_isBracketed hbracketed, d, hd⟩
    rw [parseLegacy_of_text hnone fun hbracketed d => htext d hbracketed]
    cases hfirst : Attempt.first raw with
    | bare => rw [dynamic_of_bare hfirst]
    | json => rw [dynamic_of_refused fun d hd => hparse ⟨hfirst, d, hd⟩]

end Agreement

/-- Where any document may be stored, decoding a text finds what the text means without the codec,
unless it is the literal of null, of a boolean, or of a number that is no integer of 64 bits. Null and
the booleans are read as strings without the codec. -/
theorem decode_json_eq_parseLegacy (raw : String) :
    (raw ≠ "null" → raw ≠ "true" → raw ≠ "false" →
      (∀ l : NumberLiteral, l.text = raw.toList → l.IsWordInteger) →
        decode .json raw = .ok (parseLegacy raw)) ∧
      (raw = "null" → decode .json raw = .ok .null ∧ parseLegacy raw = .ofText raw) ∧
      (raw = "true" → decode .json raw = .ok (.ofBool true) ∧ parseLegacy raw = .ofText raw) ∧
      (raw = "false" → decode .json raw = .ok (.ofBool false) ∧ parseLegacy raw = .ofText raw) := by
  refine ⟨fun hnull htrue hfalse hnumber => ?_, ?_, ?_, ?_⟩
  · by_cases hliteral : ∃ l : NumberLiteral, l.text = raw.toList
    · obtain ⟨l, hl⟩ := hliteral
      exact decode_of_integer hl (hnumber l hl)
    · exact decode_of_no_literal hnull htrue hfalse hliteral
  · rintro rfl
    exact ⟨rfl, rfl⟩
  · rintro rfl
    exact ⟨rfl, rfl⟩
  · rintro rfl
    exact ⟨rfl, rfl⟩

theorem decode_json_eq_parseLegacy_unclosed :
    decode .json "[1" = .ok (parseLegacy "[1") := by
  refine (decode_json_eq_parseLegacy "[1").1 (by decide) (by decide) (by decide) fun l hl => ?_
  obtain ⟨c, tail, htext, hc⟩ := l.text_head
  rw [htext] at hl
  obtain rfl : c = '[' := congrArg (fun cs => cs.head?.getD 'a') hl
  simp at hc

end Codec

end SchemaStore
