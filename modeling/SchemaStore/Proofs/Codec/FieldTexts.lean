import Mathlib.Data.Option.Basic
import SchemaStore.Proofs.Codec.ObjectMerge
import SchemaStore.Proofs.Json.SkipText

/-!
# What a merge does to a field it does not mention

The texts of the fields can be taken from the text of an object without reading them
(`Codec.fieldTexts?`). A merge reads them instead and writes what it has read, so a stored field that
the update does not name gets the text of its document (`Codec.untouched_field`). A document has
integers of 64 bits only: a literal of such an integer is kept as it is, any other one is read as a
float and written as one (`Codec.integer_survives_iff`). Where the reader refuses one of the two texts,
as it does for nesting or numbers past its limits, the whole stored object is gone.
-/

namespace SchemaStore

open Token (Ends Reads)

namespace Token

/-! ## Integer literals -/

/-- The integer that a text spells as a JSON literal, if it is one. -/
def integerLiteral? (literal : List Char) : Option Int :=
  let spelled := match literal with
    | '-' :: digits => wideInteger true digits
    | digits => wideInteger false digits
  match spelled with
  | .ok (n, []) => some n
  | _ => none

theorem integerLiteral?_ok {literal : List Char} {n : Int} (h : integerLiteral? literal = some n) :
    ∃ negative m, literal = signedDigits negative m ∧
      n = if negative then -(m : Int) else (m : Int) := by
  unfold integerLiteral? at h
  dsimp only at h
  split at h
  · next hspelled =>
    cases h
    split at hspelled
    · obtain ⟨m, rfl, hn⟩ := eq_toDigits_of_wideInteger hspelled
      rw [List.append_nil]
      exact ⟨true, m, rfl, hn⟩
    · obtain ⟨m, rfl, hn⟩ := eq_toDigits_of_wideInteger hspelled
      rw [List.append_nil]
      exact ⟨false, m, rfl, hn⟩
  · cases h

/-- No float is written like an integer. -/
theorem integerLiteral?_double (x : FiniteBinary .double) :
    integerLiteral? (Number.double x).text = none := by
  refine Option.eq_none_iff_forall_ne_some.2 fun n hn => ?_
  obtain ⟨negative, m, htext, -⟩ := integerLiteral?_ok hn
  obtain ⟨d, ds, hmagnitude, hd⟩ := Layout.jsonDouble.magnitudeText_head x
  obtain ⟨e, es, hdigits, he⟩ := Text.exists_toDigits m
  have heq : Layout.jsonDouble.magnitudeText x = Nat.toDigits 10 m := by
    rw [Number.text, Layout.text_eq, signedDigits, hmagnitude, hdigits] at htext
    rw [hmagnitude, hdigits]
    split at htext <;> split at htext
    · exact (List.cons.inj htext).2
    · cases htext
      cases he
    · cases htext
      cases hd
    · exact htext
  obtain ⟨c, hc, hpoint⟩ := Layout.jsonDouble.exists_not_digit rfl x
  rw [heq] at hc
  rw [Text.isDigit_of_mem_toDigits hc] at hpoint
  cases hpoint

theorem read_signedDigits (negative : Bool) (m depth : Nat) (rest : List Char) :
    Document.read depth (signedDigits negative m ++ rest) =
      (number negative (Nat.toDigits 10 m ++ rest)).map Document.ofNumber := by
  cases negative with
  | true =>
    rw [signedDigits, if_pos rfl, List.cons_append, Document.read_numeral (.inl rfl) .unit,
      anyNumber_cons (.inl rfl), if_pos rfl]
  | false =>
    obtain ⟨d, ds, hds, hd⟩ := Text.exists_toDigits m
    have hminus : d ≠ '-' := by
      rintro rfl
      cases hd
    rw [signedDigits, if_neg (by decide), hds, List.cons_append,
      Document.read_numeral (.inr hd) .unit, anyNumber_cons (.inr hd), if_neg hminus]

end Token

/-- The document is read from these characters, before a place where a value may end. -/
def Document.ReadFrom (d : Document) (taken : List Char) : Prop :=
  ∃ depth rest, Ends rest ∧ read depth (taken ++ rest) = .ok (d, rest)

/-- An integer literal is read as its integer if that has 64 bits and is no negative zero, and as a
float in every other case. -/
theorem Document.ReadFrom.integer {literal : List Char} {n : Int} {d : Document} (h : d.ReadFrom literal)
    (hn : Token.integerLiteral? literal = some n) :
    ((FitsWord n ∧ literal ≠ ['-', '0']) ∧ d.json.text = literal) ∨
      (¬ (FitsWord n ∧ literal ≠ ['-', '0']) ∧ ∃ x, d = ofDouble x) := by
  obtain ⟨negative, m, rfl, hvalue⟩ := Token.integerLiteral?_ok hn
  obtain ⟨depth, rest, hrest, hread⟩ := h
  rw [Token.read_signedDigits] at hread
  obtain ⟨w, hw, rfl⟩ := Read.map_ok hread
  rw [Ne, Token.signedDigits_eq]
  by_cases hword : FitsWord n ∧ ¬ (negative = true ∧ m = 0)
  · have hfew : m ≤ maxWord := by
      have hrange := hword.1
      unfold FitsWord at hrange
      unfold maxWord
      split at hvalue <;> omega
    have hint := Token.number_append hrest (Token.number_toDigits hword.1 hvalue hfew hword.2)
    rw [List.nil_append, hw] at hint
    cases hint
    refine .inl ⟨hword, ?_⟩
    rw [← Token.decimal_signed hword.2, ← hvalue]
    rfl
  · refine .inr ⟨hword, ?_⟩
    obtain ⟨i, hi⟩ := w
    cases i with
    | int i =>
      have hfits := Token.fits_of_number_toDigits hrest rfl hw
      rw [← hvalue] at hfits
      exact absurd hfits hword
    | single x => exact hi.elim
    | double x => exact ⟨x, rfl⟩

theorem Document.ReadFrom.integer_iff {literal : List Char} {n : Int} {d : Document}
    (h : d.ReadFrom literal) (hn : Token.integerLiteral? literal = some n) :
    Token.integerLiteral? d.json.text = some n ↔ FitsWord n ∧ literal ≠ ['-', '0'] := by
  rcases h.integer hn with ⟨hword, htext⟩ | ⟨hword, x, rfl⟩
  · rw [htext]
    exact ⟨fun _ => hword, fun _ => hn⟩
  · rw [ofDouble, Json.text, Token.integerLiteral?_double]
    exact ⟨nofun, fun h => absurd h hword⟩

namespace Skip

/-! ## The text of a value -/

/-- The text of the value in front, without the blanks before it. -/
def text (cs : List Char) : Read (List Char) :=
  let start := Text.skipBlanks cs
  match value start with
  | .ok rest => .ok (start.take (start.length - rest.length), rest)
  | .error e => .error e

theorem text_of_value {cs taken rest : List Char} (hcs : Text.skipBlanks cs = taken ++ rest)
    (h : value (taken ++ rest) = .ok rest) : text cs = .ok (taken, rest) := by
  rw [text, hcs]
  simp only [h, List.length_append, Nat.add_sub_cancel, List.take_left]

theorem reads_text (j : Json) : Reads text j.text j.text :=
  fun rest h => text_of_value (j.skipBlanks_text rest) (value_text j h)

/-- Where a document is read, its text is taken. -/
theorem text_of_read {depth : Nat} {cs rest : List Char} {d : Document}
    (h : Document.read depth cs = .ok (d, rest)) (hrest : Ends rest) :
    ∃ taken, text cs = .ok (taken, rest) ∧ d.ReadFrom taken := by
  rw [← Document.read_skipBlanks] at h
  obtain ⟨taken, htaken⟩ := (moves_of_read h []).suffix
  rw [← htaken] at h
  exact ⟨taken, text_of_value htaken.symm (value_of_read h), depth, rest, hrest, h⟩

/-! ## The texts of the fields -/

/-- The fields have these names, and each of them is read from its text. -/
def FieldsFrom (fields : SortedMap String Document) (texts : SortedMap String (List Char)) : Prop :=
  ∀ name, Option.Rel Document.ReadFrom (fields.find? name) (texts.find? name)

theorem fieldsFrom_empty : FieldsFrom .empty .empty := fun _ => .none

theorem FieldsFrom.find?_some {fields : SortedMap String Document}
    {texts : SortedMap String (List Char)} {name : String} {taken : List Char}
    (h : FieldsFrom fields texts) (htaken : texts.find? name = some taken) :
    ∃ d, fields.find? name = some d ∧ d.ReadFrom taken := by
  have hname := h name
  rw [htaken] at hname
  generalize fields.find? name = found at hname
  cases hname with
  | some hd => exact ⟨_, rfl, hd⟩

theorem FieldsFrom.find?_none {fields : SortedMap String Document}
    {texts : SortedMap String (List Char)} {name : String} (h : FieldsFrom fields texts)
    (hnone : texts.find? name = none) : fields.find? name = none := by
  have hname := h name
  rw [hnone] at hname
  generalize fields.find? name = found at hname
  cases hname with
  | none => rfl

theorem FieldsFrom.insert {fields : SortedMap String Document}
    {texts : SortedMap String (List Char)} {d : Document} {taken : List Char}
    (h : FieldsFrom fields texts) (hd : d.ReadFrom taken) (name : String) :
    FieldsFrom (fields.insert name d) (texts.insert name taken) := by
  intro k
  rw [SortedMap.find?_insert, SortedMap.find?_insert]
  split
  · exact .some hd
  · exact h k

theorem ends_of_skipBlanks {cs tail : List Char} {c : Char} (h : Text.skipBlanks cs = c :: tail)
    (hc : c.isDigit = false ∧ c ≠ '.' ∧ Token.isExponentMark c = false) : Ends cs := by
  apply Ends.of_skipBlanks
  rw [h]
  exact Token.ends_cons tail hc

/-- An entry is followed by a comma or by the brace that closes the object. -/
theorem ends_of_entries {σ : Type} {entry : σ → List Char → Read σ} {n : Nat} {a b : σ}
    {cs rest : List Char} (h : Container.entries entry n false a cs = .ok (b, rest)) : Ends cs := by
  cases n with
  | zero => cases h
  | succ n =>
    rcases Container.entries_succ_ok h with ⟨hnext, -, -⟩ | ⟨start, c, mid, hnext, -, -⟩
    · obtain ⟨tail, hcs⟩ := nextKey_end hnext
      exact ends_of_skipBlanks hcs (by decide)
    · obtain ⟨tail, hcs, -⟩ := nextKey_later hnext
      exact ends_of_skipBlanks hcs (by decide)

theorem entries_of_read {depth n : Nat} {first : Bool} {fields fields' : SortedMap String Document}
    {texts : SortedMap String (List Char)} {cs rest : List Char}
    (h : Container.entries (Container.mapEntry Token.string (Document.read depth)) n first fields cs =
      .ok (fields', rest)) (hfrom : FieldsFrom fields texts) :
    ∃ texts', Container.entries (Container.mapEntry Token.string text) n first texts cs =
      .ok (texts', rest) ∧ FieldsFrom fields' texts' := by
  induction n generalizing first fields texts cs with
  | zero => cases h
  | succ n ih =>
    rcases Container.entries_succ_ok h with ⟨hnext, rfl, rfl⟩ | ⟨start, c, later, hnext, hentry, hlater⟩
    · exact ⟨texts, by rw [Container.entries, hnext], hfrom⟩
    · obtain ⟨name, mid, cs', d, hname, hcolon, hd, rfl⟩ := Container.mapEntry_ok hentry
      obtain ⟨taken, htaken, hd'⟩ := text_of_read hd (ends_of_entries hlater)
      obtain ⟨texts', htexts, hall⟩ := ih hlater (hfrom.insert hd' name)
      refine ⟨texts', ?_, hall⟩
      rw [Container.entries, hnext]
      dsimp only
      rw [Container.mapEntry, hname]
      simp only [Read.andThen, hcolon, htaken, Read.map]
      exact htexts

/-- The texts of the fields of an object. -/
def fields (cs : List Char) : Read (SortedMap String (List Char)) :=
  match Text.skipBlanks cs with
  | '\x7b' :: rest =>
    Container.enclose Container.closeObject
      (Container.foldEntries (Container.mapEntry Token.string text) SortedMap.empty rest)
  | rest => .error (.next .noValue rest)

theorem fields_brace {cs tail : List Char} (h : Text.skipBlanks cs = '\x7b' :: tail) :
    fields cs = Container.enclose Container.closeObject
      (Container.foldEntries (Container.mapEntry Token.string text) SortedMap.empty tail) := by
  simp only [fields, h]

end Skip

namespace Codec

open Skip (FieldsFrom)

/-- The texts of the fields of the object that a text spells. -/
def fieldTexts? (text : String) : Option (SortedMap String (List Char)) :=
  (Read.whole Skip.fields text.toList).toOption

/-- The texts of the fields can be taken from every text that is read as an object. -/
theorem fieldTexts?_of_objectOf? {text : String} {fields : SortedMap String Document}
    (h : objectOf? text = some fields) :
    ∃ texts, fieldTexts? text = some texts ∧ FieldsFrom fields texts := by
  obtain ⟨rest, hread, hrest⟩ := Read.whole_ok (objectOf?_eq_some.1 h)
  obtain ⟨inner, tail, hstart, hbody⟩ := Document.read_fields_ok hread
  obtain ⟨mid, hentries, hclose⟩ := Container.enclose_ok hbody
  obtain ⟨texts, htexts, hfrom⟩ := Skip.entries_of_read hentries Skip.fieldsFrom_empty
  refine ⟨texts, ?_, hfrom⟩
  have hfields : Skip.fields text.toList = .ok (texts, rest) := by
    rw [Skip.fields_brace hstart, Container.foldEntries, htexts]
    simp only [Container.enclose, hclose]
  rw [fieldTexts?, Read.whole, hfields]
  simp only [hrest]
  rfl

/-- In the text of an object the fields have the texts of their documents. -/
theorem fieldTexts?_render (fs : SortedMap String Document) :
    ∃ texts, fieldTexts? (Document.ofFields fs).json.render = some texts ∧
      ∀ name, texts.find? name = (fs.find? name).map fun d => d.json.text := by
  have hascending : Ascending (fs.entries.map fun f => (f.1, f.2.json.text)) :=
    List.pairwise_map.2 fs.ascending
  have hmembers : List.Forall₂
      (fun f e => Container.ReadsKey Token.string f.1 e.1 ∧ Reads Skip.text f.2.text e.2)
      (fs.entries.map fun f => (f.1, f.2.json)) (fs.entries.map fun f => (f.1, f.2.json.text)) := by
    rw [List.forall₂_map_left_iff, List.forall₂_map_right_iff, List.forall₂_same]
    exact fun f _ => ⟨Document.readsKey_string f.1, Skip.reads_text f.2.json⟩
  have hfold := Container.foldEntries_objectText
    (Container.folds_mapEntry hmembers SortedMap.empty) []
  rw [← SortedMap.ofList, SortedMap.ofList_entries ⟨_, hascending⟩, List.append_nil] at hfold
  have hfields : Skip.fields (Document.ofFields fs).json.text = .ok (⟨_, hascending⟩, []) := by
    have hskip := (Document.ofFields fs).json.skipBlanks_text []
    rw [List.append_nil, Document.ofFields, Json.text_obj] at hskip
    rw [Document.ofFields, Json.text_obj, Skip.fields_brace hskip, hfold,
      Container.enclose_closeObject]
  refine ⟨⟨_, hascending⟩, ?_, fun name => ?_⟩
  · rw [fieldTexts?, Json.render, String.toList_ofList, Read.whole, hfields]
    rfl
  · exact SortedMap.lookup_map (f := id) (g := fun d => d.json.text) (fun _ _ => rfl) name fs.entries

/-! ## What is left of a field -/

section Untouched

variable {existing incoming name : String} {old new : SortedMap String (List Char)}
  {taken : List Char}

/-- A field that the incoming object does not name is written again as it was read, or it is gone if
one of the two texts is not read as an object. -/
theorem untouched_field (hold : fieldTexts? existing = some old) (hnew : fieldTexts? incoming = some new)
    (hname : new.find? name = none) (htaken : old.find? name = some taken) :
    ∃ merged, fieldTexts? (shallowMerge (some existing) incoming) = some merged ∧
      (((objectOf? existing).isSome ∧ (objectOf? incoming).isSome ∧
          ∃ d : Document, d.ReadFrom taken ∧ merged.find? name = some d.json.text) ∨
        ¬ ((objectOf? existing).isSome ∧ (objectOf? incoming).isSome) ∧ merged.find? name = none) := by
  by_cases hread : (objectOf? existing).isSome ∧ (objectOf? incoming).isSome
  · obtain ⟨b, hb⟩ := Option.isSome_iff_exists.1 hread.1
    obtain ⟨u, hu⟩ := Option.isSome_iff_exists.1 hread.2
    obtain ⟨merged, hmerged, htexts⟩ := fieldTexts?_render (b.union u)
    rw [← shallowMerge_of_objects hb hu] at hmerged
    refine ⟨merged, hmerged, .inl ⟨hread.1, hread.2, ?_⟩⟩
    obtain ⟨old', hold', hbfrom⟩ := fieldTexts?_of_objectOf? hb
    obtain rfl : old = old' := Option.some.inj (hold.symm.trans hold')
    obtain ⟨new', hnew', hufrom⟩ := fieldTexts?_of_objectOf? hu
    obtain rfl : new = new' := Option.some.inj (hnew.symm.trans hnew')
    obtain ⟨d, hd, hfrom⟩ := hbfrom.find?_some htaken
    refine ⟨d, hfrom, ?_⟩
    rw [htexts, SortedMap.find?_union, hufrom.find?_none hname, Option.none_or, hd, Option.map_some]
  · have hkept : shallowMerge (some existing) incoming = incoming := by
      refine shallowMerge_of_not fun old hold b u hb hu => hread ?_
      obtain rfl : existing = old := Option.some.inj hold
      exact ⟨Option.isSome_of_eq_some hb, Option.isSome_of_eq_some hu⟩
    exact ⟨new, by rw [hkept, hnew], .inr ⟨hread, hname⟩⟩

/-- A field that holds an integer literal and that the incoming object does not name holds a literal of
this integer after a merge exactly if both texts are read as objects, the integer has 64 bits and the
literal is no negative zero. It is then the same literal, and what else may be left is a float. -/
theorem integer_survives_iff {literal : List Char} {n : Int} (hold : fieldTexts? existing = some old)
    (hnew : fieldTexts? incoming = some new) (hname : new.find? name = none)
    (hliteral : old.find? name = some literal) (hn : Token.integerLiteral? literal = some n) :
    ∃ merged, fieldTexts? (shallowMerge (some existing) incoming) = some merged ∧
      ((merged.find? name).bind Token.integerLiteral? = some n ↔ (objectOf? existing).isSome ∧
        (objectOf? incoming).isSome ∧ FitsWord n ∧ literal ≠ ['-', '0']) ∧
      ∀ text, merged.find? name = some text →
        text = literal ∨ ∃ x : FiniteBinary .double, text = (Number.double x).text := by
  obtain ⟨merged, hmerged, hfield⟩ := untouched_field hold hnew hname hliteral
  refine ⟨merged, hmerged, ?_⟩
  rcases hfield with ⟨hb, hu, d, hfrom, hfind⟩ | ⟨hread, hfind⟩
  · rw [hfind, Option.bind_some, hfrom.integer_iff hn]
    refine ⟨⟨fun hword => ⟨hb, hu, hword⟩, fun hkept => hkept.2.2⟩, fun text htext => ?_⟩
    obtain rfl := Option.some.inj htext
    rcases hfrom.integer hn with ⟨-, hsame⟩ | ⟨-, x, rfl⟩
    · exact .inl hsame
    · exact .inr ⟨x, rfl⟩
  · rw [hfind]
    exact ⟨⟨nofun, fun hkept => absurd ⟨hkept.1, hkept.2.1⟩ hread⟩, nofun⟩

end Untouched

/-- The first integer past 64 bits is lost, and its smaller neighbour is kept. -/
theorem integer_survives_iff_neighbours :
    (∃ merged, fieldTexts? (shallowMerge (some "\x7b\"a\":18446744073709551616\x7d")
        "\x7b\"b\":1\x7d") = some merged ∧
      (merged.find? "a").bind Token.integerLiteral? ≠ some 18446744073709551616) ∧
    ∃ merged, fieldTexts? (shallowMerge (some "\x7b\"a\":18446744073709551615\x7d")
        "\x7b\"b\":1\x7d") = some merged ∧
      (merged.find? "a").bind Token.integerLiteral? = some 18446744073709551615 := by
  constructor
  · obtain ⟨merged, hmerged, hiff, -⟩ := @integer_survives_iff
      "\x7b\"a\":18446744073709551616\x7d" "\x7b\"b\":1\x7d" "a"
      (.ofList [("a", "18446744073709551616".toList)]) (.ofList [("b", ['1'])])
      "18446744073709551616".toList 18446744073709551616 rfl rfl rfl rfl rfl
    exact ⟨merged, hmerged, fun hkept => absurd (hiff.1 hkept).2.2.1 (by decide)⟩
  · obtain ⟨merged, hmerged, hiff, -⟩ := @integer_survives_iff
      "\x7b\"a\":18446744073709551615\x7d" "\x7b\"b\":1\x7d" "a"
      (.ofList [("a", "18446744073709551615".toList)]) (.ofList [("b", ['1'])])
      "18446744073709551615".toList 18446744073709551615 rfl rfl rfl rfl rfl
    exact ⟨merged, hmerged, hiff.2 ⟨rfl, rfl, by decide, by decide⟩⟩

/-- Not every integer literal of an untouched field survives a merge. -/
theorem not_every_integer_survives :
    ¬ ∀ existing incoming name old new literal n, fieldTexts? existing = some old →
      fieldTexts? incoming = some new → new.find? name = none → old.find? name = some literal →
      Token.integerLiteral? literal = some n →
      ∃ merged, fieldTexts? (shallowMerge (some existing) incoming) = some merged ∧
        (merged.find? name).bind Token.integerLiteral? = some n := by
  intro hall
  have hold : fieldTexts? "\x7b\"a\":18446744073709551616\x7d" =
      some (.ofList [("a", "18446744073709551616".toList)]) := rfl
  have hnew : fieldTexts? "\x7b\"b\":1\x7d" = some (.ofList [("b", ['1'])]) := rfl
  have hname : (SortedMap.ofList [("b", ['1'])]).find? "a" = none := rfl
  have hn : Token.integerLiteral? "18446744073709551616".toList = some 18446744073709551616 := rfl
  obtain ⟨merged, hmerged, hkept⟩ := hall _ _ _ _ _ _ _ hold hnew hname rfl hn
  obtain ⟨merged', hmerged', hfield⟩ := untouched_field hold hnew hname rfl
  obtain rfl : merged = merged' := Option.some.inj (hmerged.symm.trans hmerged')
  rcases hfield with ⟨-, -, d, hfrom, hfind⟩ | ⟨-, hfind⟩
  · rw [hfind, Option.bind_some, hfrom.integer_iff hn] at hkept
    exact absurd hkept.1 (by decide)
  · rw [hfind] at hkept
    cases hkept

end Codec

end SchemaStore
