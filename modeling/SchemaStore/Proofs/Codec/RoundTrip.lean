import SchemaStore.Catalog
import SchemaStore.Codec.Basic
import SchemaStore.Proofs.Shape.OfDocument

/-!
# Stored texts, written and read

A value is stored as JSON text or, if its JSON form is a string, as that string. JSON text is tried
as JSON first and is read back (`decode_of_reads`). A string may be tried as JSON too, but then it is
refused (`parse_bare`) and the second attempt reads it back, unless the JSON reader takes the text for
null. So only the values of `Shape.Ambiguous` are lost, and they are (`decode_ambiguous`).
-/

namespace SchemaStore

open Token (Reads)

namespace Codec

/-! ## Texts of trees -/

/-- Only the text of a string starts with a quote. -/
theorem text_ne_quote {j : Json} (hj : ∀ s, j ≠ .str s) : j.text.head? ≠ some '"' := by
  obtain ⟨c, tail, htext, hc⟩ := j.text_head
  rw [htext]
  exact fun h => hc.ne_quote hj (Option.some.inj h)

theorem first_render {j : Json} (hj : ∀ s, j ≠ .str s) : Attempt.first j.render = .json := by
  have hquote : j.text.head? ≠ some '"' := text_ne_quote hj
  have hpadded : ¬ Text.isPadded j.text = true := by
    rw [Json.not_padded hj]
    decide
  rw [Attempt.first, Json.render, String.toList_ofList, if_neg (not_or.2 ⟨hquote, hpadded⟩)]

/-- The text of a tree that is no string stands for the value the reader finds in it. -/
theorem decode_of_reads {s : Shape} {v : s.Val} {j : Json} (hj : ∀ t, j ≠ .str t)
    (h : Reads (s.read maxDepth) j.text v) : decode s j.render = .ok v := by
  have hparse : s.parse j.render.toList = .ok v := by
    rw [Json.render, String.toList_ofList]
    exact Read.whole_of_reads h
  rw [decode, first_render hj, Attempt.read, hparse]

/-- When both attempts fail, the complaint of the first one is reported. -/
theorem decode_error {s : Shape} {raw : String} {e e' : Complaint}
    (hfirst : Attempt.first raw = .json) (hparse : s.parse raw.toList = .error e)
    (hbare : s.ofDocument (Document.ofText raw) = .error e') : decode s raw = .error e := by
  rw [decode, hfirst]
  simp only [Attempt.other, Attempt.read, hparse, hbare]

/-- The literal of a string denotes that string. -/
theorem unquote_text (t : String) : unquote (Json.str t).text = .ok t :=
  Read.whole_of_reads (Token.reads_textFor .text t)

theorem encode_str {s : Shape} {v : s.Val} {text : String} (h : s.toJson v = .ok (.str text)) :
    encode s v = .ok text := by
  have hquote : (Json.str text).text.head? = some '"' := rfl
  rw [encode, h]
  dsimp only
  rw [if_pos hquote, unquote_text]

theorem encode_tree {s : Shape} {v : s.Val} {j : Json} (h : s.toJson v = .ok j)
    (hj : ∀ t, j ≠ .str t) : encode s v = .ok j.render := by
  rw [encode, h]
  dsimp only
  rw [if_neg (text_ne_quote hj)]

theorem eq_render {s : Shape} {v : s.Val} {j : Json} {text : String} (h : s.toJson v = .ok j)
    (hj : ∀ t, j ≠ .str t) (htext : encode s v = .ok text) : text = j.render :=
  Except.ok.inj (htext.symm.trans (encode_tree h hj))

theorem encode_of_error {s : Shape} {v : s.Val} {p : Problem} (h : s.toJson v = .error p) :
    encode s v = .error p.unplaced := by
  rw [encode, h]

theorem encode_of_toJson {s : Shape} {v : s.Val} {j : Json} (h : s.toJson v = .ok j) :
    ∃ text, encode s v = .ok text := by
  cases j with
  | str t => exact ⟨t, encode_str h⟩
  | null | bool b | num n | arr js | obj fs => exact ⟨_, encode_tree h nofun⟩

theorem encode_cases {s : Shape} {v : s.Val} {text : String} (h : encode s v = .ok text) :
    s.toJson v = .ok (.str text) ∨
      ∃ j, s.toJson v = .ok j ∧ (∀ t, j ≠ .str t) ∧ text = j.render := by
  cases hj : s.toJson v with
  | error p =>
    rw [encode_of_error hj] at h
    cases h
  | ok j =>
    cases j with
    | str t =>
      rw [encode_str hj] at h
      rw [Except.ok.inj h]
      exact .inl rfl
    | null | bool b | num n | arr js | obj fs =>
      rw [encode_tree hj nofun] at h
      exact .inr ⟨_, rfl, nofun, (Except.ok.inj h).symm⟩

theorem encode_error_iff {s : Shape} {v : s.Val} :
    (∃ c, encode s v = .error c) ↔ ¬ ∃ j, s.toJson v = .ok j := by
  cases h : s.toJson v with
  | error p =>
    exact iff_of_true ⟨p.unplaced, encode_of_error h⟩ (by rintro ⟨j, hj⟩; cases hj)
  | ok j =>
    refine iff_of_false ?_ (fun hno => hno ⟨j, rfl⟩)
    rintro ⟨c, hc⟩
    obtain ⟨text, htext⟩ := encode_of_toJson h
    rw [htext] at hc
    cases hc

/-! ## The attempt at JSON on a bare text -/

/-- The reader finds no value in the text. -/
def Refuses {α : Type} (read : List Char → Read α) (cs : List Char) : Prop :=
  ∀ a rest, read cs ≠ .ok (a, rest)

theorem refuses_mismatch {α : Type} (expected : Expected) (cs : List Char) :
    Refuses (Token.mismatch expected : List Char → Read α) cs := by
  have hrefuse : ∀ (r : Read Found) (a : α) (rest : List Char),
      Token.refuse expected r ≠ .ok (a, rest) := by
    intro r a rest h
    rw [Token.refuse.eq_def] at h
    split at h
    · cases h
    · cases h
  intro a rest h
  rw [Token.mismatch.eq_def] at h
  split at h
  · exact hrefuse _ _ _ h
  · exact hrefuse _ _ _ h
  · exact hrefuse _ _ _ h
  · exact hrefuse _ _ _ h
  · exact hrefuse _ _ _ h
  · exact hrefuse _ _ _ h
  · exact hrefuse _ _ _ h
  · split at h
    · exact hrefuse _ _ _ h
    · cases h

variable {cs : List Char}

theorem refuses_textFor (expected : Expected) (hskip : Text.skipBlanks cs = cs)
    (hquote : cs.head? ≠ some '"') : Refuses (Token.textFor expected) cs := by
  intro a rest h
  rw [Token.textFor, Token.value, hskip] at h
  cases cs with
  | nil => cases h
  | cons c tail =>
    have hc : c ≠ '"' := fun hc => hquote (congrArg some hc)
    dsimp only at h
    rw [if_neg hc] at h
    exact refuses_mismatch expected _ _ _ h

theorem refuses_check {α β : Type} {read : List Char → Read α} (f : α → Except Problem β)
    (h : Refuses read cs) : Refuses (fun cs => ((read cs).check f).settle) cs := by
  intro b rest hb
  dsimp only at hb
  cases hread : read cs with
  | error e =>
    rw [hread] at hb
    cases hb
  | ok a => exact h a.1 a.2 hread

/-- Neither a name nor an object with a name starts here. -/
theorem refuses_variant {α : Type} (names : List String) (bare : Fin names.length → Except Problem α)
    (carried : Fin names.length → Nat → List Char → Read α) (depth : Nat)
    (hskip : Text.skipBlanks cs = cs) (hquote : cs.head? ≠ some '"')
    (hbrace : cs.head? ≠ some '\x7b') : Refuses (Token.variant names bare carried depth) cs := by
  intro a rest h
  rw [Token.variant, Token.value, hskip] at h
  cases cs with
  | nil => cases h
  | cons c tail =>
    have hq : c ≠ '"' := fun hc => hquote (congrArg some hc)
    have hb : c ≠ '\x7b' := fun hc => hbrace (congrArg some hc)
    dsimp only at h
    rw [if_neg hq, if_neg hb] at h
    cases h

theorem literal_ok : ∀ {letters cs rest : List Char}, Token.literal letters cs = .ok rest →
    cs = letters ++ rest
  | [], _, _, h => by cases h; rfl
  | _ :: _, [], _, h => by cases h
  | e :: es, c :: cs, rest, h => by
    rw [Token.literal] at h
    split at h
    · next hc =>
      rw [literal_ok h, hc]
      rfl
    · cases h

/-- Of an optional text only null is found, and nothing after it. -/
theorem option_text_ok {a : Option String} {rest : List Char} (hskip : Text.skipBlanks cs = cs)
    (hquote : cs.head? ≠ some '"')
    (h : Token.option (Token.textFor .text) cs = .ok (a, rest)) :
    a = none ∧ cs = ['n', 'u', 'l', 'l'] ++ rest := by
  rw [Token.option, hskip] at h
  split at h
  · next tail =>
    rw [Token.literalAs] at h
    split at h
    · next hlit =>
      cases h
      exact ⟨rfl, congrArg ('n' :: ·) (literal_ok hlit)⟩
    · cases h
  · obtain ⟨t, ht⟩ : ∃ t, Token.textFor .text cs = .ok (t, rest) := by
      cases hread : Token.textFor .text cs with
      | error e =>
        rw [hread] at h
        cases h
      | ok p =>
        rw [hread] at h
        cases h
        exact ⟨_, rfl⟩
    exact absurd ht (refuses_textFor .text hskip hquote _ _)

theorem isBlank_of_isJsonBlank {c : Char} (h : Text.isJsonBlank c = true) :
    Text.isBlank c = true := by
  simp only [Text.isJsonBlank, Bool.or_eq_true, beq_iff_eq] at h
  rcases h with ((rfl | rfl) | rfl) | rfl <;> rfl

theorem skipBlanks_of_not_padded (h : Text.isPadded cs = false) : Text.skipBlanks cs = cs := by
  cases cs with
  | nil => rfl
  | cons c tail =>
    have hc : Text.isJsonBlank c = false := by
      refine Bool.eq_false_iff.2 fun hb => ?_
      simp [Text.isPadded, isBlank_of_isJsonBlank hb] at h
    exact Token.skipBlanks_cons hc tail

/-- No blanks alone can end a text that is not padded. -/
theorem eq_nil_of_not_padded {start rest : List Char} (h : Text.isPadded (start ++ rest) = false)
    (hrest : Text.skipBlanks rest = []) : rest = [] := by
  cases hlast : rest.getLast? with
  | none => exact List.getLast?_eq_none_iff.1 hlast
  | some c =>
    have hblank := List.dropWhile_eq_nil_iff.1 hrest c (List.mem_of_getLast? hlast)
    rw [Text.isPadded, List.getLast?_append, hlast] at h
    simp [isBlank_of_isJsonBlank hblank] at h

theorem first_json {raw : String} (h : Attempt.first raw = .json) :
    raw.toList.head? ≠ some '"' ∧ Text.isPadded raw.toList = false := by
  rw [Attempt.first] at h
  split at h
  · cases h
  · next hraw =>
    obtain ⟨hquote, hpadded⟩ := not_or.1 hraw
    exact ⟨hquote, Bool.eq_false_iff.2 hpadded⟩

theorem parse_of_refuses {s : Shape} {raw : String} (h : Refuses (s.read maxDepth) raw.toList)
    (v : s.Val) : s.parse raw.toList ≠ .ok v := by
  intro hparse
  obtain ⟨rest, hread, -⟩ := Read.whole_ok hparse
  exact h v rest hread

end Codec

namespace Shape

/-! ## Ambiguous values -/

/-- Values that are stored like an absent one: the text `null` and an option present without a
value. -/
def Ambiguous : (s : Shape) → s.Val → Prop
  | .option (.leaf (.scalar .text)), v => (v : Option String) = some "null"
  | .option (.option _), v => v = some none
  | _, _ => False

/-- Some value of the shape is stored as a bare text. -/
def writesText : Shape → Bool
  | .leaf (.scalar .char) | .leaf (.scalar .text) | .leaf (.scalar (.label _)) => true
  | .option s => s.writesText
  | .choice _ | .json => true
  | _ => false

/-- No bare text of the shape is a JSON text of the shape, ambiguous values apart. Names of labels
and variants must not look like objects. -/
def isBareSafe : Shape → Bool
  | .leaf (.scalar (.label l)) => l.names.all fun name => name.toList.head? != some '\x7b'
  | .choice c => c.variants.all fun v => v.name.toList.head? != some '\x7b'
  | .option (.leaf (.scalar .text)) => true
  | .option s => !s.writesText
  | .json => false
  | _ => true

theorem toJson_ne_str : ∀ {s : Shape} {v : s.Val} {t : String}, s.writesText = false →
    s.toJson v ≠ .ok (.str t)
  | .leaf (.scalar .bool), _, _, _ => nofun
  | .leaf (.scalar (.int _)), _, _, _ => nofun
  | .leaf (.float _), v, _, _ => by
    intro h
    cases v <;> cases h
  | .unit, _, _, _ => nofun
  | .option _, none, _, _ => nofun
  | .option s, some v, _, hs => fun h => toJson_ne_str (s := s) hs h
  | .list _, _, _, _ => fun h => by
    obtain ⟨js, -, hjs⟩ := exists_of_map_ok h
    cases hjs
  | .set _, _, _, _ => nofun
  | .array _ _, _, _, _ => fun h => by
    obtain ⟨js, -, hjs⟩ := exists_of_map_ok h
    cases hjs
  | .pair _ _, (_, _), _, _ => fun h => by
    obtain ⟨a, b, -, -, hab⟩ := toJson_pair h
    cases hab
  | .map _ _, _, _, _ => fun h => by
    obtain ⟨fs, -, hfs⟩ := exists_of_map_ok h
    cases hfs
  | .record _, _, _, _ => nofun
  | .object, _, _, _ => nofun

theorem option_bareSafe : ∀ {s : Shape}, (Shape.option s).isBareSafe = true →
    s = .text ∨ s.writesText = false
  | .leaf (.scalar .text), _ => .inl rfl
  | .leaf (.scalar .bool), _ => .inr rfl
  | .leaf (.scalar (.int _)), _ => .inr rfl
  | .leaf (.float _), _ => .inr rfl
  | .leaf (.scalar .char), h => by cases h
  | .leaf (.scalar (.label _)), h => by cases h
  | .option s, h => .inr (by simpa [isBareSafe] using h)
  | .choice _, h => by cases h
  | .json, h => by cases h
  | .unit, _ | .list _, _ | .set _, _ | .array _ _, _ | .pair _ _, _ | .map _ _, _ | .record _, _
  | .object, _ => .inr rfl

end Shape

namespace Codec

theorem parse_optionText {t : String} (hne : t ≠ "null") (hfirst : Attempt.first t = .json)
    (w : Option String) : (Shape.option .text).parse t.toList ≠ .ok w := by
  obtain ⟨hquote, hpadded⟩ := first_json hfirst
  intro hparse
  obtain ⟨rest, hread, hrest⟩ := Read.whole_ok hparse
  -- only null can be read, and then the text would be no more than that
  obtain ⟨-, hnull⟩ := option_text_ok (skipBlanks_of_not_padded hpadded) hquote hread
  rw [eq_nil_of_not_padded (hnull ▸ hpadded) hrest] at hnull
  exact hne (String.toList_inj.1 hnull)

/-- The JSON reader finds in a bare text nothing but what it was written for. -/
theorem parse_bare {s : Shape} {v : s.Val} {t : String} (hs : s.isBareSafe = true)
    (h : s.toJson v = .ok (.str t)) (ha : ¬ s.Ambiguous v) (hfirst : Attempt.first t = .json)
    (w : s.Val) : s.parse t.toList ≠ .ok w := by
  obtain ⟨hquote, hpadded⟩ := first_json hfirst
  have hskip := skipBlanks_of_not_padded hpadded
  -- the readers of all shapes that are written as strings want a quote, or a brace for a variant
  cases s with
  | leaf l =>
    cases l with
    | float p => cases v <;> cases h
    | scalar s =>
      refine parse_of_refuses ?_ w
      cases s with
      | bool => cases h
      | int k => cases h
      | char => exact refuses_check _ (refuses_textFor .character hskip hquote)
      | text => exact refuses_textFor .text hskip hquote
      | label l =>
        cases h
        have hname := List.all_eq_true.1 hs _ (List.get_mem l.names v)
        show Refuses (Token.label l maxDepth) _
        exact refuses_variant _ _ _ _ hskip hquote (by simpa using hname)
  | unit => cases h
  | option s =>
    rcases Shape.option_bareSafe hs with rfl | htext
    · cases v with
      | none => cases h
      | some v =>
        cases h
        exact parse_optionText (fun hnull => ha (congrArg some hnull)) hfirst w
    · cases v with
      | none => cases h
      | some v => exact absurd h (Shape.toJson_ne_str htext)
  | list s => exact absurd h (Shape.toJson_ne_str rfl)
  | set s => exact absurd h (Shape.toJson_ne_str rfl)
  | array n s => exact absurd h (Shape.toJson_ne_str rfl)
  | pair s t => exact absurd h (Shape.toJson_ne_str rfl)
  | map k s => exact absurd h (Shape.toJson_ne_str rfl)
  | record r => exact absurd h (Shape.toJson_ne_str rfl)
  | choice c =>
    refine parse_of_refuses ?_ w
    obtain ⟨-, rfl⟩ := Choice.bare_of_toJson_str (Except.ok.inj h)
    have hbrace := List.all_eq_true.1 hs _ (List.get_mem c.variants v.1)
    show Refuses (c.read maxDepth) _
    exact refuses_variant _ _ _ _ hskip hquote (by simpa using hbrace)
  | json => cases hs
  | object => cases h

/-- A bare text stands for the value it was written for. -/
theorem decode_bare {s : Shape} {v : s.Val} {t : String} (hs : s.isBareSafe = true)
    (h : s.toJson v = .ok (.str t)) (ha : ¬ s.Ambiguous v) : decode s t = .ok v := by
  have hbare : Attempt.bare.read s t = .ok v := Shape.ofDocument_text h
  rw [decode]
  cases hfirst : Attempt.first t with
  | bare => rw [hbare]
  | json =>
    have hparse := parse_bare hs h ha hfirst
    cases hread : Attempt.json.read s t with
    | error e => simp only [Attempt.other, hbare]
    | ok w => exact absurd hread (hparse w)

/-- What is encoded is decoded again, unless it is stored like another value. -/
theorem decode_encode {s : Shape} {v : s.Val} {text : String} (hs : s.isBareSafe = true)
    (h : encode s v = .ok text) (hx : ∀ x ∈ s.floats v, x.2.ReadsBack) (ho : s.OptionsShow v)
    (hd : ∀ j, s.toJson v = .ok j → j.depth ≤ maxDepth) (ha : ¬ s.Ambiguous v) :
    decode s text = .ok v := by
  rcases encode_cases h with hstr | ⟨j, hj, hnostr, rfl⟩
  · exact decode_bare hs hstr ha
  · exact decode_of_reads hnostr (s.reads_toJson maxDepth v j hj (hd j hj) ho hx)

theorem decode_null (s : Shape) : decode (.option s) "null" = .ok none := by
  have hnull : "null" = Json.null.render := rfl
  rw [hnull]
  exact decode_of_reads (fun t => nofun) (Token.reads_none (s.read maxDepth))

/-- An ambiguous value is stored as `null` and does not come back. -/
theorem decode_ambiguous {s : Shape} {v : s.Val} (h : s.Ambiguous v) :
    encode s v = .ok "null" ∧ decode s "null" ≠ .ok v := by
  unfold Shape.Ambiguous at h
  split at h
  · cases h
    refine ⟨encode_str rfl, ?_⟩
    rw [decode_null]
    nofun
  · cases h
    refine ⟨encode_tree (j := .null) rfl (fun t => nofun), ?_⟩
    rw [decode_null]
    nofun
  · exact h.elim

/-- A string is stored verbatim, and every text whatsoever is read as the string it is; where a string
may be missing, only the text `null` says that it is. -/
theorem text_transparent (s raw : String) :
    encode .text s = .ok s ∧ decode .text raw = .ok raw ∧
      encode (.option .text) (some s) = .ok s ∧
      decode (.option .text) raw = .ok (if raw = "null" then none else some raw : Option String) := by
  refine ⟨encode_str rfl, decode_bare rfl rfl (fun h => h), encode_str rfl, ?_⟩
  by_cases hnull : raw = "null"
  · rw [if_pos hnull, hnull]
    exact decode_null .text
  · rw [if_neg hnull]
    exact decode_bare rfl rfl fun h => hnull (Option.some.inj h)

end Codec

/-! ## Shapes whose values come back -/

namespace Shape

/-- A map with entries under pairs, which has no JSON form. -/
def PairKeyed : (s : Shape) → s.Val → Prop
  | .map (.pair _ _) _, m => SortedMap.entries m ≠ []
  | _, _ => False

/-- No object of documents nests more containers than this, itself included. -/
def NestsAtMost (n : Nat) : (s : Shape) → s.Val → Prop
  | .object, fs => (Document.ofFields fs).json.depth ≤ n
  | _, _ => True

/-- Options show in all values, apart from an option in an option. -/
def isDiscerning : Shape → Bool
  | .option (.option s) => !s.mayBeNull && s.isShown
  | s => s.isShown

/-- Values are objects of documents, or the shape bounds their nesting. -/
def isShallow : Shape → Bool
  | .object => true
  | s => s.isTyped && s.height ≤ maxDepth

/-- Pairs are keys of the value itself, if they are keys at all. -/
def isKeyedOnTop : Shape → Bool
  | .map (.pair _ _) _ => true
  | s => s.isWritable

/-- The shape tells that values come back, apart from ambiguous and deeply nested ones. -/
def isSound (s : Shape) : Bool := s.isBareSafe && s.isDiscerning && s.isShallow && s.isKeyedOnTop

theorem optionsShow_of_discerning {s : Shape} {v : s.Val} (hs : s.isDiscerning = true)
    (ha : ¬ s.Ambiguous v) (hx : ∀ x ∈ s.floats v, x.2.ReadsBack) : s.OptionsShow v := by
  unfold isDiscerning at hs
  split at hs
  · next t =>
    simp only [Bool.and_eq_true, Bool.not_eq_true'] at hs
    cases v with
    | none => trivial
    | some v =>
      cases v with
      | none => exact absurd rfl ha
      | some v =>
        have hnull : t.toJson v ≠ .ok .null := fun h => toJson_ne_null hs.1 h hx rfl
        exact ⟨hnull, hnull, optionsShow_of_shown t v hs.2 hx⟩
  · exact optionsShow_of_shown s v hs hx

theorem depth_of_shallow {s : Shape} {v : s.Val} (hs : s.isShallow = true)
    (hd : s.NestsAtMost maxDepth v) {j : Json} (hj : s.toJson v = .ok j) : j.depth ≤ maxDepth := by
  unfold isShallow at hs
  split at hs
  · cases hj
    exact hd
  · simp only [Bool.and_eq_true, decide_eq_true_eq] at hs
    exact Nat.le_trans (depth_le_height s v j hs.1 hj) hs.2

theorem not_pairKeyed : ∀ {s : Shape} {v : s.Val}, s.isWritable = true → ¬ s.PairKeyed v := by
  intro s v hs h
  unfold PairKeyed at h
  split at h
  · cases hs
  · exact h

/-- A value whose shape has pairs for keys at most on top is refused only for such a key. -/
theorem exists_toJson_iff {s : Shape} {v : s.Val} (hs : s.isKeyedOnTop = true) :
    (∃ j, s.toJson v = .ok j) ↔ ¬ s.PairKeyed v := by
  unfold isKeyedOnTop at hs
  split at hs
  · next a b t =>
    show (∃ j, (List.mapM (toEntry (.pair a b) t) (SortedMap.entries v)).map Json.obj = .ok j) ↔
      ¬ SortedMap.entries v ≠ []
    cases SortedMap.entries v with
    | nil => exact iff_of_true ⟨.obj [], rfl⟩ (not_not_intro rfl)
    | cons e es =>
      refine iff_of_false ?_ (not_not_intro (List.cons_ne_nil e es))
      rintro ⟨j, hj⟩
      cases hj
  · exact iff_of_true (exists_toJson s v hs) (not_pairKeyed hs)

end Shape

namespace Catalog

theorem sound_shapes : ∀ s ∈ shapes, s.isSound = true := by
  decide

/-- A value is encoded unless it is a map with pairs for keys, and what was encoded is decoded
again: if the floats in it are found again, it is not ambiguous, and its documents are not nested too
deep. -/
theorem round_trip_shapes {s : Shape} (hs : s ∈ shapes) (v : s.Val) :
    ((∃ c, Codec.encode s v = .error c) ↔ s.PairKeyed v) ∧
      ∀ text, Codec.encode s v = .ok text → (∀ x ∈ s.floats v, x.2.ReadsBack) → ¬ s.Ambiguous v →
        s.NestsAtMost maxDepth v → Codec.decode s text = .ok v := by
  have hsound := sound_shapes s hs
  simp only [Shape.isSound, Bool.and_eq_true] at hsound
  obtain ⟨⟨⟨hbare, hoptions⟩, hdepth⟩, hkeys⟩ := hsound
  refine ⟨?_, fun text htext hx ha hd => ?_⟩
  · rw [Codec.encode_error_iff, Shape.exists_toJson_iff hkeys, not_not]
  · exact Codec.decode_encode hbare htext hx (Shape.optionsShow_of_discerning hoptions ha hx)
      (fun j hj => Shape.depth_of_shallow hdepth hd hj) ha

/-- One and a half. -/
def oneAndHalf : FiniteBinary .double := ⟨false, ⟨4609434218613702656, by decide +kernel⟩⟩

theorem round_trip_oneAndHalf :
    Codec.decode (.list (.float .double)) "[1.5]" = .ok [Binary.finite oneAndHalf] := by
  have hshape : Shape.list (.float .double) ∈ shapes := by simp [shapes]
  exact (round_trip_shapes hshape [Binary.finite oneAndHalf]).2 "[1.5]" (by decide +kernel)
    (by decide +kernel) (fun h => h) trivial

end Catalog

end SchemaStore
