import SchemaStore.Codec.Merge
import SchemaStore.Proofs.Json.Container
import SchemaStore.Proofs.SortedMap

/-!
# Documents, written and read

A reader with no declared type finds in the text of a tree the document `Document.ofJson`, in which
the fields of every object are sorted by name (`reads_ofJson`). It needs numbers that such a reader
can find, integers of 64 bits and doubles that are found again (`Number.ReadsBack`), and containers
that are not nested too deep. Where a number is found as another one, the document is that of the
tree with the other numbers (`reads_mapNumbers`). A document is the document of its own tree
(`ofJson_json`).
-/

namespace SchemaStore

/-- A float of one of the precisions. -/
abbrev AnyBinary : Type := (p : Precision) × Binary p

/-- The float a number is, if it is one. -/
def Number.floats : Number → List AnyBinary
  | .int _ => []
  | .single x => [⟨.single, .finite x⟩]
  | .double x => [⟨.double, .finite x⟩]

/-- A reader with no declared type finds the number again. -/
def Number.ReadsBack (n : Number) : Prop := n.IsDynamic ∧ ∀ x ∈ n.floats, x.2.ReadsBack

namespace Json

mutual

/-- The numbers of a tree, from left to right. -/
def numbers : Json → List Number
  | .num n => [n]
  | .arr items => numbersItems items
  | .obj fields => numbersFields fields
  | _ => []

/-- The numbers of some items. -/
def numbersItems : List Json → List Number
  | [] => []
  | j :: rest => numbers j ++ numbersItems rest

/-- The numbers of some fields. -/
def numbersFields : List (String × Json) → List Number
  | [] => []
  | (_, j) :: rest => numbers j ++ numbersFields rest

end

mutual

/-- The tree with other numbers in the places of its own. -/
def mapNumbers (g : Number → Number) : Json → Json
  | .null => .null
  | .bool b => .bool b
  | .num n => .num (g n)
  | .str s => .str s
  | .arr items => .arr (mapNumbersItems g items)
  | .obj fields => .obj (mapNumbersFields g fields)

/-- The items with other numbers. -/
def mapNumbersItems (g : Number → Number) : List Json → List Json
  | [] => []
  | j :: rest => mapNumbers g j :: mapNumbersItems g rest

/-- The fields with other numbers. -/
def mapNumbersFields (g : Number → Number) : List (String × Json) → List (String × Json)
  | [] => []
  | (name, j) :: rest => (name, mapNumbers g j) :: mapNumbersFields g rest

end

theorem mapNumbersFields_eq_map (g : Number → Number) : ∀ fs : List (String × Json),
    mapNumbersFields g fs = fs.map fun f => (f.1, f.2.mapNumbers g)
  | [] => by rw [mapNumbersFields]; rfl
  | (name, j) :: rest => by rw [mapNumbersFields, mapNumbersFields_eq_map g rest]; rfl

mutual

/-- A function that fixes the numbers of a tree fixes the tree. -/
theorem mapNumbers_eq_self {g : Number → Number} :
    ∀ j : Json, (∀ n ∈ j.numbers, g n = n) → j.mapNumbers g = j
  | .null, _ => by rw [mapNumbers]
  | .bool _, _ => by rw [mapNumbers]
  | .num n, h => by rw [mapNumbers, h n (by simp [numbers])]
  | .str _, _ => by rw [mapNumbers]
  | .arr js, h => by
    rw [numbers] at h
    rw [mapNumbers, mapNumbersItems_eq_self js h]
  | .obj fs, h => by
    rw [numbers] at h
    rw [mapNumbers, mapNumbersFields_eq_self fs h]

theorem mapNumbersItems_eq_self {g : Number → Number} :
    ∀ js : List Json, (∀ n ∈ numbersItems js, g n = n) → mapNumbersItems g js = js
  | [], _ => by rw [mapNumbersItems]
  | j :: rest, h => by
    rw [numbersItems, List.forall_mem_append] at h
    rw [mapNumbersItems, mapNumbers_eq_self j h.1, mapNumbersItems_eq_self rest h.2]

theorem mapNumbersFields_eq_self {g : Number → Number} :
    ∀ fs : List (String × Json), (∀ n ∈ numbersFields fs, g n = n) → mapNumbersFields g fs = fs
  | [], _ => by rw [mapNumbersFields]
  | (_, j) :: rest, h => by
    rw [numbersFields, List.forall_mem_append] at h
    rw [mapNumbersFields, mapNumbers_eq_self j h.1, mapNumbersFields_eq_self rest h.2]

end

mutual

/-- The tree of a document has only numbers that a reader without a declared type can find. -/
theorem isDynamic_of_canonical : ∀ (j : Json), j.Canonical → ∀ n ∈ j.numbers, n.IsDynamic
  | .null, _ => by simp [numbers]
  | .bool _, _ => by simp [numbers]
  | .num n, h => by
    intro m hm
    rw [numbers, List.mem_singleton] at hm
    rw [hm]
    exact h
  | .str _, _ => by simp [numbers]
  | .arr js, h => by
    rw [numbers]
    rw [Canonical] at h
    exact isDynamic_of_canonicalItems js h
  | .obj fs, h => by
    rw [numbers]
    rw [Canonical] at h
    exact isDynamic_of_canonicalFields fs h.2

theorem isDynamic_of_canonicalItems :
    ∀ (js : List Json), CanonicalItems js → ∀ n ∈ numbersItems js, n.IsDynamic
  | [], _ => by simp [numbersItems]
  | j :: rest, h => by
    intro n hn
    rw [numbersItems, List.mem_append] at hn
    rcases hn with hn | hn
    · exact isDynamic_of_canonical j h.1 n hn
    · exact isDynamic_of_canonicalItems rest h.2 n hn

theorem isDynamic_of_canonicalFields :
    ∀ (fs : List (String × Json)), CanonicalFields fs → ∀ n ∈ numbersFields fs, n.IsDynamic
  | [], _ => by simp [numbersFields]
  | (_, j) :: rest, h => by
    intro n hn
    rw [numbersFields, List.mem_append] at hn
    rcases hn with hn | hn
    · exact isDynamic_of_canonical j h.1 n hn
    · exact isDynamic_of_canonicalFields rest h.2 n hn

end

theorem mem_numbersItems {n : Number} : ∀ {js : List Json},
    n ∈ numbersItems js ↔ ∃ j ∈ js, n ∈ j.numbers
  | [] => by simp [numbersItems]
  | j :: rest => by simp [numbersItems, mem_numbersItems]

theorem mem_numbersFields {n : Number} : ∀ {fs : List (String × Json)},
    n ∈ numbersFields fs ↔ ∃ f ∈ fs, n ∈ f.2.numbers
  | [] => by simp [numbersFields]
  | (name, j) :: rest => by simp [numbersFields, mem_numbersFields]

theorem depthItems_le_iff {n : Nat} : ∀ {js : List Json},
    depthItems js ≤ n ↔ ∀ j ∈ js, j.depth ≤ n
  | [] => by simp [depthItems]
  | j :: rest => by
    rw [depthItems, List.forall_mem_cons, ← depthItems_le_iff]
    exact Nat.max_le

theorem depthFields_le_iff {n : Nat} : ∀ {fs : List (String × Json)},
    depthFields fs ≤ n ↔ ∀ f ∈ fs, f.2.depth ≤ n
  | [] => by simp [depthFields]
  | (name, j) :: rest => by
    rw [depthFields, List.forall_mem_cons, ← depthFields_le_iff]
    exact Nat.max_le

/-- An array nests one level deeper than its items. -/
theorem depth_arr_le_iff {n : Nat} {js : List Json} :
    (arr js).depth ≤ n + 1 ↔ ∀ j ∈ js, j.depth ≤ n := by
  rw [depth, Nat.succ_le_succ_iff, depthItems_le_iff]

theorem depth_obj_le_iff {n : Nat} {fs : List (String × Json)} :
    (obj fs).depth ≤ n + 1 ↔ ∀ f ∈ fs, f.2.depth ≤ n := by
  rw [depth, Nat.succ_le_succ_iff, depthFields_le_iff]

/-- The floats of a tree, from left to right. -/
def floats (j : Json) : List AnyBinary := j.numbers.flatMap Number.floats

end Json

theorem Read.map_ok {α β : Type} {f : α → β} {r : Read α} {b : β} {rest : List Char}
    (h : r.map f = .ok (b, rest)) : ∃ a, r = .ok (a, rest) ∧ f a = b := by
  cases r with
  | error e => cases h
  | ok a =>
    cases h
    exact ⟨a.1, rfl, rfl⟩

theorem Read.andThen_ok {α β : Type} {r : Read α} {f : α → List Char → Read β} {b : β}
    {rest : List Char} (h : r.andThen f = .ok (b, rest)) :
    ∃ a tail, r = .ok (a, tail) ∧ f a tail = .ok (b, rest) := by
  cases r with
  | error e => cases h
  | ok a => exact ⟨a.1, a.2, rfl, h⟩

namespace Document

/-! ## The document of a tree -/

/-- The document of a number; one that no reader without a declared type finds counts as null. -/
def ofAnyNumber (n : Number) : Document :=
  match n with
  | .int n => if h : FitsWord n then ofInt n h else null
  | .single _ => null
  | .double x => ofDouble x

mutual

/-- The document of a tree. The fields of an object are sorted, and of two of the same name the last
one counts. -/
def ofJson : Json → Document
  | .null => null
  | .bool b => ofBool b
  | .num n => ofAnyNumber n
  | .str s => ofText s
  | .arr items => ofItems (ofJsonItems items)
  | .obj fields => ofFields (SortedMap.ofList (ofJsonFields fields))

/-- The documents of some items. -/
def ofJsonItems : List Json → List Document
  | [] => []
  | j :: rest => ofJson j :: ofJsonItems rest

/-- The documents of some fields. -/
def ofJsonFields : List (String × Json) → List (String × Document)
  | [] => []
  | (name, j) :: rest => (name, ofJson j) :: ofJsonFields rest

end

theorem ofJson_null : ofJson .null = null := by rw [ofJson]

theorem ofJson_bool (b : Bool) : ofJson (.bool b) = ofBool b := by rw [ofJson]

theorem ofJson_str (s : String) : ofJson (.str s) = ofText s := by rw [ofJson]

theorem ofAnyNumber_eq (n : Number) (h : n.IsDynamic) : ofAnyNumber n = ofNumber ⟨n, h⟩ := by
  cases n with
  | int n => exact dif_pos h
  | single x => exact h.elim
  | double x => rfl

theorem ofJsonItems_eq_map : ∀ js : List Json, ofJsonItems js = js.map ofJson
  | [] => by rw [ofJsonItems]; rfl
  | j :: rest => by rw [ofJsonItems, ofJsonItems_eq_map rest]; rfl

theorem ofJsonFields_eq_map : ∀ fs : List (String × Json),
    ofJsonFields fs = fs.map fun f => (f.1, ofJson f.2)
  | [] => by rw [ofJsonFields]; rfl
  | (name, j) :: rest => by rw [ofJsonFields, ofJsonFields_eq_map rest]; rfl

theorem distinct_ofJsonFields {fs : List (String × Json)} (h : SortedMap.Distinct fs) :
    SortedMap.Distinct (ofJsonFields fs) := by
  rw [ofJsonFields_eq_map]
  exact List.pairwise_map.2 h

/-- The entries of the document of an object are its fields in another order. -/
theorem perm_ofJsonFields {fs : List (String × Json)} (h : (fs.map (·.1)).Nodup) :
    (SortedMap.ofList (ofJsonFields fs)).entries.Perm (fs.map fun f => (f.1, ofJson f.2)) := by
  have hperm := SortedMap.perm_ofList (distinct_ofJsonFields (SortedMap.distinct_of_nodup h))
  rwa [ofJsonFields_eq_map] at hperm ⊢

mutual

/-- A tree that is that of a document already is kept as it is. -/
theorem ofJson_canonical : ∀ (j : Json) (h : j.Canonical), ofJson j = ⟨j, h⟩
  | .null, _ => by rw [ofJson]; rfl
  | .bool _, _ => by rw [ofJson]; rfl
  | .num n, h => by rw [ofJson]; exact ofAnyNumber_eq n h
  | .str _, _ => by rw [ofJson]; rfl
  | .arr js, h => by
    have hjs : Json.CanonicalItems js := by rwa [Json.Canonical] at h
    rw [ofJson, ofJson_canonicalItems js hjs]
    exact ext (congrArg Json.arr (map_json_items js hjs))
  | .obj fs, h => by
    have hfs : Ascending fs ∧ Json.CanonicalFields fs := by rwa [Json.Canonical] at h
    rw [ofJson, ofJson_canonicalFields fs hfs.2]
    have hsorted : SortedMap.ofList (fields fs hfs.2) =
        ⟨fields fs hfs.2, ascending_fields hfs.2 hfs.1⟩ :=
      SortedMap.ofList_entries ⟨_, ascending_fields hfs.2 hfs.1⟩
    rw [hsorted]
    exact ext (congrArg Json.obj (map_json_fields fs hfs.2))

theorem ofJson_canonicalItems :
    ∀ (js : List Json) (h : Json.CanonicalItems js), ofJsonItems js = items js h
  | [], _ => by rw [ofJsonItems]; rfl
  | j :: rest, h => by
    rw [ofJsonItems, ofJson_canonical j h.1, ofJson_canonicalItems rest h.2]
    rfl

theorem ofJson_canonicalFields :
    ∀ (fs : List (String × Json)) (h : Json.CanonicalFields fs), ofJsonFields fs = fields fs h
  | [], _ => by rw [ofJsonFields]; rfl
  | (name, j) :: rest, h => by
    rw [ofJsonFields, ofJson_canonical j h.1, ofJson_canonicalFields rest h.2]
    rfl

end

/-- A document is the document of its own tree. -/
@[simp]
theorem ofJson_json (d : Document) : ofJson d.json = d := ofJson_canonical d.json d.canonical

/-! ## Opening what was closed -/

theorem items_map_json : ∀ (ds : List Document) (h : Json.CanonicalItems (ds.map (·.json))),
    items (ds.map (·.json)) h = ds
  | [], _ => rfl
  | d :: rest, h => by
    simp only [List.map_cons, items, items_map_json rest h.2]

theorem fields_map_json : ∀ (fs : List (String × Document))
    (h : Json.CanonicalFields (fs.map fun f => (f.1, f.2.json))),
    fields (fs.map fun f => (f.1, f.2.json)) h = fs
  | [], _ => rfl
  | (name, d) :: rest, h => by
    simp only [List.map_cons, fields, fields_map_json rest h.2]

@[simp]
theorem view_ofItems (ds : List Document) : (ofItems ds).view = .items ds :=
  congrArg View.items (items_map_json ds _)

@[simp]
theorem view_ofFields (fs : SortedMap String Document) : (ofFields fs).view = .fields fs :=
  congrArg View.fields (SortedMap.ext (fields_map_json fs.entries _))

/-! ## Reading the text of a tree -/

open Token (Reads)

theorem read_quote (depth : Nat) (rest : List Char) :
    read depth ('"' :: rest) = (Token.string rest).map ofText := by
  rw [read.eq_def]
  rfl

/-- With a level left, a bracket opens a list of documents that may nest one level less. -/
theorem read_bracket_of_start {depth : Nat} {cs tail : List Char}
    (start : Text.skipBlanks cs = '[' :: tail) :
    read (depth + 1) cs = (Container.enclose Container.closeList
      (Container.listOf (read depth) tail)).map ofItems := by
  rw [read.eq_def]
  simp only [start]

theorem read_bracket (depth : Nat) (rest : List Char) :
    read (depth + 1) ('[' :: rest) = (Container.enclose Container.closeList
      (Container.listOf (read depth) rest)).map ofItems :=
  read_bracket_of_start rfl

/-- A brace opens fields, of which a later one replaces an earlier one of its name. -/
theorem read_brace_of_start {depth : Nat} {cs tail : List Char}
    (start : Text.skipBlanks cs = '\x7b' :: tail) :
    read (depth + 1) cs = (Container.enclose Container.closeObject
      (Container.foldEntries (Container.mapEntry Token.string (read depth))
        SortedMap.empty tail)).map ofFields := by
  rw [read.eq_def]
  simp only [start]

theorem read_brace (depth : Nat) (rest : List Char) :
    read (depth + 1) ('\x7b' :: rest) = (Container.enclose Container.closeObject
      (Container.foldEntries (Container.mapEntry Token.string (read depth))
        SortedMap.empty rest)).map ofFields :=
  read_brace_of_start rfl

theorem read_numeral {c : Char} (hc : c = '-' ∨ c.isDigit = true) (expected : Expected)
    (depth : Nat) (cs : List Char) :
    read depth (c :: cs) = (Token.anyNumber expected (c :: cs)).map ofNumber := by
  have hskip := Token.skipBlanks_cons (Token.not_blank_of_numeral hc) cs
  rw [Token.anyNumber_cons hc, read.eq_def]
  dsimp only
  rw [hskip]
  split
  · next h => cases h
  · next h => cases h; simp at hc
  · next h => cases h; simp at hc
  · next h => cases h; simp at hc
  · next h => cases h; rfl
  · next h => cases h; simp at hc
  · next h => cases h; simp at hc
  · next h => cases h; simp at hc
  · next hminus _ _ _ h =>
    cases h
    have hm : c ≠ '-' := fun h => hminus (by rw [h])
    rw [if_neg hm, if_pos (hc.resolve_left hm)]

/-- A number is read in front of whatever cannot continue it. -/
theorem reads_of_anyNumber {n : Number} {w : WordNumber}
    (h : Token.anyNumber .unit n.text = .ok (w, [])) (depth : Nat) :
    Reads (read depth) n.text (ofNumber w) := by
  intro rest hr
  obtain ⟨c, tail, htext, hc⟩ : ∃ c tail, n.text = c :: tail ∧ (c = '-' ∨ c.isDigit = true) :=
    (Json.num n).text_head
  rw [htext] at h ⊢
  rw [List.cons_append, read_numeral hc .unit, ← List.cons_append, Token.anyNumber_append hc hr h]
  rfl

/-- A number that is found again is read as the document it is. -/
theorem reads_number {n : Number} (h : n.ReadsBack) (depth : Nat) :
    Reads (read depth) n.text (ofAnyNumber n) := by
  rw [ofAnyNumber_eq n h.1]
  apply reads_of_anyNumber
  cases n with
  | int n => exact Token.anyNumber_decimal h.1 _
  | single x => exact h.1.elim
  | double x => exact Token.number_of_readsBack (h.2 _ List.mem_cons_self) _

theorem reads_text (s : String) (depth : Nat) :
    Reads (read depth) (Json.str s).text (ofText s) := by
  intro rest _
  have hstring := Token.string_escaped s rest
  have htext : (Json.str s).text ++ rest = '"' :: (s.toList.flatMap Json.escapedChar ++ '"' :: rest) := by
    rw [Json.text, Json.stringText]
    simp
  rw [htext, read_quote, hstring]
  rfl

theorem readsKey_string (s : String) : Container.ReadsKey Token.string s s :=
  fun rest => Token.string_escaped s rest

mutual

/-- If each number of a tree is read as a certain other one, the text of the tree is read as the tree
with the other numbers. -/
theorem reads_mapNumbers {g : Number → Number} : ∀ (j : Json) (depth : Nat),
    (∀ n ∈ j.numbers, ∀ depth, Reads (read depth) n.text (ofAnyNumber (g n))) → j.depth ≤ depth →
    Reads (read depth) j.text (ofJson (j.mapNumbers g))
  | .null, _, _, _ => by
    intro rest _
    rw [read.eq_def, Json.mapNumbers, ofJson]
    rfl
  | .bool b, _, _, _ => by
    intro rest _
    rw [read.eq_def, Json.mapNumbers, ofJson]
    cases b <;> rfl
  | .num n, depth, hn, _ => by
    rw [Json.text, Json.mapNumbers, ofJson]
    exact hn n (by simp [Json.numbers]) depth
  | .str s, depth, _, _ => by
    rw [Json.mapNumbers, ofJson]
    exact reads_text s depth
  | .arr js, depth, hn, hd => by
    rw [Json.depth] at hd
    obtain ⟨depth, rfl⟩ := Nat.exists_eq_add_one_of_ne_zero (show depth ≠ 0 by omega)
    rw [Json.numbers] at hn
    intro rest _
    have hitems := Container.listOf_listText (reads_mapNumbersItems js depth hn (by omega)) rest
    rw [Json.text_arr, Json.mapNumbers, ofJson, List.cons_append, read_bracket, hitems,
      Container.enclose_closeList]
    rfl
  | .obj fs, depth, hn, hd => by
    rw [Json.depth] at hd
    obtain ⟨depth, rfl⟩ := Nat.exists_eq_add_one_of_ne_zero (show depth ≠ 0 by omega)
    rw [Json.numbers] at hn
    intro rest _
    have hfields := Container.foldEntries_objectText
      (Container.folds_mapEntry (reads_mapNumbersFields fs depth hn (by omega)) SortedMap.empty) rest
    rw [Json.text_obj, Json.mapNumbers, ofJson, List.cons_append, read_brace, hfields,
      Container.enclose_closeObject]
    rfl

theorem reads_mapNumbersItems {g : Number → Number} : ∀ (js : List Json) (depth : Nat),
    (∀ n ∈ Json.numbersItems js, ∀ depth, Reads (read depth) n.text (ofAnyNumber (g n))) →
    Json.depthItems js ≤ depth →
    List.Forall₂ (fun j d => Reads (read depth) j.text d) js (ofJsonItems (Json.mapNumbersItems g js))
  | [], _, _, _ => by
    rw [Json.mapNumbersItems, ofJsonItems]
    exact .nil
  | j :: rest, depth, hn, hd => by
    rw [Json.numbersItems, List.forall_mem_append] at hn
    rw [Json.depthItems] at hd
    obtain ⟨hj, hrest⟩ := Nat.max_le.1 hd
    rw [Json.mapNumbersItems, ofJsonItems]
    exact .cons (reads_mapNumbers j depth hn.1 hj) (reads_mapNumbersItems rest depth hn.2 hrest)

theorem reads_mapNumbersFields {g : Number → Number} : ∀ (fs : List (String × Json)) (depth : Nat),
    (∀ n ∈ Json.numbersFields fs, ∀ depth, Reads (read depth) n.text (ofAnyNumber (g n))) →
    Json.depthFields fs ≤ depth →
    List.Forall₂ (fun f e => Container.ReadsKey Token.string f.1 e.1 ∧
      Reads (read depth) f.2.text e.2) fs (ofJsonFields (Json.mapNumbersFields g fs))
  | [], _, _, _ => by
    rw [Json.mapNumbersFields, ofJsonFields]
    exact .nil
  | (name, j) :: rest, depth, hn, hd => by
    rw [Json.numbersFields, List.forall_mem_append] at hn
    rw [Json.depthFields] at hd
    obtain ⟨hj, hrest⟩ := Nat.max_le.1 hd
    rw [Json.mapNumbersFields, ofJsonFields]
    exact .cons ⟨readsKey_string name, reads_mapNumbers j depth hn.1 hj⟩
      (reads_mapNumbersFields rest depth hn.2 hrest)

end

/-- The text of a tree is read as the document of the tree. -/
theorem reads_ofJson (j : Json) (depth : Nat) (hn : ∀ n ∈ j.numbers, n.ReadsBack)
    (hd : j.depth ≤ depth) : Reads (read depth) j.text (ofJson j) := by
  have hreads := @reads_mapNumbers id j depth (fun n h => reads_number (hn n h)) hd
  have hself := @Json.mapNumbers_eq_self id j fun _ _ => rfl
  rwa [hself] at hreads

/-- The fields are read each with its name, in the order in which they stand. -/
theorem reads_ofJsonFields (fs : List (String × Json)) (depth : Nat)
    (hn : ∀ n ∈ Json.numbersFields fs, n.ReadsBack) (hd : Json.depthFields fs ≤ depth) :
    List.Forall₂ (fun f e => Container.ReadsKey Token.string f.1 e.1 ∧
      Reads (read depth) f.2.text e.2) fs (ofJsonFields fs) := by
  have hreads := @reads_mapNumbersFields id fs depth (fun n h => reads_number (hn n h)) hd
  have hself := @Json.mapNumbersFields_eq_self id fs fun _ _ => rfl
  rwa [hself] at hreads

/-! ## How a document was read -/

theorem eq_of_literalAs {letters : String} {a b : Document} {cs rest : List Char}
    (h : Token.literalAs letters a cs = .ok (b, rest)) : b = a := by
  rw [Token.literalAs] at h
  split at h
  · cases h
    rfl
  · cases h

/-- How a document was read: in one piece, however many containers might still have been opened, or
from its members. -/
inductive ReadBy (cs : List Char) : Nat → Document → List Char → Prop
  | plain {depth : Nat} {d : Document} {rest : List Char} (always : ∀ n, read n cs = .ok (d, rest))
      (flat : d.json.depth = 0) (not_text : ∀ s, d.view ≠ .text s) : ReadBy cs depth d rest
  | text {depth : Nat} {s : String} {tail rest : List Char}
      (start : Text.skipBlanks cs = '"' :: tail) (body : Token.string tail = .ok (s, rest)) :
      ReadBy cs depth (ofText s) rest
  | items {depth : Nat} {ds : List Document} {tail rest : List Char}
      (start : Text.skipBlanks cs = '[' :: tail)
      (body : Container.enclose Container.closeList (Container.listOf (read depth) tail) =
        .ok (ds, rest)) : ReadBy cs (depth + 1) (ofItems ds) rest
  | fields {depth : Nat} {fs : SortedMap String Document} {tail rest : List Char}
      (start : Text.skipBlanks cs = '\x7b' :: tail)
      (body : Container.enclose Container.closeObject (Container.foldEntries
        (Container.mapEntry Token.string (read depth)) SortedMap.empty tail) = .ok (fs, rest)) :
      ReadBy cs (depth + 1) (ofFields fs) rest

/-- Only a bracket minds how many containers may be opened. -/
theorem read_of_flat {c : Char} {cs tail : List Char} (start : Text.skipBlanks cs = c :: tail)
    (hlist : c ≠ '[') (hobject : c ≠ '\x7b') (n m : Nat) : read n cs = read m cs := by
  rw [read.eq_def, read.eq_def]
  simp only [start]
  split
  · next h => cases h
  · rfl
  · rfl
  · rfl
  · rfl
  · rfl
  · next h =>
    cases h
    exact absurd rfl hlist
  · next h =>
    cases h
    exact absurd rfl hobject
  · next h =>
    cases h
    rfl

theorem view_ofNumber (n : WordNumber) (s : String) : (ofNumber n).view ≠ .text s := by
  obtain ⟨n, h⟩ := n
  cases n with
  | int n => nofun
  | single x => exact h.elim
  | double x => nofun

/-- Whatever is read has been read in one of the ways that `ReadBy` lists. -/
theorem readBy_of_read {depth : Nat} {cs rest : List Char} {d : Document}
    (h : read depth cs = .ok (d, rest)) : ReadBy cs depth d rest := by
  have hread := h
  rw [read.eq_def] at h
  dsimp only at h
  -- one case for each first character
  split at h
  · cases h
  · next start =>
    obtain rfl := eq_of_literalAs h
    exact .plain (fun n => (read_of_flat start (by decide) (by decide) n _).trans hread) rfl nofun
  · next start =>
    obtain rfl := eq_of_literalAs h
    exact .plain (fun n => (read_of_flat start (by decide) (by decide) n _).trans hread) rfl nofun
  · next start =>
    obtain rfl := eq_of_literalAs h
    exact .plain (fun n => (read_of_flat start (by decide) (by decide) n _).trans hread) rfl nofun
  · next start =>
    obtain ⟨i, -, rfl⟩ := Read.map_ok h
    exact .plain (fun n => (read_of_flat start (by decide) (by decide) n _).trans hread) rfl
      (view_ofNumber i)
  · next start =>
    obtain ⟨s, hs, rfl⟩ := Read.map_ok h
    exact .text start hs
  · next start =>
    split at h
    · cases h
    · obtain ⟨ds, hds, rfl⟩ := Read.map_ok h
      exact .items start hds
  · next start =>
    split at h
    · cases h
    · obtain ⟨fs, hfs, rfl⟩ := Read.map_ok h
      exact .fields start hfs
  · next hlist hobject start =>
    split at h
    · obtain ⟨i, -, rfl⟩ := Read.map_ok h
      exact .plain (fun n => (read_of_flat start hlist hobject n _).trans hread) rfl
        (view_ofNumber i)
    · cases h

theorem depth_ofFields_ne_zero (fs : SortedMap String Document) :
    (ofFields fs).json.depth ≠ 0 := by
  rw [ofFields, Json.depth]
  exact Nat.succ_ne_zero _

/-- An object is read from the entries after a brace. -/
theorem read_fields_ok {depth : Nat} {cs rest : List Char} {fs : SortedMap String Document}
    (h : read depth cs = .ok (ofFields fs, rest)) :
    ∃ inner tail, Text.skipBlanks cs = '\x7b' :: tail ∧ Container.enclose Container.closeObject
      (Container.foldEntries (Container.mapEntry Token.string (read inner)) SortedMap.empty tail) =
        .ok (fs, rest) := by
  generalize hd : ofFields fs = d at h
  have hview : d.view = .fields fs := by rw [← hd, view_ofFields]
  cases readBy_of_read h with
  | plain always flat =>
    rw [← hd] at flat
    exact absurd flat (depth_ofFields_ne_zero fs)
  | text => cases hview
  | items start body =>
    rw [view_ofItems] at hview
    cases hview
  | fields start body =>
    rw [view_ofFields] at hview
    cases hview
    exact ⟨_, _, start, body⟩

/-- Only a text that starts with a brace is read as an object. -/
theorem head_of_read_fields {depth : Nat} {cs rest : List Char} {d : Document}
    {fs : SortedMap String Document} (h : read depth cs = .ok (d, rest)) (hd : d.view = .fields fs) :
    (Text.skipBlanks cs).head? = some '\x7b' := by
  have hobject : d = ofFields fs := by rw [← ofView_view d, hd, ofView]
  rw [hobject] at h
  obtain ⟨inner, tail, hstart, -⟩ := read_fields_ok h
  rw [hstart]
  rfl

/-- Only a text that starts with a quote is read as a string. -/
theorem head_of_read_text {depth : Nat} {cs rest : List Char} {s : String}
    (h : read depth cs = .ok (ofText s, rest)) : (Text.skipBlanks cs).head? = some '"' := by
  generalize hd : ofText s = d at h
  have hview : d.view = .text s := by
    rw [← hd]
    rfl
  cases readBy_of_read h with
  | plain always flat not_text => exact absurd hview (not_text s)
  | text start body =>
    rw [start]
    rfl
  | items start body =>
    rw [view_ofItems] at hview
    cases hview
  | fields start body =>
    rw [view_ofFields] at hview
    cases hview

end Document

/-! ## Whole texts -/

/-- The tree can be read without a declared type: its numbers are found again and it is not nested
too deep. -/
structure Json.Readable (j : Json) : Prop where
  numbers : ∀ n ∈ j.numbers, n.ReadsBack
  depth : j.depth ≤ maxDepth

theorem Read.whole_of_reads {α : Type} {read : List Char → Read α} {text : List Char} {a : α}
    (h : Token.Reads read text a) : Read.whole read text = .ok a := by
  have hread := h [] Token.ends_nil
  rw [List.append_nil] at hread
  rw [Read.whole, hread]
  rfl

/-- A text is read as a whole if nothing but blanks is left of it. -/
theorem Read.whole_ok {α : Type} {read : List Char → Read α} {text : List Char} {a : α}
    (h : Read.whole read text = .ok a) :
    ∃ rest, read text = .ok (a, rest) ∧ Text.skipBlanks rest = [] := by
  unfold Read.whole at h
  split at h
  · cases h
  · next b rest hread =>
    split at h
    · next hrest =>
      cases h
      exact ⟨rest, hread, hrest⟩
    · cases h

theorem Document.parse_text {j : Json} (h : j.Readable) :
    Document.parse j.text = .ok (Document.ofJson j) :=
  Read.whole_of_reads (Document.reads_ofJson j maxDepth h.numbers h.depth)

/-- A document that can be read is read back from its own text. -/
theorem Document.parse_render {d : Document} (h : d.json.Readable) :
    Document.parse d.json.render.toList = .ok d := by
  rw [Json.render, String.toList_ofList, parse_text h, ofJson_json]

namespace Codec

/-- The object that the text of an object spells. -/
theorem objectOf?_obj {fs : List (String × Json)} (h : (Json.obj fs).Readable) :
    objectOf? (Json.obj fs).render = some (SortedMap.ofList (Document.ofJsonFields fs)) := by
  have hparse := Document.parse_text h
  rw [Document.ofJson] at hparse
  rw [objectOf?, Json.render, String.toList_ofList, hparse]
  simp only [Document.view_ofFields]

/-- A text spells an object if it is read as one. -/
theorem objectOf?_eq_some {text : String} {fs : SortedMap String Document} :
    objectOf? text = some fs ↔ Document.parse text.toList = .ok (Document.ofFields fs) := by
  unfold objectOf?
  cases hparse : Document.parse text.toList with
  | error e => simp
  | ok d =>
    dsimp only
    constructor
    · intro h
      split at h
      · next gs hview =>
        cases h
        rw [← Document.ofView_view d, hview, Document.ofView]
      · cases h
    · intro h
      rw [Except.ok.inj h, Document.view_ofFields]

/-- A text that does not start like an object spells none. -/
theorem objectOf?_eq_none {text : String}
    (h : (Text.skipBlanks text.toList).head? ≠ some '\x7b') : objectOf? text = none := by
  refine Option.eq_none_iff_forall_ne_some.2 fun fs hfs => ?_
  obtain ⟨rest, hread, -⟩ := Read.whole_ok (objectOf?_eq_some.1 hfs)
  exact h (Document.head_of_read_fields hread (Document.view_ofFields fs))

theorem objectOf?_arr (js : List Json) : objectOf? (Json.arr js).render = none := by
  refine objectOf?_eq_none ?_
  have hskip := (Json.arr js).skipBlanks_text []
  rw [List.append_nil] at hskip
  rw [Json.render, String.toList_ofList, hskip, Json.text_arr]
  simp

end Codec

end SchemaStore
