import Mathlib.Data.List.Nodup
import Mathlib.Data.List.Perm.Basic
import SchemaStore.Proofs.Shape.RoundTrip

/-!
# Values, written and read from a document

A value can also be read from the document of its JSON form, which holds only what a reader with no
declared type finds: integers of 64 bits, doubles, and the fields of an object by name
(`Shape.isDynamic`). `Shape.ofDocument_ofJson`: the value is found there. A document has lost the
order of the fields, so maps and records are read back from their entries in any order
(`Container.mapOf_of_perm`, `Fields.ofFields_of_perm`).
-/

namespace SchemaStore

/-! ## Strings -/

theorem Document.toVariant_ofText {α : Type} {names : List String} (h : names.Nodup)
    (i : Fin names.length) {bare : Fin names.length → Except Problem α} {a : α}
    (ha : bare i = .ok a) (carried : Fin names.length → Document → Except Complaint α) :
    (Document.ofText (names.get i)).toVariant names bare carried = .ok a := by
  have hview : (Document.ofText (names.get i)).view = .text (names.get i) := rfl
  rw [Document.toVariant, hview]
  simp only [Token.variantIndex_get h, ha]
  rfl

/-- A string, read as a bare text, is the value it was written for. -/
theorem Shape.ofDocument_text : ∀ {s : Shape} {v : s.Val} {t : String},
    s.toJson v = .ok (.str t) → s.ofDocument (Document.ofText t) = .ok v
  | .leaf (.scalar .bool), _, _, h => by cases h
  | .leaf (.scalar (.int _)), _, _, h => by cases h
  | .leaf (.scalar .char), v, _, h => by
    cases h
    have hchar : Text.toChar (String.singleton v) = .ok v := Token.toChar_singleton v
    show (Text.toChar (String.singleton v)).mapError Problem.unplaced = .ok v
    rw [hchar]
    rfl
  | .leaf (.scalar .text), _, _, h => by
    cases h
    rfl
  | .leaf (.scalar (.label l)), v, _, h => by
    cases h
    exact Document.toVariant_ofText l.distinct v rfl fun i d => d.toUnit.map fun _ => i
  | .leaf (.float _), v, _, h => by cases v <;> cases h
  | .option s, none, _, h => by cases h
  | .option s, some v, t, h => by
    have hread := ofDocument_text (s := s) h
    exact congrArg (Except.map some) hread
  | .list s, vs, _, h => by
    obtain ⟨js, -, hjs⟩ := exists_of_map_ok h
    cases hjs
  | .array _ s, vs, _, h => by
    obtain ⟨js, -, hjs⟩ := exists_of_map_ok h
    cases hjs
  | .pair s t, (v, w), _, h => by
    obtain ⟨a, b, -, -, hab⟩ := Shape.toJson_pair h
    cases hab
  | .map k s, m, _, h => by
    obtain ⟨fs, -, hfs⟩ := exists_of_map_ok h
    cases hfs
  | .choice c, v, t, h => by
    obtain ⟨hbare, rfl⟩ := Choice.bare_of_toJson_str (Except.ok.inj h)
    rw [← c.names_get v.1]
    show c.ofDocument _ = .ok v
    unfold Choice.ofDocument
    exact Document.toVariant_ofText c.distinct (c.nameIndex v.1) hbare _
  | .json, d, _, h => by
    have hd : d = Document.ofText _ := Document.ext (Except.ok.inj h)
    exact congrArg Except.ok hd.symm

/-! ## Leaves -/

namespace Document

/-- Only null is found as null, and numbers that a reader with no declared type does not find. -/
theorem view_ofJson_ne_null {j : Json} (hj : j ≠ .null) (hn : ∀ n ∈ j.numbers, n.IsDynamic) :
    (ofJson j).view ≠ .null := by
  cases j with
  | null => exact absurd rfl hj
  | bool b =>
    rw [ofJson]
    nofun
  | num n =>
    have hdynamic : n.IsDynamic := hn n (by rw [Json.numbers]; exact List.mem_singleton_self n)
    rw [ofJson, ofAnyNumber_eq n hdynamic]
    cases n with
    | int n => nofun
    | single x => exact hdynamic.elim
    | double x => nofun
  | str s =>
    rw [ofJson]
    nofun
  | arr js =>
    rw [ofJson, view_ofItems]
    nofun
  | obj fs =>
    rw [ofJson, view_ofFields]
    nofun

theorem toItems_arr (expected : Expected) (js : List Json) :
    (ofJson (.arr js)).toItems expected = .ok (js.map ofJson) := by
  rw [ofJson, toItems, view_ofItems, ofJsonItems_eq_map]

theorem toFields_ofFields (expected : Expected) (fs : SortedMap String Document) :
    (ofFields fs).toFields expected = .ok fs := by
  rw [toFields, view_ofFields]

theorem toFields_obj (expected : Expected) (fs : List (String × Json)) :
    (ofJson (.obj fs)).toFields expected = .ok (SortedMap.ofList (ofJsonFields fs)) := by
  rw [ofJson, toFields_ofFields]

theorem toInteger_ofInt {k : IntKind} (n : k.Val) (h : FitsWord n.val) :
    (ofInt n.val h).toInteger k = .ok n := by
  simp only [toInteger, view, ofInt, IntKind.ofInt?_val]

/-- An optional value is found unless it is found as null. -/
theorem toOption_some {α : Type} {read : Document → Except Complaint α} {d : Document} {a : α}
    (hd : d.view ≠ .null) (h : read d = .ok a) : d.toOption read = .ok (some a) := by
  rw [toOption]
  split
  · next hview => exact absurd hview hd
  · rw [h]
    rfl

theorem view_null_of_toOption {α : Type} {read : Document → Except Complaint α} {d : Document}
    (h : d.toOption read = .ok none) : d.view = .null := by
  rw [toOption] at h
  split at h
  · next hview => exact hview
  · cases hread : read d with
    | error e =>
      rw [hread] at h
      cases h
    | ok a =>
      rw [hread] at h
      cases h

end Document

/-- Every scalar is found again in its text as a key. -/
theorem Scalar.ofKey_toKey (s : Scalar) (v : s.Val) : s.ofKey (s.toKey v) = .ok v := by
  cases s with
  | bool => cases v <;> rfl
  | int k =>
    obtain ⟨c, tail, htext, hc⟩ := Json.decimal_head v.val
    have hread := Token.reads_integer k v [] Token.ends_nil
    rw [List.append_nil] at hread
    have hstart : Text.startsWithDigit (Text.decimal v.val) = true ∨
        (Text.decimal v.val).head? = some '-' := by
      rw [htext]
      rcases hc with rfl | hc
      · exact .inr rfl
      · exact .inl hc
    simp only [ofKey, toKey, IntKind.ofKey, String.toList_ofList]
    rw [if_pos hstart, hread]
    rfl
  | char =>
    have hchar : Text.toChar (String.singleton v) = .ok v := Token.toChar_singleton v
    show (Text.toChar (String.singleton v)).mapError Problem.unplaced = .ok v
    rw [hchar]
    rfl
  | text => rfl
  | label l =>
    have hindex := Token.variantIndex_get l.distinct v
    show (Token.variantIndex l.names (l.names.get v)).mapError Problem.unplaced = .ok v
    rw [hindex]
    rfl

/-- Only scalars are written as keys, and they are found again. -/
theorem KeyShape.ofKey_toKey : ∀ {k : KeyShape} {v : k.Val} {name : String},
    k.toKey v = .ok name → k.ofKey name = .ok v
  | .scalar s, v, _, h => by
    cases h
    exact s.ofKey_toKey v
  | .pair _ _, _, _, h => by cases h

namespace Leaf

/-- A leaf is found in the document of its JSON form, if a reader with no declared type finds its
number. -/
theorem ofDocument_ofJson {l : Leaf} (hl : l.isDynamic = true) {v : l.Val}
    (hx : ∀ x ∈ l.floats v, x.2.ReadsBack) :
    l.ofDocument (Document.ofJson (l.toJson v)) = .ok v := by
  cases l with
  | scalar s =>
    cases s with
    | bool => exact congrArg Document.toBool (Document.ofJson_bool v)
    | int k =>
      have hfits : FitsWord v.val := canonical_toJson hl v
      have hnumber : Document.ofJson (.num (.int v.val)) = .ofInt v.val hfits := by
        rw [Document.ofJson, Document.ofAnyNumber, dif_pos hfits]
      exact (congrArg (Document.toInteger k) hnumber).trans (Document.toInteger_ofInt v hfits)
    | char | text | label l =>
      refine (congrArg (Leaf.ofDocument _) (Document.ofJson_str _)).trans ?_
      exact Shape.ofDocument_text (s := .leaf _) rfl
  | float p =>
    cases p with
    | single => cases hl
    | double =>
      have hv := hx ⟨.double, v⟩ List.mem_cons_self
      cases v with
      | finite x =>
        have hnumber : Document.ofJson (.num (.double x)) = .ofDouble x := by
          rw [Document.ofJson, Document.ofAnyNumber]
        exact congrArg (Document.toFloat .double) hnumber
      | infinite negative => exact hv.elim
      | nan => exact hv.elim

/-- The document of a leaf is not null. -/
theorem view_ofJson_ne_null {l : Leaf} (hl : l.isDynamic = true) {v : l.Val}
    (hx : ∀ x ∈ l.floats v, x.2.ReadsBack) : (Document.ofJson (l.toJson v)).view ≠ .null :=
  Document.view_ofJson_ne_null (l.toJson_ne_null v hx) fun n hn => (readsBack_toJson hl hx n hn).1

theorem ofItems_toItems (expected : Expected) : ∀ {ls : List Leaf} (vs : Vals ls) (n : Nat),
    ls.all isDynamic = true → (∀ x ∈ allFloats ls vs, x.2.ReadsBack) →
    ofItems expected ls n ((toItems ls vs).map Document.ofJson) = .ok (vs, [])
  | [], _, _, _, _ => rfl
  | l :: rest, (v, vs), n, hl, hx => by
    simp only [List.all_cons, Bool.and_eq_true] at hl
    have hv := ofDocument_ofJson hl.1 (v := v) fun x hm => hx x (List.mem_append_left _ hm)
    have hvs := ofItems_toItems expected vs (n + 1) hl.2 fun x hm =>
      hx x (List.mem_append_right _ hm)
    rw [toItems, List.map_cons, ofItems, hv]
    simp only [bind, Except.bind, hvs]
    rfl

end Leaf

/-! ## Records -/

namespace Field

theorem ofDocument_toEntry? : ∀ {f : Field} {v : f.Val} {name : String} {j : Json},
    f.leaf.isDynamic = true → (∀ x ∈ f.floats v, x.2.ReadsBack) → f.toEntry? v = some (name, j) →
    f.ofDocument (Document.ofJson j) = .ok v
  | ⟨_, leaf, .required⟩, v, _, _, hl, hx, h => by
    cases h
    exact Leaf.ofDocument_ofJson hl hx
  | ⟨_, leaf, .omitted⟩, v, _, _, hl, hx, h => by
    obtain ⟨w, rfl, hw⟩ := Option.map_eq_some_iff.1 h
    cases hw
    exact Document.toOption_some (Leaf.view_ofJson_ne_null hl hx) (Leaf.ofDocument_ofJson hl hx)
  | ⟨_, leaf, .nullable⟩, none, _, _, _, _, h => by
    cases h
    exact congrArg (Document.toOption leaf.ofDocument) Document.ofJson_null
  | ⟨_, leaf, .nullable⟩, some w, _, _, hl, hx, h => by
    cases h
    exact Document.toOption_some (Leaf.view_ofJson_ne_null hl hx) (Leaf.ofDocument_ofJson hl hx)

end Field

/-- A written field goes to its slot. -/
theorem Slots.put_part {name : String} {j : Json} (names : List String) :
    ∀ {fs : List Field} (vs : Fields.Vals fs), (fs.map (·.name)).Nodup →
    Fields.areDynamic fs = true → (∀ x ∈ Fields.floats fs vs, x.2.ReadsBack) →
    (name, j) ∈ Fields.toEntries fs vs →
    put name (Document.ofJson j) fs (part names fs vs) = .ok (part (name :: names) fs vs)
  | [], _, _, _, _, h => by cases h
  | f :: others, (v, vs), hnodup, hd, hx, h => by
    obtain ⟨hf, hothers⟩ := List.nodup_cons.1 hnodup
    simp only [Fields.areDynamic, List.all_cons, Bool.and_eq_true] at hd
    rw [Fields.floats] at hx
    by_cases hname : f.name = name
    · subst hname
      have hentry : f.toEntry? v = some (f.name, j) := by
        rcases Fields.mem_toEntries_cons.1 h with h | h
        · exact h
        · exact absurd ((Fields.sublist_names others vs).subset (List.mem_map_of_mem h)) hf
      have hread := Field.ofDocument_toEntry? hd.1 (fun x hm => hx x (List.mem_append_left _ hm))
        hentry
      have hfilled : part (f.name :: names) (f :: others) (v, vs) = (some v, part names others vs) :=
        Prod.ext (if_pos List.mem_cons_self) (part_cons_of_not_mem vs hf)
      rw [hfilled, part, put, if_pos rfl, hread]
      rfl
    · have hentry : (name, j) ∈ Fields.toEntries others vs := by
        rcases Fields.mem_toEntries_cons.1 h with h | h
        · exact absurd (Field.name_of_toEntry? h).symm hname
        · exact h
      have hmem : f.name ∈ name :: names ↔ f.name ∈ names := by
        simp [hname]
      have hput := put_part names vs hothers hd.2
        (fun x hm => hx x (List.mem_append_right _ hm)) hentry
      rw [part, put, if_neg hname, hput]
      simp only [part, hmem]
      rfl

theorem Slots.foldlM_put {fs : List Field} {vs : Fields.Vals fs} (hnodup : (fs.map (·.name)).Nodup)
    (hd : Fields.areDynamic fs = true) (hx : ∀ x ∈ Fields.floats fs vs, x.2.ReadsBack) :
    ∀ (es : List (String × Document)) (names : List String),
    (∀ e ∈ es, ∃ j, (e.1, j) ∈ Fields.toEntries fs vs ∧ Document.ofJson j = e.2) →
    es.foldlM (fun slots e => put e.1 e.2 fs slots) (part names fs vs) =
      .ok (part ((es.map (·.1)).reverse ++ names) fs vs)
  | [], _, _ => rfl
  | e :: es, names, h => by
    obtain ⟨⟨j, hj, he⟩, hes⟩ := List.forall_mem_cons.1 h
    have hput := put_part names vs hnodup hd hx hj
    have hrest := foldlM_put hnodup hd hx es (e.1 :: names) hes
    rw [he] at hput
    rw [List.foldlM_cons, hput, List.map_cons, List.reverse_cons, List.append_assoc]
    exact hrest

/-- The fields of a record are found, in whatever order they stand. -/
theorem Fields.ofFields_of_perm {fs : List Field} {vs : Vals fs} {es : List (String × Json)}
    (hnodup : (fs.map (·.name)).Nodup) (hd : areDynamic fs = true)
    (hx : ∀ x ∈ floats fs vs, x.2.ReadsBack) (hes : es.Perm (toEntries fs vs)) :
    ofFields fs (SortedMap.ofList (Document.ofJsonFields es)) = .ok vs := by
  have hnames : (es.map (·.1)).Nodup := (hes.map _).nodup_iff.2 (nodup_toEntries hnodup vs)
  have hperm := Document.perm_ofJsonFields hnames
  have hfold := Slots.foldlM_put hnodup hd hx
    (SortedMap.ofList (Document.ofJsonFields es)).entries [] fun e he => by
      obtain ⟨f, hf, rfl⟩ := List.mem_map.1 (hperm.mem_iff.1 he)
      exact ⟨f.2, hes.mem_iff.1 hf, rfl⟩
  have hfinish : Slots.finish fs (Slots.part
      (((SortedMap.ofList (Document.ofJsonFields es)).entries.map (·.1)).reverse ++ []) fs vs) =
      .ok vs := by
    refine Slots.finish_part vs fun e he => ?_
    rw [List.append_nil, List.mem_reverse, List.mem_map]
    refine ⟨(e.1, Document.ofJson e.2), hperm.mem_iff.2 ?_, rfl⟩
    exact List.mem_map_of_mem (f := fun f => (f.1, Document.ofJson f.2)) (hes.mem_iff.2 he)
  rw [Slots.part_nil] at hfold
  rw [ofFields, hfold]
  simp only [bind, Except.bind, hfinish]
  rfl

/-! ## Choices -/

theorem Document.toVariant_field {α : Type} {names : List String} (h : names.Nodup)
    (i : Fin names.length) (bare : Fin names.length → Except Problem α)
    {carried : Fin names.length → Document → Except Complaint α} {j : Json} {a : α}
    (ha : carried i (ofJson j) = .ok a) :
    (ofJson (.obj [(names.get i, j)])).toVariant names bare carried = .ok a := by
  have hview : (ofJson (.obj [(names.get i, j)])).view =
      .fields (SortedMap.ofList [(names.get i, ofJson j)]) := by
    rw [ofJson, view_ofFields, ofJsonFields_eq_map]
    rfl
  rw [toVariant, hview]
  simp only [SortedMap.ofList, SortedMap.insertAll, SortedMap.insert, SortedMap.empty,
    List.foldl_cons, List.foldl_nil, SortedMap.insertEntry, Token.variantIndex_get h, ha]

namespace Payload

/-- A tuple that is carried has members. -/
def isFilled : Payload → Bool
  | .tuple ls => !ls.isEmpty
  | _ => true

/-- What a variant carries is found in the document of its body. -/
theorem ofDocument_body (path : String) : ∀ {p : Payload} {v : p.Val} {j : Json},
    p.isDynamic = true → p.isFilled = true → (∀ x ∈ p.floats v, x.2.ReadsBack) → p.Body v j →
    p.ofDocument path (Document.ofJson j) = .ok v
  | .unit, _, _, _, _, _, h => h.elim
  | .single l, v, _, hd, _, hx, h => by
    cases h
    exact Leaf.ofDocument_ofJson hd hx
  | .tuple ls, vs, _, hd, hf, hx, h => by
    cases h
    have hitems := Leaf.ofItems_toItems (.tupleVariantOf path ls.length) vs 0 hd hx
    have hne : ((Leaf.toItems ls vs).map Document.ofJson).isEmpty = false := by
      cases ls with
      | nil => cases hf
      | cons l rest => rfl
    rw [ofDocument, Document.toItems_arr]
    simp only [bind, Except.bind, hne, hitems]
    rfl
  | .record fs, vs, _, hd, _, hx, h => by
    obtain ⟨es, hes, rfl⟩ := h
    rw [ofDocument, Document.toFields_obj]
    exact Fields.ofFields_of_perm fs.distinct hd hx hes

end Payload

namespace Choice

/-- No variant carries a tuple without members. -/
def isFilled (c : Choice) : Bool := c.variants.all fun v => v.payload.isFilled

/-- Every variant is found in the document of its JSON form. -/
theorem ofDocument_ofJson {c : Choice} {v : c.Val} (hd : c.isDynamic = true)
    (hf : c.isFilled = true) (hx : ∀ x ∈ c.floats v, x.2.ReadsBack) :
    c.ofDocument (Document.ofJson (c.toJson v)) = .ok v := by
  rcases toJson_eq_str_or_obj v with ⟨-, hstr⟩ | ⟨j, hbody, hobj⟩
  · rw [hstr, Document.ofJson_str]
    exact Shape.ofDocument_text (s := .choice c) (congrArg Except.ok hstr)
  · have hfilled := List.all_eq_true.1 hf _ (List.get_mem c.variants v.1)
    have hcarried := Payload.ofDocument_body (c.path (c.nameIndex v.1)) (isDynamic_payload hd v)
      hfilled hx hbody
    rw [hobj, ← c.names_get v.1, ofDocument]
    refine Document.toVariant_field c.distinct (c.nameIndex v.1) _ ?_
    exact congrArg (Except.map (c.close (c.nameIndex v.1))) hcarried

end Choice

/-! ## Maps -/

namespace Container

section Maps

variable {κ α : Type} [Ord κ] [Std.TransOrd κ] {key : String → Except Complaint κ}
  {value : Document → Except Complaint α}

theorem foldlM_insert {es : List (String × Document)} {kvs : List (κ × α)}
    (h : List.Forall₂ (fun e kv => key e.1 = .ok kv.1 ∧ value e.2 = .ok kv.2) es kvs)
    (m : SortedMap κ α) :
    es.foldlM (fun (m : SortedMap κ α) e => do
      let k ← key e.1
      let v ← value e.2
      return m.insert k v) m = .ok (m.insertAll kvs) := by
  induction h generalizing m with
  | nil => rfl
  | cons he _ ih =>
    rw [List.foldlM_cons, he.1, he.2]
    exact ih _

/-- A map is found in its entries, in whatever order they stand. -/
theorem mapOf_of_perm {fs : List (String × Json)} {m : SortedMap κ α}
    (h : List.Forall₂ (fun f e => key f.1 = .ok e.1 ∧ value (Document.ofJson f.2) = .ok e.2)
      fs m.entries) :
    mapOf key value (SortedMap.ofList (Document.ofJsonFields fs)) = .ok m := by
  have hkeys : (fs.map (·.1)).map key = m.keys.map Except.ok := by
    rw [List.map_map, SortedMap.keys, List.map_map]
    generalize m.entries = es at h
    induction h with
    | nil => rfl
    | cons he _ ih => exact congrArg₂ List.cons he.1 ih
  have hnames : (fs.map (·.1)).Nodup := by
    refine List.Nodup.of_map key ?_
    rw [hkeys]
    exact m.nodup_keys.map fun _ _ => Except.ok.inj
  have hfields : List.Forall₂ (fun e kv => key e.1 = .ok kv.1 ∧ value e.2 = .ok kv.2)
      (fs.map fun f => (f.1, Document.ofJson f.2)) m.entries := List.forall₂_map_left_iff.2 h
  -- the entries come in the order of their names, which need not be that of the keys
  obtain ⟨kvs, hkvs, hperm⟩ := List.perm_comp_forall₂ (Document.perm_ofJsonFields hnames) hfields
  rw [mapOf, foldlM_insert hkvs]
  exact congrArg Except.ok (SortedMap.ofList_of_perm hperm)

end Maps

end Container

/-! ## Values -/

theorem mapM_of_forall₂ {ε α β : Type} {f : α → Except ε β} {as : List α} {bs : List β}
    (h : List.Forall₂ (fun a b => f a = .ok b) as bs) : as.mapM f = .ok bs := by
  induction h with
  | nil => rfl
  | cons hb _ ih =>
    rw [List.mapM_cons, hb, ih]
    rfl

theorem Container.exactlyOf_cons {α : Type} (item : Document → Except Complaint α) (total n : Nat)
    (d : Document) (ds : List Document) :
    exactlyOf item total (n + 1) (d :: ds) = item d >>= fun a =>
      exactlyOf item total n ds >>= fun r =>
        .ok (⟨a :: r.1.val, congrArg Nat.succ r.1.property⟩, r.2) := rfl

theorem Container.exactlyOf_of_forall₂ {α : Type} {item : Document → Except Complaint α}
    (total : Nat) : ∀ {n : Nat} {ds : List Document} (vs : { l : List α // l.length = n }),
    List.Forall₂ (fun d v => item d = .ok v) ds vs.val → exactlyOf item total n ds = .ok (vs, [])
  | 0, ds, ⟨[], _⟩, h => by
    cases h
    rfl
  | n + 1, ds, ⟨v :: vs, hlength⟩, h => by
    cases h with
    | cons hv hvs =>
      have hrest := exactlyOf_of_forall₂ total (n := n) ⟨vs, Nat.succ.inj hlength⟩ hvs
      rw [exactlyOf_cons, hv]
      simp only [bind, Except.bind, hrest]

namespace Shape

/-- A reader with no declared type finds all that is written: integers have 64 bits, floats are
double, and no variant carries an empty tuple, which stands for nothing. -/
def isDynamic : Shape → Bool
  | .leaf l => l.isDynamic
  | .unit | .json | .object => true
  | .option s | .list s | .array _ s | .map _ s => s.isDynamic
  | .set s => Leaf.isDynamic (.scalar s)
  | .pair s t => s.isDynamic && t.isDynamic
  | .record r => Fields.areDynamic r.fields.list
  | .choice c => c.isDynamic && c.isFilled

theorem readsBack_arr {α : Type} {write : α → Except Problem Json} {vs : List α} {js : List Json}
    (h : List.mapM write vs = .ok js)
    (hv : ∀ v ∈ vs, ∀ j, write v = .ok j → ∀ n ∈ j.numbers, n.ReadsBack) :
    ∀ n ∈ (Json.arr js).numbers, n.ReadsBack := by
  intro n hn
  rw [Json.numbers, Json.mem_numbersItems] at hn
  obtain ⟨j, hj, hn⟩ := hn
  obtain ⟨v, hmem, hvj⟩ := mem_of_mapM h j hj
  exact hv v hmem j hvj n hn

/-- All numbers of a value are found by a reader with no declared type. -/
theorem readsBack_toJson : ∀ {s : Shape} {v : s.Val} {j : Json}, s.isDynamic = true →
    s.toJson v = .ok j → (∀ x ∈ s.floats v, x.2.ReadsBack) → ∀ n ∈ j.numbers, n.ReadsBack
  | .leaf l, v, _, hd, h, hx => by
    cases h
    exact Leaf.readsBack_toJson hd hx
  | .unit, v, _, _, h, _ => by
    cases h
    nofun
  | .option s, none, _, _, h, _ => by
    cases h
    nofun
  | .option s, some v, j, hd, h, hx => readsBack_toJson (s := s) hd h hx
  | .list s, vs, _, hd, h, hx => by
    obtain ⟨js, hjs, rfl⟩ := exists_of_map_ok h
    exact readsBack_arr hjs fun v hv j hj => readsBack_toJson (s := s) hd hj
      fun x hm => hx x (List.mem_flatMap.2 ⟨v, hv, hm⟩)
  | .set s, vs, _, hd, h, _ => by
    cases h
    intro n hn
    rw [Json.numbers, Json.mem_numbersItems] at hn
    obtain ⟨j, hj, hn⟩ := hn
    obtain ⟨v, -, rfl⟩ := List.mem_map.1 hj
    exact Leaf.readsBack_toJson (l := .scalar s) hd nofun n hn
  | .array n s, vs, _, hd, h, hx => by
    obtain ⟨js, hjs, rfl⟩ := exists_of_map_ok h
    exact readsBack_arr hjs fun v hv j hj => readsBack_toJson (s := s) hd hj
      fun x hm => hx x (List.mem_flatMap.2 ⟨v, hv, hm⟩)
  | .pair s t, (v, w), _, hd, h, hx => by
    simp only [isDynamic, Bool.and_eq_true] at hd
    obtain ⟨a, b, ha, hb, rfl⟩ := toJson_pair h
    intro n hn
    rw [Json.numbers, Json.mem_numbersItems] at hn
    obtain ⟨j, hj, hn⟩ := hn
    rcases List.mem_pair.1 hj with rfl | rfl
    · exact readsBack_toJson hd.1 ha (fun x hm => hx x (List.mem_append_left _ hm)) n hn
    · exact readsBack_toJson hd.2 hb (fun x hm => hx x (List.mem_append_right _ hm)) n hn
  | .map k s, m, _, hd, h, hx => by
    obtain ⟨fs, hfs, rfl⟩ := exists_of_map_ok h
    intro n hn
    rw [Json.numbers, Json.mem_numbersFields] at hn
    obtain ⟨f, hf, hn⟩ := hn
    obtain ⟨e, he, hef⟩ := mem_of_mapM hfs f hf
    exact readsBack_toJson (s := s) hd (toEntry_ok hef).2
      (fun x hm => hx x (List.mem_flatMap.2 ⟨e, he, hm⟩)) n hn
  | .record r, vs, _, hd, h, hx => by
    cases h
    exact Fields.readsBack_of_perm hd hx (.refl _)
  | .choice c, v, _, hd, h, hx => by
    cases h
    simp only [isDynamic, Bool.and_eq_true] at hd
    rcases Choice.toJson_eq_str_or_obj v with ⟨-, hstr⟩ | ⟨j, hbody, hobj⟩
    · rw [hstr]
      nofun
    · intro n hn
      rw [hobj, Json.numbers, Json.mem_numbersFields] at hn
      obtain ⟨f, hf, hn⟩ := hn
      obtain rfl := List.mem_singleton.1 hf
      exact Payload.readsBack_body (Choice.isDynamic_payload hd.1 v) hbody hx n hn
  | .json, d, _, _, h, hx => by
    cases h
    exact readsBack_document hx
  | .object, fs, _, _, h, hx => by
    cases h
    exact readsBack_document hx

/-- What it takes to find a value of a shape in the document of its JSON form. -/
def IsFound (s : Shape) : Prop :=
  ∀ (v : s.Val) (j : Json), s.toJson v = .ok j → s.OptionsShow v →
    (∀ x ∈ s.floats v, x.2.ReadsBack) → s.ofDocument (Document.ofJson j) = .ok v

variable {s : Shape}

theorem found_items (ih : s.IsFound) {vs : List s.Val} {js : List Json}
    (h : List.mapM s.toJson vs = .ok js) (ho : ∀ v ∈ vs, s.OptionsShow v)
    (hx : ∀ x ∈ vs.flatMap s.floats, x.2.ReadsBack) :
    List.Forall₂ (fun d v => s.ofDocument d = .ok v) (js.map Document.ofJson) vs :=
  List.forall₂_map_left_iff.2 (forall₂_of_mapM h fun v hv j _ hvj => ih v j hvj (ho v hv)
    fun x hm => hx x (List.mem_flatMap.2 ⟨v, hv, hm⟩))

theorem found_entries {k : KeyShape} (ih : s.IsFound) {es : List (k.Val × s.Val)}
    {fs : List (String × Json)} (h : List.mapM (toEntry k s) es = .ok fs)
    (ho : ∀ e ∈ es, s.OptionsShow e.2)
    (hx : ∀ x ∈ es.flatMap fun e => s.floats e.2, x.2.ReadsBack) :
    List.Forall₂ (fun f e => k.ofKey f.1 = .ok e.1 ∧ s.ofDocument (Document.ofJson f.2) = .ok e.2)
      fs es := by
  refine forall₂_of_mapM h fun e he f _ hef => ?_
  obtain ⟨hname, hj⟩ := toEntry_ok hef
  exact ⟨KeyShape.ofKey_toKey hname, ih e.2 f.2 hj (ho e he)
    fun x hm => hx x (List.mem_flatMap.2 ⟨e, he, hm⟩)⟩

theorem found_set {s : Scalar} (hd : Leaf.isDynamic (.scalar s) = true) (vs : SortedSet s.Val) :
    (Shape.set s).ofDocument (Document.ofJson (.arr (vs.keys.map s.toJson))) = .ok vs := by
  have hitems : List.Forall₂ (fun d v => s.ofDocument d = .ok v)
      ((vs.keys.map s.toJson).map Document.ofJson) vs.keys := by
    rw [List.forall₂_map_left_iff, List.forall₂_map_left_iff, List.forall₂_same]
    exact fun v _ => Leaf.ofDocument_ofJson (l := .scalar s) hd nofun
  rw [ofDocument, Document.toItems_arr]
  simp only [bind, Except.bind, mapM_of_forall₂ hitems, ofList_keys]
  rfl

theorem found_pair {s t : Shape} {a b : Json} {v : s.Val} {w : t.Val}
    (hv : s.ofDocument (Document.ofJson a) = .ok v) (hw : t.ofDocument (Document.ofJson b) = .ok w) :
    (Shape.pair s t).ofDocument (Document.ofJson (.arr [a, b])) = .ok (v, w) := by
  have hfirst : Container.memberOf s.ofDocument 0 [Document.ofJson a, Document.ofJson b] =
      .ok (v, [Document.ofJson b]) := congrArg (Except.map fun v => (v, _)) hv
  have hsecond : Container.memberOf t.ofDocument 1 [Document.ofJson b] = .ok (w, []) :=
    congrArg (Except.map fun w => (w, _)) hw
  rw [ofDocument, Document.toItems_arr]
  simp only [bind, Except.bind, List.map_cons, List.map_nil, hfirst, hsecond]
  rfl

/-- A value is found in the document of its JSON form. -/
theorem ofDocument_ofJson : ∀ {s : Shape}, s.isDynamic = true → s.IsFound
  | .leaf l, hd, v, _, h, _, hx => by
    cases h
    exact Leaf.ofDocument_ofJson hd hx
  | .unit, _, v, _, h, _, _ => by
    cases h
    exact congrArg Document.toUnit Document.ofJson_null
  | .option s, hd, none, _, h, _, _ => by
    cases h
    exact congrArg (Document.toOption s.ofDocument) Document.ofJson_null
  | .option s, hd, some v, j, h, ho, hx => by
    have hfound := ofDocument_ofJson (s := s) hd v j h ho.2 hx
    have hj : j ≠ .null := by
      rintro rfl
      exact ho.1 h
    exact Document.toOption_some (Document.view_ofJson_ne_null hj fun n hn =>
      (readsBack_toJson (s := s) hd h hx n hn).1) hfound
  | .list s, hd, vs, _, h, ho, hx => by
    obtain ⟨js, hjs, rfl⟩ := exists_of_map_ok h
    have hitems := mapM_of_forall₂ (found_items (ofDocument_ofJson (s := s) hd) hjs ho hx)
    exact (congrArg (· >>= List.mapM s.ofDocument) (Document.toItems_arr _ js)).trans hitems
  | .set s, hd, vs, _, h, _, _ => by
    cases h
    exact found_set hd vs
  | .array n s, hd, vs, _, h, ho, hx => by
    obtain ⟨js, hjs, rfl⟩ := exists_of_map_ok h
    have hitems := found_items (ofDocument_ofJson (s := s) hd) hjs ho hx
    have hread := Container.exactlyOf_of_forall₂ n vs hitems
    rw [ofDocument, Document.toItems_arr]
    simp only [bind, Except.bind, hread]
    rfl
  | .pair s t, hd, (v, w), _, h, ho, hx => by
    simp only [isDynamic, Bool.and_eq_true] at hd
    obtain ⟨a, b, ha, hb, rfl⟩ := toJson_pair h
    have hv := ofDocument_ofJson hd.1 v a ha ho.1 fun x hm => hx x (List.mem_append_left _ hm)
    have hw := ofDocument_ofJson hd.2 w b hb ho.2 fun x hm => hx x (List.mem_append_right _ hm)
    exact found_pair hv hw
  | .map k s, hd, m, _, h, ho, hx => by
    obtain ⟨fs, hfs, rfl⟩ := exists_of_map_ok h
    have hentries := found_entries (ofDocument_ofJson (s := s) hd) hfs ho hx
    rw [ofDocument, Document.toFields_obj]
    exact Container.mapOf_of_perm hentries
  | .record r, hd, vs, _, h, _, hx => by
    cases h
    have hview : (Document.ofJson (.obj (Fields.toEntries r.fields.list vs))).view =
        .fields (SortedMap.ofList (Document.ofJsonFields (Fields.toEntries r.fields.list vs))) := by
      rw [Document.ofJson, Document.view_ofFields]
    rw [ofDocument, Record.ofDocument, hview]
    exact Fields.ofFields_of_perm r.fields.distinct hd hx (.refl _)
  | .choice c, hd, v, _, h, _, hx => by
    cases h
    simp only [isDynamic, Bool.and_eq_true] at hd
    exact Choice.ofDocument_ofJson hd.1 hd.2 hx
  | .json, _, d, _, h, _, _ => by
    cases h
    exact congrArg Except.ok (Document.ofJson_json d)
  | .object, _, fs, _, h, _, _ => by
    cases h
    exact (congrArg (Document.toFields .map) (Document.ofJson_json _)).trans
      (Document.toFields_ofFields .map fs)

end Shape

end SchemaStore
