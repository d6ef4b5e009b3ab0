import SchemaStore.Proofs.Shape.Record

/-!
# Choices, written and read

A variant that carries nothing is its name, every other variant an object with the name as its only
field. `Payload.Body` says what may stand in that field: the fields of a record may come in any
order. From its object a variant is read back with what it carries (`Choice.reads_carried`).
-/

namespace SchemaStore

open Token (Reads)

namespace Leaf

/-- The floats of some leaves. -/
def allFloats : (ls : List Leaf) → Vals ls → List AnyBinary
  | [], _ => []
  | l :: rest, (v, vs) => l.floats v ++ allFloats rest vs

/-- Leaves are read back from the items of an array. -/
theorem readListed_listText (expected : Expected) (depth : Nat) : ∀ {ls : List Leaf} (vs : Vals ls)
    (n : Nat) (rest : List Char), (∀ x ∈ allFloats ls vs, x.2.ReadsBack) →
    readListed expected depth ls n (Json.listText (n == 0) (toItems ls vs) ++ rest) =
      .ok (vs, ']' :: rest)
  | [], _, n, rest, _ => rfl
  | l :: ls, (v, vs), n, rest, hx => by
    have hread := l.reads_toJson v depth (fun x hm => hx x (List.mem_append_left _ hm))
      (Json.listText false (toItems ls vs) ++ rest) (Json.ends_listText _ rest)
    have hlater := readListed_listText expected depth vs (n + 1) rest
      fun x hm => hx x (List.mem_append_right _ hm)
    rw [toItems, readListed, Container.nextItem_listText]
    dsimp only
    rw [hread]
    simp only [Read.andThen]
    have hfirst : (n + 1 == 0) = false := rfl
    rw [hfirst] at hlater
    rw [hlater]
    rfl

theorem depth_toItems : ∀ (ls : List Leaf) (vs : Vals ls), Json.depthItems (toItems ls vs) = 0
  | [], _ => rfl
  | l :: ls, (v, vs) => by
    rw [toItems, Json.depthItems, depth_toJson, depth_toItems ls vs]
    rfl

theorem canonical_toItems : ∀ {ls : List Leaf} {vs : Vals ls}, ls.all isDynamic = true →
    Json.CanonicalItems (toItems ls vs)
  | [], _, _ => trivial
  | l :: rest, (v, vs), h => by
    simp only [List.all_cons, Bool.and_eq_true] at h
    exact ⟨canonical_toJson h.1 v, canonical_toItems h.2⟩

theorem readsBack_toItems : ∀ {ls : List Leaf} {vs : Vals ls}, ls.all isDynamic = true →
    (∀ x ∈ allFloats ls vs, x.2.ReadsBack) → ∀ n ∈ Json.numbersItems (toItems ls vs), n.ReadsBack
  | [], _, _, _ => nofun
  | l :: rest, (v, vs), h, hx => by
    simp only [List.all_cons, Bool.and_eq_true] at h
    intro n hn
    rw [toItems, Json.numbersItems, List.mem_append] at hn
    rcases hn with hn | hn
    · exact readsBack_toJson h.1 (fun x hm => hx x (List.mem_append_left _ hm)) n hn
    · exact readsBack_toItems h.2 (fun x hm => hx x (List.mem_append_right _ hm)) n hn

end Leaf

namespace Payload

/-- The floats of what a variant carries. -/
def floats : (p : Payload) → p.Val → List AnyBinary
  | .unit, _ => []
  | .single l, v => l.floats v
  | .tuple ls, vs => Leaf.allFloats ls vs
  | .record fs, vs => Fields.floats fs.list vs

/-- A reader with no declared type finds all that is carried. -/
def isDynamic : Payload → Bool
  | .unit => true
  | .single l => l.isDynamic
  | .tuple ls => ls.all Leaf.isDynamic
  | .record fs => Fields.areDynamic fs.list

/-- What the field of a variant may hold: the JSON form of what it carries, the fields of a record
in any order. -/
def Body : (p : Payload) → p.Val → Json → Prop
  | .unit, _, _ => False
  | .single l, v, j => j = l.toJson v
  | .tuple ls, vs, j => j = .arr (Leaf.toItems ls vs)
  | .record fs, vs, j => ∃ es, es.Perm (Fields.toEntries fs.list vs) ∧ j = .obj es

theorem readsBack_body : ∀ {p : Payload} {v : p.Val} {j : Json}, p.isDynamic = true → p.Body v j →
    (∀ x ∈ p.floats v, x.2.ReadsBack) → ∀ n ∈ j.numbers, n.ReadsBack
  | .unit, _, _, _, h, _ => h.elim
  | .single l, v, _, hp, h, hx => by
    cases h
    exact Leaf.readsBack_toJson hp hx
  | .tuple ls, vs, _, hp, h, hx => by
    cases h
    exact Leaf.readsBack_toItems hp hx
  | .record fs, vs, _, hp, h, hx => by
    obtain ⟨es, hes, rfl⟩ := h
    exact Fields.readsBack_of_perm hp hx hes

theorem depth_body : ∀ {p : Payload} {v : p.Val} {j : Json}, p.Body v j → j.depth ≤ 1
  | .unit, _, _, h => h.elim
  | .single l, v, _, h => by
    cases h
    exact Nat.le_trans (Nat.le_of_eq (l.depth_toJson v)) (by decide)
  | .tuple ls, vs, _, h => by
    cases h
    have hdepth : Json.depthItems (Leaf.toItems ls vs) = 0 := Leaf.depth_toItems ls vs
    rw [Json.depth, hdepth]
  | .record fs, vs, _, h => by
    obtain ⟨es, hes, rfl⟩ := h
    exact Json.depth_obj_le_iff.2 fun e he =>
      Nat.le_of_eq (Fields.depth_toEntries fs.list vs e (hes.mem_iff.1 he))

/-- The JSON form of a variant is its name, if that can stand alone, or an object around its body. -/
theorem toJson_cases (name : String) : (p : Payload) → (v : p.Val) →
    (p.bare = .ok v ∧ p.toJson name v = .str name) ∨
      ∃ j, p.Body v j ∧ p.toJson name v = .obj [(name, j)]
  | .unit, _ => .inl ⟨rfl, rfl⟩
  | .single _, _ => .inr ⟨_, rfl, rfl⟩
  | .tuple _, _ => .inr ⟨_, rfl, rfl⟩
  | .record _, _ => .inr ⟨_, ⟨_, .refl _, rfl⟩, rfl⟩

/-- What a variant carries is read back from its body. -/
theorem reads_body (path : String) : ∀ {p : Payload} {v : p.Val} {j : Json} {depth : Nat},
    p.Body v j → j.depth ≤ depth → (∀ x ∈ p.floats v, x.2.ReadsBack) →
    Reads (p.read path depth) j.text v
  | .unit, _, _, _, h, _, _ => h.elim
  | .single l, v, _, depth, h, _, hx => by
    cases h
    exact l.reads_toJson v depth hx
  | .tuple ls, vs, _, depth, h, hd, hx => by
    cases h
    rw [Json.depth] at hd
    obtain ⟨depth, rfl⟩ := Nat.exists_eq_add_one_of_ne_zero (show depth ≠ 0 by omega)
    exact Container.reads_list _ fun rest => Leaf.readListed_listText _ depth vs 0 rest hx
  | .record fs, vs, _, depth, h, hd, hx => by
    obtain ⟨es, hes, rfl⟩ := h
    rw [Json.depth] at hd
    obtain ⟨depth, rfl⟩ := Nat.exists_eq_add_one_of_ne_zero (show depth ≠ 0 by omega)
    exact Fields.reads_fields fs.distinct hx hes _ _ depth

end Payload

namespace Token

/-- What is read after the only field of an object. -/
def variantEnd {α : Type} (a : α) (rest : List Char) : Read α :=
  match Text.skipBlanks rest with
  | [] => .error (.here .endInObject [])
  | '\x7d' :: rest => .ok (a, rest)
  | rest => .error (.here .noValue rest)

section Carried

variable {α : Type} {names : List String} (h : names.Nodup) (i : Fin names.length)
  (bare : Fin names.length → Except Problem α) {carried : Fin names.length → Nat → List Char → Read α}
  {depth : Nat} {j : Json} {a : α} (ha : Reads (carried i depth) j.text a)

include h ha

/-- What a variant carries is read from the first field of an object, and then the object has to
end. -/
theorem variant_field {rest : List Char} (hr : Ends rest) :
    variant names bare carried (depth + 1)
        ('\x7b' :: (Json.stringText (names.get i).toList ++ ':' :: (j.text ++ rest))) =
      variantEnd a rest := by
  have hkey := string_escaped (names.get i) (':' :: (j.text ++ rest))
  have hbody := ha rest hr
  have htext : Json.stringText (names.get i).toList ++ ':' :: (j.text ++ rest) =
      '"' :: ((names.get i).toList.flatMap Json.escapedChar ++ '"' :: ':' :: (j.text ++ rest)) := by
    simp [Json.stringText]
  have hquote : Text.skipBlanks ('"' ::
      ((names.get i).toList.flatMap Json.escapedChar ++ '"' :: ':' :: (j.text ++ rest))) =
      '"' :: ((names.get i).toList.flatMap Json.escapedChar ++ '"' :: ':' :: (j.text ++ rest)) := rfl
  rw [htext, variant, value_cons rfl, if_neg (by decide), if_pos rfl]
  dsimp only
  rw [variantEntry, hquote]
  simp only [hkey, Read.check, variantIndex_get h, Read.settle, Read.andThen, Container.colon_cons,
    hbody]
  rfl

theorem reads_carriedVariant :
    Reads (variant names bare carried (depth + 1)) (Json.obj [(names.get i, j)]).text a := by
  intro rest _
  have htext : (Json.obj [(names.get i, j)]).text ++ rest =
      '\x7b' :: (Json.stringText (names.get i).toList ++ ':' :: (j.text ++ '\x7d' :: rest)) := by
    simp [Json.text, Json.textFields]
  rw [htext, variant_field h i bare ha (ends_cons _ (by decide))]
  rfl

/-- No variant is read from an object with a further field. -/
theorem variant_furtherField (f : String × Json) (fs : List (String × Json)) :
    ∃ e, variant names bare carried (depth + 1) (Json.obj ((names.get i, j) :: f :: fs)).text =
      .error e := by
  obtain ⟨name, j'⟩ := f
  have htext : (Json.obj ((names.get i, j) :: (name, j') :: fs)).text =
      '\x7b' :: (Json.stringText (names.get i).toList ++ ':' :: (j.text ++
        ',' :: (Json.stringText name.toList ++ ':' :: (j'.text ++ Json.textFields fs)))) := by
    simp [Json.text, Json.textFields]
  rw [htext, variant_field h i bare ha (ends_cons _ (by decide))]
  exact ⟨_, rfl⟩

end Carried

end Token

namespace Choice

variable (c : Choice)

/-- The floats of what a choice carries. -/
def floats (v : c.Val) : List AnyBinary := (c.variants.get v.1).payload.floats v.2

/-- The position of a variant in the list of names. -/
def nameIndex (i : Fin c.variants.length) : Fin c.names.length := i.cast (by simp [names])

/-- A reader with no declared type finds all that variants carry. -/
def isDynamic : Bool := c.variants.all fun v => v.payload.isDynamic

theorem names_get (i : Fin c.variants.length) :
    c.names.get (c.nameIndex i) = (c.variants.get i).name := by
  simp only [names, nameIndex, List.get_eq_getElem, List.getElem_map]
  rfl

variable {c} {v : c.Val}

theorem isDynamic_payload (hd : c.isDynamic = true) (v : c.Val) :
    (c.variants.get v.1).payload.isDynamic = true :=
  List.all_eq_true.1 hd _ (List.get_mem c.variants v.1)

/-- A variant is read back from the body of what it carries, once its name has been read. -/
theorem reads_body {j : Json} {depth : Nat} (h : (c.variants.get v.1).payload.Body v.2 j)
    (hd : j.depth ≤ depth) (hx : ∀ x ∈ c.floats v, x.2.ReadsBack) :
    Reads (fun cs => ((c.payload (c.nameIndex v.1)).read (c.path (c.nameIndex v.1)) depth cs).map
      (c.close (c.nameIndex v.1))) j.text v := by
  intro rest hr
  have hread := Payload.reads_body (c.path (c.nameIndex v.1)) h hd hx rest hr
  exact (congrArg (Read.map (c.close (c.nameIndex v.1))) hread).trans rfl

theorem reads_carried {j : Json} {depth : Nat} (h : (c.variants.get v.1).payload.Body v.2 j)
    (hd : j.depth + 1 ≤ depth) (hx : ∀ x ∈ c.floats v, x.2.ReadsBack) :
    Reads (c.read depth) (Json.obj [((c.variants.get v.1).name, j)]).text v := by
  obtain ⟨depth, rfl⟩ := Nat.exists_eq_add_one_of_ne_zero (show depth ≠ 0 by omega)
  rw [← c.names_get v.1]
  exact Token.reads_carriedVariant c.distinct (c.nameIndex v.1) _
    (reads_body h (Nat.le_of_succ_le_succ hd) hx)

theorem read_furtherField {j : Json} {depth : Nat} (h : (c.variants.get v.1).payload.Body v.2 j)
    (hd : j.depth + 1 ≤ depth) (hx : ∀ x ∈ c.floats v, x.2.ReadsBack) (f : String × Json)
    (fs : List (String × Json)) :
    ∃ e, c.read depth (Json.obj (((c.variants.get v.1).name, j) :: f :: fs)).text = .error e := by
  obtain ⟨depth, rfl⟩ := Nat.exists_eq_add_one_of_ne_zero (show depth ≠ 0 by omega)
  rw [← c.names_get v.1, read]
  refine Token.variant_furtherField (a := v) c.distinct (c.nameIndex v.1) _ ?_ f fs
  exact reads_body h (Nat.le_of_succ_le_succ hd) hx

/-- A variant is written as its name, if that can stand alone, or as an object around its body. -/
theorem toJson_eq_str_or_obj (v : c.Val) :
    ((c.payload (c.nameIndex v.1)).bare.map (c.close (c.nameIndex v.1)) = .ok v ∧
        c.toJson v = .str (c.variants.get v.1).name) ∨
      ∃ j, (c.variants.get v.1).payload.Body v.2 j ∧
        c.toJson v = .obj [((c.variants.get v.1).name, j)] := by
  rcases Payload.toJson_cases (c.variants.get v.1).name (c.variants.get v.1).payload v.2 with
    ⟨hbare, hjson⟩ | hobj
  · exact .inl ⟨congrArg (Except.map (c.close (c.nameIndex v.1))) hbare, hjson⟩
  · exact .inr hobj

/-- A variant that is written as a string is its name alone. -/
theorem bare_of_toJson_str {text : String} (h : c.toJson v = .str text) :
    (c.payload (c.nameIndex v.1)).bare.map (c.close (c.nameIndex v.1)) = .ok v ∧
      (c.variants.get v.1).name = text := by
  rcases toJson_eq_str_or_obj v with ⟨hbare, hname⟩ | ⟨j, -, hobj⟩
  · exact ⟨hbare, Json.str.inj (hname.symm.trans h)⟩
  · cases hobj.symm.trans h

/-- Every variant is read back from its JSON form. -/
theorem reads_toJson {depth : Nat} (hd : (c.toJson v).depth ≤ depth)
    (hx : ∀ x ∈ c.floats v, x.2.ReadsBack) : Reads (c.read depth) (c.toJson v).text v := by
  rcases toJson_eq_str_or_obj v with ⟨hbare, hjson⟩ | ⟨j, hbody, hjson⟩
  · rw [hjson, ← c.names_get v.1]
    exact Token.reads_bareVariant c.distinct (c.nameIndex v.1) hbare _ depth
  · rw [hjson] at hd ⊢
    refine reads_carried hbody ?_ hx
    simpa [Json.depth, Json.depthFields] using hd

end Choice

end SchemaStore
