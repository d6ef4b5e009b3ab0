import SchemaStore.Proofs.Shape.Choice

/-!
# Values, written and read

`Shape.reads_toJson`: a value is read back from the text of its JSON form. The conditions are that
every float in it is found again, that containers are not nested too deep, and that no present option
is written as null, which would read as an absent one (`Shape.OptionsShow`). Apart from documents,
the shape alone bounds the nesting (`depth_le_height`) and tells which options show
(`optionsShow_of_shown`).
-/

namespace SchemaStore

open Token (Reads)
open Container (ReadsKey)

theorem Read.reads_map {α β : Type} {read : List Char → Read α} {text : List Char} {a : α}
    (f : α → β) (h : Reads read text a) : Reads (fun cs => (read cs).map f) text (f a) := by
  intro rest hr
  dsimp only
  rw [h rest hr]
  rfl

/-- What every member and its image have in common, two lists of them have member by member. -/
theorem forall₂_of_mapM {ε α β : Type} {f : α → Except ε β} {R : β → α → Prop} :
    ∀ {as : List α} {bs : List β}, List.mapM f as = .ok bs →
    (∀ a ∈ as, ∀ b ∈ bs, f a = .ok b → R b a) → List.Forall₂ R bs as
  | [], _, h, _ => by
    cases h
    exact .nil
  | a :: as, cs, h, hR => by
    rw [List.mapM_cons] at h
    cases hb : f a with
    | error e =>
      rw [hb] at h
      cases h
    | ok b =>
      cases hbs : List.mapM f as with
      | error e =>
        rw [hb, hbs] at h
        cases h
      | ok bs =>
        rw [hb, hbs] at h
        cases h
        exact .cons (hR a List.mem_cons_self b List.mem_cons_self hb) (forall₂_of_mapM hbs
          fun a ha b hb => hR a (List.mem_cons_of_mem _ ha) b (List.mem_cons_of_mem _ hb))

theorem exists_of_map_ok {ε α β : Type} {f : α → β} {r : Except ε α} {b : β}
    (h : r.map f = .ok b) : ∃ a, r = .ok a ∧ f a = b := by
  cases r with
  | error e => cases h
  | ok a =>
    cases h
    exact ⟨a, rfl, rfl⟩

/-- Only scalars are written as keys, and they are read back. -/
theorem KeyShape.readsKey_toKey : ∀ {k : KeyShape} {v : k.Val} {name : String},
    k.toKey v = .ok name → ReadsKey k.readKey name v
  | .scalar s, v, _, h => by
    cases h
    exact s.readsKey_toKey v
  | .pair _ _, _, _, h => by cases h

namespace Shape

/-- The floats of a value. -/
def floats : (s : Shape) → s.Val → List AnyBinary
  | .leaf l, v => l.floats v
  | .unit, _ => []
  | .option s, v => Option.elim v [] s.floats
  | .list s, vs => List.flatMap s.floats vs
  | .set _, _ => []
  | .array _ s, vs => List.flatMap s.floats vs.val
  | .pair s t, (v, w) => s.floats v ++ t.floats w
  | .map _ s, m => List.flatMap (fun e => s.floats e.2) (SortedMap.entries m)
  | .record r, vs => Fields.floats r.fields.list vs
  | .choice c, v => c.floats v
  | .json, d => d.json.floats
  | .object, fs => (Document.ofFields fs).json.floats

/-- No present option of a value is written as null. -/
def OptionsShow : (s : Shape) → s.Val → Prop
  | .option _, none => True
  | .option s, some v => s.toJson v ≠ .ok .null ∧ s.OptionsShow v
  | .list s, vs => ∀ v : s.Val, List.Mem v vs → s.OptionsShow v
  | .array _ s, vs => ∀ v ∈ vs.val, s.OptionsShow v
  | .pair s t, (v, w) => s.OptionsShow v ∧ t.OptionsShow w
  | .map _ s, m => ∀ e ∈ SortedMap.entries m, s.OptionsShow e.2
  | .leaf _, _ | .unit, _ | .set _, _ | .record _, _ | .choice _, _ | .json, _ | .object, _ => True

/-! ## Reading back -/

/-- What reading back a value of a shape takes. -/
def ReadsAt (s : Shape) (depth : Nat) : Prop :=
  ∀ (v : s.Val) (j : Json), s.toJson v = .ok j → j.depth ≤ depth → s.OptionsShow v →
    (∀ x ∈ s.floats v, x.2.ReadsBack) → Reads (s.read depth) j.text v

theorem reads_items {s : Shape} {depth : Nat} (ih : s.ReadsAt depth) {vs : List s.Val}
    {js : List Json} (h : List.mapM s.toJson vs = .ok js) (hd : (Json.arr js).depth ≤ depth + 1)
    (ho : ∀ v ∈ vs, s.OptionsShow v) (hx : ∀ x ∈ vs.flatMap s.floats, x.2.ReadsBack) :
    List.Forall₂ (fun j v => Reads (s.read depth) j.text v) js vs := by
  have hitems := Json.depth_arr_le_iff.1 hd
  exact forall₂_of_mapM h fun v hv j hj hvj => ih v j hvj (hitems j hj) (ho v hv)
    fun x hm => hx x (List.mem_flatMap.2 ⟨v, hv, hm⟩)

/-- The entry a map is written with under a key. -/
def toEntry (k : KeyShape) (s : Shape) (e : k.Val × s.Val) : Except Problem (String × Json) := do
  let name ← k.toKey e.1
  let j ← s.toJson e.2
  return (name, j)

theorem toEntry_ok {k : KeyShape} {s : Shape} {e : k.Val × s.Val} {f : String × Json}
    (h : toEntry k s e = .ok f) : k.toKey e.1 = .ok f.1 ∧ s.toJson e.2 = .ok f.2 := by
  rw [toEntry] at h
  cases hk : k.toKey e.1 with
  | error p =>
    rw [hk] at h
    cases h
  | ok name =>
    cases hj : s.toJson e.2 with
    | error p =>
      rw [hk, hj] at h
      cases h
    | ok j =>
      rw [hk, hj] at h
      cases h
      exact ⟨rfl, rfl⟩

/-- The entries of a map are read back with their keys, one level of nesting further in. -/
theorem reads_entries {k : KeyShape} {s : Shape} {depth : Nat} (ih : s.ReadsAt depth)
    {es : List (k.Val × s.Val)} {fs : List (String × Json)}
    (h : List.mapM (toEntry k s) es = .ok fs) (hd : (Json.obj fs).depth ≤ depth + 1)
    (ho : ∀ e ∈ es, s.OptionsShow e.2)
    (hx : ∀ x ∈ es.flatMap fun e => s.floats e.2, x.2.ReadsBack) :
    List.Forall₂ (fun f e => ReadsKey k.readKey f.1 e.1 ∧ Reads (s.read depth) f.2.text e.2)
      fs es := by
  have hfields := Json.depth_obj_le_iff.1 hd
  refine forall₂_of_mapM h fun e he f hf hef => ?_
  obtain ⟨hname, hj⟩ := toEntry_ok hef
  exact ⟨KeyShape.readsKey_toKey hname, ih e.2 f.2 hj (hfields f hf) (ho e he)
    fun x hm => hx x (List.mem_flatMap.2 ⟨e, he, hm⟩)⟩

/-- A container takes one level of nesting. -/
theorem exists_depth {j : Json} {depth : Nat} (h : j.depth ≤ depth)
    (hj : (∃ js, j = .arr js) ∨ ∃ fs, j = .obj fs) : ∃ n, depth = n + 1 := by
  refine Nat.exists_eq_add_one_of_ne_zero ?_
  -- with nothing left the reader would stop at the bracket
  rcases hj with ⟨js, rfl⟩ | ⟨fs, rfl⟩
  · rw [Json.depth] at h
    omega
  · rw [Json.depth] at h
    omega

/-- The floats of a document are its only numbers that might not be found again. -/
theorem readsBack_document {d : Document} (h : ∀ x ∈ d.json.floats, x.2.ReadsBack) :
    ∀ n ∈ d.json.numbers, n.ReadsBack := fun n hn =>
  ⟨Json.isDynamic_of_canonical d.json d.canonical n hn,
    fun x hx => h x (List.mem_flatMap.2 ⟨n, hn, hx⟩)⟩

theorem reads_object {depth : Nat} {fs : SortedMap String Document}
    (hd : (Document.ofFields fs).json.depth ≤ depth + 1)
    (hx : ∀ x ∈ (Document.ofFields fs).json.floats, x.2.ReadsBack) :
    Reads (Document.readFields (depth + 1)) (Document.ofFields fs).json.text fs := by
  have hn := readsBack_document hx
  unfold Document.ofFields at hd hn ⊢
  rw [Json.numbers] at hn
  rw [Json.depth] at hd
  have hfields := Document.reads_ofJsonFields _ depth hn (Nat.le_of_succ_le_succ hd)
  rw [Document.ofJsonFields_eq_map, List.map_map] at hfields
  have hentries : fs.entries.map ((fun f => (f.1, Document.ofJson f.2)) ∘ fun f => (f.1, f.2.json)) =
      fs.entries := by
    simp [Function.comp_def]
  rw [hentries] at hfields
  have hfolds := Container.folds_mapEntry hfields SortedMap.empty
  have hmap : SortedMap.empty.insertAll fs.entries = fs := SortedMap.ofList_entries fs
  rw [hmap] at hfolds
  exact Container.reads_object _ fun rest => Container.foldEntries_objectText hfolds rest

theorem toJson_pair {s t : Shape} {v : s.Val} {w : t.Val} {j : Json}
    (h : (Shape.pair s t).toJson (v, w) = .ok j) :
    ∃ a b, s.toJson v = .ok a ∧ t.toJson w = .ok b ∧ j = .arr [a, b] := by
  rw [toJson] at h
  cases ha : s.toJson v with
  | error p =>
    rw [ha] at h
    cases h
  | ok a =>
    cases hb : t.toJson w with
    | error p =>
      rw [ha, hb] at h
      cases h
    | ok b =>
      rw [ha, hb] at h
      cases h
      exact ⟨a, b, rfl, rfl, rfl⟩

theorem ofList_keys {α : Type} [Ord α] [Std.TransOrd α] (m : SortedSet α) :
    SortedMap.ofList (m.keys.map fun v => (v, ())) = m := by
  have hentries : m.keys.map (fun v => (v, ())) = m.entries := by
    rw [SortedMap.keys, List.map_map]
    exact List.map_id' _
  rw [hentries, SortedMap.ofList_entries]

theorem reads_set {s : Scalar} (vs : SortedSet s.Val) (depth : Nat) :
    Reads ((Shape.set s).read (depth + 1)) (Json.arr (vs.keys.map s.toJson)).text vs := by
  have hitems : List.Forall₂ (fun j v => Reads (s.read depth) j.text v)
      (vs.keys.map s.toJson) vs.keys := by
    rw [List.forall₂_map_left_iff, List.forall₂_same]
    exact fun v _ => s.reads_toJson v depth
  have hlist : Reads (Container.list .sequence (fun depth => Container.listOf (s.read depth))
      (depth + 1)) (Json.arr (vs.keys.map s.toJson)).text vs.keys :=
    Container.reads_list _ fun rest => Container.listOf_listText hitems rest
  have hread := Read.reads_map (fun vs => SortedMap.ofList (vs.map fun v => (v, ()))) hlist
  rw [ofList_keys] at hread
  exact hread

theorem reads_pair {s t : Shape} {depth : Nat} {a b : Json} {v : s.Val} {w : t.Val}
    (hv : Reads (s.read depth) a.text v) (hw : Reads (t.read depth) b.text w) :
    Reads ((Shape.pair s t).read (depth + 1)) (Json.arr [a, b]).text (v, w) := by
  refine Container.reads_list _ fun rest => ?_
  have hfirst := Container.member_listText hv 0 [b] rest
  have hsecond := Container.member_listText hw 1 [] rest
  have hzero : (0 == 0) = true := rfl
  have hone : (1 == 0) = false := rfl
  rw [hzero] at hfirst
  rw [hone] at hsecond
  simp only [hfirst, hsecond, Read.andThen, Read.map]
  rfl

theorem reads_map {k : KeyShape} {s : Shape} {m : SortedMap k.Val s.Val} {depth : Nat}
    {fs : List (String × Json)}
    (h : List.Forall₂ (fun f e => ReadsKey k.readKey f.1 e.1 ∧ Reads (s.read depth) f.2.text e.2)
      fs m.entries) : Reads ((Shape.map k s).read (depth + 1)) (Json.obj fs).text m := by
  have hfolds := Container.folds_mapEntry h SortedMap.empty
  have hmap : SortedMap.empty.insertAll m.entries = m := SortedMap.ofList_entries m
  rw [hmap] at hfolds
  exact Container.reads_object _ fun rest => Container.foldEntries_objectText hfolds rest

/-- A value is read back from the text of its JSON form. -/
theorem reads_toJson : ∀ (s : Shape) (depth : Nat), s.ReadsAt depth
  | .leaf l, depth, v, j, h, _, _, hx => by
    cases h
    exact l.reads_toJson v depth hx
  | .unit, _, _, _, h, _, _, _ => by
    cases h
    exact Token.reads_unit
  | .option s, depth, none, _, h, _, _, _ => by
    cases h
    exact Token.reads_none (s.read depth)
  | .option s, depth, some v, j, h, hd, ho, hx => by
    have hread := reads_toJson s depth v j h hd ho.2 hx
    -- the reader of options looks at the first letter alone, and only null begins with it
    refine Token.reads_some ?_ hread
    rintro rfl
    exact ho.1 h
  | .list s, depth, vs, j, h, hd, ho, hx => by
    obtain ⟨js, hjs, rfl⟩ := exists_of_map_ok h
    obtain ⟨depth, rfl⟩ := exists_depth hd (.inl ⟨js, rfl⟩)
    have hitems := reads_items (reads_toJson s depth) hjs hd ho hx
    exact Container.reads_list _ fun rest => Container.listOf_listText hitems rest
  | .set s, depth, vs, j, h, hd, _, _ => by
    cases h
    obtain ⟨depth, rfl⟩ := exists_depth hd (.inl ⟨_, rfl⟩)
    exact reads_set vs depth
  | .array n s, depth, vs, j, h, hd, ho, hx => by
    obtain ⟨js, hjs, rfl⟩ := exists_of_map_ok h
    obtain ⟨depth, rfl⟩ := exists_depth hd (.inl ⟨js, rfl⟩)
    have hitems := reads_items (reads_toJson s depth) hjs hd ho hx
    exact Container.reads_list _ fun rest =>
      Container.exactly_listText hitems n vs.property true rest
  | .pair s t, depth, (v, w), j, h, hd, ho, hx => by
    obtain ⟨a, b, ha, hb, rfl⟩ := toJson_pair h
    obtain ⟨depth, rfl⟩ := exists_depth hd (.inl ⟨_, rfl⟩)
    have hitems := Json.depth_arr_le_iff.1 hd
    have hv := reads_toJson s depth v a ha (hitems a (by simp)) ho.1
      fun x hm => hx x (List.mem_append_left _ hm)
    have hw := reads_toJson t depth w b hb (hitems b (by simp)) ho.2
      fun x hm => hx x (List.mem_append_right _ hm)
    exact reads_pair hv hw
  | .map k s, depth, m, j, h, hd, ho, hx => by
    obtain ⟨fs, hfs, rfl⟩ := exists_of_map_ok h
    obtain ⟨depth, rfl⟩ := exists_depth hd (.inr ⟨fs, rfl⟩)
    exact reads_map (reads_entries (reads_toJson s depth) hfs hd ho hx)
  | .record r, depth, vs, j, h, hd, _, hx => by
    cases h
    obtain ⟨depth, rfl⟩ := exists_depth hd (.inr ⟨_, rfl⟩)
    exact Fields.reads_fields r.fields.distinct hx (.refl _) _ _ depth
  | .choice c, depth, v, j, h, hd, _, hx => by
    cases h
    exact Choice.reads_toJson hd hx
  | .json, depth, d, j, h, hd, _, hx => by
    cases h
    have hread := Document.reads_ofJson d.json depth (readsBack_document hx) hd
    have hdocument : Document.ofJson d.json = d := Document.ofJson_json d
    rw [hdocument] at hread
    exact hread
  | .object, depth, fs, j, h, hd, _, hx => by
    cases h
    obtain ⟨depth, rfl⟩ := exists_depth hd (.inr ⟨_, rfl⟩)
    exact reads_object hd hx

/-! ## What the shape alone tells -/

/-- Some value of the shape is written as null, floats apart. -/
def mayBeNull : Shape → Bool
  | .unit | .option _ | .json => true
  | _ => false

theorem toJson_ne_null {s : Shape} {v : s.Val} {j : Json} (hs : s.mayBeNull = false)
    (h : s.toJson v = .ok j) (hx : ∀ x ∈ s.floats v, x.2.ReadsBack) : j ≠ .null := by
  cases s with
  | leaf l =>
    cases h
    exact l.toJson_ne_null v hx
  | unit => cases hs
  | option s => cases hs
  | list s =>
    obtain ⟨js, -, rfl⟩ := exists_of_map_ok h
    nofun
  | set s =>
    cases h
    nofun
  | array n s =>
    obtain ⟨js, -, rfl⟩ := exists_of_map_ok h
    nofun
  | pair s t =>
    obtain ⟨a, b, -, -, rfl⟩ := toJson_pair h
    nofun
  | map k s =>
    obtain ⟨fs, -, rfl⟩ := exists_of_map_ok h
    nofun
  | record r =>
    cases h
    nofun
  | choice c =>
    cases h
    rcases c.toJson_eq_str_or_obj v with ⟨-, hjson⟩ | ⟨b, -, hjson⟩
    · rw [hjson]
      nofun
    · rw [hjson]
      nofun
  | json => cases hs
  | object =>
    cases h
    nofun

/-- No option holds values that may be written as null. -/
def isShown : Shape → Bool
  | .option s => !s.mayBeNull && s.isShown
  | .list s => s.isShown
  | .array _ s => s.isShown
  | .pair s t => s.isShown && t.isShown
  | .map _ s => s.isShown
  | _ => true

/-- Where no option can hold something that is null, every option shows. -/
theorem optionsShow_of_shown : ∀ (s : Shape) (v : s.Val), s.isShown = true →
    (∀ x ∈ s.floats v, x.2.ReadsBack) → s.OptionsShow v
  | .option s, none, _, _ => trivial
  | .option s, some v, hs, hx => by
    simp only [isShown, Bool.and_eq_true, Bool.not_eq_true'] at hs
    refine ⟨fun h => ?_, optionsShow_of_shown s v hs.2 hx⟩
    exact toJson_ne_null hs.1 h hx rfl
  | .list s, vs, hs, hx => fun v hv =>
    optionsShow_of_shown s v hs fun x hm => hx x (List.mem_flatMap.2 ⟨v, hv, hm⟩)
  | .array _ s, vs, hs, hx => fun v hv =>
    optionsShow_of_shown s v hs fun x hm => hx x (List.mem_flatMap.2 ⟨v, hv, hm⟩)
  | .pair s t, (v, w), hs, hx => by
    simp only [isShown, Bool.and_eq_true] at hs
    exact ⟨optionsShow_of_shown s v hs.1 fun x hm => hx x (List.mem_append_left _ hm),
      optionsShow_of_shown t w hs.2 fun x hm => hx x (List.mem_append_right _ hm)⟩
  | .map _ s, m, hs, hx => fun e he =>
    optionsShow_of_shown s e.2 hs fun x hm => hx x (List.mem_flatMap.2 ⟨e, he, hm⟩)
  | .leaf _, _, _, _ => trivial
  | .unit, _, _, _ => trivial
  | .set _, _, _, _ => trivial
  | .record _, _, _, _ => trivial
  | .choice _, _, _, _ => trivial
  | .json, _, _, _ => trivial
  | .object, _, _, _ => trivial

theorem mem_of_mapM {ε α β : Type} {f : α → Except ε β} {as : List α} {bs : List β}
    (h : List.mapM f as = .ok bs) : ∀ b ∈ bs, ∃ a ∈ as, f a = .ok b := by
  have himages : List.Forall₂ (fun b _ => ∃ a ∈ as, f a = .ok b) bs as :=
    forall₂_of_mapM h fun a ha _ _ hab => ⟨a, ha, hab⟩
  have hpaired := himages.imp fun b _ hb => (⟨hb, trivial⟩ : (∃ a ∈ as, f a = .ok b) ∧ True)
  exact (List.forall₂_and_left _ _).1 hpaired |>.1

/-- No document is part of the values. -/
def isTyped : Shape → Bool
  | .json | .object => false
  | .option s => s.isTyped
  | .list s => s.isTyped
  | .array _ s => s.isTyped
  | .pair s t => s.isTyped && t.isTyped
  | .map _ s => s.isTyped
  | _ => true

/-- How many containers are nested in a value that has no document in it. -/
def height : Shape → Nat
  | .leaf _ | .unit | .json | .object => 0
  | .option s => s.height
  | .list s => s.height + 1
  | .set _ => 1
  | .array _ s => s.height + 1
  | .pair s t => max s.height t.height + 1
  | .map _ s => s.height + 1
  | .record _ => 1
  | .choice _ => 2

theorem depth_obj_toEntries (fs : List Field) (vs : Fields.Vals fs) :
    (Json.obj (Fields.toEntries fs vs)).depth ≤ 1 := by
  exact Json.depth_obj_le_iff.2 fun f hf => Nat.le_of_eq (Fields.depth_toEntries fs vs f hf)

theorem depth_payload (name : String) : ∀ (p : Payload) (v : p.Val), (p.toJson name v).depth ≤ 2
  | .unit, _ => Nat.zero_le 2
  | .single l, v => by
    have hv : (l.toJson v).depth = 0 := l.depth_toJson v
    simp [Payload.toJson, Json.depth, Json.depthFields, hv]
  | .tuple ls, vs => by
    have hvs : Json.depthItems (Leaf.toItems ls vs) = 0 := Leaf.depth_toItems ls vs
    simp [Payload.toJson, Json.depth, Json.depthFields, hvs]
  | .record fs, vs => by
    have hobj := depth_obj_toEntries fs.list vs
    simp only [Payload.toJson, Json.depth, Json.depthFields] at hobj ⊢
    simpa using hobj

/-- The shape bounds the nesting of a value that has no document in it. -/
theorem depth_le_height : ∀ (s : Shape) (v : s.Val) (j : Json), s.isTyped = true →
    s.toJson v = .ok j → j.depth ≤ s.height
  | .leaf l, v, j, _, h => by
    cases h
    exact Nat.le_of_eq (l.depth_toJson v)
  | .unit, _, _, _, h => by
    cases h
    exact Nat.le_refl 0
  | .option s, none, _, _, h => by
    cases h
    exact Nat.zero_le _
  | .option s, some v, j, hs, h => depth_le_height s v j hs h
  | .list s, vs, j, hs, h => by
    obtain ⟨js, hjs, rfl⟩ := exists_of_map_ok h
    refine Json.depth_arr_le_iff.2 fun j hj => ?_
    obtain ⟨v, -, hv⟩ := mem_of_mapM hjs j hj
    exact depth_le_height s v j hs hv
  | .set s, vs, j, _, h => by
    cases h
    refine Json.depth_arr_le_iff.2 fun j hj => ?_
    obtain ⟨v, -, rfl⟩ := List.mem_map.1 hj
    exact Nat.le_of_eq (Leaf.depth_toJson (.scalar s) v)
  | .array _ s, vs, j, hs, h => by
    obtain ⟨js, hjs, rfl⟩ := exists_of_map_ok h
    refine Json.depth_arr_le_iff.2 fun j hj => ?_
    obtain ⟨v, -, hv⟩ := mem_of_mapM hjs j hj
    exact depth_le_height s v j hs hv
  | .pair s t, (v, w), j, hs, h => by
    obtain ⟨a, b, ha, hb, rfl⟩ := toJson_pair h
    simp only [isTyped, Bool.and_eq_true] at hs
    have hv := depth_le_height s v a hs.1 ha
    have hw := depth_le_height t w b hs.2 hb
    refine Json.depth_arr_le_iff.2 fun j hj => ?_
    simp only [List.mem_cons, List.not_mem_nil, or_false] at hj
    rcases hj with rfl | rfl
    · exact Nat.le_trans hv (Nat.le_max_left _ _)
    · exact Nat.le_trans hw (Nat.le_max_right _ _)
  | .map k s, m, j, hs, h => by
    obtain ⟨fs, hfs, rfl⟩ := exists_of_map_ok h
    refine Json.depth_obj_le_iff.2 fun f hf => ?_
    obtain ⟨e, -, he⟩ := mem_of_mapM hfs f hf
    exact depth_le_height s e.2 f.2 hs (toEntry_ok he).2
  | .record r, vs, j, _, h => by
    cases h
    exact depth_obj_toEntries r.fields.list vs
  | .choice c, v, j, _, h => by
    cases h
    exact depth_payload _ _ _
  | .json, _, _, hs, _ => by cases hs
  | .object, _, _, hs, _ => by cases hs

/-- No map has pairs for keys. -/
def isWritable : Shape → Bool
  | .map (.pair _ _) _ => false
  | .map (.scalar _) s => s.isWritable
  | .option s => s.isWritable
  | .list s => s.isWritable
  | .array _ s => s.isWritable
  | .pair s t => s.isWritable && t.isWritable
  | _ => true

theorem exists_mapM {ε α β : Type} {f : α → Except ε β} : ∀ {as : List α},
    (∀ a ∈ as, ∃ b, f a = .ok b) → ∃ bs, List.mapM f as = .ok bs
  | [], _ => ⟨[], rfl⟩
  | a :: as, h => by
    obtain ⟨b, hb⟩ := h a List.mem_cons_self
    obtain ⟨bs, hbs⟩ := exists_mapM fun a ha => h a (List.mem_cons_of_mem _ ha)
    refine ⟨b :: bs, ?_⟩
    rw [List.mapM_cons, hb, hbs]
    rfl

/-- Only pairs that are keys keep a value from having a JSON form. -/
theorem exists_toJson : ∀ (s : Shape) (v : s.Val), s.isWritable = true → ∃ j, s.toJson v = .ok j
  | .leaf _, _, _ => ⟨_, rfl⟩
  | .unit, _, _ => ⟨_, rfl⟩
  | .option _, none, _ => ⟨_, rfl⟩
  | .option s, some v, hs => exists_toJson s v hs
  | .list s, vs, hs => by
    obtain ⟨js, hjs⟩ := exists_mapM fun v (_ : List.Mem v vs) => exists_toJson s v hs
    exact ⟨.arr js, congrArg (Except.map Json.arr) hjs⟩
  | .set _, _, _ => ⟨_, rfl⟩
  | .array _ s, vs, hs => by
    obtain ⟨js, hjs⟩ := exists_mapM fun v (_ : v ∈ vs.val) => exists_toJson s v hs
    exact ⟨.arr js, congrArg (Except.map Json.arr) hjs⟩
  | .pair s t, (v, w), hs => by
    simp only [isWritable, Bool.and_eq_true] at hs
    obtain ⟨a, ha⟩ := exists_toJson s v hs.1
    obtain ⟨b, hb⟩ := exists_toJson t w hs.2
    refine ⟨.arr [a, b], ?_⟩
    rw [toJson, ha, hb]
    rfl
  | .map (.scalar k) s, m, hs => by
    have hentry : ∀ e ∈ SortedMap.entries m, ∃ f, toEntry (.scalar k) s e = .ok f := by
      intro e _
      obtain ⟨j, hj⟩ := exists_toJson s e.2 hs
      refine ⟨(k.toKey e.1, j), ?_⟩
      rw [toEntry, hj]
      rfl
    obtain ⟨fs, hfs⟩ := exists_mapM hentry
    exact ⟨.obj fs, congrArg (Except.map Json.obj) hfs⟩
  | .map (.pair _ _) _, _, hs => by cases hs
  | .record _, _, _ => ⟨_, rfl⟩
  | .choice _, _, _ => ⟨_, rfl⟩
  | .json, _, _ => ⟨_, rfl⟩
  | .object, _, _ => ⟨_, rfl⟩

end Shape

end SchemaStore
