import SchemaStore.Proofs.Codec.RoundTrip
import SchemaStore.Proofs.Json.Sorted

/-!
# Merging the texts of values

A store merges texts without knowing the shape of the values. `Shape.merged` says what this comes
down to for the values: maps and objects are united, of a record the fields that are written replace
the earlier ones, and every other value replaces the earlier one as a whole. The text after a merge
stands for the merged value (`Codec.spells_merge`). It need not be the text this value would be
stored as, since the fields of a record come out sorted by name; `Codec.Spells` allows for that, and
a spelled value is decoded (`Codec.decode_of_spells`).
-/

namespace SchemaStore

/-! ## Merged records -/

namespace Field

/-- The value of a field after another one is merged into it. A field that is left out when it has no
value keeps the one it had. -/
def merged : (f : Field) → f.Val → f.Val → f.Val
  | ⟨_, leaf, .omitted⟩, v, w => Option.or (α := leaf.Val) w v
  | ⟨_, _, .required⟩, _, w => w
  | ⟨_, _, .nullable⟩, _, w => w

theorem merged_eq : ∀ (f : Field) (v w : f.Val), f.merged v w = w ∨ f.merged v w = v
  | ⟨_, _, .omitted⟩, _, none => .inr rfl
  | ⟨_, _, .omitted⟩, _, some _ => .inl rfl
  | ⟨_, _, .required⟩, _, _ => .inl rfl
  | ⟨_, _, .nullable⟩, _, _ => .inl rfl

/-- A field that is not written keeps its value. -/
theorem toEntry?_merged : ∀ (f : Field) (v w : f.Val),
    f.toEntry? (f.merged v w) = (f.toEntry? w).or (f.toEntry? v)
  | ⟨_, _, .omitted⟩, _, _ => Option.map_or
  | ⟨_, _, .required⟩, _, _ => rfl
  | ⟨_, _, .nullable⟩, _, _ => rfl

end Field

namespace Fields

/-- The values of some fields after others are merged into them. -/
def merged : (fs : List Field) → Vals fs → Vals fs → Vals fs
  | [], _, _ => ()
  | f :: rest, (v, vs), (w, ws) => (f.merged v w, merged rest vs ws)

theorem lookup_toEntries_cons {name : String} {f : Field} {rest : List Field}
    (h : ((f :: rest).map (·.name)).Nodup) (v : f.Val) (vs : Vals rest) :
    SortedMap.lookup name (toEntries (f :: rest) (v, vs)) =
      if name = f.name then (f.toEntry? v).map (·.2) else
        SortedMap.lookup name (toEntries rest vs) := by
  have hrest : f.name ∉ (toEntries rest vs).map (·.1) := fun hmem =>
    (List.nodup_cons.1 h).1 ((sublist_names rest vs).subset hmem)
  rw [toEntries]
  cases hentry : f.toEntry? v with
  | none =>
    -- a field that is not written is not found under the name of another one
    split
    · next hname =>
      refine SortedMap.lookup_eq_none fun e he heq => hrest ?_
      rw [← hname, Std.LawfulEqCmp.eq_of_compare heq]
      exact List.mem_map_of_mem he
    · rfl
  | some e =>
    obtain ⟨n, j⟩ := e
    obtain rfl : n = f.name := Field.name_of_toEntry? hentry
    simp [SortedMap.lookup]

/-- A field of the merged values is written as the later one, if that is written, and else as the
earlier one. -/
theorem lookup_merged (name : String) : ∀ {fs : List Field} (_ : (fs.map (·.name)).Nodup)
    (vs ws : Vals fs), SortedMap.lookup name (toEntries fs (merged fs vs ws)) =
      (SortedMap.lookup name (toEntries fs ws)).or (SortedMap.lookup name (toEntries fs vs))
  | [], _, _, _ => rfl
  | f :: rest, h, (v, vs), (w, ws) => by
    rw [merged, lookup_toEntries_cons h, lookup_toEntries_cons h, lookup_toEntries_cons h,
      lookup_merged name (List.nodup_cons.1 h).2 vs ws, Field.toEntry?_merged]
    split
    · cases f.toEntry? w <;> rfl
    · rfl

theorem floats_merged : ∀ {fs : List Field} (vs ws : Vals fs), ∀ x ∈ floats fs (merged fs vs ws),
    x ∈ floats fs vs ∨ x ∈ floats fs ws
  | [], _, _ => nofun
  | f :: rest, (v, vs), (w, ws) => by
    intro x hx
    rw [merged, floats, List.mem_append] at hx
    simp only [floats, List.mem_append]
    rcases hx with hx | hx
    · rcases f.merged_eq v w with hf | hf
      · exact .inr (.inl (hf ▸ hx))
      · exact .inl (.inl (hf ▸ hx))
    · rcases floats_merged vs ws x hx with hx | hx
      · exact .inl (.inr hx)
      · exact .inr (.inr hx)

section Perm

variable {fs : List Field} {vs ws : Vals fs} {es gs : List (String × Json)}
  (hnodup : (fs.map (·.name)).Nodup) (hd : areDynamic fs = true)

include hd in
theorem readable_of_perm (hx : ∀ x ∈ floats fs vs, x.2.ReadsBack)
    (hes : es.Perm (toEntries fs vs)) : (Json.obj es).Readable := by
  refine ⟨readsBack_of_perm hd hx hes, Json.depth_obj_le_iff.2 fun e he => ?_⟩
  rw [depth_toEntries fs vs e (hes.mem_iff.1 he)]
  exact Nat.zero_le _

include hnodup in
theorem distinct_of_perm (hes : es.Perm (toEntries fs vs)) : SortedMap.Distinct es :=
  hes.symm.pairwise (SortedMap.distinct_of_nodup (nodup_toEntries hnodup vs))
    fun hne heq => hne (Std.OrientedCmp.eq_symm heq)

include hnodup hd in
/-- Sorted fields that are found where those of the values are found are those of the values. -/
theorem perm_of_lookup (hgs : Ascending gs) (h : ∀ name, SortedMap.lookup name gs =
    (SortedMap.lookup name (toEntries fs vs)).map Json.sorted) : gs.Perm (toEntries fs vs) := by
  have hdistinct := distinct_of_perm hnodup (.refl (toEntries fs vs))
  refine SortedMap.perm_of_lookup_eq (SortedMap.distinct_of_ascending hgs) hdistinct fun name => ?_
  rw [h]
  exact SortedMap.map_lookup_of_fixed hdistinct (fun e he =>
    Json.sorted_of_canonical (of_mem_toEntries hd he).1) name

include hnodup hd in
/-- Merging the fields of two records, in whatever order they stand, gives those of the merged
record. -/
theorem perm_mergeFields (hes : es.Perm (toEntries fs vs)) (hgs : gs.Perm (toEntries fs ws)) :
    (Json.mergeFields es gs).Perm (toEntries fs (merged fs vs ws)) := by
  have hdes := distinct_of_perm hnodup hes
  have hdgs := distinct_of_perm hnodup hgs
  refine perm_of_lookup hnodup hd (Json.ascending_mergeFields es gs) fun name => ?_
  rw [Json.lookup_mergeFields hdes hdgs, SortedMap.lookup_perm hdes hes,
    SortedMap.lookup_perm hdgs hgs, ← lookup_merged name hnodup]

include hnodup hd in
theorem perm_sorted (hes : es.Perm (toEntries fs vs)) :
    ∃ gs, (Json.obj es).sorted = .obj gs ∧ gs.Perm (toEntries fs vs) := by
  have hdes := distinct_of_perm hnodup hes
  refine ⟨_, Json.sorted_obj es,
    perm_of_lookup hnodup hd (Json.ascending_mergeFields [] es) fun name => ?_⟩
  rw [Json.lookup_mergeFields .nil hdes, SortedMap.lookup_perm hdes hes]
  exact congrArg (Option.map Json.sorted) Option.or_none

end Perm

end Fields

/-! ## Merged maps -/

namespace Leaf

/-- The fields a map from texts to leaves is written as. -/
def textEntries (l : Leaf) (m : SortedMap String l.Val) : List (String × Json) :=
  m.entries.map fun e => (e.1, l.toJson e.2)

variable {l : Leaf}

theorem ascending_textEntries (m : SortedMap String l.Val) : Ascending (l.textEntries m) :=
  List.pairwise_map.2 m.ascending

theorem lookup_textEntries (m : SortedMap String l.Val) (name : String) :
    SortedMap.lookup name (l.textEntries m) = (m.find? name).map l.toJson :=
  SortedMap.lookup_map (f := id) (fun _ _ => rfl) name m.entries

theorem readable_textEntries (h : l.isDynamic = true) {m : SortedMap String l.Val}
    (hx : ∀ e ∈ m.entries, ∀ x ∈ l.floats e.2, x.2.ReadsBack) :
    (Json.obj (l.textEntries m)).Readable := by
  refine Json.readable_obj_iff.2 (List.forall_mem_map.2 fun e he => ?_)
  dsimp only
  rw [l.depth_toJson]
  exact ⟨readsBack_toJson h (hx e he), by decide⟩

/-- Merging the fields of two maps gives those of their union. -/
theorem mergeFields_textEntries (h : l.isDynamic = true) (m n : SortedMap String l.Val) :
    Json.mergeFields (l.textEntries m) (l.textEntries n) = l.textEntries (m.union n) := by
  have hdistinct := fun m : SortedMap String l.Val =>
    SortedMap.distinct_of_ascending (ascending_textEntries m)
  refine SortedMap.eq_of_lookup_eq (Json.ascending_mergeFields _ _) (ascending_textEntries _)
    fun name => ?_
  rw [Json.lookup_mergeFields (hdistinct m) (hdistinct n), lookup_textEntries, lookup_textEntries,
    lookup_textEntries, SortedMap.find?_union, ← Option.map_or, Option.map_map]
  refine congrArg (fun f => Option.map f ((n.find? name).or (m.find? name))) (funext fun v => ?_)
  exact Json.sorted_of_canonical (canonical_toJson h v)

theorem toJson_textMap (m : SortedMap String l.Val) :
    (Shape.map (.scalar .text) (.leaf l)).toJson m = .ok (.obj (l.textEntries m)) := by
  have hentries : List.mapM (Shape.toEntry (.scalar .text) (.leaf l)) (SortedMap.entries m) =
      .ok (l.textEntries m) :=
    List.mapM_pure (m := Except Problem) (f := fun e : String × l.Val => (e.1, l.toJson e.2))
  exact congrArg (Except.map Json.obj) hentries

end Leaf

namespace Document

/-- The fields an object of documents is written as. -/
def entries (fs : SortedMap String Document) : List (String × Json) :=
  fs.entries.map fun f => (f.1, f.2.json)

theorem mergeFields_entries (fs gs : SortedMap String Document) :
    Json.mergeFields (entries fs) (entries gs) = entries (fs.union gs) := by
  have hof : ∀ fs : SortedMap String Document,
      SortedMap.ofList (ofJsonFields (entries fs)) = fs := by
    intro fs
    have hmap : ofJsonFields (entries fs) = fs.entries := by
      rw [ofJsonFields_eq_map, entries, List.map_map]
      simp only [Function.comp_def, ofJson_json, List.map_id']
    rw [hmap, SortedMap.ofList_entries]
  rw [Json.mergeFields, hof, hof]
  rfl

end Document

/-! ## Merged values -/

namespace Shape

/-- The value of a shape after another one is merged into it. -/
def merged : (s : Shape) → s.Val → s.Val → s.Val
  | .map _ _, m, n => SortedMap.union m n
  | .object, fs, gs => SortedMap.union fs gs
  | .record r, vs, ws => Fields.merged r.fields.list vs ws
  | _, _, w => w

/-- No value is written as an object. -/
def isFlat : Shape → Bool
  | .leaf _ | .unit | .list _ | .set _ | .array _ _ | .pair _ _ => true
  | _ => false

/-- Merging texts comes down to merging values. -/
def keepsMerges : Shape → Bool
  | .map (.scalar .text) (.leaf l) => l.isDynamic
  | .map (.pair _ _) _ | .object => true
  | .record r => Fields.areDynamic r.fields.list
  | s => s.isFlat

/-- The floats in the value are found again, and its documents are not nested too deep. -/
structure Sane (s : Shape) (v : s.Val) : Prop where
  floats : ∀ x ∈ s.floats v, x.2.ReadsBack
  depth : s.NestsAtMost maxDepth v

theorem toJson_ne_obj {s : Shape} {v : s.Val} (hs : s.isFlat = true) (fs : List (String × Json)) :
    s.toJson v ≠ .ok (.obj fs) := by
  intro h
  cases s with
  | leaf l =>
    cases l with
    | scalar s => cases s <;> cases h
    | float p => cases v <;> cases h
  | unit => cases h
  | list s =>
    obtain ⟨js, -, hjs⟩ := exists_of_map_ok h
    cases hjs
  | set s => cases h
  | array n s =>
    obtain ⟨js, -, hjs⟩ := exists_of_map_ok h
    cases hjs
  | pair s t =>
    obtain ⟨a, b, -, -, hab⟩ := toJson_pair (v := v.1) (w := v.2) h
    cases hab
  | option s => cases hs
  | map k s => cases hs
  | record r => cases hs
  | choice c => cases hs
  | json => cases hs
  | object => cases hs

end Shape

/-- What keeps a tree from being merged, which only objects and arrays can be. -/
def Json.unmergeable? : Json → Option Codec.Unmergeable
  | .null => some .null
  | .bool _ => some .boolean
  | .num _ => some .number
  | .str _ => some .text
  | .arr _ | .obj _ => none

namespace Codec

/-- The text is what the value is stored as, or an object of the same fields in another order. -/
def Spells : (s : Shape) → s.Val → String → Prop
  | .record r, vs, text =>
    ∃ es, es.Perm (Fields.toEntries r.fields.list vs) ∧ text = (Json.obj es).render
  | s, v, text => encode s v = .ok text

theorem spells_encode {s : Shape} {v : s.Val} {text : String} (h : encode s v = .ok text) :
    Spells s v text := by
  cases s with
  | record r => exact ⟨_, .refl _, eq_render rfl (fun t => nofun) h⟩
  | _ => exact h

/-- The first character of its text tells whether a tree can be merged. -/
theorem encodeComposite_of_toJson {s : Shape} {v : s.Val} {j : Json} (h : s.toJson v = .ok j) :
    encodeComposite s v = match j.unmergeable? with
      | none => .ok j.render
      | some found => .error (.unmergeable found) := by
  obtain ⟨c, tail, htext, hc⟩ := j.text_head
  unfold encodeComposite
  rw [h]
  dsimp only
  rw [htext]
  cases j with
  | null => cases hc; rfl
  | bool b => cases b <;> (cases hc; rfl)
  | num n =>
    rcases hc with rfl | hc
    · rfl
    · have hmarks : c ≠ '\x7b' ∧ c ≠ '[' ∧ c ≠ 'n' ∧ c ≠ 't' ∧ c ≠ 'f' ∧ c ≠ '"' := by
        refine ⟨?_, ?_, ?_, ?_, ?_, ?_⟩ <;> (rintro rfl; cases hc)
      simp [Unmergeable.ofFirst, Json.unmergeable?, hmarks]
  | str s => cases hc; rfl
  | arr js => cases hc; rfl
  | obj fs => cases hc; rfl

/-- What is merged for a value is its text, which is an object or an array. -/
theorem encodeComposite_cases {s : Shape} {v : s.Val} {text : String}
    (h : encodeComposite s v = .ok text) : ∃ j, s.toJson v = .ok j ∧ text = j.render ∧
      ((∃ fs, j = .obj fs) ∨ ∃ js, j = .arr js) := by
  cases hj : s.toJson v with
  | error p =>
    rw [encodeComposite, hj] at h
    cases h
  | ok j =>
    rw [encodeComposite_of_toJson hj] at h
    refine ⟨j, rfl, ?_⟩
    cases j with
    | obj fs => exact ⟨(Except.ok.inj h).symm, .inl ⟨fs, rfl⟩⟩
    | arr js => exact ⟨(Except.ok.inj h).symm, .inr ⟨js, rfl⟩⟩
    | null | bool b | num n | str t => cases h

/-- What is merged for a value is what would be stored for it. -/
theorem encode_of_composite {s : Shape} {v : s.Val} {text : String}
    (h : encodeComposite s v = .ok text) : encode s v = .ok text := by
  obtain ⟨j, hj, rfl, hcontainer⟩ := encodeComposite_cases h
  refine encode_tree hj ?_
  rcases hcontainer with ⟨fs, rfl⟩ | ⟨js, rfl⟩ <;> nofun

/-- An array replaces what was stored. -/
theorem spells_merge_flat {s : Shape} (hs : s.isFlat = true) {w : s.Val} {new : String}
    (hnew : encodeComposite s w = .ok new) (old : String) :
    encode s w = .ok (shallowMerge (some old) new) := by
  have hencode := encode_of_composite hnew
  obtain ⟨j, hj, rfl, ⟨fs, rfl⟩ | ⟨js, rfl⟩⟩ := encodeComposite_cases hnew
  · exact absurd hj (Shape.toJson_ne_obj hs fs)
  · rw [shallowMerge_of_right (objectOf?_arr js)]
    exact hencode

theorem spells_merge_textMap {l : Leaf} (hl : l.isDynamic = true) {m n : SortedMap String l.Val}
    (hm : (Shape.map (.scalar .text) (.leaf l)).Sane m)
    (hn : (Shape.map (.scalar .text) (.leaf l)).Sane n) {old new : String}
    (hold : encode (.map (.scalar .text) (.leaf l)) m = .ok old)
    (hnew : encode (.map (.scalar .text) (.leaf l)) n = .ok new) :
    encode (.map (.scalar .text) (.leaf l)) (m.union n) = .ok (shallowMerge (some old) new) := by
  have hreadable : ∀ {m : SortedMap String l.Val}, (Shape.map (.scalar .text) (.leaf l)).Sane m →
      (Json.obj (l.textEntries m)).Readable := fun hm =>
    Leaf.readable_textEntries hl fun e he x hx => hm.floats x (List.mem_flatMap.2 ⟨e, he, hx⟩)
  have htext := fun m : SortedMap String l.Val => encode_tree (Leaf.toJson_textMap m) nofun
  obtain rfl := Except.ok.inj (hold.symm.trans (htext m))
  obtain rfl := Except.ok.inj (hnew.symm.trans (htext n))
  rw [shallowMerge_obj (hreadable hm) (hreadable hn), Leaf.mergeFields_textEntries hl]
  exact htext _

theorem spells_merge_object {fs gs : SortedMap String Document} (hfs : Shape.object.Sane fs)
    (hgs : Shape.object.Sane gs) {old new : String} (hold : encode .object fs = .ok old)
    (hnew : encode .object gs = .ok new) :
    encode .object (fs.union gs) = .ok (shallowMerge (some old) new) := by
  have hreadable : ∀ {fs : SortedMap String Document}, Shape.object.Sane fs →
      (Json.obj (Document.entries fs)).Readable := fun h => 
    ⟨Shape.readsBack_document h.floats, h.depth⟩
  obtain rfl := eq_render (j := (Document.ofFields fs).json) rfl (fun t => nofun) hold
  obtain rfl := eq_render (j := (Document.ofFields gs).json) rfl (fun t => nofun) hnew
  have hmerge := shallowMerge_obj (hreadable hfs) (hreadable hgs)
  rw [Document.mergeFields_entries] at hmerge
  have htext : encode .object (fs.union gs) = .ok (Document.ofFields (fs.union gs)).json.render :=
    encode_tree (s := .object) rfl fun t => nofun
  rw [htext]
  exact congrArg Except.ok hmerge.symm

/-- Of a map with pairs for keys only the empty one has a text. -/
theorem encode_pairMap {a b : Scalar} {s : Shape} {m : (Shape.map (.pair a b) s).Val}
    {text : String} (h : encode (.map (.pair a b) s) m = .ok text) :
    SortedMap.entries m = [] ∧ text = (Json.obj []).render := by
  have htree : ∃ j, (Shape.map (.pair a b) s).toJson m = .ok j := by
    rcases encode_cases h with hj | ⟨j, hj, -⟩
    · exact ⟨_, hj⟩
    · exact ⟨j, hj⟩
  have hentries : SortedMap.entries m = [] :=
    not_not.1 ((Shape.exists_toJson_iff (s := .map (.pair a b) s) rfl).1 htree)
  refine ⟨hentries, ?_⟩
  have hjson : (Shape.map (.pair a b) s).toJson m = .ok (.obj []) := by
    show (List.mapM (Shape.toEntry (.pair a b) s) (SortedMap.entries m)).map Json.obj = _
    rw [hentries]
    rfl
  exact Except.ok.inj (h.symm.trans (encode_tree hjson nofun))

theorem spells_merge_pairMap {a b : Scalar} {s : Shape} {m n : (Shape.map (.pair a b) s).Val}
    {old new : String} (hold : encode (.map (.pair a b) s) m = .ok old)
    (hnew : encode (.map (.pair a b) s) n = .ok new) :
    encode (.map (.pair a b) s) (SortedMap.union m n) = .ok (shallowMerge (some old) new) := by
  obtain ⟨-, rfl⟩ := encode_pairMap hold
  obtain ⟨hn, rfl⟩ := encode_pairMap hnew
  have hempty : (Json.obj []).Readable := Json.readable_obj_iff.2 nofun
  have hunion : SortedMap.union m n = m := congrArg (SortedMap.insertAll m) hn
  rw [shallowMerge_obj hempty hempty, hunion]
  exact hold

theorem spells_merge_record {r : Record} (hd : Fields.areDynamic r.fields.list = true)
    {vs ws : Fields.Vals r.fields.list} (hv : (Shape.record r).Sane vs)
    (hw : (Shape.record r).Sane ws) {old new : String} (hold : Spells (.record r) vs old)
    (hnew : Spells (.record r) ws new) :
    Spells (.record r) (Fields.merged r.fields.list vs ws) (shallowMerge (some old) new) := by
  obtain ⟨es, hes, rfl⟩ := hold
  obtain ⟨gs, hgs, rfl⟩ := hnew
  exact ⟨_, Fields.perm_mergeFields r.fields.distinct hd hes hgs,
    shallowMerge_obj (Fields.readable_of_perm hd hv.floats hes)
      (Fields.readable_of_perm hd hw.floats hgs)⟩

/-- After the text of a value is merged into that of another one, the text stands for the merged
value. -/
theorem spells_merge {s : Shape} (hs : s.keepsMerges = true) {v w : s.Val} (hv : s.Sane v)
    (hw : s.Sane w) {old new : String} (hold : Spells s v old)
    (hnew : encodeComposite s w = .ok new) :
    Spells s (s.merged v w) (shallowMerge (some old) new) := by
  have hencode := encode_of_composite hnew
  cases s with
  | record r => exact spells_merge_record hs hv hw hold (spells_encode hencode)
  | object => exact spells_merge_object hv hw hold hencode
  | map k s =>
    cases k with
    | pair a b => exact spells_merge_pairMap hold hencode
    | scalar k =>
      unfold Shape.keepsMerges at hs
      split at hs
      · next l heq =>
        cases heq
        exact spells_merge_textMap hs hv hw hold hencode
      · next heq => cases heq
      · next heq => cases heq
      · next heq => cases heq
      · cases hs
  | leaf l => exact spells_merge_flat (s := .leaf l) rfl hnew old
  | unit => exact spells_merge_flat (s := .unit) rfl hnew old
  | list s => exact spells_merge_flat (s := .list s) rfl hnew old
  | set s => exact spells_merge_flat (s := .set s) rfl hnew old
  | array n s => exact spells_merge_flat (s := .array n s) rfl hnew old
  | pair s t => exact spells_merge_flat (s := .pair s t) rfl hnew old
  | option s => cases hs
  | choice c => cases hs
  | json => cases hs

end Codec

/-! ## Reading merged values -/

namespace Shape

theorem mem_floats_object {fs : SortedMap String Document} {x : AnyBinary} :
    x ∈ Shape.object.floats fs ↔ ∃ f ∈ fs.entries, x ∈ f.2.json.floats := by
  show x ∈ (Json.obj (Document.entries fs)).floats ↔ _
  rw [Json.floats_obj, Document.entries, List.flatMap_map]
  exact List.mem_flatMap

theorem nestsAtMost_object {fs : SortedMap String Document} :
    Shape.object.NestsAtMost maxDepth fs ↔ ∀ f ∈ fs.entries, f.2.json.depth < maxDepth := by
  show (Json.obj (Document.entries fs)).depth ≤ maxDepth ↔ _
  rw [maxDepth, Json.depth_obj_le_iff, Document.entries, List.forall_mem_map]
  exact forall₂_congr fun f _ => Nat.lt_succ_iff.symm

theorem floats_merged {s : Shape} {v w : s.Val} {x : AnyBinary}
    (hx : x ∈ s.floats (s.merged v w)) : x ∈ s.floats v ∨ x ∈ s.floats w := by
  cases s with
  | map k s =>
    obtain ⟨e, he, hx⟩ := List.mem_flatMap.1 hx
    rcases SortedMap.mem_entries_union he with he | he
    · exact .inl (List.mem_flatMap.2 ⟨e, he, hx⟩)
    · exact .inr (List.mem_flatMap.2 ⟨e, he, hx⟩)
  | object =>
    obtain ⟨f, hf, hx⟩ := mem_floats_object.1 hx
    rcases SortedMap.mem_entries_union hf with hf | hf
    · exact .inl (mem_floats_object.2 ⟨f, hf, hx⟩)
    · exact .inr (mem_floats_object.2 ⟨f, hf, hx⟩)
  | record r => exact Fields.floats_merged v w x hx
  | _ => exact .inr hx

theorem Sane.merged {s : Shape} {v w : s.Val} (hv : s.Sane v) (hw : s.Sane w) :
    s.Sane (s.merged v w) := by
  refine ⟨fun x hx => ?_, ?_⟩
  · rcases floats_merged hx with hx | hx
    · exact hv.floats x hx
    · exact hw.floats x hx
  · cases s with
    | object =>
      refine nestsAtMost_object.2 fun f hf => ?_
      rcases SortedMap.mem_entries_union hf with hf | hf
      · exact nestsAtMost_object.1 hv.depth f hf
      · exact nestsAtMost_object.1 hw.depth f hf
    | _ => exact trivial

end Shape

namespace Codec

/-- A text is read as the value it spells. -/
theorem decode_of_spells {s : Shape} (hs : s.isSound = true) {v : s.Val} (hv : s.Sane v)
    (ha : ¬ s.Ambiguous v) {text : String} (h : Spells s v text) : decode s text = .ok v := by
  simp only [Shape.isSound, Bool.and_eq_true] at hs
  obtain ⟨⟨⟨hbare, hoptions⟩, hdepth⟩, -⟩ := hs
  have hencoded : encode s v = .ok text → decode s text = .ok v := fun hencode =>
    decode_encode hbare hencode hv.floats (Shape.optionsShow_of_discerning hoptions ha hv.floats)
      (fun j hj => Shape.depth_of_shallow hdepth hv.depth hj) ha
  cases s with
  | record r =>
    obtain ⟨es, hes, rfl⟩ := h
    exact decode_of_reads (fun _ h => by cases h)
      (Fields.reads_fields r.fields.distinct hv.floats hes _ _ 126)
  | _ => exact hencoded h

end Codec

end SchemaStore
