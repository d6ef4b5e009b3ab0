import Mathlib.Data.List.Nodup
import SchemaStore.Proofs.Codec.Merge

/-!
# Merging the texts of choices

A variant that carries something is an object with the name of the variant as its only field. So a
merge of such objects collects variants: the text has one field for each variant that was written
since the text was last replaced (`Choice.Accrued`). It is still a text of the choice as long as this
is a single one (`Choice.decode_accrued`).
-/

namespace SchemaStore

/-! ## Bodies -/

theorem SortedMap.mem_names_iff {β : Type} {es : List (String × β)} {name : String} :
    name ∈ es.map (·.1) ↔ lookup name es ≠ none := by
  induction es with
  | nil => simp [lookup]
  | cons e es ih =>
    rw [List.map_cons, List.mem_cons, ih, lookup]
    by_cases h : name = e.1 <;> simp [h]

namespace Payload

/-- Nothing is carried. -/
def isUnit : Payload → Bool
  | .unit => true
  | _ => false

theorem isUnit_of_bare {p : Payload} {v : p.Val} (h : p.bare = .ok v) : p.isUnit = true := by
  cases p with
  | unit => rfl
  | single l => cases h
  | tuple ls => cases h
  | record fs => cases h

theorem isUnit_of_body {p : Payload} {v : p.Val} {j : Json} (h : p.Body v j) :
    p.isUnit = false := by
  cases p with
  | unit => exact h.elim
  | single l => rfl
  | tuple ls => rfl
  | record fs => rfl

/-- Sorting a body leaves what it stands for. -/
theorem body_sorted : ∀ {p : Payload} {v : p.Val} {j : Json}, p.isDynamic = true → p.Body v j →
    p.Body v j.sorted
  | .unit, _, _, _, h => h.elim
  | .single l, v, _, hp, h => by
    cases h
    exact Json.sorted_of_canonical (Leaf.canonical_toJson hp v)
  | .tuple ls, vs, _, hp, h => by
    cases h
    exact Json.sorted_of_canonical (Leaf.canonical_toItems hp)
  | .record fs, vs, _, hp, h => by
    obtain ⟨es, hes, rfl⟩ := h
    obtain ⟨gs, hgs, hperm⟩ := Fields.perm_sorted fs.distinct hp hes
    exact ⟨gs, hperm, hgs⟩

end Payload

/-! ## Collected variants -/

namespace Choice

variable (c : Choice)

/-- The name of the variant a value is of. -/
def variantName (v : c.Val) : String := (c.variants.get v.1).name

/-- A variant of the name carries something. -/
def carries (name : String) : Bool := c.variants.any fun v => v.name == name && !v.payload.isUnit

/-- No name of a variant looks like an object. -/
def isPlain : Bool :=
  c.variants.all fun v => (Text.skipBlanks v.name.toList).head? != some '\x7b'

/-- The field is that of a variant that carries something. -/
def IsField (e : String × Json) : Prop :=
  ∃ v : c.Val, c.variantName v = e.1 ∧ (c.variants.get v.1).payload.Body v.2 e.2 ∧
    ∀ x ∈ c.floats v, x.2.ReadsBack

/-- A text that came about by writing variants of these names: the name of a variant, or an object
with one field for each of the variants that carry something. -/
inductive Accrued (names : List String) : String → Prop
  | bare {v : c.Val} {text : String} (h : c.toJson v = .str text)
    (bare : ∀ name ∈ names, c.carries name = false) : Accrued names text
  | fields {es : List (String × Json)} (nonempty : es ≠ []) (distinct : SortedMap.Distinct es)
    (each : ∀ e ∈ es, c.IsField e)
    (same : ∀ name, name ∈ es.map (·.1) ↔ name ∈ names ∧ c.carries name = true) :
    Accrued names (Json.obj es).render

variable {c}

theorem carries_variantName (v : c.Val) :
    c.carries (c.variantName v) = !(c.variants.get v.1).payload.isUnit := by
  have hmem := List.get_mem c.variants v.1
  rw [Bool.eq_iff_iff, carries, List.any_eq_true]
  constructor
  · rintro ⟨u, hu, h⟩
    simp only [Bool.and_eq_true, beq_iff_eq] at h
    obtain rfl := List.inj_on_of_nodup_map c.distinct hu hmem h.1
    exact h.2
  · intro h
    exact ⟨_, hmem, by simpa [variantName] using h⟩

theorem carries_of_isField {e : String × Json} (h : c.IsField e) : c.carries e.1 = true := by
  obtain ⟨v, hname, hbody, -⟩ := h
  rw [← hname, carries_variantName, Payload.isUnit_of_body hbody]
  rfl

/-- A variant is written as its name if it carries nothing, and else as an object with one field. -/
theorem toJson_cases {v : c.Val} (hx : ∀ x ∈ c.floats v, x.2.ReadsBack) :
    (c.carries (c.variantName v) = false ∧ c.toJson v = .str (c.variantName v)) ∨
      ∃ j, c.IsField (c.variantName v, j) ∧ c.toJson v = .obj [(c.variantName v, j)] := by
  rcases Payload.toJson_cases (c.variantName v) (c.variants.get v.1).payload v.2 with
    ⟨hbare, hname⟩ | ⟨j, hbody, hobj⟩
  · refine .inl ⟨?_, hname⟩
    rw [carries_variantName, Payload.isUnit_of_bare hbare]
    rfl
  · exact .inr ⟨j, ⟨v, rfl, hbody, hx⟩, hobj⟩

theorem depth_of_body {v : c.Val} {j : Json} (hbody : (c.variants.get v.1).payload.Body v.2 j) :
    j.depth + 1 ≤ maxDepth :=
  Nat.le_trans (Nat.succ_le_succ (Payload.depth_body hbody)) (by decide)

theorem readable_of_isField (hd : c.isDynamic = true) {es : List (String × Json)}
    (h : ∀ e ∈ es, c.IsField e) : (Json.obj es).Readable := by
  refine Json.readable_obj_iff.2 fun e he => ?_
  obtain ⟨v, -, hbody, hx⟩ := h e he
  exact ⟨Payload.readsBack_body (isDynamic_payload hd v) hbody hx, depth_of_body hbody⟩

/-- A field of a variant is one still when its body is sorted, as a merge does. -/
theorem isField_sorted (hd : c.isDynamic = true) {name : String} {j : Json}
    (h : c.IsField (name, j)) : c.IsField (name, j.sorted) := by
  obtain ⟨v, hname, hbody, hx⟩ := h
  exact ⟨v, hname, Payload.body_sorted (isDynamic_payload hd v) hbody, hx⟩

/-! ## Writing variants -/

theorem accrued_field {names : List String} {name : String} {j : Json}
    (hj : c.IsField (name, j)) (hnames : ∀ n ∈ names, c.carries n = false) :
    c.Accrued (names ++ [name]) (Json.obj [(name, j)]).render := by
  refine .fields (by simp) (List.pairwise_singleton _ _) (List.forall_mem_singleton.2 hj) fun n => ?_
  have hcarries : c.carries name = true := carries_of_isField hj
  rw [List.map_singleton, List.mem_singleton, List.mem_append, List.mem_singleton]
  constructor
  · rintro rfl
    exact ⟨.inr rfl, hcarries⟩
  · rintro ⟨hn | hn, hcarried⟩
    · rw [hnames n hn] at hcarried
      cases hcarried
    · exact hn

theorem accrued_encode {v : c.Val} (hx : ∀ x ∈ c.floats v, x.2.ReadsBack) {text : String}
    (h : Codec.encode (.choice c) v = .ok text) : c.Accrued [c.variantName v] text := by
  rcases toJson_cases hx with ⟨hcarries, hname⟩ | ⟨j, hj, hobj⟩
  · have hencode := Codec.encode_str (s := .choice c) (congrArg Except.ok hname)
    obtain rfl := Except.ok.inj (h.symm.trans hencode)
    exact .bare hname (List.forall_mem_singleton.2 hcarries)
  · have hencode := Codec.encode_tree (s := .choice c) (congrArg Except.ok hobj) nofun
    obtain rfl := Except.ok.inj (h.symm.trans hencode)
    exact @accrued_field c [] _ j hj nofun

theorem mem_names_mergeFields {es fs : List (String × Json)} (hes : SortedMap.Distinct es)
    (hfs : SortedMap.Distinct fs) (name : String) :
    name ∈ (Json.mergeFields es fs).map (·.1) ↔ name ∈ es.map (·.1) ∨ name ∈ fs.map (·.1) := by
  rw [SortedMap.mem_names_iff, SortedMap.mem_names_iff, SortedMap.mem_names_iff,
    Json.lookup_mergeFields hes hfs]
  cases SortedMap.lookup name fs <;> simp

theorem head_of_toJson (hp : c.isPlain = true) {v : c.Val} {text : String}
    (h : c.toJson v = .str text) : (Text.skipBlanks text.toList).head? ≠ some '\x7b' := by
  have hname := List.all_eq_true.1 hp _ (List.get_mem c.variants v.1)
  rw [← (bare_of_toJson_str h).2]
  simpa using hname

/-- Only a variant that carries something is merged, as an object with one field. -/
theorem exists_field_of_composite {w : c.Val} (hx : ∀ x ∈ c.floats w, x.2.ReadsBack) {new : String}
    (hnew : Codec.encodeComposite (.choice c) w = .ok new) :
    ∃ j, c.IsField (c.variantName w, j) ∧ new = (Json.obj [(c.variantName w, j)]).render := by
  obtain ⟨j, hj, rfl, hcontainer⟩ := Codec.encodeComposite_cases hnew
  obtain rfl : c.toJson w = j := Except.ok.inj hj
  rcases toJson_cases hx with ⟨-, hname⟩ | ⟨j, hfield, hobj⟩
  · rw [hname] at hcontainer
    rcases hcontainer with ⟨fs, hfs⟩ | ⟨js, hjs⟩
    · cases hfs
    · cases hjs
  · exact ⟨j, hfield, congrArg Json.render hobj⟩

/-- A variant that is merged into a text becomes a field of it. -/
theorem accrued_merge (hd : c.isDynamic = true) (hp : c.isPlain = true) {names : List String}
    {old : String} (hold : c.Accrued names old) {w : c.Val}
    (hx : ∀ x ∈ c.floats w, x.2.ReadsBack) {new : String}
    (hnew : Codec.encodeComposite (.choice c) w = .ok new) :
    c.Accrued (names ++ [c.variantName w]) (Codec.shallowMerge (some old) new) := by
  obtain ⟨j, hfield, rfl⟩ := exists_field_of_composite hx hnew
  cases hold with
  | @bare v text hname hnames =>
    have hnone : Codec.objectOf? old = none := Codec.objectOf?_eq_none (head_of_toJson hp hname)
    rw [Codec.shallowMerge_of_left hnone]
    exact accrued_field hfield hnames
  | @fields es hne hdistinct heach hsame =>
    have hsingle : SortedMap.Distinct [(c.variantName w, j)] := List.pairwise_singleton _ _
    have hfields : ∀ e ∈ [(c.variantName w, j)], c.IsField e := List.forall_mem_singleton.2 hfield
    have hnames := mem_names_mergeFields hdistinct hsingle
    rw [Codec.shallowMerge_obj (readable_of_isField hd heach) (readable_of_isField hd hfields)]
    refine .fields ?_ (SortedMap.distinct_of_ascending (Json.ascending_mergeFields _ _)) ?_ ?_
    · -- the merged field at least is there
      intro hempty
      have hmem := (hnames (c.variantName w)).2 (.inr (by simp))
      rw [hempty] at hmem
      cases hmem
    · -- each field was in one of the objects, but it may have been sorted since
      rintro ⟨name, j'⟩ he
      obtain ⟨j'', hmem, rfl⟩ := Json.exists_of_mem_mergeFields he
      refine isField_sorted hd ?_
      rcases List.mem_append.1 hmem with hmem | hmem
      · exact heach _ hmem
      · exact hfields _ hmem
    · intro name
      have hcarries : c.carries (c.variantName w) = true := carries_of_isField hfield
      rw [hnames, hsame, List.map_singleton, List.mem_singleton, List.mem_append,
        List.mem_singleton]
      constructor
      · rintro (⟨hname, hc⟩ | rfl)
        · exact ⟨.inl hname, hc⟩
        · exact ⟨.inr rfl, hcarries⟩
      · rintro ⟨hname | hname, hc⟩
        · exact .inl ⟨hname, hc⟩
        · exact .inr hname

/-! ## Reading collected variants -/

/-- Two different variants that carry something are among those written. -/
def Mixes (names : List String) : Prop :=
  ∃ a ∈ names, ∃ b ∈ names, a ≠ b ∧ c.carries a = true ∧ c.carries b = true

theorem bareSafe_of_isPlain (hp : c.isPlain = true) : (Shape.choice c).isBareSafe = true := by
  refine List.all_eq_true.2 fun u hu => ?_
  have hname := List.all_eq_true.1 hp u hu
  simp only [bne_iff_ne, ne_eq] at hname ⊢
  intro hhead
  obtain ⟨tail, htail⟩ := List.head?_eq_some_iff.1 hhead
  refine hname ?_
  rw [htail]
  rfl

/-- The text of an object is no name of a variant. -/
theorem ofDocument_obj (hp : c.isPlain = true) (fs : List (String × Json)) :
    ∃ e, c.ofDocument (Document.ofText (Json.obj fs).render) = .error e := by
  have hnot : (Json.obj fs).render ∉ c.names := by
    intro hmem
    obtain ⟨u, hu, hname⟩ := List.mem_map.1 hmem
    have hhead := List.all_eq_true.1 (bareSafe_of_isPlain hp) u hu
    rw [hname, Json.render, String.toList_ofList, Json.text_obj] at hhead
    simp at hhead
  have hview : (Document.ofText (Json.obj fs).render).view = .text (Json.obj fs).render := rfl
  rw [ofDocument, Document.toVariant, hview]
  simp only [Token.variantIndex_of_not_mem hnot]
  exact ⟨_, rfl⟩

/-- With a second field an object is no variant, neither as JSON nor as a name. -/
theorem decode_furtherField (hp : c.isPlain = true) {e f : String × Json}
    {fs : List (String × Json)} (he : c.IsField e) :
    ∃ complaint, Codec.decode (.choice c) (Json.obj (e :: f :: fs)).render = .error complaint := by
  obtain ⟨name, j⟩ := e
  obtain ⟨v, rfl, hbody, hx⟩ := he
  obtain ⟨e, hread⟩ : ∃ e, (Shape.choice c).read maxDepth
      (Json.obj ((c.variantName v, j) :: f :: fs)).text = .error e :=
    read_furtherField hbody (depth_of_body hbody) hx f fs
  obtain ⟨e', hbare⟩ := ofDocument_obj hp ((c.variantName v, j) :: f :: fs)
  obtain ⟨complaint, hparse⟩ : ∃ complaint, (Shape.choice c).parse
      (Json.obj ((c.variantName v, j) :: f :: fs)).render.toList = .error complaint := by
    rw [Json.render, String.toList_ofList, Shape.parse, Read.whole, hread]
    exact ⟨_, rfl⟩
  exact ⟨complaint, Codec.decode_error (Codec.first_render (fun _ h => by cases h)) hparse hbare⟩

theorem decode_field {e : String × Json} (he : c.IsField e) :
    ∃ v, Codec.decode (.choice c) (Json.obj [e]).render = .ok v := by
  obtain ⟨name, j⟩ := e
  obtain ⟨v, rfl, hbody, hx⟩ := he
  exact ⟨v, Codec.decode_of_reads (s := .choice c) (fun _ h => by cases h)
    (reads_carried hbody (depth_of_body hbody) hx)⟩

/-- A text is read as a variant exactly if no two different variants that carry something were
collected in it. -/
theorem decode_accrued (hp : c.isPlain = true) {names : List String}
    {text : String} (h : c.Accrued names text) :
    (c.Mixes names ∧ ∃ e, Codec.decode (.choice c) text = .error e) ∨
      (¬ c.Mixes names ∧ ∃ v, Codec.decode (.choice c) text = .ok v) := by
  cases h with
  | @bare v text hname hnames =>
    refine .inr ⟨?_, v, ?_⟩
    · rintro ⟨a, ha, -, -, -, hcarries, -⟩
      rw [hnames a ha] at hcarries
      cases hcarries
    · exact Codec.decode_bare (bareSafe_of_isPlain hp) (congrArg Except.ok hname) (fun h => h)
  | @fields es hne hdistinct heach hsame =>
    match es, hne with
    | [e], _ =>
      refine .inr ⟨?_, ?_⟩
      · -- all variants that carry something are that of the one field
        rintro ⟨a, ha, b, hb, hab, hca, hcb⟩
        have hmem : ∀ n, n ∈ [e].map (·.1) → n = e.1 := fun n hn => List.mem_singleton.1 hn
        exact hab ((hmem a ((hsame a).2 ⟨ha, hca⟩)).trans (hmem b ((hsame b).2 ⟨hb, hcb⟩)).symm)
      · exact decode_field (heach e List.mem_cons_self)
    | e :: f :: fs, _ =>
      refine .inl ⟨⟨e.1, ((hsame e.1).1 (by simp)).1, f.1, ((hsame f.1).1 (by simp)).1, ?_,
        ((hsame e.1).1 (by simp)).2, ((hsame f.1).1 (by simp)).2⟩, ?_⟩
      · -- the names of the first two fields are different
        intro heq
        refine (List.pairwise_cons.1 hdistinct).1 f List.mem_cons_self ?_
        rw [heq]
        exact Std.ReflCmp.compare_self
      · exact decode_furtherField hp (heach e List.mem_cons_self)

end Choice

end SchemaStore
