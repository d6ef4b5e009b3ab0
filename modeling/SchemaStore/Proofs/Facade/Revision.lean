import SchemaStore.Catalog
import SchemaStore.Proofs.Codec.Merge
import SchemaStore.Proofs.Facade.TypedMap

/-!
# What merges mean for values

A value is set, and others are merged into it, one after another. The store sees texts only, and each
merge rewrites one. `Revision.outcome` says what this means for the values: setting replaces, merging
combines with `Shape.merged`, and merging into nothing sets. A read afterwards gives the outcome
(`Op.answerGet_revised`). The invariant is that the stored text spells the outcome so far
(`Op.Spelled`); every revision keeps it (`Op.spelled_revision`).
-/

namespace SchemaStore

/-! ## Shapes without floats -/

namespace Leaf

/-- The values are no floats. -/
def isFloatFree : Leaf → Bool
  | .scalar _ => true
  | .float _ => false

theorem floats_of_isFloatFree {l : Leaf} (h : l.isFloatFree = true) (v : l.Val) :
    l.floats v = [] := by
  cases l with
  | scalar s => rfl
  | float p => cases h

end Leaf

theorem Field.floats_of_isFloatFree : ∀ {f : Field}, f.leaf.isFloatFree = true → ∀ v : f.Val,
    f.floats v = []
  | ⟨_, _, .required⟩, h, v => Leaf.floats_of_isFloatFree h v
  | ⟨_, _, .omitted⟩, _, none | ⟨_, _, .nullable⟩, _, none => rfl
  | ⟨_, _, .omitted⟩, h, some v | ⟨_, _, .nullable⟩, h, some v => Leaf.floats_of_isFloatFree h v

theorem Fields.floats_of_isFloatFree : ∀ {fs : List Field},
    (fs.all fun f => f.leaf.isFloatFree) = true → ∀ vs : Fields.Vals fs, Fields.floats fs vs = []
  | [], _, _ => rfl
  | f :: rest, h, (v, vs) => by
    simp only [List.all_cons, Bool.and_eq_true] at h
    rw [floats, Field.floats_of_isFloatFree h.1, floats_of_isFloatFree h.2]
    rfl

namespace Shape

/-- No value holds a float or a document. -/
def isFloatFree : Shape → Bool
  | .leaf l => l.isFloatFree
  | .unit | .set _ => true
  | .option s | .list s | .array _ s | .map _ s => s.isFloatFree
  | .pair s t => s.isFloatFree && t.isFloatFree
  | .record r => r.fields.list.all fun f => f.leaf.isFloatFree
  | .choice _ | .json | .object => false

/-- A shape without floats and documents has no values with floats. -/
theorem floats_of_isFloatFree : ∀ {s : Shape}, s.isFloatFree = true → ∀ v : s.Val, s.floats v = []
  | .leaf _, h, v => Leaf.floats_of_isFloatFree h v
  | .unit, _, _ | .set _, _, _ => rfl
  | .option _, _, none => rfl
  | .option s, h, some v => floats_of_isFloatFree (s := s) h v
  | .list s, h, _ | .array _ s, h, _ =>
    List.flatMap_eq_nil_iff.2 fun v _ => floats_of_isFloatFree (s := s) h v
  | .map _ s, h, _ => List.flatMap_eq_nil_iff.2 fun e _ => floats_of_isFloatFree (s := s) h e.2
  | .pair _ _, h, (v, w) => by
    obtain ⟨hs, ht⟩ := Bool.and_eq_true_iff.1 h
    rw [floats, floats_of_isFloatFree hs v, floats_of_isFloatFree ht w]
    rfl
  | .record _, h, vs => Fields.floats_of_isFloatFree h vs

/-- Only floats and deep documents can keep a value from coming back, and such a shape has
neither. -/
theorem sane_of_isFloatFree {s : Shape} (h : s.isFloatFree = true) (v : s.Val) : s.Sane v := by
  constructor
  · rw [floats_of_isFloatFree h v]
    nofun
  · cases s with
    | object => cases h
    | _ => exact trivial

/-! ## Shapes of containers -/

/-- Every value is written as an array or an object. -/
def isContainer : Shape → Bool
  | .list _ | .set _ | .array _ _ | .pair _ _ | .map _ _ | .record _ | .object => true
  | _ => false

/-- A value of a container is never refused as something to merge. -/
theorem unmergeable?_toJson {s : Shape} (hs : s.isContainer = true) {v : s.Val} {j : Json}
    (h : s.toJson v = .ok j) : j.unmergeable? = none := by
  cases s with
  | list s =>
    obtain ⟨js, -, rfl⟩ := exists_of_map_ok h
    rfl
  | array n s =>
    obtain ⟨js, -, rfl⟩ := exists_of_map_ok h
    rfl
  | pair s t =>
    obtain ⟨a, b, -, -, rfl⟩ := toJson_pair (v := v.1) (w := v.2) h
    rfl
  | map k s =>
    obtain ⟨fs, -, rfl⟩ := exists_of_map_ok h
    rfl
  | set s | record r | object =>
    cases h
    rfl
  | leaf l | unit | option s | choice c | json => cases hs

theorem not_ambiguous {s : Shape} (hs : s.isContainer = true) (v : s.Val) : ¬ s.Ambiguous v := by
  cases s with
  | leaf l | unit | option s | choice c | json => cases hs
  | _ => exact id

/-- Merging acts on the values of the shape, and these come back. -/
def isRevisable (s : Shape) : Bool :=
  s.isSound && s.keepsMerges && s.isContainer && s.isWritable

theorem exists_composite {s : Shape} (hs : s.isContainer = true) (hw : s.isWritable = true)
    (v : s.Val) : ∃ text, Codec.encodeComposite s v = .ok text := by
  obtain ⟨j, hj⟩ := exists_toJson s v hw
  refine ⟨j.render, ?_⟩
  rw [Codec.encodeComposite_of_toJson hj, unmergeable?_toJson hs hj]

end Shape

/-! ## Revisions -/

/-- A call that sets a value or merges one into it. -/
inductive Revision (α : Type)
  | set (v : α)
  | merge (v : α)

namespace Revision

variable {α : Type}

/-- The value that is set or merged. -/
def value : Revision α → α
  | .set v => v
  | .merge v => v

/-- The value after a revision of the one there was, if any. -/
def applied (combine : α → α → α) : Option α → Revision α → α
  | _, .set v => v
  | none, .merge v => v
  | some m, .merge v => combine m v

/-- The value after some revisions, where there was none before. -/
def outcome (combine : α → α → α) (rs : List (Revision α)) : Option α :=
  rs.foldl (fun m r => some (r.applied combine m)) none

/-- The operation of a revision. -/
def op {S : Schema} (k : S.MergeKey) : Revision (S.Val k.val) → Op S
  | .set v => .set k.val v
  | .merge v => .merge k v

theorem exists_outcome (combine : α → α → α) {rs : List (Revision α)} (hrs : rs ≠ []) :
    ∃ v, outcome combine rs = some v := by
  rcases List.eq_nil_or_concat rs with rfl | ⟨earlier, r, rfl⟩
  · exact absurd rfl hrs
  · rw [outcome, List.concat_eq_append, List.foldl_append]
    exact ⟨_, rfl⟩

end Revision

namespace Op

variable {S : Schema} {k : S.MergeKey}

/-- The store holds a text of the value, or none if there is none. -/
def Spelled (k : S.MergeKey) : Option (S.Val k.val) → MemoryStore → Prop
  | none, m => m.get (Schema.name k.val) = none
  | some v, m => (Schema.shape k.val).Sane v ∧ ∃ text,
      m.get (Schema.name k.val) = some text ∧ Codec.Spells (Schema.shape k.val) v text

/-- One revision keeps the invariant. A value that is set is spelled by its own text; one that is
merged into another is spelled by the text that the store makes of the two. -/
theorem spelled_revision (hs : (Schema.shape k.val).isRevisable = true)
    {r : Revision (S.Val k.val)} (hr : (Schema.shape k.val).Sane r.value)
    {before : Option (S.Val k.val)} {m : MemoryStore} (h : Spelled k before m) :
    Spelled k (some (r.applied (Schema.shape k.val).merged before)) ((r.op k).run m).store := by
  simp only [Shape.isRevisable, Bool.and_eq_true] at hs
  obtain ⟨⟨⟨-, hmerges⟩, hcontainer⟩, hwritable⟩ := hs
  obtain ⟨new, hnew⟩ := Shape.exists_composite hcontainer hwritable r.value
  have hencode := Codec.encode_of_composite hnew
  cases r with
  | set v =>
    dsimp only [Revision.value] at hr hencode
    refine ⟨hr, new, ?_, Codec.spells_encode hencode⟩
    rw [Revision.op, (run_set hencode m).2, MemoryStore.get_set, if_pos rfl]
  | merge v =>
    dsimp only [Revision.value] at hr hnew hencode
    have hget : ((Op.merge k v).run m).store.get (Schema.name k.val) =
        some (Codec.shallowMerge (m.get (Schema.name k.val)) new) := by
      rw [(run_merge hnew m).2, MemoryStore.get_merge, if_pos rfl]
    -- merging into nothing puts the text as it is, and else the old text spells the old value
    cases before with
    | none =>
      rw [show m.get (Schema.name k.val) = none from h] at hget
      exact ⟨hr, new, hget, Codec.spells_encode hencode⟩
    | some w =>
      obtain ⟨hw, old, hold, hspells⟩ := h
      rw [hold] at hget
      exact ⟨hw.merged hr, _, hget, Codec.spells_merge hmerges hw hr hspells hnew⟩

/-- A run of revisions keeps the invariant, from a value as well as from none. -/
theorem spelled_afterAll (hs : (Schema.shape k.val).isRevisable = true)
    {rs : List (Revision (S.Val k.val))} (hrs : ∀ r ∈ rs, (Schema.shape k.val).Sane r.value)
    {before : Option (S.Val k.val)} {m : MemoryStore} (h : Spelled k before m) :
    Spelled k (rs.foldl (fun m r => some (r.applied (Schema.shape k.val).merged m)) before)
      (afterAll (rs.map (Revision.op k)) m) := by
  induction rs generalizing before m with
  | nil => exact h
  | cons r rs ih =>
    apply ih
    · intro r' hr'
      exact hrs r' (List.mem_cons_of_mem _ hr')
    · exact spelled_revision hs (hrs r List.mem_cons_self) h

/-- A read shows the value that the stored text spells. -/
theorem answerGet_of_spelled (hs : (Schema.shape k.val).isRevisable = true) {v : S.Val k.val}
    {m : MemoryStore} (h : Spelled k (some v) m) : answerGet k.val m = .ok (some v) := by
  simp only [Shape.isRevisable, Bool.and_eq_true] at hs
  obtain ⟨⟨⟨hsound, -⟩, hcontainer⟩, -⟩ := hs
  obtain ⟨hv, text, htext, hspells⟩ := h
  have hdecode := Codec.decode_of_spells hsound hv (Shape.not_ambiguous hcontainer v) hspells
  rw [answerGet_eq, htext]
  dsimp only
  rw [Batch.decodeText, hdecode]
  rfl

/-- After some revisions of a key that had no value, a read gives their outcome. One revision is
enough, since merging into nothing sets. -/
theorem answerGet_revised (hs : (Schema.shape k.val).isRevisable = true)
    {rs : List (Revision (S.Val k.val))} (hne : rs ≠ [])
    (hrs : ∀ r ∈ rs, (Schema.shape k.val).Sane r.value) {m : MemoryStore}
    (hm : m.get (Schema.name k.val) = none) :
    ∃ v, Revision.outcome (Schema.shape k.val).merged rs = some v ∧
      answerGet k.val (afterAll (rs.map (Revision.op k)) m) = .ok (some v) := by
  obtain ⟨v, hv⟩ := Revision.exists_outcome (Schema.shape k.val).merged hne
  have hstart : Spelled k none m := hm
  refine ⟨v, hv, answerGet_of_spelled hs ?_⟩
  rw [← hv]
  exact spelled_afterAll hs hrs hstart

end Op

/-! ## Keys of the catalog -/

namespace Catalog

/-- The names of the keys whose merges act on their values. -/
def revisable : List String := ["scores", "doc", "owner.patch", "owner", "recent", "session.scopes",
  "deque", "triple", "uniq", "boxed"]

/-- The keys listed above are fit for revisions, and all but one of them hold no floats. -/
theorem isRevisable_decls : ∀ S ∈ schemas, ∀ d ∈ S.decls, d.name ∈ revisable →
    d.shape.isRevisable = true ∧ (d.name ≠ "doc" → d.shape.isFloatFree = true) := by
  decide

/-- The key of objects. -/
def docKey : extra.MergeKey := ⟨⟨10, by decide⟩, by decide⟩

/-- Half a field, and then a field of the same name and another one. -/
def docRevisions : List (Revision (SortedMap String Document)) :=
  [.merge (.ofList [("a", .ofDouble oneAndHalf)]),
    .merge (.ofList [("a", .null), ("b", .ofBool true)])]

example (v w : (Shape.record profile).Val) : (Shape.record profile).merged v w = w := rfl

example (name name' email : Option String) (age age' : Option IntKind.u32.Val) :
    (Shape.record patch).merged (name, age, email, ()) (name', age', none, ()) =
      (name'.or name, age'.or age, email, ()) := rfl

/-- After some values have been set and merged, a read shows their outcome: maps and objects are
united, of a change to a person the fields that have a value replace the earlier ones, and persons and
sequences are replaced as a whole. -/
theorem answerGet_revisions {S : Schema} (hS : S ∈ schemas) (k : S.MergeKey)
    (hk : Schema.name k.val ∈ revisable) {rs : List (Revision (S.Val k.val))} (hne : rs ≠ [])
    (hdoc : Schema.name k.val = "doc" → ∀ r ∈ rs, (Schema.shape k.val).Sane r.value)
    {m : MemoryStore} (hm : m.get (Schema.name k.val) = none) :
    ∃ v, Revision.outcome (Schema.shape k.val).merged rs = some v ∧
      Op.answerGet k.val (Op.afterAll (rs.map (Revision.op k)) m) = .ok (some v) := by
  obtain ⟨hs, hfree⟩ := isRevisable_decls S hS (Schema.decl k.val) (List.get_mem S.decls k.val) hk
  refine Op.answerGet_revised hs hne (fun r hr => ?_) hm
  by_cases hname : Schema.name k.val = "doc"
  · exact hdoc hname r hr
  · exact Shape.sane_of_isFloatFree (hfree hname) r.value

theorem answerGet_revisions_doc :
    Op.answerGet docKey.val (Op.afterAll (docRevisions.map (Revision.op docKey)) .empty) =
      .ok (some (SortedMap.ofList [("a", Document.null), ("b", .ofBool true)])) := by
  have hsane : ∀ r ∈ docRevisions, Shape.object.Sane r.value := by
    intro r hr
    simp only [docRevisions, List.mem_cons, List.not_mem_nil, or_false] at hr
    rcases hr with rfl | rfl
    · exact ⟨by decide +kernel, Shape.nestsAtMost_object.2 (by decide)⟩
    · exact ⟨by decide, Shape.nestsAtMost_object.2 (by decide)⟩
  have hextra : extra ∈ schemas := by simp [schemas]
  have hempty : MemoryStore.empty.get (Schema.name docKey.val) = none := MemoryStore.get_empty _
  have hne : docRevisions ≠ [] := nofun
  obtain ⟨v, hv, hread⟩ := answerGet_revisions hextra docKey (by decide) hne (fun _ => hsane) hempty
  obtain rfl := Option.some.inj hv
  exact hread

end Catalog

end SchemaStore
