import SchemaStore.Catalog
import SchemaStore.Proofs.Codec.Dynamic
import SchemaStore.Proofs.Codec.MergeChoice
import SchemaStore.Proofs.Facade.TypedMap

/-!
# Stored texts stay readable

The facades of the catalog share one store, and the store merges texts without knowing their shapes.
Still every text it comes to hold is one of the shape of its key: `Shape.Stores` says which texts these
are, every change keeps it (`KeyDecl.stores_write`), and so does a run of operations of all facades
(`Request.stores_afterAll`). Texts of choices are the exception. Different variants that are merged
into one text make it unreadable, so `Stores` is about a text together with the variants that have
been written to it since it was set (`Change.variants`).
-/

namespace SchemaStore

/-! ## Requests to several facades -/

/-- The name of the variant a value is of, if its shape is a choice. -/
def Shape.variantName? : (s : Shape) → s.Val → Option String
  | .choice c, v => some (c.variantName v)
  | _, _ => none

namespace Change

variable {S : Schema}

/-- The value of a change, if it has one. -/
def value? : Change S → Option ((s : Shape) × s.Val)
  | .put e => some ⟨Schema.shape e.1, e.2⟩
  | .merge e => some ⟨Schema.shape e.1.val, e.2⟩
  | .remove _ | .clear => none

/-- The variants written to a key since it was last set, removed or cleared, after a change. The one
that is set counts. -/
def variants (key : String) : Change S → List String → List String
  | .put e, names =>
    if Schema.name e.1 = key then ((Schema.shape e.1).variantName? e.2).toList else names
  | .merge e, names =>
    if Schema.name e.1.val = key then
      names ++ ((Schema.shape e.1.val).variantName? e.2).toList
    else names
  | .remove k, names => if Schema.name k = key then [] else names
  | .clear, _ => []

end Change

/-- If the operation is not refused, every float that it writes is found again and the documents in
its objects are not nested too deep. -/
def Op.IsSane {S : Schema} (op : Op S) : Prop :=
  (∀ c ∈ op.changes, ∃ w, c.write? = some w) → ∀ c ∈ op.changes, ∀ x ∈ c.value?, x.1.Sane x.2

/-- The variants written to a key since it was last set, removed or cleared, after an operation. One
that fails writes none. -/
def Op.variants {S : Schema} (key : String) (op : Op S) (m : MemoryStore) (names : List String) :
    List String :=
  match (op.run m).answer with
  | .ok _ => op.changes.foldl (fun names c => c.variants key names) names
  | .error _ => names

/-- An operation of a facade of some schema. -/
abbrev Request : Type := (S : Schema) × Op S

namespace Request

/-- The store after some requests. -/
def afterAll {σ ε : Type} [RawStore σ ε] (requests : List Request) (store : σ) : σ :=
  requests.foldl (fun s r => (r.2.run s).store) store

/-- The variants written to a key since it was last set, removed or cleared, after some requests. -/
def variants (key : String) : List Request → MemoryStore → List String → List String
  | [], _, names => names
  | r :: rest, m, names => variants key rest (r.2.run m).store (r.2.variants key m names)

end Request

/-! ## Readable texts -/

namespace Shape

/-- The text can stand under a key of the shape to which these variants have been written. -/
def Holds : (s : Shape) → List String → String → Prop
  | .choice c, names, text => c.Accrued names text
  | .json, _, _ => True
  | s, _, text => ∃ v, s.Sane v ∧ Codec.Spells s v text

/-- The text, or the absence of one, can be found under a key of the shape to which these variants
have been written. -/
def Stores (s : Shape) (names : List String) : Option String → Prop
  | none => names = []
  | some text => s.Holds names text

/-- Texts of the shape stay readable. -/
def isSettled (composite : Bool) : Shape → Bool
  | .choice c => c.isDynamic && c.isPlain
  | .json => true
  | s => s.isSound && (!composite || s.keepsMerges)

/-- Apart from choices and documents a readable text is one of a value. -/
theorem sound_of_isSettled {s : Shape} {composite : Bool} (hs : s.isSettled composite = true)
    (hchoice : ∀ c, s ≠ .choice c) (hjson : s ≠ .json) :
    s.isSound = true ∧ (composite = true → s.keepsMerges = true) := by
  unfold isSettled at hs
  split at hs
  · next c => exact absurd rfl (hchoice c)
  · exact absurd rfl hjson
  · simp only [Bool.and_eq_true, Bool.or_eq_true, Bool.not_eq_true'] at hs
    refine ⟨hs.1, fun hcomposite => hs.2.resolve_left ?_⟩
    rw [hcomposite]
    nofun

theorem holds_encode {s : Shape} {v : s.Val} (hv : s.Sane v) {text : String}
    (h : Codec.encode s v = .ok text) : s.Holds (s.variantName? v).toList text := by
  cases s with
  | choice c => exact Choice.accrued_encode hv.floats h
  | json => exact trivial
  | _ => exact ⟨v, hv, Codec.spells_encode h⟩

theorem holds_merge {s : Shape} (hs : s.isSettled true = true) {w : s.Val} (hw : s.Sane w)
    {new : String} (hnew : Codec.encodeComposite s w = .ok new) {names : List String}
    {old : Option String} (hold : s.Stores names old) :
    s.Holds (names ++ (s.variantName? w).toList) (Codec.shallowMerge old new) := by
  cases old with
  | none =>
    obtain rfl : names = [] := hold
    exact holds_encode hw (Codec.encode_of_composite hnew)
  | some old =>
    have hkeeps := sound_of_isSettled hs
    cases s with
    | choice c =>
      obtain ⟨hd, hp⟩ := Bool.and_eq_true_iff.1 hs
      exact Choice.accrued_merge hd hp hold hw.floats hnew
    | json => exact trivial
    | _ =>
      obtain ⟨v, hv, hspells⟩ := hold
      exact ⟨_, hv.merged hw, Codec.spells_merge ((hkeeps nofun nofun).2 rfl) hv hw hspells hnew⟩

end Shape

/-! ## Reading -/

theorem Codec.exists_decode {s : Shape} (hs : s.isSound = true) {v : s.Val} (hv : s.Sane v)
    {text : String} (h : Spells s v text) : ∃ w, decode s text = .ok w := by
  by_cases ha : s.Ambiguous v
  · -- the text is read, though not as the value it was written for
    have hnull := (decode_ambiguous ha).1
    unfold Shape.Ambiguous at ha
    split at ha
    · obtain rfl := Except.ok.inj (hnull.symm.trans h)
      exact ⟨none, decode_null _⟩
    · obtain rfl := Except.ok.inj (hnull.symm.trans h)
      exact ⟨none, decode_null _⟩
    · exact ha.elim
  · exact ⟨v, decode_of_spells hs hv ha h⟩

namespace Shape

/-- Values of the shape are variants. -/
def isChoice : Shape → Bool
  | .choice _ => true
  | _ => false

/-- Two different variants that carry something have been written to a key of the shape. -/
def Mixes (s : Shape) (names : List String) : Prop := ∃ c, s = .choice c ∧ c.Mixes names

/-- A stored text is read unless different variants were merged into it. -/
theorem decode_holds {s : Shape} {composite : Bool} (hs : s.isSettled composite = true)
    {names : List String} {text : String} (h : s.Holds names text) :
    (s.Mixes names ∧ ∃ e, Codec.decode s text = .error e) ∨
      (¬ s.Mixes names ∧ ∃ v, Codec.decode s text = .ok v) := by
  have hsound := sound_of_isSettled hs
  cases s with
  | choice c =>
    obtain ⟨hd, hp⟩ := Bool.and_eq_true_iff.1 hs
    rcases c.decode_accrued hp h with ⟨hmixes, herror⟩ | ⟨hmixes, hok⟩
    · exact .inl ⟨⟨c, rfl, hmixes⟩, herror⟩
    · refine .inr ⟨?_, hok⟩
      rintro ⟨c', heq, hc⟩
      obtain rfl := Shape.choice.inj heq
      exact hmixes hc
  | json => exact .inr ⟨nofun, _, Codec.decode_document text⟩
  | _ =>
    obtain ⟨v, hv, hspells⟩ := h
    exact .inr ⟨nofun, Codec.exists_decode (hsound nofun nofun).1 hv hspells⟩

end Shape

/-- A read of a key fails exactly if different variants were merged into its entry. -/
theorem Op.answerGet_of_stores {S : Schema} {k : S.Key} {composite : Bool}
    (hk : (Schema.shape k).isSettled composite = true) {names : List String} {m : MemoryStore}
    (h : (Schema.shape k).Stores names (m.get (Schema.name k))) :
    ((Schema.shape k).Mixes names ∧ ∃ e, answerGet k m = .error (.decode (Schema.name k) e)) ∨
      (¬ (Schema.shape k).Mixes names ∧ ∃ v, answerGet k m = .ok v) := by
  rw [answerGet_eq]
  cases hget : m.get (Schema.name k) with
  | none =>
    -- nothing has been written since the entry was removed
    rw [hget] at h
    obtain rfl : names = [] := h
    refine .inr ⟨?_, none, rfl⟩
    rintro ⟨c, -, a, ha, -⟩
    cases ha
  | some text =>
    rw [hget] at h
    dsimp only
    rcases Shape.decode_holds hk h with ⟨hmixes, e, he⟩ | ⟨hmixes, v, hv⟩
    · exact .inl ⟨hmixes, e, by rw [Batch.decodeText, he]; rfl⟩
    · exact .inr ⟨hmixes, some v, by rw [Batch.decodeText, hv]; rfl⟩

/-! ## Changes -/

section Change

variable {S : Schema} {d : KeyDecl} {m : MemoryStore} {names : List String}

theorem Change.variants_of_ne {c : Change S} {k : S.Key} (hk : c.key? = some k) {key : String}
    (hne : Schema.name k ≠ key) : c.variants key names = names := by
  cases c with
  | put e =>
    cases hk
    exact if_neg hne
  | merge e =>
    cases hk
    exact if_neg hne
  | remove k' =>
    cases hk
    exact if_neg hne
  | clear => cases hk

theorem Change.stores_write_here {k : S.Key}
    (hk : (Schema.shape k).isSettled (Schema.decl k).composite = true) {c : Change S} {w : Write}
    (hkey : c.key? = some k) (hc : ∀ x ∈ c.value?, x.1.Sane x.2) (hw : c.write? = some w)
    (h : (Schema.shape k).Stores names (m.get (Schema.name k))) :
    (Schema.shape k).Stores (c.variants (Schema.name k) names)
      ((m.write w).get (Schema.name k)) := by
  cases c with
  | put e =>
    cases hkey
    obtain ⟨text, htext, rfl⟩ := write?_put_eq hw
    have hget : (m.write (.put (Schema.name e.1) text)).get (Schema.name e.1) = some text :=
      (m.get_set _ _ text).trans (if_pos rfl)
    rw [variants, if_pos rfl, hget]
    exact Shape.holds_encode (hc _ rfl) htext
  | merge e =>
    cases hkey
    obtain ⟨text, htext, rfl⟩ := write?_merge_eq hw
    have hget : (m.write (.merge (Schema.name e.1.val) text)).get (Schema.name e.1.val) =
        some (Codec.shallowMerge (m.get (Schema.name e.1.val)) text) :=
      (m.get_merge _ _ text).trans (if_pos rfl)
    rw [e.1.property] at hk
    rw [variants, if_pos rfl, hget]
    exact Shape.holds_merge hk (hc _ rfl) htext h
  | remove k' =>
    cases hkey
    cases hw
    have hget : (m.write (.remove (Schema.name k))).get (Schema.name k) = none :=
      (m.get_remove _ _).trans (if_pos rfl)
    rw [variants, if_pos rfl, hget]
    rfl
  | clear => cases hkey

/-- Every change keeps the entry of a key readable, whatever key it changes. -/
theorem KeyDecl.stores_write (hd : d.shape.isSettled d.composite = true)
    (hS : ∀ k : S.Key, Schema.name k = d.name → Schema.decl k = d) {c : Change S} {w : Write}
    (hc : ∀ x ∈ c.value?, x.1.Sane x.2) (hw : c.write? = some w)
    (h : d.shape.Stores names (m.get d.name)) :
    d.shape.Stores (c.variants d.name names) ((m.write w).get d.name) := by
  cases hkey : c.key? with
  | none =>
    obtain rfl := Change.eq_clear hkey
    cases hw
    exact rfl
  | some k =>
    by_cases hname : Schema.name k = d.name
    · obtain rfl := hS k hname
      exact Change.stores_write_here hd hkey hc hw h
    · rw [Change.variants_of_ne hkey hname, Change.get_write_of_ne hw hkey hname]
      exact h

end Change

/-! ## Runs -/

theorem KeyDecl.stores_run {S : Schema} {d : KeyDecl} (hd : d.shape.isSettled d.composite = true)
    (hS : ∀ k : S.Key, Schema.name k = d.name → Schema.decl k = d) {op : Op S} (hop : op.IsSane)
    {m : MemoryStore} {names : List String} (h : d.shape.Stores names (m.get d.name)) :
    d.shape.Stores (op.variants d.name m names) ((op.run m).store.get d.name) := by
  rw [Op.variants]
  rcases op.run_cases m with ⟨⟨f, hf⟩, hsame⟩ | ⟨⟨a, ha⟩, ws, hws, hrun⟩
  · rw [hf, hsame]
    exact h
  · have hsane := hop (Change.exists_write hws)
    rw [ha, hrun]
    exact Change.foldl_related (R := fun names m => d.shape.Stores names (m.get d.name)) hws
      (fun c hc w hw names m h => d.stores_write hd hS (hsane c hc) hw h) h

namespace Request

/-- A run keeps the entry of a key readable. -/
theorem stores_afterAll {d : KeyDecl} (hd : d.shape.isSettled d.composite = true)
    {requests : List Request}
    (h : ∀ r ∈ requests, (∀ k : r.1.Key, Schema.name k = d.name → Schema.decl k = d) ∧ r.2.IsSane)
    {m : MemoryStore} {names : List String} (hm : d.shape.Stores names (m.get d.name)) :
    d.shape.Stores (variants d.name requests m names) ((afterAll requests m).get d.name) := by
  induction requests generalizing m names with
  | nil => exact hm
  | cons r rest ih =>
    obtain ⟨hS, hr⟩ := h r List.mem_cons_self
    exact ih (fun r hr => h r (List.mem_cons_of_mem _ hr)) (d.stores_run hd hS hr hm)

end Request

/-! ## The catalog -/

namespace Catalog

theorem isSettled_decls : ∀ S ∈ schemas, ∀ d ∈ S.decls, d.shape.isSettled d.composite = true := by
  decide

theorem nodup_declared : ((schemas.flatMap (·.decls)).map (·.name)).Nodup :=
  keysAreUnique_iff_nodup.1 (by decide)

/-- A key of the catalog is declared once. -/
theorem decl_eq_of_name {S S' : Schema} (hS : S ∈ schemas) (hS' : S' ∈ schemas) {k : S.Key}
    {k' : S'.Key} (h : Schema.name k = Schema.name k') : Schema.decl k = Schema.decl k' :=
  List.inj_on_of_nodup_map nodup_declared
    (List.mem_flatMap.2 ⟨S, hS, List.get_mem S.decls k⟩)
    (List.mem_flatMap.2 ⟨S', hS', List.get_mem S'.decls k'⟩) h

/-- The variants of a figure that carry something. -/
def carryingFigures : List String := ["Circle", "Pair", "Rect"]

/-- Two different variants that carry something are among those of some figures. -/
def MixesFigures (names : List String) : Prop :=
  ∃ a ∈ names, ∃ b ∈ names, a ≠ b ∧ a ∈ carryingFigures ∧ b ∈ carryingFigures

theorem carries_figure (name : String) : figure.carries name = true ↔ name ∈ carryingFigures := by
  simp [Choice.carries, figure, carryingFigures, Payload.isUnit, eq_comm (a := name)]

theorem name_of_isChoice : ∀ S ∈ schemas, ∀ d ∈ S.decls,
    d.shape.isChoice = true → d.name = "figure" := by
  decide

/-- The key of figures. -/
def figureKey : extra.Key := ⟨9, by decide⟩

/-- Only figures are choices. -/
theorem mixes_iff {S : Schema} (hS : S ∈ schemas) (k : S.Key) (names : List String) :
    (Schema.shape k).Mixes names ↔ Schema.name k = "figure" ∧ MixesFigures names := by
  have hfigure : Schema.name k = "figure" → Schema.shape k = .choice figure := by
    intro hname
    have hkey : Schema.name k = Schema.name figureKey := hname
    have hextra : extra ∈ schemas := by simp [schemas]
    exact congrArg KeyDecl.shape (decl_eq_of_name hS hextra hkey)
  have hiff : figure.Mixes names ↔ MixesFigures names := by
    simp only [Choice.Mixes, carries_figure, MixesFigures]
  constructor
  · rintro ⟨c, hc, hmixes⟩
    have hchoice : (Schema.shape k).isChoice = true := by rw [hc]; rfl
    have hname := name_of_isChoice S hS (Schema.decl k) (List.get_mem S.decls k) hchoice
    obtain rfl := Shape.choice.inj (hc.symm.trans (hfigure hname))
    exact ⟨hname, hiff.1 hmixes⟩
  · rintro ⟨hname, hmixes⟩
    exact ⟨figure, hfigure hname, hiff.2 hmixes⟩

/-- Reads of the facades of the catalog, which share a store that was empty, after some requests to
any of them. A read never finds a text that is not of the shape of its key, except that a figure
cannot be read when different variants that carry something have been written to it since it was last
set, removed or cleared. -/
theorem answerGet_afterAll (requests : List Request)
    (h : ∀ r ∈ requests, r.1 ∈ schemas ∧ r.2.IsSane) {S : Schema} (hS : S ∈ schemas) (k : S.Key) :
    (Schema.name k ≠ "figure" →
      ∃ v, Op.answerGet k (Request.afterAll requests .empty) = .ok v) ∧
    (Schema.name k = "figure" →
      ((∃ e, Op.answerGet k (Request.afterAll requests .empty) = .error (.decode "figure" e)) ↔
        MixesFigures (Request.variants "figure" requests .empty []))) := by
  have hsettled := isSettled_decls S hS (Schema.decl k) (List.get_mem S.decls k)
  have hstart : (Schema.decl k).shape.Stores [] (MemoryStore.empty.get (Schema.decl k).name) := rfl
  have hstores := Request.stores_afterAll hsettled
    (fun r hr => ⟨fun k' hname => decl_eq_of_name (h r hr).1 hS hname, (h r hr).2⟩) hstart
  have hread := Op.answerGet_of_stores hsettled hstores
  have hname : (Schema.decl k).name = Schema.name k := rfl
  rw [mixes_iff hS, hname] at hread
  rcases hread with ⟨⟨hfigure, hmixes⟩, e, he⟩ | ⟨hmixes, v, hv⟩
  · rw [hfigure] at he hmixes
    exact ⟨fun hne => absurd hfigure hne, fun _ => iff_of_true ⟨e, he⟩ hmixes⟩
  · refine ⟨fun _ => ⟨v, hv⟩, fun hfigure => iff_of_false ?_ fun h => hmixes ?_⟩
    · rintro ⟨e, he⟩
      cases hv.symm.trans he
    · rw [hfigure]
      exact ⟨rfl, h⟩

/-- The key of figures, which may be merged. -/
def figureMergeKey : extra.MergeKey := ⟨figureKey, by decide⟩

/-- A pair. -/
def onePair : figure.Val := ⟨⟨2, by decide⟩, ⟨1, by decide⟩, ⟨2, by decide⟩, ()⟩

/-- A rectangle. -/
def oneRect : figure.Val := ⟨⟨3, by decide⟩, ⟨3, by decide⟩, ⟨4, by decide⟩, ()⟩

/-- A pair is stored, and a rectangle is merged into it. -/
def pairThenRect : List Request :=
  [⟨extra, .set figureKey onePair⟩, ⟨extra, .merge figureMergeKey oneRect⟩]

theorem isSane_pairThenRect : ∀ r ∈ pairThenRect, r.1 ∈ schemas ∧ r.2.IsSane := by
  have hextra : extra ∈ schemas := by simp [schemas]
  have hpair : (Shape.choice figure).Sane onePair := ⟨nofun, trivial⟩
  have hrect : (Shape.choice figure).Sane oneRect := ⟨nofun, trivial⟩
  refine List.forall_mem_cons.2 ⟨⟨hextra, fun _ => ?_⟩, List.forall_mem_singleton.2 ⟨hextra, fun _ => ?_⟩⟩
  · refine List.forall_mem_singleton.2 fun x hx => ?_
    cases hx
    exact hpair
  · refine List.forall_mem_singleton.2 fun x hx => ?_
    cases hx
    exact hrect

theorem answerGet_afterAll_pairThenRect :
    ∃ e, Op.answerGet figureKey (Request.afterAll pairThenRect .empty) =
      .error (.decode "figure" e) := by
  have hvariants : Request.variants "figure" pairThenRect .empty [] = ["Pair", "Rect"] := by
    decide +kernel
  refine ((answerGet_afterAll pairThenRect isSane_pairThenRect (by simp [schemas]) figureKey).2
    rfl).2 ?_
  rw [hvariants]
  exact ⟨"Pair", by simp, "Rect", by simp, by decide, by simp [carryingFigures],
    by simp [carryingFigures]⟩

end Catalog

end SchemaStore
