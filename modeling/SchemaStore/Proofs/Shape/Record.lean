import SchemaStore.Proofs.Shape.Leaf

/-!
# Records, written and read

A record is read field by field into slots. `Slots.part names` holds the values of the fields of
those names, and reading the entry of a further name fills its slot (`Slots.reads_entry`). So the
fields are read back in whatever order they stand (`Fields.readNamed_objectText`): each of them once,
and a field that was left out as the absent value it was left out for.
-/

namespace SchemaStore

open Token (Reads)
open Container (Folds fieldText)

/-! ## Fields -/

namespace Field

/-- The float a field holds, if it holds one. -/
def floats : (f : Field) → f.Val → List AnyBinary
  | ⟨_, leaf, .required⟩, v => leaf.floats v
  | ⟨_, leaf, .omitted⟩, v => Option.elim v [] leaf.floats
  | ⟨_, leaf, .nullable⟩, v => Option.elim v [] leaf.floats

theorem name_of_toEntry? : ∀ {f : Field} {v : f.Val} {e : String × Json},
    f.toEntry? v = some e → e.1 = f.name
  | ⟨_, _, .required⟩, _, _, h => by cases h; rfl
  | ⟨_, _, .omitted⟩, v, _, h => by
    obtain ⟨w, -, rfl⟩ := Option.map_eq_some_iff.1 h
    rfl
  | ⟨_, _, .nullable⟩, _, _, h => by cases h; rfl

/-- A field that is left out stands for its value by its absence. -/
theorem absent?_of_toEntry? : ∀ {f : Field} {v : f.Val}, f.toEntry? v = none → f.absent? = some v
  | ⟨_, _, .required⟩, _, h => by cases h
  | ⟨_, _, .omitted⟩, _, h => by
    cases Option.map_eq_none_iff.1 h
    rfl
  | ⟨_, _, .nullable⟩, _, h => by cases h

theorem reads_toEntry? : ∀ {f : Field} {v : f.Val} {name : String} {j : Json} (depth : Nat),
    (∀ x ∈ f.floats v, x.2.ReadsBack) → f.toEntry? v = some (name, j) →
    Reads (f.read depth) j.text v
  | ⟨_, leaf, .required⟩, v, _, _, depth, hx, h => by
    cases h
    exact leaf.reads_toJson v depth hx
  | ⟨_, leaf, .omitted⟩, v, _, _, depth, hx, h => by
    obtain ⟨w, rfl, hw⟩ := Option.map_eq_some_iff.1 h
    cases hw
    exact Token.reads_some (leaf.toJson_ne_null w hx) (leaf.reads_toJson w depth hx)
  | ⟨_, leaf, .nullable⟩, none, _, _, depth, _, h => by
    cases h
    exact Token.reads_none (leaf.read depth)
  | ⟨_, leaf, .nullable⟩, some w, _, _, depth, hx, h => by
    cases h
    exact Token.reads_some (leaf.toJson_ne_null w hx) (leaf.reads_toJson w depth hx)

theorem depth_toEntry? : ∀ {f : Field} {v : f.Val} {e : String × Json},
    f.toEntry? v = some e → e.2.depth = 0
  | ⟨_, leaf, .required⟩, v, _, h => by
    cases h
    exact leaf.depth_toJson v
  | ⟨_, leaf, .omitted⟩, v, _, h => by
    obtain ⟨w, -, rfl⟩ := Option.map_eq_some_iff.1 h
    exact leaf.depth_toJson w
  | ⟨_, _, .nullable⟩, none, _, h => by cases h; rfl
  | ⟨_, leaf, .nullable⟩, some w, _, h => by
    cases h
    exact leaf.depth_toJson w

theorem of_toEntry? : ∀ {f : Field} {v : f.Val} {e : String × Json}, f.leaf.isDynamic = true →
    f.toEntry? v = some e → e.2.Canonical ∧
      ((∀ x ∈ f.floats v, x.2.ReadsBack) → ∀ n ∈ e.2.numbers, n.ReadsBack)
  | ⟨_, leaf, .required⟩, v, _, hl, h => by
    cases h
    exact ⟨Leaf.canonical_toJson hl v, Leaf.readsBack_toJson hl⟩
  | ⟨_, leaf, .omitted⟩, v, _, hl, h => by
    obtain ⟨w, rfl, rfl⟩ := Option.map_eq_some_iff.1 h
    exact ⟨Leaf.canonical_toJson hl w, Leaf.readsBack_toJson hl⟩
  | ⟨_, leaf, .nullable⟩, none, _, _, h => by
    cases h
    exact ⟨trivial, fun _ => nofun⟩
  | ⟨_, leaf, .nullable⟩, some w, _, hl, h => by
    cases h
    exact ⟨Leaf.canonical_toJson hl w, Leaf.readsBack_toJson hl⟩

end Field

namespace Fields

/-- The floats of some fields. -/
def floats : (fs : List Field) → Vals fs → List AnyBinary
  | [], _ => []
  | f :: rest, (v, vs) => f.floats v ++ floats rest vs

/-- The names of the written fields are among the names of all fields, in the same order. -/
theorem sublist_names : ∀ (fs : List Field) (vs : Vals fs),
    ((toEntries fs vs).map (·.1)).Sublist (fs.map (·.name))
  | [], _ => .slnil
  | f :: rest, (v, vs) => by
    rw [toEntries, List.map_append, List.map_cons]
    cases he : f.toEntry? v with
    | none => exact (sublist_names rest vs).cons f.name
    | some e =>
      rw [← Field.name_of_toEntry? he]
      exact (sublist_names rest vs).cons_cons e.1

theorem nodup_toEntries {fs : List Field} (h : (fs.map (·.name)).Nodup) (vs : Vals fs) :
    ((toEntries fs vs).map (·.1)).Nodup :=
  h.sublist (sublist_names fs vs)

theorem mem_toEntries_cons {f : Field} {rest : List Field} {v : f.Val} {vs : Vals rest}
    {e : String × Json} :
    e ∈ toEntries (f :: rest) (v, vs) ↔ f.toEntry? v = some e ∨ e ∈ toEntries rest vs := by
  rw [toEntries, List.mem_append, Option.mem_toList]

theorem depth_toEntries : ∀ (fs : List Field) (vs : Vals fs), ∀ e ∈ toEntries fs vs, e.2.depth = 0
  | [], _ => by simp [toEntries]
  | f :: rest, (v, vs) => by
    intro e he
    rcases mem_toEntries_cons.1 he with he | he
    · exact Field.depth_toEntry? he
    · exact depth_toEntries rest vs e he

/-- A reader with no declared type finds all the values. -/
def areDynamic (fs : List Field) : Bool := fs.all fun f => f.leaf.isDynamic

/-- The fields of a record of dynamic leaves can be read without a declared type. -/
theorem of_mem_toEntries : ∀ {fs : List Field} {vs : Vals fs} {e : String × Json},
    areDynamic fs = true → e ∈ toEntries fs vs → e.2.Canonical ∧
      ((∀ x ∈ floats fs vs, x.2.ReadsBack) → ∀ n ∈ e.2.numbers, n.ReadsBack)
  | f :: rest, (v, vs), e, hd, he => by
    simp only [areDynamic, List.all_cons, Bool.and_eq_true] at hd
    rw [floats]
    rcases mem_toEntries_cons.1 he with he | he
    · obtain ⟨hcanonical, hnumbers⟩ := Field.of_toEntry? hd.1 he
      exact ⟨hcanonical, fun hx => hnumbers fun x hm => hx x (List.mem_append_left _ hm)⟩
    · obtain ⟨hcanonical, hnumbers⟩ := of_mem_toEntries hd.2 he
      exact ⟨hcanonical, fun hx => hnumbers fun x hm => hx x (List.mem_append_right _ hm)⟩

theorem readsBack_of_perm {fs : List Field} {vs : Vals fs} {es : List (String × Json)}
    (hd : areDynamic fs = true) (hx : ∀ x ∈ floats fs vs, x.2.ReadsBack)
    (hes : es.Perm (toEntries fs vs)) : ∀ n ∈ (Json.obj es).numbers, n.ReadsBack := by
  intro n hn
  rw [Json.numbers, Json.mem_numbersFields] at hn
  obtain ⟨e, he, hn⟩ := hn
  exact (of_mem_toEntries hd (hes.mem_iff.1 he)).2 hx n hn

end Fields

/-! ## Slots -/

namespace Slots

/-- The slots after the fields of some names have been read. -/
def part (names : List String) : (fs : List Field) → Fields.Vals fs → Slots fs
  | [], _ => ()
  | f :: rest, (v, vs) => (if f.name ∈ names then some v else none, part names rest vs)

theorem part_nil : ∀ (fs : List Field) (vs : Fields.Vals fs), part [] fs vs = empty fs
  | [], _ => rfl
  | f :: rest, (v, vs) => by
    rw [part, part_nil rest vs, if_neg List.not_mem_nil]
    rfl

theorem part_cons_of_not_mem {name : String} {names : List String} :
    ∀ {fs : List Field} (vs : Fields.Vals fs), name ∉ fs.map (·.name) →
    part (name :: names) fs vs = part names fs vs
  | [], _, _ => rfl
  | f :: rest, (v, vs), h => by
    obtain ⟨hf, hrest⟩ := not_or.1 (mt List.mem_cons.2 h)
    have hmem : f.name ∈ name :: names ↔ f.name ∈ names := by
      simp [Ne.symm hf]
    simp only [part, hmem, part_cons_of_not_mem vs hrest]
    rfl

/-- When every written field has been read, the slots hold the values of all fields. -/
theorem finish_part {names : List String} : ∀ {fs : List Field} (vs : Fields.Vals fs),
    (∀ e ∈ Fields.toEntries fs vs, e.1 ∈ names) → finish fs (part names fs vs) = .ok vs
  | [], _, _ => rfl
  | f :: rest, (v, vs), h => by
    have hrest := finish_part vs fun e he => h e (Fields.mem_toEntries_cons.2 (.inr he))
    have hslot : ((if f.name ∈ names then some v else none) <|> f.absent?) = some v := by
      split
      · rfl
      · next hname =>
        cases he : f.toEntry? v with
        | none => exact Field.absent?_of_toEntry? he
        | some e =>
          have hin := h e (Fields.mem_toEntries_cons.2 (.inl he))
          rw [Field.name_of_toEntry? he] at hin
          exact absurd hin hname
    rw [part, finish, hslot]
    simp only [hrest]
    rfl

theorem fill_here {name : String} {depth : Nat} {cs rest : List Char} {f : Field}
    {others : List Field} (slots : Slots (f :: others)) (hname : f.name = name)
    (hslot : slots.1 = none) (hcolon : Container.colon cs = .ok rest) :
    fill name depth cs (f :: others) slots =
      some ((f.read depth rest).map fun v => (some v, slots.2)) := by
  obtain ⟨slot, slots⟩ := slots
  cases hslot
  refine (if_pos hname).trans ?_
  rw [hcolon]
  rfl

theorem fill_later {name : String} {depth : Nat} {cs : List Char} {f : Field}
    {others : List Field} (slots : Slots (f :: others)) (hname : f.name ≠ name) :
    fill name depth cs (f :: others) slots =
      (fill name depth cs others slots.2).map fun r => r.map fun tail => (slots.1, tail) := by
  obtain ⟨slot, slots⟩ := slots
  exact if_neg hname

/-- The value of a further field goes into its slot. -/
theorem fill_part {name : String} {names : List String} {j : Json} {rest : List Char} (depth : Nat)
    (hr : Token.Ends rest) (hnew : name ∉ names) : ∀ {fs : List Field} (vs : Fields.Vals fs),
    (fs.map (·.name)).Nodup → (∀ x ∈ Fields.floats fs vs, x.2.ReadsBack) →
    (name, j) ∈ Fields.toEntries fs vs →
    fill name depth (':' :: j.text ++ rest) fs (part names fs vs) =
      some (.ok (part (name :: names) fs vs, rest))
  | [], _, _, _, h => by cases h
  | f :: others, (v, vs), hnodup, hx, h => by
    obtain ⟨hf, hothers⟩ := List.nodup_cons.1 hnodup
    rw [Fields.floats] at hx
    by_cases hname : f.name = name
    · -- the slot is still empty, since names are not repeated
      subst hname
      have hentry : f.toEntry? v = some (f.name, j) := by
        rcases Fields.mem_toEntries_cons.1 h with h | h
        · exact h
        · exact absurd ((Fields.sublist_names others vs).subset (List.mem_map_of_mem h)) hf
      have hread := Field.reads_toEntry? depth
        (fun x hm => hx x (List.mem_append_left _ hm)) hentry rest hr
      have hslot : (if f.name ∈ names then some v else none) = none := if_neg hnew
      have hfilled : part (f.name :: names) (f :: others) (v, vs) = (some v, part names others vs) :=
        Prod.ext (if_pos List.mem_cons_self) (part_cons_of_not_mem vs hf)
      refine (fill_here _ rfl hslot (Container.colon_cons (j.text ++ rest))).trans ?_
      rw [hread, hfilled]
      rfl
    · have hentry : (name, j) ∈ Fields.toEntries others vs := by
        rcases Fields.mem_toEntries_cons.1 h with h | h
        · exact absurd (Field.name_of_toEntry? h).symm hname
        · exact h
      have hmem : f.name ∈ name :: names ↔ f.name ∈ names := by
        simp [hname]
      have hfill := fill_part depth hr hnew vs hothers
        (fun x hm => hx x (List.mem_append_right _ hm)) hentry
      refine (fill_later _ hname).trans ?_
      simp only [part, hmem]
      rw [hfill]
      rfl

section Entries

variable {fs : List Field} {vs : Fields.Vals fs} (hnodup : (fs.map (·.name)).Nodup)
  (hx : ∀ x ∈ Fields.floats fs vs, x.2.ReadsBack) (depth : Nat)

include hnodup hx

/-- An entry is read into the slot of its field, and leaves the other slots as they were. -/
theorem reads_entry {names : List String} {e : String × Json} (hnew : e.1 ∉ names)
    (h : e ∈ Fields.toEntries fs vs) :
    Reads (entry fs depth (part names fs vs)) (fieldText e) (part (e.1 :: names) fs vs) := by
  intro rest hr
  have hkey := Token.string_escaped e.1 (':' :: e.2.text ++ rest)
  have hfill := fill_part depth hr hnew vs hnodup hx h
  simp only [fieldText, List.append_assoc, List.cons_append] at hkey hfill ⊢
  rw [entry, hkey]
  simp only [Read.andThen, hfill]

/-- Some entries fill the slots of their names, in whatever order they stand. -/
theorem folds_part : ∀ {es : List (String × Json)} {names : List String},
    (∀ e ∈ es, e ∈ Fields.toEntries fs vs) → (es.map (·.1)).Nodup → (∀ e ∈ es, e.1 ∉ names) →
    Folds (entry fs depth) (part names fs vs) es (part ((es.map (·.1)).reverse ++ names) fs vs)
  | [], _, _, _, _ => .nil _
  | e :: es, names, h, hdistinct, hnew => by
    obtain ⟨he, hes⟩ := List.nodup_cons.1 hdistinct
    have hhead := reads_entry hnodup hx depth (hnew e List.mem_cons_self) (h e List.mem_cons_self)
    have hlater : ∀ e' ∈ es, e'.1 ∉ e.1 :: names := by
      intro e' he' hmem
      rcases List.mem_cons.1 hmem with heq | hmem
      · have hin : e'.1 ∈ es.map (·.1) := List.mem_map_of_mem he'
        rw [heq] at hin
        exact he hin
      · exact hnew e' (List.mem_cons_of_mem _ he') hmem
    have htail := folds_part (fun e' he' => h e' (List.mem_cons_of_mem _ he')) hes hlater
    rw [List.map_cons, List.reverse_cons, List.append_assoc]
    exact .cons hhead htail

end Entries

end Slots

/-! ## Whole records -/

namespace Fields

section Read

variable {fs : List Field} {vs : Vals fs} {es : List (String × Json)}
  (hnodup : (fs.map (·.name)).Nodup) (hx : ∀ x ∈ floats fs vs, x.2.ReadsBack)
  (hes : es.Perm (toEntries fs vs))

include hnodup hx hes

/-- The fields of a record are read back in whatever order they stand. -/
theorem readNamed_objectText (depth : Nat) (rest : List Char) :
    readNamed fs depth (Json.objectText true es ++ rest) = .ok (vs, '\x7d' :: rest) := by
  have hnames : (es.map (·.1)).Nodup := (hes.map _).nodup_iff.2 (nodup_toEntries hnodup vs)
  have hfolds := @Slots.folds_part fs vs hnodup hx depth es [] (fun e he => hes.mem_iff.1 he) hnames
    (fun _ _ => List.not_mem_nil)
  rw [Slots.part_nil] at hfolds
  have hfinish : Slots.finish fs (Slots.part ((es.map (·.1)).reverse ++ []) fs vs) = .ok vs := by
    refine Slots.finish_part vs fun e he => ?_
    rw [List.append_nil, List.mem_reverse]
    exact List.mem_map_of_mem (hes.mem_iff.2 he)
  rw [readNamed, Container.foldEntries_objectText hfolds]
  simp only [Read.check, hfinish]

theorem reads_fields (whole filled : Expected) (depth : Nat) :
    Reads (read whole filled fs (depth + 1)) (Json.obj es).text vs :=
  Container.reads_either whole _ (readNamed_objectText hnodup hx hes depth)

end Read

end Fields

end SchemaStore
