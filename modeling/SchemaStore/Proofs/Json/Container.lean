import Mathlib.Data.List.Forall2
import SchemaStore.Proofs.Json.Quoted
import SchemaStore.Proofs.Json.Text
import SchemaStore.Shape.Read

/-!
# Arrays and objects, written and read

What stands in a container is read back as soon as each member is: `items_listText` does this for
the items of an array, `entries_objectText` for the fields of an object. The fields are read into a
state, and `Folds` says which state some fields lead to; for a map that is the insertion of its
entries in order (`folds_mapEntry`).
-/

namespace SchemaStore.Container

open Token (Reads Ends)

/-! ## Arrays -/

section List

variable {α : Type} {item : List Char → Read α}

theorem nextItem_comma (cs : List Char) :
    nextItem false (',' :: cs) =
      match Text.skipBlanks cs with
      | [] => .error (.next .endInValue [])
      | ']' :: rest => .error (.next .trailingComma (']' :: rest))
      | rest => .ok (some rest) :=
  rfl

/-- Going to an item stops at its text, past the comma of a later one. -/
theorem nextItem_text (first : Bool) (j : Json) (rest : List Char) :
    nextItem first ((if first then j.text else ',' :: j.text) ++ rest) =
      .ok (some (j.text ++ rest)) := by
  obtain ⟨c, tail, htext, hc⟩ := j.text_head
  have hskip := j.skipBlanks_text rest
  have hclose := hc.ne_close.1
  rw [htext, List.cons_append] at hskip ⊢
  cases first with
  | true =>
    rw [if_pos rfl, List.cons_append]
    unfold nextItem
    rw [hskip]
    split
    · next h => cases h
    · next h =>
      cases h
      exact absurd rfl hclose
    · next h =>
      cases h
      rfl
  | false =>
    rw [if_neg (by decide), List.cons_append, List.cons_append, nextItem_comma, hskip]
    split
    · next h => cases h
    · next h =>
      cases h
      exact absurd rfl hclose
    · rfl

theorem nextItem_listText (first : Bool) (j : Json) (js : List Json) (rest : List Char) :
    nextItem first (Json.listText first (j :: js) ++ rest) =
      .ok (some (j.text ++ (Json.listText false js ++ rest))) := by
  rw [Json.listText_cons, List.append_assoc]
  exact nextItem_text first j _

/-- Items are read from their texts, each with the comma before it, as long as the loop may take one
step more than there are items. -/
theorem items_listText {js : List Json} {as : List α}
    (h : List.Forall₂ (fun j a => Reads item j.text a) js as) (n : Nat) (first : Bool)
    (rest : List Char) (hn : js.length < n) :
    items item n first (Json.listText first js ++ rest) = .ok (as, ']' :: rest) := by
  induction h generalizing n first with
  | nil =>
    obtain ⟨n, rfl⟩ := Nat.exists_eq_add_one_of_ne_zero (Nat.ne_of_gt hn)
    rfl
  | cons hj _ ih =>
    obtain ⟨n, rfl⟩ := Nat.exists_eq_add_one_of_ne_zero (Nat.ne_of_gt (Nat.zero_lt_of_lt hn))
    have hlater := ih n false (Nat.lt_of_succ_lt_succ hn)
    rw [items, nextItem_listText]
    dsimp only
    rw [hj _ (Json.ends_listText _ rest)]
    simp only [Read.andThen, hlater, Read.map]

/-- The items of an array are read back if each of them is. -/
theorem listOf_listText {js : List Json} {as : List α}
    (h : List.Forall₂ (fun j a => Reads item j.text a) js as) (rest : List Char) :
    listOf item (Json.listText true js ++ rest) = .ok (as, ']' :: rest) := by
  refine items_listText h _ true rest ?_
  have hlength := Json.length_lt_listText true js
  rw [List.length_append]
  omega

theorem exactly_listText {js : List Json} {as : List α}
    (h : List.Forall₂ (fun j a => Reads item j.text a) js as) (total : Nat) {n : Nat}
    (hn : as.length = n) (first : Bool) (rest : List Char) :
    exactly item total n first (Json.listText first js ++ rest) = .ok (⟨as, hn⟩, ']' :: rest) := by
  induction h generalizing n first with
  | nil =>
    subst hn
    rfl
  | cons hj _ ih =>
    subst hn
    have hlater := ih rfl false
    simp only [List.length_cons]
    rw [exactly, nextItem_listText]
    dsimp only
    rw [hj _ (Json.ends_listText _ rest)]
    simp only [Read.andThen, hlater, Read.map]

theorem member_listText {j : Json} {a : α} (h : Reads item j.text a) (n : Nat) (js : List Json)
    (rest : List Char) :
    member item n (Json.listText (n == 0) (j :: js) ++ rest) =
      .ok (a, Json.listText false js ++ rest) := by
  rw [member, nextItem_listText]
  exact h _ (Json.ends_listText js rest)

end List

/-! ## Objects -/

section Object

variable {σ : Type} {entry : σ → List Char → Read σ}

theorem nextKey_text (first : Bool) (name rest : List Char) :
    nextKey first ((if first then [] else [',']) ++ Json.stringText name ++ rest) =
      .ok (some (name.flatMap Json.escapedChar ++ '"' :: rest)) := by
  cases first with
  | true =>
    simp only [if_true, List.nil_append, Json.stringText, List.cons_append, List.append_assoc]
    rfl
  | false =>
    simp only [Bool.false_eq_true, if_false, Json.stringText, List.cons_append, List.append_assoc,
      List.nil_append]
    rfl

theorem colon_cons (rest : List Char) : colon (':' :: rest) = .ok rest := rfl

/-- A field as it stands after the opening quote of its name. -/
def fieldText (f : String × Json) : List Char :=
  f.1.toList.flatMap Json.escapedChar ++ '"' :: ':' :: f.2.text

theorem nextKey_objectText (first : Bool) (f : String × Json) (fs : List (String × Json))
    (rest : List Char) :
    nextKey first (Json.objectText first (f :: fs) ++ rest) =
      .ok (some (fieldText f ++ (Json.objectText false fs ++ rest))) := by
  obtain ⟨name, j⟩ := f
  have hkey := nextKey_text first name.toList (':' :: j.text ++ (Json.objectText false fs ++ rest))
  simp only [Json.objectText_cons, fieldText, List.append_assoc, List.cons_append] at hkey ⊢
  exact hkey

/-- Reading the fields leads from one state to another. -/
inductive Folds (entry : σ → List Char → Read σ) : σ → List (String × Json) → σ → Prop
  | nil (a : σ) : Folds entry a [] a
  | cons {a b c : σ} {f : String × Json} {fs : List (String × Json)}
    (head : Reads (entry a) (fieldText f) b) (tail : Folds entry b fs c) : Folds entry a (f :: fs) c

/-- The loop over the fields ends in the state that the fields lead to, one after another. -/
theorem entries_objectText {a b : σ} {fs : List (String × Json)} (h : Folds entry a fs b) (n : Nat)
    (first : Bool) (rest : List Char) (hn : fs.length < n) :
    entries entry n first a (Json.objectText first fs ++ rest) = .ok (b, '\x7d' :: rest) := by
  induction h generalizing n first with
  | nil =>
    obtain ⟨n, rfl⟩ := Nat.exists_eq_add_one_of_ne_zero (Nat.ne_of_gt hn)
    rfl
  | cons hf _ ih =>
    obtain ⟨n, rfl⟩ := Nat.exists_eq_add_one_of_ne_zero (Nat.ne_of_gt (Nat.zero_lt_of_lt hn))
    have hlater := ih n false (Nat.lt_of_succ_lt_succ hn)
    rw [entries, nextKey_objectText]
    dsimp only
    rw [hf _ (Json.ends_objectText _ rest)]
    exact hlater

theorem foldEntries_objectText {a b : σ} {fs : List (String × Json)} (h : Folds entry a fs b)
    (rest : List Char) :
    foldEntries entry a (Json.objectText true fs ++ rest) = .ok (b, '\x7d' :: rest) := by
  refine entries_objectText h _ true rest ?_
  have hlength := Json.length_lt_objectText true fs
  rw [List.length_append]
  omega

end Object

/-! ## Maps -/

section Map

variable {κ α : Type} [Ord κ] [Std.TransOrd κ] {key : List Char → Read κ}
  {value : List Char → Read α}

/-- The reader takes exactly the text of a name and its closing quote. -/
def ReadsKey (key : List Char → Read κ) (name : String) (k : κ) : Prop :=
  ∀ rest, key (name.toList.flatMap Json.escapedChar ++ '"' :: rest) = .ok (k, rest)

theorem mapEntry_fieldText {f : String × Json} {k : κ} {a : α} (hk : ReadsKey key f.1 k)
    (ha : Reads value f.2.text a) (m : SortedMap κ α) :
    Reads (mapEntry key value m) (fieldText f) (m.insert k a) := by
  intro rest hr
  have hkey := hk (':' :: f.2.text ++ rest)
  simp only [fieldText, List.append_assoc, List.cons_append] at hkey ⊢
  rw [mapEntry, hkey]
  simp only [Read.andThen, colon_cons]
  rw [ha rest hr]
  rfl

/-- Reading the fields of a map inserts their keys and values in order. -/
theorem folds_mapEntry {fs : List (String × Json)} {es : List (κ × α)}
    (h : List.Forall₂ (fun f e => ReadsKey key f.1 e.1 ∧ Reads value f.2.text e.2) fs es)
    (m : SortedMap κ α) : Folds (mapEntry key value) m fs (m.insertAll es) := by
  induction h generalizing m with
  | nil => exact .nil m
  | cons hf _ ih => exact .cons (mapEntry_fieldText hf.1 hf.2 m) (ih _)

end Map

/-! ## Brackets -/

section Enclosed

variable {α : Type} {contents : Nat → List Char → Read α} {a : α} {depth : Nat}

theorem enclose_closeList (rest : List Char) :
    enclose closeList (.ok (a, ']' :: rest)) = .ok (a, rest) := rfl

theorem enclose_closeObject (rest : List Char) :
    enclose closeObject (.ok (a, '\x7d' :: rest)) = .ok (a, rest) := rfl

/-- An array is read if what stands between its brackets is. The bracket takes one level of the
nesting that is left. -/
theorem reads_list {js : List Json} (expected : Expected)
    (h : ∀ rest, contents depth (Json.listText true js ++ rest) = .ok (a, ']' :: rest)) :
    Reads (list expected contents (depth + 1)) (Json.arr js).text a := by
  intro rest _
  rw [Json.text_arr, List.cons_append, list, Token.value_cons rfl, if_pos rfl]
  dsimp only
  rw [h, enclose_closeList]

theorem reads_object {fs : List (String × Json)} (expected : Expected)
    (h : ∀ rest, contents depth (Json.objectText true fs ++ rest) = .ok (a, '\x7d' :: rest)) :
    Reads (object expected contents (depth + 1)) (Json.obj fs).text a := by
  intro rest _
  rw [Json.text_obj, List.cons_append, object, Token.value_cons rfl, if_pos rfl]
  dsimp only
  rw [h, enclose_closeObject]

/-- An object is read by the reader for objects where a list may stand too. -/
theorem reads_either {fs : List (String × Json)} (expected : Expected)
    (ofList : Nat → List Char → Read α)
    (h : ∀ rest, contents depth (Json.objectText true fs ++ rest) = .ok (a, '\x7d' :: rest)) :
    Reads (either expected ofList contents (depth + 1)) (Json.obj fs).text a := by
  intro rest hr
  have hhead : ¬ (Text.skipBlanks ((Json.obj fs).text ++ rest)).head? = some '[' := by
    rw [Json.skipBlanks_text, Json.text_obj]
    intro h
    cases h
  rw [either, if_neg hhead]
  exact reads_object expected h rest hr

end Enclosed

end SchemaStore.Container
