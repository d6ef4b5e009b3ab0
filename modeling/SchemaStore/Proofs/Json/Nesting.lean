import SchemaStore.Proofs.Json.Document
import SchemaStore.Proofs.SortedMap

/-!
# Nesting

The reader counts down the containers that it may still open. So what it reads nests no deeper than
it was allowed to read (`Document.depth_le_of_read`), and with a greater allowance it reads the same
again (`Document.read_mono`). The text of a document that is nested too deep is therefore refused as
a whole (`Document.parse_text_of_deep`).
-/

namespace SchemaStore

namespace Container

theorem enclose_ok {α : Type} {close : List Char → List Char × Option Fault} {contents : Read α}
    {a : α} {rest : List Char} (h : enclose close contents = .ok (a, rest)) :
    ∃ tail, contents = .ok (a, tail) ∧ close tail = (rest, none) := by
  unfold enclose at h
  split at h
  · next b tail =>
    split at h
    · next hclose =>
      cases h
      exact ⟨tail, rfl, hclose⟩
    · cases h
  · cases h
  · cases h

section List

variable {α : Type} {item item' : List Char → Read α}

/-- One step of reading items that went well. -/
theorem items_succ_ok {n : Nat} {first : Bool} {cs rest : List Char} {as : List α}
    (h : items item (n + 1) first cs = .ok (as, rest)) :
    (nextItem first cs = .ok none ∧ as = [] ∧ rest = cs) ∨
      ∃ start a mid later, nextItem first cs = .ok (some start) ∧ item start = .ok (a, mid) ∧
        items item n false mid = .ok (later, rest) ∧ as = a :: later := by
  rw [items] at h
  split at h
  · cases h
  · next hnext =>
    cases h
    exact .inl ⟨hnext, rfl, rfl⟩
  · next start hnext =>
    obtain ⟨a, mid, hitem, hlater⟩ := Read.andThen_ok h
    obtain ⟨later, hrest, rfl⟩ := Read.map_ok hlater
    exact .inr ⟨start, a, mid, later, hnext, hitem, hrest, rfl⟩

theorem forall_items {P : α → Prop} (hitem : ∀ cs a rest, item cs = .ok (a, rest) → P a) {n : Nat}
    {first : Bool} {cs rest : List Char} {as : List α}
    (h : items item n first cs = .ok (as, rest)) : ∀ a ∈ as, P a := by
  induction n generalizing first cs as with
  | zero => cases h
  | succ n ih =>
    rcases items_succ_ok h with ⟨-, rfl, -⟩ | ⟨start, a, mid, later, -, ha, hlater, rfl⟩
    · nofun
    · exact List.forall_mem_cons.2 ⟨hitem start a mid ha, ih hlater⟩

/-- A reader of items that accepts more reads a list the same way. -/
theorem items_mono (hitem : ∀ cs a rest, item cs = .ok (a, rest) → item' cs = .ok (a, rest))
    {n : Nat} {first : Bool} {cs rest : List Char} {as : List α}
    (h : items item n first cs = .ok (as, rest)) : items item' n first cs = .ok (as, rest) := by
  induction n generalizing first cs as with
  | zero => cases h
  | succ n ih =>
    rcases items_succ_ok h with ⟨hnext, rfl, rfl⟩ | ⟨start, a, mid, later, hnext, ha, hlater, rfl⟩
    · rw [items, hnext]
    · rw [items, hnext]
      dsimp only
      rw [hitem start a mid ha]
      simp only [Read.andThen, ih hlater, Read.map]

end List

section Object

variable {σ : Type} {entry entry' : σ → List Char → Read σ}

/-- One step of reading entries that went well. -/
theorem entries_succ_ok {n : Nat} {first : Bool} {a b : σ} {cs rest : List Char}
    (h : entries entry (n + 1) first a cs = .ok (b, rest)) :
    (nextKey first cs = .ok none ∧ b = a ∧ rest = cs) ∨
      ∃ start c mid, nextKey first cs = .ok (some start) ∧ entry a start = .ok (c, mid) ∧
        entries entry n false c mid = .ok (b, rest) := by
  rw [entries] at h
  split at h
  · cases h
  · next hnext =>
    cases h
    exact .inl ⟨hnext, rfl, rfl⟩
  · next start hnext =>
    obtain ⟨c, mid, hentry, hlater⟩ := Read.andThen_ok h
    exact .inr ⟨start, c, mid, hnext, hentry, hlater⟩

theorem entries_invariant {P : σ → Prop}
    (hentry : ∀ a cs b rest, P a → entry a cs = .ok (b, rest) → P b) {n : Nat} {first : Bool}
    {a b : σ} {cs rest : List Char} (ha : P a) (h : entries entry n first a cs = .ok (b, rest)) :
    P b := by
  induction n generalizing first a cs with
  | zero => cases h
  | succ n ih =>
    rcases entries_succ_ok h with ⟨-, rfl, -⟩ | ⟨start, c, mid, -, hc, hlater⟩
    · exact ha
    · exact ih (hentry a start c mid ha hc) hlater

theorem entries_mono
    (hentry : ∀ a cs b rest, entry a cs = .ok (b, rest) → entry' a cs = .ok (b, rest)) {n : Nat}
    {first : Bool} {a b : σ} {cs rest : List Char}
    (h : entries entry n first a cs = .ok (b, rest)) :
    entries entry' n first a cs = .ok (b, rest) := by
  induction n generalizing first a cs with
  | zero => cases h
  | succ n ih =>
    rcases entries_succ_ok h with ⟨hnext, rfl, rfl⟩ | ⟨start, c, mid, hnext, hc, hlater⟩
    · rw [entries, hnext]
    · rw [entries, hnext]
      dsimp only
      rw [hentry a start c mid hc]
      exact ih hlater

end Object

section Map

variable {κ α : Type} [Ord κ] [Std.TransOrd κ] {key : List Char → Read κ}
  {value value' : List Char → Read α}

theorem mapEntry_ok {m m' : SortedMap κ α} {cs rest : List Char}
    (h : mapEntry key value m cs = .ok (m', rest)) :
    ∃ k mid start v, key cs = .ok (k, mid) ∧ colon mid = .ok start ∧ value start = .ok (v, rest) ∧
      m' = m.insert k v := by
  rw [mapEntry] at h
  obtain ⟨k, mid, hkey, h⟩ := Read.andThen_ok h
  split at h
  · cases h
  · next start hcolon =>
    obtain ⟨v, hvalue, rfl⟩ := Read.map_ok h
    exact ⟨k, mid, start, v, hkey, hcolon, hvalue, rfl⟩

theorem mapEntry_mono (hvalue : ∀ cs a rest, value cs = .ok (a, rest) → value' cs = .ok (a, rest))
    (m : SortedMap κ α) (cs : List Char) (m' : SortedMap κ α) (rest : List Char)
    (h : mapEntry key value m cs = .ok (m', rest)) : mapEntry key value' m cs = .ok (m', rest) := by
  obtain ⟨k, mid, start, v, hkey, hcolon, hv, rfl⟩ := mapEntry_ok h
  rw [mapEntry, hkey]
  simp only [Read.andThen, hcolon, hvalue start v rest hv, Read.map]

end Map

end Container

namespace Document

/-! ## What is read is not nested too deep -/

theorem depth_ofItems_le {n : Nat} {ds : List Document} (h : ∀ d ∈ ds, d.json.depth ≤ n) :
    (ofItems ds).json.depth ≤ n + 1 :=
  Json.depth_arr_le_iff.2 (List.forall_mem_map.2 h)

theorem depth_ofFields_le_iff {n : Nat} {fs : SortedMap String Document} :
    (ofFields fs).json.depth ≤ n + 1 ↔ ∀ f ∈ fs.entries, f.2.json.depth ≤ n :=
  Json.depth_obj_le_iff.trans List.forall_mem_map

/-- What is read nests no deeper than the allowance, which each bracket has lowered by one. -/
theorem depth_le_of_read {depth : Nat} {cs rest : List Char} {d : Document}
    (h : read depth cs = .ok (d, rest)) : d.json.depth ≤ depth := by
  induction depth generalizing cs rest d with
  | zero =>
    cases readBy_of_read h with
    | plain always flat => rw [flat]
    | text => exact Nat.le_refl 0
  | succ depth ih =>
    cases readBy_of_read h with
    | plain always flat =>
      rw [flat]
      exact Nat.zero_le _
    | text => exact Nat.zero_le _
    | items start body =>
      obtain ⟨tail, hitems, -⟩ := Container.enclose_ok body
      exact depth_ofItems_le (Container.forall_items (fun _ _ _ hd => ih hd) hitems)
    | fields start body =>
      obtain ⟨tail, hentries, -⟩ := Container.enclose_ok body
      refine depth_ofFields_le_iff.2 (Container.entries_invariant
        (P := fun fs => ∀ f ∈ fs.entries, f.2.json.depth ≤ depth) ?_ nofun hentries)
      intro fs cs fs' rest hfs hentry
      obtain ⟨k, mid, start, v, -, -, hv, rfl⟩ := Container.mapEntry_ok hentry
      intro f hf
      rcases SortedMap.mem_entries_insert hf with rfl | hf
      · exact ih hv
      · exact hfs f hf

/-! ## A greater allowance -/

/-- An allowance that was enough is still enough when it is raised, and the same is read. -/
theorem read_mono {n m : Nat} (hnm : n ≤ m) {cs rest : List Char} {d : Document}
    (h : read n cs = .ok (d, rest)) : read m cs = .ok (d, rest) := by
  induction n generalizing m cs rest d with
  | zero =>
    cases readBy_of_read h with
    | plain always => exact always m
    | text start body =>
      rw [read_of_flat start (by decide) (by decide) m 0]
      exact h
  | succ n ih =>
    obtain ⟨m, rfl⟩ := Nat.exists_eq_add_one_of_ne_zero (show m ≠ 0 by omega)
    have hread : ∀ cs d rest, read n cs = .ok (d, rest) → read m cs = .ok (d, rest) :=
      fun cs d rest => ih (Nat.le_of_succ_le_succ hnm)
    cases readBy_of_read h with
    | plain always => exact always (m + 1)
    | text start body =>
      rw [read_of_flat start (by decide) (by decide) (m + 1) (n + 1)]
      exact h
    | items start body =>
      obtain ⟨tail, hitems, hclose⟩ := Container.enclose_ok body
      have hitems' := Container.items_mono hread hitems
      rw [read_bracket_of_start start, Container.listOf, hitems']
      simp only [Container.enclose, hclose, Read.map]
    | fields start body =>
      obtain ⟨tail, hentries, hclose⟩ := Container.enclose_ok body
      have hentries' := Container.entries_mono (Container.mapEntry_mono hread) hentries
      rw [read_brace_of_start start, Container.foldEntries, hentries']
      simp only [Container.enclose, hclose, Read.map]

/-- Nothing is read from the text of a document that is nested too deep. -/
theorem parse_text_of_deep {d : Document} (hn : ∀ n ∈ d.json.numbers, n.ReadsBack)
    (hd : maxDepth < d.json.depth) (e : Document) : parse d.json.text ≠ .ok e := by
  intro h
  obtain ⟨rest, hread, -⟩ := Read.whole_ok h
  have hagain := reads_ofJson d.json d.json.depth hn (Nat.le_refl _) [] Token.ends_nil
  -- with an allowance that is great enough the document itself would be read
  rw [List.append_nil, ofJson_json, read_mono (Nat.le_of_lt hd) hread] at hagain
  cases hagain
  exact Nat.not_lt.2 (depth_le_of_read hread) hd

end Document

end SchemaStore
