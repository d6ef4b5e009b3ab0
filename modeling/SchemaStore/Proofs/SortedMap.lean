import SchemaStore.SortedMap

/-!
# Look-ups and entry lists of sorted maps

A sorted map is determined by its look-ups (`SortedMap.ext_find?`), so a statement about maps is
proved by following one key. `find?_insert`, `find?_erase` and `find?_union` follow it through the
operations. The other view is the entry list: inserting entries in ascending order rebuilds it
(`ofList_entries`), and a list with distinct keys is, up to its order, the entry list of its map
(`perm_ofList`).
-/

namespace SchemaStore.SortedMap

section Order

variable {α β : Type} [Ord α] [Std.TransOrd α]

/-! ## Looking up after a change -/

theorem lookup_insertEntry (k k' : α) (v : β) (entries : List (α × β)) :
    lookup k' (insertEntry k v entries) =
      if compare k' k = .eq then some v else lookup k' entries := by
  induction entries with
  | nil => rfl
  | cons e rest ih =>
    obtain ⟨a, b⟩ := e
    unfold insertEntry
    split
    · rfl
    · next hk =>
      have hcongr : compare k' k = compare k' a := Std.TransCmp.congr_right hk
      simp only [lookup, hcongr]
      split <;> rfl
    · next hk =>
      simp only [lookup, ih]
      by_cases ha : compare k' a = .eq
      · have hne : compare k' k ≠ .eq := by
          intro he
          have hka : compare k a = .eq := Std.TransCmp.eq_trans (Std.OrientedCmp.eq_symm he) ha
          rw [hk] at hka
          cases hka
        simp [ha, hne]
      · simp [ha]

/-- An insertion is seen under its own key only. -/
theorem find?_insert (m : SortedMap α β) (k k' : α) (v : β) :
    (m.insert k v).find? k' = if compare k' k = .eq then some v else m.find? k' :=
  lookup_insertEntry k k' v m.entries

theorem lookup_eraseEntry (k k' : α) (entries : List (α × β)) :
    lookup k' (eraseEntry k entries) =
      if compare k' k = .eq then none else lookup k' entries := by
  induction entries with
  | nil => simp [eraseEntry, lookup]
  | cons e rest ih =>
    obtain ⟨a, b⟩ := e
    unfold eraseEntry at ih ⊢
    by_cases ha : compare k a = .eq
    · have hcongr : compare k' k = compare k' a := Std.TransCmp.congr_right ha
      rw [List.filter_cons_of_neg (by simp [ha]), ih]
      simp only [lookup, hcongr]
      split <;> rfl
    · rw [List.filter_cons_of_pos (by simpa using ha)]
      simp only [lookup, ih]
      by_cases hk : compare k' a = .eq
      · have hne : compare k' k ≠ .eq := fun he =>
          ha (Std.TransCmp.eq_trans (Std.OrientedCmp.eq_symm he) hk)
        simp [hk, hne]
      · simp [hk]

theorem find?_erase (m : SortedMap α β) (k k' : α) :
    (m.erase k).find? k' = if compare k' k = .eq then none else m.find? k' :=
  lookup_eraseEntry k k' m.entries

omit [Std.TransOrd α] in
@[simp]
theorem find?_empty (k : α) : (empty : SortedMap α β).find? k = none := rfl

/-! ## Entry lists -/

omit [Std.TransOrd α] in
theorem insertEntry_append (k : α) (v : β) {entries : List (α × β)}
    (h : ∀ e ∈ entries, compare k e.1 = .gt) : insertEntry k v entries = entries ++ [(k, v)] := by
  induction entries with
  | nil => rfl
  | cons e rest ih =>
    have he := h e List.mem_cons_self
    have hrest := ih fun e' he' => h e' (List.mem_cons_of_mem _ he')
    simp only [insertEntry, he, hrest, List.cons_append]

theorem insertAll_cons (m : SortedMap α β) (e : α × β) (entries : List (α × β)) :
    m.insertAll (e :: entries) = (m.insert e.1 e.2).insertAll entries := rfl

/-- Ascending entries beyond all present ones are appended in their order. -/
theorem entries_insertAll {entries : List (α × β)} (h : Ascending entries) {m : SortedMap α β}
    (hm : ∀ e ∈ entries, ∀ e' ∈ m.entries, compare e.1 e'.1 = .gt) :
    (m.insertAll entries).entries = m.entries ++ entries := by
  induction entries generalizing m with
  | nil => simp [insertAll]
  | cons e rest ih =>
    obtain ⟨he, hrest⟩ := List.pairwise_cons.1 h
    have hins : (m.insert e.1 e.2).entries = m.entries ++ [e] :=
      insertEntry_append e.1 e.2 fun e' he' => hm e List.mem_cons_self e' he'
    rw [insertAll_cons, ih hrest, hins, List.append_assoc]
    · rfl
    · intro f hf e' he'
      rw [hins, List.mem_append, List.mem_singleton] at he'
      rcases he' with he' | rfl
      · exact hm f (List.mem_cons_of_mem _ hf) e' he'
      · exact Std.OrientedCmp.gt_of_lt (he f hf)

omit [Std.TransOrd α] in
theorem lookup_append (k : α) (es fs : List (α × β)) :
    lookup k (es ++ fs) = (lookup k es).or (lookup k fs) := by
  induction es with
  | nil => rfl
  | cons e rest ih =>
    simp only [List.cons_append, lookup]
    split
    · rfl
    · exact ih

/-- The value under a key after some insertions is the last one inserted there. -/
theorem find?_insertAll (m : SortedMap α β) (entries : List (α × β)) (k : α) :
    (m.insertAll entries).find? k = (lookup k entries.reverse).or (m.find? k) := by
  induction entries generalizing m with
  | nil => rfl
  | cons e rest ih =>
    rw [insertAll_cons, ih, List.reverse_cons, lookup_append, Option.or_assoc, find?_insert]
    simp only [lookup]
    split <;> simp

/-- No two entries have the same key. -/
def Distinct (entries : List (α × β)) : Prop :=
  entries.Pairwise fun e f => compare e.1 f.1 ≠ .eq

omit [Std.TransOrd α] in
theorem distinct_of_ascending {entries : List (α × β)} (h : Ascending entries) :
    Distinct entries :=
  h.imp fun hlt => by simp [hlt]

theorem nodup_keys (m : SortedMap α β) : m.keys.Nodup := by
  refine List.pairwise_map.2 (m.ascending.imp fun {e f} hlt heq => ?_)
  have hself : compare f.1 f.1 = .eq := Std.ReflCmp.compare_self
  rw [heq, hself] at hlt
  cases hlt

omit [Std.TransOrd α] in
theorem lookup_eq_none {k : α} {entries : List (α × β)}
    (h : ∀ e ∈ entries, compare k e.1 ≠ .eq) : lookup k entries = none := by
  induction entries with
  | nil => rfl
  | cons e rest ih =>
    rw [lookup, if_neg (h e List.mem_cons_self)]
    exact ih fun f hf => h f (List.mem_cons_of_mem _ hf)

/-- With distinct keys the direction of a look-up does not matter. -/
theorem lookup_reverse (k : α) {entries : List (α × β)} (h : Distinct entries) :
    lookup k entries.reverse = lookup k entries := by
  induction entries with
  | nil => rfl
  | cons e rest ih =>
    obtain ⟨he, hrest⟩ := List.pairwise_cons.1 h
    rw [List.reverse_cons, lookup_append, ih hrest]
    simp only [lookup]
    split
    · next hk =>
      have hnone : lookup k rest = none := by
        refine lookup_eq_none fun f hf hkf => he f hf ?_
        exact Std.TransCmp.eq_trans (Std.OrientedCmp.eq_symm hk) hkf
      rw [hnone]
      rfl
    · simp

theorem find?_ofList {entries : List (α × β)} (h : Distinct entries) (k : α) :
    (ofList entries).find? k = lookup k entries := by
  rw [ofList, find?_insertAll, lookup_reverse k h]
  simp

/-- The right-biased union looks into its second map first. -/
theorem find?_union (m n : SortedMap α β) (k : α) :
    (m.union n).find? k = (n.find? k).or (m.find? k) := by
  rw [union, find?_insertAll, lookup_reverse k (distinct_of_ascending n.ascending)]
  rfl

/-- Inserting the entries of a map in order rebuilds it. -/
@[simp]
theorem ofList_entries (m : SortedMap α β) : ofList m.entries = m :=
  SortedMap.ext (by rw [ofList, entries_insertAll m.ascending (by simp [empty])]; rfl)

/-! ## Entries in another order -/

omit [Std.TransOrd α] in
theorem perm_insertEntry {k : α} (v : β) {entries : List (α × β)}
    (h : ∀ e ∈ entries, compare k e.1 ≠ .eq) : (insertEntry k v entries).Perm ((k, v) :: entries) := by
  induction entries with
  | nil => exact .refl _
  | cons e rest ih =>
    obtain ⟨he, hrest⟩ := List.forall_mem_cons.1 h
    rw [insertEntry]
    split
    · exact .refl _
    · next heq => exact absurd heq he
    · exact ((ih hrest).cons e).trans (.swap _ _ rest)

/-- Inserting entries under new keys rearranges them, but neither loses nor changes one. -/
theorem perm_insertAll {entries : List (α × β)} {m : SortedMap α β}
    (h : Distinct (entries ++ m.entries)) : (m.insertAll entries).entries.Perm
      (entries ++ m.entries) := by
  induction entries generalizing m with
  | nil => exact .refl _
  | cons e rest ih =>
    obtain ⟨he, -⟩ := List.pairwise_cons.1 h
    have hinsert : (m.insert e.1 e.2).entries.Perm (e :: m.entries) :=
      perm_insertEntry e.2 fun f hf => he f (List.mem_append_right _ hf)
    have hmoved : (rest ++ (m.insert e.1 e.2).entries).Perm (e :: (rest ++ m.entries)) :=
      (hinsert.append_left rest).trans List.perm_middle
    refine (ih ?_).trans hmoved
    exact hmoved.symm.pairwise h fun hne heq => hne (Std.OrientedCmp.eq_symm heq)

/-- Entries with distinct keys are the entries of their map, up to the order. -/
theorem perm_ofList {entries : List (α × β)} (h : Distinct entries) :
    (ofList entries).entries.Perm entries := by
  have hperm := perm_insertAll (m := empty) (List.append_nil entries ▸ h)
  rwa [empty, List.append_nil] at hperm

/-- A map is that of its entries in whatever order. -/
theorem ofList_of_perm {entries : List (α × β)} {m : SortedMap α β} (h : entries.Perm m.entries) :
    ofList entries = m := by
  have hdistinct : Distinct entries := h.symm.pairwise (distinct_of_ascending m.ascending)
    fun hne heq => hne (Std.OrientedCmp.eq_symm heq)
  refine SortedMap.ext (((perm_ofList hdistinct).trans h).eq_of_pairwise ?_ (ofList entries).ascending
    m.ascending)
  intro e f _ _ hlt hgt
  exact absurd hgt (by rw [Std.OrientedCmp.gt_of_lt hlt]; nofun)

end Order

section Lawful

variable {α β : Type} [Ord α] [Std.TransOrd α] [Std.LawfulEqOrd α]

omit [Std.TransOrd α] [Std.LawfulEqOrd α] in
theorem lookup_of_lt {k : α} {es : List (α × β)} (h : ∀ e ∈ es, compare k e.1 = .lt) :
    lookup k es = none := by
  refine lookup_eq_none fun e he heq => ?_
  rw [h e he] at heq
  cases heq

/-- The first key of an ascending entry list is found in no list that begins above it. -/
theorem not_lt_of_lookup_eq {e f : α × β} {es fs : List (α × β)}
    (hf : ∀ x ∈ fs, compare f.1 x.1 = .lt) (h : ∀ k, lookup k (e :: es) = lookup k (f :: fs)) :
    compare e.1 f.1 ≠ .lt := by
  intro hlt
  have hk := h e.1
  have hnone := lookup_of_lt fun x hx => Std.TransCmp.lt_trans hlt (hf x hx)
  simp only [lookup, Std.ReflCmp.compare_self, if_true, hlt, reduceCtorEq, if_false, hnone] at hk

/-- Two ascending entry lists with the same look-ups are equal: their first keys are the least ones
that are found. -/
theorem eq_of_lookup_eq {es fs : List (α × β)} (hes : Ascending es) (hfs : Ascending fs)
    (h : ∀ k, lookup k es = lookup k fs) : es = fs := by
  induction es generalizing fs with
  | nil =>
    cases fs with
    | nil => rfl
    | cons f fs => simpa [lookup] using h f.1
  | cons e es ih =>
    cases fs with
    | nil => simpa [lookup] using h e.1
    | cons f fs =>
      obtain ⟨he, hes⟩ := List.pairwise_cons.1 hes
      obtain ⟨hf, hfs⟩ := List.pairwise_cons.1 hfs
      have hfirst : e.1 = f.1 := by
        cases hc : compare e.1 f.1 with
        | eq => exact Std.LawfulEqCmp.eq_of_compare hc
        | lt => exact absurd hc (not_lt_of_lookup_eq hf h)
        | gt =>
          have hlt := Std.OrientedCmp.lt_of_gt hc
          exact absurd hlt (not_lt_of_lookup_eq he fun k => (h k).symm)
      have hvalue : e.2 = f.2 := by
        have hk := h e.1
        simp only [lookup, Std.ReflCmp.compare_self, if_true, hfirst, Option.some.injEq] at hk
        exact hk
      have hrest : es = fs := by
        refine ih hes hfs fun k => ?_
        by_cases hk : k = e.1
        · -- the key of both first entries is not found again
          subst hk
          rw [lookup_of_lt he, lookup_of_lt (hfirst ▸ hf)]
        · have hlook := h k
          have hk' : k ≠ f.1 := hfirst ▸ hk
          simpa [lookup, hk, hk'] using hlook
      rw [hrest, Prod.ext hfirst hvalue]

omit [Std.TransOrd α] in
theorem lookup_filter (p : α → Bool) (k : α) (entries : List (α × β)) :
    lookup k (entries.filter fun e => p e.1) = if p k then lookup k entries else none := by
  induction entries with
  | nil => simp [lookup]
  | cons e rest ih =>
    by_cases hk : k = e.1
    · subst hk
      cases hp : p e.1 <;> simp [hp, ih, lookup]
    · have hrest : lookup k (e :: rest) = lookup k rest := by simp [lookup, hk]
      rw [hrest, ← ih, List.filter_cons]
      split
      · simp [lookup, hk]
      · rfl

/-- A map is determined by its look-ups. -/
theorem ext_find? {m n : SortedMap α β} (h : ∀ k, m.find? k = n.find? k) : m = n :=
  SortedMap.ext (eq_of_lookup_eq m.ascending n.ascending h)

theorem union_insert (m n : SortedMap α β) (k : α) (v : β) :
    m.union (n.insert k v) = (m.union n).insert k v := by
  refine ext_find? fun k' => ?_
  simp only [find?_union, find?_insert]
  split <;> simp

omit [Std.LawfulEqOrd α] in
theorem mem_entries_insert {m : SortedMap α β} {k : α} {v : β} {e : α × β}
    (h : e ∈ (m.insert k v).entries) : e = (k, v) ∨ e ∈ m.entries :=
  mem_insertEntry h

omit [Std.LawfulEqOrd α] in
theorem mem_entries_insertAll {es : List (α × β)} {m : SortedMap α β} {e : α × β}
    (h : e ∈ (m.insertAll es).entries) : e ∈ es ∨ e ∈ m.entries := by
  induction es generalizing m with
  | nil => exact .inr h
  | cons f es ih =>
    rcases ih h with h | h
    · exact .inl (List.mem_cons_of_mem _ h)
    · rcases mem_entries_insert h with rfl | h
      · exact .inl List.mem_cons_self
      · exact .inr h

omit [Std.LawfulEqOrd α] in
theorem mem_entries_ofList {es : List (α × β)} {e : α × β} (h : e ∈ (ofList es).entries) :
    e ∈ es :=
  (mem_entries_insertAll h).resolve_right List.not_mem_nil

omit [Std.LawfulEqOrd α] in
/-- A union has no entries but those of its parts. -/
theorem mem_entries_union {m n : SortedMap α β} {e : α × β} (h : e ∈ (m.union n).entries) :
    e ∈ m.entries ∨ e ∈ n.entries :=
  (mem_entries_insertAll h).symm

omit [Std.TransOrd α] in
theorem lookup_eq_some_iff {k : α} {v : β} {entries : List (α × β)} (h : Distinct entries) :
    lookup k entries = some v ↔ (k, v) ∈ entries := by
  induction entries with
  | nil => simp [lookup]
  | cons e rest ih =>
    obtain ⟨he, hrest⟩ := List.pairwise_cons.1 h
    obtain ⟨a, b⟩ := e
    simp only [lookup, List.mem_cons, Prod.mk.injEq]
    by_cases hk : k = a
    · subst hk
      rw [if_pos Std.ReflCmp.compare_self]
      constructor
      · rintro ⟨⟩
        exact .inl ⟨rfl, rfl⟩
      · rintro (⟨-, rfl⟩ | hmem)
        · rfl
        · exact absurd Std.ReflCmp.compare_self (he (k, v) hmem)
    · simp [hk, ih hrest]

omit [Std.TransOrd α] in
theorem find?_eq_none_iff {m : SortedMap α β} {k : α} : m.find? k = none ↔ k ∉ m.keys := by
  have hdistinct := distinct_of_ascending m.ascending
  rw [Option.eq_none_iff_forall_ne_some]
  constructor
  · intro h hk
    obtain ⟨e, he, rfl⟩ := List.mem_map.1 hk
    exact h e.2 ((lookup_eq_some_iff hdistinct).2 he)
  · intro h v hv
    exact h (List.mem_map_of_mem ((lookup_eq_some_iff hdistinct).1 hv))

omit [Std.TransOrd α] in
theorem distinct_of_nodup {es : List (α × β)} (h : (es.map (·.1)).Nodup) : Distinct es :=
  (List.pairwise_map.1 h).imp fun hne heq => hne (Std.LawfulEqCmp.eq_of_compare heq)

omit [Std.LawfulEqOrd α] in
theorem find?_foldl_erase {ks : List α} {m : SortedMap α β} {k : α}
    (h : k ∈ ks ∨ m.find? k = none) : (ks.foldl erase m).find? k = none := by
  induction ks generalizing m with
  | nil => exact h.resolve_left List.not_mem_nil
  | cons k' ks ih =>
    refine ih (h.elim (fun hk => ?_) fun hnone => .inr ?_)
    · rcases List.mem_cons.1 hk with rfl | hk
      · exact .inr (by rw [find?_erase, if_pos Std.ReflCmp.compare_self])
      · exact .inl hk
    · rw [find?_erase, hnone, ite_self]

/-- Erasing the keys of a map one after another leaves nothing. -/
theorem foldl_erase_keys (m : SortedMap α β) : m.keys.foldl erase m = empty := by
  refine ext_find? fun k => find?_foldl_erase ?_
  rw [find?_eq_none_iff]
  exact Classical.em (k ∈ m.keys)

/-! ## Unions -/

/-- In a union of three the last map with a value decides, wherever the brackets stand. -/
theorem union_assoc (m n p : SortedMap α β) : (m.union n).union p = m.union (n.union p) := by
  refine ext_find? fun k => ?_
  simp only [find?_union, Option.or_assoc]

/-- No key is in both maps. -/
def Disjoint (m n : SortedMap α β) : Prop := ∀ k ∈ m.keys, k ∉ n.keys

instance [DecidableEq α] (m n : SortedMap α β) : Decidable (m.Disjoint n) :=
  inferInstanceAs (Decidable (∀ k ∈ m.keys, k ∉ n.keys))

omit [Std.TransOrd α] [Std.LawfulEqOrd α] in
theorem Disjoint.symm {m n : SortedMap α β} (h : m.Disjoint n) : n.Disjoint m :=
  fun k hn hm => h k hm hn

/-- Without a common key, neither map of a union has precedence. -/
theorem Disjoint.union_comm {m n : SortedMap α β} (h : m.Disjoint n) : m.union n = n.union m := by
  refine ext_find? fun k => ?_
  rw [find?_union, find?_union]
  by_cases hk : k ∈ m.keys
  · rw [find?_eq_none_iff.2 (h k hk), Option.none_or, Option.or_none]
  · rw [find?_eq_none_iff.2 hk, Option.none_or, Option.or_none]

omit [Std.TransOrd α] in
/-- Lists with distinct keys and the same look-ups hold the same entries. -/
theorem perm_of_lookup_eq {es fs : List (α × β)} (hes : Distinct es) (hfs : Distinct fs)
    (h : ∀ k, lookup k es = lookup k fs) : es.Perm fs := by
  have nodup : ∀ {l : List (α × β)}, Distinct l → l.Nodup := by
    intro l hl
    refine hl.imp fun {a b} hne hab => hne ?_
    rw [hab]
    exact Std.ReflCmp.compare_self
  refine (List.perm_ext_iff_of_nodup (nodup hes) (nodup hfs)).2 fun e => ?_
  rw [← lookup_eq_some_iff hes, ← lookup_eq_some_iff hfs, h]

theorem lookup_perm {es fs : List (α × β)} (hes : Distinct es) (h : es.Perm fs) (k : α) :
    lookup k es = lookup k fs := by
  have hfs : Distinct fs := h.pairwise hes fun hne heq => hne (Std.OrientedCmp.eq_symm heq)
  refine Option.ext fun v => ?_
  rw [lookup_eq_some_iff hes, lookup_eq_some_iff hfs, h.mem_iff]

omit [Std.TransOrd α] in
theorem map_lookup_of_fixed {f : β → β} {es : List (α × β)} (hes : Distinct es)
    (h : ∀ e ∈ es, f e.2 = e.2) (k : α) : (lookup k es).map f = lookup k es := by
  cases hlookup : lookup k es with
  | none => rfl
  | some v => exact congrArg some (h _ ((lookup_eq_some_iff hes).1 hlookup))

end Lawful

section Embedding

/-! ## Maps under other names -/

variable {α β γ δ : Type} [Ord α] [Ord γ] {f : α → γ} {g : β → δ}
  (hf : ∀ a b, compare (f a) (f b) = compare a b)

include hf

/-- Names changed by an injection are found like the original ones. -/
theorem lookup_map (k : α) (entries : List (α × β)) :
    lookup (f k) (entries.map fun e => (f e.1, g e.2)) = (lookup k entries).map g := by
  induction entries with
  | nil => rfl
  | cons e rest ih =>
    simp only [List.map_cons, lookup, hf, ih]
    split <;> rfl

theorem insertEntry_map (k : α) (v : β) (entries : List (α × β)) :
    insertEntry (f k) (g v) (entries.map fun e => (f e.1, g e.2)) =
      (insertEntry k v entries).map fun e => (f e.1, g e.2) := by
  induction entries with
  | nil => rfl
  | cons e rest ih =>
    simp only [List.map_cons, insertEntry, hf, ih]
    split <;> rfl

theorem eraseEntry_map (k : α) (entries : List (α × β)) :
    eraseEntry (f k) (entries.map fun e => (f e.1, g e.2)) =
      (eraseEntry k entries).map fun e => (f e.1, g e.2) := by
  rw [eraseEntry, List.filter_map]
  simp only [Function.comp_def, hf]
  rfl

end Embedding

section Values

/-! ## Other values -/

variable {α β δ : Type} [Ord α] (g : β → δ)

/-- The map with other values under the same keys. -/
def mapValues (m : SortedMap α β) : SortedMap α δ where
  entries := m.entries.map fun e => (e.1, g e.2)
  ascending := by
    rw [Ascending, List.pairwise_map]
    exact m.ascending

theorem find?_mapValues (m : SortedMap α β) (k : α) :
    (m.mapValues g).find? k = (m.find? k).map g :=
  @lookup_map α β α δ _ _ id g (fun _ _ => rfl) k m.entries

theorem mapValues_union [Std.TransOrd α] [Std.LawfulEqOrd α] (m n : SortedMap α β) :
    (m.union n).mapValues g = (m.mapValues g).union (n.mapValues g) := by
  refine ext_find? fun k => ?_
  simp only [find?_mapValues, find?_union, Option.map_or]

theorem mapValues_eq_self {g : β → β} {m : SortedMap α β} (h : ∀ e ∈ m.entries, g e.2 = e.2) :
    m.mapValues g = m := by
  refine SortedMap.ext ?_
  have hself : ∀ e ∈ m.entries, (e.1, g e.2) = e := fun e he => Prod.ext rfl (h e he)
  exact (List.map_congr_left hself).trans (List.map_id _)

end Values

end SchemaStore.SortedMap
