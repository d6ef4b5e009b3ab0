/-!
# Maps in key order

A `SortedMap` is the list of its entries with strictly ascending keys, so a map has exactly one
representation and its enumeration order is part of the value. Every ordered thing of the library
is one: the contents of a store, the fields of a JSON object, the maps and sets a key may hold.
`insert`, `erase` and `find?` walk the list; the lemmas say what they do to look-ups.
-/

namespace SchemaStore

/-- The keys of an entry list strictly ascend. -/
def Ascending {α β : Type} [Ord α] (entries : List (α × β)) : Prop :=
  entries.Pairwise fun a b => compare a.1 b.1 = .lt

/-- A finite map, held as its entries in strictly ascending key order. -/
structure SortedMap (α β : Type) [Ord α] where
  entries : List (α × β)
  ascending : Ascending entries

namespace SortedMap

section Lists

variable {α β : Type} [Ord α]

/-- The value under `k`, stopping at the first entry with that key. -/
def lookup (k : α) : List (α × β) → Option β
  | [] => none
  | (a, b) :: rest => if compare k a = .eq then some b else lookup k rest

/-- Put `(k, v)` at its place, replacing the entry of an equal key. -/
def insertEntry (k : α) (v : β) : List (α × β) → List (α × β)
  | [] => [(k, v)]
  | (a, b) :: rest =>
    match compare k a with
    | .lt => (k, v) :: (a, b) :: rest
    | .eq => (k, v) :: rest
    | .gt => (a, b) :: insertEntry k v rest

/-- Drop the entries under `k`. -/
def eraseEntry (k : α) (entries : List (α × β)) : List (α × β) :=
  entries.filter fun e => compare k e.1 != .eq

theorem mem_insertEntry {k : α} {v : β} {e : α × β} :
    ∀ {entries : List (α × β)}, e ∈ insertEntry k v entries → e = (k, v) ∨ e ∈ entries
  | [], h => by simpa [insertEntry] using h
  | (a, b) :: rest, h => by
    unfold insertEntry at h
    split at h
    · simpa using h
    · rcases List.mem_cons.1 h with h | h
      · exact .inl h
      · exact .inr (List.mem_cons_of_mem _ h)
    · rcases List.mem_cons.1 h with h | h
      · exact .inr (h ▸ List.mem_cons_self)
      · rcases mem_insertEntry h with h | h
        · exact .inl h
        · exact .inr (List.mem_cons_of_mem _ h)

theorem ascending_insertEntry [Std.TransOrd α] {k : α} {v : β} :
    ∀ {entries : List (α × β)}, Ascending entries → Ascending (insertEntry k v entries)
  | [], _ => by simp [insertEntry, Ascending]
  | (a, b) :: rest, h => by
    obtain ⟨ha, hr⟩ := List.pairwise_cons.1 h
    unfold insertEntry
    split
    · next hk =>
      refine List.pairwise_cons.2 ⟨fun e he => ?_, h⟩
      rcases List.mem_cons.1 he with rfl | he
      · exact hk
      · exact Std.TransCmp.lt_trans hk (ha e he)
    · next hk =>
      refine List.pairwise_cons.2 ⟨fun e he => ?_, hr⟩
      exact Std.TransCmp.lt_of_eq_of_lt hk (ha e he)
    · next hk =>
      refine List.pairwise_cons.2 ⟨fun e he => ?_, ascending_insertEntry hr⟩
      rcases mem_insertEntry he with rfl | he
      · exact Std.OrientedCmp.lt_of_gt hk
      · exact ha e he

theorem ascending_eraseEntry {k : α} {entries : List (α × β)} (h : Ascending entries) :
    Ascending (eraseEntry k entries) :=
  List.Pairwise.filter _ h

end Lists

section Basic

variable {α β : Type} [Ord α]

/-- The map without entries. -/
def empty : SortedMap α β := ⟨[], List.Pairwise.nil⟩

/-- The value stored under `k`. -/
def find? (m : SortedMap α β) (k : α) : Option β := lookup k m.entries

/-- The map with `v` under `k`, whatever was there. -/
def insert [Std.TransOrd α] (m : SortedMap α β) (k : α) (v : β) : SortedMap α β :=
  ⟨insertEntry k v m.entries, ascending_insertEntry m.ascending⟩

/-- The map without `k`. -/
def erase (m : SortedMap α β) (k : α) : SortedMap α β :=
  ⟨eraseEntry k m.entries, ascending_eraseEntry m.ascending⟩

/-- Insert entries one after another: a later entry replaces an earlier one of the same key. -/
def insertAll [Std.TransOrd α] (m : SortedMap α β) (entries : List (α × β)) : SortedMap α β :=
  entries.foldl (fun m e => m.insert e.1 e.2) m

/-- The map of a list of entries, in which the last entry of a key counts. -/
def ofList [Std.TransOrd α] (entries : List (α × β)) : SortedMap α β := empty.insertAll entries

/-- The right-biased union: every entry of `n`, and those of `m` under other keys. -/
def union [Std.TransOrd α] (m n : SortedMap α β) : SortedMap α β := m.insertAll n.entries

/-- Keys in ascending order. -/
def keys (m : SortedMap α β) : List α := m.entries.map (·.1)

/-- The number of entries. -/
def size (m : SortedMap α β) : Nat := m.entries.length

/-- Whether there is no entry. -/
def isEmpty (m : SortedMap α β) : Bool := m.entries.isEmpty

theorem ext {m n : SortedMap α β} (h : m.entries = n.entries) : m = n := by
  cases m; cases n; cases h; rfl

end Basic

end SortedMap

/-- A finite set, held as its elements in strictly ascending order. -/
abbrev SortedSet (α : Type) [Ord α] := SortedMap α Unit

end SchemaStore
