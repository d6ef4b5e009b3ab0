import Mathlib.Data.List.Nodup
import SchemaStore.Schema
import SchemaStore.Proofs.Text.Utf8

/-!
# Distinct keys

A list of names is accepted as the keys of a schema if no name is found again among those after it.
Names are compared by their bytes, and `sameBytes` tells lists of bytes apart also where one is the
start of the other. Since no two texts have the same bytes, the check accepts exactly the lists
without a repetition (`keysAreUnique_iff_nodup`), wherever the two positions are
(`keysAreUnique_iff_positions`), and so a key of a schema is determined by its name.
-/

namespace SchemaStore

/-! ## Comparing names -/

theorem sameBytes_iff {bs cs : Bytes} : sameBytes bs cs = true ↔ bs = cs := by
  induction bs generalizing cs with
  | nil =>
    cases cs with
    | nil => exact iff_of_true rfl rfl
    | cons c cs => exact iff_of_false nofun nofun
  | cons b bs ih =>
    cases cs with
    | nil => exact iff_of_false nofun nofun
    | cons c cs => rw [sameBytes, Bool.and_eq_true, beq_iff_eq, ih, List.cons.injEq]

/-- Names are the same if their bytes are, as the encoding is injective. -/
theorem sameName_iff {name other : String} : sameName name other = true ↔ name = other := by
  rw [sameName, sameBytes_iff, Utf8.encode_injective.eq_iff]

/-! ## Comparing all of them -/

theorem any_sameName_iff {name : String} {names : List String} :
    names.any (sameName name) = true ↔ name ∈ names := by
  simp only [List.any_eq_true, sameName_iff, exists_eq_right']

/-- One round of the outer loop compares the first key with all later ones. -/
theorem keysAreUnique_cons {key : String} {rest : List String} :
    keysAreUnique (key :: rest) = true ↔ key ∉ rest ∧ keysAreUnique rest = true := by
  rw [keysAreUnique, Bool.and_eq_true, Bool.not_eq_true', ← Bool.not_eq_true, any_sameName_iff]

theorem keysAreUnique_iff_nodup {keys : List String} : keysAreUnique keys = true ↔ keys.Nodup := by
  induction keys with
  | nil => exact iff_of_true rfl List.nodup_nil
  | cons key rest ih => rw [keysAreUnique_cons, List.nodup_cons, ih]

/-- A list passes exactly if no two of its positions hold the same text. -/
theorem keysAreUnique_iff_positions (keys : List String) :
    keysAreUnique keys = true ↔ ∀ i j : Fin keys.length, i ≠ j → keys.get i ≠ keys.get j := by
  rw [keysAreUnique_iff_nodup, List.nodup_iff_injective_get]
  exact ⟨fun h i j hij hkeys => hij (h hkeys), fun h i j hkeys => by_contra fun hij => h i j hij hkeys⟩

example : keysAreUnique ["user", "user.name", "use", ""] = true := by decide

/-! ## Names of a schema -/

namespace Schema

variable {S : Schema}

theorem nodup_names (S : Schema) : (S.decls.map (·.name)).Nodup :=
  keysAreUnique_iff_nodup.1 S.distinct

/-- A key is determined by its name. -/
theorem name_inj {k k' : S.Key} (h : name k = name k') : k = k' := by
  have hlength : S.decls.length = (S.decls.map (·.name)).length := by simp
  have hget : (S.decls.map (·.name)).get (k.cast hlength) =
      (S.decls.map (·.name)).get (k'.cast hlength) := by
    simpa [name, decl] using h
  have hcast := List.nodup_iff_injective_get.1 S.nodup_names hget
  exact Fin.ext (congrArg Fin.val hcast :)

end Schema

end SchemaStore
