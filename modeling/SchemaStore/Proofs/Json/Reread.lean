import SchemaStore.Proofs.Json.FloatRange
import SchemaStore.Proofs.Json.Nesting

/-!
# Reading what was written

Every document that is not nested too deep can be read from its text. What is found is the document
itself, except that a double may be found as another one (`Document.parse_render_reread`). An object
is found field by field (`Document.reread_ofFields`).
-/

namespace SchemaStore

/-- The double that is found in the text of a double. -/
def FiniteBinary.reread (x : FiniteBinary .double) : FiniteBinary .double :=
  match Token.anyNumber .unit x.number.text with
  | .ok (⟨.double y, _⟩, _) => y
  | _ => x

/-- The text of a double is always read as a double, though it may be another one. -/
theorem Token.anyNumber_reread (x : FiniteBinary .double) (expected : Expected) :
    anyNumber expected x.number.text = .ok (⟨.double x.reread, trivial⟩, []) := by
  obtain ⟨y, hy⟩ := exists_anyNumber_number x .unit
  have hreread : x.reread = y := by rw [FiniteBinary.reread, hy]
  rw [anyNumber_number] at hy ⊢
  rw [hy, hreread]

theorem Token.float_reread (x : FiniteBinary .double) :
    float .double x.number.text = .ok (.finite x.reread, []) := by
  rw [float, anyNumber_reread]
  rfl

theorem FiniteBinary.reread_of_readsBack {x : FiniteBinary .double} (h : x.ReadsBack) :
    x.reread = x := by
  rw [reread, Token.number_of_readsBack h]

/-- A double is found again exactly if rereading fixes it. -/
theorem FiniteBinary.readsBack_iff {x : FiniteBinary .double} : x.ReadsBack ↔ x.reread = x := by
  refine ⟨reread_of_readsBack, fun h => ?_⟩
  have hread := Token.float_reread x
  rwa [h] at hread

namespace Number

/-- The number that is found in the text of a number. -/
def reread : Number → Number
  | .double x => .double x.reread
  | n => n

theorem reread_of_readsBack {n : Number} (h : n.ReadsBack) : n.reread = n := by
  cases n with
  | int n => rfl
  | single x => rfl
  | double x => exact congrArg Number.double (FiniteBinary.reread_of_readsBack (h.2 _ List.mem_cons_self))

end Number

namespace Document

open Token (Reads)

theorem reads_reread {n : Number} (h : n.IsDynamic) (depth : Nat) :
    Reads (read depth) n.text (ofAnyNumber n.reread) := by
  cases n with
  | int n =>
    rw [Number.reread, ofAnyNumber_eq _ h]
    · exact reads_of_anyNumber (Token.anyNumber_decimal h _) depth
    · nofun
  | single x => exact h.elim
  | double x => exact reads_of_anyNumber (Token.anyNumber_reread x _) depth

/-- The document that is found in the text of a document. -/
def reread (d : Document) : Document := ofJson (d.json.mapNumbers Number.reread)

/-- Every document that is not nested too deep is read from its text. -/
theorem parse_render_reread {d : Document} (h : d.json.depth ≤ maxDepth) :
    parse d.json.render.toList = .ok d.reread := by
  rw [Json.render, String.toList_ofList]
  apply Read.whole_of_reads
  apply reads_mapNumbers _ _ _ h
  exact fun n hn => reads_reread (Json.isDynamic_of_canonical d.json d.canonical n hn)

theorem reread_of_readsBack {d : Document} (h : ∀ n ∈ d.json.numbers, n.ReadsBack) :
    d.reread = d := by
  rw [reread, Json.mapNumbers_eq_self _ fun n hn => Number.reread_of_readsBack (h n hn), ofJson_json]

/-- An object is found with the same names, and each field as its value is found. -/
theorem reread_ofFields (fs : SortedMap String Document) :
    (ofFields fs).reread = ofFields (fs.mapValues reread) := by
  have hfields : ofJsonFields (Json.mapNumbersFields Number.reread
      (fs.entries.map fun f => (f.1, f.2.json))) = (fs.mapValues reread).entries := by
    rw [Json.mapNumbersFields_eq_map, ofJsonFields_eq_map, List.map_map, List.map_map]
    rfl
  rw [reread, ofFields, Json.mapNumbers, ofJson, hfields, SortedMap.ofList_entries]

end Document

end SchemaStore
