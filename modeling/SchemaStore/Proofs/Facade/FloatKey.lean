import SchemaStore.Proofs.Facade.TypedMap
import SchemaStore.Proofs.Json.ShortFloat

/-!
# A key of doubles

A double is put without complaint, whatever it is. A read finds the double that the reader makes of
its text (`Codec.decode_encode_double`), which may be a neighbour, and refuses the text of a double
that is not finite. So a double survives exactly if it reads back, as every double of few digits does
(`Catalog.answerGet_setRatio`), and nothing but the read tells the others apart.
-/

namespace SchemaStore

namespace Codec

/-- The complaint about null where a double is expected. -/
def nullForDouble : Complaint := ⟨.invalidType .null (.float .double), some ⟨1, 4⟩⟩

/-- What is found in the text of a double. -/
def rereadDouble : Binary .double → Except Complaint (Binary .double)
  | .finite x => .ok (.finite x.reread)
  | .infinite _ => .error nullForDouble
  | .nan => .error nullForDouble

/-- Every double has a text. -/
theorem encode_double (v : Binary .double) :
    encode (.float .double) v = .ok (Binary.toJson v).render := by
  cases v with
  | finite x => exact encode_tree (s := .float .double) rfl nofun
  | infinite _ | nan => rfl

/-- In the text of a finite double another one may be found, in that of the others there is none. -/
theorem decode_encode_double (v : Binary .double) :
    decode (.float .double) (Binary.toJson v).render = rereadDouble v := by
  cases v with
  | finite x =>
    have hreads : Token.Reads ((Shape.float .double).read maxDepth) (Json.num x.number).text
        (.finite x.reread) := Token.reads_float_of_ok (Token.float_reread x)
    exact decode_of_reads nofun hreads
  | infinite _ | nan =>
    have hnull : Json.null.render = "null" := rfl
    rw [Binary.toJson, hnull]
    rfl

theorem rereadDouble_eq_ok {v : Binary .double} : rereadDouble v = .ok v ↔ v.ReadsBack := by
  cases v with
  | finite x =>
    simp only [rereadDouble, Except.ok.injEq, Binary.finite.injEq]
    exact FiniteBinary.readsBack_iff.symm
  | infinite _ | nan => exact iff_of_false nofun id

end Codec

namespace Catalog

open Codec (rereadDouble nullForDouble)

/-- The key of a double. -/
def ratio : prefs.Key := ⟨3, by decide⟩

/-- Put a double under the key. -/
def setRatio (v : Binary .double) : Op prefs := .set ratio v

variable (m : MemoryStore) (v : Binary .double)

theorem run_setRatio : ((setRatio v).run m).answer = .ok () ∧
    ((setRatio v).run m).store = m.set "ratio" (Binary.toJson v).render :=
  Op.run_set (k := ratio) (Codec.encode_double v) m

theorem answerGet_setRatio_eq : Op.answerGet ratio ((setRatio v).run m).store =
    ((rereadDouble v).mapError (.decode "ratio")).map some := by
  have hname : Schema.name ratio = "ratio" := rfl
  have hfound : Codec.decode (Schema.shape ratio) (Binary.toJson v).render = rereadDouble v :=
    Codec.decode_encode_double v
  rw [(run_setRatio m v).2, Op.answerGet_eq, MemoryStore.get_set, if_pos hname]
  dsimp only
  rw [Batch.decodeText, hname, hfound]
  rfl

theorem answerGet_setRatio_eq_ok :
    Op.answerGet ratio ((setRatio v).run m).store = .ok (some v) ↔ v.ReadsBack := by
  rw [answerGet_setRatio_eq, ← Codec.rereadDouble_eq_ok]
  cases rereadDouble v with
  | ok w =>
    refine ⟨fun h => congrArg Except.ok (Option.some.inj (Except.ok.inj h)), fun h => ?_⟩
    cases h
    rfl
  | error e => exact iff_of_false nofun nofun

/-- A double is always put, and no other entry is touched. What a read finds then is the double if it
reads back, as one of few digits does. It is another double if not, and for a double that is not
finite null is put and the read fails. -/
theorem answerGet_setRatio : ((setRatio v).run m).answer = .ok () ∧
    (∀ key ≠ "ratio", ((setRatio v).run m).store.get key = m.get key) ∧
    (Op.answerGet ratio ((setRatio v).run m).store = .ok (some v) ↔ v.ReadsBack) ∧
    match v with
    | .finite x =>
      Op.answerGet ratio ((setRatio v).run m).store = .ok (some (.finite x.reread)) ∧
        (x.magnitude.val = 0 ∨ x.IsShort → x.ReadsBack)
    | _ =>
      ((setRatio v).run m).store.get "ratio" = some "null" ∧
        Op.answerGet ratio ((setRatio v).run m).store = .error (.decode "ratio" nullForDouble) := by
  obtain ⟨hanswer, hstore⟩ := run_setRatio m v
  have hread := answerGet_setRatio_eq m v
  refine ⟨hanswer, fun key hkey => ?_, answerGet_setRatio_eq_ok m v, ?_⟩
  · rw [hstore, MemoryStore.get_set, if_neg hkey]
  · cases v with
    | finite x => exact ⟨hread, FiniteBinary.readsBack_of_short⟩
    | infinite _ | nan =>
      refine ⟨?_, hread⟩
      rw [hstore, MemoryStore.get_set, if_pos rfl]
      rfl

theorem answerGet_setRatio_oneAndHalf :
    Op.answerGet ratio ((setRatio (.finite oneAndHalf)).run .empty).store =
      .ok (some (.finite oneAndHalf)) := by
  obtain ⟨-, -, hread, -, hshort⟩ := answerGet_setRatio .empty (.finite oneAndHalf)
  exact hread.2 (hshort (by decide +kernel))

/-- The double nearest to `1e-23`. Its text is read as the next one. -/
def tenToMinus23 : FiniteBinary .double := ⟨false, ⟨4262707295203537489, by decide +kernel⟩⟩

/-- A double may be put without complaint and not be found again. -/
theorem exists_lost_ratio : ¬ ∀ (m : MemoryStore) (v : Binary .double),
    ((∃ c, ((setRatio v).run m).answer = .error (.encode "ratio" c)) ∧
        ((setRatio v).run m).store = m) ∨
      Op.answerGet ratio ((setRatio v).run m).store = .ok (some v) := by
  intro h
  rcases h .empty (.finite tenToMinus23) with ⟨⟨c, hc⟩, -⟩ | hfound
  · rw [(run_setRatio _ _).1] at hc
    cases hc
  · have hlost : ¬ tenToMinus23.ReadsBack := by decide +kernel
    exact hlost ((answerGet_setRatio_eq_ok _ _).1 hfound)

end Catalog

end SchemaStore
