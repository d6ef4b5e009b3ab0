import SchemaStore.Json.Token
import SchemaStore.Json.Writer

/-!
# Strings, written and read

Reading undoes escaping character by character: whatever a character is written as is read as that
character, and reading goes on right after it (`stringBody_escapedChar`). So a string is read back
from between its quotes (`string_escaped`).
-/

namespace SchemaStore

theorem Text.byteCount_cons (c : Char) (cs : List Char) :
    byteCount (c :: cs) = c.utf8Size + byteCount cs := by
  have hfold : ∀ (l : List Char) (n : Nat),
      l.foldl (fun n c => n + c.utf8Size) n = n + l.foldl (fun n c => n + c.utf8Size) 0 := by
    intro l
    induction l with
    | nil => intro n; rfl
    | cons d l ih =>
      intro n
      rw [List.foldl_cons, List.foldl_cons, ih, ih (0 + d.utf8Size)]
      omega
  simp only [byteCount, List.foldl_cons, Nat.zero_add]
  exact hfold cs c.utf8Size

namespace Token

theorem stringBody_taken (taken tail : List Char) :
    stringBody taken.length (taken ++ tail) = stringBody 0 tail := by
  induction taken with
  | nil => rfl
  | cons c taken ih => exact ih

theorem stringBody_escape {esc tail : List Char} {x : Char}
    (h : escape (esc ++ tail) = .ok (x, tail)) :
    stringBody 0 ('\\' :: (esc ++ tail)) = (stringBody 0 tail).map (x :: ·) := by
  have htaken : (esc ++ tail).length - tail.length = esc.length := by simp
  rw [stringBody, if_neg (by decide), if_pos rfl, h]
  dsimp only
  rw [htaken, stringBody_taken]

theorem hexDigit?_digitChar {n : Nat} (h : n < 16) : hexDigit? n.digitChar = some n := by
  have hall : ∀ k : Fin 16, hexDigit? k.val.digitChar = some k.val := by decide
  exact hall ⟨n, h⟩

/-- The escape of a control character is read as its code. -/
theorem escape_control {c : Char} (h : c.toNat < 32) (tail : List Char) :
    escape (['u', '0', '0', Nat.digitChar (c.toNat / 16), Nat.digitChar (c.toNat % 16)] ++ tail) =
      .ok (c, tail) := by
  have hhigh := hexDigit?_digitChar (show c.toNat / 16 < 16 by omega)
  have hlow := hexDigit?_digitChar (show c.toNat % 16 < 16 by omega)
  have hzero : hexDigit? '0' = some 0 := by decide
  have hvalue : hexValue? ('0' :: '0' :: Nat.digitChar (c.toNat / 16) ::
      Nat.digitChar (c.toNat % 16) :: tail) = some c.toNat := by
    simp only [hexValue?, hzero, hhigh, hlow, Option.some.injEq]
    omega
  have hbytes : ¬ Text.byteCount ('0' :: '0' :: Nat.digitChar (c.toNat / 16) ::
      Nat.digitChar (c.toNat % 16) :: tail) < 4 := by
    simp only [Text.byteCount_cons]
    have h0 := Char.utf8Size_pos '0'
    have h1 := Char.utf8Size_pos (Nat.digitChar (c.toNat / 16))
    have h2 := Char.utf8Size_pos (Nat.digitChar (c.toNat % 16))
    omega
  have hex : hexEscape ('0' :: '0' :: Nat.digitChar (c.toNat / 16) ::
      Nat.digitChar (c.toNat % 16) :: tail) = .ok (c.toNat, tail) := by
    rw [hexEscape, if_neg hbytes, hvalue]
    rfl
  simp only [List.cons_append, List.nil_append, escape, unicodeEscape, hex, Read.andThen]
  rw [if_neg (by omega), if_neg (by omega), Char.ofNat_toNat]

/-- A character is read back from how it is written. -/
theorem stringBody_escapedChar (c : Char) (tail : List Char) :
    stringBody 0 (Json.escapedChar c ++ tail) = (stringBody 0 tail).map (c :: ·) := by
  unfold Json.escapedChar
  split
  · exact @stringBody_escape ['"'] tail _ rfl
  · exact @stringBody_escape ['\\'] tail _ rfl
  · exact @stringBody_escape ['b'] tail _ rfl
  · exact @stringBody_escape ['f'] tail _ rfl
  · exact @stringBody_escape ['n'] tail _ rfl
  · exact @stringBody_escape ['r'] tail _ rfl
  · exact @stringBody_escape ['t'] tail _ rfl
  · next hquote hslash _ _ _ _ _ =>
    split
    · next hcontrol => exact stringBody_escape (escape_control hcontrol tail)
    · next hplain =>
      rw [List.cons_append, List.nil_append, stringBody, if_neg hquote, if_neg hslash,
        if_neg hplain]

/-- A string is read back from between its quotes. -/
theorem stringBody_flatMap (s rest : List Char) :
    stringBody 0 (s.flatMap Json.escapedChar ++ '"' :: rest) = .ok (s, rest) := by
  induction s with
  | nil => rfl
  | cons c s ih =>
    rw [List.flatMap_cons, List.append_assoc, stringBody_escapedChar, ih]
    rfl

theorem string_escaped (s : String) (rest : List Char) :
    string (s.toList.flatMap Json.escapedChar ++ '"' :: rest) = .ok (s, rest) := by
  rw [string, stringBody_flatMap]
  simp only [Read.map, String.ofList_toList]

end Token

end SchemaStore
