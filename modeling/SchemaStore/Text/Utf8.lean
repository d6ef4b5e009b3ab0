/-!
# UTF-8

Texts as bytes and bytes as texts. `step` decodes one character, or finds the longest start of one
that is broken off; strict decoding refuses such a break, and lossy decoding puts one replacement
character in its place.
-/

namespace SchemaStore

/-- Raw bytes. -/
abbrev Bytes : Type := List UInt8

namespace Utf8

/-- The bytes of a text. -/
def encode (s : String) : Bytes := s.toList.flatMap String.utf8EncodeChar

/-- A byte within an inclusive range. -/
def within (low high b : UInt8) : Bool := low ≤ b && b ≤ high

/-- A byte that continues a character. -/
def isContinuation (b : UInt8) : Bool := within 0x80 0xBF b

/-- The six payload bits of a continuation byte. -/
def payload (b : UInt8) : Nat := b.toNat % 64

/-- The second bytes that may follow the lead byte of three or more bytes. The bounds exclude longer
spellings than needed, surrogates, and code points above the last one. -/
def isSecond (lead b : UInt8) : Bool :=
  if lead = 0xE0 then within 0xA0 0xBF b
  else if lead = 0xED then within 0x80 0x9F b
  else if lead = 0xF0 then within 0x90 0xBF b
  else if lead = 0xF4 then within 0x80 0x8F b
  else isContinuation b

/-- Decode the character that starts with a byte, and count the bytes after it that were taken. No
character means that the bytes taken, the first included, are the longest start of one. -/
def step (b : UInt8) (rest : Bytes) : Option Char × Nat :=
  if b < 0x80 then (some (Char.ofNat b.toNat), 0)
  else if within 0xC2 0xDF b then
    match rest with
    | c :: _ =>
      if isContinuation c then (some (Char.ofNat (b.toNat % 32 * 64 + payload c)), 1) else (none, 0)
    | [] => (none, 0)
  else if within 0xE0 0xEF b then
    match rest with
    | c :: d :: _ =>
      if !isSecond b c then (none, 0)
      else if !isContinuation d then (none, 1)
      else (some (Char.ofNat ((b.toNat % 16 * 64 + payload c) * 64 + payload d)), 2)
    | [c] => (none, if isSecond b c then 1 else 0)
    | [] => (none, 0)
  else if within 0xF0 0xF4 b then
    match rest with
    | c :: d :: e :: _ =>
      if !isSecond b c then (none, 0)
      else if !isContinuation d then (none, 1)
      else if !isContinuation e then (none, 2)
      else (some (Char.ofNat
        (((b.toNat % 8 * 64 + payload c) * 64 + payload d) * 64 + payload e)), 3)
    | [c, d] => (none, if !isSecond b c then 0 else if !isContinuation d then 1 else 2)
    | [c] => (none, if isSecond b c then 1 else 0)
    | [] => (none, 0)
  else (none, 0)

/-- The characters of some bytes, of which the first `taken` are already decoded; nothing if one is
broken off. -/
def strict : Nat → Bytes → Option (List Char)
  | _, [] => some []
  | taken + 1, _ :: rest => strict taken rest
  | 0, b :: rest =>
    match step b rest with
    | (some c, used) => (strict used rest).map (c :: ·)
    | (none, _) => none

/-- The characters of some bytes, of which the first `taken` are already decoded, with a replacement
character for each one that is broken off. -/
def lossy : Nat → Bytes → List Char
  | _, [] => []
  | taken + 1, _ :: rest => lossy taken rest
  | 0, b :: rest => (step b rest).1.getD '\uFFFD' :: lossy (step b rest).2 rest

/-- The text of some bytes, if they are valid. -/
def decode? (bytes : Bytes) : Option String := (strict 0 bytes).map String.ofList

/-- The text of some bytes, with a replacement character for what is not valid. -/
def decodeLossy (bytes : Bytes) : String := String.ofList (lossy 0 bytes)

end Utf8

end SchemaStore
