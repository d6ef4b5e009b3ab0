import SchemaStore.Json.Problem
import SchemaStore.Text.Blank

/-!
# Faults while reading

A reader of JSON text takes the characters that are left and returns a value with the characters
left after it. When it fails it names the problem and, for a malformed text, the place where it
noticed, counted as the UTF-8 bytes left: `here` before the characters that are left, `next` one
byte further on. A mismatch found by the wanted type has no place of its own: its fault floats with
the characters left until an enclosing read step settles it.
-/

namespace SchemaStore

/-- The UTF-8 length of some characters. -/
def Text.byteCount (cs : List Char) : Nat := cs.foldl (fun n c => n + c.utf8Size) 0

/-- A failed read. -/
inductive Fault
  /-- The problem was noticed with so many bytes left. -/
  | placed (problem : Problem) (left : Nat)
  /-- The problem has no place yet; these characters are left. -/
  | floating (problem : Problem) (rest : List Char)

namespace Fault

/-- A fault before the characters that are left. -/
def here (problem : Problem) (rest : List Char) : Fault := .placed problem (Text.byteCount rest)

/-- A fault one byte into the characters that are left, or at the end. -/
def next (problem : Problem) (rest : List Char) : Fault :=
  .placed problem (Text.byteCount rest - 1)

/-- Place a floating fault before the characters that are left. -/
def settle : Fault → Fault
  | .placed problem left => .placed problem left
  | .floating problem rest => .here problem rest

end Fault

/-- A read step: the value and the characters after it, or a fault. -/
abbrev Read (α : Type) := Except Fault (α × List Char)

namespace Read

variable {α β : Type}

/-- Change the value that was read. -/
def map (f : α → β) : Read α → Read β
  | .ok (a, rest) => .ok (f a, rest)
  | .error e => .error e

/-- Check the value that was read; a refusal floats. -/
def check (f : α → Except Problem β) : Read α → Read β
  | .ok (a, rest) =>
    match f a with
    | .ok b => .ok (b, rest)
    | .error p => .error (.floating p rest)
  | .error e => .error e

/-- Go on reading after a value. -/
def andThen (r : Read α) (f : α → List Char → Read β) : Read β :=
  match r with
  | .ok (a, rest) => f a rest
  | .error e => .error e

/-- Settle a fault that floats out of a read step. -/
def settle : Read α → Read α
  | .ok v => .ok v
  | .error e => .error e.settle

end Read

/-- Walk some bytes into a text, counting lines and the bytes since the last line feed. -/
def Position.walk : List Char → Nat → Position → Position
  | [], n, p => ⟨p.line, p.column + n⟩
  | c :: rest, n, p =>
    if n < c.utf8Size then ⟨p.line, p.column + n⟩
    else walk rest (n - c.utf8Size)
      (if c = '\n' then ⟨p.line + 1, 0⟩ else ⟨p.line, p.column + c.utf8Size⟩)

/-- The place in a text with so many bytes left. -/
def Position.ofLeft (text : List Char) (left : Nat) : Position :=
  walk text (Text.byteCount text - left) ⟨1, 0⟩

/-- What is reported of a fault in a text: a fault that still floats has no place. -/
def Fault.complaint (text : List Char) : Fault → Complaint
  | .placed problem left => ⟨problem, some (.ofLeft text left)⟩
  | .floating problem _ => ⟨problem, none⟩

/-- Read the whole of a text: nothing but blanks may follow the value. -/
def Read.whole {α : Type} (read : List Char → Read α) (text : List Char) : Except Complaint α :=
  match read text with
  | .error e => .error (e.complaint text)
  | .ok (a, rest) =>
    match Text.skipBlanks rest with
    | [] => .ok a
    | rest => .error ((Fault.next .trailingCharacters rest).complaint text)

end SchemaStore
