import HotPatch.Bytes.Basic
import HotPatch.Error

/-!
# Reading files

A reader takes a value off the front of the bytes that are left. Reading past
the end is out of bounds.
-/

namespace HotPatch

abbrev Reader (α : Type) := StateT Bytes Result α

namespace Reader

def fail {α : Type} (cause : Malformed) : Reader α := fun _ => malformed cause

/-- Exactly `count` bytes. -/
def bytes (count : Nat) : Reader Bytes := fun input =>
  match input.take? count with
  | some (front, rest) => .ok (front, rest)
  | none => .error .outOfBounds

/-- A number of `width` bytes, lowest first. -/
def number (width : Nat) : Reader Nat := return Bytes.ofLittleEndian (← bytes width)

/-- A fixed number of bytes as a vector. -/
def vector (count : Nat) : Reader (Vector UInt8 count) := do
  let front := (← bytes count).toArray
  return .ofFn fun index => front.getD index.val 0

/-- The value as often as the count says. -/
def times {α : Type} (count : Nat) (item : Reader α) : Reader (List α) :=
  match count with
  | 0 => return []
  | count + 1 => do
    let head ← item
    return head :: (← times count item)

/-- A 32-bit count, and the value as often as it says. -/
def counted {α : Type} (item : Reader α) : Reader (List α) := do
  let count ← number 4
  times count item

end Reader
end HotPatch
