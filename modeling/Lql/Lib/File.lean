import Mathlib.Data.List.TakeDrop

/-!
# A file with one position

An ordinary file is its content and one position that reading and writing share. What is read or written moves the
position; what is written goes over what is there.
-/

namespace Lib

/-- What is in the file, and where the next transfer begins. -/
structure File (α : Type) where
  content : List α
  pos : Nat
  deriving DecidableEq, Repr

namespace File

variable {α : Type} (f : File α)

/-- An empty file, at its beginning. -/
def empty : File α := ⟨[], 0⟩

/-- At most `n` from the position on. -/
def peek (n : Nat) : List α := (f.content.drop f.pos).take n

/-- The position is set. -/
def seek (n : Nat) : File α := { f with pos := n }

/-- What was transferred is behind the position. -/
def advance (n : Nat) : File α := { f with pos := f.pos + n }

/-- What is written goes over what is there; a gap that a position past the end leaves is filled. -/
def write [Inhabited α] (xs : List α) : File α where
  content := f.content.takeD f.pos default ++ xs ++ f.content.drop (f.pos + xs.length)
  pos := f.pos + xs.length

@[simp] theorem seek_content (n : Nat) : (f.seek n).content = f.content := rfl
@[simp] theorem seek_pos (n : Nat) : (f.seek n).pos = n := rfl
@[simp] theorem advance_content (n : Nat) : (f.advance n).content = f.content := rfl
@[simp] theorem advance_pos (n : Nat) : (f.advance n).pos = f.pos + n := rfl

theorem write_content [Inhabited α] {xs : List α} (h : f.pos ≤ f.content.length) :
    (f.write xs).content = f.content.take f.pos ++ xs ++ f.content.drop (f.pos + xs.length) := by
  unfold write
  rw [List.takeD_eq_take _ h]

/-- A write leaves alone what lies before the position. -/
theorem take_write [Inhabited α] {n : Nat} {xs : List α} (h : f.pos ≤ f.content.length) (hn : n ≤ f.pos) :
    (f.write xs).content.take n = f.content.take n := by
  rw [f.write_content h, List.append_assoc, List.take_append_of_le_length (by simp; omega), List.take_take,
    Nat.min_eq_left hn]

/-- Behind a write the file is what was before the position, and what was written. -/
theorem take_write_end [Inhabited α] {xs : List α} (h : f.pos ≤ f.content.length) :
    (f.write xs).content.take (f.pos + xs.length) = f.content.take f.pos ++ xs := by
  have hlen : (f.content.take f.pos ++ xs).length = f.pos + xs.length := by simp [h]
  rw [f.write_content h, ← hlen, List.take_left]

theorem length_le_write [Inhabited α] {xs : List α} (h : f.pos ≤ f.content.length) :
    f.content.length ≤ (f.write xs).content.length := by
  simp only [f.write_content h, List.length_append, List.length_take, List.length_drop]
  omega

end File

end Lib
