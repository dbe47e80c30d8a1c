import RubyLint.Text.Bytes

/-!
# Positions

The line and the column of a byte offset, both counted from one.  Only a line feed ends a line
here, and a column counts characters.
-/

namespace RubyLint.Text

/-- A line and a column, counted from one. -/
structure Position where
  line : Nat
  column : Nat
deriving DecidableEq, Inhabited

namespace Position

def first : Position := ⟨1, 1⟩

def after (p : Position) (c : Char) : Position :=
  if c = '\n' then ⟨p.line + 1, 1⟩ else ⟨p.line, p.column + 1⟩

/-- The position behind the characters that start before the offset. -/
def advance (p : Position) : List Char → Nat → Position
  | [], _ => p
  | c :: cs, n => if n = 0 then p else (p.after c).advance cs (n - c.utf8Size)

theorem advance_zero (p : Position) (cs : List Char) : p.advance cs 0 = p := by
  cases cs <;> simp [advance]

/-- On a boundary the position is the one behind all characters in front of it. -/
theorem advance_append (p : Position) (front back : List Char) :
    p.advance (front ++ back) (byteLength front) = front.foldl after p := by
  induction front generalizing p with
  | nil => exact advance_zero p back
  | cons c front ih =>
    have hpos := c.utf8Size_pos
    have hne : byteLength (c :: front) ≠ 0 := by rw [byteLength_cons]; omega
    have hsub : byteLength (c :: front) - c.utf8Size = byteLength front := by
      rw [byteLength_cons]; omega
    rw [List.cons_append, advance, if_neg hne, hsub, ih]; rfl

end Position

def positionOf (cs : List Char) (offset : Nat) : Position := Position.first.advance cs offset

end RubyLint.Text
