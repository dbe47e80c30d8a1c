/-!
# Bytes of a text

Offsets count the bytes of the UTF-8 form.  A text is handled as its list of characters;
`byteLength` is its length in bytes, `splitAtByte` cuts it at an offset and refuses to cut inside a
character, and `slice` takes the part between two offsets.
-/

namespace RubyLint.Text

/-- The number of bytes of the UTF-8 form. -/
def byteLength : List Char → Nat
  | [] => 0
  | c :: cs => c.utf8Size + byteLength cs

theorem byteLength_nil : byteLength [] = 0 := rfl
theorem byteLength_cons (c : Char) (cs : List Char) :
    byteLength (c :: cs) = c.utf8Size + byteLength cs := rfl
theorem byteLength_append (a b : List Char) :
    byteLength (a ++ b) = byteLength a + byteLength b := by
  induction a with
  | nil => simp [byteLength]
  | cons c a ih => simp [byteLength, ih, Nat.add_assoc]

/-- Cuts after `n` bytes; there is no cut past the end or inside a character. -/
def splitAtByte : List Char → Nat → Option (List Char × List Char)
  | cs, 0 => some ([], cs)
  | [], _ + 1 => none
  | c :: cs, n + 1 =>
    if c.utf8Size ≤ n + 1 then
      (splitAtByte cs (n + 1 - c.utf8Size)).map fun (front, back) => (c :: front, back)
    else none

theorem splitAtByte_eq_some {cs front back : List Char} {n : Nat}
    (h : splitAtByte cs n = some (front, back)) : cs = front ++ back ∧ byteLength front = n := by
  fun_induction splitAtByte cs n generalizing front back with
  | case1 cs => simp_all [byteLength]
  | case2 => simp at h
  | case3 n c cs hc ih =>
    obtain ⟨⟨f, b⟩, hs, heq⟩ := Option.map_eq_some_iff.1 h
    obtain ⟨rfl, rfl⟩ := Prod.mk.inj heq
    obtain ⟨rfl, hl⟩ := ih hs
    exact ⟨rfl, by simp only [byteLength, hl]; omega⟩
  | case4 => simp at h

theorem splitAtByte_append (front back : List Char) :
    splitAtByte (front ++ back) (byteLength front) = some (front, back) := by
  induction front with
  | nil => cases back <;> rfl
  | cons c front ih =>
    obtain ⟨n, hn⟩ : ∃ n, byteLength (c :: front) = n + 1 :=
      ⟨byteLength (c :: front) - 1, by have := c.utf8Size_pos; simp [byteLength]; omega⟩
    have hr : n + 1 - c.utf8Size = byteLength front := by rw [← hn, byteLength_cons]; omega
    have hc : c.utf8Size ≤ n + 1 := by rw [← hn, byteLength_cons]; omega
    rw [List.cons_append, hn, splitAtByte, if_pos hc, hr, ih]; rfl

/-- The offset stands between two characters, or at an end of the text. -/
def isBoundary (cs : List Char) (n : Nat) : Bool := (splitAtByte cs n).isSome

/-- The text from one offset up to another. -/
def slice (cs : List Char) (start stop : Nat) : Option (List Char) :=
  if start ≤ stop then do
    let (_, back) ← splitAtByte cs start
    let (middle, _) ← splitAtByte back (stop - start)
    return middle
  else none

/-- A number by which a text is known again, though different texts may have the same one: the bytes are
folded, each by an exclusive or and a product with a prime. -/
def fingerprint (text : String) : UInt64 :=
  text.toUTF8.foldl (fun sum byte => (sum ^^^ byte.toUInt64) * 0x100000001b3) 0xcbf29ce484222325

end RubyLint.Text
