/-!
# Blanks, parts and lines of a text

Blanks are the characters that Unicode lists as `White_Space`.  `splitAll` cuts a text at every occurrence
of a character, `cutAt?` at the first one only; the character itself is dropped.  A line ends with a line
feed, which with a carriage return right before it is not part of the line.  A line feed at the very end of
the text starts no further line.

* `takeWhile_ne_append`, `cutAt?_eq_some_iff`   the first occurrence is the one with none in front.
-/

namespace RubyLint.Text

/-! ## blanks -/

/-- The character is white space of any script. -/
def isBlank (c : Char) : Bool :=
  let n := c.toNat
  (0x09 ≤ n && n ≤ 0x0D) || n == 0x20 || n == 0x85 || n == 0xA0 || n == 0x1680 ||
    (0x2000 ≤ n && n ≤ 0x200A) || n == 0x2028 || n == 0x2029 || n == 0x202F || n == 0x205F ||
    n == 0x3000

/-- The text without the blanks in front. -/
def trimStart (cs : List Char) : List Char := cs.dropWhile isBlank

/-- The text without the blanks at its end. -/
def trimEnd (cs : List Char) : List Char := (cs.reverse.dropWhile isBlank).reverse

/-- The text without the blanks at both ends. -/
def trim (cs : List Char) : List Char := trimEnd (trimStart cs)

/-- The parts between blanks, without empty ones. -/
def words (cs : List Char) : List (List Char) :=
  (cs.splitBy fun a b => isBlank a == isBlank b).filter fun part => !part.any isBlank

/-! ## parts -/

/-- The parts between the occurrences of a character; there is always a first part. -/
def splitAll (d : Char) : List Char → List (List Char)
  | [] => [[]]
  | c :: cs =>
    if c = d then [] :: splitAll d cs
    else match splitAll d cs with
      | [] => [[c]]
      | part :: rest => (c :: part) :: rest

theorem splitAll_ne_nil (d : Char) (cs : List Char) : splitAll d cs ≠ [] := by
  cases cs with
  | nil => simp [splitAll]
  | cons c cs =>
    unfold splitAll
    repeat' split
    all_goals simp

/-- The text in front of the first occurrence of a character and the text behind it. -/
def cutAt? (d : Char) (cs : List Char) : Option (List Char × List Char) :=
  match cs.dropWhile (· != d) with
  | [] => none
  | _ :: back => some (cs.takeWhile (· != d), back)

section
variable {d : Char} {cs front back : List Char}

theorem all_ne_of_not_mem (h : d ∉ cs) : ∀ c ∈ cs, (c != d) = true := fun _ hc =>
  bne_iff_ne.2 fun heq => h (heq ▸ hc)

theorem takeWhile_ne_append (h : d ∉ front) (back : List Char) :
    (front ++ d :: back).takeWhile (· != d) = front := by
  rw [List.takeWhile_append_of_pos (all_ne_of_not_mem h), List.takeWhile_cons_of_neg (by simp),
    List.append_nil]

theorem cutAt?_append (h : d ∉ front) (back : List Char) :
    cutAt? d (front ++ d :: back) = some (front, back) := by
  unfold cutAt?
  rw [List.dropWhile_append_of_pos (all_ne_of_not_mem h), List.dropWhile_cons_of_neg (by simp),
    takeWhile_ne_append h]

theorem cutAt?_eq_none (h : d ∉ cs) : cutAt? d cs = none := by
  have hdrop : (cs ++ []).dropWhile (· != d) = [] :=
    List.dropWhile_append_of_pos (all_ne_of_not_mem h)
  unfold cutAt?
  rw [← List.append_nil cs, hdrop]

theorem cutAt?_eq_some_iff :
    cutAt? d cs = some (front, back) ↔ cs = front ++ d :: back ∧ d ∉ front := by
  constructor
  · intro h
    by_cases hmem : d ∈ cs
    · obtain ⟨front', back', rfl, hfront'⟩ := List.eq_append_cons_of_mem hmem
      rw [cutAt?_append hfront'] at h
      cases h
      exact ⟨rfl, hfront'⟩
    · rw [cutAt?_eq_none hmem] at h
      cases h
  · rintro ⟨rfl, hfront⟩
    exact cutAt?_append hfront back

end

/-! ## lines -/

/-- A line without the carriage return at its end. -/
def dropReturn (line : List Char) : List Char :=
  if line.getLast? = some '\r' then line.dropLast else line

/-- The lines of the text, as a reader numbers them. -/
def lines (cs : List Char) : List (List Char) :=
  let parts := splitAll '\n' cs
  let ended := parts.dropLast.map dropReturn
  match parts.getLast? with
  | none | some [] => ended
  | some last => ended ++ [last]

end RubyLint.Text
