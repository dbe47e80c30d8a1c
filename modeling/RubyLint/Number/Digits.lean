/-!
# Digits

Numbers as digit texts: `digitValue` is the value of one digit, `ofDigits` the number a list of
digit values stands for, `readDigits` reads a whole text in a base.  `Literal.readInteger` reads an
integer of a program, by the sign for its base; one without such a sign that starts with a zero is octal.
-/

namespace RubyLint.Number

/-- The value of a digit of any base up to thirty-six; letters count in either case. -/
def digitValue (c : Char) : Option Nat :=
  if '0' ≤ c ∧ c ≤ '9' then some (c.toNat - '0'.toNat)
  else if 'a' ≤ c ∧ c ≤ 'z' then some (c.toNat - 'a'.toNat + 10)
  else if 'A' ≤ c ∧ c ≤ 'Z' then some (c.toNat - 'A'.toNat + 10)
  else none

/-- The value of a digit of the given base. -/
def digitIn (base : Nat) (c : Char) : Option Nat :=
  match digitValue c with
  | some d => if d < base then some d else none
  | none => none

/-- The number whose digits, the highest first, are given. -/
def ofDigits (base : Nat) (ds : List Nat) : Nat := ds.foldl (fun n d => n * base + d) 0

theorem ofDigits_snoc (base : Nat) (ds : List Nat) (d : Nat) :
    ofDigits base (ds ++ [d]) = ofDigits base ds * base + d := by
  simp [ofDigits, List.foldl_append]

/-- Reads a text of one or more digits. -/
def readDigits (base : Nat) (cs : List Char) : Option Nat :=
  if cs.isEmpty then none else (cs.mapM (digitIn base)).map (ofDigits base)

theorem digitIn_lt {base d : Nat} {c : Char} (h : digitIn base c = some d) : d < base := by
  unfold digitIn at h
  split at h
  · split at h
    · next hlt =>
      cases h
      exact hlt
    · cases h
  · cases h

theorem foldl_digits_lt {base : Nat} {ds : List Nat} (h : ∀ d ∈ ds, d < base) (n : Nat) :
    ds.foldl (fun n d => n * base + d) n < (n + 1) * Nat.pow base ds.length := by
  induction ds generalizing n with
  | nil =>
    show n < (n + 1) * 1
    omega
  | cons d ds ih =>
    have hd : d < base := h d List.mem_cons_self
    have hfront : n * base + d + 1 ≤ (n + 1) * base := by
      rw [Nat.succ_mul]
      omega
    calc ds.foldl (fun n d => n * base + d) (n * base + d)
        < (n * base + d + 1) * Nat.pow base ds.length :=
          ih (fun x hx => h x (List.mem_cons_of_mem _ hx)) _
      _ ≤ (n + 1) * base * Nat.pow base ds.length := Nat.mul_le_mul_right _ hfront
      _ = (n + 1) * (Nat.pow base ds.length * base) := by
        rw [Nat.mul_assoc, Nat.mul_comm base]

theorem mapM_digitIn {base : Nat} {cs : List Char} {ds : List Nat}
    (h : cs.mapM (digitIn base) = some ds) : ds.length = cs.length ∧ ∀ d ∈ ds, d < base := by
  induction cs generalizing ds with
  | nil =>
    cases h
    exact ⟨rfl, fun d hd => absurd hd List.not_mem_nil⟩
  | cons c cs ih =>
    rw [List.mapM_cons] at h
    obtain ⟨d, hd, h⟩ := Option.bind_eq_some_iff.1 h
    obtain ⟨ds, hds, h⟩ := Option.bind_eq_some_iff.1 h
    cases h
    obtain ⟨hlength, hlt⟩ := ih hds
    exact ⟨congrArg (· + 1) hlength, List.forall_mem_cons.2 ⟨digitIn_lt hd, hlt⟩⟩

/-- A number of so many digits is below the power of the base. -/
theorem readDigits_lt {base n : Nat} {cs : List Char} (h : readDigits base cs = some n) :
    n < Nat.pow base cs.length := by
  unfold readDigits at h
  split at h
  · cases h
  · obtain ⟨ds, hds, rfl⟩ := Option.map_eq_some_iff.1 h
    obtain ⟨hlength, hlt⟩ := mapM_digitIn hds
    have hfold := foldl_digits_lt hlt 0
    rw [Nat.zero_add, Nat.one_mul, hlength] at hfold
    exact hfold

/-- Splits off a sign; no sign counts as plus. -/
def splitSign : List Char → Bool × List Char
  | '-' :: cs => (true, cs)
  | '+' :: cs => (false, cs)
  | cs => (false, cs)

/-- The largest signed number of sixty-four bits. -/
def maxInt64 : Nat := 0x7fffffffffffffff

/-- Reads a signed number of sixty-four bits in the given base, with an optional sign. -/
def readInt64 (base : Nat) (cs : List Char) : Option Int :=
  let (negative, digits) := splitSign cs
  match readDigits base digits with
  | none => none
  | some n =>
    if negative then (if n ≤ maxInt64 + 1 then some (-(n : Int)) else none)
    else (if n ≤ maxInt64 then some (n : Int) else none)

/-- Reads a number below `2 ^ 64`, with an optional plus. -/
def readNat64 (cs : List Char) : Option Nat :=
  let digits := match cs with
    | '+' :: rest => rest
    | _ => cs
  match readDigits 10 digits with
  | none => none
  | some n => if n ≤ 0xffffffffffffffff then some n else none

/-- Reads a number of eight bits, with an optional plus. -/
def readByte (cs : List Char) : Option Nat :=
  match readNat64 cs with
  | none => none
  | some n => if n < 256 then some n else none

end RubyLint.Number

namespace RubyLint.Literal

/-- The number of unsigned digits with a sign for their base, in lower case and without
underscores. -/
def readBased : List Char → Option Int
  | '0' :: 'x' :: cs => Number.readInt64 16 cs
  | '0' :: 'b' :: cs => Number.readInt64 2 cs
  | '0' :: 'o' :: cs => Number.readInt64 8 cs
  | '0' :: 'd' :: cs => Number.readInt64 10 cs
  | '0' :: c :: cs => Number.readInt64 8 (c :: cs)
  | cs => Number.readInt64 10 cs

/-- The number of an integer literal, unless it takes more than sixty-four bits. -/
def readInteger (cs : List Char) : Option Int :=
  let (isNegative, digits) := match cs with
    | '-' :: rest => (true, rest)
    | _ => (false, cs)
  let cleaned := (digits.filter (· != '_')).map Char.toLower
  (readBased cleaned).map fun n => if isNegative then -n else n

end RubyLint.Literal
