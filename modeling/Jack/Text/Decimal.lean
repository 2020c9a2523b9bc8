/-!
# Decimal numerals

`decimalValue` is the value of a run of digits, and `decimalUpTo?` the same value when it does not
exceed a limit (`decimalUpTo?_eq`).  The second one gives up at the first digit that passes the
limit, so a numeral of any length is read with small numbers.
-/

namespace Jack

/-- The characters are decimal digits, and there is one at least. -/
structure IsNumeral (digits : List Char) : Prop where
  /-- There is a digit. -/
  ne : digits ≠ []
  /-- There is nothing else. -/
  run : ∀ c ∈ digits, c.isDigit = true

/-- The value of a decimal digit. -/
def digitValue (c : Char) : Nat := c.toNat - '0'.toNat

/-- The value of a run of digits that follows digits of value `v`. -/
def decimalFrom (v : Nat) (cs : List Char) : Nat := cs.foldl (fun w c => 10 * w + digitValue c) v

/-- The value of a run of digits. -/
def decimalValue (cs : List Char) : Nat := decimalFrom 0 cs

/-- The value of a run of digits that follows digits of value `v`, unless it exceeds `limit`. -/
def decimalUpToFrom? (limit v : Nat) : List Char → Option Nat
  | [] => some v
  | c :: cs =>
    let w := 10 * v + digitValue c
    if w ≤ limit then decimalUpToFrom? limit w cs else none

/-- The value of a run of digits, unless it exceeds `limit`. -/
def decimalUpTo? (limit : Nat) (cs : List Char) : Option Nat := decimalUpToFrom? limit 0 cs

@[simp] theorem decimalFrom_nil (v : Nat) : decimalFrom v [] = v := rfl

@[simp] theorem decimalFrom_cons (v : Nat) (c : Char) (cs : List Char) :
    decimalFrom v (c :: cs) = decimalFrom (10 * v + digitValue c) cs := by
  simp [decimalFrom]

theorem le_decimalFrom (v : Nat) (cs : List Char) : v ≤ decimalFrom v cs := by
  induction cs generalizing v with
  | nil => simp
  | cons c cs ih =>
    rw [decimalFrom_cons]
    exact Nat.le_trans (by omega) (ih (10 * v + digitValue c))

theorem decimalUpToFrom?_eq {limit v : Nat} (hv : v ≤ limit) (cs : List Char) :
    decimalUpToFrom? limit v cs =
      if decimalFrom v cs ≤ limit then some (decimalFrom v cs) else none := by
  induction cs generalizing v with
  | nil => simp [decimalUpToFrom?, hv]
  | cons c cs ih =>
    rw [decimalUpToFrom?, decimalFrom_cons]
    by_cases hw : 10 * v + digitValue c ≤ limit
    · rw [if_pos hw, ih hw]
    · have := le_decimalFrom (10 * v + digitValue c) cs
      rw [if_neg hw, if_neg (by omega)]

/-- Reading up to a limit answers the value exactly when the limit holds. -/
theorem decimalUpTo?_eq (limit : Nat) (cs : List Char) :
    decimalUpTo? limit cs = if decimalValue cs ≤ limit then some (decimalValue cs) else none :=
  decimalUpToFrom?_eq (Nat.zero_le limit) cs

@[simp] theorem decimalValue_toDigits (n : Nat) : decimalValue (Nat.toDigits 10 n) = n :=
  Nat.ofDigitChars_toDigits (by decide) (by decide)

/-- A number can be told from its numeral. -/
theorem toDigits_inj {n n' : Nat} (h : Nat.toDigits 10 n = Nat.toDigits 10 n') : n = n' := by
  simpa using congrArg decimalValue h

end Jack
