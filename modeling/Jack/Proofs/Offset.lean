import Jack.Span
import Mathlib.Algebra.Group.Nat.Defs
import Mathlib.Order.Basic

/-!
# Offsets and counts of bytes

The offset of a place keeps the last 32 bits of the number of bytes in front of it.  In a text of
fewer than 2 ^ 32 bytes (`Addressable`) nothing is lost.  In a longer one offsets begin at zero
again and again, but from one place to another they are in order all the same if they do not do so
in between (`Straight`).

* `toNat_ofNat_of_lt` : a count that fits is its offset;
* `Straight.ofNat_le_ofNat` : offsets are in the order of the counts.
-/

namespace Jack

instance : LinearOrder Offset where
  le_refl := UInt32.le_refl
  le_trans _ _ _ := UInt32.le_trans
  le_antisymm _ _ := UInt32.le_antisymm
  le_total := UInt32.le_total
  lt_iff_le_not_ge _ _ :=
    ⟨fun h => ⟨UInt32.le_of_lt h, UInt32.not_le.2 h⟩, fun h => UInt32.not_le.1 h.2⟩
  toDecidableLE := inferInstance
  toDecidableEq := inferInstance

@[simp] theorem Span.cover_self (s : Span) : s.cover s = s := by
  rw [cover, min_self, max_self]

/-- The text has fewer than 2 ^ 32 bytes, so that each of its places has an offset of its own. -/
def Addressable (text : String) : Prop := text.utf8ByteSize < 2 ^ 32

instance (text : String) : Decidable (Addressable text) := inferInstanceAs (Decidable (_ < _))

/-- From one count of bytes to another no offset begins at zero again. -/
def Straight (n m : Nat) : Prop := n / 2 ^ 32 = m / 2 ^ 32

section Counts

variable {n n' m m' : Nat}

theorem toNat_ofNat_of_lt (h : n < 2 ^ 32) : (UInt32.ofNat n).toNat = n :=
  UInt32.toNat_ofNat_of_lt' h

theorem straight_of_lt (hle : n ≤ m) (hlt : m < 2 ^ 32) : Straight n m := by
  rw [Straight, Nat.div_eq_of_lt hlt, Nat.div_eq_of_lt (Nat.lt_of_le_of_lt hle hlt)]

/-- What lies in between is in order too. -/
theorem Straight.mono (h : Straight n m) (hn : n ≤ n') (hle : n' ≤ m') (hm : m' ≤ m) :
    Straight n' m' := by
  have hlow : n / 2 ^ 32 ≤ n' / 2 ^ 32 := Nat.div_le_div_right hn
  have hmid : n' / 2 ^ 32 ≤ m' / 2 ^ 32 := Nat.div_le_div_right hle
  have hhigh : m' / 2 ^ 32 ≤ m / 2 ^ 32 := Nat.div_le_div_right hm
  rw [Straight] at h ⊢
  omega

/-- Offsets are in the order of the counts. -/
theorem Straight.ofNat_le_ofNat (h : Straight n m) (hle : n ≤ m) :
    UInt32.ofNat n ≤ UInt32.ofNat m := by
  rw [UInt32.le_iff_toNat_le, UInt32.toNat_ofNat', UInt32.toNat_ofNat']
  rw [Straight] at h
  omega

end Counts

end Jack
