import Mathlib.Algebra.Order.Ring.Int
import Mathlib.Data.List.Induction

/- Unsigned numbers in a fixed number of bytes, the most significant byte first. -/
namespace BigEndian

abbrev Bytes := List UInt8

/-- The low `w` bytes of `n`: what does not fit is dropped. -/
def toBytes : Nat → Nat → Bytes
  | 0, _ => []
  | w + 1, n => toBytes w (n / 256) ++ [UInt8.ofNat n]

def ofBytes : Bytes → Nat → Nat
  | [], n => n
  | b :: rest, n => ofBytes rest (n * 256 + b.toNat)

def value (bs : Bytes) : Nat := ofBytes bs 0

@[simp] theorem toBytes_length (w n : Nat) : (toBytes w n).length = w := by
  induction w generalizing n with
  | zero => rfl
  | succ w ih => simp [toBytes, ih]

theorem ofBytes_append (xs ys : Bytes) (n : Nat) :
    ofBytes (xs ++ ys) n = ofBytes ys (ofBytes xs n) := by
  induction xs generalizing n with
  | nil => rfl
  | cons x xs ih => exact ih _

theorem value_snoc (bs : Bytes) (b : UInt8) : value (bs ++ [b]) = value bs * 256 + b.toNat := by
  rw [value, ofBytes_append]
  rfl

theorem value_toBytes (w n : Nat) : value (toBytes w n) = n % 256 ^ w := by
  induction w generalizing n with
  | zero =>
    rw [Nat.pow_zero, Nat.mod_one]
    rfl
  | succ w ih =>
    have low : (UInt8.ofNat n).toNat = n % 256 := by simp
    rw [toBytes, value_snoc, ih, low, Nat.pow_succ, Nat.mul_comm (256 ^ w) 256, Nat.mod_mul]
    omega

theorem value_toBytes_of_lt {w n : Nat} (fits : n < 256 ^ w) : value (toBytes w n) = n := by
  rw [value_toBytes, Nat.mod_eq_of_lt fits]

theorem value_lt (bs : Bytes) : value bs < 256 ^ bs.length := by
  induction bs using List.reverseRecOn with
  | nil => decide
  | append_singleton bs b ih =>
    have digit : b.toNat < 256 := b.toNat_lt
    rw [value_snoc, List.length_append, List.length_singleton, Nat.pow_succ]
    omega

theorem toBytes_value (bs : Bytes) : toBytes bs.length (value bs) = bs := by
  induction bs using List.reverseRecOn with
  | nil => rfl
  | append_singleton bs b ih =>
    have digit : b.toNat < 256 := b.toNat_lt
    have high : (value bs * 256 + b.toNat) / 256 = value bs := by omega
    have low : UInt8.ofNat (value bs * 256 + b.toNat) = b := by
      apply UInt8.toNat_inj.mp
      simp only [UInt8.toNat_ofNat']
      omega
    rw [value_snoc, List.length_append, List.length_singleton, toBytes, high, low, ih]

/-- The first `n` bytes and the rest, if there are that many. -/
def cut (n : Nat) (bs : Bytes) : Option (Bytes × Bytes) :=
  if n ≤ bs.length then some (bs.take n, bs.drop n) else none

theorem cut_some {n : Nat} {bs front back : Bytes} :
    cut n bs = some (front, back) ↔ bs = front ++ back ∧ front.length = n := by
  unfold cut
  constructor
  · intro h
    split at h
    · rename_i enough
      cases h
      constructor
      · exact (List.take_append_drop n bs).symm
      · rw [List.length_take]
        omega
    · cases h
  · rintro ⟨rfl, rfl⟩
    simp

theorem cut_append (front back : Bytes) : cut front.length (front ++ back) = some (front, back) :=
  cut_some.mpr ⟨rfl, rfl⟩

def cutNumber (w : Nat) (bs : Bytes) : Option (Nat × Bytes) :=
  (cut w bs).map fun p => (value p.1, p.2)

theorem cutNumber_some {w n : Nat} {bs back : Bytes} :
    cutNumber w bs = some (n, back) ↔ bs = toBytes w n ++ back ∧ n < 256 ^ w := by
  unfold cutNumber
  constructor
  · intro h
    obtain ⟨⟨front, rest⟩, found, same⟩ := Option.map_eq_some_iff.mp h
    cases same
    obtain ⟨whole, len⟩ := cut_some.mp found
    subst len
    exact ⟨by rw [toBytes_value]; exact whole, value_lt front⟩
  · rintro ⟨rfl, fits⟩
    have cut_here := cut_append (toBytes w n) back
    rw [toBytes_length] at cut_here
    rw [cut_here, Option.map_some, value_toBytes_of_lt fits]

end BigEndian
