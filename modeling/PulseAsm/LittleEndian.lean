/-!
# Little-endian bytes

A natural number as a fixed count of bytes, least significant first, and back.
-/

namespace PulseAsm

/-- The `count` lowest bytes of `n`, least significant first. -/
def littleEndian : Nat → Nat → List UInt8
  | 0, _ => []
  | count + 1, n => UInt8.ofNat (n % 256) :: littleEndian count (n / 256)

/-- The number that bytes stand for. -/
def ofLittleEndian : List UInt8 → Nat
  | [] => 0
  | b :: bs => b.toNat + 256 * ofLittleEndian bs

@[simp] theorem length_littleEndian (count n : Nat) : (littleEndian count n).length = count := by
  induction count generalizing n with
  | zero => rfl
  | succ count ih => simp [littleEndian, ih]

theorem ofLittleEndian_littleEndian (count n : Nat) :
    ofLittleEndian (littleEndian count n) = n % (1 <<< (8 * count)) := by
  induction count generalizing n with
  | zero => simp [littleEndian, ofLittleEndian, Nat.mod_one]
  | succ count ih =>
    have hbyte : n % 256 % 2 ^ 8 = n % 256 := Nat.mod_eq_of_lt (by omega)
    have hshift : 1 <<< (8 * (count + 1)) = 256 * (1 <<< (8 * count)) := by
      rw [Nat.mul_succ, Nat.add_comm, Nat.shiftLeft_add, Nat.shiftLeft_eq, Nat.shiftLeft_eq, Nat.shiftLeft_eq,
        Nat.one_mul, Nat.one_mul]
    simp only [littleEndian, ofLittleEndian, ih, UInt8.toNat_ofNat', hbyte]
    rw [hshift, Nat.mod_mul]

end PulseAsm
