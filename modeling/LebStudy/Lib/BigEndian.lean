import Mathlib.Algebra.Order.Ring.Nat
import Mathlib.Tactic.Ring

/-!
# Big-endian numbers

`beBytes n v` are the `n` bytes of `v` in network order, most significant first,
and `beNat` reads any number of bytes back. The two are inverse to each other on
`n` bytes and on numbers below `256 ^ n`.
-/

namespace LebStudy.BigEndian

/-- The `n` low bytes of `v`, most significant first. -/
def beBytes : ℕ → ℕ → List UInt8
  | 0, _ => []
  | n + 1, v => UInt8.ofNat (v / 256 ^ n) :: beBytes n v

/-- The number that the bytes denote in network order. -/
def beNat : List UInt8 → ℕ
  | [] => 0
  | b :: bs => b.toNat * 256 ^ bs.length + beNat bs

@[simp] theorem beBytes_length (n v : ℕ) : (beBytes n v).length = n := by
  induction n with
  | zero => rfl
  | succ n ih => simp [beBytes, ih]

/-- Only the low `n` bytes of the number matter. -/
theorem beBytes_add_mul (n v k : ℕ) : beBytes n (k * 256 ^ n + v) = beBytes n v := by
  induction n generalizing k with
  | zero => rfl
  | succ n ih =>
    have hpos : 0 < 256 ^ n := Nat.pow_pos (by decide)
    have hsplit : k * 256 ^ (n + 1) + v = (k * 256) * 256 ^ n + v := by ring
    have hdiv : (k * 256 ^ (n + 1) + v) / 256 ^ n = k * 256 + v / 256 ^ n := by
      rw [hsplit, Nat.add_comm, Nat.add_mul_div_right _ _ hpos, Nat.add_comm]
    rw [beBytes, beBytes, hdiv]
    congr 1
    · rw [← UInt8.toNat_inj]
      simp
    · rw [hsplit, ih]

theorem beNat_lt (bs : List UInt8) : beNat bs < 256 ^ bs.length := by
  induction bs with
  | nil => simp [beNat]
  | cons b bs ih =>
    have hb : b.toNat + 1 ≤ 256 := b.toNat_lt
    calc beNat (b :: bs) < b.toNat * 256 ^ bs.length + 256 ^ bs.length := by
          simpa [beNat] using ih
      _ = (b.toNat + 1) * 256 ^ bs.length := by ring
      _ ≤ 256 * 256 ^ bs.length := Nat.mul_le_mul_right _ hb
      _ = 256 ^ (b :: bs).length := by rw [List.length_cons, Nat.pow_succ, Nat.mul_comm]

/-- Reading back what was written, for every number. -/
theorem beNat_beBytes (n v : ℕ) : beNat (beBytes n v) = v % 256 ^ n := by
  induction n with
  | zero => simp [beBytes, beNat, Nat.mod_one]
  | succ n ih =>
    rw [beBytes, beNat, beBytes_length, ih, Nat.mod_pow_succ]
    simp [Nat.mul_comm, Nat.add_comm]

theorem beNat_beBytes_of_lt {n v : ℕ} (h : v < 256 ^ n) : beNat (beBytes n v) = v := by
  rw [beNat_beBytes, Nat.mod_eq_of_lt h]

/-- Writing back what was read. -/
theorem beBytes_beNat (bs : List UInt8) : beBytes bs.length (beNat bs) = bs := by
  induction bs with
  | nil => rfl
  | cons b bs ih =>
    have hlt := beNat_lt bs
    have hdiv : beNat (b :: bs) / 256 ^ bs.length = b.toNat := by
      rw [beNat, Nat.add_comm, Nat.add_mul_div_right _ _ (Nat.pow_pos (by decide)),
        Nat.div_eq_of_lt hlt, Nat.zero_add]
    rw [List.length_cons, beBytes, hdiv, UInt8.ofNat_toNat, beNat, beBytes_add_mul, ih]

/-! ### Machine words -/

@[simp] theorem ofNat_beNat_beBytes_uint16 (x : UInt16) :
    UInt16.ofNat (beNat (beBytes 2 x.toNat)) = x := by
  rw [beNat_beBytes_of_lt x.toNat_lt, UInt16.ofNat_toNat]

@[simp] theorem ofNat_beNat_beBytes_uint32 (x : UInt32) :
    UInt32.ofNat (beNat (beBytes 4 x.toNat)) = x := by
  rw [beNat_beBytes_of_lt x.toNat_lt, UInt32.ofNat_toNat]

theorem beBytes_uint16 {bs : List UInt8} (h : bs.length = 2) :
    beBytes 2 (UInt16.ofNat (beNat bs)).toNat = bs := by
  have hlt := beNat_lt bs
  rw [h] at hlt
  rw [UInt16.toNat_ofNat_of_lt' hlt, ← h, beBytes_beNat]

theorem beBytes_uint32 {bs : List UInt8} (h : bs.length = 4) :
    beBytes 4 (UInt32.ofNat (beNat bs)).toNat = bs := by
  have hlt := beNat_lt bs
  rw [h] at hlt
  rw [UInt32.toNat_ofNat_of_lt' hlt, ← h, beBytes_beNat]

end LebStudy.BigEndian
