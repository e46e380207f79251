import Mathlib.Data.List.GetD
import Mathlib.Logic.Function.Basic

/-!
# Memory behind a pointer

A buffer is all of the memory from some pointer on, as a function of the offset.
Programs that keep a buffer between calls read the bytes of an earlier call
behind a shorter packet, and programs that follow lengths given in the data read
past its end, so what lies behind the bytes written is part of the state.
-/

namespace LebStudy

/-- The memory from the start of a buffer on. -/
abbrev Buffer := ℕ → UInt8

namespace Buffer

/-- The first `n` bytes. -/
def bytes (buf : Buffer) (n : ℕ) : List UInt8 := (List.range n).map buf

/-- Overwrites the first bytes, as `recvfrom` does. -/
def store (buf : Buffer) (packet : List UInt8) : Buffer := fun i => packet.getD i (buf i)

/-- `memmove(buf, buf + from, n)` -/
def moveDown (buf : Buffer) (offset n : ℕ) : Buffer :=
  fun i => if i < n then buf (offset + i) else buf i

/-- The pointer `buf + n`. -/
def plus (buf : Buffer) (n : ℕ) : Buffer := fun i => buf (n + i)

/-- The bytes lie at the start of the buffer. -/
def Holds (buf : Buffer) (bs : List UInt8) : Prop := buf.bytes bs.length = bs

variable {buf : Buffer} {packet : List UInt8} {n : ℕ}

@[simp] theorem bytes_length : (buf.bytes n).length = n := by simp [bytes]

theorem take_bytes {m : ℕ} (h : m ≤ n) : (buf.bytes n).take m = buf.bytes m := by
  rw [bytes, ← List.map_take, List.take_range, Nat.min_eq_left h, bytes]

theorem bytes_congr {buf' : Buffer} (h : ∀ i < n, buf i = buf' i) : buf.bytes n = buf'.bytes n :=
  List.map_congr_left fun i hi => h i (List.mem_range.mp hi)

theorem store_of_lt {i : ℕ} (h : i < packet.length) : buf.store packet i = packet[i] :=
  List.getD_eq_getElem _ _ h

theorem bytes_store (h : n ≤ packet.length) : (buf.store packet).bytes n = packet.take n := by
  apply List.ext_getElem
  · simp [h]
  · intro i hi hi'
    have hlt : i < packet.length := by simp at hi; omega
    simp [bytes, store_of_lt hlt]

theorem bytes_moveDown (offset : ℕ) :
    (buf.moveDown offset n).bytes n = (buf.bytes (offset + n)).drop offset := by
  apply List.ext_getElem
  · simp
  · intro i hi hi'
    have hlt : i < n := by simpa using hi
    simp [bytes, moveDown, hlt]

/-! ### What lies behind a pointer -/

theorem bytes_add (m n : ℕ) : buf.bytes (m + n) = buf.bytes m ++ (buf.plus m).bytes n := by
  rw [bytes, List.range_add, List.map_append, List.map_map]
  rfl

theorem plus_plus (m n : ℕ) : (buf.plus m).plus n = buf.plus (m + n) := by
  funext i
  show buf (m + (n + i)) = buf (m + n + i)
  rw [Nat.add_assoc]

theorem plus_zero (buf : Buffer) : buf.plus 0 = buf := by
  funext i
  rw [plus, Nat.zero_add]

theorem holds_append {as bs : List UInt8} :
    buf.Holds (as ++ bs) ↔ buf.Holds as ∧ (buf.plus as.length).Holds bs := by
  rw [Holds, List.length_append, bytes_add]
  constructor
  · intro h
    exact List.append_inj h bytes_length
  · rintro ⟨has, hbs⟩
    rw [has, hbs]

theorem holds_store (buf : Buffer) (packet : List UInt8) : (buf.store packet).Holds packet := by
  rw [Holds, bytes_store (Nat.le_refl _), List.take_length]

theorem store_of_le {i : ℕ} (h : packet.length ≤ i) : buf.store packet i = buf i :=
  List.getD_eq_default _ _ h

/-- The same packet in two buffers. -/
theorem store_congr {buf' : Buffer} {i : ℕ} (h : i < packet.length) :
    buf.store packet i = buf'.store packet i := by
  rw [store_of_lt h, store_of_lt h]

/-- A shorter packet leaves the bytes behind it. -/
theorem store_nil (buf : Buffer) : buf.store [] = buf := by
  funext i
  rfl

/-! ### Copying by a loop, the ranges overlapping -/

/-- `for (int i = 0 ; i < n ; i++) buf[dst + i] = buf[src + i]` -/
def copyForward (dst src n : ℕ) (buf : Buffer) : Buffer :=
  (List.range n).foldl (fun b i => Function.update b (dst + i) (b (src + i))) buf

/-- `for (int i = 0 ; i < n ; i++) buf[dst + (n - i - 1)] = buf[src + (n - i - 1)]` -/
def copyBackward (dst src n : ℕ) (buf : Buffer) : Buffer :=
  (List.range n).foldl (fun b i => Function.update b (dst + (n - i - 1)) (b (src + (n - i - 1))))
    buf

section Copy

variable {dst src : ℕ}

/-- Downwards, the first byte goes first. -/
theorem copyForward_apply (h : dst ≤ src) (buf : Buffer) (n k : ℕ) :
    buf.copyForward dst src n k =
      if dst ≤ k ∧ k < dst + n then buf (src + (k - dst)) else buf k := by
  induction n generalizing k with
  | zero => rw [if_neg (by omega), copyForward, List.range_zero, List.foldl_nil]
  | succ n ih =>
    -- the last turn reads behind everything that the others have written
    have hstep : buf.copyForward dst src (n + 1) =
        Function.update (buf.copyForward dst src n) (dst + n)
          (buf.copyForward dst src n (src + n)) := by
      rw [copyForward, List.range_succ, List.foldl_append, List.foldl_cons, List.foldl_nil]
      rfl
    rw [hstep]
    by_cases hk : k = dst + n
    · subst hk
      rw [Function.update_self, ih, if_neg (by omega), if_pos (by omega), Nat.add_sub_cancel_left]
    · rw [Function.update_of_ne hk, ih]
      by_cases hin : dst ≤ k ∧ k < dst + n
      · rw [if_pos hin, if_pos (by omega)]
      · rw [if_neg hin, if_neg (by omega)]

/-- Upwards, the last byte goes first. -/
theorem copyBackward_apply (h : src ≤ dst) (buf : Buffer) (n k : ℕ) :
    buf.copyBackward dst src n k =
      if dst ≤ k ∧ k < dst + n then buf (src + (k - dst)) else buf k := by
  induction n generalizing buf k with
  | zero => rw [if_neg (by omega), copyBackward, List.range_zero, List.foldl_nil]
  | succ n ih =>
    -- the first turn moves the last byte, which no other turn reads
    have hstep : buf.copyBackward dst src (n + 1) =
        copyBackward dst src n (Function.update buf (dst + n) (buf (src + n))) := by
      rw [copyBackward, List.range_succ_eq_map, List.foldl_cons, List.foldl_map]
      simp only [Nat.sub_zero, Nat.add_sub_cancel, Nat.succ_eq_add_one, Nat.add_sub_add_right]
      rfl
    rw [hstep, ih]
    by_cases hin : dst ≤ k ∧ k < dst + n
    · rw [if_pos hin, if_pos (by omega), Function.update_of_ne (by omega)]
    · rw [if_neg hin]
      by_cases hk : k = dst + n
      · subst hk
        rw [Function.update_self, if_pos (by omega), Nat.add_sub_cancel_left]
      · rw [Function.update_of_ne hk, if_neg (by omega)]

end Copy

/-! ### Writing behind a pointer -/

/-- Overwrites the bytes from `buf + offset` on. -/
def storeAt (buf : Buffer) (offset : ℕ) (packet : List UInt8) : Buffer := fun i =>
  if offset ≤ i then packet.getD (i - offset) (buf i) else buf i

theorem storeAt_of_lt {offset i : ℕ} (h : i < offset) : buf.storeAt offset packet i = buf i :=
  if_neg (by omega)

theorem storeAt_of_le {offset i : ℕ} (h : offset + packet.length ≤ i) :
    buf.storeAt offset packet i = buf i := by
  rw [storeAt]
  by_cases hi : offset ≤ i
  · rw [if_pos hi, List.getD_eq_default _ _ (by omega)]
  · rw [if_neg hi]

theorem storeAt_add {offset i : ℕ} (h : i < packet.length) :
    buf.storeAt offset packet (offset + i) = packet.getD i 0 := by
  rw [storeAt, if_pos (Nat.le_add_right _ _), Nat.add_sub_cancel_left, List.getD_eq_getElem _ _ h,
    List.getD_eq_getElem _ _ h]

end Buffer

end LebStudy
