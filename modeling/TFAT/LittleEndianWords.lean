import Mathlib.Tactic.Ring
import TFAT.ByteRegions

/-!
# Arrays of little-endian words in a block of bytes

A block of raw bytes is also an array of fixed-width unsigned words, least
significant byte first. A cell is read and stored at the byte position of its
index, and storing one cell leaves every other cell of the block as it was.
-/
namespace TFAT.LittleEndianWords
open ByteRegions

abbrev Bytes := List UInt8

/-- The number whose little-endian digits are the given bytes. -/
def value : Bytes → ℕ
  | [] => 0
  | b :: bs => b.toNat + 256 * value bs

/-- The low `w` bytes of a number, least significant first. -/
def encode : ℕ → ℕ → Bytes
  | 0, _ => []
  | w + 1, n => UInt8.ofNat n :: encode w (n / 256)

@[simp] theorem length_encode (w n : ℕ) : (encode w n).length = w := by
  induction w generalizing n with
  | zero => rfl
  | succ w ih => simp only [encode, List.length_cons, ih]

theorem value_lt (bs : Bytes) : value bs < 256 ^ bs.length := by
  induction bs with
  | nil => simp [value]
  | cons b bs ih =>
      have hb := b.toNat_lt
      simp only [value, List.length_cons, pow_succ]
      omega

theorem value_slice_lt (b : Bytes) (off n : ℕ) : value (slice b off n) < 256 ^ n :=
  (value_lt _).trans_le (Nat.pow_le_pow_right (by norm_num) (length_slice_le _ _ _))

theorem value_encode (w n : ℕ) : value (encode w n) = n % 256 ^ w := by
  induction w generalizing n with
  | zero => simp [encode, value, Nat.mod_one]
  | succ w ih =>
      rw [encode, value, ih, UInt8.toNat_ofNat', pow_succ' 256, Nat.mod_mul]

theorem encode_mod (w n : ℕ) : encode w (n % 256 ^ w) = encode w n := by
  induction w generalizing n with
  | zero => rfl
  | succ w ih =>
      have hhead : UInt8.ofNat (n % 256 ^ (w + 1)) = UInt8.ofNat n := by
        apply UInt8.toNat.inj
        rw [UInt8.toNat_ofNat', UInt8.toNat_ofNat', pow_succ, Nat.mod_mul_left_mod]
      rw [encode, encode, hhead, pow_succ', Nat.mod_mul_right_div_self, ih]

/-- The cell of width `w` at index `i`. -/
def cell (w : ℕ) (t : Bytes) (i : ℕ) : ℕ := value (slice t (w * i) w)

/-- Store the low `w` bytes of `n` into the cell at index `i`. -/
def setCell (w : ℕ) (t : Bytes) (i n : ℕ) : Bytes := splice 0 t (w * i) (encode w n)

/-- The whole cell at index `i` lies in the block. -/
def HasCell (w : ℕ) (t : Bytes) (i : ℕ) : Prop := w * i + w ≤ t.length

instance (w : ℕ) (t : Bytes) (i : ℕ) : Decidable (HasCell w t i) :=
  inferInstanceAs (Decidable (_ ≤ _))

theorem cell_lt (w : ℕ) (t : Bytes) (i : ℕ) : cell w t i < 256 ^ w :=
  value_slice_lt t (w * i) w

theorem HasCell.lt_length {w : ℕ} {t : Bytes} {i : ℕ} (hw : 0 < w) (h : HasCell w t i) :
    i < t.length := by
  have hi := Nat.le_mul_of_pos_left i hw
  unfold HasCell at h
  omega

/-- A cell that is cut off by the end of the block has a zero top byte. -/
theorem cell_lt_of_not_hasCell {w : ℕ} {t : Bytes} {i : ℕ} (h : ¬ HasCell w t i) :
    cell w t i < 256 ^ (w - 1) := by
  refine (value_lt _).trans_le (Nat.pow_le_pow_right (by norm_num) ?_)
  rw [length_slice]
  rw [HasCell] at h
  omega

theorem length_setCell {w : ℕ} {t : Bytes} {i : ℕ} (n : ℕ) (h : HasCell w t i) :
    (setCell w t i n).length = t.length :=
  length_splice_of_le (by rw [length_encode]; exact h)

theorem hasCell_setCell {w : ℕ} {t : Bytes} {i : ℕ} (n : ℕ) (h : HasCell w t i) (j : ℕ) :
    HasCell w (setCell w t i n) j ↔ HasCell w t j := by
  rw [HasCell, length_setCell n h, HasCell]

theorem cell_setCell_self (w : ℕ) (t : Bytes) (i n : ℕ) :
    cell w (setCell w t i n) i = n % 256 ^ w := by
  have h := slice_splice_self 0 t (w * i) (encode w n)
  rw [length_encode] at h
  rw [cell, setCell, h, value_encode]

theorem cell_setCell_ne {w : ℕ} {t : Bytes} {i j : ℕ} (n : ℕ) (h : HasCell w t j)
    (hij : i ≠ j) : cell w (setCell w t i n) j = cell w t j := by
  have hs : w * j + w ≤ w * i ∨ w * i + w ≤ w * j := by
    rcases Nat.lt_or_gt_of_ne hij with hlt | hlt
    · exact Or.inr (by simpa only [Nat.mul_succ] using Nat.mul_le_mul_left w hlt)
    · exact Or.inl (by simpa only [Nat.mul_succ] using Nat.mul_le_mul_left w hlt)
  rw [cell, setCell, slice_splice_disjoint h (by rw [length_encode]; exact hs), cell]

/-- Storing a cell of the block leaves the others, also one that the block cuts off. -/
theorem cell_setCell_of_hasCell {w : ℕ} {t : Bytes} {i j : ℕ} (n : ℕ) (h : HasCell w t i)
    (hij : i ≠ j) : cell w (setCell w t i n) j = cell w t j := by
  rw [cell, cell, setCell]
  congr 1
  refine slice_congr fun x h₁ h₂ => ?_
  rw [getElem?_splice_of_le (by rw [length_encode]; exact h), if_neg]
  rw [length_encode]
  rcases Nat.lt_or_gt_of_ne hij with hlt | hlt
  · have hm := Nat.mul_le_mul_left w (Nat.succ_le_of_lt hlt)
    rw [Nat.mul_succ] at hm
    omega
  · have hm := Nat.mul_le_mul_left w (Nat.succ_le_of_lt hlt)
    rw [Nat.mul_succ] at hm
    omega

theorem encode_value (bs : Bytes) : encode bs.length (value bs) = bs := by
  induction bs with
  | nil => rfl
  | cons b bs ih =>
      have hb := b.toNat_lt
      rw [List.length_cons, value, encode,
        show (b.toNat + 256 * value bs) / 256 = value bs by omega,
        ih, UInt8.ofNat_add, UInt8.ofNat_toNat, UInt8.ofNat_mul]
      simp

theorem setCell_eq_self {w : ℕ} {t : Bytes} {i n : ℕ} (h : HasCell w t i)
    (hn : cell w t i = n % 256 ^ w) : setCell w t i n = t := by
  have he := encode_value (slice t (w * i) w)
  rw [length_slice_of_le h] at he
  rw [setCell, ← encode_mod, ← hn, cell, he, splice_slice_self 0 t h]

theorem setCell_mod (w : ℕ) (t : Bytes) (i n : ℕ) :
    setCell w t i (n % 256 ^ w) = setCell w t i n := by
  rw [setCell, setCell, encode_mod]

end TFAT.LittleEndianWords
