import Mathlib.Data.List.Basic

/-!
# Regions of finite sequences

Reading and overwriting a stretch of a list by position, the way a file or a
block of memory is read and overwritten. Reads stop where the list ends.
Writes past the end first extend the list with a filler, and a write of no
elements changes nothing. Every law below reduces to one description of the
overwritten list position by position.
-/
namespace TFAT.ByteRegions
variable {α : Type*}

/-- The elements at positions `off` to `off + n`, fewer where the list ends. -/
def slice (l : List α) (off n : ℕ) : List α := (l.drop off).take n

/-- Overwrite from position `off`, with `z` in any gap beyond the end. -/
def splice (z : α) (l : List α) (off : ℕ) (d : List α) : List α :=
  if d.length = 0 then l
  else (l ++ List.replicate (off - l.length) z).take off ++ d ++ l.drop (off + d.length)

theorem length_slice (l : List α) (off n : ℕ) :
    (slice l off n).length = min n (l.length - off) := by
  simp [slice]

theorem length_slice_of_le {l : List α} {off n : ℕ} (h : off + n ≤ l.length) :
    (slice l off n).length = n := by
  rw [length_slice]
  omega

theorem length_slice_le (l : List α) (off n : ℕ) : (slice l off n).length ≤ n := by
  rw [length_slice]
  omega

theorem getElem?_slice (l : List α) (off n i : ℕ) :
    (slice l off n)[i]? = if i < n then l[off + i]? else none := by
  simp [slice, List.getElem?_take, List.getElem?_drop]

@[simp] theorem slice_zero_length (l : List α) : slice l 0 l.length = l := by
  simp [slice]

theorem length_filled {l : List α} {z : α} {k n : ℕ} (h : l.length + k = n) :
    (l ++ List.replicate k z).length = n := by
  rw [List.length_append, List.length_replicate, h]

theorem slice_slice (l : List α) (off n i m : ℕ) (h : i + m ≤ n) :
    slice (slice l off n) i m = slice l (off + i) m := by
  apply List.ext_getElem?
  intro k
  simp only [getElem?_slice]
  split_ifs with h₁ h₂
  · rw [Nat.add_assoc]
  · omega
  · rfl

theorem slice_append_slice (l : List α) (off n m : ℕ) :
    slice l off n ++ slice l (off + n) m = slice l off (n + m) := by
  simp [slice, List.take_add, List.drop_drop]

theorem slice_append_left {l r : List α} {off n : ℕ} (h : off + n ≤ l.length) :
    slice (l ++ r) off n = slice l off n := by
  apply List.ext_getElem?
  intro k
  simp only [getElem?_slice]
  split_ifs
  · exact List.getElem?_append_left (by omega)
  · rfl

theorem slice_append_right (l r : List α) (off n : ℕ) :
    slice (l ++ r) (l.length + off) n = slice r off n := by
  rw [slice, slice, ← List.drop_drop, List.drop_left]

theorem slice_append_middle (l d r : List α) : slice (l ++ (d ++ r)) l.length d.length = d := by
  have h := slice_append_right l (d ++ r) 0 d.length
  rw [Nat.add_zero] at h
  rw [h, slice_append_left (by omega), slice_zero_length]

theorem slice_congr {l m : List α} {off n : ℕ}
    (h : ∀ i, off ≤ i → i < off + n → l[i]? = m[i]?) : slice l off n = slice m off n := by
  apply List.ext_getElem?
  intro k
  simp only [getElem?_slice]
  split_ifs with hk
  · exact h _ (by omega) (by omega)
  · rfl

theorem splice_nil (z : α) (l : List α) (off : ℕ) : splice z l off [] = l := rfl

theorem length_splice (z : α) (l : List α) (off : ℕ) (d : List α) :
    (splice z l off d).length =
      if d.length = 0 then l.length else max l.length (off + d.length) := by
  unfold splice
  split_ifs with h
  · rfl
  · simp only [List.length_append, List.length_take, List.length_replicate, List.length_drop]
    omega

theorem length_splice_of_le {z : α} {l : List α} {off : ℕ} {d : List α}
    (h : off + d.length ≤ l.length) : (splice z l off d).length = l.length := by
  rw [length_splice]
  split_ifs <;> omega

theorem length_le_length_splice (z : α) (l : List α) (off : ℕ) (d : List α) :
    l.length ≤ (splice z l off d).length := by
  rw [length_splice]
  split_ifs <;> omega

theorem getElem?_splice_inside (z : α) (l : List α) (off : ℕ) (d : List α) {i : ℕ}
    (h₁ : off ≤ i) (h₂ : i < off + d.length) : (splice z l off d)[i]? = d[i - off]? := by
  have hd : ¬ d.length = 0 := by omega
  have hp : ((l ++ List.replicate (off - l.length) z).take off).length = off := by
    simp only [List.length_take, List.length_append, List.length_replicate]
    omega
  rw [splice, if_neg hd, List.append_assoc, List.getElem?_append_right (by omega), hp,
    List.getElem?_append_left (by omega)]

/-- Positions the write does not reach keep what they held. -/
theorem getElem?_splice_outside (z : α) (l : List α) (off : ℕ) (d : List α) {i : ℕ}
    (hl : i < l.length) (h : i < off ∨ off + d.length ≤ i) :
    (splice z l off d)[i]? = l[i]? := by
  unfold splice
  split_ifs with hd
  · rfl
  · have hp : ((l ++ List.replicate (off - l.length) z).take off).length = off := by
      simp only [List.length_take, List.length_append, List.length_replicate]
      omega
    rcases h with h | h
    · rw [List.append_assoc, List.getElem?_append_left (by omega), List.getElem?_take_of_lt h,
        List.getElem?_append_left hl]
    · rw [List.getElem?_append_right (by rw [List.length_append, hp]; exact h),
        List.length_append, hp, List.getElem?_drop]
      congr 1
      omega

theorem getElem?_splice_of_le {z : α} {l : List α} {off : ℕ} {d : List α}
    (h : off + d.length ≤ l.length) (i : ℕ) :
    (splice z l off d)[i]? =
      if off ≤ i ∧ i < off + d.length then d[i - off]? else l[i]? := by
  split_ifs with hi
  · exact getElem?_splice_inside z l off d hi.1 hi.2
  · by_cases hl : i < l.length
    · exact getElem?_splice_outside z l off d hl (by omega)
    · have h₁ : (splice z l off d).length ≤ i := by rw [length_splice_of_le h]; omega
      rw [List.getElem?_eq_none h₁, List.getElem?_eq_none (by omega)]

theorem slice_splice_self (z : α) (l : List α) (off : ℕ) (d : List α) :
    slice (splice z l off d) off d.length = d := by
  apply List.ext_getElem?
  intro k
  rw [getElem?_slice]
  split_ifs with hk
  · rw [getElem?_splice_inside z l off d (by omega) (by omega), Nat.add_sub_cancel_left]
  · rw [List.getElem?_eq_none (by omega)]

theorem slice_splice_inside (z : α) (l : List α) (off : ℕ) {d : List α} {i n : ℕ}
    (h : i + n ≤ d.length) : slice (splice z l off d) (off + i) n = slice d i n := by
  rw [← slice_slice _ off d.length i n h, slice_splice_self]

theorem slice_splice_disjoint {z : α} {l : List α} {off : ℕ} {d : List α} {p n : ℕ}
    (hl : p + n ≤ l.length) (h : p + n ≤ off ∨ off + d.length ≤ p) :
    slice (splice z l off d) p n = slice l p n :=
  slice_congr fun _ h₁ h₂ => getElem?_splice_outside z l off d (by omega) (by omega)

theorem drop_splice {z : α} {l : List α} {off : ℕ} {d : List α} {n : ℕ}
    (hl : off + d.length ≤ l.length) (h : off + d.length ≤ n) :
    (splice z l off d).drop n = l.drop n := by
  apply List.ext_getElem?
  intro k
  rw [List.getElem?_drop, List.getElem?_drop, getElem?_splice_of_le hl, if_neg (by omega)]

theorem splice_slice_self (z : α) (l : List α) {off n : ℕ} (h : off + n ≤ l.length) :
    splice z l off (slice l off n) = l := by
  have hn := length_slice_of_le h
  apply List.ext_getElem?
  intro i
  rw [getElem?_splice_of_le (by omega), getElem?_slice]
  split_ifs with h₁ h₂
  · congr 1
    omega
  · omega
  · rfl

theorem splice_splice_append {z : α} {l : List α} {off : ℕ} {a b : List α}
    (h : off + a.length + b.length ≤ l.length) :
    splice z (splice z l off a) (off + a.length) b = splice z l off (a ++ b) := by
  have ha : (splice z l off a).length = l.length := length_splice_of_le (by omega)
  apply List.ext_getElem?
  intro i
  rw [getElem?_splice_of_le (by rw [ha]; omega), getElem?_splice_of_le (by omega),
    getElem?_splice_of_le (by rw [List.length_append]; omega), List.length_append]
  split_ifs with h₁ h₂ h₃ h₄ h₅
  · rw [List.getElem?_append_right (by omega), Nat.sub_sub]
  · omega
  · rw [List.getElem?_append_left (by omega)]
  · omega
  · omega
  · rfl

/-- A second write to the same region hides the first one. -/
theorem splice_splice_same {z : α} {l : List α} {off : ℕ} {a b : List α}
    (h : off + a.length ≤ l.length) (hab : a.length = b.length) :
    splice z (splice z l off a) off b = splice z l off b := by
  have hl : (splice z l off a).length = l.length := length_splice_of_le h
  apply List.ext_getElem?
  intro i
  rw [getElem?_splice_of_le (by rw [hl]; omega), getElem?_splice_of_le h,
    getElem?_splice_of_le (by omega), hab]
  split_ifs <;> rfl

/-- Writing back what a region holds after a change inside it is that change. -/
theorem splice_splice_slice {z : α} {l : List α} {off n k : ℕ} {d : List α}
    (h : off + n ≤ l.length) (hk : k + d.length ≤ n) :
    splice z l off (splice z (slice l off n) k d) = splice z l (off + k) d := by
  have hn : (slice l off n).length = n := length_slice_of_le h
  have hs : (splice z (slice l off n) k d).length = n := by
    rw [length_splice_of_le (by rw [hn]; exact hk), hn]
  apply List.ext_getElem?
  intro i
  rw [getElem?_splice_of_le (by rw [hs]; exact h), hs,
    getElem?_splice_of_le (by rw [hn]; exact hk), getElem?_slice,
    getElem?_splice_of_le (by omega)]
  split_ifs <;> first | rfl | omega | (congr 1; omega)

theorem slice_splice_within {z : α} {l : List α} {off n k : ℕ} {d : List α}
    (h : off + n ≤ l.length) (hk : k + d.length ≤ n) :
    slice (splice z l (off + k) d) off n = splice z (slice l off n) k d := by
  have hn : (slice l off n).length = n := length_slice_of_le h
  have hs : (splice z (slice l off n) k d).length = n := by
    rw [length_splice_of_le (by rw [hn]; exact hk), hn]
  have hself := slice_splice_self z l off (splice z (slice l off n) k d)
  rw [hs, splice_splice_slice h hk] at hself
  exact hself

theorem splice_eq_self {z : α} {l : List α} {off : ℕ} {d : List α}
    (hl : off + d.length ≤ l.length) (h : slice l off d.length = d) : splice z l off d = l := by
  conv_lhs => rw [← h]
  exact splice_slice_self z l hl

theorem splice_append_middle {z : α} {a r c d : List α} (h : d.length = r.length) :
    splice z (a ++ (r ++ c)) a.length d = a ++ (d ++ c) := by
  unfold splice
  split_ifs with hd
  · have hr : r = [] := List.eq_nil_of_length_eq_zero (h ▸ hd)
    rw [hr, List.eq_nil_of_length_eq_zero hd]
  · rw [List.take_append_of_le_length (by rw [List.length_append]; omega), List.take_left,
      List.drop_length_add_append, h, List.drop_left, List.append_assoc]

theorem splice_append {z : α} {a r d : List α} (h : d.length = r.length) :
    splice z (a ++ r) a.length d = a ++ d := by
  simpa using splice_append_middle (a := a) (c := []) h

theorem splice_all {z : α} {l d : List α} (h : d.length = l.length) : splice z l 0 d = d :=
  splice_append (a := []) h

theorem length_flatten_replicate (k : ℕ) (d : List α) :
    (List.replicate k d).flatten.length = k * d.length := by
  simp

theorem slice_flatten_replicate {k j : ℕ} (h : j < k) (d : List α) :
    slice (List.replicate k d).flatten (j * d.length) d.length = d := by
  obtain ⟨m, rfl⟩ : ∃ m, k = j + (m + 1) := ⟨k - j - 1, by omega⟩
  have hs : (List.replicate (j + (m + 1)) d).flatten =
      (List.replicate j d).flatten ++ (d ++ (List.replicate m d).flatten) := by
    rw [List.replicate_add, List.flatten_append, List.replicate_succ, List.flatten_cons]
  have ha := slice_append_right (List.replicate j d).flatten
    (d ++ (List.replicate m d).flatten) 0 d.length
  rw [length_flatten_replicate, Nat.add_zero] at ha
  rw [hs, ha, slice_append_left (by omega), slice_zero_length]

theorem getElem?_flatten_replicate {k i : ℕ} (d : List α) (h : i < k * d.length) :
    (List.replicate k d).flatten[i]? = d[i % d.length]? := by
  have hpos : 0 < d.length := by
    by_contra hcon
    rw [show d.length = 0 by omega, Nat.mul_zero] at h
    omega
  have hs := slice_flatten_replicate ((Nat.div_lt_iff_lt_mul hpos).mpr h) d
  have hget := congrArg (fun l => l[i % d.length]?) hs
  simp only [getElem?_slice, if_pos (Nat.mod_lt i hpos), Nat.div_add_mod'] at hget
  exact hget

/-- Equal regions behind each other are a row of copies. -/
theorem slice_eq_flatten_replicate {l d : List α} {off n k : ℕ}
    (h : ∀ j < k, slice l (off + j * n) n = d) :
    slice l off (k * n) = (List.replicate k d).flatten := by
  induction k with
  | zero => simp [slice]
  | succ k ih =>
      rw [Nat.succ_mul, ← slice_append_slice, ih fun j hj => h j (by omega), h k (by omega),
        List.replicate_succ', List.flatten_append, List.flatten_singleton]

end TFAT.ByteRegions
