import TFAT.BlockStrings
import TFAT.PathSegments

/-!
# The blocks that paths are built in

`get_parent_path` and `address_convertor` once more, with every byte that they load from and
store into the blocks they allocate. Where they return, their blocks hold the strings of the
plain functions, so what they return is known wherever their stores stay inside. The lengths
that the source keeps in an `int` are tested to fit in one.
-/
namespace TFAT.PathBuffers
open ByteRegions LittleEndianWords DiskLayout FileDescriptor PathText EntryNames PathSegments
open BlockStrings

/-- `if (ret[strlen(ret) - 1] == '/') ret[strlen(ret) - 1] = 0;` -/
def stripSlashIn (ret : Bytes) : Except Fault Bytes := do
  let b ← lastByte ret
  if b = slash then do
    let n ← strlen ret
    copyIn ret (n - 1) [0]
  else .ok ret

/-- `while (ret[len] != '/' && len) len--;` -/
def scanBackIn (ret : Bytes) : ℕ → Except Fault ℕ
  | 0 => do
      let _ ← byteAt ret 0
      .ok 0
  | len + 1 => do
      let b ← byteAt ret (len + 1)
      if b = slash then .ok (len + 1) else scanBackIn ret len

/-- `if (ret[strlen(ret) - 1] != '/')`, append one; the zero is stored first. -/
def endSlashIn (ret : Bytes) : Except Fault Bytes := do
  let b ← lastByte ret
  if b = slash then .ok ret
  else do
    let n ← strlen ret
    let ret ← copyIn ret (n + 1) [0]
    let n ← strlen ret
    copyIn ret n [slash]

variable (fill : ℕ → UInt8)

def getParentPathIn (path : Text) : Except Fault Bytes := do
  let ret ← strcpy (malloc fill (path.length + 1)) path
  let ret ← stripSlashIn ret
  let n ← strlen ret
  let len ← toInt n
  let len ← scanBackIn ret len
  let ret ← copyIn ret len [slash]
  copyIn ret (len + 1) [0]

/-- The branches of `address_convertor` for one dot or two, with a copy of the path that the
argument goes on from. -/
def appendIn (ret : Bytes) (path : Text) (seek : ℕ) : Except Fault Bytes := do
  let n ← strlen ret
  let len ← toInt (n + path.length)
  let ret ← strcat (realloc fill ret len) (path.drop seek)
  endSlashIn ret

/-- `address_convertor`; a null path is `none`. -/
def addressConvertorIn (currentPath : Text) : Option Text → Except Fault Bytes
  | none => do
      let len ← toInt (currentPath.length + 1)
      strcpy (malloc fill len) currentPath
  | some path =>
      if path[0]? = some dot ∧ path[1]? = some dot then do
        let seek := if path[2]? = some slash then 3 else 2
        let ret ← getParentPathIn fill currentPath
        appendIn fill ret path seek
      else if path[0]? = some dot then do
        let seek := if path[1]? = some slash then 2 else 1
        let len ← toInt (currentPath.length + 1)
        let ret ← strcpy (malloc fill len) currentPath
        appendIn fill ret path seek
      else if path[0]? = some slash then do
        let len ← toInt (path.length + 2)
        let ret ← strcpy (malloc fill len) path
        endSlashIn ret
      else do
        let len ← toInt (currentPath.length + path.length + 2)
        let ret ← strcpy (malloc fill len) currentPath
        let ret ← strcat ret path
        endSlashIn ret

section Steps
variable {ret : Bytes} {t : Text} {n : ℕ}

theorem stripSlash_concat (u : Text) (c : UInt8) :
    stripSlash (u ++ [c]) = if c = slash then u else u ++ [c] := by
  simp [stripSlash]

theorem endSlash_concat (u : Text) (c : UInt8) :
    endSlash (u ++ [c]) = if c = slash then u ++ [c] else u ++ [c] ++ [slash] := by
  simp [endSlash]

theorem cut_of_holds (h : Holds ret t) (hn : n ≤ t.length) :
    ∃ b, copyIn ret n [0] = .ok b ∧ b.length = ret.length ∧ Holds b (t.take n) := by
  have hlen : (t.take n).length = n := by simpa using hn
  have hb := builds_copyIn (u := []) (h.take_prefix n)
    (by rw [List.append_nil]; exact fun h₀ => h.zero (List.mem_of_mem_take h₀))
  rw [hlen, List.nil_append, List.append_nil] at hb
  exact hb.fits (by have := h.length_lt; omega)

theorem builds_stripSlashIn (h : Holds ret t) (ht : t ≠ []) :
    ∃ b, stripSlashIn ret = .ok b ∧ b.length = ret.length ∧ Holds b (stripSlash t) := by
  obtain ⟨u, c, rfl⟩ := (List.eq_nil_or_concat' t).resolve_left ht
  rw [stripSlashIn, h.lastByte_eq List.getLast?_concat, ok_bind, stripSlash_concat]
  split_ifs with hc
  · obtain ⟨b, hb, hlen, hh⟩ := cut_of_holds h (n := u.length) (by simp)
    rw [h.strlen_eq, ok_bind, List.length_append, List.length_singleton, Nat.add_sub_cancel]
    rw [List.take_left] at hh
    exact ⟨b, hb, hlen, hh⟩
  · exact ⟨ret, rfl, rfl, h⟩

theorem scanBackIn_eq (h : Holds ret t) (hn : n ≤ t.length) :
    scanBackIn ret n = .ok (scanBack t n) := by
  induction n with
  | zero =>
      rw [scanBackIn, h.byteAt_eq hn]
      rfl
  | succ n ih =>
      have hget : t.getD (n + 1) 0 = slash ↔ t[n + 1]? = some slash := by
        rw [List.getD_eq_getElem?_getD]
        cases t[n + 1]? with
        | none => exact iff_of_false (by decide) (by simp)
        | some b => simp
      rw [scanBackIn, h.byteAt_eq hn, ok_bind, scanBack, ih (by omega)]
      simp only [hget]
      split_ifs <;> rfl

theorem scanBack_lt (ht : t ≠ []) : scanBack t t.length < t.length := by
  obtain ⟨n, hn⟩ : ∃ n, t.length = n + 1 := Nat.exists_eq_succ_of_ne_zero (by simpa using ht)
  have hle := scanBack_le t n
  rw [hn, scanBack, if_neg (by rw [List.getElem?_eq_none (by omega)]; simp)]
  omega

theorem builds_endSlashIn (h : Holds ret t) (ht : t ≠ []) :
    Builds (endSlashIn ret) ret.length (endSlash t) := by
  obtain ⟨u, c, rfl⟩ := (List.eq_nil_or_concat' t).resolve_left ht
  rw [endSlashIn, h.lastByte_eq List.getLast?_concat, ok_bind, endSlash_concat]
  split_ifs with hc
  · exact ⟨fun _ => ⟨ret, rfl, rfl, h⟩, fun hle => absurd h.length_lt (by omega)⟩
  · generalize u ++ [c] = t at *
    rw [h.strlen_eq, ok_bind]
    refine ⟨fun hfit => ?_, fun hle => ?_⟩
    · rw [List.length_append, List.length_singleton] at hfit
      obtain ⟨tail, hstored, hlen⟩ := h.copyIn_zero hfit
      have hheld : Holds (t ++ 0 :: 0 :: tail) t := ⟨h.zero, by simp⟩
      refine ⟨t ++ [slash] ++ 0 :: tail, ?_, ?_, ?_, ?_⟩
      · rw [hstored, ok_bind, hheld.strlen_eq, ok_bind, copyIn_over_zero]
      · rw [← hlen]
        simp
      · rw [List.mem_append, not_or]
        exact ⟨h.zero, by decide⟩
      · exact ⟨tail, by simp⟩
    · rw [List.length_append, List.length_singleton] at hle
      exact ⟨.wild, by rw [copyIn_of_lt (by simp) (by rw [List.length_singleton]; omega)]; rfl⟩

end Steps

/-- The lengths that `address_convertor` and its call of `get_parent_path` keep in an `int`
fit in one. -/
def LengthsFit (currentPath path : Text) : Prop :=
  if path[0]? = some dot ∧ path[1]? = some dot then
    (stripSlash currentPath).length < 2 ^ 31 ∧
      (getParentPath currentPath).length + path.length < 2 ^ 31
  else if path[0]? = some dot then
    currentPath.length + 1 < 2 ^ 31 ∧ currentPath.length + path.length < 2 ^ 31
  else if path[0]? = some slash then path.length + 2 < 2 ^ 31
  else currentPath.length + path.length + 2 < 2 ^ 31

section Blocks
variable {fill} {ret : Bytes} {t cur path : Text} {seek : ℕ}

/-- The string is cut behind a slash; here the zero is stored last. -/
theorem closed_of_holds {k : ℕ} (h : Holds ret t) (hk : k ≤ t.length) (hroom : k + 1 < ret.length) :
    ∃ b, (copyIn ret k [slash] >>= fun ret => copyIn ret (k + 1) [0]) = .ok b ∧
      b.length = ret.length ∧ Holds b (t.take k ++ [slash]) := by
  have hlen : (t.take k).length = k := by simpa using hk
  have hput := builds_copyIn (u := [slash]) (h.take_prefix k) (by
    rw [List.mem_append, not_or]
    exact ⟨fun hz => h.zero (List.mem_of_mem_take hz), by decide⟩)
  rw [hlen] at hput
  obtain ⟨b, hb, hbl, hbh⟩ := hput.fits (by
    rw [List.length_append, hlen]
    exact hroom)
  have hin : k + ([slash] : Bytes).length + ([0] : Bytes).length ≤ ret.length := hroom
  refine ⟨b, ?_, hbl, hbh⟩
  rw [← hb, copyIn_of_le (by omega), ok_bind, copyIn_of_le, copyIn_of_le,
    ← splice_splice_append hin]
  · rfl
  · exact hin
  · rw [length_splice_of_le (by omega)]
    exact hin

theorem getParentPathIn_of_lt (fill : ℕ → UInt8) (h₀ : 0 ∉ path) (hne : path ≠ [])
    (hint : (stripSlash path).length < 2 ^ 31) :
    ∃ b, getParentPathIn fill path = .ok b ∧ b.length = path.length + 1 ∧
      Holds b (getParentPath path) := by
  obtain ⟨b₁, hb₁, hl₁, hh₁⟩ := holds_strcpy_malloc fill h₀ path.length.lt_succ_self
  obtain ⟨b₂, hb₂, hl₂, hh₂⟩ := builds_stripSlashIn hh₁ hne
  -- the last byte of the path is a slash that is cut, or the scan passes over it
  have hroom : scanBack (stripSlash path) (stripSlash path).length < path.length := by
    rcases eq_or_ne (stripSlash path) [] with hnil | hne'
    · rw [hnil]
      exact List.length_pos_iff.mpr hne
    · exact (scanBack_lt hne').trans_le stripSlash_prefix.length_le
  obtain ⟨b₃, hb₃, hl₃, hh₃⟩ := closed_of_holds hh₂ (scanBack_le (stripSlash path) _) (by omega)
  refine ⟨b₃, ?_, by omega, hh₃⟩
  rw [getParentPathIn, hb₁, ok_bind, hb₂, ok_bind, hh₂.strlen_eq, ok_bind, toInt_of_lt hint,
    ok_bind, scanBackIn_eq hh₂ le_rfl, ok_bind, hb₃]

theorem toInt_of_not_lt {n : ℕ} (h : ¬ n < 2 ^ 31) : toInt n = .error .wild := if_neg h

theorem getParentPathIn_of_not_lt (fill : ℕ → UInt8) (h₀ : 0 ∉ path) (hne : path ≠ [])
    (hint : ¬ (stripSlash path).length < 2 ^ 31) :
    getParentPathIn fill path = .error .wild := by
  obtain ⟨b₁, hb₁, -, hh₁⟩ := holds_strcpy_malloc fill h₀ path.length.lt_succ_self
  obtain ⟨b₂, hb₂, -, hh₂⟩ := builds_stripSlashIn hh₁ hne
  rw [getParentPathIn, hb₁, ok_bind, hb₂, ok_bind, hh₂.strlen_eq, ok_bind, toInt_of_not_lt hint]
  rfl

theorem length_le_endSlash (t : Text) : t.length ≤ (endSlash t).length := by
  unfold endSlash
  split_ifs
  · exact le_rfl
  · rw [List.length_append]
    exact Nat.le_add_right _ _

theorem notMem_drop (h₀ : 0 ∉ path) (n : ℕ) : 0 ∉ path.drop n :=
  fun hz => h₀ (List.mem_of_mem_drop hz)

/-- The argument is appended in a block as long as the two strings. -/
theorem builds_appendIn (h : Holds ret t) (ht : t ≠ []) (h₀ : 0 ∉ path) (hne : path ≠ [])
    (hint : t.length + path.length < 2 ^ 31) :
    Builds (appendIn fill ret path seek) (t.length + path.length)
      (endSlash (t ++ path.drop seek)) := by
  have hpos := List.length_pos_iff.mpr hne
  rw [appendIn, h.strlen_eq, ok_bind, toInt_of_lt hint, ok_bind]
  have hcat := (h.realloc fill (n := t.length + path.length) (by omega)).builds_strcat
    (notMem_drop h₀ seek)
  rw [length_realloc] at hcat
  refine hcat.bind (fun b hb hh => ?_) fun hle => hle.trans (length_le_endSlash _)
  rw [← hb]
  exact builds_endSlashIn hh (by simp [ht])

theorem appendIn_of_not_lt (h : Holds ret t) (hint : ¬ t.length + path.length < 2 ^ 31) :
    appendIn fill ret path seek = .error .wild := by
  rw [appendIn, h.strlen_eq, ok_bind, toInt_of_not_lt hint]
  rfl

theorem getParentPath_ne_nil (t : Text) : getParentPath t ≠ [] := by simp [getParentPath]

theorem builds_addressConvertorIn (fill : ℕ → UInt8) (hc₀ : 0 ∉ cur) (h₀ : 0 ∉ path)
    (hcne : cur ≠ []) (hne : path ≠ []) (hfit : LengthsFit cur path) :
    Builds (addressConvertorIn fill cur (some path)) (addressConvertor cur (some path)).room
      (addressConvertor cur (some path)).text := by
  by_cases h₁ : path[0]? = some dot ∧ path[1]? = some dot
  · simp only [LengthsFit, addressConvertorIn, addressConvertor, if_pos h₁] at hfit ⊢
    obtain ⟨b, hb, -, hh⟩ := getParentPathIn_of_lt fill hc₀ hcne hfit.1
    rw [hb, ok_bind]
    exact builds_appendIn hh (getParentPath_ne_nil cur) h₀ hne hfit.2
  by_cases h₂ : path[0]? = some dot
  · simp only [LengthsFit, addressConvertorIn, addressConvertor, if_neg h₁, if_pos h₂] at hfit ⊢
    obtain ⟨b, hb, -, hh⟩ := holds_strcpy_malloc fill hc₀ cur.length.lt_succ_self
    rw [toInt_of_lt hfit.1, ok_bind, hb, ok_bind]
    exact builds_appendIn hh hcne h₀ hne hfit.2
  by_cases h₃ : path[0]? = some slash
  · simp only [LengthsFit, addressConvertorIn, addressConvertor, if_neg h₁, if_neg h₂,
      if_pos h₃] at hfit ⊢
    obtain ⟨b, hb, hl, hh⟩ := holds_strcpy_malloc fill h₀ (n := path.length + 2) (by omega)
    rw [toInt_of_lt hfit, ok_bind, hb, ok_bind, ← hl]
    exact builds_endSlashIn hh hne
  · simp only [LengthsFit, addressConvertorIn, addressConvertor, if_neg h₁, if_neg h₂,
      if_neg h₃] at hfit ⊢
    obtain ⟨b, hb, hl, hh⟩ :=
      holds_strcpy_malloc fill hc₀ (n := cur.length + path.length + 2) (by omega)
    obtain ⟨b', hb', hl', hh'⟩ := (hh.builds_strcat h₀).fits
      (by rw [List.length_append, hl]; omega)
    rw [toInt_of_lt hfit, ok_bind, hb, ok_bind, hb', ok_bind, ← hl, ← hl']
    exact builds_endSlashIn hh' (by simp [hne])

theorem addressConvertorIn_of_not_fit (fill : ℕ → UInt8) (hc₀ : 0 ∉ cur) (hcne : cur ≠ [])
    (hfit : ¬ LengthsFit cur path) : ∃ e, addressConvertorIn fill cur (some path) = .error e := by
  by_cases h₁ : path[0]? = some dot ∧ path[1]? = some dot
  · simp only [LengthsFit, addressConvertorIn, if_pos h₁] at hfit ⊢
    by_cases hint : (stripSlash cur).length < 2 ^ 31
    · obtain ⟨b, hb, -, hh⟩ := getParentPathIn_of_lt fill hc₀ hcne hint
      rw [hb, ok_bind, appendIn_of_not_lt hh fun h => hfit ⟨hint, h⟩]
      exact ⟨_, rfl⟩
    · rw [getParentPathIn_of_not_lt fill hc₀ hcne hint]
      exact ⟨_, rfl⟩
  by_cases h₂ : path[0]? = some dot
  · simp only [LengthsFit, addressConvertorIn, if_neg h₁, if_pos h₂] at hfit ⊢
    by_cases hint : cur.length + 1 < 2 ^ 31
    · obtain ⟨b, hb, -, hh⟩ := holds_strcpy_malloc fill hc₀ cur.length.lt_succ_self
      rw [toInt_of_lt hint, ok_bind, hb, ok_bind, appendIn_of_not_lt hh fun h => hfit ⟨hint, h⟩]
      exact ⟨_, rfl⟩
    · rw [toInt_of_not_lt hint]
      exact ⟨_, rfl⟩
  by_cases h₃ : path[0]? = some slash
  · simp only [LengthsFit, addressConvertorIn, if_neg h₁, if_neg h₂, if_pos h₃] at hfit ⊢
    rw [toInt_of_not_lt hfit]
    exact ⟨_, rfl⟩
  · simp only [LengthsFit, addressConvertorIn, if_neg h₁, if_neg h₂, if_neg h₃] at hfit ⊢
    rw [toInt_of_not_lt hfit]
    exact ⟨_, rfl⟩

/-- `address_convertor` returns, with the string of the plain function, where the lengths
fit in their `int`s and the string fits in its block. -/
theorem addressConvertorIn_eq_ok_iff (hc₀ : 0 ∉ cur) (h₀ : 0 ∉ path) (hcne : cur ≠ [])
    (hne : path ≠ []) (P : Text → Prop) :
    (∃ b, addressConvertorIn fill cur (some path) = .ok b ∧ P (cString b)) ↔
      LengthsFit cur path ∧ (addressConvertor cur (some path)).text.length <
        (addressConvertor cur (some path)).room ∧ P (addressConvertor cur (some path)).text := by
  by_cases hfit : LengthsFit cur path
  · have hb := builds_addressConvertorIn fill hc₀ h₀ hcne hne hfit
    constructor
    · rintro ⟨b, hok, hP⟩
      obtain ⟨hlt, -, hh⟩ := hb.of_eq_ok hok
      exact ⟨hfit, hlt, hh.cString_eq ▸ hP⟩
    · rintro ⟨-, hlt, hP⟩
      obtain ⟨b, hok, -, hh⟩ := hb.fits hlt
      exact ⟨b, hok, hh.cString_eq.symm ▸ hP⟩
  · refine iff_of_false ?_ fun h => hfit h.1
    rintro ⟨b, hok, -⟩
    obtain ⟨e, he⟩ := addressConvertorIn_of_not_fit fill hc₀ hcne hfit
    rw [hok] at he
    cases he

end Blocks

end TFAT.PathBuffers
