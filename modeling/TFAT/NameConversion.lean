import Mathlib.Data.Int.Basic
import TFAT.BlockWriters
import TFAT.NameBuffers

/-!
# The two passes of `cnv_unicode`

The first pass adds up in an `int` how long the conversions of the characters are, the block
of the name is allocated, and the second pass converts the characters into it, one behind the
other. `wcstombs` ends each conversion with a zero that the next one overwrites, and an escape
is stored from its end. The passes agree as long as the length and the zero fit in an `int`.
-/
namespace TFAT.NameConversion
open ByteRegions LittleEndianWords DiskLayout FileDescriptor PathText EntryNames LongNames
open LongNameParts LongNameRoundTrip LongNameCode BlockStrings NameBuffers BlockWriters

/-- The sum of two `int`s. One that does not fit is a fault. -/
def addInt (a b : ℤ) : Except Fault ℤ :=
  if -2 ^ 31 ≤ a + b ∧ a + b < 2 ^ 31 then .ok (a + b) else .error .wild

/-- A `size_t` is added to an `int`: the low 32 bits of the sum are kept. -/
def addSize (a : ℤ) (x : ℕ) : ℤ := (a + x).bmod (2 ^ 32)

def bytesToWchar (lo hi : UInt8) : ℕ := lo.toNat + 256 * hi.toNat

def unicodeConvertable (lo hi : UInt8) : Bool := hi = 0 ∧ (lo < 0x80 ∨ 0xA0 ≤ lo)

variable (fill : ℕ → UInt8) (wcstombs : ℕ → Option Text)

/-- `mbslen`, with nothing for `(size_t) -1`. -/
def mbslen (x : ℕ) : Option ℕ := (wcstombs x).map List.length

/-- `wctombs` at a position of a block. It stores the conversion with its zero. -/
def wctombs (x : ℕ) (block : Bytes) (cp : ℕ) : Except Fault (Bytes × Option ℕ) :=
  match wcstombs x with
  | none => .ok (block, none)
  | some t => do
      let block ← copyIn block cp (t ++ [0])
      .ok (block, some t.length)

def countUnit (lo hi : UInt8) (len : ℤ) : Except Fault ℤ :=
  match mbslen wcstombs (bytesToWchar lo hi) with
  | some x => .ok (addSize len x)
  | none => if unicodeConvertable lo hi then addInt len 1 else addInt len 4

def countUnits : Bytes → ℕ → ℤ → Except Fault ℤ
  | _, 0, len => .ok len
  | lo :: hi :: rest, n + 1, len =>
      if lo = 0 ∧ hi = 0 then .ok len
      else do
        let len ← countUnit wcstombs lo hi len
        countUnits rest n len
  | _, _, _ => .error .wild

def storeUnit (lo hi : UInt8) (block : Bytes) (cp : ℕ) : Except Fault (Bytes × ℕ) := do
  let val := bytesToWchar lo hi
  let (block, size) ← wctombs wcstombs val block cp
  match size with
  | some _ => do
      let (block, x) ← wctombs wcstombs val block cp
      .ok (block, cp + x.getD 0)
  | none =>
      if unicodeConvertable lo hi then do
        let block ← copyIn block cp [lo]
        .ok (block, cp + 1)
      else do
        let block ← copyIn block cp [58]
        let block ← copyIn block (cp + 1 + 2) [escape val]
        let block ← copyIn block (cp + 1 + 1) [escape (val / 64)]
        let block ← copyIn block (cp + 1) [escape (val / 64 / 64)]
        .ok (block, cp + 1 + 3)

def storeUnits : Bytes → ℕ → Bytes → ℕ → Except Fault (Bytes × ℕ)
  | _, 0, block, cp => .ok (block, cp)
  | lo :: hi :: rest, n + 1, block, cp =>
      if lo = 0 ∧ hi = 0 then .ok (block, cp)
      else do
        let r ← storeUnit wcstombs lo hi block cp
        storeUnits rest n r.1 r.2
  | _, _, _, _ => .error .wild

/-- `cnv_unicode`: the block that it returns, and how far `cp` has advanced in it. A negative
size is a very large `size_t`, for which there is no block. -/
def cnvUnicodeIn (uni : Bytes) (maxlen : ℤ) : Except Fault (Bytes × ℕ) := do
  let len ← countUnits wcstombs uni maxlen.toNat 0
  let size ← addInt len 1
  if size < 0 then .error .null
  else
    storeUnits wcstombs uni maxlen.toNat (malloc fill size.toNat) 0 >>= fun r =>
      copyIn r.1 r.2 [0] >>= fun block => .ok (block, r.2)

/-- The second pass advances by the length of the first one, stays in the block that is
allocated for it, and leaves this string in the block. -/
def Agrees (uni : Bytes) (maxlen : ℤ) (text : Text) : Prop :=
  ∃ len block cp, countUnits wcstombs uni maxlen.toNat 0 = .ok len ∧
    cnvUnicodeIn fill wcstombs uni maxlen = .ok (block, cp) ∧ (cp : ℤ) = len ∧
    (block.length : ℤ) = len + 1 ∧ cString block = text

variable {fill wcstombs} {uni : Bytes} {lo hi : UInt8} {n : ℕ} {maxlen : ℤ} {text : Text}

section Units
variable {t : Text}

theorem convertUnit_of_some (h : wcstombs (bytesToWchar lo hi) = some t) :
    convertUnit wcstombs lo hi = t := by
  rw [bytesToWchar] at h
  simp only [convertUnit, h]

/-- The three ways of a character that `wcstombs` does not convert. -/
theorem convertUnit_of_none (h : wcstombs (bytesToWchar lo hi) = none) :
    convertUnit wcstombs lo hi = if unicodeConvertable lo hi then [lo]
      else [58, escape (bytesToWchar lo hi / 64 / 64), escape (bytesToWchar lo hi / 64),
        escape (bytesToWchar lo hi)] := by
  rw [bytesToWchar] at h ⊢
  simp only [convertUnit, h, unicodeConvertable, decide_eq_true_eq, Nat.div_div_eq_div_mul]

theorem mbslen_of_some (h : wcstombs (bytesToWchar lo hi) = some t) :
    mbslen wcstombs (bytesToWchar lo hi) = some t.length := by
  rw [mbslen, h, Option.map_some]

theorem mbslen_of_none (h : wcstombs (bytesToWchar lo hi) = none) :
    mbslen wcstombs (bytesToWchar lo hi) = none := by
  rw [mbslen, h, Option.map_none]

end Units

section Counting
variable {a b c : ℤ} {k x : ℕ}

theorem addInt_of_lt (h : -2 ^ 31 ≤ a + b) (h' : a + b < 2 ^ 31) : addInt a b = .ok (a + b) :=
  if_pos ⟨h, h'⟩

theorem lt_of_addInt (h : addInt a b = .ok c) : c < 2 ^ 31 := by
  unfold addInt at h
  split_ifs at h with hin
  rw [Except.ok.injEq] at h
  exact h ▸ hin.2

theorem addInt_natCast (h : k + x < 2 ^ 31) : addInt k x = .ok ((k + x : ℕ) : ℤ) := by
  rw [addInt_of_lt (by omega) (by omega), Nat.cast_add]

theorem addSize_of_lt (h : k + x < 2 ^ 31) : addSize k x = (k + x : ℕ) := by
  rw [addSize, Int.bmod_eq_of_le (by omega) (by omega), Nat.cast_add]

theorem countUnit_eq (h : k + (convertUnit wcstombs lo hi).length < 2 ^ 31) :
    countUnit wcstombs lo hi k = .ok ((k + (convertUnit wcstombs lo hi).length : ℕ) : ℤ) := by
  cases hw : wcstombs (bytesToWchar lo hi) with
  | some t =>
      rw [convertUnit_of_some hw] at h ⊢
      rw [countUnit, mbslen_of_some hw]
      simp only
      rw [addSize_of_lt h]
  | none =>
      rw [convertUnit_of_none hw] at h ⊢
      rw [countUnit, mbslen_of_none hw]
      simp only
      split_ifs at h ⊢ with hc
      · exact addInt_natCast h
      · exact addInt_natCast h

/-- The first pass computes the length of the conversion. -/
theorem countUnits_eq (h : convertUnits wcstombs uni n = .ok text)
    (hk : k + text.length < 2 ^ 31) :
    countUnits wcstombs uni n k = .ok ((k + text.length : ℕ) : ℤ) := by
  induction uni, n using convertUnits.induct generalizing k text with
  | case1 uni =>
      rw [convertUnits, Except.ok.injEq] at h
      subst h
      rw [countUnits, List.length_nil, Nat.add_zero]
  | case2 lo hi rest n hz =>
      rw [convertUnits, if_pos hz, Except.ok.injEq] at h
      subst h
      rw [countUnits, if_pos hz, List.length_nil, Nat.add_zero]
  | case3 lo hi rest n hz ih =>
      rw [convertUnits, if_neg hz] at h
      obtain ⟨t, ht, h⟩ := bind_eq_ok.mp h
      rw [Except.ok.injEq] at h
      subst h
      rw [List.length_append, ← Nat.add_assoc] at hk ⊢
      rw [countUnits, if_neg hz, countUnit_eq (by omega), ok_bind, ih ht hk]
  | case4 uni n h₀ hcons =>
      rw [convertUnits] at h
      · cases h
      · exact h₀
      · exact hcons

end Counting

section Storing
variable {t : Text}

theorem storeUnit_of_some (h : wcstombs (bytesToWchar lo hi) = some t) :
    storeUnit wcstombs lo hi = fun block cp =>
      (copyIn block cp (t ++ [0]) >>= fun b => .ok (b, cp + t.length)) >>= fun r =>
        copyIn r.1 cp (t ++ [0]) >>= fun b => .ok (b, cp + t.length) := by
  funext block cp
  simp only [storeUnit, wctombs, h]
  cases copyIn block cp (t ++ [0]) with
  | error e => rfl
  | ok b =>
      simp only [ok_bind]
      cases copyIn b cp (t ++ [0]) with
      | error e => rfl
      | ok b => rfl

theorem storeUnit_of_convertable (h : wcstombs (bytesToWchar lo hi) = none)
    (hc : unicodeConvertable lo hi = true) : storeUnit wcstombs lo hi = fun block cp =>
      copyIn block cp [lo] >>= fun b => .ok (b, cp + [lo].length) := by
  funext block cp
  simp only [storeUnit, wctombs, h, hc, if_true]
  rfl

theorem storeUnit_of_escape (h : wcstombs (bytesToWchar lo hi) = none)
    (hc : unicodeConvertable lo hi = false) : storeUnit wcstombs lo hi = fun block cp =>
      copyIn block cp [58] >>= fun b =>
        copyIn b (cp + 3) [escape (bytesToWchar lo hi)] >>= fun b =>
          copyIn b (cp + 2) [escape (bytesToWchar lo hi / 64)] >>= fun b =>
            copyIn b (cp + 1) [escape (bytesToWchar lo hi / 64 / 64)] >>= fun b =>
              .ok (b, cp + 4) := by
  funext block cp
  simp only [storeUnit, wctombs, h, hc, Bool.false_eq_true, if_false]
  rfl

/-- A character appends its conversion. -/
theorem storeUnit_appends (wcstombs : ℕ → Option Text) (lo hi : UInt8) :
    Appends (storeUnit wcstombs lo hi) (convertUnit wcstombs lo hi) := by
  cases hw : wcstombs (bytesToWchar lo hi) with
  | some t =>
      rw [convertUnit_of_some hw, storeUnit_of_some hw]
      exact (appends_string t).again
  | none =>
      rw [convertUnit_of_none hw]
      cases hc : unicodeConvertable lo hi with
      | true =>
          rw [storeUnit_of_convertable hw hc, if_pos rfl]
          exact appends_bytes [lo]
      | false =>
          rw [storeUnit_of_escape hw hc, if_neg (by decide)]
          exact appends_backwards _ _ _ _

/-- The second pass appends the conversion. -/
theorem storeUnits_appends (h : convertUnits wcstombs uni n = .ok text) :
    Appends (storeUnits wcstombs uni n) text := by
  induction uni, n using convertUnits.induct generalizing text with
  | case1 uni =>
      rw [convertUnits, Except.ok.injEq] at h
      subst h
      rw [show storeUnits wcstombs uni 0 = fun block cp => .ok (block, cp) by
        funext block cp; rw [storeUnits]]
      exact appends_nil
  | case2 lo hi rest n hz =>
      rw [convertUnits, if_pos hz, Except.ok.injEq] at h
      subst h
      rw [show storeUnits wcstombs (lo :: hi :: rest) (n + 1) = fun block cp => .ok (block, cp) by
        funext block cp; rw [storeUnits, if_pos hz]]
      exact appends_nil
  | case3 lo hi rest n hz ih =>
      rw [convertUnits, if_neg hz] at h
      obtain ⟨t, ht, h⟩ := bind_eq_ok.mp h
      rw [Except.ok.injEq] at h
      subst h
      rw [show storeUnits wcstombs (lo :: hi :: rest) (n + 1) =
          Writer.seq (storeUnit wcstombs lo hi) (storeUnits wcstombs rest n) by
        funext block cp; rw [storeUnits, if_neg hz, Writer.seq]]
      exact (storeUnit_appends wcstombs lo hi).seq (ih ht)
  | case4 uni n h₀ hcons =>
      rw [convertUnits] at h
      · cases h
      · exact h₀
      · exact hcons

end Storing

section Agreement
variable {t : Text} {k : ℕ}

theorem zero_notMem_convertUnit (hw : ∀ x t, x ≠ 0 → wcstombs x = some t → 0 ∉ t)
    (hz : ¬ (lo = 0 ∧ hi = 0)) : 0 ∉ convertUnit wcstombs lo hi := by
  cases hx : wcstombs (bytesToWchar lo hi) with
  | some t =>
      rw [convertUnit_of_some hx]
      refine hw _ t (fun h₀ => hz ?_) hx
      rw [← UInt8.toNat_inj, ← UInt8.toNat_inj]
      simp only [bytesToWchar, UInt8.toNat_zero] at h₀ ⊢
      omega
  | none =>
      rw [convertUnit_of_none hx]
      split_ifs with hc
      · rw [List.mem_singleton]
        rintro rfl
        simp only [unicodeConvertable, decide_eq_true_eq] at hc
        exact hz ⟨rfl, hc.1⟩
      · simp only [List.mem_cons, List.not_mem_nil, or_false, not_or]
        exact ⟨by decide, (escape_ne_zero _).symm, (escape_ne_zero _).symm,
          (escape_ne_zero _).symm⟩

theorem zero_notMem_convertUnits (hw : ∀ x t, x ≠ 0 → wcstombs x = some t → 0 ∉ t)
    (h : convertUnits wcstombs uni n = .ok text) : 0 ∉ text := by
  induction uni, n using convertUnits.induct generalizing text with
  | case1 uni =>
      rw [convertUnits, Except.ok.injEq] at h
      subst h
      exact List.not_mem_nil
  | case2 lo hi rest n hz =>
      rw [convertUnits, if_pos hz, Except.ok.injEq] at h
      subst h
      exact List.not_mem_nil
  | case3 lo hi rest n hz ih =>
      rw [convertUnits, if_neg hz] at h
      obtain ⟨t, ht, h⟩ := bind_eq_ok.mp h
      rw [Except.ok.injEq] at h
      subst h
      rw [List.mem_append, not_or]
      exact ⟨zero_notMem_convertUnit hw hz, ih ht⟩
  | case4 uni n h₀ hcons =>
      rw [convertUnits] at h
      · cases h
      · exact h₀
      · exact hcons

/-- A run of both passes has found room for the string and its zero. -/
theorem lt_of_cnvUnicodeIn (h : convertUnits wcstombs uni maxlen.toNat = .ok text)
    {r : Bytes × ℕ} (hr : cnvUnicodeIn fill wcstombs uni maxlen = .ok r) :
    text.length < 2 ^ 31 - 1 := by
  obtain ⟨len, -, hr⟩ := bind_eq_ok.mp hr
  obtain ⟨size, hsize, hr⟩ := bind_eq_ok.mp hr
  have hlt := lt_of_addInt hsize
  split_ifs at hr
  have hroom := (storeUnits_appends h).lt_of_close hr
  rw [length_malloc] at hroom
  omega

theorem cnvUnicodeIn_of_lt (h : convertUnits wcstombs uni maxlen.toNat = .ok text)
    (hlt : text.length < 2 ^ 31 - 1) : countUnits wcstombs uni maxlen.toNat 0 = .ok text.length ∧
      cnvUnicodeIn fill wcstombs uni maxlen = .ok (text ++ [0], text.length) := by
  have hcount := countUnits_eq (k := 0) h (by omega)
  rw [Nat.zero_add, Nat.cast_zero] at hcount
  refine ⟨hcount, ?_⟩
  have hsize : addInt (text.length : ℤ) (1 : ℕ) = _ := addInt_natCast (by omega)
  rw [Nat.cast_one] at hsize
  rw [cnvUnicodeIn, hcount, ok_bind, hsize, ok_bind, if_neg (by omega), Int.toNat_natCast]
  exact (storeUnits_appends h).close (length_malloc _ _)

theorem agrees_of_lt (hw : ∀ x t, x ≠ 0 → wcstombs x = some t → 0 ∉ t)
    (h : convertUnits wcstombs uni maxlen.toNat = .ok text) (hlt : text.length < 2 ^ 31 - 1) :
    Agrees fill wcstombs uni maxlen text := by
  obtain ⟨hcount, hrun⟩ : _ ∧ cnvUnicodeIn fill wcstombs uni maxlen = _ :=
    cnvUnicodeIn_of_lt h hlt
  refine ⟨_, _, _, hcount, hrun, rfl, ?_, cString_of_notMem (zero_notMem_convertUnits hw h) []⟩
  rw [List.length_append, List.length_singleton, Nat.cast_add, Nat.cast_one]

/-- The two passes of `cnv_unicode` agree exactly where the conversions and the zero are
together no longer than an `int` can say. -/
theorem cnvUnicodeIn_agrees_iff (hw : ∀ x t, x ≠ 0 → wcstombs x = some t → 0 ∉ t)
    (h : convertUnits wcstombs uni maxlen.toNat = .ok text) :
    Agrees fill wcstombs uni maxlen text ↔ text.length < 2 ^ 31 - 1 := by
  constructor
  · rintro ⟨len, block, cp, -, hrun, -⟩
    exact lt_of_cnvUnicodeIn h hrun
  · exact agrees_of_lt hw h

/-- The letter `A` and the character 0x20AC, where nothing is converted by `wcstombs`. -/
theorem cnvUnicodeIn_agrees_escape :
    Agrees (fun _ => 0) (fun _ => none) [0x41, 0, 0xAC, 0x20, 0, 0] 13 [0x41, 58, 50, 50, 105] :=
  (cnvUnicodeIn_agrees_iff (by simp) (by rfl)).mpr (by decide)

theorem escapes_not_agree (fill : ℕ → UInt8) {n : ℕ} {maxlen : ℤ} (hn : 2 ^ 31 - 1 ≤ 4 * n)
    (hmax : n ≤ maxlen.toNat) :
    ∃ text, convertUnits asciiLocale (unitBytes (List.replicate n 0x20AC) ++ [0, 0])
        maxlen.toNat = .ok text ∧
      ¬ Agrees fill asciiLocale (unitBytes (List.replicate n 0x20AC) ++ [0, 0]) maxlen text := by
  have hchar : ∀ u ∈ List.replicate n (0x20AC : UInt16), u = 0x20AC :=
    fun u hu => List.eq_of_mem_replicate hu
  have hconv := convertUnits_eq_flatMap asciiLocale_cLocale
    (fun u hu => by rw [hchar u hu]; decide) [] (m := maxlen.toNat)
    (by rwa [List.length_replicate])
  refine ⟨_, hconv, ?_⟩
  rintro ⟨len, block, cp, -, hrun, -⟩
  have hlt := lt_of_cnvUnicodeIn hconv hrun
  rw [length_flatMap_unitCode, codeBytes_of_forall fun u hu => by rw [hchar u hu]; decide,
    List.length_replicate] at hlt
  omega

/-- For 2 ^ 29 escapes the length does not fit in an `int`. -/
theorem cnvUnicodeIn_overflow : ∃ text, (∀ x t, x ≠ 0 → asciiLocale x = some t → 0 ∉ t) ∧
    convertUnits asciiLocale (unitBytes (List.replicate (2 ^ 29) 0x20AC) ++ [0, 0])
        (2 ^ 31 - 1 : ℤ).toNat = .ok text ∧
      ¬ Agrees (fun _ => 0) asciiLocale
        (unitBytes (List.replicate (2 ^ 29) 0x20AC) ++ [0, 0]) (2 ^ 31 - 1) text := by
  obtain ⟨text, hboth⟩ := escapes_not_agree (fun _ => 0) (n := 2 ^ 29)
    (show 2 ^ 31 - 1 ≤ 4 * 2 ^ 29 by norm_num) (show 2 ^ 29 ≤ (2 ^ 31 - 1 : ℤ).toNat by norm_num)
  exact ⟨text, fun x t hx ht => asciiLocale_cLocale.zero_notMem hx ht, hboth⟩

end Agreement

end TFAT.NameConversion
