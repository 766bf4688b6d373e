import TFAT.LongNameRoundTrip
import TFAT.PrefixCodes

/-!
# The code of long names

In the C locale `wcstombs` converts the characters below 0x80 and no others. The second
half of ISO-8859-1 is then one byte as well, and every other character is a colon and three
digits of six bits. A name without colons can be read back: no conversion of a character is
the start of another one.
-/
namespace TFAT.LongNameCode
open LittleEndianWords DiskLayout PathText LongNames LongNameParts LongNameRoundTrip PrefixCodes

/-- `wcstombs` in the C locale, on characters that are not zero. -/
structure CLocale (wcstombs : ℕ → Option Text) : Prop where
  ascii : ∀ n, 0 < n → n < 0x80 → wcstombs n = some [UInt8.ofNat n]
  beyond : ∀ n, 0x80 ≤ n → wcstombs n = none

/-- The character is one byte of ISO-8859-1 that is converted to itself. -/
def SingleByte (u : UInt16) : Prop := u < 0x80 ∨ 0xA0 ≤ u ∧ u < 0x100

instance : DecidablePred SingleByte :=
  fun u => inferInstanceAs (Decidable (u < 0x80 ∨ 0xA0 ≤ u ∧ u < 0x100))

/-- What a character is converted to in the C locale. -/
def unitCode (u : UInt16) : Text :=
  if SingleByte u then [UInt8.ofNat u.toNat]
  else [58, escape (u.toNat / 4096), escape (u.toNat / 64), escape u.toNat]

/-- The characters that a long name may have. -/
def Allowed (u : UInt16) : Prop := u ≠ 0 ∧ u ≠ 0x3A

instance : DecidablePred Allowed := fun u => inferInstanceAs (Decidable (u ≠ 0 ∧ u ≠ 0x3A))

section Escapes
variable {m n : ℕ} {u w : UInt16}

theorem length_fatUni2esc : fatUni2esc.length = 64 := by decide

theorem nodup_fatUni2esc : fatUni2esc.Nodup := by decide

theorem escape_inj (h : escape m = escape n) : m % 64 = n % 64 := by
  have hm : m % 64 < fatUni2esc.length := by rw [length_fatUni2esc]; omega
  have hn : n % 64 < fatUni2esc.length := by rw [length_fatUni2esc]; omega
  rw [escape, escape, List.getD_eq_getElem?_getD, List.getD_eq_getElem?_getD,
    List.getElem?_eq_getElem hm, List.getElem?_eq_getElem hn] at h
  exact (nodup_fatUni2esc.getElem_inj_iff).mp h

theorem escape_ne_zero (n : ℕ) : escape n ≠ 0 := by
  have hall : ∀ k < 64, fatUni2esc.getD k 0 ≠ 0 := by decide
  exact hall _ (Nat.mod_lt _ (by norm_num))

theorem toNat_of_singleByte (h : SingleByte u) : u.toNat < 256 := by
  rcases h with h | ⟨-, h⟩
  · have := UInt16.lt_iff_toNat_lt.mp h
    simp only [UInt16.reduceToNat] at this
    omega
  · exact UInt16.lt_iff_toNat_lt.mp h

theorem ofNat_inj_of_lt {m n : ℕ} (hm : m < 256) (hn : n < 256)
    (h : UInt8.ofNat m = UInt8.ofNat n) : m = n := by
  have hv := congrArg UInt8.toNat h
  rwa [UInt8.toNat_ofNat', UInt8.toNat_ofNat', Nat.mod_eq_of_lt hm, Nat.mod_eq_of_lt hn] at hv

/-- The colon is the conversion of a colon only. -/
theorem unitCode_prefixFree : PrefixFree Allowed unitCode where
  nonempty u _ := by
    unfold unitCode
    split_ifs <;> simp
  unique u w hu hw h := by
    unfold unitCode at h
    split_ifs at h with h₁ h₂ h₂
    · rw [List.cons_prefix_cons] at h
      exact UInt16.toNat_inj.mp
        (ofNat_inj_of_lt (toNat_of_singleByte h₁) (toNat_of_singleByte h₂) h.1)
    · rw [List.cons_prefix_cons] at h
      have hcolon : u.toNat = 58 :=
        ofNat_inj_of_lt (toNat_of_singleByte h₁) (by norm_num) h.1
      exact absurd (UInt16.toNat_inj.mp hcolon) hu.2
    · exact absurd h.length_le (by simp)
    · simp only [List.cons_prefix_cons, true_and] at h
      have hhigh := escape_inj h.1
      have hmid := escape_inj h.2.1
      have hlow := escape_inj h.2.2.1
      have hu16 : u.toNat < 65536 := u.toNat_lt
      have hw16 : w.toNat < 65536 := w.toNat_lt
      exact UInt16.toNat_inj.mp (by omega)

end Escapes

theorem CLocale.zero_notMem {wcstombs : ℕ → Option Text} (hC : CLocale wcstombs) {x : ℕ}
    {t : Text} (hx : x ≠ 0) (h : wcstombs x = some t) : 0 ∉ t := by
  rcases Nat.lt_or_ge x 0x80 with hlt | hge
  · rw [hC.ascii x (by omega) hlt, Option.some.injEq] at h
    subst h
    rw [List.mem_singleton]
    exact fun h₀ => hx (ofNat_inj_of_lt (by omega) (by norm_num) h₀.symm)
  · rw [hC.beyond x hge] at h
    cases h

section Converting
variable {wcstombs : ℕ → Option Text} {us ws : List UInt16} {u : UInt16}

theorem singleByte_iff {lo hi : UInt8} (hv : u.toNat = lo.toNat + 256 * hi.toNat) :
    SingleByte u ↔ hi = 0 ∧ (lo < 0x80 ∨ 0xA0 ≤ lo) := by
  have hlo := lo.toNat_lt
  rw [SingleByte, UInt16.lt_iff_toNat_lt, UInt16.le_iff_toNat_le, UInt16.lt_iff_toNat_lt,
    UInt8.lt_iff_toNat_lt, UInt8.le_iff_toNat_le, ← UInt8.toNat_inj]
  simp only [UInt16.reduceToNat, UInt8.reduceToNat]
  omega

theorem convertUnit_eq (hC : CLocale wcstombs) (hu : u ≠ 0) {lo hi : UInt8}
    (hv : u.toNat = lo.toNat + 256 * hi.toNat) :
    convertUnit wcstombs lo hi = unitCode u := by
  have hlo := lo.toNat_lt
  have hpos : 0 < u.toNat := Nat.pos_of_ne_zero fun h => hu (UInt16.toNat_inj.mp h)
  have hval : lo.toNat + 256 * hi.toNat = u.toNat := hv.symm
  rw [convertUnit, unitCode]
  simp only [hval, singleByte_iff hv]
  rcases Nat.lt_or_ge u.toNat 0x80 with hlt | hge
  · have hhi : hi = 0 := UInt8.toNat_inj.mp (by rw [UInt8.toNat_zero]; omega)
    have hl : lo < 0x80 := UInt8.lt_iff_toNat_lt.mpr (by simp only [UInt8.reduceToNat]; omega)
    simp only [hC.ascii _ hpos hlt, if_pos (And.intro hhi (Or.inl hl))]
  · have hbyte (h : hi = 0) : lo = UInt8.ofNat u.toNat := by
      rw [hv, h]
      simp
    rw [hC.beyond _ hge]
    simp only
    split_ifs with h
    · rw [hbyte h.1]
    · rfl

theorem exists_unitBytes_cons (hu : u ≠ 0) (us : List UInt16) : ∃ lo hi : UInt8,
    ¬ (lo = 0 ∧ hi = 0) ∧ u.toNat = lo.toNat + 256 * hi.toNat ∧
      unitBytes (u :: us) = lo :: hi :: unitBytes us := by
  obtain ⟨lo, hi, he, hne⟩ := encode_unit hu
  refine ⟨lo, hi, hne, ?_, ?_⟩
  · have hvalue := value_encode 2 u.toNat
    rw [he, Nat.mod_eq_of_lt (show u.toNat < 256 ^ 2 from u.toNat_lt)] at hvalue
    simpa [value] using hvalue.symm
  · rw [unitBytes, List.flatMap_cons, he]
    rfl

/-- A name that a zero character ends is converted character by character. -/
theorem convertUnits_eq_flatMap (hC : CLocale wcstombs) (hus : ∀ u ∈ us, u ≠ 0) (r : Bytes)
    {m : ℕ} (hm : us.length ≤ m) :
    convertUnits wcstombs (unitBytes us ++ 0 :: 0 :: r) m = .ok (us.flatMap unitCode) := by
  induction us generalizing m with
  | nil =>
      cases m with
      | zero => rfl
      | succ m => rfl
  | cons u us ih =>
      obtain ⟨n, rfl⟩ : ∃ n, m = n + 1 := Nat.exists_eq_add_one.mpr (Nat.zero_lt_of_lt hm)
      obtain ⟨lo, hi, hne, hv, hcons⟩ := exists_unitBytes_cons (hus u (by simp)) us
      rw [hcons, List.cons_append, List.cons_append, convertUnits, if_neg hne,
        ih (fun w hw => hus w (by simp [hw])) (Nat.le_of_succ_le_succ hm), ok_bind,
        convertUnit_eq hC (hus u (by simp)) hv, List.flatMap_cons]

/-- Different names are converted to different strings. -/
theorem cnvUnicode_injective (hC : CLocale wcstombs) (hus : ∀ u ∈ us, Allowed u)
    (hws : ∀ u ∈ ws, Allowed u) {r r' : Bytes} {m n : ℕ} (hm : us.length ≤ m)
    (hn : ws.length ≤ n) {t : Text}
    (hu : cnvUnicode wcstombs (some (unitBytes us ++ 0 :: 0 :: r)) 0 m = .ok t)
    (hw : cnvUnicode wcstombs (some (unitBytes ws ++ 0 :: 0 :: r')) 0 n = .ok t) : us = ws := by
  rw [cnvUnicode, List.drop_zero, convertUnits_eq_flatMap hC (fun u h => (hus u h).1) r hm,
    Except.ok.injEq] at hu
  rw [cnvUnicode, List.drop_zero, convertUnits_eq_flatMap hC (fun u h => (hws u h).1) r' hn,
    Except.ok.injEq] at hw
  exact unitCode_prefixFree.flatMap_injective hus hws (hu.trans hw.symm)

/-- A locale that converts the characters below 0x80 and no others. -/
def asciiLocale (n : ℕ) : Option Text := if n < 0x80 then some [UInt8.ofNat n] else none

theorem asciiLocale_cLocale : CLocale asciiLocale where
  ascii n _ h := if_pos h
  beyond n h := if_neg (by omega)

def unitsOf (s : String) : List UInt16 := s.toList.map fun c => UInt16.ofNat c.toNat

/-- The letter `A` and the character 0x20AC, once with a byte behind the name and once without,
where two units are asked for. -/
theorem cnvUnicode_injective_escape :
    cnvUnicode asciiLocale (some (unitBytes [0x41, 0x20AC] ++ 0 :: 0 :: [7])) 0 until0 =
        .ok [0x41, 58, 50, 50, 105] ∧
      cnvUnicode asciiLocale (some (unitBytes (unitsOf "A€") ++ 0 :: 0 :: [])) 0 2 =
        .ok [0x41, 58, 50, 50, 105] ∧ [0x41, 0x20AC] = unitsOf "A€" := by
  have hunits : ∀ u ∈ ([0x41, 0x20AC] : List UInt16), Allowed u := by simp [Allowed]
  have htext : ∀ u ∈ unitsOf "A€", Allowed u := by simp [unitsOf, Allowed]
  have hone : cnvUnicode asciiLocale (some (unitBytes [0x41, 0x20AC] ++ 0 :: 0 :: [7])) 0
      until0 = .ok [0x41, 58, 50, 50, 105] := by
    rw [cnvUnicode, List.drop_zero,
      convertUnits_eq_flatMap asciiLocale_cLocale (fun u hu => (hunits u hu).1) [7] (by decide)]
    decide
  have htwo : cnvUnicode asciiLocale (some (unitBytes (unitsOf "A€") ++ 0 :: 0 :: [])) 0 2 =
      .ok [0x41, 58, 50, 50, 105] := by decide
  exact ⟨hone, htwo, cnvUnicode_injective asciiLocale_cLocale hunits htext (by decide) (by decide)
    hone htwo⟩

end Converting

end TFAT.LongNameCode
