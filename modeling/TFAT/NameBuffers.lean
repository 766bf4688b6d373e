import TFAT.BlockStrings
import TFAT.LongNameCode

/-!
# The buffer of a long name

`list` copies the long name that `lfn_get` hands to it into a buffer of 1024 bytes without
looking at its length. Up to 31 slots of thirteen characters make a name, and a character
takes up to four bytes. The names that VFAT allows have at most 255 characters and fit.
-/
namespace TFAT.NameBuffers
open ByteRegions LittleEndianWords DiskLayout ClusterTable FileDescriptor PathText LongNames
open LongNameParts LongNameRoundTrip LongNameCode UserCommands PathResolution ListedNames
open SlotSequences GatheredSlots BlockStrings

/-- `dis_full_name`, which `list` clears for each entry. -/
def disFullName : Bytes := List.replicate 1024 0

/-- For the entry with this number, `lfn_get` hands this name to `list`. -/
def Hands (fill : ℕ → UInt8) (wcstombs : ℕ → Option Text) (v : Volume) (s : LfnState)
    (block : Bytes) (showDeleted : Bool) (i : ℕ) (t : Text) : Prop :=
  ∃ r e q off, list fill wcstombs v s block i showDeleted = .ok r ∧ entryAt block i = .ok e ∧
    isShown showDeleted e ∧ lfnGet wcstombs r.lfn e = .ok (q, some (t, off))

def units : Bytes → List UInt16
  | lo :: hi :: rest => UInt16.ofNat (lo.toNat + 256 * hi.toNat) :: units rest
  | _ => []

def nameUnits (b : Bytes) : List UInt16 := (units b).takeWhile (· ≠ 0)

/-- One byte for each character that is converted to itself, and four for every other one. -/
def codeBytes (us : List UInt16) : ℕ :=
  us.countP (SingleByte ·) + 4 * us.countP (¬ SingleByte ·)

section Characters
variable {wcstombs : ℕ → Option Text} {us : List UInt16} {u : UInt16} {lo hi : UInt8} {n : ℕ}

theorem toNat_unit (lo hi : UInt8) :
    (UInt16.ofNat (lo.toNat + 256 * hi.toNat)).toNat = lo.toNat + 256 * hi.toNat := by
  have hlo := lo.toNat_lt
  have hhi := hi.toNat_lt
  rw [UInt16.toNat_ofNat', Nat.mod_eq_of_lt (by omega)]

theorem unit_eq_zero_iff : UInt16.ofNat (lo.toNat + 256 * hi.toNat) = 0 ↔ lo = 0 ∧ hi = 0 := by
  rw [← UInt16.toNat_inj, toNat_unit, ← UInt8.toNat_inj, ← UInt8.toNat_inj]
  simp only [UInt16.toNat_zero, UInt8.toNat_zero]
  omega

theorem nameOf_eq_flatMap (hC : CLocale wcstombs) (b : Bytes) :
    nameOf wcstombs b = (nameUnits b).flatMap unitCode := by
  induction b using units.induct with
  | case1 lo hi rest ih =>
      rw [nameOf, nameUnits, units]
      by_cases hz : lo = 0 ∧ hi = 0
      · rw [if_pos hz, List.takeWhile_cons_of_neg (by simpa using unit_eq_zero_iff.mpr hz)]
        rfl
      · have hne := unit_eq_zero_iff.not.mpr hz
        rw [if_neg hz, List.takeWhile_cons_of_pos (by simpa using hne), List.flatMap_cons,
          convertUnit_eq hC hne (toNat_unit lo hi), ih, nameUnits]
  | case2 b hb =>
      rw [nameUnits, units, nameOf]
      · rfl
      · exact hb
      · exact hb

theorem length_unitCode (u : UInt16) : (unitCode u).length = if SingleByte u then 1 else 4 := by
  unfold unitCode
  split_ifs <;> rfl

theorem length_flatMap_unitCode (us : List UInt16) :
    (us.flatMap unitCode).length = codeBytes us := by
  induction us with
  | nil => rfl
  | cons u us ih =>
      rw [codeBytes] at ih ⊢
      rw [List.flatMap_cons, List.length_append, ih, length_unitCode, List.countP_cons,
        List.countP_cons]
      by_cases hu : SingleByte u
      · simp only [hu, if_true, not_true, decide_true, decide_false, Bool.false_eq_true, if_false]
        omega
      · simp only [hu, if_false, not_false_iff, decide_true, decide_false, Bool.false_eq_true,
          if_true]
        omega

theorem codeBytes_le (us : List UInt16) : codeBytes us ≤ 4 * us.length := by
  rw [codeBytes, List.length_eq_countP_add_countP (SingleByte ·)]
  simp only [decide_eq_true_eq]
  omega

theorem zero_notMem_unitCode (hu : u ≠ 0) : 0 ∉ unitCode u := by
  unfold unitCode
  split_ifs with h
  · have hlt := toNat_of_singleByte h
    have hpos : u.toNat ≠ 0 := fun h₀ => hu (UInt16.toNat_inj.mp h₀)
    rw [List.mem_singleton]
    intro hz
    exact hpos (ofNat_inj_of_lt hlt (by norm_num) hz.symm)
  · simp only [List.mem_cons, List.not_mem_nil, or_false, not_or]
    exact ⟨by decide, (escape_ne_zero _).symm, (escape_ne_zero _).symm, (escape_ne_zero _).symm⟩

/-- A name is a string. -/
theorem zero_notMem_nameUnits (b : Bytes) : 0 ∉ (nameUnits b).flatMap unitCode := by
  rw [List.mem_flatMap]
  rintro ⟨u, hu, hz⟩
  have hne : u ≠ 0 := by simpa using List.mem_takeWhile_imp hu
  exact zero_notMem_unitCode hne hz

end Characters

section Handing
variable {fill : ℕ → UInt8} {wcstombs : ℕ → Option Text} {v : Volume} {s : LfnState}
variable {p : Option Parts} {block : Bytes} {showDeleted : Bool} {i n : ℕ} {t : Text}

/-- The names that are handed on are those of the slots that have been gathered. -/
theorem hands_iff (hs : Represents s p) : Hands fill wcstombs v s block showDeleted i t ↔
    ∃ e chars, entryAt block i = .ok e ∧ isShown showDeleted e ∧
      Gathered showDeleted p (entriesFrom block 0 i) 0 chars ∧ t = nameOf wcstombs chars := by
  have hattr {e : FatDirLayout} (h : isShown showDeleted e) : e.attr ≠ vfatLnAttr := by
    intro ha
    rw [isShown_eq_false_of_attr ha] at h
    cases h
  constructor
  · rintro ⟨r, e, q, off, hr, he, hshown, hget⟩
    obtain ⟨l, hl, hrep⟩ := list_of_represents wcstombs v showDeleted fill (le_of_list hr) hs
    rw [hr, Except.ok.injEq] at hl
    subst hl
    obtain ⟨u, hu, -⟩ := lfnGet_of_represents wcstombs (hattr hshown) hrep
    rw [hget, Except.ok.injEq, Prod.mk.injEq] at hu
    have hclaim := hu.2
    cases ha : afterAll showDeleted p 0 (entriesFrom block 0 i) with
    | none =>
        rw [ha] at hclaim
        cases hclaim
    | some parts =>
        rw [ha] at hclaim
        by_cases hm : parts.missing = 0
        · rw [claimed_of_whole wcstombs hm, Option.some.injEq, Prod.mk.injEq] at hclaim
          exact ⟨e, parts.chars, he, hshown, afterAll_iff_gathered.mp ⟨parts, ha, hm, rfl⟩,
            hclaim.1⟩
        · rw [claimed_of_missing wcstombs hm] at hclaim
          cases hclaim
  · rintro ⟨e, chars, he, hshown, hgathered, rfl⟩
    obtain ⟨parts, ha, hm, rfl⟩ := (afterAll_iff_gathered (i := 0)).mpr hgathered
    have hb : entrySize * i ≤ block.length :=
      (Nat.le_add_right _ _).trans (entryAt_eq_ok_iff.mp he).1
    obtain ⟨l, hl, hrep⟩ := list_of_represents wcstombs v showDeleted fill hb hs
    rw [ha] at hrep
    obtain ⟨u, hu, -⟩ := lfnGet_of_represents wcstombs (hattr hshown) hrep
    rw [claimed_of_whole wcstombs hm] at hu
    exact ⟨_, e, u, parts.first, hl, he, hshown, hu⟩

theorem strcpy_disFullName_iff (h₀ : 0 ∉ t) :
    (∃ b, strcpy disFullName t = .ok b) ↔ t.length < 1024 := by
  have hb : Builds (strcpy disFullName t) disFullName.length t := builds_strcpy h₀
  rw [disFullName, List.length_replicate] at hb
  rw [disFullName]
  constructor
  · rintro ⟨b, h⟩
    exact (hb.of_eq_ok h).1
  · intro h
    obtain ⟨b, hok, -⟩ := hb.fits h
    exact ⟨b, hok⟩

/-- Every long name of a listing fits in its buffer exactly if no slots that complete a name
have characters of more than 1023 bytes. -/
theorem longNames_fit_iff (hC : CLocale wcstombs) (hs : Represents s p) :
    (∀ i < n, ∀ t, Hands fill wcstombs v s block showDeleted i t →
        ∃ b, strcpy disFullName t = .ok b) ↔
      ∀ i < n, ∀ e chars, entryAt block i = .ok e → isShown showDeleted e →
        Gathered showDeleted p (entriesFrom block 0 i) 0 chars →
          codeBytes (nameUnits chars) ≤ 1023 := by
  have hfit (chars : Bytes) : (∃ b, strcpy disFullName (nameOf wcstombs chars) = .ok b) ↔
      codeBytes (nameUnits chars) ≤ 1023 := by
    rw [nameOf_eq_flatMap hC, strcpy_disFullName_iff (zero_notMem_nameUnits chars),
      length_flatMap_unitCode]
    exact Nat.lt_succ_iff
  constructor
  · intro h i hi e chars he hshown hgathered
    exact (hfit chars).mp (h i hi _ ((hands_iff hs).mpr ⟨e, chars, he, hshown, hgathered, rfl⟩))
  · intro h i hi t ht
    obtain ⟨e, chars, he, hshown, hgathered, rfl⟩ := (hands_iff hs).mp ht
    exact (hfit chars).mpr (h i hi e chars he hshown hgathered)

/-- A name of at most 255 characters fits. -/
theorem codeBytes_le_of_length_le {us : List UInt16} (h : us.length ≤ 255) :
    codeBytes us ≤ 1023 := by
  have hle := codeBytes_le us
  omega

/-- The slot of the name `X` in front of the directory `SUB`. -/
theorem longNames_fit_short :
    Hands (fun _ => 0) asciiLocale DirectoryIO.subVolume .initial (slotBlock 0) false 1 [0x58] ∧
      ∀ i < 2, ∀ t,
        Hands (fun _ => 0) asciiLocale DirectoryIO.subVolume .initial (slotBlock 0) false i t →
          ∃ b, strcpy disFullName t = .ok b := by
  have hslot {chars : Bytes} : Gathered false none (entriesFrom (slotBlock 0) 0 1) 0 chars ↔
      0 + 1 = slotNumber (slotX 0) ∧ chars = copyLfnPart (slotX 0) ++ [0, 0] := by
    rw [slotBlock_entries.1, ← List.nil_append [slotX 0],
      gathered_snoc_of_opensName slotX_opens.1.1 slotX_opens.1.2]
  refine ⟨(hands_iff represents_initial).mpr ⟨dirNamed 0x53 0x55 0x42 2, _, by decide, by decide,
      hslot.mpr ⟨by decide, rfl⟩, by decide⟩,
    (longNames_fit_iff asciiLocale_cLocale represents_initial).mpr
      fun i hi e chars _ _ hgathered => codeBytes_le_of_length_le ?_⟩
  obtain rfl | rfl : i = 0 ∨ i = 1 := by omega
  · rcases hgathered with ⟨start, rest, ⟨⟨front, hl⟩, -⟩, -⟩ | ⟨q, hq, -⟩
    · exact absurd hl (by simp [entriesFrom])
    · cases hq
  · rw [(hslot.mp hgathered).2]
    decide

end Handing

section Overflow

theorem entryAt_append_succ (d : FatDirLayout) (rest : Bytes) (i : ℕ) :
    entryAt (d.bytes ++ rest) (i + 1) = entryAt rest i := by
  have hd := d.length_bytes
  have hslice : slice (d.bytes ++ rest) (entrySize * i + entrySize) entrySize =
      slice rest (entrySize * i) entrySize := by
    rw [Nat.add_comm, ← hd, slice_append_right]
  unfold entryAt
  simp only [List.length_append, hd, Nat.mul_succ]
  split_ifs with h₁ h₂ h₂
  · exact congrArg _ (FatDirLayout.ext hslice)
  · omega
  · omega
  · rfl

theorem entriesFrom_flatMap (es : List FatDirLayout) (rest : Bytes) :
    entriesFrom (es.flatMap (·.bytes) ++ rest) 0 es.length = es := by
  induction es with
  | nil => rfl
  | cons e es ih =>
      have hshift : entriesFrom (e.bytes ++ (es.flatMap (·.bytes) ++ rest)) 1 es.length =
          entriesFrom (es.flatMap (·.bytes) ++ rest) 0 es.length := by
        rw [entriesFrom, entriesFrom, show (1 : ℕ) = 1 + 0 from rfl, ← List.map_add_range',
          List.filterMap_map]
        congr 1
        funext j
        rw [Function.comp_apply, Nat.add_comm, entryAt_append_succ]
      rw [List.flatMap_cons, List.append_assoc, List.length_cons,
        entriesFrom_succ (entryAt_append_zero e _), hshift, ih]

theorem entryAt_flatMap (es : List FatDirLayout) (e : FatDirLayout) (rest : Bytes) :
    entryAt (es.flatMap (·.bytes) ++ (e.bytes ++ rest)) es.length = .ok e := by
  induction es with
  | nil => exact entryAt_append_zero e rest
  | cons d es ih =>
      rw [List.flatMap_cons, List.append_assoc, List.length_cons, entryAt_append_succ, ih]

theorem unit_encode (u : UInt16) : ∃ lo hi : UInt8, encode 2 u.toNat = [lo, hi] ∧
    UInt16.ofNat (lo.toNat + 256 * hi.toNat) = u := by
  refine ⟨_, _, rfl, UInt16.toNat_inj.mp ?_⟩
  have hvalue : value (encode 2 u.toNat) = u.toNat := by
    rw [value_encode]
    exact Nat.mod_eq_of_lt u.toNat_lt
  rw [toNat_unit]
  simpa [value, encode] using hvalue

theorem units_unitBytes_append (us : List UInt16) (b : Bytes) :
    units (unitBytes us ++ b) = us ++ units b := by
  induction us with
  | nil => rfl
  | cons u us ih =>
      obtain ⟨lo, hi, he, hu⟩ := unit_encode u
      rw [unitBytes] at ih ⊢
      rw [List.flatMap_cons, he]
      change UInt16.ofNat (lo.toNat + 256 * hi.toNat) :: units (us.flatMap _ ++ b) = _
      rw [hu, ih, List.cons_append]

theorem nameUnits_unitBytes {us : List UInt16} (hus : ∀ u ∈ us, u ≠ 0) (b : Bytes) :
    nameUnits (unitBytes us ++ 0 :: 0 :: b) = us := by
  rw [nameUnits, units_unitBytes_append, units, List.takeWhile_append_of_pos (by simpa using hus),
    List.takeWhile_cons_of_neg (by decide), List.append_nil]

theorem codeBytes_of_forall {us : List UInt16} (h : ∀ u ∈ us, ¬ SingleByte u) :
    codeBytes us = 4 * us.length := by
  rw [codeBytes, List.countP_eq_zero.mpr (by simpa using h),
    List.countP_eq_length.mpr (by simpa using h), Nat.zero_add]

def fullPart : Bytes := unitBytes (List.replicate 13 0x20AC)

theorem length_fullPart : fullPart.length = 26 := by
  rw [fullPart, length_unitBytes, List.length_replicate]

def fullSlot (n : ℕ) : FatDirLayout := slotOf (UInt8.ofNat n) fullPart length_fullPart

def fullBlock : Bytes :=
  ((slotIds 20).map fullSlot).flatMap (·.bytes) ++ (dirNamed 0x53 0x55 0x42 2).bytes

theorem isSlot_fullSlot {n : ℕ} (hn : n ∈ slotIds 20) : isSlot (fullSlot n) = true := by
  have hall : ∀ k ∈ slotIds 20, (UInt8.ofNat k == 0xE5) = false := by decide
  rw [isSlot, isDeleted, fullSlot, nameHead_slotOf, attr_slotOf, hall n hn]
  rfl

theorem fullSlots_numbered :
    ((slotIds 20).map fullSlot).map (fun d => d.nameHead.toNat) = slotIds 20 := by
  rw [List.map_map]
  refine (List.map_congr_left fun n hn => ?_).trans (List.map_id _)
  rw [Function.comp_apply, fullSlot, nameHead_slotOf, UInt8.toNat_ofNat',
    Nat.mod_eq_of_lt (lt_of_mem_slotIds (by norm_num) hn)]
  rfl

theorem fullSlots_gathered : Gathered false none ((slotIds 20).map fullSlot) 0
    (unitBytes ((slotIds 20).reverse.flatMap fun _ => List.replicate 13 0x20AC) ++ [0, 0]) := by
  have hlen : ((slotIds 20).map fullSlot).length = 20 := by
    rw [List.length_map, length_slotIds]
  have hlive : ∀ d ∈ (slotIds 20).map fullSlot, isSlot d = true := by
    intro d hd
    obtain ⟨n, hn, rfl⟩ := List.mem_map.mp hd
    exact isSlot_fullSlot hn
  have hchars : slotChars ((slotIds 20).map fullSlot) =
      unitBytes ((slotIds 20).reverse.flatMap fun _ => List.replicate 13 0x20AC) ++ [0, 0] := by
    rw [slotChars, ← List.map_reverse, List.flatMap_map, unitBytes, List.flatMap_assoc]
    refine congrArg (· ++ [0, 0]) (List.flatMap_congr fun n _ => ?_)
    rw [fullSlot, copyLfnPart_slotOf]
    rfl
  obtain ⟨start, rest, hslots, hopens, hnumber, hsmall⟩ :=
    start_of_numbered (by rw [hlen, fullSlots_numbered])
      (List.ne_nil_of_length_eq_add_one hlen) (by omega)
  rw [← hchars]
  rw [hslots] at hlive ⊢
  refine .inl ⟨start, rest, ⟨⟨[], ?_⟩, hlive start (by simp), hopens, fun d hd => ?_⟩,
    hnumber.symm, (gather_slotChars hsmall).symm⟩
  · exact List.filter_eq_self.mpr fun d hd => consults_of_isSlot (hlive d hd)
  · exact ⟨hlive d (by simp [hd]), not_opensName_of_lt (hsmall d hd)⟩

/-- Their name has 1040 bytes and leaves the buffer. -/
theorem longNames_overflow : ∃ t,
    Hands (fun _ => 0) asciiLocale DirectoryIO.subVolume .initial fullBlock false 20 t ∧
      ¬ ∃ b, strcpy disFullName t = .ok b := by
  have hentries : entriesFrom fullBlock 0 20 = (slotIds 20).map fullSlot :=
    entriesFrom_flatMap _ _
  have hentry : entryAt fullBlock 20 = .ok (dirNamed 0x53 0x55 0x42 2) := by
    have h := entryAt_flatMap ((slotIds 20).map fullSlot) (dirNamed 0x53 0x55 0x42 2) []
    rwa [List.append_nil] at h
  have hchar : ∀ u ∈ (slotIds 20).reverse.flatMap fun _ => List.replicate 13 (0x20AC : UInt16),
      u = 0x20AC := by
    intro u hu
    obtain ⟨n, -, hu⟩ := List.mem_flatMap.mp hu
    exact List.eq_of_mem_replicate hu
  refine ⟨_, (hands_iff represents_initial).mpr ⟨_, _, hentry, by decide,
    hentries ▸ fullSlots_gathered, rfl⟩, ?_⟩
  rw [nameOf_eq_flatMap asciiLocale_cLocale, strcpy_disFullName_iff (zero_notMem_nameUnits _),
    length_flatMap_unitCode, nameUnits_unitBytes fun u hu => by rw [hchar u hu]; decide,
    codeBytes_of_forall fun u hu => by rw [hchar u hu]; decide]
  simp only [List.length_flatMap, List.length_replicate]
  decide

end Overflow

end TFAT.NameBuffers
