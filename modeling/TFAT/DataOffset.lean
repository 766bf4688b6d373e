import TFAT.Fat16Flush
import TFAT.Fat32Root

/-!
# Where the data area is taken to start

No offset is computed when a volume is mounted: `data_offset` is the position
that the reads of the tables and of the root directory have left behind. Two
tables are read whatever `table_count` says, and the bytes of the others are
passed over by one seek that counts them in 32 bits. The position is therefore
the right one exactly when there are two copies or more and these counts fit.
The writer passes over the copies by writing them and is right in any case.
-/
namespace TFAT.DataOffset
open ByteRegions LittleEndianWords DiskLayout ClusterTable FileDescriptor VolumeMount VolumeLayout
open Fat16Flush Fat32Root

def tableSectors (img : Bytes) : ℕ :=
  match selectFatn (storedBoot img) with
  | .fat16 => (storedBoot img).tableSize16.toNat
  | .fat32 => (storedExt img).tableSize32.toNat

def copyBytes (img : Bytes) : ℕ := sector (storedBoot img) * tableSectors img

def copiesEnd (img : Bytes) : ℕ :=
  ((storedBoot img).reservedSectorCount.toNat +
    (storedBoot img).tableCount.toNat * tableSectors img) * sector (storedBoot img)

def dataStart (img : Bytes) : ℕ :=
  match selectFatn (storedBoot img) with
  | .fat16 => copiesEnd img + 32 * (storedBoot img).rootEntryCount.toNat
  | .fat32 => copiesEnd img

/-- The areas that the boot sector states lie in the image. -/
structure LayoutFits (img : Bytes) : Prop where
  bootSectors : FatBS.size + FatExtBS32.size ≤ img.length
  tables : 1 ≤ (storedBoot img).tableCount.toNat
  areas : dataStart img ≤ img.length

/-- The descriptor after the reads of two tables and the conditional seek. -/
def tablesRead (b : FatBS) (tableSize n : ℕ) (d : Descriptor) : Descriptor :=
  skipTables b tableSize (((d.seekSet (reservedBytes b)).advance n).advance n)

/-- Where `init_fat_16` reads the root directory. -/
def rootSource (b : FatBS) (d : Descriptor) : Descriptor :=
  tablesRead b b.tableSize16.toNat (tableBytes16 b) (d.advance FatExtBS16.size)

/-- Where `write_fat_16` writes it back. -/
def rootTarget (v : Volume) (d : Descriptor) : Except Fault Descriptor :=
  writeTables v.fatTable (tableBytes16 v.boot) v.boot.tableCount.toNat
    (d.seekSet (reservedBytes v.boot))

section Program
variable (fill : ℕ → UInt8)

theorem dataOffset_initFat16 (b : FatBS) (d : Descriptor) :
    (initFat16 fill b d).dataOffset =
      ((rootSource b d).advance (entrySize * b.rootEntryCount.toNat)).pos :=
  rfl

theorem dataOffset_initFat32 {b : FatBS} {d : Descriptor} {v : Volume}
    (h : initFat32 fill b d = .ok v) :
    v.dataOffset = (tablesRead b
      (FatExtBS32.ofBytes (d.load fill FatExtBS32.size)).tableSize32.toNat
      (tableBytes32 b (.ofBytes (d.load fill FatExtBS32.size))) d).pos := by
  simp only [initFat32, bind_eq_ok, Except.ok.injEq] at h
  obtain ⟨r, -, rfl⟩ := h
  rfl

end Program

/-- The offset is that of the data area, and on FAT16 the root directory is read
and written back right behind the last copy of the table. -/
structure InPlace (fill : ℕ → UInt8) (img : Bytes) (v : Volume) : Prop where
  dataOffset : v.dataOffset = dataStart img
  read : v.fatn = .fat16 → (rootSource (bootSector fill img)
    ((Descriptor.mk img 0).advance FatBS.size)).pos = copiesEnd img
  write : v.fatn = .fat16 → ∀ d, ∃ d', rootTarget v d = .ok d' ∧ d'.pos = copiesEnd img

/-- The two tables that are read are copies of the table and the others are counted in
32 bits without loss; or the second read finds nothing. -/
def TablesCounted (img : Bytes) : Prop :=
  copyBytes img < 2 ^ 32 ∧
    if (storedBoot img).tableCount.toNat = 1 then
      copyBytes img = 0 ∨ img.length = copiesEnd img
    else ((storedBoot img).tableCount.toNat - 2) * copyBytes img < 2 ^ 32

theorem advance_pos (d : Descriptor) (n : ℕ) :
    (d.advance n).pos = d.pos + min n (d.bytes.length - d.pos) := by
  rw [Descriptor.advance, Descriptor.available, length_slice]

theorem writeTables_pos {table : Bytes} {n : ℕ} (hn : table.length = n) (count : ℕ)
    (d : Descriptor) :
    ∃ d', writeTables table n count d = .ok d' ∧ d'.pos = d.pos + count * n := by
  induction count generalizing d with
  | zero => exact ⟨d, rfl, by rw [Nat.zero_mul, Nat.add_zero]⟩
  | succ count ih =>
      obtain ⟨d', hd, hp⟩ := ih (d.write table)
      refine ⟨d', ?_, ?_⟩
      · rw [writeTables, copyOut_of_le (by omega), ← hn, slice_zero_length, ok_bind, hn, hd]
      · rw [hp, Descriptor.write_pos, hn, Nat.succ_mul]
        omega

theorem tablesRead_bytes (b : FatBS) (tableSize n : ℕ) (d : Descriptor) :
    (tablesRead b tableSize n d).bytes = d.bytes := by
  rw [tablesRead, skipTables_eq _ rfl]
  rfl

section Reading
variable {b : FatBS} {tableSize T : ℕ} {d : Descriptor}

/-- The reads end where the file ends, and the seek adds its count modulo `2 ^ 32`. -/
theorem tablesRead_pos (hT : sector b * tableSize = T)
    (hin : reservedBytes b + T ≤ d.bytes.length) :
    (tablesRead b tableSize (T % 2 ^ 32) d).pos =
      reservedBytes b + T % 2 ^ 32 +
        min (T % 2 ^ 32) (d.bytes.length - (reservedBytes b + T % 2 ^ 32)) +
        (b.tableCount.toNat - 2) * T % 2 ^ 32 := by
  have hle := Nat.mod_le T (2 ^ 32)
  have h₁ : ((d.seekSet (reservedBytes b)).advance (T % 2 ^ 32)) =
      ⟨d.bytes, reservedBytes b + T % 2 ^ 32⟩ :=
    Descriptor.advance_eq (by simp only [Descriptor.seekSet]; omega)
  rw [tablesRead, skipTables_eq _ hT, h₁]
  simp only [advance_pos]

/-- The reader stands behind the last copy exactly when the counts are right. -/
theorem tablesRead_pos_eq_iff (hT : sector b * tableSize = T) (hN : 1 ≤ b.tableCount.toNat)
    (hin : tablesEnd b T ≤ d.bytes.length) :
    (tablesRead b tableSize (T % 2 ^ 32) d).pos = tablesEnd b T ↔
      T < 2 ^ 32 ∧ if b.tableCount.toNat = 1 then T = 0 ∨ d.bytes.length = tablesEnd b T
        else (b.tableCount.toNat - 2) * T < 2 ^ 32 := by
  rw [tablesEnd] at hin ⊢
  split_ifs with h
  · rw [h, Nat.one_mul] at hin ⊢
    rw [tablesRead_pos hT hin, h]
    omega
  · have hs : b.tableCount.toNat * T = (b.tableCount.toNat - 2) * T + 2 * T := by
      rw [← Nat.add_mul, Nat.sub_add_cancel (by omega)]
    rw [hs] at hin ⊢
    rw [tablesRead_pos hT (by omega)]
    omega

end Reading

section Mounted
variable {fill : ℕ → UInt8} {img : Bytes} {v : Volume}

theorem copiesEnd_eq (img : Bytes) :
    copiesEnd img = tablesEnd (storedBoot img) (copyBytes img) := by
  rw [copiesEnd, tablesEnd, reservedBytes, copyBytes, Nat.add_mul, Nat.mul_assoc,
    Nat.mul_comm (tableSectors img)]

theorem LayoutFits.copiesEnd_le (h : LayoutFits img) : copiesEnd img ≤ img.length := by
  have ha := h.areas
  rw [dataStart] at ha
  split at ha <;> omega

theorem LayoutFits.bootSector_eq (h : LayoutFits img) (fill : ℕ → UInt8) :
    bootSector fill img = storedBoot img :=
  VolumeLayout.bootSector_eq fill (by have hb := h.bootSectors; omega)

/-- The reader of either format stands behind the last copy exactly under the condition. -/
theorem LayoutFits.tablesRead_pos_iff (h : LayoutFits img) (pos : ℕ) :
    (tablesRead (storedBoot img) (tableSectors img) (copyBytes img % 2 ^ 32) ⟨img, pos⟩).pos =
      copiesEnd img ↔ TablesCounted img := by
  have hin := h.copiesEnd_le
  rw [copiesEnd_eq] at hin
  rw [TablesCounted, copiesEnd_eq]
  exact tablesRead_pos_eq_iff rfl h.tables hin

theorem tableBytes16_lt (b : FatBS) : tableBytes16 b < 2 ^ 32 := by
  have hs : sector b < 2 ^ 16 := b.bytesPerSector.toNat_lt
  have ht : b.tableSize16.toNat < 2 ^ 16 := b.tableSize16.toNat_lt
  calc tableBytes16 b < 2 ^ 16 * 2 ^ 16 := Nat.mul_lt_mul'' hs ht
    _ = 2 ^ 32 := by norm_num

theorem LayoutFits.inPlace_iff_fat32 (h : LayoutFits img)
    (hf : selectFatn (storedBoot img) = .fat32) (hv : initFat fill img = .ok v) :
    InPlace fill img v ↔ TablesCounted img := by
  have hb := h.bootSectors
  have h₀ : (Descriptor.mk img 0).advance FatBS.size = ⟨img, FatBS.size⟩ := by
    rw [Descriptor.advance_eq (by simp only; omega), Nat.zero_add]
  have he : FatExtBS32.ofBytes ((Descriptor.mk img FatBS.size).load fill FatExtBS32.size) =
      storedExt img := by
    rw [Descriptor.load_eq fill hb, storedExt]
  have hts : tableSectors img = (storedExt img).tableSize32.toNat := by rw [tableSectors, hf]
  rw [initFat, h.bootSector_eq fill, hf] at hv
  simp only [h₀] at hv
  have hoff := dataOffset_initFat32 fill hv
  have hn : v.fatn ≠ .fat16 := by
    simp only [initFat32, bind_eq_ok, Except.ok.injEq] at hv
    obtain ⟨r, -, rfl⟩ := hv
    exact fun hc => by cases hc
  have hstart : dataStart img = copiesEnd img := by rw [dataStart, hf]
  rw [he, ← hts, tableBytes32, ← hts] at hoff
  rw [← h.tablesRead_pos_iff FatBS.size]
  constructor
  · intro hp
    rw [← hstart, ← hp.dataOffset, hoff, copyBytes]
  · intro hp
    refine ⟨?_, fun hc => absurd hc hn, fun hc => absurd hc hn⟩
    rw [hoff, hstart, ← hp, copyBytes]

/-- On FAT16 the root directory is read there as well. -/
theorem LayoutFits.inPlace_iff_fat16 (h : LayoutFits img)
    (hf : selectFatn (storedBoot img) = .fat16) (hv : initFat fill img = .ok v) :
    InPlace fill img v ↔ TablesCounted img := by
  have hts : tableSectors img = (storedBoot img).tableSize16.toNat := by rw [tableSectors, hf]
  have hn : copyBytes img % 2 ^ 32 = tableBytes16 (storedBoot img) := by
    rw [copyBytes, hts]
    exact Nat.mod_eq_of_lt (tableBytes16_lt _)
  have hcopy : copyBytes img = tableBytes16 (storedBoot img) := by
    rw [copyBytes, hts, tableBytes16]
  have hread : (rootSource (storedBoot img) ((Descriptor.mk img 0).advance FatBS.size)).pos =
      copiesEnd img ↔ TablesCounted img := by
    have hpos := h.tablesRead_pos_iff
      (((Descriptor.mk img 0).advance FatBS.size).advance FatExtBS16.size).pos
    rw [hts, hn] at hpos
    exact hpos
  rw [initFat, h.bootSector_eq fill, hf] at hv
  have hvv := Except.ok.inj hv
  rw [← hread]
  constructor
  · intro hp
    have hr := hp.read (by rw [← hvv]; rfl)
    rw [h.bootSector_eq fill] at hr
    exact hr
  · intro hp
    refine ⟨?_, fun _ => ?_, fun _ d => ?_⟩
    · have ha := h.areas
      have hd := dataOffset_initFat16 fill (storedBoot img)
        ((Descriptor.mk img 0).advance FatBS.size)
      rw [dataStart, hf] at ha ⊢
      simp only at ha ⊢
      rw [← hvv, hd, advance_pos, hp, rootSource, tablesRead_bytes, entrySize]
      simp only [Descriptor.advance_bytes]
      omega
    · rw [h.bootSector_eq fill]
      exact hp
    · subst hvv
      have hlen : (initFat16 fill (storedBoot img)
          ((Descriptor.mk img 0).advance FatBS.size)).fatTable.length =
            tableBytes16 (storedBoot img) :=
        Descriptor.length_load _ fill (tableBytes16 (storedBoot img))
      obtain ⟨d', hd, hpos⟩ := writeTables_pos hlen
        (storedBoot img).tableCount.toNat (d.seekSet (reservedBytes (storedBoot img)))
      refine ⟨d', hd, ?_⟩
      rw [hpos, copiesEnd_eq, tablesEnd, hcopy, Descriptor.seekSet_pos]

/-- The offset recorded by mounting, and the place of the root directory, are right
exactly when the tables are counted right. -/
theorem inPlace_iff_tablesCounted (fill : ℕ → UInt8) (h : LayoutFits img)
    (hv : initFat fill img = .ok v) : InPlace fill img v ↔ TablesCounted img := by
  cases hf : selectFatn (storedBoot img) with
  | fat16 => exact h.inPlace_iff_fat16 hf hv
  | fat32 => exact h.inPlace_iff_fat32 hf hv

end Mounted

section Example

theorem tinyFat16_layoutFits : LayoutFits tinyFat16 := by
  have hb : storedBoot tinyFat16 = ⟨512, 1, 1, 2, 16, 40000, 0xF8, 1, 0⟩ := by decide
  have hl : tinyFat16.length = 2048 := by
    rw [tinyFat16, List.length_append, List.length_replicate, FatBS.length_toBytes, FatBS.size]
  refine ⟨?_, ?_, ?_⟩
  · rw [hl]
    decide
  · rw [hb]
    decide
  · rw [dataStart, copiesEnd, tableSectors, hb, hl]
    decide

theorem tinyFat16_tablesCounted : TablesCounted tinyFat16 := by
  have hb : storedBoot tinyFat16 = ⟨512, 1, 1, 2, 16, 40000, 0xF8, 1, 0⟩ := by decide
  rw [TablesCounted, copyBytes, tableSectors, hb]
  decide

/-- The two tables of the small image are read, and none is left to skip. -/
theorem tinyFat16_inPlace : LayoutFits tinyFat16 ∧
    InPlace (fun _ => 0) tinyFat16 (mounted16 tinyFat16) :=
  ⟨tinyFat16_layoutFits, (inPlace_iff_tablesCounted _ tinyFat16_layoutFits
    (tinyFat16_image.initFat_eq _)).mpr tinyFat16_tablesCounted⟩

/-- A FAT16 image of one reserved sector, a single table of one sector, a root
directory of one sector and one sector of data. -/
def oneTable : Bytes :=
  FatBS.toBytes ⟨512, 1, 1, 1, 16, 40000, 0xF8, 1, 0⟩ ++ List.replicate 2012 0

/-- The root directory is taken for the second table. -/
theorem oneTable_not_inPlace : LayoutFits oneTable ∧
    ∃ v, initFat (fun _ => 0) oneTable = .ok v ∧ ¬ InPlace (fun _ => 0) oneTable v := by
  have hb : storedBoot oneTable = ⟨512, 1, 1, 1, 16, 40000, 0xF8, 1, 0⟩ := by decide
  have hl : oneTable.length = 2048 := by
    rw [oneTable, List.length_append, List.length_replicate, FatBS.length_toBytes, FatBS.size]
  have hfits : LayoutFits oneTable := by
    refine ⟨?_, ?_, ?_⟩
    · rw [hl]
      decide
    · rw [hb]
      decide
    · rw [dataStart, copiesEnd, tableSectors, hb, hl]
      decide
  have hf : selectFatn (storedBoot oneTable) = .fat16 := by rw [hb]; decide
  have hv : initFat (fun _ => 0) oneTable = .ok (initFat16 (fun _ => 0) (storedBoot oneTable)
      ((Descriptor.mk oneTable 0).advance FatBS.size)) := by
    rw [initFat, hfits.bootSector_eq, hf]
  refine ⟨hfits, _, hv, fun hp => ?_⟩
  have hcount := (hfits.inPlace_iff_fat16 hf hv).mp hp
  rw [TablesCounted, copiesEnd, copyBytes, tableSectors, hb, hl] at hcount
  exact absurd hcount (by decide)

end Example

end TFAT.DataOffset
