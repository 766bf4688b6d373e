import TFAT.VolumeMount

/-!
# Which format a volume has and which one `init_fat` takes it for

The format of a volume is decided by its number of clusters, computed from the
sizes of its areas. `init_fat` decides by one field of the boot sector. The two
agree exactly on the volumes whose 16-bit sector count is in use just when the
volume is FAT16, and then the recorded sector count is right as well.
-/
namespace TFAT.FormatDetection
open ByteRegions LittleEndianWords DiskLayout ClusterTable FileDescriptor VolumeMount

def fatSectors (b : FatBS) (e : FatExtBS32) : ℕ :=
  if b.tableSize16 = 0 then e.tableSize32.toNat else b.tableSize16.toNat

def rootSectors (b : FatBS) : ℕ :=
  (entrySize * b.rootEntryCount.toNat + (sector b - 1)) / sector b

def sectorCount (b : FatBS) : ℕ :=
  if b.totalSectors16 = 0 then b.totalSectors32.toNat else b.totalSectors16.toNat

def clusterCount (b : FatBS) (e : FatExtBS32) : ℕ :=
  (sectorCount b - (b.reservedSectorCount.toNat + b.tableCount.toNat * fatSectors b e +
    rootSectors b)) / b.sectorsPerCluster.toNat

def IsFat16 (b : FatBS) (e : FatExtBS32) : Prop :=
  4085 ≤ clusterCount b e ∧ clusterCount b e ≤ 65524

def IsFat32 (b : FatBS) (e : FatExtBS32) : Prop := 65525 ≤ clusterCount b e

instance (b : FatBS) (e : FatExtBS32) : Decidable (IsFat16 b e) :=
  inferInstanceAs (Decidable (_ ∧ _))

instance (b : FatBS) (e : FatExtBS32) : Decidable (IsFat32 b e) :=
  inferInstanceAs (Decidable (_ ≤ _))

structure WellFormed (b : FatBS) (e : FatExtBS32) : Prop where
  format : IsFat16 b e ∨ IsFat32 b e
  tableSize : b.tableSize16 ≠ 0 ↔ IsFat16 b e

variable (fill : ℕ → UInt8)

/-- The sector behind the boot sector fields as the FAT32 branch reads it. -/
def extendedSector (img : Bytes) : FatExtBS32 :=
  .ofBytes (((Descriptor.mk img 0).advance FatBS.size).load fill FatExtBS32.size)

/-- The choice of `FATN` and the sector count are those of the volume. -/
structure Detected (img : Bytes) : Prop where
  fat16 : selectFatn (bootSector fill img) = .fat16 ↔
    IsFat16 (bootSector fill img) (extendedSector fill img)
  fat32 : selectFatn (bootSector fill img) = .fat32 ↔
    IsFat32 (bootSector fill img) (extendedSector fill img)
  mounted : ∀ v, initFat fill img = .ok v → v.fatn = selectFatn (bootSector fill img) ∧
    v.totalSectors = sectorCount (bootSector fill img)

theorem selectFatn_eq_fat16 (b : FatBS) : selectFatn b = .fat16 ↔ b.totalSectors16 ≠ 0 := by
  unfold selectFatn
  split_ifs with h <;> simp [h]

theorem selectFatn_eq_fat32 (b : FatBS) : selectFatn b = .fat32 ↔ b.totalSectors16 = 0 := by
  unfold selectFatn
  split_ifs with h <;> simp [h]

/-- Whatever `init_fat` goes on to do, `FATN` and the sector counts are the ones
it read from the boot sector. -/
theorem initFat_selects {img : Bytes} {v : Volume} (h : initFat fill img = .ok v) :
    v.fatn = selectFatn (bootSector fill img) ∧
      v.boot.totalSectors16 = (bootSector fill img).totalSectors16 ∧
      v.boot.totalSectors32 = (bootSector fill img).totalSectors32 := by
  unfold initFat at h
  cases hs : selectFatn (bootSector fill img) with
  | fat16 =>
      simp only [hs, Except.ok.injEq] at h
      subst h
      exact ⟨rfl, rfl, rfl⟩
  | fat32 =>
      simp only [hs, initFat32, bind_eq_ok] at h
      obtain ⟨r, -, hv⟩ := h
      rw [← Except.ok.inj hv]
      exact ⟨rfl, rfl, rfl⟩

theorem totalSectors_eq {img : Bytes} {v : Volume} (h : initFat fill img = .ok v) :
    v.totalSectors = sectorCount (bootSector fill img) := by
  obtain ⟨hn, h₁₆, h₃₂⟩ := initFat_selects fill h
  unfold Volume.totalSectors sectorCount
  cases hs : selectFatn (bootSector fill img) with
  | fat16 => rw [hn, hs, if_neg ((selectFatn_eq_fat16 _).mp hs), h₁₆]
  | fat32 => rw [hn, hs, if_pos ((selectFatn_eq_fat32 _).mp hs), h₃₂]

theorem WellFormed.fat32_iff {b : FatBS} {e : FatExtBS32} (h : WellFormed b e) :
    IsFat32 b e ↔ ¬ IsFat16 b e := by
  have hf := h.format
  unfold IsFat32 IsFat16 at *
  omega

theorem detected_iff {img : Bytes}
    (h : WellFormed (bootSector fill img) (extendedSector fill img)) :
    Detected fill img ↔
      ((bootSector fill img).totalSectors16 ≠ 0 ↔
        IsFat16 (bootSector fill img) (extendedSector fill img)) := by
  constructor
  · intro hd
    rw [← selectFatn_eq_fat16]
    exact hd.fat16
  · intro hc
    refine ⟨?_, ?_, fun v hv => ⟨(initFat_selects fill hv).1, totalSectors_eq fill hv⟩⟩
    · rw [selectFatn_eq_fat16, hc]
    · rw [selectFatn_eq_fat32, h.fat32_iff, ← hc, not_not]

/-- A FAT16 volume of 64 MiB: its 131072 sectors do not fit the 16-bit count. -/
def largeFat16 : Bytes :=
  FatBS.toBytes ⟨512, 4, 1, 2, 512, 0, 0xF8, 128, 131072⟩ ++ List.replicate 476 0

theorem largeFat16_wellFormed :
    WellFormed (bootSector (fun _ => 0) largeFat16) (extendedSector (fun _ => 0) largeFat16) :=
  ⟨by decide, by decide⟩

theorem largeFat16_not_detected :
    WellFormed (bootSector (fun _ => 0) largeFat16) (extendedSector (fun _ => 0) largeFat16) ∧
      ¬ Detected (fun _ => 0) largeFat16 := by
  refine ⟨largeFat16_wellFormed, fun h => ?_⟩
  exact absurd (h.fat16.mpr (by decide)) (by decide)

def smallFat16 : Bytes :=
  FatBS.toBytes ⟨512, 4, 1, 2, 512, 40000, 0xF8, 40, 0⟩ ++ List.replicate 476 0

theorem smallFat16_detected :
    WellFormed (bootSector (fun _ => 0) smallFat16) (extendedSector (fun _ => 0) smallFat16) ∧
      Detected (fun _ => 0) smallFat16 := by
  have h : WellFormed (bootSector (fun _ => 0) smallFat16)
      (extendedSector (fun _ => 0) smallFat16) := ⟨by decide, by decide⟩
  exact ⟨h, (detected_iff (fun _ => 0) h).mpr (by decide)⟩

end TFAT.FormatDetection
