import Mathlib.Data.Finset.Lattice.Fold
import Mathlib.Order.Lattice.Nat
import TFAT.ClusterPlacement
import TFAT.DeleteSafety

/-!
# What `test_cluster` finds out

`fs_test` returns how many bytes it has read, so a sector of which only a part is there
passes for a good one. And the offset of the cluster is kept in 32 bits, so the sectors are
looked for modulo 4 GiB. A cluster that can be read is always reported as good, but one that
cannot be is reported as bad only if the image ends in front of one of these places.
-/
namespace TFAT.ClusterTests
open ByteRegions LittleEndianWords DiskLayout ClusterTable FileDescriptor VolumeMount
open ClusterPlacement Fat16Flush DeleteSafety

/-- `fs_test`: the number of bytes that were read. -/
def fsTest (img : Bytes) (pos size : ℕ) : ℕ :=
  (((⟨img, 0⟩ : Descriptor).seekSet pos).available size).length

/-- The loop of `test_cluster` with `n` sectors left from the one with number `i`. -/
def testSectors (v : Volume) (img : Bytes) (sec : ℕ) : ℕ → ℕ → Bool
  | 0, _ => true
  | n + 1, i =>
      if fsTest img ((sec + i * sector v.boot) % 2 ^ 32) (sector v.boot) = 0 then false
      else testSectors v img sec n (i + 1)

/-- `test_cluster`, whose offset has 32 bits. -/
def testCluster (v : Volume) (img : Bytes) (index : ℕ) : Bool :=
  testSectors v img (v.clusterToSector index % 2 ^ 32) v.boot.sectorsPerCluster.toNat 0

/-- All bytes of the cluster are in the image. -/
def Readable (v : Volume) (img : Bytes) (c : ℕ) : Prop :=
  (slice img (v.place c).off (clusterBytes v.boot)).length = clusterBytes v.boot

/-- The highest of the offsets of the sectors of a cluster, where these are kept in 32 bits. -/
def lastTested (v : Volume) (c : ℕ) : ℕ :=
  (Finset.range v.boot.sectorsPerCluster.toNat).sup fun i =>
    (v.dataOffset + ((c - 2) * clusterBytes v.boot + i * sector v.boot)) % 2 ^ 32

section Sectors
variable {v : Volume} {img : Bytes} {c sec n i pos size : ℕ}

theorem fsTest_eq_zero_iff : fsTest img pos size = 0 ↔ size = 0 ∨ img.length ≤ pos := by
  change (slice img pos size).length = 0 ↔ _
  rw [length_slice]
  omega

theorem testSectors_iff : testSectors v img sec n i ↔ ∀ k, i ≤ k → k < i + n →
    0 < sector v.boot ∧ (sec + k * sector v.boot) % 2 ^ 32 < img.length := by
  induction n generalizing i with
  | zero => exact iff_of_true rfl fun k hi hk => absurd hk (by omega)
  | succ n ih =>
      rw [testSectors]
      split_ifs with h <;> rw [fsTest_eq_zero_iff] at h
      · refine iff_of_false (by simp) fun hall => ?_
        have hfirst := hall i le_rfl (by omega)
        omega
      · rw [ih]
        constructor
        · intro hall k hi hk
          rcases Nat.eq_or_lt_of_le hi with rfl | hlt
          · omega
          · exact hall k hlt (by omega)
        · exact fun hall k hi hk => hall k (by omega) (by omega)

theorem testCluster_iff (h₂ : 2 ≤ c) (hc : c < 2 ^ 32) : testCluster v img c ↔
    ∀ i < v.boot.sectorsPerCluster.toNat, 0 < sector v.boot ∧
      (v.dataOffset + ((c - 2) * clusterBytes v.boot + i * sector v.boot)) % 2 ^ 32 <
        img.length := by
  simp only [← sectorSpan_off h₂ hc]
  rw [testCluster, testSectors_iff]
  simp only [Nat.zero_le, forall_true_left, Nat.zero_add]
  rfl

theorem readable_iff : Readable v img c ↔
    clusterBytes v.boot = 0 ∨ (v.place c).off + clusterBytes v.boot ≤ img.length := by
  rw [Readable, length_slice]
  omega

/-- Where there are sectors, the highest offset decides. -/
theorem lastTested_lt_iff (hn : v.boot.sectorsPerCluster.toNat ≠ 0) :
    lastTested v c < img.length ↔ ∀ i < v.boot.sectorsPerCluster.toNat,
      (v.dataOffset + ((c - 2) * clusterBytes v.boot + i * sector v.boot)) % 2 ^ 32 <
        img.length := by
  rcases Nat.eq_zero_or_pos img.length with h₀ | hpos
  · rw [h₀]
    exact iff_of_false (Nat.not_lt_zero _) fun h => Nat.not_lt_zero _ (h 0 (by omega))
  · rw [lastTested, Finset.sup_lt_iff hpos]
    simp only [Finset.mem_range]

theorem lastTested_lt_of_readable (hs : 0 < sector v.boot) (hn : v.boot.sectorsPerCluster.toNat ≠ 0)
    (hr : (v.place c).off + clusterBytes v.boot ≤ img.length) : lastTested v c < img.length := by
  rw [lastTested_lt_iff hn]
  intro i hi
  have hend := sector_end_le hi
  have hmod := Nat.mod_le (v.dataOffset + ((c - 2) * clusterBytes v.boot + i * sector v.boot))
    (2 ^ 32)
  change v.dataOffset + (c - 2) * clusterBytes v.boot + _ ≤ _ at hr
  omega

/-- The test tells whether a cluster can be read exactly where the image has the whole of it
or ends in front of one of the places at which a sector is looked for. -/
theorem testCluster_right_iff (h₂ : 2 ≤ c) (hc : c < 2 ^ 32) :
    (testCluster v img c ↔ Readable v img c) ↔
      v.boot.sectorsPerCluster.toNat = 0 ∨ 0 < sector v.boot ∧
        (img.length ≤ lastTested v c ∨
          (v.place c).off + clusterBytes v.boot ≤ img.length) := by
  rw [testCluster_iff h₂ hc, readable_iff]
  by_cases hn : v.boot.sectorsPerCluster.toNat = 0
  · refine iff_of_true (iff_of_true (fun i hi => absurd hi (by omega)) (.inl ?_)) (.inl hn)
    rw [clusterBytes, hn, Nat.mul_zero]
  rcases Nat.eq_zero_or_pos (sector v.boot) with hs | hs
  · refine iff_of_false (fun h => ?_) (by omega)
    have hall := h.mpr (.inl (by rw [clusterBytes, hs, Nat.zero_mul])) 0 (by omega)
    omega
  · have hpos : clusterBytes v.boot ≠ 0 := Nat.mul_ne_zero (by omega) hn
    have hfound : _ → lastTested v c < img.length := lastTested_lt_of_readable hs hn
    have hlast : lastTested v c < img.length ↔ _ := lastTested_lt_iff hn
    simp only [hs, true_and, hn, hpos, false_or, ← hlast]
    constructor
    · intro h
      by_contra hcon
      rw [not_or, not_le] at hcon
      exact hcon.2 (h.mp hcon.1)
    · rintro (h | h)
      · exact iff_of_false (by omega) fun hr => by have := hfound hr; omega
      · exact iff_of_true (hfound h) h

theorem length_image16_dotVolume : (image16 dotVolume).length = 2048 := by
  have hp := dotVolume_plain
  simp only [image16, List.length_append, FatBS.length_toBytes, FatBS.size, List.length_replicate,
    hp.sized.fatTable, hp.sized.rootDir]
  rfl

/-- A small volume and all of its image. -/
theorem testCluster_right_whole :
    testCluster dotVolume (image16 dotVolume ++ List.replicate 512 0) 2 ∧
      Readable dotVolume (image16 dotVolume ++ List.replicate 512 0) 2 := by
  have hlen : (image16 dotVolume ++ List.replicate 512 0).length = 2560 := by
    rw [List.length_append, length_image16_dotVolume, List.length_replicate]
  have hgood : testCluster dotVolume (image16 dotVolume ++ List.replicate 512 0) 2 := by
    rw [testCluster_iff (by norm_num) (by norm_num), hlen]
    decide
  refine ⟨hgood, ((testCluster_right_iff (by norm_num) (by norm_num)).mpr
    (.inr ⟨by decide, .inr ?_⟩)).mp hgood⟩
  rw [hlen]
  decide

/-- Of the only cluster one byte is there, and it passes for good. -/
theorem testCluster_short_read : ∃ v, initFat (fun _ => 0) (image16 dotVolume ++ [0]) = .ok v ∧
    ¬ (testCluster v (image16 dotVolume ++ [0]) 2 ↔
      Readable v (image16 dotVolume ++ [0]) 2) := by
  refine ⟨dotVolume, ?_, fun h => ?_⟩
  · rw [(dotVolume_plain.image [0]).initFat_eq, dotVolume_plain.mounted]
  · have hlen : (image16 dotVolume ++ [0]).length = 2049 := by
      rw [List.length_append, length_image16_dotVolume, List.length_singleton]
    have hgood : testCluster dotVolume (image16 dotVolume ++ [0]) 2 := by
      rw [testCluster_iff (by norm_num) (by norm_num), hlen]
      decide
    have hread := h.mp hgood
    rw [readable_iff, hlen] at hread
    revert hread
    decide

end Sectors

end TFAT.ClusterTests
