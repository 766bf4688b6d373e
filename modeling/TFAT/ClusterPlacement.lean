import Mathlib.Tactic.Linarith
import TFAT.ClusterTable

/-!
# Where the code looks for a cluster

A data cluster has one place on the volume, an exact offset behind the start
of the data area. The code computes offsets in 32 bits, so on a large volume
the offset comes round and two clusters share a place. The five routines that
transfer the contents of a cluster are described by the stretches of the file
they transfer, and a condition on the geometry alone says when every cluster
is where it belongs and no routine reaches into another one.
-/
namespace TFAT.ClusterPlacement
open DiskLayout ClusterTable

structure Span where
  off : ℕ
  len : ℕ
  deriving DecidableEq, Repr

instance : Membership ℕ Span := ⟨fun s x => s.off ≤ x ∧ x < s.off + s.len⟩

theorem Span.mem_def {s : Span} {x : ℕ} : x ∈ s ↔ s.off ≤ x ∧ x < s.off + s.len := Iff.rfl

/-- No byte lies in both. -/
def Span.Apart (s t : Span) : Prop := ∀ x ∈ s, x ∉ t

/-- The routines that transfer the contents of a cluster. The dumps carry the
number of bytes that remain to be printed. -/
inductive Routine where
  | parseDir
  | writeDir
  | dump (size : ℕ)
  | hdump (size : ℕ)
  | testCluster
  deriving DecidableEq, Repr

end TFAT.ClusterPlacement

namespace TFAT.ClusterTable.Volume
open DiskLayout ClusterPlacement
variable (v : Volume)

def clusterSpan (c : ℕ) : Span := ⟨v.clusterToSector c, clusterBytes v.boot⟩

def fileSpan (size c : ℕ) : Span :=
  if size < clusterBytes v.boot then ⟨v.clusterToSector c, size⟩ else v.clusterSpan c

/-- The test of one sector; `test_cluster` keeps the offset in 32 bits. -/
def sectorSpan (c i : ℕ) : Span :=
  ⟨(v.clusterToSector c % 2 ^ 32 + i * sector v.boot) % 2 ^ 32, sector v.boot⟩

/-- What a routine transfers when its walk is at cluster `c`. -/
def touches : Routine → ℕ → List Span
  | .parseDir, c => [v.clusterSpan c]
  | .writeDir, c => [v.clusterSpan c]
  | .dump size, c => [v.fileSpan size c]
  | .hdump size, c => [v.fileSpan size c]
  | .testCluster, c => (List.range v.boot.sectorsPerCluster.toNat).map (v.sectorSpan c)

def place (c : ℕ) : Span :=
  ⟨v.dataOffset + (c - 2) * clusterBytes v.boot, clusterBytes v.boot⟩

end TFAT.ClusterTable.Volume

namespace TFAT.ClusterPlacement
open DiskLayout ClusterTable
variable (v : Volume) (N : ℕ)

def IsData (c : ℕ) : Prop := 2 ≤ c ∧ c < N + 2

/-- Every data cluster is where it belongs, and no routine reaches another one. -/
structure Placed : Prop where
  exact : ∀ c, IsData N c → v.clusterToSector c = (v.place c).off
  apart : ∀ c c', IsData N c → IsData N c' → c ≠ c' →
    (v.clusterSpan c).Apart (v.clusterSpan c')
  confined : ∀ r c c', IsData N c → IsData N c' → c ≠ c' →
    ∀ s ∈ v.touches r c, s.Apart (v.place c')

/-- The offset of the last cluster into the data area fits 32 bits, and so does
every offset of the volume at which a sector past that bound would be tested. -/
def Fits : Prop :=
  (N - 1) * clusterBytes v.boot < 2 ^ 32 ∧
    ∀ i < v.boot.sectorsPerCluster.toNat,
      let x := (N - 1) * clusterBytes v.boot + i * sector v.boot
      x + sector v.boot ≤ 2 ^ 32 ∨ v.dataOffset + x < 2 ^ 32 ∨ 2 ^ 33 ≤ v.dataOffset + x

variable {v N}

theorem mem_place {c x : ℕ} : x ∈ v.place c ↔
    v.dataOffset + (c - 2) * clusterBytes v.boot ≤ x ∧
      x < v.dataOffset + (c - 2) * clusterBytes v.boot + clusterBytes v.boot := Iff.rfl

theorem clusterToSector_of_two_le {c : ℕ} (h₂ : 2 ≤ c) (hc : c < 2 ^ 32) :
    v.clusterToSector c = (c - 2) * clusterBytes v.boot % 2 ^ 32 + v.dataOffset := by
  rw [v.clusterToSector_eq, sub32_of_le h₂ (by norm_num) hc, Nat.mul_comm]

theorem clusterToSector_exact {c : ℕ} (h₂ : 2 ≤ c) (hc : c < 2 ^ 32)
    (hf : (c - 2) * clusterBytes v.boot < 2 ^ 32) :
    v.clusterToSector c = (v.place c).off := by
  rw [clusterToSector_of_two_le h₂ hc, Nat.mod_eq_of_lt hf, Volume.place, Nat.add_comm]

theorem sectorSpan_off {c : ℕ} (h₂ : 2 ≤ c) (hc : c < 2 ^ 32) (i : ℕ) :
    (v.sectorSpan c i).off =
      (v.dataOffset + ((c - 2) * clusterBytes v.boot + i * sector v.boot)) % 2 ^ 32 := by
  change (v.clusterToSector c % 2 ^ 32 + i * sector v.boot) % 2 ^ 32 = _
  rw [clusterToSector_of_two_le h₂ hc]
  omega

theorem place_apart {c c' : ℕ} (h₂ : 2 ≤ c) (h₂' : 2 ≤ c') (h : c ≠ c') :
    (v.place c).Apart (v.place c') := by
  intro x hx hx'
  rw [mem_place] at hx hx'
  rcases Nat.lt_or_gt_of_ne h with hlt | hlt
  · have hm := Nat.mul_le_mul_right (clusterBytes v.boot) (show c - 2 + 1 ≤ c' - 2 by omega)
    rw [Nat.succ_mul] at hm
    omega
  · have hm := Nat.mul_le_mul_right (clusterBytes v.boot) (show c' - 2 + 1 ≤ c - 2 by omega)
    rw [Nat.succ_mul] at hm
    omega

theorem sector_end_le {i : ℕ} (hi : i < v.boot.sectorsPerCluster.toNat) :
    i * sector v.boot + sector v.boot ≤ clusterBytes v.boot := by
  have h := Nat.mul_le_mul_left (sector v.boot)
    (show i + 1 ≤ v.boot.sectorsPerCluster.toNat from hi)
  rw [clusterBytes]
  linarith

theorem IsData.index_le {c : ℕ} (h : IsData N c) (m : ℕ) : (c - 2) * m ≤ (N - 1) * m :=
  Nat.mul_le_mul_right m (by have := h.1; have := h.2; omega)

theorem apart_of_own {s : Span} {c c' : ℕ} (h₂ : 2 ≤ c) (h₂' : 2 ≤ c') (hne : c ≠ c')
    (ho : (v.place c).off ≤ s.off) (hl : s.off + s.len ≤ (v.place c).off + (v.place c).len) :
    s.Apart (v.place c') :=
  fun x hx => place_apart h₂ h₂' hne x ⟨ho.trans hx.1, hx.2.trans_le hl⟩

/-- A tested sector that came round lies in front of the data area, unless it is
one of those that the condition excludes. -/
theorem sectorSpan_apart (hf : Fits v N) (hN : N ≤ 0x0FFFFFF4) {c c' i : ℕ} (hc : IsData N c)
    (hc' : IsData N c') (hne : c ≠ c') (hi : i < v.boot.sectorsPerCluster.toNat) :
    (v.sectorSpan c i).Apart (v.place c') := by
  have hc₂ := hc.2
  have hoff := sectorSpan_off (v := v) hc.1 (show c < 2 ^ 32 by omega) i
  have hend := sector_end_le hi
  have hlt := clusterBytes_lt v.boot
  have hle := hc.index_le (clusterBytes v.boot)
  have hlen : (v.sectorSpan c i).len = sector v.boot := rfl
  have hfi := hf.2 i hi
  have hbase := hf.1
  simp only at hfi
  by_cases hw : v.dataOffset + ((c - 2) * clusterBytes v.boot + i * sector v.boot) < 2 ^ 32
  · rw [Nat.mod_eq_of_lt hw] at hoff
    have hown : (v.place c).off ≤ (v.sectorSpan c i).off := by
      rw [hoff, Volume.place]
      simp only
      omega
    refine apart_of_own hc.1 hc'.1 hne hown ?_
    rw [hoff, hlen, Volume.place]
    simp only
    omega
  · intro x hx hx'
    rw [Span.mem_def, hoff, hlen] at hx
    rw [mem_place] at hx'
    by_cases hlast : c - 2 = N - 1
    · rw [hlast] at hx hw
      omega
    · have hm := Nat.mul_le_mul_right (clusterBytes v.boot)
        (show c - 2 + 1 ≤ N - 1 by have := hc.1; omega)
      rw [Nat.succ_mul] at hm
      omega

theorem Fits.placed (hf : Fits v N) (hN : N ≤ 0x0FFFFFF4) : Placed v N := by
  have hexact : ∀ c, IsData N c → v.clusterToSector c = (v.place c).off := fun c hc =>
    clusterToSector_exact hc.1 (by have := hc.2; omega) ((hc.index_le _).trans_lt hf.1)
  have hspan : ∀ c, IsData N c → v.clusterSpan c = v.place c := fun c hc => by
    rw [Volume.clusterSpan, hexact c hc, Volume.place]
  have hfile : ∀ size c c', IsData N c → IsData N c' → c ≠ c' →
      (v.fileSpan size c).Apart (v.place c') := by
    intro size c c' hc hc' hne
    unfold Volume.fileSpan
    split_ifs with hs
    · exact apart_of_own hc.1 hc'.1 hne (hexact c hc).ge
        (by simp only [hexact c hc, Volume.place]; omega)
    · rw [hspan c hc]
      exact place_apart hc.1 hc'.1 hne
  refine ⟨hexact, fun c c' hc hc' hne => ?_, fun r c c' hc hc' hne s hs => ?_⟩
  · rw [hspan c hc, hspan c' hc']
    exact place_apart hc.1 hc'.1 hne
  · cases r with
    | parseDir | writeDir =>
        rw [List.mem_singleton.mp hs, hspan c hc]
        exact place_apart hc.1 hc'.1 hne
    | dump size | hdump size =>
        rw [List.mem_singleton.mp hs]
        exact hfile size c c' hc hc' hne
    | testCluster =>
        obtain ⟨i, hi, rfl⟩ := List.mem_map.mp hs
        exact sectorSpan_apart hf hN hc hc' hne (List.mem_range.mp hi)

theorem Placed.fits (h : Placed v N) (hN : N ≤ 0x0FFFFFF4) : Fits v N := by
  have hlt := clusterBytes_lt v.boot
  rcases Nat.eq_zero_or_pos N with rfl | hpos
  · refine ⟨by norm_num, fun i hi => .inl ?_⟩
    have hend := sector_end_le hi
    omega
  have hdata : IsData N (N + 1) := ⟨by omega, by omega⟩
  have hlast : N + 1 - 2 = N - 1 := by omega
  have hbase : (N - 1) * clusterBytes v.boot < 2 ^ 32 := by
    have he := h.exact _ hdata
    rw [clusterToSector_of_two_le hdata.1 (by omega), Volume.place, hlast] at he
    simp only at he
    omega
  refine ⟨hbase, fun i hi => ?_⟩
  by_contra hcon
  simp only [not_or, not_le, not_lt] at hcon
  obtain ⟨h₁, h₂, h₃⟩ := hcon
  have hend := sector_end_le hi
  have hne : N + 1 ≠ 2 := by
    rintro hN₁
    rw [show N - 1 = 0 by omega] at h₁
    omega
  have hpos : 0 < sector v.boot := by
    rcases Nat.eq_zero_or_pos (sector v.boot) with h₀ | h₀
    · rw [h₀, Nat.mul_zero] at h₁
      omega
    · exact h₀
  have hoff := sectorSpan_off (v := v) hdata.1 (by omega) i
  rw [hlast] at hoff
  -- the last byte of the sector that came round is a byte of the first data cluster
  refine h.confined .testCluster _ 2 hdata ⟨le_rfl, by omega⟩ hne _
    (List.mem_map.mpr ⟨i, List.mem_range.mpr hi, rfl⟩)
    ((v.sectorSpan (N + 1) i).off + (sector v.boot - 1)) ?_ ?_
  · have hlen : (v.sectorSpan (N + 1) i).len = sector v.boot := rfl
    rw [Span.mem_def, hlen]
    omega
  · rw [mem_place, hoff]
    omega

theorem placed_iff_fits (hN : N ≤ 0x0FFFFFF4) : Placed v N ↔ Fits v N :=
  ⟨fun h => h.fits hN, fun h => h.placed hN⟩

/-- For cluster sizes that divide `2 ^ 32`, as powers of two do, the condition is
that the data area is at most 4 GiB. -/
theorem fits_iff_of_dvd (hd : clusterBytes v.boot ∣ 2 ^ 32) (hN : 0 < N) :
    Fits v N ↔ N * clusterBytes v.boot ≤ 2 ^ 32 := by
  obtain ⟨k, hk⟩ := hd
  have hsucc : (N - 1) * clusterBytes v.boot + clusterBytes v.boot = N * clusterBytes v.boot := by
    rw [← Nat.succ_mul, show (N - 1).succ = N by omega]
  constructor
  · intro h
    have hb := h.1
    rw [hk, Nat.mul_comm] at hb
    have hN' : N - 1 < k := lt_of_mul_lt_mul_left hb (Nat.zero_le _)
    rw [hk, Nat.mul_comm]
    exact Nat.mul_le_mul_left _ (by omega)
  · intro h
    have hpos : 0 < clusterBytes v.boot := by
      rcases Nat.eq_zero_or_pos (clusterBytes v.boot) with h₀ | h₀
      · rw [h₀, Nat.zero_mul] at hk
        norm_num at hk
      · exact h₀
    refine ⟨by omega, fun i hi => .inl ?_⟩
    have hend := sector_end_le hi
    omega

/-- A FAT32 volume with clusters of 32 KiB and a data area of 4 GiB and a cluster. -/
def largeVolume : Volume where
  fatn := .fat32
  boot := ⟨512, 64, 32, 2, 0, 0, 0xF8, 0, 8390754⟩
  boot16 := ⟨[]⟩
  boot32 := ⟨1025, 2, 1, []⟩
  fatTable := List.replicate 524800 0
  fatTableBak := List.replicate 524800 0
  dataOffset := 1065984
  rootDir := List.replicate 32768 0

/-- The last of its 131073 clusters is looked for in the place of the first. -/
theorem largeVolume_not_placed : ¬ Placed largeVolume 131073 := by
  intro h
  have he := h.exact 131074 ⟨by norm_num, by norm_num⟩
  exact absurd he (by decide)

/-- One cluster fewer and every cluster is in its place. -/
theorem largeVolume_placed : Placed largeVolume 131072 :=
  (placed_iff_fits (by norm_num)).mpr
    ((fits_iff_of_dvd (by decide) (by norm_num)).mpr (by decide))

end TFAT.ClusterPlacement
