import TFAT.ChainOwners
import TFAT.PathResolution

/-!
# The tree of entries on a volume

A mounted volume as a tree of records that own chains: the places are the
entries of the root array and of clusters, and an entry refers to the clusters
that the program's walk from it visits. An entry owns its chain when it is live
and does not stand for the directory itself or its parent.
-/
namespace TFAT.VolumeTree
open ByteRegions LittleEndianWords LinkedChains DiskLayout ClusterTable FileDescriptor
open DirectoryIO PathResolution ChainOwners

/-- The place of an entry: an index in the root directory, or in a cluster. -/
inductive Place where
  | root (i : ℕ)
  | cluster (c i : ℕ)
  deriving DecidableEq

/-- The entry is used: neither deleted nor never used, a file or a directory. -/
def Live (e : FatDirLayout) : Prop :=
  e.nameHead ≠ 0 ∧ isDeleted e = false ∧ (isDirectory e.attr || !isSpecial e.attr)

instance (e : FatDirLayout) : Decidable (Live e) := inferInstanceAs (Decidable (_ ∧ _))

def dotNames : List Bytes :=
  [0x2E :: List.replicate 10 0x20, 0x2E :: 0x2E :: List.replicate 9 0x20]

/-- The entry is live and neither `.` nor `..`. -/
def Owner (e : FatDirLayout) : Prop := Live e ∧ slice e.bytes 0 11 ∉ dotNames

instance (e : FatDirLayout) : Decidable (Owner e) := inferInstanceAs (Decidable (_ ∧ _))

/-- The sizes of sectors and clusters that the format allows, as far as the tree needs them. -/
structure Geometry (b : FatBS) : Prop where
  pos : 0 < clusterBytes b
  entries : entrySize ∣ clusterBytes b
  words : clusterBytes b ∣ 2 ^ 32

/-- How entries form the tree of a volume. -/
def shape (v : Volume) : Shape Place FatDirLayout ℕ where
  top a := ∃ i < v.boot.rootEntryCount.toNat, a = .root i
  inside c a := ∃ i < clusterBytes v.boot / entrySize, a = .cluster c i
  first := v.firstCluster
  stop := 0
  owner := Owner
  opens e := isDirectory e.attr

def entryIn (v : Volume) (img : Bytes) : Place → Option FatDirLayout
  | .root i => (entryAt v.rootDir i).toOption
  | .cluster c i => (entryAt (cluster v img c) i).toOption

def store (v : Volume) (img : Bytes) : Store Place FatDirLayout ℕ Fault where
  content := entryIn v img
  next := v.nextCluster

def tableEntry (v : Volume) (c : ℕ) : ℕ := cell v.fatn.width v.fatTable (v.fatn.index c)

def Allocated (v : Volume) (c : ℕ) : Prop := tableEntry v c % v.fatn.span ≠ 0

/-- The cluster is allocated and inside the image. -/
def Sound (v : Volume) (img : Bytes) (c : ℕ) : Prop := Allocated v c ∧ InImage v img c

/-- Live entries have whole chains, and chains of different live entries are disjoint. -/
structure WellKept (v : Volume) (img : Bytes) : Prop where
  geometry : Geometry v.boot
  intact : (shape v).Intact (Sound v img) (store v img)

variable {v : Volume} {img : Bytes} {e : FatDirLayout}

theorem firstCluster_index (v : Volume) (e : FatDirLayout) :
    v.fatn.index (v.firstCluster e) = v.firstCluster e := by
  rw [Volume.firstCluster]
  cases v.fatn with
  | fat16 => exact Nat.mod_eq_of_lt e.firstClusterLow_lt
  | fat32 => rfl

theorem link_index (n : Fatn) (x : ℕ) : n.index (n.link x) = n.link x :=
  n.index_of_lt (n.link_lt x)

theorem index_of_reaches {c x : ℕ} (h : Reaches v.nextCluster 0 c x) (hc : v.fatn.index c = c) :
    v.fatn.index x = x := by
  induction h with
  | here _ => exact hc
  | later _ hd _ ih =>
      obtain ⟨-, rfl⟩ := v.nextCluster_ok_iff.mp hd
      exact ih (link_index _ _)

theorem index_of_refers {img : Bytes} {x : ℕ} (h : (shape v).Refers (store v img) e x) :
    v.fatn.index x = x :=
  index_of_reaches h (firstCluster_index v e)

/-- Clusters start at multiples of their size, so they coincide or lie apart. -/
theorem clusterSpan_apart (hg : Geometry v.boot) {c d : ℕ}
    (h : v.clusterToSector c ≠ v.clusterToSector d) :
    v.clusterToSector c + clusterBytes v.boot ≤ v.clusterToSector d ∨
      v.clusterToSector d + clusterBytes v.boot ≤ v.clusterToSector c := by
  obtain ⟨k, hk⟩ := hg.words
  have hsec (x : ℕ) :
      v.clusterToSector x = clusterBytes v.boot * (sub32 x 2 % k) + v.dataOffset := by
    rw [v.clusterToSector_eq, hk, Nat.mul_mod_mul_left]
  rw [hsec, hsec] at h ⊢
  rcases Nat.lt_trichotomy (sub32 c 2 % k) (sub32 d 2 % k) with hlt | heq | hlt
  · have hm := Nat.mul_le_mul_left (clusterBytes v.boot) (Nat.succ_le_of_lt hlt)
    rw [Nat.mul_succ] at hm
    exact .inl (by omega)
  · exact absurd (by rw [heq]) h
  · have hm := Nat.mul_le_mul_left (clusterBytes v.boot) (Nat.succ_le_of_lt hlt)
    rw [Nat.mul_succ] at hm
    exact .inr (by omega)

theorem slice_setNameHead (e : FatDirLayout) (b : UInt8) {off n : ℕ} (ho : 1 ≤ off)
    (hn : off + n ≤ entrySize) : slice (e.setNameHead b).bytes off n = slice e.bytes off n := by
  have hname : 0 + [b].length ≤ off := by simpa using ho
  exact slice_splice_disjoint (by rw [e.length_bytes]; exact hn) (.inr hname)

@[simp] theorem attr_setNameHead (e : FatDirLayout) (b : UInt8) :
    (e.setNameHead b).attr = e.attr := by
  rw [FatDirLayout.attr, slice_setNameHead e b (by norm_num) (by norm_num [entrySize]),
    FatDirLayout.attr]

@[simp] theorem caseInformation_setNameHead (e : FatDirLayout) (b : UInt8) :
    (e.setNameHead b).caseInformation = e.caseInformation := by
  rw [FatDirLayout.caseInformation, slice_setNameHead e b (by norm_num) (by norm_num [entrySize]),
    FatDirLayout.caseInformation]

@[simp] theorem extention_setNameHead (e : FatDirLayout) (b : UInt8) :
    (e.setNameHead b).extention = e.extention :=
  slice_setNameHead e b (by norm_num) (by norm_num [entrySize])

@[simp] theorem fileSize_setNameHead (e : FatDirLayout) (b : UInt8) :
    (e.setNameHead b).fileSize = e.fileSize :=
  congrArg value (slice_setNameHead e b (by norm_num) (by norm_num [entrySize]))

@[simp] theorem firstCluster_setNameHead (v : Volume) (e : FatDirLayout) (b : UInt8) :
    v.firstCluster (e.setNameHead b) = v.firstCluster e := by
  have hl : (e.setNameHead b).firstClusterLow = e.firstClusterLow :=
    congrArg value (slice_setNameHead e b (by norm_num) (by norm_num [entrySize]))
  have hh : (e.setNameHead b).firstClusterHigh = e.firstClusterHigh :=
    congrArg value (slice_setNameHead e b (by norm_num) (by norm_num [entrySize]))
  unfold Volume.firstCluster Volume.firstCluster16 Volume.firstCluster32
  rw [hl, hh]

@[simp] theorem setNameHead_setNameHead (e : FatDirLayout) (b c : UInt8) :
    (e.setNameHead b).setNameHead c = e.setNameHead c := by
  have hl : 0 + [b].length ≤ e.bytes.length := by
    rw [e.length_bytes, entrySize, List.length_singleton]
    norm_num
  have hs : splice 0 (splice 0 e.bytes 0 [b]) 0 [c] = splice 0 e.bytes 0 [c] :=
    splice_splice_same hl rfl
  exact FatDirLayout.ext hs

@[simp] theorem setNameHead_nameHead (e : FatDirLayout) : e.setNameHead e.nameHead = e := by
  obtain ⟨b, bs, hb⟩ : ∃ b bs, e.bytes = b :: bs := by
    refine List.exists_cons_of_ne_nil fun h => ?_
    have hl := e.length_bytes
    rw [h] at hl
    cases hl
  have hs : splice 0 e.bytes 0 [UInt8.ofNat (value (slice e.bytes 0 1))] = e.bytes := by
    rw [hb]
    simp [slice, splice, value]
  exact FatDirLayout.ext hs

theorem setNameHead_not_owner (e : FatDirLayout) : ¬ Owner (e.setNameHead 0xE5) := by
  have hh : (e.setNameHead 0xE5).nameHead = 0xE5 := by
    have hs : slice (splice 0 e.bytes 0 [0xE5]) 0 1 = [0xE5] :=
      slice_splice_self 0 e.bytes 0 [0xE5]
    rw [FatDirLayout.nameHead, FatDirLayout.setNameHead, hs]
    rfl
  rintro ⟨⟨-, hd, -⟩, -⟩
  rw [isDeleted, hh] at hd
  exact absurd hd (by decide)

end TFAT.VolumeTree
