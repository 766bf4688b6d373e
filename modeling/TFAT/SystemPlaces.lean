import TFAT.Fat16Flush
import TFAT.Fat32Root
import TFAT.MarkingEffects
import TFAT.WriteBack

/-!
# What a mounted volume holds in memory

The tables and the root directory of a mounted volume are a buffer for their
places on the disk, with one table standing for all copies. Both formats write
the buffer back in the same way, as long as the root directory has a fixed
place or one cluster to which the relative moves lead.
-/
namespace TFAT.SystemPlaces
open ByteRegions LittleEndianWords LinkedChains DiskLayout ClusterTable ClusterPlacement
open FileDescriptor VolumeMount VolumeLayout Fat16Flush Fat32Root MarkingEffects WriteBack

/-- Where the tables and the root directory of an image lie. -/
structure Places where
  tables : ℕ
  tableBytes : ℕ
  copies : ℕ
  root : ℕ
  rootBytes : ℕ

namespace Places
variable (l : Places)

def tablesEnd : ℕ := l.tables + l.copies * l.tableBytes

def InTables (x : ℕ) : Prop := l.tables ≤ x ∧ x < l.tablesEnd

def InRoot (x : ℕ) : Prop := l.root ≤ x ∧ x < l.root + l.rootBytes

instance (x : ℕ) : Decidable (l.InTables x) := inferInstanceAs (Decidable (_ ∧ _))

instance (x : ℕ) : Decidable (l.InRoot x) := inferInstanceAs (Decidable (_ ∧ _))

/-- The bytes that are held in memory. -/
def area : Set ℕ := {x | l.InTables x ∨ l.InRoot x}

/-- A volume in memory and the image behind it, byte by byte. -/
def store (v : Volume) (img : Bytes) : Buffered ℕ (Option UInt8) where
  disk x := img[x]?
  buffer x := if l.InTables x then v.fatTable[(x - l.tables) % l.tableBytes]?
    else v.rootDir[x - l.root]?

end Places

/-- The places of an image. On FAT32 the root directory is taken for its first cluster. -/
def places (img : Bytes) : Places :=
  match selectFatn (storedBoot img) with
  | .fat16 => ⟨reservedBytes (storedBoot img), tableBytes16 (storedBoot img),
      (storedBoot img).tableCount.toNat, rootStart (storedBoot img), rootBytes (storedBoot img)⟩
  | .fat32 => ⟨reservedBytes (storedBoot img), tableSpan img, (storedBoot img).tableCount.toNat,
      ((onDisk img).place (rootCluster img)).off, clusterBytes (storedBoot img)⟩

/-- The volume holds these places of the image, no data lies in front of them, and whatever
edits are made, a flush writes them back. -/
structure WritesBack (l : Places) (img : Bytes) (v : Volume) : Prop where
  fatTable : v.fatTable.length = l.tableBytes
  rootDir : v.rootDir.length = l.rootBytes
  order : l.tablesEnd ≤ l.root
  inside : l.root + l.rootBytes ≤ img.length
  data : l.tablesEnd ≤ v.dataOffset
  fixedRoot : v.fatn = .fat16 → l.root + l.rootBytes ≤ v.dataOffset
  flush : ∀ w image, Edits v w → img.length ≤ image.length →
    ∃ w' d, writeFat w ⟨image, 0⟩ = .ok (w', d) ∧
      d.bytes = splice 0 (splice 0 image l.tables (List.replicate l.copies w.fatTable).flatten)
        l.root w.rootDir

/-- A FAT32 image whose root directory has one cluster, with 32-bit products that do not wrap. -/
structure PlainRoot (img : Bytes) : Prop where
  image : Fat32Layout img
  chain : RootChain img [rootCluster img]
  move : (rootCluster img - 2) * clusterBytes (storedBoot img) < 2 ^ 32
  skip : ((storedBoot img).tableCount.toNat - 2) * tableSpan img < 2 ^ 32

section Flushing
variable {l : Places} {img image : Bytes} {v w : Volume}

/-- A flush leaves the places as they are in memory, and the rest as it is on the disk. -/
theorem WritesBack.getElem?_flush (h : WritesBack l img v) (hw : Edits v w)
    (hi : img.length ≤ image.length) (x : ℕ) :
    (splice 0 (splice 0 image l.tables (List.replicate l.copies w.fatTable).flatten) l.root
      w.rootDir)[x]? = writtenBack l.area (l.store w image) x := by
  have hroot : w.rootDir.length = l.rootBytes := hw.rootDir.trans h.rootDir
  have htable : w.fatTable.length = l.tableBytes := hw.fatTable.trans h.fatTable
  have hcopies : l.tables + (List.replicate l.copies w.fatTable).flatten.length = l.tablesEnd := by
    rw [length_flatten_replicate, htable, Places.tablesEnd]
  have horder := h.order
  have hin := h.inside
  have hlen : (splice 0 image l.tables (List.replicate l.copies w.fatTable).flatten).length =
      image.length := length_splice_of_le (by omega)
  rw [getElem?_splice_of_le (by omega), getElem?_splice_of_le (by omega), hcopies, hroot]
  by_cases hx : x ∈ l.area
  · rw [writtenBack_of_mem hx]
    simp only [Places.store]
    rcases hx with hx | hx
    · have hn : ¬ (l.root ≤ x ∧ x < l.root + l.rootBytes) := by
        have := hx.2
        omega
      have hx' : l.tables ≤ x ∧ x < l.tablesEnd := hx
      have hk : x - l.tables < l.copies * w.fatTable.length := by
        rw [Places.tablesEnd] at hx'
        rw [htable]
        omega
      rw [if_neg hn, if_pos hx, if_pos hx', getElem?_flatten_replicate _ hk, htable]
    · have hn : ¬ l.InTables x := by
        intro ht
        have := ht.2
        have := hx.1
        omega
      have hx' : l.root ≤ x ∧ x < l.root + l.rootBytes := hx
      rw [if_pos hx', if_neg hn]
  · have hr : ¬ (l.root ≤ x ∧ x < l.root + l.rootBytes) := fun hr => hx (.inr hr)
    have ht : ¬ (l.tables ≤ x ∧ x < l.tablesEnd) := fun ht => hx (.inl ht)
    rw [writtenBack_of_notMem hx, if_neg hr, if_neg ht]
    rfl

theorem WritesBack.lt_of_mem (hW : WritesBack l img v) {x : ℕ} (hx : x ∈ l.area) :
    x < img.length := by
  have horder := hW.order
  have hin := hW.inside
  rcases hx with hx | hx
  · have := hx.2
    omega
  · have := hx.2
    omega

/-- No cluster lies in front of the data area. -/
theorem WritesBack.not_inTables (h : WritesBack l img v) (hw : Edits v w) {c x : ℕ}
    (hx : x ∈ w.clusterSpan c) : ¬ l.InTables x := by
  intro ht
  have hd := h.data
  have hlow := hx.1
  rw [hw.clusterSpan, Volume.clusterSpan, Volume.clusterToSector_eq] at hlow
  have := ht.2
  simp only at hlow
  omega

theorem WritesBack.not_inRoot (h : WritesBack l img v) (hn : v.fatn = .fat16) (hw : Edits v w)
    {c x : ℕ} (hx : x ∈ w.clusterSpan c) : ¬ l.InRoot x := by
  intro ht
  have hd := h.fixedRoot hn
  have hlow := hx.1
  rw [hw.clusterSpan, Volume.clusterSpan, Volume.clusterToSector_eq] at hlow
  have := ht.2
  simp only at hlow
  omega

end Flushing

section Formats
variable {img : Bytes}

theorem sized_of_edits {b : FatBS} {v w : Volume} (h : Sized b v) (hw : Edits v w) : Sized b w :=
  ⟨hw.fatn.trans h.fatn, hw.boot.trans h.boot, hw.fatTable.trans h.fatTable,
    hw.fatTableBak.trans h.fatTableBak, hw.rootDir.trans h.rootDir,
    hw.dataOffset.trans h.dataOffset⟩

theorem writesBack_fat16 (h : Fat16Image img) : WritesBack (places img) img (mounted16 img) := by
  have hp : places img = ⟨reservedBytes (storedBoot img), tableBytes16 (storedBoot img),
      (storedBoot img).tableCount.toNat, rootStart (storedBoot img),
      rootBytes (storedBoot img)⟩ := by
    rw [places, h.format]
  rw [hp]
  have hs := h.sized
  refine ⟨hs.fatTable, hs.rootDir, le_rfl, h.inside, ?_, fun _ => le_rfl, fun w image hw hi => ?_⟩
  · exact Nat.le_add_right _ _
  · have hws := sized_of_edits hs hw
    have hin : rootEnd (storedBoot img) ≤ image.length := h.inside.trans hi
    refine ⟨_, _, hws.writeFat_eq hin 0, ?_⟩
    have hlen := length_flatten_replicate (storedBoot img).tableCount.toNat w.fatTable
    rw [hws.fatTable] at hlen
    have hsplice : splice 0 (splice 0 image (reservedBytes (storedBoot img))
        (List.replicate (storedBoot img).tableCount.toNat w.fatTable).flatten)
        (reservedBytes (storedBoot img) +
          (List.replicate (storedBoot img).tableCount.toNat w.fatTable).flatten.length) w.rootDir =
        _ := splice_splice_append (by rw [hlen, hws.rootDir]; exact hin)
    rw [hlen] at hsplice
    rw [flushed, systemArea, hws.boot]
    exact hsplice.symm

theorem PlainRoot.rootMove_eq (h : PlainRoot img) :
    rootMove (storedBoot img) (rootCluster img) =
      (rootCluster img - 2) * clusterBytes (storedBoot img) := by
  have h₂ := (h.chain.inside (rootCluster img) (by simp)).1
  rw [Fat32Root.rootMove_eq _ h₂ (storedExt img).rootCluster.toNat_lt, Nat.mod_eq_of_lt h.move]

theorem PlainRoot.initFat_eq (h : PlainRoot img) (fill : ℕ → UInt8) :
    initFat fill img = .ok (mounted32 img) := by
  have hle := readStart_le h.image
  have hend := h.chain.tablesEnd_add_le
  exact h.image.initFat_single fill (h.chain.chain_single rfl).2 (by omega)

theorem writesBack_fat32 (h : PlainRoot img) : WritesBack (places img) img (mounted32 img) := by
  have hp : places img = ⟨reservedBytes (storedBoot img), tableSpan img,
      (storedBoot img).tableCount.toNat,
      tablesEnd (storedBoot img) (tableSpan img) +
        (rootCluster img - 2) * clusterBytes (storedBoot img), clusterBytes (storedBoot img)⟩ := by
    rw [places, h.image.format]
    rfl
  rw [hp]
  have hin := h.image.inside
  have htwo := two_tables_le (tableSpan img) h.image.tables
  have hroot := (h.chain.inside (rootCluster img) (by simp)).2
  have ht : (mounted32 img).fatTable.length = tableSpan img :=
    length_slice_of_le (by rw [tablesEnd] at hin; omega)
  have hk : (mounted32 img).fatTableBak.length = tableSpan img :=
    length_slice_of_le (by rw [tablesEnd] at hin; omega)
  have hr := RootChain.length_rootDir h.image h.chain
  refine ⟨ht, hr, Nat.le_add_right _ _, hroot, ?_, fun hn => ?_, fun w image hw hi => ?_⟩
  · exact (Fat32Root.readStart_eq h.image h.skip).ge
  · simp [mounted32, onDisk] at hn
  · have hboot : w.boot = (mounted32 img).boot := hw.boot
    have hboot32 : w.boot32 = storedExt img := hw.boot32
    have hwt : w.fatTable.length = tableSpan img := hw.fatTable.trans ht
    have hchain : (mounted32 img).Chain (rootCluster img) [rootCluster img] :=
      (h.chain.chain_single rfl).2
    have hT : tableBytes32 w.boot w.boot32 = tableSpan img := by
      rw [hboot, hboot32]
      exact Nat.mod_eq_of_lt h.image.tableSize
    have hwc : w.Chain w.boot32.rootCluster.toNat [w.boot32.rootCluster.toNat] := by
      rw [hboot32]
      exact hw.chain_singleton hchain
    have hend : tablesEnd w.boot w.fatTable.length ≤ image.length := by
      rw [hboot, hwt]
      exact hin.trans hi
    obtain ⟨w', p, hflush⟩ := writeFat_single w image (hw.fatn.trans rfl) (hwt.trans hT.symm)
      (by rw [hw.fatTableBak, hk, hwt]) (by rw [hw.rootDir, hr, hboot]; rfl) hwc hend 0
    refine ⟨w', _, hflush, ?_⟩
    have hmove : rootMove (mounted32 img).boot w.boot32.rootCluster.toNat =
        (rootCluster img - 2) * clusterBytes (storedBoot img) := by
      rw [hboot32]
      exact h.rootMove_eq
    simp only [hboot, hwt, hmove]
    rfl

end Formats

end TFAT.SystemPlaces
