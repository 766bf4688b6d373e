import TFAT.ChainWalk
import TFAT.VolumeLayout

/-!
# The root directory of a FAT32 volume

On FAT32 the root directory is a cluster chain that is read when the volume is
mounted and written when it is left. Both loops move on from wherever the last
transfer ended, and the block that receives the directory has room for one
cluster. Mounting and leaving therefore keep the image exactly when the root
directory has one cluster and the 32-bit products of the two relative moves
lead to its bytes.
-/
namespace TFAT.Fat32Root
open ByteRegions LittleEndianWords LinkedChains DiskLayout ClusterTable ClusterPlacement
open ChainWalk FileDescriptor VolumeMount VolumeLayout

def storedExt (img : Bytes) : FatExtBS32 := .ofBytes (slice img FatBS.size FatExtBS32.size)

def tableSpan (img : Bytes) : ℕ := sector (storedBoot img) * (storedExt img).tableSize32.toNat

def onDisk (img : Bytes) : Volume where
  fatn := .fat32
  boot := storedBoot img
  boot16 := ⟨[]⟩
  boot32 := storedExt img
  fatTable := slice img (reservedBytes (storedBoot img)) (tableSpan img)
  fatTableBak := slice img (reservedBytes (storedBoot img) + tableSpan img) (tableSpan img)
  dataOffset := tablesEnd (storedBoot img) (tableSpan img)
  rootDir := []

/-- A FAT32 image, whatever its tables hold. -/
structure Fat32Layout (img : Bytes) : Prop where
  format : selectFatn (storedBoot img) = .fat32
  tables : 2 ≤ (storedBoot img).tableCount.toNat
  rootEntries : (storedBoot img).rootEntryCount = 0
  bootSectors : FatBS.size + FatExtBS32.size ≤ img.length
  tableSize : tableSpan img < 2 ^ 32
  inside : tablesEnd (storedBoot img) (tableSpan img) ≤ img.length
  clusters : 0 < clusterBytes (storedBoot img) ∧ entrySize ∣ clusterBytes (storedBoot img)

/-- A FAT32 image with equal tables. -/
structure Fat32Image (img : Bytes) : Prop extends Fat32Layout img where
  copies : ∀ j < (storedBoot img).tableCount.toNat,
    slice img (reservedBytes (storedBoot img) + j * tableSpan img) (tableSpan img) =
      (onDisk img).fatTable

def rootCluster (img : Bytes) : ℕ := (storedExt img).rootCluster.toNat

/-- The root directory on the disk: a recorded chain of clusters inside the image. -/
structure RootChain (img : Bytes) (l : List ℕ) : Prop where
  head : l.head? = some (rootCluster img)
  recorded : Recorded (onDisk img) l
  inside : ∀ c ∈ l, 2 ≤ c ∧
    ((onDisk img).place c).off + clusterBytes (storedBoot img) ≤ img.length
  entries : l.length * (clusterBytes (storedBoot img) / entrySize) ≤ 65535

def stored (img : Bytes) (c : ℕ) : Bytes :=
  slice img ((onDisk img).place c).off (clusterBytes (storedBoot img))

/-- Mounting gives the root directory, and leaving keeps the image. -/
def RootKept (fill : ℕ → UInt8) (img : Bytes) (l : List ℕ) : Prop :=
  ∃ v, initFat fill img = .ok v ∧ v.rootDir = l.flatMap (stored img) ∧
    v.boot.rootEntryCount.toNat = l.length * (clusterBytes (storedBoot img) / entrySize) ∧
    ∀ pos, ∃ w d, writeFat v ⟨img, pos⟩ = .ok (w, d) ∧ d.bytes = img

def readStart (img : Bytes) : ℕ :=
  reservedBytes (storedBoot img) + 2 * tableSpan img +
    ((storedBoot img).tableCount.toNat - 2) * tableSpan img % 2 ^ 32

/-- Both loops come to the bytes of the first cluster. -/
structure RootInPlace (img : Bytes) : Prop where
  read : slice img (readStart img + rootMove (storedBoot img) (rootCluster img))
    (clusterBytes (storedBoot img)) = stored img (rootCluster img)
  write : slice img (tablesEnd (storedBoot img) (tableSpan img) +
    rootMove (storedBoot img) (rootCluster img)) (clusterBytes (storedBoot img)) =
      stored img (rootCluster img)

section Mounting
variable {img : Bytes} (fill : ℕ → UInt8)

/-- The volume before its root directory is read. -/
def emptyRoot (img : Bytes) : Volume :=
  { onDisk img with
    dataOffset := readStart img
    rootDir := malloc fill (clusterBytes (storedBoot img)) }

theorem Fat32Layout.initFat_eq (h : Fat32Layout img) :
    initFat fill img = (do
      let v := emptyRoot fill img
      let r ← along v.nextCluster 0 .endless (loadRootCluster (storedBoot img)) v.fuel
        (rootCluster img) ⟨0, v.rootDir, 0, ⟨img, readStart img⟩⟩
      .ok { v with
        boot := { storedBoot img with rootEntryCount := r.rootEntryCount }
        rootDir := r.rootDir }) := by
  have hbs := h.bootSectors
  have htwo := two_tables_le (tableSpan img) h.tables
  have hin := h.inside
  rw [tablesEnd] at hin
  have hboot : bootSector fill img = storedBoot img := bootSector_eq fill (by omega)
  have h₀ : (Descriptor.mk img 0).advance FatBS.size = ⟨img, FatBS.size⟩ := by
    rw [Descriptor.advance_eq (by simp only; omega), Nat.zero_add]
  have he : FatExtBS32.ofBytes ((Descriptor.mk img FatBS.size).load fill FatExtBS32.size) =
      storedExt img := by
    rw [Descriptor.load_eq fill hbs, storedExt]
  have hT : tableBytes32 (storedBoot img) (storedExt img) = tableSpan img :=
    Nat.mod_eq_of_lt h.tableSize
  have h₁ : (Descriptor.mk img (reservedBytes (storedBoot img))).advance (tableSpan img) =
      ⟨img, reservedBytes (storedBoot img) + tableSpan img⟩ :=
    Descriptor.advance_eq (by simp only; omega)
  have h₂ : (Descriptor.mk img (reservedBytes (storedBoot img) + tableSpan img)).advance
      (tableSpan img) = ⟨img, reservedBytes (storedBoot img) + 2 * tableSpan img⟩ := by
    rw [Descriptor.advance_eq (by simp only; omega), Nat.add_assoc, Nat.two_mul]
  have h₃ : skipTables (storedBoot img) (storedExt img).tableSize32.toNat
      ⟨img, reservedBytes (storedBoot img) + 2 * tableSpan img⟩ = ⟨img, readStart img⟩ :=
    skipTables_eq _ rfl
  have hl₁ : (Descriptor.mk img (reservedBytes (storedBoot img))).load fill (tableSpan img) =
      (onDisk img).fatTable := Descriptor.load_eq fill (by simp only; omega)
  have hl₂ : (Descriptor.mk img (reservedBytes (storedBoot img) + tableSpan img)).load fill
      (tableSpan img) = (onDisk img).fatTableBak := Descriptor.load_eq fill (by simp only; omega)
  rw [initFat, hboot, h.format]
  simp only [initFat32, h₀, he, hT, Descriptor.seekSet, Descriptor.advance_bytes, h₁, h₂, h₃,
    hl₁, hl₂, h.rootEntries]
  rfl

theorem length_loadRootCluster {b : FatBS} {s t : RootLoad} {c : ℕ}
    (h : loadRootCluster b s c = .ok t) : t.rootDir.length = s.rootDir.length := by
  simp only [loadRootCluster, bind_eq_ok, Except.ok.injEq] at h
  obtain ⟨r, hr, ht⟩ := h
  rw [← ht]
  exact length_copyIn (Descriptor.readInto_eq_ok_iff.mp hr).1

theorem Fat32Layout.length_rootDir (h : Fat32Layout img) {v : Volume}
    (hv : initFat fill img = .ok v) : v.rootDir.length = clusterBytes (storedBoot img) := by
  simp only [h.initFat_eq, bind_eq_ok, Except.ok.injEq] at hv
  obtain ⟨r, hr, rfl⟩ := hv
  obtain ⟨l, -, -, hfold⟩ := follows_of_along hr
  exact foldlM_partial (I := fun _ s => s.rootDir.length = clusterBytes (storedBoot img)) hfold
    (length_malloc ..) fun _ _ _ _ _ _ hs ht => (length_loadRootCluster ht).trans hs

/-- The volume when a root directory of one cluster has been read. -/
def mounted32 (img : Bytes) : Volume :=
  { onDisk img with
    boot := { storedBoot img with
      rootEntryCount := UInt16.ofNat (clusterBytes (storedBoot img) / entrySize) }
    dataOffset := readStart img
    rootDir := slice img (readStart img + rootMove (storedBoot img) (rootCluster img))
      (clusterBytes (storedBoot img)) }

theorem loadRootCluster_zero {b : FatBS} {block : Bytes} {n : UInt16} {d : Descriptor} {c : ℕ}
    (hin : d.pos + rootMove b c + clusterBytes b ≤ d.bytes.length)
    (hb : block.length = clusterBytes b) :
    loadRootCluster b ⟨0, block, n, d⟩ c =
      .ok ⟨(0 + clusterBytes b) % 2 ^ 32, slice d.bytes (d.pos + rootMove b c) (clusterBytes b),
        n + UInt16.ofNat (clusterBytes b / entrySize),
        ⟨d.bytes, d.pos + rootMove b c + clusterBytes b⟩⟩ := by
  simp only [loadRootCluster, Nat.mul_zero]
  rw [Descriptor.seekCur_readInto_all hin hb]
  simp only [ok_bind]

theorem Fat32Layout.initFat_single (h : Fat32Layout img)
    (hw : (onDisk img).Chain (rootCluster img) [rootCluster img])
    (hin : readStart img + rootMove (storedBoot img) (rootCluster img) +
      clusterBytes (storedBoot img) ≤ img.length) :
    initFat fill img = .ok (mounted32 img) := by
  have hchain : (emptyRoot fill img).Chain (rootCluster img) [rootCluster img] := hw
  have hstep := loadRootCluster_zero (b := storedBoot img) (n := 0) (c := rootCluster img)
    (d := ⟨img, readStart img⟩) hin (length_malloc fill (clusterBytes (storedBoot img)))
  have hloop : along _ 0 .endless (loadRootCluster (storedBoot img)) (emptyRoot fill img).fuel
      (rootCluster img) ⟨0, (emptyRoot fill img).rootDir, 0, ⟨img, readStart img⟩⟩ = _ :=
    (emptyRoot fill img).along_of_chain hchain _
  rw [List.foldlM_cons] at hloop
  change _ = (loadRootCluster _ ⟨0, malloc _ _, _, _⟩ _ >>= _) at hloop
  rw [hstep, ok_bind, List.foldlM_nil] at hloop
  rw [h.initFat_eq]
  simp only [hloop]
  simp only [pure, Except.pure, ok_bind, UInt16.zero_add]
  rfl

end Mounting

section Leaving

/-- Flushing a volume whose root directory has one cluster is one write over the
tables and one over that cluster, where the second relative move leads. -/
theorem writeFat_single (v : Volume) (img : Bytes) (hn : v.fatn = .fat32)
    (ht : v.fatTable.length = tableBytes32 v.boot v.boot32)
    (hk : v.fatTableBak.length = v.fatTable.length)
    (hr : v.rootDir.length = clusterBytes v.boot)
    (hw : v.Chain v.boot32.rootCluster.toNat [v.boot32.rootCluster.toNat])
    (hin : tablesEnd v.boot v.fatTable.length ≤ img.length) (pos : ℕ) :
    ∃ w p, writeFat v ⟨img, pos⟩ = .ok (w, ⟨splice 0 (splice 0 img (reservedBytes v.boot)
      (List.replicate v.boot.tableCount.toNat v.fatTable).flatten)
      (tablesEnd v.boot v.fatTable.length + rootMove v.boot v.boot32.rootCluster.toNat)
      v.rootDir, p⟩) := by
  have hsel : writeFat v ⟨img, pos⟩ = writeFat32 v ⟨img, pos⟩ := by rw [writeFat, hn]
  have htab := writeTables_eq v.fatTable img v.boot.tableCount.toNat (reservedBytes v.boot) hin
  have hroot : copyOut v.rootDir 0 (clusterBytes v.boot) = .ok v.rootDir := by
    rw [← hr, copyOut_of_le (by omega), slice_zero_length]
  rw [hsel, writeFat32, ← ht, memcpy_self hk]
  simp only [ok_bind, Descriptor.seekSet, htab, v.along_of_chain hw, List.foldlM_cons,
    List.foldlM_nil, storeRootCluster, Nat.mul_zero, hroot]
  exact ⟨_, _, rfl⟩

end Leaving

section Root
variable {img : Bytes} {l : List ℕ}

theorem RootChain.chain_single (h : RootChain img l) (hl : l.length = 1) :
    l = [rootCluster img] ∧ (onDisk img).Chain (rootCluster img) [rootCluster img] := by
  obtain ⟨c, rfl⟩ := List.length_eq_one_iff.mp hl
  have hc : c = rootCluster img := by simpa using h.head
  subst hc
  refine ⟨rfl, ?_⟩
  have h₂ := (h.inside (rootCluster img) (by simp)).1
  cases h.recorded with
  | last he =>
      have he' : 0x0FFFFFF8 ≤ cell 4 (onDisk img).fatTable (rootCluster img) % 2 ^ 28 := he
      have hcell : HasCell 4 (onDisk img).fatTable (rootCluster img) := by
        by_contra hno
        have hlt := cell_lt_of_not_hasCell hno
        norm_num at hlt
        omega
      have hlink : Fatn.fat32.link (cell 4 (onDisk img).fatTable (rootCluster img)) = 0 :=
        if_pos (le_trans (by norm_num [Fatn.limit]) he')
      exact .step (by omega) ((onDisk img).nextCluster_ok_iff.mpr ⟨hcell, hlink.symm⟩) .stop

theorem length_stored {c : ℕ} (h : RootChain img l) (hc : c ∈ l) :
    (stored img c).length = clusterBytes (storedBoot img) :=
  length_slice_of_le (h.inside c hc).2

theorem RootChain.length_flatMap (h : RootChain img l) :
    (l.flatMap (stored img)).length = l.length * clusterBytes (storedBoot img) := by
  rw [List.length_flatMap, List.map_congr_left fun c hc => length_stored h hc]
  simp

theorem rootMove_eq (b : FatBS) {c : ℕ} (h₂ : 2 ≤ c) (hc : c < 2 ^ 32) :
    rootMove b c = (c - 2) * clusterBytes b % 2 ^ 32 := by
  rw [rootMove, sub32_of_le h₂ (by norm_num) hc, clusterBytes, Nat.mul_assoc,
    Nat.mul_comm b.sectorsPerCluster.toNat]

theorem readStart_le (h : Fat32Layout img) :
    readStart img ≤ tablesEnd (storedBoot img) (tableSpan img) := by
  have hs : (storedBoot img).tableCount.toNat * tableSpan img =
      ((storedBoot img).tableCount.toNat - 2) * tableSpan img + 2 * tableSpan img := by
    rw [← Nat.add_mul, Nat.sub_add_cancel h.tables]
  have hm := Nat.mod_le (((storedBoot img).tableCount.toNat - 2) * tableSpan img) (2 ^ 32)
  rw [readStart, tablesEnd, hs]
  omega

/-- Wherever the moves lead, it is inside the image. -/
theorem RootChain.tablesEnd_add_le (h : RootChain img [rootCluster img]) :
    tablesEnd (storedBoot img) (tableSpan img) + rootMove (storedBoot img) (rootCluster img) +
      clusterBytes (storedBoot img) ≤ img.length := by
  obtain ⟨h₂, hin⟩ := h.inside (rootCluster img) (by simp)
  have hm := Nat.mod_le ((rootCluster img - 2) * clusterBytes (storedBoot img)) (2 ^ 32)
  have hp : ((onDisk img).place (rootCluster img)).off =
      tablesEnd (storedBoot img) (tableSpan img) +
        (rootCluster img - 2) * clusterBytes (storedBoot img) := rfl
  rw [hp] at hin
  rw [rootMove_eq _ h₂ (storedExt img).rootCluster.toNat_lt]
  omega

theorem RootChain.length_rootDir (h : Fat32Layout img) (hr : RootChain img [rootCluster img]) :
    (mounted32 img).rootDir.length = clusterBytes (storedBoot img) :=
  length_slice_of_le (by
    have hle := readStart_le h
    have hend := hr.tablesEnd_add_le
    omega)

/-- Writing the equal tables back changes nothing. -/
theorem Fat32Image.splice_tables (h : Fat32Image img) :
    splice 0 img (reservedBytes (storedBoot img))
      (List.replicate (storedBoot img).tableCount.toNat (onDisk img).fatTable).flatten = img := by
  have hin := h.inside
  rw [tablesEnd] at hin
  rw [← slice_eq_flatten_replicate h.copies]
  exact splice_slice_self 0 img hin

theorem Fat32Image.writeFat_mounted32 (h : Fat32Image img) (hr : RootChain img [rootCluster img])
    (hw : (onDisk img).Chain (rootCluster img) [rootCluster img]) (pos : ℕ) :
    ∃ w p, writeFat (mounted32 img) ⟨img, pos⟩ = .ok (w, ⟨splice 0 img
      (tablesEnd (storedBoot img) (tableSpan img) + rootMove (storedBoot img) (rootCluster img))
      (mounted32 img).rootDir, p⟩) := by
  have hin := h.inside
  have htwo := two_tables_le (tableSpan img) h.tables
  rw [tablesEnd] at hin
  have ht : (mounted32 img).fatTable.length = tableSpan img := length_slice_of_le (by omega)
  have hk : (mounted32 img).fatTableBak.length = tableSpan img := length_slice_of_le (by omega)
  have hT : tableBytes32 (mounted32 img).boot (mounted32 img).boot32 = tableSpan img :=
    Nat.mod_eq_of_lt h.tableSize
  have hwrite := writeFat_single (mounted32 img) img rfl (by rw [ht, hT])
    (by rw [hk, ht]) (RootChain.length_rootDir h.toFat32Layout hr) hw (by rw [ht]; exact h.inside)
    pos
  rw [ht] at hwrite
  have htab : splice 0 img (reservedBytes (mounted32 img).boot)
      (List.replicate (mounted32 img).boot.tableCount.toNat (mounted32 img).fatTable).flatten =
        img := h.splice_tables
  rw [htab] at hwrite
  exact hwrite

/-- Mounting and leaving keep the image exactly when the root directory has one
cluster and both loops come to it. -/
theorem rootKept_iff (fill : ℕ → UInt8) (h : Fat32Image img) (hr : RootChain img l) :
    RootKept fill img l ↔ l.length = 1 ∧ RootInPlace img := by
  have hpos := h.clusters.1
  constructor
  · rintro ⟨v, hv, hroot, -, hwrite⟩
    have hlen := h.length_rootDir fill hv
    rw [hroot, hr.length_flatMap] at hlen
    have hone : l.length = 1 := Nat.eq_of_mul_eq_mul_right hpos (by rw [hlen, Nat.one_mul])
    obtain ⟨rfl, hw⟩ := hr.chain_single hone
    have hle := readStart_le h.toFat32Layout
    have hend := hr.tablesEnd_add_le
    rw [h.initFat_single fill hw (by omega), Except.ok.injEq] at hv
    subst hv
    rw [List.flatMap_singleton] at hroot
    obtain ⟨w, d, hd, hkeep⟩ := hwrite 0
    obtain ⟨w', p, hd'⟩ := h.writeFat_mounted32 hr hw 0
    rw [hd, Except.ok.injEq, Prod.mk.injEq] at hd'
    refine ⟨rfl, hroot, ?_⟩
    have hs := slice_splice_self 0 img (tablesEnd (storedBoot img) (tableSpan img) +
      rootMove (storedBoot img) (rootCluster img)) (mounted32 img).rootDir
    rw [hd'.2] at hkeep
    rw [RootChain.length_rootDir h.toFat32Layout hr] at hs
    rw [← hroot, ← hs]
    exact congrArg (slice · _ _) hkeep.symm
  · rintro ⟨hone, hplace⟩
    obtain ⟨rfl, hw⟩ := hr.chain_single hone
    have hle := readStart_le h.toFat32Layout
    have hend := hr.tablesEnd_add_le
    have hsmall : clusterBytes (storedBoot img) / entrySize < 2 ^ 16 := by
      have he := hr.entries
      rw [List.length_singleton, Nat.one_mul] at he
      omega
    refine ⟨mounted32 img, h.initFat_single fill hw (by omega), ?_, ?_, fun pos => ?_⟩
    · rw [List.flatMap_singleton]
      exact hplace.read
    · rw [List.length_singleton, Nat.one_mul]
      exact Nat.mod_eq_of_lt hsmall
    · obtain ⟨w, p, hd⟩ := h.writeFat_mounted32 hr hw pos
      refine ⟨w, _, hd, ?_⟩
      have hroot : (mounted32 img).rootDir = stored img (rootCluster img) := hplace.read
      exact splice_eq_self (by rw [RootChain.length_rootDir h.toFat32Layout hr]; exact hend)
        (by rw [RootChain.length_rootDir h.toFat32Layout hr, hroot]; exact hplace.write)

theorem readStart_eq (h : Fat32Layout img)
    (ht : ((storedBoot img).tableCount.toNat - 2) * tableSpan img < 2 ^ 32) :
    readStart img = tablesEnd (storedBoot img) (tableSpan img) := by
  have hs : (storedBoot img).tableCount.toNat * tableSpan img =
      ((storedBoot img).tableCount.toNat - 2) * tableSpan img + 2 * tableSpan img := by
    rw [← Nat.add_mul, Nat.sub_add_cancel h.tables]
  rw [readStart, tablesEnd, Nat.mod_eq_of_lt ht, hs]
  omega

/-- Where the products of the moves fit 32 bits, the loops come to the first cluster. -/
theorem rootInPlace_of_lt (h : Fat32Layout img) (hr : RootChain img l)
    (hc : (rootCluster img - 2) * clusterBytes (storedBoot img) < 2 ^ 32)
    (ht : ((storedBoot img).tableCount.toNat - 2) * tableSpan img < 2 ^ 32) : RootInPlace img := by
  have h₂ := (hr.inside (rootCluster img) (List.mem_of_mem_head? hr.head)).1
  have hmove := rootMove_eq (storedBoot img) h₂ (storedExt img).rootCluster.toNat_lt
  rw [Nat.mod_eq_of_lt hc] at hmove
  constructor
  · rw [readStart_eq h ht, hmove]
    rfl
  · rw [hmove]
    rfl

end Root

section Example

def rootTable (next : ℕ) : Bytes :=
  encode 4 0x0FFFFFF8 ++ encode 4 0x0FFFFFFF ++ encode 4 next ++ encode 4 0x0FFFFFFF ++
    List.replicate 496 0

def rootSector : Bytes :=
  FatBS.toBytes ⟨512, 1, 1, 2, 0, 0, 0xF8, 0, 100⟩ ++
    (encode 4 1 ++ encode 4 0 ++ encode 4 2 ++ List.replicate 464 0)

/-- A FAT32 image of clusters of one sector. The root directory starts at
cluster 2, whose entry is `next`; cluster 3 ends a chain. -/
def rootImage (next : ℕ) : Bytes :=
  rootSector ++ (rootTable next ++ (rootTable next ++ List.replicate 1024 0))

variable (next : ℕ)

theorem length_rootTable : (rootTable next).length = 512 := by
  simp only [rootTable, List.length_append, length_encode, List.length_replicate]

theorem length_rootSector : rootSector.length = 512 := by
  simp only [rootSector, List.length_append, FatBS.length_toBytes, FatBS.size, length_encode,
    List.length_replicate]

theorem length_rootImage : (rootImage next).length = 2560 := by
  simp only [rootImage, List.length_append, length_rootTable, length_rootSector,
    List.length_replicate]

theorem storedBoot_rootImage :
    storedBoot (rootImage next) = ⟨512, 1, 1, 2, 0, 0, 0xF8, 0, 100⟩ := by
  rw [storedBoot, rootImage, slice_append_left (by rw [length_rootSector, FatBS.size]; norm_num)]
  decide

theorem storedExt_rootImage : storedExt (rootImage next) = ⟨1, 2, 0, List.replicate 11 0⟩ := by
  rw [storedExt, rootImage, slice_append_left
    (by rw [length_rootSector, FatBS.size, FatExtBS32.size])]
  decide

theorem tableSpan_rootImage : tableSpan (rootImage next) = 512 := by
  rw [tableSpan, storedBoot_rootImage, storedExt_rootImage]
  rfl

theorem reservedBytes_rootImage : reservedBytes (storedBoot (rootImage next)) = 512 := by
  rw [storedBoot_rootImage]
  rfl

theorem slice_rootImage {j : ℕ} (h : j < 2) :
    slice (rootImage next) (512 + j * 512) 512 = rootTable next := by
  have h₀ := slice_append_middle rootSector (rootTable next)
    (rootTable next ++ List.replicate 1024 0)
  have h₁ := slice_append_middle (rootSector ++ rootTable next) (rootTable next)
    (List.replicate 1024 0)
  rw [length_rootSector, length_rootTable] at h₀
  rw [List.length_append, length_rootSector, length_rootTable, List.append_assoc] at h₁
  obtain rfl | rfl : j = 0 ∨ j = 1 := by omega
  · rw [Nat.zero_mul, Nat.add_zero]
    exact h₀
  · rw [Nat.one_mul]
    exact h₁

theorem fatTable_rootImage : (onDisk (rootImage next)).fatTable = rootTable next := by
  have h := slice_rootImage next (show 0 < 2 by norm_num)
  rw [Nat.zero_mul, Nat.add_zero] at h
  simp only [onDisk, reservedBytes_rootImage, tableSpan_rootImage, h]

theorem rootImage_image : Fat32Image (rootImage next) := by
  have hb := storedBoot_rootImage next
  have ht := tableSpan_rootImage next
  have hr := reservedBytes_rootImage next
  refine ⟨⟨?_, ?_, ?_, ?_, ?_, ?_, ?_⟩, ?_⟩
  · rw [hb]
    decide
  · rw [hb]
    decide
  · rw [hb]
  · rw [length_rootImage]
    decide
  · rw [ht]
    norm_num
  · rw [tablesEnd, hr, ht, hb, length_rootImage]
    decide
  · rw [hb]
    decide
  · rw [hb, fatTable_rootImage, ← hb, hr, ht]
    exact fun j hj => slice_rootImage next hj

theorem rootCluster_rootImage : rootCluster (rootImage next) = 2 := by
  rw [rootCluster, storedExt_rootImage]
  rfl

theorem entry_rootImage (c : ℕ) :
    entry (onDisk (rootImage next)) c = cell 4 (rootTable next) c % 2 ^ 28 := by
  rw [entry, fatTable_rootImage]
  rfl

theorem rootImage_inside {c : ℕ} (h₂ : 2 ≤ c) (h₃ : c ≤ 3) :
    2 ≤ c ∧ ((onDisk (rootImage next)).place c).off + clusterBytes (storedBoot (rootImage next)) ≤
      (rootImage next).length := by
  refine ⟨h₂, ?_⟩
  rw [length_rootImage, Volume.place]
  change tablesEnd (storedBoot (rootImage next)) (tableSpan (rootImage next)) +
    (c - 2) * clusterBytes (storedBoot (rootImage next)) + _ ≤ _
  rw [tablesEnd, reservedBytes_rootImage, tableSpan_rootImage, storedBoot_rootImage]
  change 512 + 2 * 512 + (c - 2) * 512 + 512 ≤ 2560
  omega

theorem rootImage_chain_one : RootChain (rootImage 0x0FFFFFFF) [2] := by
  constructor
  · rw [rootCluster_rootImage]
    rfl
  · refine .last ?_
    rw [entry_rootImage]
    decide
  · intro c hc
    rw [List.mem_singleton.mp hc]
    exact rootImage_inside _ le_rfl (by norm_num)
  · rw [storedBoot_rootImage]
    decide

theorem rootImage_chain_two : RootChain (rootImage 3) [2, 3] := by
  constructor
  · rw [rootCluster_rootImage]
    rfl
  · refine .link ?_ (.last ?_)
    · rw [entry_rootImage]
      decide
    · rw [entry_rootImage]
      decide
  · intro c hc
    simp only [List.mem_cons, List.not_mem_nil, or_false] at hc
    exact rootImage_inside _ (by omega) (by omega)
  · rw [storedBoot_rootImage]
    decide

/-- A root directory of two clusters is not read into its block. -/
theorem rootImage_two_not_kept : Fat32Image (rootImage 3) ∧ RootChain (rootImage 3) [2, 3] ∧
    ¬ RootKept (fun _ => 0) (rootImage 3) [2, 3] := by
  refine ⟨rootImage_image 3, rootImage_chain_two, ?_⟩
  rintro ⟨v, hv, hroot, -⟩
  have hlen := (rootImage_image 3).length_rootDir (fun _ => 0) hv
  rw [hroot, rootImage_chain_two.length_flatMap, storedBoot_rootImage] at hlen
  exact absurd hlen (by decide)

/-- A root directory of one cluster is kept. -/
theorem rootImage_one_kept : RootKept (fun _ => 0) (rootImage 0x0FFFFFFF) [2] := by
  refine (rootKept_iff _ (rootImage_image _) rootImage_chain_one).mpr ⟨rfl, ?_⟩
  refine rootInPlace_of_lt (rootImage_image _).toFat32Layout rootImage_chain_one ?_ ?_
  · rw [rootCluster_rootImage, storedBoot_rootImage]
    decide
  · rw [tableSpan_rootImage, storedBoot_rootImage]
    decide

end Example

end TFAT.Fat32Root
