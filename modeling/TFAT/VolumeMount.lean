import TFAT.ClusterTable
import TFAT.FileDescriptor

/-!
# Reading a volume into memory and writing it back

`init_fat` decodes the boot sector, chooses between the two formats and reads
the first two tables and the root directory. `write_fat` writes the first
table over every copy on the disk and the root directory behind them. Both
reach their places by relative moves of the file position, so the position is
part of the state here. The two root-directory loops of FAT32 advance a byte
count that the source adds to a pointer to entries.
-/
namespace TFAT.VolumeMount
open ByteRegions LittleEndianWords LinkedChains DiskLayout ClusterTable FileDescriptor

/-- The format that `init_fat` takes the volume for. -/
def selectFatn (b : FatBS) : Fatn := if b.totalSectors16 = 0 then .fat32 else .fat16

/-- `SECTOR * fat_boot.table_size_16`, below `2 ^ 32` whatever the fields hold. -/
def tableBytes16 (b : FatBS) : ℕ := sector b * b.tableSize16.toNat

/-- `SECTOR * fat_boot_32.table_size_32` in 32 bits. -/
def tableBytes32 (b : FatBS) (e : FatExtBS32) : ℕ := sector b * e.tableSize32.toNat % 2 ^ 32

def reservedBytes (b : FatBS) : ℕ := b.reservedSectorCount.toNat * sector b

/-- The conditional seek over the copies after the second. -/
def skipTables (b : FatBS) (tableSize : ℕ) (d : Descriptor) : Descriptor :=
  if 2 < b.tableCount.toNat then
    d.seekCur ((b.tableCount.toNat - 2) * sector b * tableSize % 2 ^ 32)
  else d

variable (fill : ℕ → UInt8)

def initFat16 (b : FatBS) (d : Descriptor) : Volume :=
  let ext := d.load fill FatExtBS16.size
  let d₁ := (d.advance FatExtBS16.size).seekSet (reservedBytes b)
  let d₂ := d₁.advance (tableBytes16 b)
  let d₃ := skipTables b b.tableSize16.toNat (d₂.advance (tableBytes16 b))
  { fatn := .fat16
    boot := b
    boot16 := .ofBytes ext
    boot32 := ⟨0, 0, 0, []⟩
    fatTable := d₁.load fill (tableBytes16 b)
    fatTableBak := d₂.load fill (tableBytes16 b)
    rootDir := d₃.load fill (entrySize * b.rootEntryCount.toNat)
    dataOffset := (d₃.advance (entrySize * b.rootEntryCount.toNat)).pos }

/-- `(cluster - 2) * fat_boot.sectors_per_cluster * SECTOR` in 32 bits. -/
def rootMove (b : FatBS) (cluster : ℕ) : ℕ :=
  sub32 cluster 2 * b.sectorsPerCluster.toNat * sector b % 2 ^ 32

structure RootLoad where
  index : ℕ
  rootDir : Bytes
  rootEntryCount : UInt16
  file : Descriptor
  deriving DecidableEq

def loadRootCluster (b : FatBS) (s : RootLoad) (cluster : ℕ) : Except Fault RootLoad := do
  let d := s.file.seekCur (rootMove b cluster)
  let r ← d.readInto s.rootDir (entrySize * s.index) (clusterBytes b)
  .ok { index := (s.index + clusterBytes b) % 2 ^ 32
        rootDir := r.1
        rootEntryCount := s.rootEntryCount + UInt16.ofNat (clusterBytes b / entrySize)
        file := r.2 }

def initFat32 (b : FatBS) (d : Descriptor) : Except Fault Volume := do
  let e := FatExtBS32.ofBytes (d.load fill FatExtBS32.size)
  let info := (d.advance FatExtBS32.size).seekSet (e.fatInfo.toNat * sector b)
  let d₁ := (info.advance fatInfoSize).seekSet (reservedBytes b)
  let d₂ := d₁.advance (tableBytes32 b e)
  let d₃ := skipTables b e.tableSize32.toNat (d₂.advance (tableBytes32 b e))
  let v : Volume :=
    { fatn := .fat32
      boot := b
      boot16 := ⟨[]⟩
      boot32 := e
      fatTable := d₁.load fill (tableBytes32 b e)
      fatTableBak := d₂.load fill (tableBytes32 b e)
      rootDir := malloc fill (clusterBytes b)
      dataOffset := d₃.pos }
  let r ← along v.nextCluster 0 .endless (loadRootCluster b) v.fuel e.rootCluster.toNat
    ⟨0, v.rootDir, b.rootEntryCount, d₃⟩
  .ok { v with boot := { b with rootEntryCount := r.rootEntryCount }, rootDir := r.rootDir }

def bootSector (img : Bytes) : FatBS := .ofBytes ((Descriptor.mk img 0).load fill FatBS.size)

def initFat (img : Bytes) : Except Fault Volume :=
  let b := bootSector fill img
  let d := (Descriptor.mk img 0).advance FatBS.size
  match selectFatn b with
  | .fat16 => .ok (initFat16 fill b d)
  | .fat32 => initFat32 fill b d

def writeTables (table : Bytes) (n : ℕ) : ℕ → Descriptor → Except Fault Descriptor
  | 0, d => .ok d
  | count + 1, d => do
      let data ← copyOut table 0 n
      writeTables table n count (d.write data)

def writeFat16 (v : Volume) (d : Descriptor) : Except Fault (Volume × Descriptor) := do
  let n := tableBytes16 v.boot
  let bak ← memcpy v.fatTableBak v.fatTable n
  let d ← writeTables v.fatTable n v.boot.tableCount.toNat (d.seekSet (reservedBytes v.boot))
  let data ← copyOut v.rootDir 0 (v.boot.rootEntryCount.toNat * entrySize)
  .ok ({ v with fatTableBak := bak }, d.write data)

structure RootStore where
  index : ℕ
  rootEntryCount : UInt16
  file : Descriptor
  deriving DecidableEq

def storeRootCluster (b : FatBS) (rootDir : Bytes) (s : RootStore) (cluster : ℕ) :
    Except Fault RootStore := do
  let d := s.file.seekCur (rootMove b cluster)
  let data ← copyOut rootDir (entrySize * s.index) (clusterBytes b)
  .ok { index := (s.index + clusterBytes b) % 2 ^ 32
        rootEntryCount := s.rootEntryCount + UInt16.ofNat (clusterBytes b / entrySize)
        file := d.write data }

def writeFat32 (v : Volume) (d : Descriptor) : Except Fault (Volume × Descriptor) := do
  let n := tableBytes32 v.boot v.boot32
  let bak ← memcpy v.fatTableBak v.fatTable n
  let d ← writeTables v.fatTable n v.boot.tableCount.toNat (d.seekSet (reservedBytes v.boot))
  let r ← along v.nextCluster 0 .endless (storeRootCluster v.boot v.rootDir) v.fuel
    v.boot32.rootCluster.toNat ⟨0, v.boot.rootEntryCount, d⟩
  .ok ({ v with
    boot := { v.boot with rootEntryCount := r.rootEntryCount }
    fatTableBak := bak }, r.file)

def writeFat (v : Volume) (d : Descriptor) : Except Fault (Volume × Descriptor) :=
  match v.fatn with
  | .fat16 => writeFat16 v d
  | .fat32 => writeFat32 v d

section Faults
variable {e : Fault}

theorem loadRootCluster_ne_error (he : e ≠ .wild) (b : FatBS) (s : RootLoad) (c : ℕ) :
    loadRootCluster b s c ≠ .error e :=
  bind_ne_error (bind_ne_error (copyIn_ne_error he _ _ _) fun _ _ => ok_ne_error _ _)
    fun _ _ => ok_ne_error _ _

theorem storeRootCluster_ne_error (he : e ≠ .wild) (b : FatBS) (rootDir : Bytes) (s : RootStore)
    (c : ℕ) : storeRootCluster b rootDir s c ≠ .error e :=
  bind_ne_error (copyOut_ne_error he _ _ _) fun _ _ => ok_ne_error _ _

theorem memcpy_ne_error (he : e ≠ .wild) (dst src : Bytes) (n : ℕ) : memcpy dst src n ≠ .error e :=
  bind_ne_error (copyOut_ne_error he _ _ _) fun _ _ => copyIn_ne_error he _ _ _

theorem writeTables_ne_error (he : e ≠ .wild) (table : Bytes) (n count : ℕ) (d : Descriptor) :
    writeTables table n count d ≠ .error e := by
  induction count generalizing d with
  | zero => exact ok_ne_error _ _
  | succ count ih => exact bind_ne_error (copyOut_ne_error he _ _ _) fun _ _ => ih _

end Faults

end TFAT.VolumeMount
