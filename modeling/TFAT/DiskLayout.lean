import TFAT.LittleEndianWords

/-!
# On-disk structures

The packed structures of the volume, decoded from their bytes at the offsets
the packing gives each field. A boot sector is decoded into its fields. A
directory entry stays the 32 bytes it is, with one accessor for each field, so
that comparing two entries by `memcmp` is equality and storing one byte of a
name is an update of one byte. Fields that no function of the program reads
are left out.
-/
namespace TFAT.DiskLayout
open ByteRegions LittleEndianWords

/-- What stops a call before it returns: an access outside the block of a table or
outside another allocated block, the use of a null pointer, a loop that never ends,
or the end of the program by `udie` or `sdie`. -/
inductive Fault where
  | outside | wild | null | endless | died
  deriving DecidableEq, Repr

section Failure
variable {α β : Type}

@[simp] theorem ok_bind (a : α) (f : α → Except Fault β) : (.ok a >>= f) = f a := rfl

@[simp] theorem error_bind (e : Fault) (f : α → Except Fault β) :
    ((.error e : Except Fault α) >>= f) = .error e := rfl

theorem bind_eq_ok {x : Except Fault α} {f : α → Except Fault β} {b : β} :
    (x >>= f) = .ok b ↔ ∃ a, x = .ok a ∧ f a = .ok b := by
  cases x <;> simp

theorem ok_ne_error (a : α) (e : Fault) : (.ok a : Except Fault α) ≠ .error e :=
  fun h => by cases h

theorem map_ne_error {x : Except Fault α} {e : Fault} (g : α → β) (h : x ≠ .error e) :
    x.map g ≠ .error e := by
  cases x with
  | ok a => exact ok_ne_error _ _
  | error f => exact fun hc => h (congrArg _ (Except.error.inj hc))

theorem bind_ne_error {x : Except Fault α} {e : Fault} {f : α → Except Fault β}
    (h : x ≠ .error e) (hf : ∀ a, x = .ok a → f a ≠ .error e) : (x >>= f) ≠ .error e := by
  cases x with
  | ok a => exact hf a rfl
  | error d => exact fun hc => h (congrArg _ (Except.error.inj hc))

theorem exists_of_isOk {x : Except Fault α} (h : x.isOk) : ∃ a, x = .ok a := by
  cases x with
  | ok a => exact ⟨a, rfl⟩
  | error e => simp [Except.isOk, Except.toBool] at h

theorem exists_of_any {x : Except Fault α} {p : α → Bool} (h : x.toOption.any p) :
    ∃ a, x = .ok a ∧ p a := by
  cases x with
  | error e => cases h
  | ok a => exact ⟨a, rfl, h⟩

end Failure

/-- `fat_boot`, the part of the boot sector that both formats share. -/
structure FatBS where
  bytesPerSector : UInt16
  sectorsPerCluster : UInt8
  reservedSectorCount : UInt16
  tableCount : UInt8
  rootEntryCount : UInt16
  totalSectors16 : UInt16
  mediaType : UInt8
  tableSize16 : UInt16
  totalSectors32 : UInt32
  deriving DecidableEq, Repr

def FatBS.size : ℕ := 36

def FatBS.ofBytes (b : Bytes) : FatBS where
  bytesPerSector := UInt16.ofNat (value (slice b 11 2))
  sectorsPerCluster := UInt8.ofNat (value (slice b 13 1))
  reservedSectorCount := UInt16.ofNat (value (slice b 14 2))
  tableCount := UInt8.ofNat (value (slice b 16 1))
  rootEntryCount := UInt16.ofNat (value (slice b 17 2))
  totalSectors16 := UInt16.ofNat (value (slice b 19 2))
  mediaType := UInt8.ofNat (value (slice b 21 1))
  tableSize16 := UInt16.ofNat (value (slice b 22 2))
  totalSectors32 := UInt32.ofNat (value (slice b 32 4))

def FatBS.toBytes (b : FatBS) : Bytes :=
  List.replicate 11 0 ++ encode 2 b.bytesPerSector.toNat ++ encode 1 b.sectorsPerCluster.toNat ++
    encode 2 b.reservedSectorCount.toNat ++ encode 1 b.tableCount.toNat ++
    encode 2 b.rootEntryCount.toNat ++ encode 2 b.totalSectors16.toNat ++
    encode 1 b.mediaType.toNat ++ encode 2 b.tableSize16.toNat ++ List.replicate 8 0 ++
    encode 4 b.totalSectors32.toNat

theorem FatBS.length_toBytes (b : FatBS) : b.toBytes.length = FatBS.size := by
  simp [toBytes, size]

theorem ofNat_value_encode8 (x : UInt8) : UInt8.ofNat (value (encode 1 x.toNat)) = x := by
  rw [value_encode, Nat.mod_eq_of_lt (show _ < 256 ^ 1 from x.toNat_lt), UInt8.ofNat_toNat]

theorem ofNat_value_encode16 (x : UInt16) : UInt16.ofNat (value (encode 2 x.toNat)) = x := by
  rw [value_encode, Nat.mod_eq_of_lt (show _ < 256 ^ 2 from x.toNat_lt), UInt16.ofNat_toNat]

theorem ofNat_value_encode32 (x : UInt32) : UInt32.ofNat (value (encode 4 x.toNat)) = x := by
  rw [value_encode, Nat.mod_eq_of_lt (show _ < 256 ^ 4 from x.toNat_lt), UInt32.ofNat_toNat]

/-- Every boot sector is read back from its bytes, whatever follows them. -/
theorem FatBS.ofBytes_toBytes (b : FatBS) (r : Bytes) : ofBytes (b.toBytes ++ r) = b := by
  have h₈ := ofNat_value_encode8
  have h₁₆ := ofNat_value_encode16
  have h₃₂ := ofNat_value_encode32
  simp only [encode] at h₈ h₁₆ h₃₂
  simp only [ofBytes, toBytes, encode, slice, List.replicate, List.cons_append, List.nil_append,
    List.drop_succ_cons, List.drop_zero, List.take_succ_cons, List.take_zero, h₈, h₁₆, h₃₂]

structure FatExtBS16 where
  volumeLabel : Bytes
  deriving DecidableEq, Repr

def FatExtBS16.size : ℕ := 476

def FatExtBS16.ofBytes (b : Bytes) : FatExtBS16 := ⟨slice b 7 11⟩

/-- `fat_boot_32`, which follows the common part on FAT32. -/
structure FatExtBS32 where
  tableSize32 : UInt32
  rootCluster : UInt32
  fatInfo : UInt16
  volumeLabel : Bytes
  deriving DecidableEq, Repr

def FatExtBS32.size : ℕ := 476

def FatExtBS32.ofBytes (b : Bytes) : FatExtBS32 where
  tableSize32 := UInt32.ofNat (value (slice b 0 4))
  rootCluster := UInt32.ofNat (value (slice b 8 4))
  fatInfo := UInt16.ofNat (value (slice b 12 2))
  volumeLabel := slice b 35 11

/-- `sizeof(struct fat_info_32)`; the program reads it and never looks at it. -/
def fatInfoSize : ℕ := 512

def entrySize : ℕ := 32

/-- A `struct fat_dir_layout`: exactly the bytes of one packed entry. -/
structure FatDirLayout where
  bytes : Bytes
  length_bytes : bytes.length = entrySize
  deriving DecidableEq

namespace FatDirLayout

@[ext] theorem ext {d e : FatDirLayout} (h : d.bytes = e.bytes) : d = e := by
  cases d
  cases e
  cases h
  rfl

variable (d : FatDirLayout)

def name : Bytes := slice d.bytes 0 8
def extention : Bytes := slice d.bytes 8 3
def attr : UInt8 := UInt8.ofNat (value (slice d.bytes 11 1))
def caseInformation : UInt8 := UInt8.ofNat (value (slice d.bytes 12 1))
def createTime : ℕ := value (slice d.bytes 14 2)
def createDate : ℕ := value (slice d.bytes 16 2)
def firstClusterHigh : ℕ := value (slice d.bytes 20 2)
def firstClusterLow : ℕ := value (slice d.bytes 26 2)
def fileSize : ℕ := value (slice d.bytes 28 4)

/-- `name[0]`, the byte that tells never used, deleted and used entries apart. -/
def nameHead : UInt8 := UInt8.ofNat (value (slice d.bytes 0 1))

/-- Store a byte into `name[0]`. -/
def setNameHead (b : UInt8) : FatDirLayout :=
  ⟨splice 0 d.bytes 0 [b], by
    rw [length_splice_of_le (by rw [d.length_bytes]; simp [entrySize]), d.length_bytes]⟩

theorem firstClusterLow_lt : d.firstClusterLow < 2 ^ 16 :=
  (value_slice_lt _ _ _).trans_eq (by norm_num)

theorem firstClusterHigh_lt : d.firstClusterHigh < 2 ^ 16 :=
  (value_slice_lt _ _ _).trans_eq (by norm_num)

end FatDirLayout

def isDirectory (attr : UInt8) : Bool := attr &&& 0x10 != 0

/-- `is_special`, true of volume labels and of long name slots. -/
def isSpecial (attr : UInt8) : Bool := attr &&& 0x08 != 0

def isDeleted (d : FatDirLayout) : Bool := d.nameHead == 0xE5

end TFAT.DiskLayout
