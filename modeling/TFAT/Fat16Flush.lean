import TFAT.VolumeLayout

/-!
# Writing a FAT16 volume back

A FAT16 image determines the mounted volume, and flushing any volume of the
same geometry is one write over the tables and the root directory. The reader
skips the copies after the second by one relative seek and the writer passes
over them by writing them, so both arrive at the same root directory. Edits
made between mounting and flushing keep the sizes of the blocks in memory, and
with them everything the flush relies on.
-/
namespace TFAT.Fat16Flush
open ByteRegions LittleEndianWords DiskLayout ClusterTable FileDescriptor VolumeMount VolumeLayout

def rootStart (b : FatBS) : ℕ := tablesEnd b (tableBytes16 b)

def rootBytes (b : FatBS) : ℕ := b.rootEntryCount.toNat * entrySize

def rootEnd (b : FatBS) : ℕ := rootStart b + rootBytes b

/-- A FAT16 image that holds its reserved area, its tables and its root directory. -/
structure Fat16Image (img : Bytes) : Prop where
  format : selectFatn (storedBoot img) = .fat16
  sectorSize : 512 ≤ sector (storedBoot img)
  reserved : 1 ≤ (storedBoot img).reservedSectorCount.toNat
  tables : 2 ≤ (storedBoot img).tableCount.toNat
  inside : rootEnd (storedBoot img) ≤ img.length
  below : rootEnd (storedBoot img) ≤ 2 ^ 31

def mounted16 (img : Bytes) : Volume where
  fatn := .fat16
  boot := storedBoot img
  boot16 := .ofBytes (slice img FatBS.size FatExtBS16.size)
  boot32 := ⟨0, 0, 0, []⟩
  fatTable := slice img (reservedBytes (storedBoot img)) (tableBytes16 (storedBoot img))
  fatTableBak := slice img (reservedBytes (storedBoot img) + tableBytes16 (storedBoot img))
    (tableBytes16 (storedBoot img))
  rootDir := slice img (rootStart (storedBoot img)) (rootBytes (storedBoot img))
  dataOffset := rootEnd (storedBoot img)

/-- A mounted FAT16 volume whose blocks have the sizes that its boot sector gives. -/
structure Sized (b : FatBS) (v : Volume) : Prop where
  fatn : v.fatn = .fat16
  boot : v.boot = b
  fatTable : v.fatTable.length = tableBytes16 b
  fatTableBak : v.fatTableBak.length = tableBytes16 b
  rootDir : v.rootDir.length = rootBytes b
  dataOffset : v.dataOffset = rootEnd b

def systemArea (v : Volume) : Bytes :=
  (List.replicate v.boot.tableCount.toNat v.fatTable).flatten ++ v.rootDir

/-- The image that a flush leaves. -/
def flushed (v : Volume) (img : Bytes) : Bytes :=
  splice 0 img (reservedBytes v.boot) (systemArea v)

section Reading
variable {img : Bytes}

theorem Fat16Image.reserved_le (h : Fat16Image img) :
    512 ≤ reservedBytes (storedBoot img) := by
  have hm := Nat.mul_le_mul h.reserved h.sectorSize
  rw [reservedBytes]
  omega

theorem Fat16Image.boundaries (h : Fat16Image img) :
    reservedBytes (storedBoot img) + 2 * tableBytes16 (storedBoot img) ≤
        rootStart (storedBoot img) ∧
      rootStart (storedBoot img) + rootBytes (storedBoot img) ≤ img.length ∧
      rootStart (storedBoot img) + rootBytes (storedBoot img) ≤ 2 ^ 31 := by
  have ht := two_tables_le (tableBytes16 (storedBoot img)) h.tables
  refine ⟨?_, h.inside, h.below⟩
  rw [rootStart, tablesEnd]
  omega

/-- The reader arrives at the root directory whatever the number of copies. -/
theorem Fat16Image.skipTables_eq (h : Fat16Image img) :
    skipTables (storedBoot img) (storedBoot img).tableSize16.toNat
      ⟨img, reservedBytes (storedBoot img) + tableBytes16 (storedBoot img) +
        tableBytes16 (storedBoot img)⟩ = ⟨img, rootStart (storedBoot img)⟩ := by
  have hs : (storedBoot img).tableCount.toNat * tableBytes16 (storedBoot img) =
      ((storedBoot img).tableCount.toNat - 2) * tableBytes16 (storedBoot img) +
        2 * tableBytes16 (storedBoot img) := by
    rw [← Nat.add_mul, Nat.sub_add_cancel h.tables]
  have hb := h.below
  rw [rootEnd, rootStart, tablesEnd] at hb
  rw [VolumeLayout.skipTables_eq _ rfl, rootStart, tablesEnd, hs]
  change Descriptor.mk img (_ + _ + _ + _ * tableBytes16 _ % 2 ^ 32) = _
  congr 1
  omega

theorem Fat16Image.initFat_eq (h : Fat16Image img) (fill : ℕ → UInt8) :
    initFat fill img = .ok (mounted16 img) := by
  obtain ⟨hroot, hin, -⟩ := h.boundaries
  have hres := h.reserved_le
  have hboot : bootSector fill img = storedBoot img :=
    bootSector_eq fill (by rw [FatBS.size]; omega)
  have hskip := h.skipTables_eq
  have hcomm : entrySize * (storedBoot img).rootEntryCount.toNat = rootBytes (storedBoot img) :=
    Nat.mul_comm _ _
  have h₀ : (Descriptor.mk img 0).advance FatBS.size = ⟨img, FatBS.size⟩ :=
    Descriptor.advance_eq (by rw [FatBS.size]; simp only; omega)
  rw [initFat, hboot, h.format, mounted16]
  generalize storedBoot img = b at *
  have h₁ : (Descriptor.mk img (reservedBytes b)).advance (tableBytes16 b) =
      ⟨img, reservedBytes b + tableBytes16 b⟩ := Descriptor.advance_eq (by simp only; omega)
  have h₂ : (Descriptor.mk img (reservedBytes b + tableBytes16 b)).advance (tableBytes16 b) =
      ⟨img, reservedBytes b + tableBytes16 b + tableBytes16 b⟩ :=
    Descriptor.advance_eq (by simp only; omega)
  have h₃ : (Descriptor.mk img (rootStart b)).advance (rootBytes b) = ⟨img, rootEnd b⟩ :=
    Descriptor.advance_eq hin
  simp only [initFat16, h₀, Descriptor.seekSet, Descriptor.advance_bytes, h₁, h₂, hskip, hcomm, h₃]
  rw [Descriptor.load_eq fill (by rw [FatBS.size, FatExtBS16.size]; simp only; omega),
    Descriptor.load_eq fill (by simp only; omega), Descriptor.load_eq fill (by simp only; omega),
    Descriptor.load_eq fill hin]

theorem Fat16Image.sized (h : Fat16Image img) : Sized (storedBoot img) (mounted16 img) := by
  obtain ⟨hroot, hin, -⟩ := h.boundaries
  exact ⟨rfl, rfl, length_slice_of_le (by omega), length_slice_of_le (by omega),
    length_slice_of_le hin, rfl⟩

end Reading

section Images

/-- A FAT16 volume in memory with two equal tables behind one reserved sector of 512 bytes,
which holds nothing but the common part of the boot sector. -/
structure Plain16 (v : Volume) : Prop where
  sized : Sized v.boot v
  format : selectFatn v.boot = .fat16
  sectorSize : sector v.boot = 512
  reserved : reservedBytes v.boot = 512
  tables : v.boot.tableCount.toNat = 2
  copy : v.fatTableBak = v.fatTable
  boot16 : v.boot16 = ⟨List.replicate 11 0⟩
  boot32 : v.boot32 = ⟨0, 0, 0, []⟩
  below : rootEnd v.boot ≤ 2 ^ 31

/-- The image of such a volume up to its data area. -/
def image16 (v : Volume) : Bytes :=
  v.boot.toBytes ++ List.replicate 476 0 ++ v.fatTable ++ v.fatTable ++ v.rootDir

variable {v : Volume}

/-- The parts of the image, each between what is in front of it and what follows. -/
theorem image16_append (v : Volume) (data : Bytes) : image16 v ++ data =
    v.boot.toBytes ++ (List.replicate 476 0 ++
      (v.fatTable ++ (v.fatTable ++ (v.rootDir ++ data)))) := by
  simp only [image16, List.append_assoc]

theorem storedBoot_image16 (v : Volume) (data : Bytes) :
    storedBoot (image16 v ++ data) = v.boot := by
  have hl := v.boot.length_toBytes
  rw [storedBoot, image16_append, slice_append_left (by omega), ← hl, slice_zero_length]
  have hb := v.boot.ofBytes_toBytes []
  rwa [List.append_nil] at hb

theorem Plain16.image (h : Plain16 v) (data : Bytes) : Fat16Image (image16 v ++ data) := by
  have hres := h.reserved
  have hend : rootEnd v.boot = (image16 v).length := by
    simp only [image16, List.length_append, FatBS.length_toBytes, FatBS.size,
      List.length_replicate, h.sized.fatTable, h.sized.rootDir, rootEnd, rootStart, tablesEnd, hres,
      h.tables]
    omega
  refine ⟨?_, ?_, ?_, ?_, ?_, ?_⟩ <;> rw [storedBoot_image16]
  · exact h.format
  · exact h.sectorSize.ge
  · rw [reservedBytes, h.sectorSize] at hres
    omega
  · exact h.tables.ge
  · rw [hend, List.length_append]
    omega
  · exact h.below

theorem Plain16.mounted (h : Plain16 v) (data : Bytes) : mounted16 (image16 v ++ data) = v := by
  have hb := v.boot.length_toBytes
  have ht := h.sized.fatTable
  have hr := h.sized.rootDir
  have hfront : (v.boot.toBytes ++ List.replicate 476 (0 : UInt8)).length = 512 := by
    rw [List.length_append, hb, List.length_replicate, FatBS.size]
  have hext : FatExtBS16.ofBytes (slice (image16 v ++ data) FatBS.size FatExtBS16.size) =
      v.boot16 := by
    have hslice := slice_append_middle v.boot.toBytes (List.replicate 476 0)
      (v.fatTable ++ (v.fatTable ++ (v.rootDir ++ data)))
    rw [hb, List.length_replicate] at hslice
    rw [image16_append, FatExtBS16.size, hslice, h.boot16, FatExtBS16.ofBytes, slice,
      List.drop_replicate, List.take_replicate, Nat.min_eq_left (by omega)]
  have htable : slice (image16 v ++ data) 512 (tableBytes16 v.boot) = v.fatTable := by
    have hslice := slice_append_middle (v.boot.toBytes ++ List.replicate 476 0) v.fatTable
      (v.fatTable ++ (v.rootDir ++ data))
    rwa [hfront, ht, List.append_assoc, ← image16_append] at hslice
  have hcopy : slice (image16 v ++ data) (512 + tableBytes16 v.boot) (tableBytes16 v.boot) =
      v.fatTable := by
    have hslice := slice_append_middle (v.boot.toBytes ++ List.replicate 476 0 ++ v.fatTable)
      v.fatTable (v.rootDir ++ data)
    rwa [List.length_append, hfront, ht, List.append_assoc, List.append_assoc,
      ← image16_append] at hslice
  have hroot : slice (image16 v ++ data) (rootStart v.boot) (rootBytes v.boot) = v.rootDir := by
    have hslice := slice_append_middle
      (v.boot.toBytes ++ List.replicate 476 0 ++ v.fatTable ++ v.fatTable) v.rootDir data
    have hstart : rootStart v.boot = 512 + tableBytes16 v.boot + tableBytes16 v.boot := by
      rw [rootStart, VolumeLayout.tablesEnd, h.reserved, h.tables]
      omega
    rwa [List.length_append, List.length_append, hfront, ht, hr, List.append_assoc,
      List.append_assoc, List.append_assoc, ← image16_append, ← hstart] at hslice
  simp only [mounted16, storedBoot_image16, h.reserved, hext, htable, hcopy, hroot]
  rw [← h.boot32, ← h.sized.dataOffset, ← h.sized.fatn]
  nth_rewrite 2 [← h.copy]
  rfl

end Images
section Writing
variable {b : FatBS} {v : Volume} {img : Bytes}

theorem Sized.length_systemArea (h : Sized b v) :
    (systemArea v).length = b.tableCount.toNat * tableBytes16 b + rootBytes b := by
  rw [systemArea, List.length_append, length_flatten_replicate, h.fatTable, h.rootDir, h.boot]

/-- Flushing is one write over the tables and the root directory. -/
theorem Sized.writeFat_eq (h : Sized b v) (hin : rootEnd b ≤ img.length) (pos : ℕ) :
    writeFat v ⟨img, pos⟩ =
      .ok ({ v with fatTableBak := v.fatTable }, ⟨flushed v img, rootEnd b⟩) := by
  rw [rootEnd, rootStart, tablesEnd] at hin
  have hn : tableBytes16 v.boot = v.fatTable.length := by rw [h.boot, h.fatTable]
  have hr : v.boot.rootEntryCount.toNat * entrySize = v.rootDir.length := by
    rw [h.boot, h.rootDir, rootBytes]
  have hcopy : memcpy v.fatTableBak v.fatTable v.fatTable.length = .ok v.fatTable :=
    memcpy_self (by rw [h.fatTableBak, h.fatTable])
  have htab := writeTables_eq v.fatTable img v.boot.tableCount.toNat (reservedBytes v.boot)
    (by rw [h.boot, h.fatTable]; omega)
  have hroot : copyOut v.rootDir 0 v.rootDir.length = .ok v.rootDir := by
    rw [copyOut_of_le (by omega), slice_zero_length]
  have hflush : splice 0 (splice 0 img (reservedBytes v.boot)
      (List.replicate v.boot.tableCount.toNat v.fatTable).flatten)
      (reservedBytes v.boot + v.boot.tableCount.toNat * v.fatTable.length) v.rootDir =
      flushed v img := by
    rw [← length_flatten_replicate v.boot.tableCount.toNat v.fatTable]
    exact splice_splice_append
      (by rw [length_flatten_replicate, h.boot, h.fatTable, h.rootDir]; omega)
  have hend : reservedBytes v.boot + v.boot.tableCount.toNat * v.fatTable.length +
      v.rootDir.length = rootEnd b := by
    rw [h.boot, h.fatTable, h.rootDir, rootEnd, rootStart, tablesEnd]
  have hsel : writeFat v ⟨img, pos⟩ = writeFat16 v ⟨img, pos⟩ := by rw [writeFat, h.fatn]
  rw [hsel, writeFat16]
  simp only [hn, hr, hcopy, ok_bind, Descriptor.seekSet, htab, hroot, Descriptor.write, hflush,
    hend]

theorem Sized.length_flushed (h : Sized b v) (hin : rootEnd b ≤ img.length) :
    (flushed v img).length = img.length := by
  rw [rootEnd, rootStart, tablesEnd] at hin
  exact length_splice_of_le (by rw [h.length_systemArea, h.boot]; omega)

theorem Sized.flushed_frame (h : Sized b v) (hin : rootEnd b ≤ img.length) {x : ℕ}
    (hx : x < reservedBytes b ∨ rootEnd b ≤ x) : (flushed v img)[x]? = img[x]? := by
  have hl := h.length_systemArea
  have hle : reservedBytes v.boot + (systemArea v).length = rootEnd b := by
    rw [hl, h.boot, rootEnd, rootStart, tablesEnd, Nat.add_assoc]
  rw [flushed, getElem?_splice_of_le (by omega), if_neg (by rw [hle, h.boot]; omega)]

theorem Sized.slice_flushed_table (h : Sized b v) (img : Bytes) {j : ℕ}
    (hj : j < b.tableCount.toNat) :
    slice (flushed v img) (reservedBytes b + j * tableBytes16 b) (tableBytes16 b) =
      v.fatTable := by
  have hm := Nat.mul_le_mul_right (tableBytes16 b) (show j + 1 ≤ b.tableCount.toNat from hj)
  rw [Nat.succ_mul] at hm
  have hl := length_flatten_replicate b.tableCount.toNat v.fatTable
  rw [h.fatTable] at hl
  rw [flushed, h.boot, slice_splice_inside _ _ _ (by rw [h.length_systemArea]; omega),
    systemArea, h.boot, slice_append_left (by omega), ← h.fatTable, slice_flatten_replicate hj]

theorem Sized.slice_flushed_root (h : Sized b v) :
    slice (flushed v img) (rootStart b) (rootBytes b) = v.rootDir := by
  have hl := length_flatten_replicate b.tableCount.toNat v.fatTable
  rw [h.fatTable] at hl
  have ha := slice_append_right (List.replicate b.tableCount.toNat v.fatTable).flatten
    v.rootDir 0 v.rootDir.length
  rw [hl, Nat.add_zero, slice_zero_length, h.rootDir] at ha
  rw [flushed, h.boot, rootStart, tablesEnd,
    slice_splice_inside _ _ _ (by rw [h.length_systemArea]), systemArea, h.boot, ha]

/-- The boot sector lies in front of what a flush writes. -/
theorem Sized.storedBoot_flushed (h : Sized (storedBoot img) v) (hi : Fat16Image img) :
    storedBoot (flushed v img) = storedBoot img := by
  have hres := hi.reserved_le
  rw [storedBoot, storedBoot]
  congr 1
  exact slice_congr fun x _ hx => h.flushed_frame hi.inside (.inl (by
    rw [FatBS.size] at hx
    omega))

theorem Sized.fat16Image_flushed (h : Sized (storedBoot img) v) (hi : Fat16Image img) :
    Fat16Image (flushed v img) := by
  have hb := h.storedBoot_flushed hi
  refine ⟨?_, ?_, ?_, ?_, ?_, ?_⟩
  · rw [hb]
    exact hi.format
  · rw [hb]
    exact hi.sectorSize
  · rw [hb]
    exact hi.reserved
  · rw [hb]
    exact hi.tables
  · rw [hb, h.length_flushed hi.inside]
    exact hi.inside
  · rw [hb]
    exact hi.below

end Writing

section Editing
variable {b : FatBS} {v w : Volume}

/-- What may happen to a mounted volume before it is flushed. -/
inductive Edit where
  | changeCluster (index newValue : ℕ)
  | rootEntry (i : ℕ) (e : FatDirLayout)

/-- The index of the edit is an index of the table, or of the root directory. -/
def Edit.InTable (v : Volume) : Edit → Prop
  | .changeCluster index _ => index < v.tableSize
  | .rootEntry i _ => i < v.boot.rootEntryCount.toNat

def applyEdit (v : Volume) : Edit → Except Fault Volume
  | .changeCluster index newValue => v.changeCluster index newValue
  | .rootEntry i e => do
      let r ← copyIn v.rootDir (entrySize * i) e.bytes
      .ok { v with rootDir := r }

theorem Sized.inTable_iff (h : Sized b v) (h' : Sized b w) (e : Edit) :
    e.InTable v ↔ e.InTable w := by
  cases e <;>
    simp only [Edit.InTable, Volume.tableSize, h.fatn, h'.fatn, h.boot, h'.boot]

theorem Sized.hasCell (h : Sized b v) {index : ℕ} (hi : index < v.tableSize) {t : Bytes}
    (ht : t.length = tableBytes16 b) : HasCell v.fatn.width t (v.fatn.index index) := by
  have hmod := Nat.mod_le index (2 ^ 16)
  have hsec : 2 * (b.tableSize16.toNat * (sector b / 2)) ≤ tableBytes16 b := by
    rw [tableBytes16, Nat.mul_left_comm, Nat.mul_comm (sector b)]
    exact Nat.mul_le_mul_left _ (by omega)
  simp only [Volume.tableSize, h.fatn, h.boot] at hi
  rw [h.fatn, HasCell, ht]
  simp only [Fatn.width, Fatn.index]
  omega

theorem Sized.applyEdit (h : Sized b v) {e : Edit} (he : e.InTable v) :
    ∃ w, applyEdit v e = .ok w ∧ Sized b w := by
  cases e with
  | changeCluster index newValue =>
      have ht := h.hasCell he h.fatTable
      have hk := h.hasCell he h.fatTableBak
      refine ⟨_, v.changeCluster_of_hasCell newValue ht hk, ?_⟩
      exact ⟨h.fatn, h.boot, by rw [length_setCell _ ht, h.fatTable],
        by rw [length_setCell _ hk, h.fatTableBak], h.rootDir, h.dataOffset⟩
  | rootEntry i e =>
      have hi : i < b.rootEntryCount.toNat := by
        rw [← h.boot]
        exact he
      have hle : entrySize * i + e.bytes.length ≤ v.rootDir.length := by
        have hm := Nat.mul_le_mul_left entrySize (show i + 1 ≤ b.rootEntryCount.toNat from hi)
        rw [Nat.mul_succ] at hm
        rw [e.length_bytes, h.rootDir, rootBytes, Nat.mul_comm b.rootEntryCount.toNat]
        exact hm
      refine ⟨{ v with rootDir := splice 0 v.rootDir (entrySize * i) e.bytes }, ?_, ?_⟩
      · rw [Fat16Flush.applyEdit, copyIn_of_le hle, ok_bind]
      · exact ⟨h.fatn, h.boot, h.fatTable, h.fatTableBak,
          by rw [length_splice_of_le hle, h.rootDir], h.dataOffset⟩

theorem Sized.applyEdits (h : Sized b v) {edits : List Edit}
    (he : ∀ e ∈ edits, e.InTable v) :
    ∃ w, edits.foldlM Fat16Flush.applyEdit v = .ok w ∧ Sized b w := by
  induction edits generalizing v with
  | nil => exact ⟨v, rfl, h⟩
  | cons e edits ih =>
      obtain ⟨u, hu, hs⟩ := h.applyEdit (he e (by simp))
      obtain ⟨w, hw, hws⟩ := ih hs fun e' he' => (h.inTable_iff hs e').mp (he e' (by simp [he']))
      refine ⟨w, ?_, hws⟩
      rw [List.foldlM_cons, hu]
      exact hw

end Editing

/-- The image `out` shows the volume `w`, agrees with `img` elsewhere, and is
mounted again as the same volume. -/
structure Shows (img : Bytes) (w : Volume) (out : Bytes) : Prop where
  copies : ∀ j < (storedBoot img).tableCount.toNat,
    slice out (reservedBytes (storedBoot img) + j * tableBytes16 (storedBoot img))
      (tableBytes16 (storedBoot img)) = w.fatTable
  root : slice out (rootStart (storedBoot img)) (rootBytes (storedBoot img)) = w.rootDir
  length : out.length = img.length
  frame : ∀ x, x < reservedBytes (storedBoot img) ∨ rootEnd (storedBoot img) ≤ x →
    out[x]? = img[x]?
  remount : ∀ fill, ∃ u, initFat fill out = .ok u ∧ u.fatTable = w.fatTable ∧
    u.fatTableBak = u.fatTable ∧ u.rootDir = w.rootDir ∧ u.dataOffset = w.dataOffset

theorem Sized.shows_flushed {img : Bytes} {w : Volume} (h : Sized (storedBoot img) w)
    (hi : Fat16Image img) : Shows img w (flushed w img) := by
  have htwo := hi.tables
  have htab₀ := h.slice_flushed_table img (show 0 < (storedBoot img).tableCount.toNat by omega)
  have htab₁ := h.slice_flushed_table img (show 1 < (storedBoot img).tableCount.toNat by omega)
  rw [Nat.zero_mul, Nat.add_zero] at htab₀
  rw [Nat.one_mul] at htab₁
  refine ⟨fun j hj => h.slice_flushed_table img hj, h.slice_flushed_root,
    h.length_flushed hi.inside, fun x hx => h.flushed_frame hi.inside hx, fun fill => ?_⟩
  refine ⟨_, (h.fat16Image_flushed hi).initFat_eq fill, ?_⟩
  simp only [mounted16, h.storedBoot_flushed hi, htab₀, htab₁, h.slice_flushed_root,
    h.dataOffset, and_self]

/-- Mounting, editing and flushing a FAT16 image leaves an image that shows the
edited volume. -/
theorem flush_shows_edits (fill : ℕ → UInt8) {img : Bytes} (hi : Fat16Image img) :
    ∃ v, initFat fill img = .ok v ∧ v.fatn = .fat16 ∧
      ∀ edits : List Edit, (∀ e ∈ edits, e.InTable v) →
        ∃ w, edits.foldlM applyEdit v = .ok w ∧
          ∀ pos, ∃ w' d, writeFat w ⟨img, pos⟩ = .ok (w', d) ∧
            w'.fatTable = w.fatTable ∧ w'.rootDir = w.rootDir ∧ Shows img w d.bytes := by
  refine ⟨mounted16 img, hi.initFat_eq fill, rfl, fun edits he => ?_⟩
  obtain ⟨w, hw, hs⟩ := hi.sized.applyEdits he
  refine ⟨w, hw, fun pos => ?_⟩
  exact ⟨_, _, hs.writeFat_eq hi.inside pos, rfl, rfl, hs.shows_flushed hi⟩

def tinyFat16 : Bytes :=
  FatBS.toBytes ⟨512, 1, 1, 2, 16, 40000, 0xF8, 1, 0⟩ ++ List.replicate 2012 0

theorem tinyFat16_image : Fat16Image tinyFat16 := by
  have hb : storedBoot tinyFat16 = ⟨512, 1, 1, 2, 16, 40000, 0xF8, 1, 0⟩ := by decide
  have hl : tinyFat16.length = 2048 := by
    rw [tinyFat16, List.length_append, List.length_replicate, FatBS.length_toBytes, FatBS.size]
  refine ⟨?_, ?_, ?_, ?_, ?_, ?_⟩ <;> rw [hb]
  · decide
  · decide
  · decide
  · decide
  · rw [hl]
    decide
  · decide

theorem tinyFat16_shows_edits :
    ∃ v, initFat (fun _ => 0) tinyFat16 = .ok v ∧ v.fatn = .fat16 ∧
      ∀ edits : List Edit, (∀ e ∈ edits, e.InTable v) →
        ∃ w, edits.foldlM applyEdit v = .ok w ∧
          ∀ pos, ∃ w' d, writeFat w ⟨tinyFat16, pos⟩ = .ok (w', d) ∧
            w'.fatTable = w.fatTable ∧ w'.rootDir = w.rootDir ∧ Shows tinyFat16 w d.bytes :=
  flush_shows_edits (fun _ => 0) tinyFat16_image

end TFAT.Fat16Flush
