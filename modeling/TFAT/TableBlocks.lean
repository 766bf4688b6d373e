import TFAT.TableAccesses

/-!
# The blocks of the tables

Mounting reads both tables into blocks of their own, of as many bytes as a table has on
the disk. Every command keeps their sizes, so the cells of a run are those of the mount.
On FAT32 the size of a block and the number of entries are products in 32 bits: as long
as the size does not wrap, each index below `table_size()` has its cell in both blocks.
-/
namespace TFAT.TableBlocks
open ByteRegions LittleEndianWords DiskLayout ClusterTable FileDescriptor VolumeMount
open PathText UserCommands ShellCommands ShellRuns MarkingEffects

/-- `SECTOR * table_size`, the size of the blocks of both tables. -/
def tableBytes (v : Volume) : ℕ :=
  match v.fatn with
  | .fat16 => tableBytes16 v.boot
  | .fat32 => tableBytes32 v.boot v.boot32

/-- Both tables are in blocks of the size that mounting gives them. -/
structure HasTables (v : Volume) : Prop where
  fatTable : v.fatTable.length = tableBytes v
  fatTableBak : v.fatTableBak.length = tableBytes v

/-- The index has a cell in both tables. -/
def HasCells (v : Volume) (k : ℕ) : Prop :=
  HasCell v.fatn.width v.fatTable k ∧ HasCell v.fatn.width v.fatTableBak k

/-- The size of a table in bytes does not wrap around. -/
def Unwrapped (v : Volume) : Prop :=
  v.fatn = .fat32 → sector v.boot * v.boot32.tableSize32.toNat < 2 ^ 32

section Cells
variable {v w : Volume} {k n : ℕ} {t : Bytes}

theorem hasCell_of_lt {w i : ℕ} (hlen : t.length = w * n) (hi : i < n) : HasCell w t i := by
  rw [HasCell, hlen]
  exact Nat.mul_le_mul_left w (Nat.succ_le_of_lt hi)

theorem getCluster_eq (v : Volume) (i : ℕ) :
    v.getCluster i = Volume.fetch v.fatn.width v.fatTable (v.fatn.index i) := by
  unfold Volume.getCluster
  cases v.fatn <;> rfl

theorem getClusterBak_eq (v : Volume) (i : ℕ) :
    v.getClusterBak i = Volume.fetch v.fatn.width v.fatTableBak (v.fatn.index i) := by
  unfold Volume.getClusterBak
  cases v.fatn <;> rfl

theorem fetch_of_hasCell {w : ℕ} {t : Bytes} (h : HasCell w t i) :
    Volume.fetch w t i = .ok (cell w t i) := if_pos h

theorem hasCell_of_fetch {w x : ℕ} {t : Bytes} (h : Volume.fetch w t i = .ok x) :
    HasCell w t i := by
  unfold Volume.fetch at h
  split_ifs at h with hc
  exact hc

theorem index_le (n : Fatn) (c : ℕ) : n.index c ≤ c := by
  cases n with
  | fat16 => exact Nat.mod_le _ _
  | fat32 => exact le_rfl

theorem Unwrapped.width_mul_tableSize_le (h : Unwrapped v) :
    v.fatn.width * v.tableSize ≤ tableBytes v := by
  cases hn : v.fatn with
  | fat16 =>
      have hm := Nat.mul_le_mul_left v.boot.tableSize16.toNat (Nat.mul_div_le (sector v.boot) 2)
      simp only [Volume.tableSize, tableBytes, tableBytes16, hn, Fatn.width]
      rwa [Nat.mul_left_comm, Nat.mul_comm (sector v.boot)]
  | fat32 =>
      have hm := Nat.mul_le_mul_left v.boot32.tableSize32.toNat (Nat.mul_div_le (sector v.boot) 4)
      have hle := Nat.mod_le (v.boot32.tableSize32.toNat * (sector v.boot / 4)) (2 ^ 32)
      simp only [Volume.tableSize, tableBytes, tableBytes32, hn, Fatn.width]
      rw [Nat.mod_eq_of_lt (h hn), Nat.mul_comm (sector v.boot)]
      exact (Nat.mul_le_mul_left 4 hle).trans (by rwa [Nat.mul_left_comm])

/-- Where the size does not wrap around, the blocks have a cell for each entry. -/
theorem HasTables.hasCells (h : HasTables v) (hw : Unwrapped v) (hk : k < v.tableSize) :
    HasCells v k := by
  have hcell := (Nat.mul_le_mul_left v.fatn.width (Nat.succ_le_of_lt hk)).trans
    hw.width_mul_tableSize_le
  exact ⟨by rw [HasCell, h.fatTable]; exact hcell, by rw [HasCell, h.fatTableBak]; exact hcell⟩

theorem hasCells_of_edits (hE : Edits v w) : HasCells w k ↔ HasCells v k := by
  simp only [HasCells, HasCell, hE.fatn, hE.fatTable, hE.fatTableBak]

end Cells

section Runs
variable {env : Env} {fill : ℕ → UInt8} {img : Bytes} {v w : Volume} {s t : Shell} {i : Input}

theorem HasTables.of_edits (h : HasTables v) (hE : Edits v w) : HasTables w := by
  have hbytes : tableBytes w = tableBytes v := by
    simp only [tableBytes, hE.fatn, hE.boot, hE.boot32]
  exact ⟨by rw [hE.fatTable, hbytes, h.fatTable], by rw [hE.fatTableBak, hbytes, h.fatTableBak]⟩

theorem hasTables_of_initFat (h : initFat fill img = .ok v) : HasTables v := by
  unfold initFat at h
  simp only at h
  split at h
  · rw [Except.ok.injEq] at h
    subst h
    constructor <;> simp only [initFat16, tableBytes, Descriptor.length_load]
  · obtain ⟨r, -, hv⟩ := bind_eq_ok.mp h
    rw [Except.ok.injEq] at hv
    subst hv
    constructor <;> simp only [tableBytes, tableBytes32, sector, Descriptor.length_load]

theorem hasTables_loadedFrom (fill : ℕ → UInt8) (img : Bytes) :
    HasTables (TableAccesses.loadedFrom fill img) :=
  ⟨Descriptor.length_load _ _ _, Descriptor.length_load _ _ _⟩

theorem hasTables_of_performed (h : s.fd ≠ none → HasTables s.volume)
    (ht : Performed env s i t) : t.fd ≠ none → HasTables t.volume := by
  intro hfd
  cases ht with
  | mounted _ _ hv ht =>
      subst ht
      exact hasTables_of_initFat hv
  | left _ hu =>
      rcases umount_cases hu with ⟨hn, rfl⟩ | ⟨fd, v, d, -, -, rfl⟩
      · exact absurd hn hfd
      · exact absurd rfl hfd
  | looked _ hv _ ht =>
      subst ht
      rw [show (s.resume _).volume = s.volume from hv]
      exact h hfd
  | deleted _ _ hd ht =>
      subst ht
      exact (h hfd).of_edits (effect_of_delete hd).edits
  | undeleted _ _ hd ht =>
      subst ht
      exact (h hfd).of_edits (effect_of_undelete hd).edits
  | dumped _ _ ht | same _ ht =>
      subst ht
      exact h hfd

theorem hasTables_of_history {files : Text → Option Bytes} {trace : List Done}
    (h : History env (.initial files) trace s) : s.fd ≠ none → HasTables s.volume := by
  induction h with
  | start => exact fun hn => absurd rfl hn
  | step _ ht ih => exact hasTables_of_performed ih (performed_of_perform (step_running ht))

end Runs

end TFAT.TableBlocks
