import TFAT.TwoDescriptors

/-!
# The loops over the whole table

`dump_fat` and `test_fat` go through the entries of the tables by their number. On FAT16 the
accessors keep 16 bits of it, and on FAT32 both the number of entries and the size of the
block are products in 32 bits, so the loops see each entry of the disk once up to a number of
entries only. And `dump_fat` does not truncate the file that it opens, so that what a longer
file held stays behind the table.
-/
namespace TFAT.TableDumps
open ByteRegions LittleEndianWords DiskLayout ClusterTable FileDescriptor VolumeMount PathText
open UserCommands ShellCommands ShellRuns MarkingEffects TableBlocks

def tableSectors (v : Volume) : ℕ :=
  match v.fatn with
  | .fat16 => v.boot.tableSize16.toNat
  | .fat32 => v.boot32.tableSize32.toNat

def entryCount (v : Volume) : ℕ := sector v.boot * tableSectors v / v.fatn.width

def reach : Fatn → ℕ
  | .fat16 => 2 ^ 16
  | .fat32 => 2 ^ 30 - 1

variable (env : Env)

/-- The loops over the table see each entry of the disk once and in order: the file at the
path holds the first table afterwards, and the entries that differ are reported. -/
structure Exact (s : Shell) (i : Input) (path : Text) : Prop where
  visits : (List.range s.volume.tableSize).map s.volume.fatn.index =
    List.range (entryCount s.volume)
  dumped : ∃ t, perform env s i = .ok t ∧
    t.files (env.canonical path) = some s.volume.fatTable
  reported : ∃ rows, testFat s.volume = .ok rows ∧ ∀ k x y, (k, x, y) ∈ rows ↔
    k < entryCount s.volume ∧ x = cell s.volume.fatn.width s.volume.fatTable k ∧
      y = cell s.volume.fatn.width s.volume.fatTableBak k ∧ x ≠ y

variable {env}

section Loops
variable {α β : Type} {f : α → Except Fault β} {g : α → β} {l : List α} {w n : ℕ} {t : Bytes}

theorem mapM_of_forall (h : ∀ a ∈ l, f a = .ok (g a)) : l.mapM f = .ok (l.map g) := by
  induction l with
  | nil => rfl
  | cons a l ih =>
      rw [List.mapM_cons, h a List.mem_cons_self, ok_bind,
        ih fun b hb => h b (List.mem_cons_of_mem _ hb)]
      rfl

/-- A loop that has come to its end has not failed in a round. -/
theorem exists_of_mapM {bs : List β} (h : l.mapM f = .ok bs) {a : α} (ha : a ∈ l) :
    ∃ b, f a = .ok b := by
  induction l generalizing bs with
  | nil => cases ha
  | cons c l ih =>
      rw [List.mapM_cons] at h
      obtain ⟨b, hb, h⟩ := bind_eq_ok.mp h
      obtain ⟨cs, hcs, -⟩ := bind_eq_ok.mp h
      rcases List.mem_cons.mp ha with rfl | ha
      · exact ⟨b, hb⟩
      · exact ih hcs ha

theorem encode_cell (h : HasCell w t n) : encode w (cell w t n) = slice t (w * n) w := by
  have he := encode_value (slice t (w * n) w)
  rwa [length_slice_of_le h] at he

theorem flatMap_encode_cell (h : w * n ≤ t.length) :
    (List.range n).flatMap (fun i => encode w (cell w t i)) = t.take (w * n) := by
  induction n with
  | zero => rfl
  | succ n ih =>
      rw [Nat.mul_succ] at h
      rw [List.range_succ, List.flatMap_append, ih (by omega), List.flatMap_singleton,
        encode_cell h, Nat.mul_succ, List.take_add]
      rfl

end Loops

section Sizes
variable {fill : ℕ → UInt8} {img : Bytes} {v w : Volume} {i : ℕ}

theorem width_mul_entryCount (hsec : v.fatn.width ∣ sector v.boot) :
    v.fatn.width * entryCount v = sector v.boot * tableSectors v :=
  Nat.mul_div_cancel' (hsec.mul_right _)

theorem tableSize_eq (hsec : v.fatn.width ∣ sector v.boot) : v.tableSize =
    match v.fatn with
    | .fat16 => entryCount v
    | .fat32 => entryCount v % 2 ^ 32 := by
  have hcount : entryCount v = tableSectors v * (sector v.boot / v.fatn.width) := by
    rw [entryCount, Nat.mul_comm, Nat.mul_div_assoc _ hsec]
  cases hn : v.fatn with
  | fat16 | fat32 =>
      simp only [hcount, Volume.tableSize, tableSectors, hn]
      rfl

theorem tableBytes_eq (hsec : v.fatn.width ∣ sector v.boot) : tableBytes v =
    match v.fatn with
    | .fat16 => v.fatn.width * entryCount v
    | .fat32 => v.fatn.width * entryCount v % 2 ^ 32 := by
  rw [width_mul_entryCount hsec]
  cases hn : v.fatn with
  | fat16 | fat32 =>
      simp only [tableBytes, tableSectors, hn]
      rfl

theorem tableBytes_le (hsec : v.fatn.width ∣ sector v.boot) :
    tableBytes v ≤ v.fatn.width * entryCount v := by
  rw [tableBytes_eq hsec]
  cases v.fatn with
  | fat16 => exact le_rfl
  | fat32 => exact Nat.mod_le _ _

/-- The blocks and the bound of the loops are those of the disk where the accessors reach
every entry. -/
theorem sizes_of_le (hsec : v.fatn.width ∣ sector v.boot) (h : entryCount v ≤ reach v.fatn) :
    v.tableSize = entryCount v ∧ tableBytes v = v.fatn.width * entryCount v ∧
      ∀ i < entryCount v, v.fatn.index i = i := by
  rw [tableSize_eq hsec, tableBytes_eq hsec]
  cases hn : v.fatn with
  | fat16 =>
      rw [hn, reach] at h
      exact ⟨rfl, rfl, fun i hi => Nat.mod_eq_of_lt (hi.trans_le h)⟩
  | fat32 =>
      rw [hn, reach] at h
      simp only [Fatn.width]
      exact ⟨Nat.mod_eq_of_lt (by omega), Nat.mod_eq_of_lt (by omega), fun _ _ => rfl⟩

/-- Beyond that an entry is seen again, or one is missing in the block. -/
theorem le_reach (hsec : v.fatn.width ∣ sector v.boot)
    (hvisit : ∀ i < entryCount v, v.fatn.index i = i)
    (hcell : ∀ i < entryCount v, v.fatn.width * i + v.fatn.width ≤ tableBytes v) :
    entryCount v ≤ reach v.fatn := by
  rw [tableBytes_eq hsec] at hcell
  by_contra hcon
  cases hn : v.fatn with
  | fat16 =>
      rw [hn, reach, not_le] at hcon
      have hwrap := hvisit (2 ^ 16) hcon
      rw [hn] at hwrap
      exact absurd hwrap (by decide)
  | fat32 =>
      rw [hn, reach, not_le] at hcon
      have hlast := hcell (entryCount v - 1) (by omega)
      simp only [hn, Fatn.width] at hlast
      omega

end Sizes

section Reports
variable {s : Shell} {i : Input} {v : Volume} {path : Text} {old data : Bytes}

theorem dumpFat_eq (hv : HasTables v) (hsec : v.fatn.width ∣ sector v.boot)
    (hle : entryCount v ≤ reach v.fatn) : dumpFat v = .ok v.fatTable := by
  obtain ⟨hsize, hbytes, hindex⟩ := sizes_of_le hsec hle
  have hlen := hv.fatTable.trans hbytes
  have hread : ∀ i ∈ List.range (entryCount v),
      v.getCluster i = .ok (cell v.fatn.width v.fatTable i) := by
    intro i hi
    rw [List.mem_range] at hi
    rw [getCluster_eq, hindex i hi]
    exact fetch_of_hasCell (hasCell_of_lt hlen hi)
  rw [dumpFat, hsize, mapM_of_forall hread, ok_bind, List.flatMap_map,
    flatMap_encode_cell hlen.ge, List.take_of_length_le hlen.le]

theorem testFat_eq (hv : HasTables v) (hsec : v.fatn.width ∣ sector v.boot)
    (hle : entryCount v ≤ reach v.fatn) :
    testFat v = .ok (((List.range (entryCount v)).map fun i =>
      (i, cell v.fatn.width v.fatTable i, cell v.fatn.width v.fatTableBak i)).filter
        fun r => r.2.1 ≠ r.2.2) := by
  obtain ⟨hsize, hbytes, hindex⟩ := sizes_of_le hsec hle
  have hread : ∀ i ∈ List.range (entryCount v),
      (do
        let x ← v.getCluster i
        let y ← v.getClusterBak i
        Except.ok (i, x, y)) =
      .ok (i, cell v.fatn.width v.fatTable i, cell v.fatn.width v.fatTableBak i) := by
    intro i hi
    rw [List.mem_range] at hi
    rw [getCluster_eq, getClusterBak_eq, hindex i hi,
      fetch_of_hasCell (hasCell_of_lt (hv.fatTable.trans hbytes) hi),
      fetch_of_hasCell (hasCell_of_lt (hv.fatTableBak.trans hbytes) hi)]
    rfl
  rw [testFat, hsize, mapM_of_forall hread, ok_bind]

theorem perform_dumpFat (hi : i.command = .dumpFat path) (hfd : s.fd ≠ none)
    (hopen : env.mayOpen (env.canonical path) .wronly) :
    perform env s i = (dumpFat s.volume >>= fun data => .ok (storeFile s (env.canonical path)
      (splice 0 ((s.files (env.canonical path)).getD []) 0 data))) := by
  rw [perform, hi]
  change testFd s (writeTable env s path) = _
  rw [testFd, if_neg hfd, writeTable]
  simp only [hopen, if_true]
  rfl

theorem length_le_of_splice (h : splice 0 old 0 data = v.fatTable) :
    old.length ≤ v.fatTable.length := by
  rw [← h, length_splice]
  split_ifs
  · exact le_rfl
  · exact Nat.le_max_left _ _

theorem splice_of_length_le (h : old.length ≤ data.length) : splice 0 old 0 data = data := by
  cases data with
  | nil =>
      rw [List.length_nil, Nat.le_zero, List.length_eq_zero_iff] at h
      rw [h, splice_nil]
  | cons b data =>
      rw [splice, List.take_zero, List.drop_of_length_le (by simpa using h)]
      simp

/-- What the loops need for their results. -/
theorem Exact.needs (h : Exact env s i path) (hi : i.command = .dumpFat path)
    (hfd : s.fd ≠ none) (hv : HasTables s.volume)
    (hsec : s.volume.fatn.width ∣ sector s.volume.boot)
    (hopen : env.mayOpen (env.canonical path) .wronly) :
    entryCount s.volume ≤ reach s.volume.fatn ∧
      ((s.files (env.canonical path)).getD []).length ≤ tableBytes s.volume := by
  obtain ⟨t, ht, hfile⟩ := h.dumped
  rw [perform_dumpFat hi hfd hopen] at ht
  obtain ⟨data, hdata, ht⟩ := bind_eq_ok.mp ht
  rw [Except.ok.injEq] at ht
  subst ht
  rw [files_storeFile, Option.some.injEq] at hfile
  obtain ⟨values, hvalues, -⟩ := bind_eq_ok.mp hdata
  have hsize : s.volume.tableSize = entryCount s.volume := by
    simpa using congrArg List.length h.visits
  have hindex : ∀ i < entryCount s.volume, s.volume.fatn.index i = i := by
    have hmap := h.visits
    rw [hsize] at hmap
    exact fun k hk => List.map_inj_left.mp (hmap.trans (List.map_id _).symm) k
      (List.mem_range.mpr hk)
  refine ⟨le_reach hsec hindex fun k hk => ?_, hv.fatTable ▸ length_le_of_splice hfile⟩
  obtain ⟨x, hx⟩ := exists_of_mapM hvalues (List.mem_range.mpr (hsize.symm ▸ hk))
  rw [getCluster_eq, hindex k hk] at hx
  rw [← hv.fatTable]
  exact hasCell_of_fetch hx

/-- `dump_fat` and `test_fat` do what they are for exactly where the accessors reach all
entries of the table on the disk and the file at the path was no longer than the table. -/
theorem tableLoops_exact_iff {files : Text → Option Bytes} {trace : List Done}
    (h : History env (.initial files) trace s) (hfd : s.fd ≠ none)
    (hsec : s.volume.fatn.width ∣ sector s.volume.boot) (hi : i.command = .dumpFat path)
    (hopen : env.mayOpen (env.canonical path) .wronly) :
    Exact env s i path ↔ entryCount s.volume ≤ reach s.volume.fatn ∧
      ((s.files (env.canonical path)).getD []).length ≤ sector s.volume.boot *
        tableSectors s.volume := by
  have hv := hasTables_of_history h hfd
  rw [← width_mul_entryCount hsec]
  constructor
  · intro he
    obtain ⟨hle, hold⟩ := he.needs hi hfd hv hsec hopen
    exact ⟨hle, hold.trans (tableBytes_le hsec)⟩
  · rintro ⟨hle, hold⟩
    obtain ⟨hsize, hbytes, hindex⟩ := sizes_of_le hsec hle
    refine ⟨?_, ⟨_, by rw [perform_dumpFat hi hfd hopen, dumpFat_eq hv hsec hle, ok_bind], ?_⟩,
      _, testFat_eq hv hsec hle, fun k x y => ?_⟩
    · rw [hsize]
      exact (List.map_congr_left fun i hi => hindex i (List.mem_range.mp hi)).trans (List.map_id _)
    · rw [files_storeFile,
        splice_of_length_le (hv.fatTable.symm ▸ hbytes.symm ▸ hold)]
    · simp only [List.mem_filter, List.mem_map, List.mem_range, Prod.mk.injEq, decide_eq_true_eq]
      constructor
      · rintro ⟨⟨j, hj, rfl, rfl, rfl⟩, hne⟩
        exact ⟨hj, rfl, rfl, hne⟩
      · rintro ⟨hk, rfl, rfl, hne⟩
        exact ⟨⟨k, hk, rfl, rfl, rfl⟩, hne⟩

section Example
open LeavingVolumes NumberedRuns TwoDescriptors

/-- The small volume is dumped to a file that does not exist. -/
theorem tableLoops_exact_small :
    Exact subFileEnv subFileShell (input (.dumpFat [0x54])) [0x54] :=
  (tableLoops_exact_iff (.step .start subFileShell_mounted) (by decide) (by decide) rfl
    rfl).mpr ⟨by decide, by decide⟩

/-- The shell that has mounted the first of two copies of an image. -/
def firstShell : Shell := mountedShell (.initial twoFiles) [0x56] false countedVolume

theorem firstShell_history :
    ∃ trace, History subFileEnv (.initial twoFiles) trace firstShell := by
  have hfile : (Shell.initial twoFiles).files (subFileEnv.canonical [0x56]) =
      some countedImage := by
    simp [Shell.initial, twoFiles, subFileEnv]
  exact ⟨_, .step .start (step_mount (i := input (.mount [0x56])) false rfl hfile rfl
    (countedImage_mounted _) (by decide))⟩

/-- A dump to the second copy, which is longer than the table, leaves the rest of it there. -/
theorem tableLoops_stale : ∃ trace, History subFileEnv (.initial twoFiles) trace firstShell ∧
    firstShell.fd ≠ none ∧ firstShell.volume.fatn.width ∣ sector firstShell.volume.boot ∧
      (∃ t, perform subFileEnv firstShell (input (.dumpFat [0x57])) = .ok t ∧
        t.files [0x57] ≠ some firstShell.volume.fatTable) ∧
      ¬ Exact subFileEnv firstShell (input (.dumpFat [0x57])) [0x57] := by
  obtain ⟨trace, hrun⟩ := firstShell_history
  have hfd : firstShell.fd ≠ none := by decide
  have hv := hasTables_of_history hrun hfd
  have hlong : ¬ countedImage.length ≤ firstShell.volume.fatTable.length := by
    rw [hv.fatTable, show tableBytes firstShell.volume = 512 by decide, countedImage]
    simp only [List.length_append, List.length_replicate]
    omega
  have hdump : perform subFileEnv firstShell (input (.dumpFat [0x57])) =
      .ok (storeFile firstShell [0x57] (splice 0 countedImage 0 firstShell.volume.fatTable)) := by
    rw [perform_dumpFat rfl hfd rfl, dumpFat_eq hv (by decide) (by decide)]
    rfl
  have hne : splice 0 countedImage 0 firstShell.volume.fatTable ≠ firstShell.volume.fatTable :=
    fun h => hlong (length_le_of_splice h)
  refine ⟨trace, hrun, hfd, by decide, ⟨_, hdump, fun h => ?_⟩, fun h => ?_⟩
  · rw [files_storeFile, Option.some.injEq] at h
    exact hne h
  · obtain ⟨t, ht, hfile⟩ := h.dumped
    rw [hdump, Except.ok.injEq] at ht
    subst ht
    exact hne (Option.some.inj ((files_storeFile _ _ _).symm.trans hfile))

end Example

end Reports

end TFAT.TableDumps
