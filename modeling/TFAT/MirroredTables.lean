import TFAT.TableDumps

/-!
# The two tables in memory

`delete` and `undelete` store into both tables. So the tables differ in the entries in which
they differed when the volume was mounted, less those that have been stored since. `test_fat`
compares them: behind any run it reports what it would have reported before, without the entries
that the run has stored.
-/
namespace TFAT.MirroredTables
open LittleEndianWords DiskLayout ClusterTable PathText PathResolution UserCommands ShellCommands
open ShellRuns ChainRelease DeleteSafety UndeleteSafety TableBlocks TableDumps

/-- Only the tables and the root directory have changed. The tables agree in the entries of `R`,
and elsewhere they are as they were. -/
structure Mirrored (R : ℕ → Prop) (v w : Volume) : Prop where
  volume : ∃ table bak root, w = { retable v table bak with rootDir := root }
  fatTable : w.fatTable.length = v.fatTable.length
  fatTableBak : w.fatTableBak.length = v.fatTableBak.length
  same : ∀ i, R i → cell v.fatn.width w.fatTable i = cell v.fatn.width w.fatTableBak i
  kept : ∀ i, ¬ R i → cell v.fatn.width w.fatTable i = cell v.fatn.width v.fatTable i ∧
    cell v.fatn.width w.fatTableBak i = cell v.fatn.width v.fatTableBak i

variable (env : Env)

/-- The table entries that a command stores. -/
def Stores (s : Shell) (i : Input) (k : ℕ) : Prop :=
  match i.command with
  | .delete dir => ∃ f, find env.fill s.volume s.image i.fresh (deletePath s.session dir) =
      .ok (some f) ∧ Visits s.volume (s.volume.firstCluster f) k
  | .undelete dir => ∃ f, find env.fill s.volume s.image i.fresh (undeletePath s.session dir) =
      .ok (some f) ∧ k = s.volume.fatn.index (s.volume.firstCluster f)
  | _ => False

def StoredIn (trace : List Done) (k : ℕ) : Prop := ∃ d ∈ trace, Stores env d.start d.input k

variable {env}

section Volumes
variable {R S T : ℕ → Prop} {u v w : Volume} {c x : ℕ}

theorem Mirrored.fatn (h : Mirrored R v w) : w.fatn = v.fatn := by
  obtain ⟨table, bak, root, rfl⟩ := h.volume
  rfl

theorem Mirrored.tableSize (h : Mirrored R v w) : w.tableSize = v.tableSize := by
  obtain ⟨table, bak, root, rfl⟩ := h.volume
  rfl

theorem Mirrored.label (h : Mirrored R v w) : getLabel w = getLabel v := by
  obtain ⟨table, bak, root, rfl⟩ := h.volume
  rfl

theorem mirrored_refl (h : ∀ i, ¬ R i) (v : Volume) : Mirrored R v v :=
  ⟨⟨_, _, _, rfl⟩, rfl, rfl, fun i hi => absurd hi (h i), fun _ _ => ⟨rfl, rfl⟩⟩

theorem Mirrored.trans (h : Mirrored R u v) (k : Mirrored S v w) (hT : ∀ i, T i ↔ R i ∨ S i) :
    Mirrored T u w := by
  have hsame := k.same
  have hkept := k.kept
  rw [h.fatn] at hsame hkept
  refine ⟨?_, k.fatTable.trans h.fatTable, k.fatTableBak.trans h.fatTableBak, fun i hi => ?_,
    fun i hi => ?_⟩
  · obtain ⟨table, bak, root, rfl⟩ := h.volume
    exact k.volume
  · by_cases hS : S i
    · exact hsame i hS
    · rw [(hkept i hS).1, (hkept i hS).2, h.same i (((hT i).mp hi).resolve_right hS)]
  · rw [hT, not_or] at hi
    rw [(hkept i hi.2).1, (hkept i hi.2).2]
    exact h.kept i hi.1

theorem Mirrored.congr (h : Mirrored R v w) (hS : ∀ i, S i ↔ R i) : Mirrored S v w := by
  rwa [show S = R from funext fun i => propext (hS i)]

theorem Mirrored.withRoot (h : Mirrored R v w) (root : Bytes) :
    Mirrored R v { w with rootDir := root } := by
  refine ⟨?_, h.fatTable, h.fatTableBak, h.same, h.kept⟩
  obtain ⟨table, bak, root', rfl⟩ := h.volume
  exact ⟨table, bak, root, rfl⟩

theorem mirrored_of_changeCluster (h : v.changeCluster c x = .ok w) :
    Mirrored (· = v.fatn.index c) v w := by
  rw [v.changeCluster_eq, Volume.store] at h
  split_ifs at h with hc
  rw [← Except.ok.inj h]
  refine ⟨⟨setCell _ _ _ x, setCell _ _ _ x, v.rootDir, rfl⟩, length_setCell x hc.1,
    length_setCell x hc.2, fun i hi => ?_, fun i hi => ?_⟩
  · rw [hi, cell_setCell_self, cell_setCell_self]
  · exact ⟨cell_setCell_of_hasCell x hc.1 (Ne.symm hi), cell_setCell_of_hasCell x hc.2 (Ne.symm hi)⟩

theorem mirrored_of_freeChain {fuel : ℕ} {lines : List Line}
    (h : freeChain fuel v c = .ok (w, lines)) : Mirrored (Visits v c) v w := by
  obtain ⟨t, b, rfl, -, ht, hb⟩ := cleared_of_freeChain h
  exact ⟨⟨t, b, v.rootDir, rfl⟩, ht.length, hb.length,
    fun i hi => (ht.zero i hi).trans (hb.zero i hi).symm,
    fun i hi => ⟨ht.kept i hi, hb.kept i hi⟩⟩

end Volumes

section Commands
variable {s t : Shell} {i : Input}

section Found
variable {x : Except Fault (Option FatDirLayout)} {P : FatDirLayout → Prop} {f : FatDirLayout}

theorem found_iff (hf : x = .ok (some f)) :
    (∃ f, x = .ok (some f) ∧ P f) ↔ P f := by
  refine ⟨?_, fun hk => ⟨f, hf, hk⟩⟩
  rintro ⟨g, hg, hk⟩
  obtain rfl : f = g := Option.some.inj (Except.ok.inj (hf.symm.trans hg))
  exact hk

theorem not_found (hn : x = .ok none) : ¬ ∃ f, x = .ok (some f) ∧ P f := by
  rintro ⟨g, hg, -⟩
  cases hn.symm.trans hg

end Found

section Sessions
variable {fill : ℕ → UInt8} {r r' : Session} {fresh freshParent : FatDirLayout} {dir : Text}
variable {lines : List Line}

theorem mirrored_of_delete (h : delete fill r fresh freshParent dir = .ok (r', lines)) :
    Mirrored (fun k => ∃ f, find fill r.volume r.image fresh (deletePath r dir) = .ok (some f) ∧
      Visits r.volume (r.volume.firstCluster f) k) r.volume r'.volume := by
  rcases delete_cases h with ⟨hn, rfl⟩ | ⟨f, hf, parent, folder, size, w, l, -, hw, hm⟩
  · exact mirrored_refl (fun _ => not_found hn) _
  · obtain ⟨root, hv⟩ := volume_of_markEntries hm
    rw [hv]
    exact ((mirrored_of_freeChain hw).withRoot root).congr fun _ => found_iff hf

theorem mirrored_of_undelete (h : undelete fill r fresh freshParent dir = .ok (r', lines)) :
    Mirrored (fun k => ∃ f, find fill r.volume r.image fresh (undeletePath r dir) = .ok (some f) ∧
      k = r.volume.fatn.index (r.volume.firstCluster f)) r.volume r'.volume := by
  rcases undelete_cases h with ⟨hn, rfl⟩ | ⟨f, hf, parent, folder, size, w, -, hw, hm⟩
  · exact mirrored_refl (fun _ => not_found hn) _
  · obtain ⟨root, hv⟩ := volume_of_markEntries hm
    rw [hv]
    exact ((mirrored_of_changeCluster hw).withRoot root).congr fun _ => found_iff hf

end Sessions

theorem volume_of_perform (hl : ¬ i.command.Leaves) (hm : ¬ i.command.Marks)
    (h : perform env s i = .ok t) : t.volume = s.volume := by
  cases performed_of_perform h with
  | mounted hc => exact absurd (leaves_of_mounts hc) hl
  | left hf => exact absurd (leaves_of_flushes hf) hl
  | looked _ hv _ ht =>
      rw [ht]
      exact hv
  | deleted hc | undeleted hc => exact absurd (by rw [hc]; trivial) hm
  | dumped _ _ ht =>
      rw [ht]
      rfl
  | same _ ht => rw [ht]

theorem not_stores (hm : ¬ i.command.Marks) {k : ℕ} : ¬ Stores env s i k := by
  obtain ⟨c, fresh, freshParent⟩ := i
  cases c with
  | delete | undelete => exact absurd trivial hm
  | _ => exact id

theorem mirrored_of_perform (hl : ¬ i.command.Leaves) (h : perform env s i = .ok t) :
    Mirrored (Stores env s i) s.volume t.volume := by
  by_cases hm : i.command.Marks
  · obtain ⟨c, fresh, freshParent⟩ := i
    cases c with
    | delete dir =>
        obtain ⟨r, hd, rfl⟩ := enter_eq_ok (testWFd_eq_ok h)
        exact mirrored_of_delete hd
    | undelete dir =>
        obtain ⟨r, hd, rfl⟩ := enter_eq_ok (testWFd_eq_ok h)
        exact mirrored_of_undelete hd
    | _ => exact hm.elim
  · rw [volume_of_perform hl hm h]
    exact mirrored_refl (fun _ => not_stores hm) _

theorem kept_of_perform (hl : ¬ i.command.Leaves) (h : perform env s i = .ok t) :
    t.fd = s.fd ∧ t.label = s.label ∧ getLabel t.volume = getLabel s.volume := by
  refine ⟨?_, ?_, (mirrored_of_perform hl h).label⟩ <;>
    cases performed_of_perform h with
    | mounted hc => exact absurd (leaves_of_mounts hc) hl
    | left hf => exact absurd (leaves_of_flushes hf) hl
    | looked _ _ _ ht | deleted _ _ _ ht | undeleted _ _ _ ht | dumped _ _ ht | same _ ht =>
        subst ht
        rfl

theorem not_storedIn_nil {k : ℕ} : ¬ StoredIn env [] k := by simp [StoredIn]

theorem storedIn_snoc {trace : List Done} {k : ℕ} :
    StoredIn env (trace ++ [⟨i, s, t⟩]) k ↔ StoredIn env trace k ∨ Stores env s i k := by
  simp only [StoredIn, List.mem_append, List.mem_singleton, or_and_right, exists_or,
    exists_eq_left]

/-- Along a run the tables agree in what has been stored. -/
theorem mirrored_of_runs {s₀ : Shell} {trace : List Done} (h : Runs env s₀ trace s) :
    Mirrored (StoredIn env trace) s₀.volume s.volume := by
  induction h with
  | start => exact mirrored_refl (fun _ => not_storedIn_nil) _
  | step _ hl ht ih =>
      exact ih.trans (mirrored_of_perform hl (step_running ht)) fun _ => storedIn_snoc

end Commands

section Reports
variable {v w : Volume} {R : ℕ → Prop} {rows : List (ℕ × ℕ × ℕ)}

def row (v : Volume) (i : ℕ) : ℕ × ℕ × ℕ :=
  (i, cell v.fatn.width v.fatTable (v.fatn.index i),
    cell v.fatn.width v.fatTableBak (v.fatn.index i))

/-- The table has both cells of the entry. -/
def HasRow (v : Volume) (i : ℕ) : Prop := HasCells v (v.fatn.index i)

/-- `test_fat` returns where every entry has its cells, and reports those that differ. -/
theorem testFat_eq_ok_iff : testFat v = .ok rows ↔ (∀ i < v.tableSize, HasRow v i) ∧
    rows = ((List.range v.tableSize).map (row v)).filter fun r => r.2.1 ≠ r.2.2 := by
  have hread (i : ℕ) (hi : HasRow v i) : (do
      let x ← v.getCluster i
      let y ← v.getClusterBak i
      Except.ok (i, x, y)) = .ok (row v i) := by
    rw [getCluster_eq, getClusterBak_eq, fetch_of_hasCell hi.1, fetch_of_hasCell hi.2]
    rfl
  have hrows (h : ∀ i < v.tableSize, HasRow v i) := mapM_of_forall
    fun i (hi : i ∈ List.range v.tableSize) => hread i (h i (List.mem_range.mp hi))
  constructor
  · intro h
    have hall : ∀ i < v.tableSize, HasRow v i := by
      intro i hi
      obtain ⟨bs, hbs, -⟩ := bind_eq_ok.mp h
      obtain ⟨b, hb⟩ := exists_of_mapM hbs (List.mem_range.mpr hi)
      obtain ⟨x, hx, hb⟩ := bind_eq_ok.mp hb
      obtain ⟨y, hy, -⟩ := bind_eq_ok.mp hb
      rw [getCluster_eq] at hx
      rw [getClusterBak_eq] at hy
      exact ⟨hasCell_of_fetch hx, hasCell_of_fetch hy⟩
    refine ⟨hall, ?_⟩
    rw [testFat, hrows hall, ok_bind] at h
    exact (Except.ok.inj h).symm
  · rintro ⟨hall, rfl⟩
    rw [testFat, hrows hall, ok_bind]

theorem Mirrored.hasRow (h : Mirrored R v w) {i : ℕ} (hi : HasRow v i) : HasRow w i := by
  rw [HasRow, HasCells, h.fatn, HasCell, HasCell, h.fatTable, h.fatTableBak]
  exact hi

/-- A row that is not in `R` is as before, and one in `R` has equal values. -/
theorem Mirrored.row_cases (h : Mirrored R v w) (i : ℕ) :
    (R (v.fatn.index i) → (row w i).2.1 = (row w i).2.2) ∧
      (¬ R (v.fatn.index i) → row w i = row v i) := by
  have hrow : row w i = (i, cell v.fatn.width w.fatTable (v.fatn.index i),
      cell v.fatn.width w.fatTableBak (v.fatn.index i)) := by
    rw [row, h.fatn]
  refine ⟨fun hi => ?_, fun hi => ?_⟩
  · rw [hrow]
    exact h.same _ hi
  · rw [hrow, (h.kept _ hi).1, (h.kept _ hi).2, row]

open scoped Classical in
theorem Mirrored.filter_rows (h : Mirrored R v w) (l : List ℕ) :
    (l.map (row w)).filter (fun r => r.2.1 ≠ r.2.2) =
      ((l.map (row v)).filter fun r => r.2.1 ≠ r.2.2).filter
        fun r => ¬ R (v.fatn.index r.1) := by
  induction l with
  | nil => rfl
  | cons i l ih =>
      obtain ⟨hin, hout⟩ := h.row_cases i
      have hindex : (row v i).1 = i := rfl
      simp only [List.map_cons, List.filter_cons, ih]
      by_cases hi : R (v.fatn.index i)
      · rw [if_neg (by simpa using hin hi)]
        split_ifs
        · rw [List.filter_cons, if_neg (by simpa [hindex] using hi)]
        · rfl
      · rw [hout hi]
        split_ifs
        · rw [List.filter_cons, if_pos (by simpa [hindex] using hi)]
        · rfl

open scoped Classical in
/-- The entries in `R` are no longer reported, and the others are reported as before. -/
theorem Mirrored.testFat (h : Mirrored R v w) (hv : testFat v = .ok rows) :
    testFat w = .ok (rows.filter fun r => ¬ R (v.fatn.index r.1)) := by
  obtain ⟨hall, rfl⟩ := testFat_eq_ok_iff.mp hv
  refine testFat_eq_ok_iff.mpr ⟨fun i hi => h.hasRow (hall i (h.tableSize ▸ hi)), ?_⟩
  rw [h.tableSize, h.filter_rows]

end Reports

open scoped Classical in
/-- Behind any run `test_fat` reports what it would have reported before, in the same order, but
for the entries that the run has stored. -/
theorem testFat_of_runs {s₀ s : Shell} {trace : List Done} {rows : List (ℕ × ℕ × ℕ)}
    (h : Runs env s₀ trace s) (h₀ : testFat s₀.volume = .ok rows) :
    testFat s.volume =
      .ok (rows.filter fun r => ¬ StoredIn env trace (s₀.volume.fatn.index r.1)) :=
  (mirrored_of_runs h).testFat h₀

section Example
open LeavingVolumes

/-- The volume of `subFileShell` with a second table that differs in the entries 3 and 5. -/
def staleVolume : Volume :=
  { subFileVolume with
    fatTableBak := [0xF8, 0xFF, 0xFF, 0xFF, 0xFF, 0xFF, 3, 0, 0, 0, 7, 0] ++ List.replicate 500 0 }

def staleShell : Shell := { subFileShell with volume := staleVolume }

theorem staleVolume_reported :
    testFat staleVolume = .ok [(3, 0xFFFF, 3), (5, 0, 7)] := by
  decide +kernel

theorem deleteFile_stale : ∃ t, step subFileEnv staleShell deleteFile = .ok (.running t) := by
  obtain ⟨t, ht⟩ := exists_of_isOk
    (show (perform subFileEnv staleShell deleteFile).isOk from by decide +kernel)
  exact ⟨t, by rw [step, ht]; rfl⟩

open scoped Classical in
/-- The report behind the deletion of the file in cluster 3. -/
theorem testFat_behind_deleteFile : ∃ t, step subFileEnv staleShell deleteFile =
      .ok (.running t) ∧
    testFat t.volume = .ok ([(3, 0xFFFF, 3), (5, 0, 7)].filter fun r =>
      ¬ StoredIn subFileEnv [⟨deleteFile, staleShell, t⟩] (staleVolume.fatn.index r.1)) := by
  obtain ⟨t, ht⟩ := deleteFile_stale
  exact ⟨t, ht, testFat_of_runs (.step .start id ht) staleVolume_reported⟩

end Example

end TFAT.MirroredTables
