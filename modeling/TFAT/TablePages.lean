import TFAT.TableDumps

/-!
# How much of the table `fat` shows

`fat` asks before every tenth row and stops at the first answer that is not a `Y`. What it
prints is the first part of the table, ten rows for each answer up to there.
-/
namespace TFAT.TablePages
open LinkedChains LittleEndianWords DiskLayout ClusterTable ShellCommands TableBlocks

/-- The answers in front of the first that is not a `Y`. -/
def agreed (answers : List Bool) : ℕ := (answers.takeWhile id).length

def shownFrom (n i : ℕ) (answers : List Bool) : ℕ :=
  min n ((10 - i % 10) % 10 + 10 * agreed answers)

def pageRow (v : Volume) (i : ℕ) : ℕ × ℕ := (i, cell v.fatn.width v.fatTable (v.fatn.index i))

section Loops
variable {v : Volume} {n i : ℕ} {answers : List Bool} {rows : List (ℕ × ℕ)}

theorem getCluster_eq_ok_iff {x : ℕ} : v.getCluster i = .ok x ↔
    HasCell v.fatn.width v.fatTable (v.fatn.index i) ∧ (i, x) = pageRow v i := by
  rw [getCluster_eq, Volume.fetch, pageRow]
  split_ifs with h
  · simp [h, eq_comm]
  · simp [h]

theorem agreed_cons_true : agreed (true :: answers) = agreed answers + 1 := rfl

theorem agreed_of_head (h : answers.head? ≠ some true) : agreed answers = 0 := by
  cases answers with
  | nil => rfl
  | cons a rest =>
      cases a with
      | true => exact absurd rfl h
      | false => rfl

theorem shownFrom_of_stop (hi : i % 10 = 0) (h : answers.head? ≠ some true) :
    shownFrom n i answers = 0 := by
  rw [shownFrom, agreed_of_head h, hi]
  exact Nat.min_zero _

/-- The row at `i` is shown, and the rest with the answers that remain. -/
theorem shownFrom_succ (h : ¬ (i % 10 = 0 ∧ answers.head? ≠ some true)) :
    shownFrom (n + 1) i answers =
      shownFrom n (i + 1) (if i % 10 = 0 then answers.tail else answers) + 1 := by
  unfold shownFrom
  split_ifs with hi
  · obtain ⟨rest, rfl⟩ : ∃ rest, answers = true :: rest := by
      cases answers with
      | nil => exact absurd ⟨hi, by simp⟩ h
      | cons a rest =>
          cases a with
          | true => exact ⟨rest, rfl⟩
          | false => exact absurd ⟨hi, by simp⟩ h
    rw [agreed_cons_true, List.tail_cons]
    omega
  · omega

theorem fatFrom_eq_ok_iff : fatFrom v n i answers = .ok rows ↔
    (∀ j ∈ List.range' i (shownFrom n i answers),
      HasCell v.fatn.width v.fatTable (v.fatn.index j)) ∧
      rows = (List.range' i (shownFrom n i answers)).map (pageRow v) := by
  induction n generalizing i answers rows with
  | zero => simp [fatFrom, shownFrom, eq_comm]
  | succ n ih =>
      rw [fatFrom]
      by_cases h : i % 10 = 0 ∧ answers.head? ≠ some true
      · rw [if_pos h, shownFrom_of_stop h.1 h.2]
        simp [eq_comm]
      · rw [if_neg h, shownFrom_succ h, List.range'_succ, List.map_cons, List.forall_mem_cons]
        constructor
        · intro hok
          obtain ⟨x, hx, hok⟩ := bind_eq_ok.mp hok
          obtain ⟨rest, hrest, hok⟩ := bind_eq_ok.mp hok
          obtain ⟨hcell, hrow⟩ := getCluster_eq_ok_iff.mp hx
          obtain ⟨hcells, rfl⟩ := ih.mp hrest
          exact ⟨⟨hcell, hcells⟩, by rw [← hrow]; exact (Except.ok.inj hok).symm⟩
        · rintro ⟨⟨hcell, hcells⟩, rfl⟩
          refine bind_eq_ok.mpr ⟨_, getCluster_eq_ok_iff.mpr ⟨hcell, rfl⟩, ?_⟩
          exact bind_eq_ok.mpr ⟨_, ih.mpr ⟨hcells, rfl⟩, rfl⟩

end Loops

/-- `fat` returns where the rows that it shows are in the table. It prints ten rows for each
answer in front of the first that is not a `Y`, from the first row on and as far as the table
goes. -/
theorem fat_eq_ok_iff {v : Volume} {answers : List Bool} {rows : List (ℕ × ℕ)} :
    fat v answers = .ok rows ↔
      (∀ i < min v.tableSize (10 * agreed answers),
        HasCell v.fatn.width v.fatTable (v.fatn.index i)) ∧
      rows = (List.range (min v.tableSize (10 * agreed answers))).map (pageRow v) := by
  have hshown : shownFrom v.tableSize 0 answers = min v.tableSize (10 * agreed answers) := by
    rw [shownFrom]
    omega
  rw [fat, fatFrom_eq_ok_iff, hshown, ← List.range_eq_range']
  simp only [List.mem_range]

end TFAT.TablePages
