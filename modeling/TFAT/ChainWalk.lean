import TFAT.ClusterPlacement

/-!
# Chains recorded in a table and the walks of the program

A table records a chain when each entry names the next cluster and the entry of
the last cluster holds an end mark. The program takes far more values than the
end marks for the end, so its walk visits a recorded chain exactly when no link
of the chain is one of those values. Only links count: a chain may start at any
data cluster.
-/
namespace TFAT.ChainWalk
open LittleEndianWords LinkedChains DiskLayout ClusterTable ClusterPlacement

/-- The most data clusters a volume can have. -/
def maxClusters : Fatn → ℕ
  | .fat16 => 65524
  | .fat32 => 0x0FFFFFF4

/-- The least end-of-chain mark. -/
def endMark : Fatn → ℕ
  | .fat16 => 0xFFF8
  | .fat32 => 0x0FFFFFF8

/-- The part of the entry of a cluster that names a cluster. -/
def entry (v : Volume) (c : ℕ) : ℕ := cell v.fatn.width v.fatTable c % v.fatn.span

/-- The table records the listed clusters as a chain. -/
inductive Recorded (v : Volume) : List ℕ → Prop
  | last {c : ℕ} : endMark v.fatn ≤ entry v c → Recorded v [c]
  | link {c d : ℕ} {l : List ℕ} : entry v c = d → Recorded v (d :: l) →
      Recorded v (c :: d :: l)

/-- A table with an entry for each of the `N` data clusters, and not too many of them. -/
structure Covers (v : Volume) (N : ℕ) : Prop where
  clusters : N ≤ maxClusters v.fatn
  cells : v.fatn.width * (N + 2) ≤ v.fatTable.length

variable {v : Volume} {N c : ℕ} {l : List ℕ}

theorem limit_le_endMark (n : Fatn) : n.limit ≤ endMark n := by
  cases n <;> norm_num [Fatn.limit, endMark]

theorem lt_span_of_isData (h : IsData N c) {n : Fatn} (hN : N ≤ maxClusters n) : c < n.span := by
  have hc := h.2
  cases n <;> norm_num [maxClusters, Fatn.span] at * <;> omega

/-- On a data cluster `next_cluster` is a function of its entry. -/
theorem Covers.nextCluster_eq (hv : Covers v N) (hc : IsData N c) :
    v.nextCluster c = .ok (if v.fatn.limit ≤ entry v c then 0 else entry v c) := by
  have hi := v.fatn.index_of_lt (lt_span_of_isData hc hv.clusters)
  have hcell : HasCell v.fatn.width v.fatTable c := by
    have hm := Nat.mul_le_mul_left v.fatn.width (show c + 1 ≤ N + 2 from hc.2)
    rw [Nat.mul_succ] at hm
    exact hm.trans hv.cells
  rw [Volume.nextCluster_eq, hi, if_pos hcell]
  rfl

theorem Recorded.chain (h : Recorded v (c :: l)) (hv : Covers v N)
    (hd : ∀ x ∈ c :: l, IsData N x) (hl : ∀ x ∈ l, x < v.fatn.limit) :
    v.Chain c (c :: l) := by
  induction l generalizing c with
  | nil =>
      have hc := hd c (by simp)
      have hn := hv.nextCluster_eq hc
      cases h with
      | last he =>
          rw [if_pos ((limit_le_endMark _).trans he)] at hn
          exact .step (by have := hc.1; omega) hn .stop
  | cons d l ih =>
      have hc := hd c (by simp)
      have hn := hv.nextCluster_eq hc
      cases h with
      | link he h =>
          rw [he, if_neg (by have := hl d (by simp); omega)] at hn
          exact .step (by have := hc.1; omega) hn
            (ih h (fun x hx => hd x (by simp [hx])) (fun x hx => hl x (by simp [hx])))

theorem Recorded.lt_limit (h : Recorded v (c :: l)) (hv : Covers v N)
    (hd : ∀ x ∈ c :: l, IsData N x) (hw : v.Chain c (c :: l)) : ∀ x ∈ l, x < v.fatn.limit := by
  induction l generalizing c with
  | nil => simp
  | cons d l ih =>
      have hn := hv.nextCluster_eq (hd c (by simp))
      have hd₂ := (hd d (by simp)).1
      cases h with
      | link he h =>
          cases hw with
          | step _ hs hw =>
              rw [he, hs, Except.ok.injEq] at hn
              have hhead : v.Chain d (d :: l) := by
                cases hw with
                | step hne hd' hw => exact .step hne hd' hw
              intro x hx
              rcases List.mem_cons.mp hx with rfl | hx
              · cases hw with
                | step _ _ _ =>
                    split_ifs at hn <;> omega
              · exact ih h (fun x hx => hd x (by simp [hx])) hhead x hx

/-- The walk of the program visits exactly the recorded chain just when no link
of the chain is a value that the program takes for the end. -/
theorem clusters_eq_recorded_iff (hv : Covers v N) (h : Recorded v (c :: l))
    (hd : ∀ x ∈ c :: l, IsData N x) :
    v.clusters c = .ok (c :: l) ↔ ∀ x ∈ l, x < v.fatn.limit := by
  rw [Volume.clusters_eq_ok_iff]
  exact ⟨h.lt_limit hv hd, h.chain hv hd⟩

/-- A FAT16 volume with 61441 data clusters on which cluster 2 is followed by `d`. -/
def linkedVolume (d : ℕ) : Volume where
  fatn := .fat16
  boot := ⟨512, 1, 1, 2, 512, 61986, 0xF8, 256, 0⟩
  boot16 := ⟨[]⟩
  boot32 := ⟨0, 0, 0, []⟩
  fatTable := setCell 2 (setCell 2 (List.replicate 131072 0) 2 d) d 0xFFFF
  fatTableBak := List.replicate 131072 0
  dataOffset := 279040
  rootDir := List.replicate 16384 0

theorem linkedVolume_limit (d : ℕ) : (linkedVolume d).fatn.limit = 0xF000 := rfl

theorem linkedVolume_covers {d : ℕ} (h : d < 65536) : Covers (linkedVolume d) 61441 := by
  have hd : HasCell 2 (List.replicate 131072 (0 : UInt8)) d := by
    rw [HasCell, List.length_replicate]
    omega
  have h₂ : HasCell 2 (List.replicate 131072 (0 : UInt8)) 2 := by
    rw [HasCell, List.length_replicate]
    norm_num
  have hn : (linkedVolume d).fatn = .fat16 := rfl
  have hl : (linkedVolume d).fatTable.length = 131072 := by
    rw [linkedVolume, length_setCell _ ((hasCell_setCell _ h₂ d).mpr hd), length_setCell _ h₂,
      List.length_replicate]
  refine ⟨?_, ?_⟩
  · rw [hn, maxClusters]
    norm_num
  · rw [hl, hn, Fatn.width]
    norm_num

theorem linkedVolume_recorded {d : ℕ} (h₂ : 2 < d) (h : d < 65536) :
    Recorded (linkedVolume d) [2, d] := by
  have hc : HasCell 2 (setCell 2 (List.replicate 131072 (0 : UInt8)) 2 d) 2 := by
    have h₀ : HasCell 2 (List.replicate 131072 (0 : UInt8)) 2 := by
      rw [HasCell, List.length_replicate]
      norm_num
    exact (hasCell_setCell _ h₀ 2).mpr h₀
  refine .link ?_ (.last ?_)
  · change cell 2 (setCell 2 (setCell 2 (List.replicate 131072 0) 2 d) d 0xFFFF) 2 % 2 ^ 16 = d
    rw [cell_setCell_ne _ hc (by omega), cell_setCell_self]
    omega
  · change 0xFFF8 ≤ cell 2 (setCell 2 (setCell 2 (List.replicate 131072 0) 2 d) d 0xFFFF) d % 2 ^ 16
    rw [cell_setCell_self]
    norm_num

/-- A legal link to cluster `0xF000` ends the walk of the program. -/
theorem linkedVolume_cut : Covers (linkedVolume 0xF000) 61441 ∧
    Recorded (linkedVolume 0xF000) [2, 0xF000] ∧ (∀ x ∈ [2, 0xF000], IsData 61441 x) ∧
    (linkedVolume 0xF000).clusters 2 ≠ .ok [2, 0xF000] := by
  have hv : Covers (linkedVolume 0xF000) 61441 := linkedVolume_covers (by norm_num)
  have hr : Recorded (linkedVolume 0xF000) [2, 0xF000] :=
    linkedVolume_recorded (by norm_num) (by norm_num)
  have hd : ∀ x ∈ [2, 0xF000], IsData 61441 x := by
    simp [IsData]
  refine ⟨hv, hr, hd, fun hw => ?_⟩
  have hlt := hr.lt_limit hv hd ((linkedVolume 0xF000).clusters_eq_ok_iff.mp hw) 0xF000 (by simp)
  rw [linkedVolume_limit] at hlt
  exact absurd hlt (lt_irrefl _)

/-- The link to the cluster before it is followed. -/
theorem linkedVolume_visited : (linkedVolume 0xEFFF).clusters 2 = .ok [2, 0xEFFF] :=
  (clusters_eq_recorded_iff (linkedVolume_covers (by norm_num))
    (linkedVolume_recorded (by norm_num) (by norm_num)) (by simp [IsData])).mpr
    (by
      rw [linkedVolume_limit]
      simp)

end TFAT.ChainWalk
