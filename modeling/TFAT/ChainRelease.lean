import TFAT.UserCommands
import TFAT.VolumeTree

/-!
# What storing into the tables does to chains

`change_cluster` replaces one link, and the loop of `delete` unlinks what the
walk from a cluster visits. The loop reads each link before it clears it, so it
ends on a cycle as well, and it clears just the clusters that the walk would
have come to before.
-/
namespace TFAT.ChainRelease
open LittleEndianWords LinkedChains DiskLayout ClusterTable UserCommands VolumeTree

def retable (v : Volume) (t b : Bytes) : Volume := { v with fatTable := t, fatTableBak := b }

/-- The walk from `c` comes to the table entry of `y`. -/
def Hit (v : Volume) (c y : ℕ) : Prop :=
  ∃ x, Reaches v.nextCluster 0 c x ∧ v.fatn.index x = v.fatn.index y

/-- The table entries of the clusters in `Z` hold `x`, and the others are as before. -/
structure Restored (v : Volume) (Z : ℕ → Prop) (x : ℕ) (t : Bytes) : Prop where
  length : t.length = v.fatTable.length
  stored : ∀ y, Z y → HasCell v.fatn.width v.fatTable (v.fatn.index y) ∧
    cell v.fatn.width t (v.fatn.index y) = x
  kept : ∀ y, ¬ Z y →
    cell v.fatn.width t (v.fatn.index y) = cell v.fatn.width v.fatTable (v.fatn.index y)

section Changing
variable {v w : Volume} {c x : ℕ}

theorem of_changeCluster (h : v.changeCluster c x = .ok w) :
    ∃ t b, w = retable v t b ∧
      Restored v (fun y => v.fatn.index y = v.fatn.index c) (x % 256 ^ v.fatn.width) t := by
  rw [v.changeCluster_eq, Volume.store] at h
  split_ifs at h with hc
  refine ⟨_, _, (Except.ok.inj h).symm, length_setCell x hc.1, fun y hy => ?_, fun y hy => ?_⟩
  · rw [hy]
    exact ⟨hc.1, cell_setCell_self _ _ _ _⟩
  · exact cell_setCell_of_hasCell x hc.1 fun he => hy he.symm

variable {Z : ℕ → Prop} {t b : Bytes}

theorem Restored.nextCluster (h : Restored v Z x t) {y : ℕ} (hy : Z y) :
    (retable v t b).nextCluster y = .ok (v.fatn.link x) := by
  obtain ⟨hc, hx⟩ := h.stored y hy
  rw [Volume.nextCluster_ok_iff]
  refine ⟨?_, ?_⟩
  · change HasCell v.fatn.width t _
    rw [HasCell, h.length]
    exact hc
  · exact congrArg v.fatn.link hx.symm

theorem Restored.nextCluster_of_not (h : Restored v Z x t) {y : ℕ} (hy : ¬ Z y) :
    (retable v t b).nextCluster y = v.nextCluster y := by
  have hc : HasCell v.fatn.width t (v.fatn.index y) ↔
      HasCell v.fatn.width v.fatTable (v.fatn.index y) := by rw [HasCell, h.length, HasCell]
  rw [Volume.nextCluster_eq, Volume.nextCluster_eq]
  change (if HasCell v.fatn.width t (v.fatn.index y) then
    Except.ok (v.fatn.link (cell v.fatn.width t (v.fatn.index y))) else _) = _
  by_cases hy' : HasCell v.fatn.width v.fatTable (v.fatn.index y)
  · rw [if_pos hy', if_pos (hc.mpr hy'), h.kept y hy]
  · rw [if_neg hy', if_neg (mt hc.mp hy')]

end Changing

/-- The table entries with the indices in `R` are zero, and the others are as before. -/
structure Cleared (w : ℕ) (R : ℕ → Prop) (t t' : Bytes) : Prop where
  length : t'.length = t.length
  zero : ∀ i, R i → cell w t' i = 0
  kept : ∀ i, ¬ R i → cell w t' i = cell w t i

section Clearing
variable {w i j : ℕ} {R S T : ℕ → Prop} {t t₁ t₂ : Bytes}

theorem cleared_setCell (h : HasCell w t j) : Cleared w (· = j) t (setCell w t j 0) := by
  refine ⟨length_setCell 0 h, fun i hi => ?_, fun i hi => ?_⟩
  · rw [hi, cell_setCell_self, Nat.zero_mod]
  · exact cell_setCell_of_hasCell 0 h (Ne.symm hi)

theorem Cleared.trans (h : Cleared w R t t₁) (k : Cleared w S t₁ t₂)
    (hT : ∀ i, T i ↔ R i ∨ S i) : Cleared w T t t₂ := by
  refine ⟨k.length.trans h.length, fun i hi => ?_, fun i hi => ?_⟩
  · by_cases hS : S i
    · exact k.zero i hS
    · rw [k.kept i hS, h.zero i (((hT i).mp hi).resolve_right hS)]
  · rw [hT, not_or] at hi
    rw [k.kept i hi.2, h.kept i hi.1]

end Clearing

/-- The walk from `c` comes to the table entry with the index `i`. -/
def Visits (v : Volume) (c i : ℕ) : Prop :=
  ∃ x, Reaches v.nextCluster 0 c x ∧ v.fatn.index x = i

section Freeing
variable {v w : Volume} {c d i fuel : ℕ} {t b : Bytes} {lines : List Line}

/-- Behind the first entry, the walk of the shortened chain comes to the other entries. -/
theorem visits_iff_of_cut (hc : c ≠ 0) (hd : v.nextCluster c = .ok d)
    (h : Restored v (fun y => v.fatn.index y = v.fatn.index c) 0 t) :
    Visits v c i ↔ i = v.fatn.index c ∨ Visits (retable v t b) d i := by
  have hclass (y : ℕ) (hy : v.fatn.index y = v.fatn.index c) : v.nextCluster y = .ok d := by
    rw [Volume.nextCluster_eq] at hd ⊢
    rw [hy]
    exact hd
  have hcut (y : ℕ) (hy : v.fatn.index y = v.fatn.index c) :
      (retable v t b).nextCluster y = .ok 0 := by
    rw [h.nextCluster hy, v.fatn.link_zero]
  have hrest (y : ℕ) (hy : ¬ v.fatn.index y = v.fatn.index c) :
      (retable v t b).nextCluster y = v.nextCluster y := h.nextCluster_of_not hy
  constructor
  · rintro ⟨x, hx, rfl⟩
    rcases hx.around_cut hclass hrest with hx | hx | hx
    · exact .inl hx
    · cases hx with
      | here _ => exact .inl rfl
      | later _ hd' hr =>
          rw [hcut c rfl, Except.ok.injEq] at hd'
          exact absurd hd'.symm hr.ne_stop
    · exact .inr ⟨x, hx, rfl⟩
  · rintro (rfl | ⟨x, hx, rfl⟩)
    · exact ⟨c, .here hc, rfl⟩
    · exact ⟨x, .later hc hd (hx.before_cut hcut hrest), rfl⟩

theorem freeChain_succ (hc : c ≠ 0) : freeChain (fuel + 1) v c = .ok (w, lines) ↔
    ∃ d u rest, v.nextCluster c = .ok d ∧ v.changeCluster c 0 = .ok u ∧
      freeChain fuel u d = .ok (w, rest) ∧ lines = .makeZero (c % 2 ^ 16) :: rest := by
  rw [freeChain, if_neg hc]
  simp only [bind_eq_ok, Except.ok.injEq, Prod.mk.injEq, Prod.exists]
  constructor
  · rintro ⟨d, hd, u, hu, w', rest, hw, rfl, rfl⟩
    exact ⟨d, u, rest, hd, hu, hw, rfl⟩
  · rintro ⟨d, u, rest, hd, hu, hw, rfl⟩
    exact ⟨d, hd, u, hu, w, rest, hw, rfl, rfl⟩

/-- The loop of `delete` clears the entries that the walk comes to, in both tables. -/
theorem cleared_of_freeChain (h : freeChain fuel v c = .ok (w, lines)) :
    ∃ t b, w = retable v t b ∧
      (∀ i, Visits v c i → HasCell v.fatn.width v.fatTable i ∧
        HasCell v.fatn.width v.fatTableBak i) ∧
      Cleared v.fatn.width (Visits v c) v.fatTable t ∧
      Cleared v.fatn.width (Visits v c) v.fatTableBak b := by
  induction fuel generalizing v c lines with
  | zero => simp [freeChain] at h
  | succ fuel ih =>
      by_cases hc : c = 0
      · have hnone (i : ℕ) : ¬ Visits v c i := by
          rintro ⟨x, hx, -⟩
          exact hx.ne_stop hc
        rw [freeChain, if_pos hc, Except.ok.injEq, Prod.mk.injEq] at h
        exact ⟨_, _, h.1.symm, fun i hi => absurd hi (hnone i),
          ⟨rfl, fun i hi => absurd hi (hnone i), fun _ _ => rfl⟩,
          ⟨rfl, fun i hi => absurd hi (hnone i), fun _ _ => rfl⟩⟩
      · obtain ⟨d, u, rest, hd, hu, hw, -⟩ := (freeChain_succ hc).mp h
        obtain ⟨t', b', hu', hrest⟩ := of_changeCluster hu
        rw [Nat.zero_mod] at hrest
        rw [v.changeCluster_eq, Volume.store] at hu
        split_ifs at hu with hcell
        obtain rfl := Except.ok.inj hu
        obtain ⟨t, b, rfl, hin, ht, hb⟩ := ih hw
        have hvisits (i : ℕ) := visits_iff_of_cut (i := i) (b := b') hc hd hrest
        rw [← hu'] at hvisits
        refine ⟨t, b, rfl, fun i hi => ?_, (cleared_setCell hcell.1).trans ht hvisits,
          (cleared_setCell hcell.2).trans hb hvisits⟩
        rcases (hvisits i).mp hi with rfl | hi
        · exact hcell
        · rw [← hasCell_setCell 0 hcell.1, ← hasCell_setCell 0 hcell.2]
          exact hin i hi

theorem of_freeChain (h : freeChain fuel v c = .ok (w, lines)) :
    ∃ t b, w = retable v t b ∧ Restored v (Hit v c) 0 t := by
  obtain ⟨t, b, rfl, hin, ht, -⟩ := cleared_of_freeChain h
  exact ⟨t, b, rfl, ht.length, fun y hy => ⟨(hin _ hy).1, ht.zero _ hy⟩, fun y hy => ht.kept _ hy⟩

end Freeing

end TFAT.ChainRelease
