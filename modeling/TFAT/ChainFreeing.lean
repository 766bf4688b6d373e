import TFAT.ChainRelease

/-!
# The loop that frees a chain ends

The loop of `delete` clears each link behind it, so it never follows a link twice, and
each round but the last two takes one nonzero entry away. It ends on every table whose
links stay inside the table, also where the chain comes back to itself, and what it has
cleared is what the walk from the first cluster would have come to.
-/
namespace TFAT.ChainFreeing
open ByteRegions LittleEndianWords LinkedChains DiskLayout ClusterTable UserCommands
open VolumeTree ChainRelease

def nonzero (v : Volume) : Finset ℕ :=
  (Finset.range v.fatTable.length).filter fun i => cell v.fatn.width v.fatTable i ≠ 0

/-- The links from `c` on stay inside: every entry that the walk comes to, that of `c` in
front, lies in both tables. -/
def StaysInside (v : Volume) (c : ℕ) : Prop :=
  ∀ i, Visits v c i → HasCell v.fatn.width v.fatTable i ∧ HasCell v.fatn.width v.fatTableBak i

variable {v : Volume} {c d i fuel : ℕ} {t b : Bytes}

theorem card_nonzero_le (v : Volume) : (nonzero v).card ≤ v.fatTable.length :=
  (Finset.card_filter_le _ _).trans (Finset.card_range _).le

theorem card_nonzero_lt (h : HasCell v.fatn.width v.fatTable i)
    (hne : cell v.fatn.width v.fatTable i ≠ 0) :
    (nonzero (retable v (setCell v.fatn.width v.fatTable i 0) b)).card < (nonzero v).card := by
  have hclear := cleared_setCell h
  apply Finset.card_lt_card
  refine Finset.ssubset_iff_of_subset (fun j hj => ?_) |>.mpr ⟨i, ?_, ?_⟩
  · rw [nonzero, Finset.mem_filter, Finset.mem_range] at hj ⊢
    obtain ⟨hlt, hj⟩ := hj
    change j < (setCell v.fatn.width v.fatTable i 0).length at hlt
    change cell v.fatn.width (setCell v.fatn.width v.fatTable i 0) j ≠ 0 at hj
    have hij : ¬ j = i := fun he => hj (hclear.zero j he)
    rw [hclear.length] at hlt
    rw [hclear.kept j hij] at hj
    exact ⟨hlt, hj⟩
  · exact Finset.mem_filter.mpr ⟨Finset.mem_range.mpr (h.lt_length v.fatn.width_pos), hne⟩
  · intro hi
    exact (Finset.mem_filter.mp hi).2 (hclear.zero i rfl)

/-- A round of the loop leads to a walk that stays inside the shorter tables. -/
theorem exists_round (hin : StaysInside v c) (hc : c ≠ 0) : ∃ d u,
    v.nextCluster c = .ok d ∧ v.changeCluster c 0 = .ok u ∧ StaysInside u d ∧
      ((nonzero u).card < (nonzero v).card ∨ d = 0) := by
  obtain ⟨hcell, hbak⟩ := hin (v.fatn.index c) ⟨c, .here hc, rfl⟩
  have hd : v.nextCluster c =
      .ok (v.fatn.link (cell v.fatn.width v.fatTable (v.fatn.index c))) :=
    v.nextCluster_ok_iff.mpr ⟨hcell, rfl⟩
  have hu := v.changeCluster_of_hasCell 0 hcell hbak
  obtain ⟨t, b, htb, hrest⟩ := of_changeCluster hu
  rw [Nat.zero_mod] at hrest
  refine ⟨_, _, hd, hu, fun i hi => ?_, ?_⟩
  · have hi' := hin i ((visits_iff_of_cut (b := b) hc hd hrest).mpr (.inr (htb ▸ hi)))
    exact ⟨(hasCell_setCell 0 hcell i).mpr hi'.1, (hasCell_setCell 0 hbak i).mpr hi'.2⟩
  · by_cases hzero : cell v.fatn.width v.fatTable (v.fatn.index c) = 0
    · rw [hzero, v.fatn.link_zero]
      exact .inr rfl
    · exact .inl (card_nonzero_lt hcell hzero)

/-- The loop ends within two rounds more than there are nonzero entries. -/
theorem freeChain_returns (hin : StaysInside v c) (hf : (nonzero v).card + 2 ≤ fuel) :
    ∃ r, freeChain fuel v c = .ok r := by
  induction fuel generalizing v c with
  | zero => exact absurd hf (by omega)
  | succ fuel ih =>
      by_cases hc : c = 0
      · exact ⟨(v, []), by rw [freeChain, if_pos hc]⟩
      · obtain ⟨d, u, hd, hu, hin', hless⟩ := exists_round hin hc
        obtain ⟨⟨w, lines⟩, hw⟩ : ∃ r, freeChain fuel u d = .ok r := by
          rcases hless with hlt | rfl
          · exact ih hin' (by omega)
          · cases fuel with
            | zero => exact absurd hf (by omega)
            | succ fuel => exact ⟨(u, []), by rw [freeChain, if_pos rfl]⟩
        exact ⟨_, (freeChain_succ hc).mpr ⟨d, u, lines, hd, hu, hw, rfl⟩⟩

theorem exists_freeChain (hin : StaysInside v c) :
    ∃ t b lines, freeChain v.fuel v c = .ok (retable v t b, lines) ∧
      Cleared v.fatn.width (Visits v c) v.fatTable t ∧
      Cleared v.fatn.width (Visits v c) v.fatTableBak b := by
  have hcard := card_nonzero_le v
  obtain ⟨⟨w, lines⟩, hw⟩ := freeChain_returns hin
    (show (nonzero v).card + 2 ≤ v.fuel by rw [Volume.fuel]; omega)
  obtain ⟨t, b, rfl, -, ht, hb⟩ := cleared_of_freeChain hw
  exact ⟨t, b, lines, hw, ht, hb⟩

/-- On tables whose links stay inside, the loop of `delete` ends, and the entries that it
has cleared in both tables are those of the clusters that the walk from the first cluster
comes to in the table as it was. -/
theorem freeChain_clears (hin : StaysInside v c) :
    ∃ w lines, freeChain v.fuel v c = .ok (w, lines) ∧
      w = retable v w.fatTable w.fatTableBak ∧
      Cleared v.fatn.width (Visits v c) v.fatTable w.fatTable ∧
      Cleared v.fatn.width (Visits v c) v.fatTableBak w.fatTableBak := by
  obtain ⟨t, b, lines, hw, ht, hb⟩ := exists_freeChain hin
  exact ⟨_, lines, hw, rfl, ht, hb⟩

/-- A FAT16 volume on which the chain of cluster 2 comes back to cluster 3. -/
def rhoVolume : Volume where
  fatn := .fat16
  boot := ⟨512, 1, 1, 2, 16, 40000, 0xF8, 1, 0⟩
  boot16 := ⟨[]⟩
  boot32 := ⟨0, 0, 0, []⟩
  fatTable := [0xF8, 0xFF, 0xFF, 0xFF, 3, 0, 4, 0, 3, 0] ++ List.replicate 502 0
  fatTableBak := [0xF8, 0xFF, 0xFF, 0xFF, 3, 0, 4, 0, 3, 0] ++ List.replicate 502 0
  dataOffset := 2048
  rootDir := List.replicate 512 0

theorem rhoVolume_hasCell {i : ℕ} (h : i ≤ 4) : HasCell 2 rhoVolume.fatTable i := by
  have hl : rhoVolume.fatTable.length = 512 := by
    rw [rhoVolume, List.length_append, List.length_replicate]
    rfl
  rw [HasCell, hl]
  omega

theorem rhoVolume_links : rhoVolume.nextCluster 2 = .ok 3 ∧ rhoVolume.nextCluster 3 = .ok 4 ∧
    rhoVolume.nextCluster 4 = .ok 3 := by
  refine ⟨?_, ?_, ?_⟩ <;>
    exact rhoVolume.nextCluster_ok_iff.mpr ⟨rhoVolume_hasCell (by decide), by decide⟩

theorem rhoVolume_staysInside : StaysInside rhoVolume 2 := by
  obtain ⟨h₂, h₃, h₄⟩ := rhoVolume_links
  rintro i ⟨x, hx, rfl⟩
  have hmem : x ∈ [2, 3, 4] := by
    refine hx.closed (S := (· ∈ [2, 3, 4])) (by simp) fun y d hy hd _ => ?_
    simp only [List.mem_cons, List.not_mem_nil, or_false] at hy ⊢
    rcases hy with rfl | rfl | rfl
    · exact .inr (.inl (Except.ok.inj (hd.symm.trans h₂)))
    · exact .inr (.inr (Except.ok.inj (hd.symm.trans h₃)))
    · exact .inr (.inl (Except.ok.inj (hd.symm.trans h₄)))
  have hle : x % 2 ^ 16 ≤ 4 := by
    simp only [List.mem_cons, List.not_mem_nil, or_false] at hmem
    omega
  exact ⟨rhoVolume_hasCell hle, rhoVolume_hasCell hle⟩

/-- On a chain that comes back to itself the loop ends and clears its three entries. -/
theorem rhoVolume_cleared : ∃ w lines, freeChain rhoVolume.fuel rhoVolume 2 = .ok (w, lines) ∧
    ∀ i ∈ [2, 3, 4], cell 2 w.fatTable i = 0 ∧ cell 2 w.fatTableBak i = 0 := by
  obtain ⟨w, lines, hw, -, ht, hb⟩ := freeChain_clears rhoVolume_staysInside
  obtain ⟨h₂, h₃, h₄⟩ := rhoVolume_links
  have hr₂ : Reaches rhoVolume.nextCluster 0 2 2 := .here (by norm_num)
  have hr₃ : Reaches rhoVolume.nextCluster 0 2 3 :=
    .later (by norm_num) h₂ (.here (by norm_num))
  have hr₄ : Reaches rhoVolume.nextCluster 0 2 4 :=
    hr₃.trans (.later (by norm_num) h₃ (.here (by norm_num)))
  have hvisits : ∀ i ∈ [2, 3, 4], Visits rhoVolume 2 i := by
    intro i hi
    simp only [List.mem_cons, List.not_mem_nil, or_false] at hi
    rcases hi with rfl | rfl | rfl
    · exact ⟨2, hr₂, rfl⟩
    · exact ⟨3, hr₃, rfl⟩
    · exact ⟨4, hr₄, rfl⟩
  exact ⟨w, lines, hw, fun i hi => ⟨ht.zero i (hvisits i hi), hb.zero i (hvisits i hi)⟩⟩

end TFAT.ChainFreeing
