import TFAT.FileDumps

/-!
# How much of a file comes back

`delete` clears the table entries of the whole chain of a file and keeps the size in
the entry. `undelete` makes the first cluster the end of a chain and looks for no
other, so the file that comes back has one cluster whatever its size says. It is
whole exactly when it fits into that cluster.
-/
namespace TFAT.UndeletedChains
open ByteRegions LittleEndianWords LinkedChains DiskLayout ClusterTable FileDescriptor
open DirectoryIO PathText PathResolution LongNames UserCommands VolumeTree ChainRelease
open UndeleteSafety FileDumps Fat16Flush

/-- The number of clusters of `B` bytes that `size` bytes need, which is
`ceil(size / B)`. -/
def needed (B size : ℕ) : ℕ := (size + B - 1) / B

/-- The chain of an entry has as many clusters as its size needs, and wherever the entry
is found `dump` prints as many bytes as the size says, which are those of the chain. -/
def Consistent (s : Session) (e : FatDirLayout) : Prop :=
  ∃ l, s.volume.Chain (s.volume.firstCluster e) l ∧
    l.length = needed (clusterBytes s.volume.boot) e.fileSize ∧
    ∀ fill fresh path,
      find fill s.volume s.image fresh (addressConvertor s.currentPath (some path)).text =
        .ok (some e) →
      ∃ text, Shows (dump fill s fresh path) s
          (addressConvertor s.currentPath (some path)).text e text ∧
        text.length = e.fileSize ∧
        ((∀ c ∈ l, InImage s.volume s.image c) → text = fileBytes s e l)

/-- The entry has bytes and its first cluster holds them all, or it has neither bytes nor
a cluster. -/
def FitsFirst (v : Volume) (e : FatDirLayout) : Prop :=
  (v.firstCluster e ≠ 0 ∧ 0 < e.fileSize ∧ e.fileSize ≤ clusterBytes v.boot) ∨
    (v.firstCluster e = 0 ∧ e.fileSize = 0)

section Needed
variable {B size : ℕ}

theorem needed_eq_zero_iff (hB : 0 < B) : needed B size = 0 ↔ size = 0 := by
  rw [needed, Nat.div_eq_zero_iff]
  omega

theorem needed_eq_one_iff (hB : 0 < B) : needed B size = 1 ↔ 0 < size ∧ size ≤ B := by
  rw [needed, Nat.div_eq_iff hB]
  omega

theorem needed_bounds (hB : 0 < B) :
    size ≤ needed B size * B ∧ (needed B size - 1) * B ≤ size := by
  have hdiv := Nat.div_add_mod (size + B - 1) B
  have hmod := Nat.mod_lt (size + B - 1) hB
  rw [needed, Nat.sub_mul, Nat.one_mul, Nat.mul_comm]
  omega

end Needed

section Proof
variable {fill : ℕ → UInt8} {s s' : Session} {fresh freshParent e f : FatDirLayout}
variable {dir : Text} {lines : List Line} {l : List ℕ}

/-- A chain of the right length makes the entry consistent. -/
theorem consistent_of_length (hB : 0 < clusterBytes s.volume.boot)
    (hl : s.volume.Chain (s.volume.firstCluster e) l)
    (hlen : l.length = needed (clusterBytes s.volume.boot) e.fileSize) : Consistent s e := by
  obtain ⟨hall, hlast⟩ : e.fileSize ≤ needed (clusterBytes s.volume.boot) e.fileSize *
      clusterBytes s.volume.boot ∧ (needed (clusterBytes s.volume.boot) e.fileSize - 1) *
      clusterBytes s.volume.boot ≤ e.fileSize := needed_bounds hB
  rw [← hlen] at hall hlast
  refine ⟨l, hl, hlen, fun fill fresh path hf => ?_⟩
  have hblocks : ∀ b ∈ l.map (loaded fill s.volume s.image),
      b.length = clusterBytes s.volume.boot := by
    intro b hb
    obtain ⟨c, -, rfl⟩ := List.mem_map.mp hb
    exact length_loaded c
  have hends : EndsInLast (clusterBytes s.volume.boot) e.fileSize
      (l.map (loaded fill s.volume s.image)).length := .inl (by rwa [List.length_map])
  refine ⟨_, ⟨_, dumpWith_eq_printed .chars hf hl, rfl⟩, ?_, fun hi => ?_⟩
  · rw [between, printed_eq_take hblocks hends, List.length_take, length_flatten_loaded]
    exact Nat.min_eq_left hall
  · rw [between, printed_eq_take hblocks hends, map_loaded hi, fileBytes_eq hi]

/-- The chain of the entry found is its first cluster alone, when it has one. -/
theorem chain_of_undelete
    (hf : find fill s.volume s.image fresh (undeletePath s dir) = .ok (some f))
    (h : undelete fill s fresh freshParent dir = .ok (s', lines)) :
    s'.volume.boot = s.volume.boot ∧
      s'.volume.firstCluster (f.setNameHead (fixDeletedChar dir).2) = s.volume.firstCluster f ∧
      s'.volume.Chain (s.volume.firstCluster f)
        (if s.volume.firstCluster f = 0 then [] else [s.volume.firstCluster f]) := by
  obtain ⟨t, k, parent, folder, size, hZ, -, hm⟩ := of_undelete hf h
  obtain ⟨r, hr⟩ := volume_of_markEntries hm
  rw [hr]
  refine ⟨rfl, firstCluster_setNameHead _ _ _, ?_⟩
  split_ifs with hc
  · rw [hc]
    exact .stop
  · refine .step hc ?_ .stop
    rw [← link_endMark s.volume]
    have hnext : (retable s.volume t k).nextCluster (s.volume.firstCluster f) =
        .ok (s.volume.fatn.link (endMark s.volume)) := hZ.nextCluster rfl
    exact hnext

end Proof

/-- The entry that `undelete` brings back is consistent exactly when it has bytes and they
fit into its first cluster, or when it has neither bytes nor a cluster. -/
theorem undelete_consistent_iff {fill : ℕ → UInt8} {s s' : Session}
    {fresh freshParent f : FatDirLayout} {dir : Text} {lines : List Line}
    (hB : 0 < clusterBytes s.volume.boot)
    (hf : find fill s.volume s.image fresh (undeletePath s dir) = .ok (some f))
    (h : undelete fill s fresh freshParent dir = .ok (s', lines)) :
    Consistent s' (f.setNameHead (fixDeletedChar dir).2) ↔ FitsFirst s.volume f := by
  obtain ⟨hboot, hfirst, hchain⟩ := chain_of_undelete hf h
  have hlen : (if s.volume.firstCluster f = 0 then [] else [s.volume.firstCluster f]).length =
      needed (clusterBytes s.volume.boot) f.fileSize ↔ FitsFirst s.volume f := by
    split_ifs with hc
    · rw [List.length_nil, eq_comm, needed_eq_zero_iff hB]
      simp [FitsFirst, hc]
    · rw [List.length_singleton, eq_comm, needed_eq_one_iff hB]
      simp [FitsFirst, hc]
  rw [← hlen]
  constructor
  · rintro ⟨l, hl, hneed, -⟩
    rw [hfirst] at hl
    rw [hchain.unique hl, hneed, hboot, fileSize_setNameHead]
  · intro hneed
    rw [← hfirst] at hchain
    refine consistent_of_length (hboot ▸ hB) hchain ?_
    rw [hfirst, hneed, hboot, fileSize_setNameHead]

def wideT (b : UInt8) : FatDirLayout where
  bytes := [b, 0x42] ++ List.replicate 6 0x20 ++ [0x54, 0x20, 0x20, 0x20] ++
    List.replicate 14 0 ++ [2, 0, 0x58, 2, 0, 0]
  length_bytes := by simp [entrySize]

def wideVolume : Volume :=
  { lostVolume with rootDir := (wideT 0x4C).bytes ++ List.replicate 480 0 }

def wideImage : Bytes :=
  wideVolume.boot.toBytes ++ List.replicate 476 0 ++ wideVolume.fatTable ++
    wideVolume.fatTable ++ wideVolume.rootDir ++ List.replicate 1536 0

def wideSession : Session := ⟨wideVolume, wideImage, [slash], .initial⟩

theorem wideVolume_plain : Plain16 wideVolume := by
  have htable := lostVolume_plain.sized.fatTable
  have hbak := lostVolume_plain.sized.fatTableBak
  refine ⟨⟨rfl, rfl, htable, hbak, length_filled ?_, rfl⟩, rfl, rfl, rfl, rfl, rfl, rfl, rfl,
    by decide⟩
  rw [FatDirLayout.length_bytes]
  rfl

theorem undeleted_values :
    ((delete (fun _ => 0) wideSession (wideT 0) (wideT 0) [0x4C, 0x42, dot, 0x54]).toOption.any
      fun r => find (fun _ => 0) r.1.volume r.1.image (wideT 0)
          (undeletePath r.1 [0x4C, 0x42, dot, 0x54]) = .ok (some (wideT 0xE5)) ∧
        tableEntry r.1.volume 2 = 0 ∧ tableEntry r.1.volume 3 = 0 ∧
        clusterBytes r.1.volume.boot = 512 ∧ r.1.volume.firstCluster (wideT 0xE5) = 2 ∧
        (undelete (fun _ => 0) r.1 (wideT 0) (wideT 0) [0x4C, 0x42, dot, 0x54]).isOk) ∧
    ((undelete (fun _ => 0) lostSession (fileT 0 0 0) (fileT 0 0 0)
        [0x58, 0x43, dot, 0x54]).toOption.any fun r =>
      find (fun _ => 0) r.1.volume r.1.image (fileT 0 0 0)
        (addressConvertor r.1.currentPath (some [0x58, 0x43, dot, 0x54])).text =
          .ok (some (fileT 0x58 0x43 4))) ∧
    find (fun _ => 0) lostSession.volume lostSession.image (fileT 0 0 0)
      (undeletePath lostSession [0x58, 0x43, dot, 0x54]) = .ok (some (fileT 0xE5 0x43 4)) := by
  decide +kernel

/-- `delete LB.T` frees the clusters 2 and 3, and `undelete LB.T` brings a file of 600 bytes
back that has the cluster 2 alone. -/
theorem undelete_one_of_two : ∃ s₁ s₂ lines₁ lines₂,
    mounted16 wideSession.image = wideSession.volume ∧
      wideSession.volume.Chain (wideSession.volume.firstCluster (wideT 0x4C)) [2, 3] ∧
      delete (fun _ => 0) wideSession (wideT 0) (wideT 0) [0x4C, 0x42, dot, 0x54] =
        .ok (s₁, lines₁) ∧
      find (fun _ => 0) s₁.volume s₁.image (wideT 0)
        (undeletePath s₁ [0x4C, 0x42, dot, 0x54]) = .ok (some (wideT 0xE5)) ∧
      tableEntry s₁.volume 2 = 0 ∧ tableEntry s₁.volume 3 = 0 ∧
      undelete (fun _ => 0) s₁ (wideT 0) (wideT 0) [0x4C, 0x42, dot, 0x54] =
        .ok (s₂, lines₂) ∧
      ¬ Consistent s₂ ((wideT 0xE5).setNameHead 0x4C) := by
  obtain ⟨⟨s₁, lines₁⟩, hd, hall⟩ := exists_of_any undeleted_values.1
  simp only [decide_eq_true_eq] at hall
  obtain ⟨hfind, h₂, h₃, hbytes, hc, hok⟩ := hall
  obtain ⟨⟨s₂, lines₂⟩, hu⟩ := exists_of_isOk hok
  refine ⟨s₁, s₂, lines₁, lines₂, wideVolume_plain.mounted _, lostVolume_chain, hd, hfind, h₂, h₃,
    hu, ?_⟩
  rintro ⟨l, hl, hlen, -⟩
  obtain ⟨hboot, hfirst, hchain⟩ := chain_of_undelete hfind hu
  rw [hc, if_neg (by decide)] at hchain
  have hname : (wideT 0xE5).setNameHead (fixDeletedChar [0x4C, 0x42, dot, 0x54]).2 =
      (wideT 0xE5).setNameHead 0x4C := by decide
  rw [hname, hc] at hfirst
  rw [hfirst] at hl
  have hsize : ((wideT 0xE5).setNameHead 0x4C).fileSize = 600 := by decide
  rw [← hchain.unique hl, hboot, hbytes, hsize] at hlen
  exact absurd hlen (by decide)

/-- `undelete XC.T` brings a file of five bytes back. -/
theorem undelete_small_consistent : ∃ s' lines,
    undelete (fun _ => 0) lostSession (fileT 0 0 0) (fileT 0 0 0) [0x58, 0x43, dot, 0x54] =
        .ok (s', lines) ∧
      find (fun _ => 0) s'.volume s'.image (fileT 0 0 0)
        (addressConvertor s'.currentPath (some [0x58, 0x43, dot, 0x54])).text =
          .ok (some (fileT 0x58 0x43 4)) ∧
      Consistent s' (fileT 0x58 0x43 4) := by
  obtain ⟨-, hrun, hfind⟩ := undeleted_values
  obtain ⟨⟨s', lines⟩, h, hfound⟩ := exists_of_any hrun
  simp only [decide_eq_true_eq] at hfound
  refine ⟨s', lines, h, hfound, ?_⟩
  have hname : (fileT 0xE5 0x43 4).setNameHead (fixDeletedChar [0x58, 0x43, dot, 0x54]).2 =
      fileT 0x58 0x43 4 := by decide
  rw [← hname]
  exact (undelete_consistent_iff (by decide) hfind h).mpr (.inl (by decide))

end TFAT.UndeletedChains
