import TFAT.DirectoryIO

/-!
# What the reads of a directory gather

`parse_dir` counts its place in entries and the capacity of its buffer in clusters,
in two counters that move with the chain. On a chain of clusters inside the image
the three agree: each read goes to the end of what has been read, in a buffer that
has room for one more cluster, and the array that is returned is the clusters in
the order of the chain.
-/
namespace TFAT.DirectoryReads
open ByteRegions LittleEndianWords LinkedChains DiskLayout ClusterTable ClusterPlacement
open FileDescriptor DirectoryIO

def joinedPlaces (v : Volume) (img : Bytes) (l : List ℕ) : Bytes :=
  l.flatMap fun c => slice img (v.place c).off (v.place c).len

/-- The size that the next round gives the buffer. -/
def capacity (v : Volume) (s : Listing) : ℕ := clusterBytes v.boot * s.nr % 2 ^ 32

/-- The next read goes behind what the buffer holds, and the buffer has room for it. -/
structure ReadsInside (v : Volume) (img : Bytes) (p : List ℕ) (s : Listing) : Prop where
  held : s.entries.getD [] = joinedPlaces v img p
  behind : entrySize * s.dirSize = (joinedPlaces v img p).length
  room : entrySize * s.dirSize + clusterBytes v.boot ≤ capacity v s

variable {v : Volume} {img : Bytes} {dir : FatDirLayout} {l p q : List ℕ} {c : ℕ}

theorem contents_eq_joinedPlaces (hd : entrySize ∣ clusterBytes v.boot)
    (hpos : 0 < clusterBytes v.boot) (hc : ∀ c ∈ l, InRange v img c) :
    contents v img l = joinedPlaces v img l := by
  induction l with
  | nil => rfl
  | cons c l ih =>
      have hspan := (hc c (by simp)).clusterSpan_eq hd hpos
      have hl := ih fun x hx => hc x (by simp [hx])
      rw [contents, joinedPlaces] at hl ⊢
      rw [List.flatMap_cons, List.flatMap_cons, hl, cluster, hspan]

theorem inImage_of_inRange (hd : entrySize ∣ clusterBytes v.boot) (hpos : 0 < clusterBytes v.boot)
    (hc : InRange v img c) : InImage v img c := by
  rw [InImage, hc.clusterSpan_eq hd hpos]
  exact hc.2.2

theorem readsInside_gathered (hd : entrySize ∣ clusterBytes v.boot)
    (hpos : 0 < clusterBytes v.boot) (hc : ∀ c ∈ p, InRange v img c)
    (hsmall : (p.length + 1) * clusterBytes v.boot < 2 ^ 32) :
    ReadsInside v img p (gathered v img p) := by
  have hjoined := contents_eq_joinedPlaces hd hpos hc
  have hlen := length_contents fun c hm => inImage_of_inRange hd hpos (hc c hm)
  have hplace : entrySize * (gathered v img p).dirSize = p.length * clusterBytes v.boot := by
    rw [gathered, Nat.mul_left_comm, Nat.mul_div_cancel' hd]
  have hroom : capacity v (gathered v img p) = (p.length + 1) * clusterBytes v.boot := by
    rw [capacity, gathered, Nat.mul_comm, Nat.mod_eq_of_lt hsmall]
  refine ⟨?_, ?_, ?_⟩
  · rw [gathered_getD, hjoined]
  · rw [hplace, ← hjoined, hlen]
  · rw [hplace, hroom, Nat.succ_mul]

/-- The rounds in front of a cluster of the chain lead to a read inside the buffer. -/
theorem exists_readsInside (fill : ℕ → UInt8) (hd : entrySize ∣ clusterBytes v.boot)
    (hpos : 0 < clusterBytes v.boot) (hc : ∀ c ∈ l, InRange v img c)
    (hsmall : l.length * clusterBytes v.boot < 2 ^ 32) (hl : l = p ++ c :: q) :
    ∃ s, p.foldlM (readCluster fill v img) ⟨none, 0, 1⟩ = .ok s ∧ ReadsInside v img p s := by
  have hp : ∀ x ∈ p, InRange v img x := fun x hx => hc x (by simp [hl, hx])
  have hlast : (p.length + 1) * clusterBytes v.boot ≤ l.length * clusterBytes v.boot :=
    Nat.mul_le_mul_right _ (by simp [hl])
  obtain ⟨s, hs, rfl⟩ : ∃ s, p.foldlM (readCluster fill v img) ⟨none, 0, 1⟩ = .ok s ∧
      s = gathered v img p := by
    apply foldlM_total (I := fun p s => s = gathered v img p)
    · simp [gathered]
    · rintro p' x q' s rfl rfl
      have hle : (p'.length + 1) * clusterBytes v.boot ≤
          ((p' ++ x :: q').length + 1) * clusterBytes v.boot :=
        Nat.mul_le_mul_right _ (by simp)
      refine ⟨_, ?_, rfl⟩
      exact readCluster_gathered fill hpos hd
        (fun y hy => inImage_of_inRange hd hpos (hp y (by simp [hy])))
        (inImage_of_inRange hd hpos (hp x (by simp))) (by omega)
  exact ⟨_, hs, readsInside_gathered hd hpos hp (by omega)⟩

/-- `parse_dir` has no result exactly for entries that are no directories and for
directories without clusters. -/
theorem parseDir_eq_none_iff (fill : ℕ → UInt8) (hw : v.Chain (v.firstCluster dir) l)
    (hd : entrySize ∣ clusterBytes v.boot) (hpos : 0 < clusterBytes v.boot)
    (hc : ∀ c ∈ l, InRange v img c) (hsmall : l.length * clusterBytes v.boot < 2 ^ 32) :
    parseDir fill v img dir = .ok none ↔ ¬ isDirectory dir.attr ∨ l = [] := by
  have hin : ∀ c ∈ l, InImage v img c := fun c hm => inImage_of_inRange hd hpos (hc c hm)
  by_cases hdir : isDirectory dir.attr
  · by_cases hl : l = []
    · subst hl
      refine iff_of_true ?_ (.inr rfl)
      rw [parseDir_def, if_pos hdir, v.along_of_chain hw]
      rfl
    · rw [parseDir_eq fill hdir hw hl hpos hd hin hsmall]
      simp [hdir, hl]
  · refine iff_of_true ?_ (.inl hdir)
    rw [parseDir_def, if_neg hdir]

/-- `parse_dir` gathers the clusters of a directory in the order of its chain, reads each
of them into the room behind those before it, and has no result exactly where there is
no directory or no cluster. -/
theorem parseDir_gathers (fill : ℕ → UInt8) (hw : v.Chain (v.firstCluster dir) l)
    (hd : entrySize ∣ clusterBytes v.boot) (hpos : 0 < clusterBytes v.boot)
    (hc : ∀ c ∈ l, InRange v img c) (hsmall : l.length * clusterBytes v.boot < 2 ^ 32) :
    (isDirectory dir.attr → l ≠ [] → parseDir fill v img dir =
      .ok (some (joinedPlaces v img l, l.length * (clusterBytes v.boot / entrySize)))) ∧
    (∀ p c q, l = p ++ c :: q → ∃ s, p.foldlM (readCluster fill v img) ⟨none, 0, 1⟩ = .ok s ∧
      ReadsInside v img p s) ∧
    (parseDir fill v img dir = .ok none ↔ ¬ isDirectory dir.attr ∨ l = []) := by
  refine ⟨fun hdir hl => ?_, fun p c q => exists_readsInside fill hd hpos hc hsmall,
    parseDir_eq_none_iff fill hw hd hpos hc hsmall⟩
  rw [parseDir_eq fill hdir hw hl hpos hd
    (fun c hm => inImage_of_inRange hd hpos (hc c hm)) hsmall,
    contents_eq_joinedPlaces hd hpos hc]

/-- A directory of the clusters 2 and 3 is gathered. -/
theorem subDir_two_gathered : parseDir (fun _ => 0) subVolume subImage (subDir 2) =
    .ok (some (joinedPlaces subVolume subImage [2, 3], 32)) := by
  have hw : subVolume.Chain (subVolume.firstCluster (subDir 2)) [2, 3] := by
    rw [show subVolume.firstCluster (subDir 2) = 2 by decide]
    exact .step (by norm_num) (subVolume.nextCluster_ok_iff.mpr
      ⟨subVolume_hasCell (by norm_num), by decide⟩) subVolume_chain_three
  have hc : ∀ c ∈ [2, 3], InRange subVolume subImage c := by
    intro c hc
    simp only [List.mem_cons, List.not_mem_nil, or_false] at hc
    exact subVolume_inRange (by omega) (by omega)
  exact (parseDir_gathers _ hw (by decide) (by decide) hc (by decide)).1 (by decide) (by simp)

end TFAT.DirectoryReads
