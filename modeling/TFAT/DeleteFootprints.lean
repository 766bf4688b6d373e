import TFAT.MarkedPlaces
import TFAT.UndeleteSafety

/-!
# What a deletion changes

The loop of `delete` compares whole entries, so it marks every copy of the entry found,
and it sends a marked array back with `write_dir`, which leaves an array of more than one
cluster. Elsewhere a deletion has just the intended footprint: the table entries of the
chain become zero in both tables, and one byte of one directory entry changes.
-/
namespace TFAT.DeleteFootprints
open ByteRegions LittleEndianWords LinkedChains DiskLayout ClusterTable FileDescriptor
open DirectoryIO PathText PathResolution LongNames UserCommands VolumeTree DirectoryTree
open ChainRelease ChainFreeing EntryMarking MarkedTree DeleteSafety UndeleteSafety Fat16Flush
open MarkedPlaces

/-- `delete` returns, the table entries of the chain of `f` have become zero in both tables,
and besides them one byte has changed, the first name byte of the entry in the place `a`,
which is `0xE5` now. -/
def LeavesFootprint (fill : ℕ → UInt8) (s : Session) (fresh freshParent : FatDirLayout)
    (dir : Text) (f : FatDirLayout) (a : Place) : Prop :=
  ∃ t k lines, delete fill s fresh freshParent dir =
      .ok (stamp s (retable s.volume t k) 0xE5 a, lines) ∧
    Cleared s.volume.fatn.width (Visits s.volume (s.volume.firstCluster f)) s.volume.fatTable t ∧
    Cleared s.volume.fatn.width (Visits s.volume (s.volume.firstCluster f)) s.volume.fatTableBak k

/-- The array is that of the root directory or of one cluster, or its first cluster is on the
chain of the entry, so that the deletion cuts it there. -/
def OneLeft (v : Volume) (f : FatDirLayout) (l : List ℕ) : Prop :=
  l.length ≤ 1 ∨ ∃ c ∈ l.head?, Visits v (v.firstCluster f) (v.fatn.index c)

/-- The loop that marks stays inside the array, one cluster of it is left to write, and no
second entry there equals the one found. -/
def MarksOnce (v : Volume) (block : Bytes) (n : ℕ) (l : List ℕ) (i : ℕ) (f : FatDirLayout) :
    Prop :=
  entrySize * n ≤ block.length ∧ OneLeft v f l ∧ Only block (reached v l n) i f

section Proof
variable {fill : ℕ → UInt8} {s s' : Session} {fresh freshParent : FatDirLayout} {dir : Text}
variable {block t k : Bytes} {n i : ℕ} {l : List ℕ} {f : FatDirLayout}
variable {parent : Option FatDirLayout} {w : Volume} {b : UInt8}

theorem restored_of_cleared {v : Volume} {c : ℕ} (hin : StaysInside v c)
    (h : Cleared v.fatn.width (Visits v c) v.fatTable t) : Restored v (Hit v c) 0 t :=
  ⟨h.length, fun _ hy => ⟨(hin _ hy).1, h.zero _ hy⟩, fun _ hy => h.kept _ hy⟩

/-- Behind the deletion the first cluster is the last one when it was before or is freed. -/
theorem chain_iff_oneLeft {v : Volume} {img : Bytes} {d : FatDirLayout}
    (ha : ArrayOf fill v img block n l (some d)) (hZ : Restored v (Hit v (v.firstCluster f)) 0 t) :
    (retable v t k).Chain (v.firstCluster d) [v.firstCluster d] ↔ OneLeft v f l := by
  have hc : v.firstCluster d ≠ 0 := (opens_of_parseDir ha.1).2
  obtain ⟨e, m, hl, hnext, hrest⟩ := ha.2.1.cons hc
  rw [hl, OneLeft]
  simp only [List.head?_cons, Option.mem_some_iff, exists_eq_left', List.length_cons]
  by_cases hy : Hit v (v.firstCluster f) (v.firstCluster d)
  · refine iff_of_true (.step hc ?_ .stop) (.inr hy)
    rw [hZ.nextCluster hy, v.fatn.link_zero]
  · have hsame : (retable v t k).nextCluster (v.firstCluster d) = .ok e :=
      (hZ.nextCluster_of_not hy).trans hnext
    constructor
    · intro hchain
      obtain ⟨e', m', hm', hnext', hrest'⟩ := hchain.cons hc
      rw [List.cons.injEq] at hm'
      obtain rfl := hm'.2
      rw [hsame, Except.ok.injEq] at hnext'
      subst hnext'
      obtain rfl := hrest'.eq_stop
      rw [hrest.eq_nil]
      exact .inl le_rfl
    · rintro (hlen | hhit)
      · obtain rfl : m = [] := List.eq_nil_of_length_eq_zero (by omega)
        exact .step hc (by rw [hsame, hrest.eq_stop]) .stop
      · exact absurd hhit hy

theorem tables_stamp (s : Session) (w : Volume) (b : UInt8) (a : Place) :
    (stamp s w b a).volume.fatTable = w.fatTable ∧
      (stamp s w b a).volume.fatTableBak = w.fatTableBak := by
  cases a <;> exact ⟨rfl, rfl⟩

theorem delete_eq (hf : find fill s.volume s.image fresh (deletePath s dir) = .ok (some f))
    (ho : openParent fill s freshParent (getParentPath (deletePath s dir)) =
      .ok (parent, block, n)) {lines : List Line}
    (hw : freeChain s.volume.fuel s.volume (s.volume.firstCluster f) = .ok (w, lines))
    (hm : markEntries s w parent block n f 0xE5 = .ok s') :
    delete fill s fresh freshParent dir = .ok (s', lines) := by
  unfold delete
  change find fill s.volume s.image fresh (deletePath s dir) >>= (fun file =>
    openParent fill s freshParent (getParentPath (deletePath s dir)) >>= _) = _
  rw [hf, ok_bind, ho, ok_bind]
  simp only [hw, hm, ok_bind]

/-- Where one entry is marked in what the deletion reaches, nothing else changes. -/
theorem footprint_of_marksOnce (hg : Geometry s.volume.boot)
    (h : Locates fill s.volume s.image (deletePath s dir) parent block n l i f)
    (hin : StaysInside s.volume (s.volume.firstCluster f))
    (hm : MarksOnce s.volume block n l i f) :
    LeavesFootprint fill s fresh freshParent dir f (placeIn s.volume l i) := by
  obtain ⟨hle, hleft, hone⟩ := hm
  obtain ⟨t, k, lines, hw, ht, hk⟩ := exists_freeChain hin
  have hZ := restored_of_cleared hin ht
  have hend (d : FatDirLayout) (hd : parent = some d) :
      (retable s.volume t k).Chain (s.volume.firstCluster d) [s.volume.firstCluster d] :=
    (chain_iff_oneLeft (hd ▸ h.array) hZ).mpr hleft
  exact ⟨t, k, lines, delete_eq (h.find_eq fresh) (h.openParent_eq freshParent) hw
    (markEntries_of_only hg h.array hle h.entry.2.1 hone hend), ht, hk⟩

/-- What a deletion that marks has done, in terms of the path it has followed. -/
theorem marked_of_delete (h : Locates fill s.volume s.image (deletePath s dir) parent block n l i f)
    {lines : List Line} {a : Place}
    (hd : delete fill s fresh freshParent dir =
      .ok (stamp s (retable s.volume t k) 0xE5 a, lines)) :
    markEntries s (retable s.volume t k) parent block n f 0xE5 =
        .ok (stamp s (retable s.volume t k) 0xE5 a) ∧
      Restored s.volume (Hit s.volume (s.volume.firstCluster f)) 0 t := by
  have hfind := h.find_eq fresh
  rcases delete_cases hd with ⟨hn, -⟩ | ⟨f', hf', parent', block', n', w, lines', ho, hw, hm⟩
  · rw [hfind] at hn
    cases hn
  · rw [hfind, Except.ok.injEq, Option.some.injEq] at hf'
    subst hf'
    rw [h.openParent_eq, Except.ok.injEq, Prod.mk.injEq, Prod.mk.injEq] at ho
    obtain ⟨rfl, rfl, rfl⟩ := ho
    obtain ⟨t', k', rfl, hZ⟩ := of_freeChain hw
    obtain ⟨r, hr⟩ := volume_of_markEntries hm
    obtain ⟨ht, hk⟩ := tables_stamp s (retable s.volume t k) 0xE5 a
    rw [hr] at ht hk
    obtain rfl : t' = t := ht
    obtain rfl : k' = k := hk
    exact ⟨hm, hZ⟩

theorem marksOnce_of_footprint (hg : Geometry s.volume.boot)
    (h : Locates fill s.volume s.image (deletePath s dir) parent block n l i f)
    (hlive : Live f)
    (hcut : ∀ d, parent = some d → Uncut s.volume (Hit s.volume (s.volume.firstCluster f)) d)
    (hP : LeavesFootprint fill s fresh freshParent dir f (placeIn s.volume l i)) :
    MarksOnce s.volume block n l i f := by
  obtain ⟨t, k, lines, hd, -, -⟩ := hP
  obtain ⟨hm, hZ⟩ := marked_of_delete h hd
  obtain ⟨hi, he, hfirst⟩ := h.entry
  have ha := h.array
  have hend (d : FatDirLayout) (hd : parent = some d) :
      (retable s.volume t k).Chain (s.volume.firstCluster d) [s.volume.firstCluster d] := by
    subst hd
    exact chain_of_markEntries hg ha hi he hZ s.volume.fatn.link_zero (hcut d rfl) hm
  obtain ⟨hle, hone⟩ := only_of_markEntries hg ha hi he hfirst (nameHead_ne_of_live hlive) hend hm
  refine ⟨hle, ?_, hone⟩
  cases parent with
  | none =>
      obtain ⟨-, -, rfl⟩ := ha
      exact .inl (Nat.zero_le 1)
  | some d => exact (chain_iff_oneLeft ha hZ).mp (hend d rfl)

end Proof

/-- For a path without repeated slashes that leads to a live entry whose chain stays inside
the tables: where the entry is the only one that is marked in what the deletion reaches, the
deletion clears the table entries of its chain and marks the entry, and changes nothing
else. Unless the chain cuts a directory of more than 32 clusters in its middle, that is the
only way for the deletion to do so. -/
theorem delete_footprint_iff {fill : ℕ → UInt8} {s : Session} {fresh freshParent : FatDirLayout}
    {dir : Text} {parent : Option FatDirLayout} {block : Bytes} {n i : ℕ} {l : List ℕ}
    {f : FatDirLayout} (hg : Geometry s.volume.boot)
    (h : Locates fill s.volume s.image (deletePath s dir) parent block n l i f)
    (hlive : Live f) (hin : StaysInside s.volume (s.volume.firstCluster f)) :
    (MarksOnce s.volume block n l i f →
      LeavesFootprint fill s fresh freshParent dir f (placeIn s.volume l i)) ∧
    ((∀ d, parent = some d → Uncut s.volume (Hit s.volume (s.volume.firstCluster f)) d) →
      LeavesFootprint fill s fresh freshParent dir f (placeIn s.volume l i) →
      MarksOnce s.volume block n l i f) :=
  ⟨footprint_of_marksOnce hg h hin, marksOnce_of_footprint hg h hlive⟩

/-- A FAT16 volume with the directory `A` in the clusters 2 and 3, and in it the file `FG.T`
of the cluster 4. -/
def longVolume : Volume where
  fatn := .fat16
  boot := ⟨512, 1, 1, 2, 16, 40000, 0xF8, 1, 0⟩
  boot16 := ⟨List.replicate 11 0⟩
  boot32 := ⟨0, 0, 0, []⟩
  fatTable := [0xF8, 0xFF, 0xFF, 0xFF, 3, 0, 0xFF, 0xFF, 0xFF, 0xFF] ++ List.replicate 502 0
  fatTableBak := [0xF8, 0xFF, 0xFF, 0xFF, 3, 0, 0xFF, 0xFF, 0xFF, 0xFF] ++ List.replicate 502 0
  dataOffset := 2048
  rootDir := dirA.bytes ++ List.replicate 480 0

def longImage : Bytes :=
  longVolume.boot.toBytes ++ List.replicate 476 0 ++ longVolume.fatTable ++
    longVolume.fatTable ++ longVolume.rootDir ++
    (dotOfA.bytes ++ (fileT 0x46 0x47 4).bytes ++ List.replicate 1472 0)

def longSession : Session := ⟨longVolume, longImage, [slash], .initial⟩

theorem longVolume_plain : Plain16 longVolume := by
  refine ⟨⟨rfl, rfl, length_filled rfl, length_filled rfl, length_filled ?_, rfl⟩, rfl, rfl, rfl,
    rfl, rfl, rfl, rfl, by decide⟩
  rw [dirA.length_bytes]
  rfl

theorem longVolume_hasCell {i : ℕ} (h : i ≤ 4) : HasCell 2 longVolume.fatTable i := by
  have hl : longVolume.fatTable.length = 512 := by
    rw [longVolume, List.length_append, List.length_replicate]
    rfl
  rw [HasCell, hl]
  omega

theorem longVolume_chain : longVolume.Chain (longVolume.firstCluster dirA) [2, 3] := by
  have h₂ : longVolume.nextCluster 2 = .ok 3 :=
    longVolume.nextCluster_ok_iff.mpr ⟨longVolume_hasCell (by decide), by decide⟩
  have h₃ : longVolume.nextCluster 3 = .ok 0 :=
    longVolume.nextCluster_ok_iff.mpr ⟨longVolume_hasCell (by decide), by decide⟩
  rw [show longVolume.firstCluster dirA = 2 by decide]
  exact .step (by norm_num) h₂ (.step (by norm_num) h₃ .stop)

theorem longVolume_staysInside :
    StaysInside longVolume (longVolume.firstCluster (fileT 0x46 0x47 4)) := by
  have h₄ : longVolume.nextCluster 4 = .ok 0 :=
    longVolume.nextCluster_ok_iff.mpr ⟨longVolume_hasCell (by decide), by decide⟩
  have hchain : longVolume.Chain 4 [4] := .step (by norm_num) h₄ .stop
  rw [show longVolume.firstCluster (fileT 0x46 0x47 4) = 4 by decide]
  rintro i ⟨x, hx, rfl⟩
  obtain rfl := List.mem_singleton.mp (hchain.reaches_iff.mp hx)
  exact ⟨longVolume_hasCell (by decide), longVolume_hasCell (by decide)⟩

theorem longSession_values :
    entryAt (contents longVolume longImage [2, 3]) 0 = .ok dotOfA ∧
      entryAt (contents longVolume longImage [2, 3]) 1 = .ok (fileT 0x46 0x47 4) ∧
      (∀ c ∈ [2, 3], (longVolume.clusterSpan c).off + (longVolume.clusterSpan c).len ≤
        longImage.length) ∧
      (delete (fun _ => 0) longSession dirA dirA
        [0x41, slash, 0x46, 0x47, dot, 0x54]).isOk = false := by
  decide +kernel

theorem longSession_locates : Locates (fun _ => 0) longSession.volume longSession.image
    (deletePath longSession [0x41, slash, 0x46, 0x47, dot, 0x54]) (some dirA)
    (contents longVolume longImage [2, 3]) 32 [2, 3] 1 (fileT 0x46 0x47 4) := by
  obtain ⟨h₀, h₁, hin, -⟩ := longSession_values
  have hroot : entryAt longVolume.rootDir 0 = .ok dirA := entryAt_append_zero dirA _
  refine ⟨by decide, ⟨[[0x41]], [0x46, 0x47, dot, 0x54], by decide, ?_, ?_⟩, ?_⟩
  · exact .found (search_eq_ok_some_iff.mpr ⟨0, by decide, hroot, by decide, by simp⟩)
  · refine ⟨by norm_num, h₁, by decide, fun k hk => ?_⟩
    obtain rfl : k = 0 := by omega
    exact ⟨dotOfA, h₀, by decide⟩
  · refine ⟨?_, longVolume_chain, hin⟩
    exact parseDir_eq _ (by decide) longVolume_chain (by simp) (by decide) (by decide) hin
      (by decide)

/-- `delete A/FG.T` leaves the array of the directory `A` when it writes its second cluster. -/
theorem delete_in_long_directory :
    mounted16 longSession.image = longSession.volume ∧ Geometry longSession.volume.boot ∧
      Locates (fun _ => 0) longSession.volume longSession.image
        (deletePath longSession [0x41, slash, 0x46, 0x47, dot, 0x54]) (some dirA)
        (contents longVolume longImage [2, 3]) 32 [2, 3] 1 (fileT 0x46 0x47 4) ∧
      Owner (fileT 0x46 0x47 4) ∧
      StaysInside longSession.volume (longSession.volume.firstCluster (fileT 0x46 0x47 4)) ∧
      ¬ LeavesFootprint (fun _ => 0) longSession dirA dirA [0x41, slash, 0x46, 0x47, dot, 0x54]
        (fileT 0x46 0x47 4) (placeIn longSession.volume [2, 3] 1) := by
  obtain ⟨-, -, -, hfail⟩ := longSession_values
  refine ⟨longVolume_plain.mounted _, ⟨by decide, by decide, ?_⟩, longSession_locates,
    by decide, longVolume_staysInside, ?_⟩
  · have hsize : clusterBytes longSession.volume.boot = 512 := by decide
    rw [hsize]
    norm_num
  · rintro ⟨t, k, lines, hd, -⟩
    rw [hd] at hfail
    cases hfail

/-- `delete A` on a volume with the directory `A` alone changes what it should. -/
theorem delete_dirA_footprint :
    LeavesFootprint (fun _ => 0) dotSession dirA dirA [0x41] dirA
      (placeIn dotSession.volume [] 0) := by
  have hcell {i : ℕ} (h : i ≤ 2) : HasCell 2 dotVolume.fatTable i := by
    have hl : dotVolume.fatTable.length = 512 := by
      rw [dotVolume, List.length_append, List.length_replicate]
      rfl
    rw [HasCell, hl]
    omega
  have hroot : entryAt dotVolume.rootDir 0 = .ok dirA := entryAt_append_zero dirA _
  have hlocates : Locates (fun _ => 0) dotSession.volume dotSession.image
      (deletePath dotSession [0x41]) none dotVolume.rootDir 16 [] 0 dirA := by
    refine ⟨by decide, ⟨[], [0x41], by decide, rfl, by norm_num, hroot, by decide, by simp⟩, ?_⟩
    exact ⟨rfl, rfl, rfl⟩
  have hin : StaysInside dotSession.volume (dotSession.volume.firstCluster dirA) := by
    rintro i ⟨x, hx, rfl⟩
    obtain rfl := List.mem_singleton.mp (dotVolume_chain.reaches_iff.mp hx)
    exact ⟨hcell (by decide), hcell (by decide)⟩
  have honly : Only dotVolume.rootDir 16 0 dirA := by
    refine ⟨by norm_num, fun j hj hej => ?_⟩
    have hcontent : (store dotSession.volume dotSession.image).content (.root j) = some dirA := by
      simp only [store, entryIn, dotSession, hej, Except.toOption]
    have hlive : LiveAt dotSession (.root j) dirA := ⟨.top ⟨j, hj, rfl⟩ hcontent, by decide⟩
    exact Place.root.inj (dotSession_liveAt hlive).1
  have hlen : dotVolume.rootDir.length = 512 := by
    rw [dotVolume, List.length_append, dirA.length_bytes, List.length_replicate]
    rfl
  exact (delete_footprint_iff dotSession_wellKept.geometry hlocates (by decide) hin).1
    ⟨by rw [hlen]; decide, .inl (Nat.zero_le 1), honly⟩

end TFAT.DeleteFootprints
