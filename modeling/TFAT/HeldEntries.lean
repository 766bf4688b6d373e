import TFAT.TableBlocks

/-!
# Volumes whose numbers are in range

The entries of a directory of the volume that some term finds, by following links
alone: neither free entries nor the slots of long names are among them. A volume is
numbered when its table has an entry for each data cluster, and table entries, held
entries and the boot sector name data clusters or nothing. Deletion and undeletion
keep a volume numbered: they end chains, and the entries that they mark have been
found.
-/
namespace TFAT.HeldEntries
open ByteRegions LittleEndianWords LinkedChains DiskLayout ClusterTable ClusterPlacement
open FileDescriptor VolumeMount DirectoryIO PathText EntryNames PathResolution UserCommands
open VolumeTree EntryMarking MarkedTree MarkingEffects TableAccesses TableBlocks

def clusterCount (v : Volume) : ℕ :=
  (v.totalSectors * sector v.boot - v.dataOffset) / clusterBytes v.boot

def DataCluster (v : Volume) (c : ℕ) : Prop := IsData (clusterCount v) c

/-- Nothing, or a data cluster. -/
def Named (v : Volume) (c : ℕ) : Prop := c = 0 ∨ DataCluster v c

/-- Some term finds the entry. -/
def Matchable (e : FatDirLayout) : Prop := ∃ term, matchesTerm e term

/-- The entries of directories, of however many clusters, that `search` can return. -/
inductive Held (v : Volume) (img : Bytes) : FatDirLayout → Prop
  | root {i : ℕ} {e : FatDirLayout} : i < v.boot.rootEntryCount.toNat →
      entryAt v.rootDir i = .ok e → Matchable e → Held v img e
  | inside {d e : FatDirLayout} {c i : ℕ} : Held v img d → isDirectory d.attr →
      Reaches v.nextCluster 0 (v.firstCluster d) c → entryAt (cluster v img c) i = .ok e →
      Matchable e → Held v img e

/-- The table has an entry for each data cluster, and names data clusters only. -/
structure Linked (v : Volume) : Prop where
  unwrapped : Unwrapped v
  size : clusterCount v + 2 ≤ v.tableSize
  links : ∀ c, DataCluster v c → ∃ d, v.nextCluster c = .ok d ∧ Named v d
  root : v.fatn = .fat32 → Named v v.boot32.rootCluster.toNat

/-- The data clusters lie in the image, and every number that the program takes from the
volume names one of them or nothing. -/
structure Numbered (v : Volume) (img : Bytes) : Prop extends Linked v where
  geometry : Geometry v.boot
  inImage : ∀ c, DataCluster v c → InImage v img c
  held : ∀ e, Held v img e → Named v (v.firstCluster e)

section Walking
variable {v w : Volume} {img : Bytes} {c x : ℕ} {d e : FatDirLayout}

theorem Linked.dataCluster (h : Linked v) (hc : Named v c) (hr : Reaches v.nextCluster 0 c x) :
    DataCluster v x := by
  refine hr.closed (hc.resolve_left hr.ne_stop) fun y d hy hd hne => ?_
  obtain ⟨d', hd', hn⟩ := h.links y hy
  rw [hd, Except.ok.injEq] at hd'
  exact (hd' ▸ hn).resolve_left hne

theorem clusterCount_of_edits (h : Edits v w) : clusterCount w = clusterCount v := by
  simp only [clusterCount, Volume.totalSectors, h.fatn, h.boot, h.dataOffset]

theorem tableSize_of_edits (h : Edits v w) : w.tableSize = v.tableSize := by
  simp only [Volume.tableSize, h.fatn, h.boot, h.boot32]

theorem named_of_edits (h : Edits v w) : Named w c ↔ Named v c := by
  rw [Named, Named, DataCluster, DataCluster, clusterCount_of_edits h]

theorem Linked.of_edits (hl : Linked v) (h : Edits v w) : Linked w := by
  refine ⟨?_, ?_, fun c hc => ?_, fun hn => ?_⟩
  · rw [Unwrapped, h.fatn, h.boot, h.boot32]
    exact hl.unwrapped
  · rw [clusterCount_of_edits h, tableSize_of_edits h]
    exact hl.size
  · rw [DataCluster, clusterCount_of_edits h] at hc
    obtain ⟨d, hd, hn⟩ := hl.links c hc
    rcases h.nextCluster c with he | he
    · exact ⟨d, he.trans hd, (named_of_edits h).mpr hn⟩
    · exact ⟨0, he, .inl rfl⟩
  · rw [h.fatn] at hn
    rw [named_of_edits h, h.boot32]
    exact hl.root hn

theorem Linked.index_lt (h : Linked v) (hc : DataCluster v c) : v.fatn.index c < v.tableSize := by
  refine lt_of_le_of_lt ?_ (hc.2.trans_le h.size)
  cases v.fatn with
  | fat16 => exact Nat.mod_le _ _
  | fat32 => exact le_rfl

theorem exists_entryAt_of_contents {l : List ℕ} {i : ℕ} (hd : entrySize ∣ clusterBytes v.boot)
    (hi : ∀ c ∈ l, InImage v img c) (h : entryAt (contents v img l) i = .ok e) :
    ∃ c ∈ l, ∃ j, entryAt (cluster v img c) j = .ok e := by
  induction l generalizing i with
  | nil =>
      have hle := (entryAt_eq_ok_iff.mp h).1
      simp [contents, entrySize] at hle
  | cons c l ih =>
      have hlen := length_cluster (hi c (by simp))
      have hcons : contents v img (c :: l) = cluster v img c ++ contents v img l := by
        rw [contents, List.flatMap_cons, contents]
      obtain ⟨hle, he⟩ := entryAt_eq_ok_iff.mp h
      obtain ⟨n, hn⟩ := hd
      by_cases hin : i < n
      · have hm := Nat.mul_le_mul_left entrySize (Nat.succ_le_of_lt hin)
        rw [Nat.mul_succ, ← hn] at hm
        refine ⟨c, by simp, i, entryAt_eq_ok_iff.mpr ⟨by omega, ?_⟩⟩
        rw [he, hcons, slice_append_left (by omega)]
      · have hoff : entrySize * i = clusterBytes v.boot + entrySize * (i - n) := by
          rw [hn, ← Nat.mul_add, Nat.add_sub_cancel' (by omega)]
        have htail : entryAt (contents v img l) (i - n) = .ok e := by
          rw [hcons, List.length_append, hlen] at hle
          refine entryAt_eq_ok_iff.mpr ⟨by omega, ?_⟩
          rw [he, hcons, hoff, ← hlen, slice_append_right]
        obtain ⟨d, hdl, j, hj⟩ := ih (fun x hx => hi x (by simp [hx])) htail
        exact ⟨d, by simp [hdl], j, hj⟩

/-- What `parse_dir` gathers from a held directory is held, as far as it can be found. -/
theorem Numbered.held_of_parseDir (h : Numbered v img) {fill : ℕ → UInt8} {entries : Bytes}
    {n i : ℕ} (hd : Held v img d) (hp : parseDir fill v img d = .ok (some (entries, n)))
    (he : entryAt entries i = .ok e) (hm : Matchable e) : Held v img e := by
  obtain ⟨hdir, l, hl, hne, -⟩ := shape_of_parseDir h.geometry.entries hp
  have hin : ∀ c ∈ l, InImage v img c := fun c hc =>
    h.inImage c (h.dataCluster (h.held d hd) (hl.reaches_iff.mpr hc))
  rcases of_parseDir hdir hl h.geometry.pos h.geometry.entries hin hp with ⟨hr, -⟩ | ⟨hr, -⟩
  · rw [Option.some.injEq, Prod.mk.injEq] at hr
    rw [hr.1] at he
    obtain ⟨c, hc, j, hj⟩ := exists_entryAt_of_contents h.geometry.entries hin he
    exact .inside hd hdir (hl.reaches_iff.mpr hc) hj hm
  · cases hr

/-- What `find` returns is held, and some term finds it. -/
theorem Numbered.held_of_findLoop (h : Numbered v img) {fill : ℕ → UInt8} {fresh : FatDirLayout}
    {dir : Bytes} {size : ℕ} {tokens : List Text}
    (hs : ∀ i < size, ∀ e, entryAt dir i = .ok e → Matchable e → Held v img e)
    (hn : tokens ≠ []) (hf : findLoop fill v img fresh dir size tokens = .ok (some e)) :
    Held v img e := by
  induction tokens generalizing fresh dir size with
  | nil => exact absurd rfl hn
  | cons token rest ih =>
      rw [findLoop] at hf
      obtain ⟨r, hr, hf⟩ := bind_eq_ok.mp hf
      cases r with
      | none => simp at hf
      | some tmp =>
          obtain ⟨j, hj, htmp, hm⟩ := of_search hr
          have ht := hs j hj tmp htmp ⟨token, hm⟩
          simp only at hf
          split_ifs at hf with hrest
          · rw [Except.ok.injEq, Option.some.injEq] at hf
            exact hf ▸ ht
          · obtain ⟨p, hp, hf⟩ := bind_eq_ok.mp hf
            cases p with
            | none => simp at hf
            | some p => exact ih (fun i _ e he hm => h.held_of_parseDir ht hp he hm) hrest hf

/-- The entries that `find` opens on its way are held. -/
theorem Numbered.held_of_openedFrom (h : Numbered v img) {fill : ℕ → UInt8} {dir : Bytes}
    {size : ℕ} {tokens : List Text} (hs : ∀ i < size, ∀ e, entryAt dir i = .ok e → Matchable e →
      Held v img e)
    (he : e ∈ openedFrom fill v img dir size tokens) : Held v img e := by
  induction tokens generalizing dir size with
  | nil => simp [openedFrom] at he
  | cons token rest ih =>
      rw [openedFrom] at he
      split at he
      · rename_i tmp htmp
        obtain ⟨j, hj, hent, hm⟩ := of_search htmp
        have ht := hs j hj tmp hent ⟨token, hm⟩
        split_ifs at he with hrest
        · simp at he
        · rcases List.mem_cons.mp he with rfl | he
          · exact ht
          · split at he
            · rename_i entries n hp
              exact ih (fun k _ e hk => h.held_of_parseDir ht hp hk) he
            · simp at he
      · simp at he

end Walking

section Marking
variable {v w : Volume} {img img' : Bytes} {p f e : FatDirLayout} {folder : Bytes} {b : UInt8}
variable {size c : ℕ}

/-- A held entry, perhaps with another first name byte. -/
def HeldAs (v : Volume) (img : Bytes) (b : UInt8) (e : FatDirLayout) : Prop :=
  ∃ d, Held v img d ∧ (e = d ∨ e = d.setNameHead b)

theorem Held.matchable (h : Held v img e) : Matchable e := by
  cases h <;> assumption

theorem HeldAs.attr (h : HeldAs v img b e) :
    ∃ d, Held v img d ∧ e.attr = d.attr ∧ v.firstCluster e = v.firstCluster d := by
  obtain ⟨d, hd, rfl | rfl⟩ := h
  · exact ⟨e, hd, rfl, rfl⟩
  · exact ⟨d, hd, attr_setNameHead d b, firstCluster_setNameHead v d b⟩

/-- Every whole entry of the block satisfies the predicate. -/
def AllEntries (P : FatDirLayout → Prop) (block : Bytes) : Prop :=
  ∀ i e, entryAt block i = .ok e → P e

theorem AllEntries.slice {P : FatDirLayout → Prop} {block : Bytes} (h : AllEntries P block)
    (k n : ℕ) : AllEntries P (ByteRegions.slice block (entrySize * k) n) := by
  intro i e he
  obtain ⟨hle, hb⟩ := entryAt_eq_ok_iff.mp he
  have hlen := length_slice block (entrySize * k) n
  refine h (k + i) e (entryAt_eq_ok_iff.mpr ⟨?_, ?_⟩)
  · rw [entrySize] at *
    omega
  · rw [hb, slice_slice _ _ _ _ _ (by omega), Nat.mul_add]

/-- Writing a directory puts slices of the array into clusters and keeps the others. -/
theorem allEntries_of_writeDir {P : FatDirLayout → Prop} {C : ℕ → Prop} {n : ℤ}
    (hg : Geometry v.boot) (hf : AllEntries P folder) (hin : ∀ c, C c → InImage v img c)
    (hc : ∀ c, C c → AllEntries P (cluster v img c))
    (h : writeDir v img p folder n = .ok img') :
    (∀ c, C c → InImage v img' c) ∧ ∀ c, C c → AllEntries P (cluster v img' c) := by
  unfold writeDir at h
  split_ifs at h
  · obtain ⟨s, hs, h⟩ := bind_eq_ok.mp h
    obtain ⟨l, -, -, hfold⟩ := follows_of_along hs
    rw [← Except.ok.inj h]
    refine foldlM_partial (I := fun _ s => (∀ c, C c → InImage v s.img c) ∧
      ∀ c, C c → AllEntries P (cluster v s.img c)) hfold ⟨hin, hc⟩ ?_
    rintro q d r s t - ⟨hin', hc'⟩ ht
    obtain ⟨data, hdata, ht⟩ := bind_eq_ok.mp ht
    obtain ⟨hle, rfl⟩ := copyOut_eq_ok_iff.mp hdata
    rw [← Except.ok.inj ht]
    refine ⟨fun c hC => (hin' c hC).trans (length_le_length_splice _ _ _ _), fun c hC => ?_⟩
    have hlen : (ByteRegions.slice folder (entrySize * s.index) (clusterBytes v.boot)).length =
        clusterBytes v.boot := length_slice_of_le hle
    by_cases he : v.clusterToSector c = v.clusterToSector d
    · have hs := slice_splice_self 0 s.img (v.clusterToSector d)
        (ByteRegions.slice folder (entrySize * s.index) (clusterBytes v.boot))
      rw [hlen, ← he] at hs
      change AllEntries P (ByteRegions.slice (splice 0 s.img (v.clusterToSector d) _)
        (v.clusterToSector c) (clusterBytes v.boot))
      rw [← he, hs]
      exact hf.slice _ _
    · have hs : cluster v (splice 0 s.img (v.clusterSpan d).off (ByteRegions.slice folder
          (entrySize * s.index) (clusterBytes v.boot))) c = cluster v s.img c := by
        refine slice_splice_disjoint (hin' c hC) ?_
        rw [hlen]
        exact clusterSpan_apart hg he
      rw [hs]
      exact hc' c hC
  · exact Except.ok.inj h ▸ ⟨hin, hc⟩

/-- The cluster belongs to a directory that the volume holds. -/
def OfDirectory (v : Volume) (img : Bytes) (c : ℕ) : Prop :=
  ∃ d, Held v img d ∧ isDirectory d.attr ∧ Reaches v.nextCluster 0 (v.firstCluster d) c

theorem HeldAs.setNameHead (h : HeldAs v img b e) : HeldAs v img b (e.setNameHead b) := by
  obtain ⟨d, hd, rfl | rfl⟩ := h
  · exact ⟨e, hd, .inr rfl⟩
  · exact ⟨d, hd, .inr (setNameHead_setNameHead d b b)⟩

/-- If a term finds the entry, it is a held one, perhaps with another first name byte. -/
def FoundHeld (v : Volume) (img : Bytes) (b : UInt8) (e : FatDirLayout) : Prop :=
  Matchable e → HeldAs v img b e

theorem allEntries_of_markEntry {parent : Option FatDirLayout} {m m' : Marking} {i : ℕ}
    (hf : Matchable f) (h : markEntry w parent size f b m i = .ok m')
    (hm : AllEntries (FoundHeld v img b) m.folder) :
    AllEntries (FoundHeld v img b) m'.folder := by
  obtain ⟨-, -, hent, -⟩ := of_markEntry h
  intro j e he
  rw [hent] at he
  cases hj : entryAt m.folder j with
  | error x => simp [hj, Except.map] at he
  | ok d =>
      rw [hj, Except.map, Except.ok.injEq] at he
      have hd := hm j d hj
      rw [← he]
      split_ifs with hm'
      · exact fun _ => (hd (hm'.2 ▸ hf)).setNameHead
      · exact hd

theorem cluster_of_edits (h : Edits v w) (img : Bytes) (c : ℕ) :
    cluster w img c = cluster v img c := by
  rw [cluster, cluster, h.clusterSpan]

theorem inImage_of_edits (h : Edits v w) : InImage w img c ↔ InImage v img c := by
  rw [InImage, InImage, h.clusterSpan]

theorem allEntries_of_markLoop {m m' : Marking} (hg : Geometry v.boot) (hE : Edits v w)
    (hin : ∀ c, OfDirectory v img c → InImage v m.image c)
    (hc : ∀ c, OfDirectory v img c → AllEntries (FoundHeld v img b) (cluster v m.image c))
    (hfolder : AllEntries (FoundHeld v img b) m.folder) (hf : Matchable f)
    (h : (List.range size).foldlM (markEntry w (some p) size f b) m = .ok m') :
    ∀ c, OfDirectory v img c → AllEntries (FoundHeld v img b) (cluster v m'.image c) := by
  have hI := foldlM_range_partial (I := fun _ m => AllEntries (FoundHeld v img b) m.folder ∧
    (∀ c, OfDirectory v img c → InImage w m.image c) ∧
    ∀ c, OfDirectory v img c → AllEntries (FoundHeld v img b) (cluster w m.image c)) h
    ⟨hfolder, fun c hC => (inImage_of_edits hE).mpr (hin c hC), fun c hC => by
      rw [cluster_of_edits hE]
      exact hc c hC⟩ (by
    rintro k r t - ⟨hr, hin', hc'⟩ ht
    have hfold := allEntries_of_markEntry hf ht hr
    obtain ⟨-, -, -, rfl | hwrite⟩ := of_markEntry ht
    · exact ⟨hr, hin', hc'⟩
    · exact ⟨hfold, allEntries_of_writeDir (hE.boot ▸ hg) hfold hin' hc' hwrite⟩)
  intro c hC
  rw [← cluster_of_edits hE]
  exact hI.2.2 c hC

/-- What a volume holds behind a change, if its root directory and the clusters of its
directories hold no other entries than before. -/
theorem heldAs_of_held (hE : Edits v w)
    (hroot : ∀ i < v.boot.rootEntryCount.toNat, ∀ e, entryAt w.rootDir i = .ok e →
      FoundHeld v img b e)
    (hc : ∀ c, OfDirectory v img c → AllEntries (FoundHeld v img b) (cluster v img' c))
    (h : Held w img' e) : HeldAs v img b e := by
  induction h with
  | root hi he hm => exact hroot _ (hE.boot ▸ hi) _ he hm
  | inside _ hdir hr he hm ih =>
      obtain ⟨d, hd, hattr, hfirst⟩ := ih.attr
      rw [hE.firstCluster, hfirst] at hr
      rw [cluster_of_edits hE] at he
      exact hc _ ⟨d, hd, hattr ▸ hdir, hE.reaches hr⟩ _ _ he hm

end Marking

section Commands
variable {fill : ℕ → UInt8} {s s' : Session} {fresh freshParent f : FatDirLayout} {dir pndir : Text}
variable {parent : Option FatDirLayout} {folder : Bytes} {size : ℕ} {b : UInt8} {w : Volume}
variable {lines : List Line}

theorem Numbered.held_of_find (h : Numbered s.volume s.image) {path : Text}
    (hn : components path ≠ []) (hf : find fill s.volume s.image fresh path = .ok (some f)) :
    Held s.volume s.image f :=
  h.held_of_findLoop (fun _ hi _ he hm => .root hi he hm) hn hf

/-- Marking entries keeps a volume numbered, behind any ending of chains. -/
theorem Numbered.of_markEntries (h : Numbered s.volume s.image) (hE : Edits s.volume w)
    (hw : w.rootDir = s.volume.rootDir) (hf : Matchable f)
    (hn : pndir ≠ [slash] → components pndir ≠ [])
    (ho : openParent fill s freshParent pndir = .ok (parent, folder, size))
    (hm : markEntries s w parent folder size f b = .ok s') : Numbered s'.volume s'.image := by
  have hE' := edits_of_markEntries hE hw ho hm
  have hlong := (changedIn_of_markEntries hE ho hm).length
  have hdirs (c : ℕ) (hc : OfDirectory s.volume s.image c) :
      InImage s.volume s.image c ∧ AllEntries (FoundHeld s.volume s.image b)
        (cluster s.volume s.image c) := by
    obtain ⟨d, hd, hdir, hr⟩ := hc
    exact ⟨h.inImage c (h.dataCluster (h.held d hd) hr),
      fun i e he hm => ⟨e, .inside hd hdir hr he hm, .inl rfl⟩⟩
  have hall : (∀ i < s.volume.boot.rootEntryCount.toNat, ∀ e,
      entryAt s'.volume.rootDir i = .ok e → FoundHeld s.volume s.image b e) ∧
      ∀ c, OfDirectory s.volume s.image c →
        AllEntries (FoundHeld s.volume s.image b) (cluster s.volume s'.image c) := by
    obtain ⟨m, hloop, hs⟩ := bind_eq_ok.mp hm
    rcases of_openParent ho with ⟨-, rfl, rfl, rfl⟩ | ⟨hr, p, hfind, rfl, hp⟩
    · rw [← Except.ok.inj hs]
      refine ⟨fun i hi e he => ?_, fun c hc => ?_⟩
      · obtain ⟨-, -, hent⟩ := of_markLoop hloop
        rw [show entryAt m.folder i = _ from hent i] at he
        cases hd : entryAt s.volume.rootDir i with
        | error x => simp [hd, Except.map] at he
        | ok d =>
            rw [hd, Except.map, Except.ok.injEq] at he
            have hheld : FoundHeld s.volume s.image b d := fun hm =>
              ⟨d, .root hi hd hm, .inl rfl⟩
            rw [← he, relabel]
            split_ifs with hrel
            · exact fun _ => (hheld (hrel.2 ▸ hf)).setNameHead
            · exact hheld
      · change AllEntries _ (cluster s.volume m.image c)
        rw [image_of_markLoop_root hloop]
        exact (hdirs c hc).2
    · rw [← Except.ok.inj hs]
      have hheld := h.held_of_find (hn hr) hfind
      have hfolder : AllEntries (FoundHeld s.volume s.image b) folder := by
        intro i e he hmatch
        rcases hp with hp | ⟨-, rfl⟩
        · exact ⟨e, h.held_of_parseDir hheld hp he hmatch, .inl rfl⟩
        · exact absurd (entryAt_eq_ok_iff.mp he).1 (by simp [entrySize])
      refine ⟨fun i hi e he hmatch => ?_, ?_⟩
      · rw [show entryAt w.rootDir i = _ from by rw [hw]] at he
        exact ⟨e, .root hi he hmatch, .inl rfl⟩
      · exact allEntries_of_markLoop h.geometry hE (fun c hc => (hdirs c hc).1)
          (fun c hc => (hdirs c hc).2) hfolder hf hloop
  refine ⟨h.toLinked.of_edits hE', hE'.boot ▸ h.geometry, fun c hc => ?_, fun e he => ?_⟩
  · rw [DataCluster, clusterCount_of_edits hE'] at hc
    exact (inImage_of_edits hE').mpr ((h.inImage c hc).trans hlong)
  · obtain ⟨d, hd, -, hfirst⟩ := (heldAs_of_held hE' hall.1 hall.2 he).attr
    rw [hE'.firstCluster, hfirst]
    exact (named_of_edits hE').mpr (h.held d hd)

theorem Numbered.of_delete (h : Numbered s.volume s.image)
    (hc : components (DeleteSafety.deletePath s dir) ≠ [])
    (hn : getParentPath (DeleteSafety.deletePath s dir) ≠ [slash] →
      components (getParentPath (DeleteSafety.deletePath s dir)) ≠ [])
    (hd : delete fill s fresh freshParent dir = .ok (s', lines)) :
    Numbered s'.volume s'.image := by
  rcases DeleteSafety.delete_cases hd with
    ⟨-, rfl⟩ | ⟨f, hf, parent, folder, size, w, _, ho, hw, hm⟩
  · exact h
  · exact h.of_markEntries (edits_of_freeChain hw) (rootDir_of_freeChain hw)
      (h.held_of_find hc hf).matchable hn ho hm

theorem Numbered.of_undelete (h : Numbered s.volume s.image)
    (hc : components (UndeleteSafety.undeletePath s dir) ≠ [])
    (hn : getParentPath (UndeleteSafety.undeletePath s dir) ≠ [slash] →
      components (getParentPath (UndeleteSafety.undeletePath s dir)) ≠ [])
    (hu : undelete fill s fresh freshParent dir = .ok (s', lines)) :
    Numbered s'.volume s'.image := by
  rcases UndeleteSafety.undelete_cases hu with
    ⟨-, rfl⟩ | ⟨f, hf, parent, folder, size, w, ho, hw, hm⟩
  · exact h
  · exact h.of_markEntries (edits_of_changeCluster hw (UndeleteSafety.link_endMark _))
      (rootDir_of_changeCluster hw) (h.held_of_find hc hf).matchable hn ho hm

end Commands

end TFAT.HeldEntries
