import TFAT.ChainFreeing
import TFAT.CutChains
import TFAT.FileDumps
import TFAT.ListingRuns
import TFAT.NumberedRuns

/-!
# What the functions of fs.c and user.c need to return

On a numbered volume whose chains end, no search reads behind its array, no walk is endless and
no entry of the tables is outside of them. What deletions and undeletions do to the tables leaves
such a volume such a volume.
-/
namespace TFAT.SettledVolumes
open ByteRegions LinkedChains LittleEndianWords DiskLayout ClusterTable ClusterPlacement
open FileDescriptor VolumeTree DirectoryIO PathText PathResolution LongNames LongNameParts
open UserCommands ListedNames ChainRelease ChainFreeing MarkingEffects HeldEntries DeleteSafety
open UndeleteSafety FileDumps MirroredTables TableBlocks

/-- Every chain ends and has less bytes than 32 bits count, and the blocks have all the entries
that the loops over them go through. -/
structure Settled (v : Volume) : Prop where
  ends : ∀ c, Named v c → ∃ l, v.Chain c l ∧ l.length * clusterBytes v.boot < 2 ^ 32
  rows : ∀ i < v.tableSize, HasRow v i
  rootDir : entrySize * v.boot.rootEntryCount.toNat ≤ v.rootDir.length

section Editing
variable {v w : Volume} {c : ℕ}

theorem Settled.of_edits (h : Settled v) (hE : Edits v w) : Settled w := by
  refine ⟨fun c hc => ?_, fun i hi => ?_, ?_⟩
  · obtain ⟨l, hl, hsmall⟩ := h.ends c ((named_of_edits hE).mp hc)
    obtain ⟨m, rest, rfl, hm, -⟩ := hl.cut (C := fun y => w.nextCluster y ≠ v.nextCluster y)
      (fun y hy => (hE.nextCluster y).resolve_left hy) fun y hy => not_not.mp hy
    refine ⟨m, hm, lt_of_le_of_lt (Nat.mul_le_mul_right _ ?_) (hE.boot ▸ hsmall)⟩
    rw [List.length_append]
    exact Nat.le_add_right _ _
  · rw [tableSize_of_edits hE] at hi
    have hrow := h.rows i hi
    rw [HasRow, HasCells, HasCell, HasCell] at hrow ⊢
    rwa [hE.fatn, hE.fatTable, hE.fatTableBak]
  · rw [hE.boot, hE.rootDir]
    exact h.rootDir

theorem Settled.hasRow (h : Settled v) (hl : Linked v) (hc : DataCluster v c) : HasRow v c :=
  h.rows c (hc.2.trans_le hl.size)

theorem Settled.staysInside (h : Settled v) (hl : Linked v) (hc : Named v c) :
    StaysInside v c := by
  rintro i ⟨x, hx, rfl⟩
  exact h.hasRow hl (hl.dataCluster hc hx)

end Editing

section Opening
variable {v : Volume} {img : Bytes} {d : FatDirLayout} (fill : ℕ → UInt8)

/-- `parse_dir` returns an array that has all its entries, or none. -/
theorem exists_parseDirSized (hn : Numbered v img) (hs : Settled v) (hd : Held v img d) :
    parseDirSized fill v img d = .ok (none, 0) ∨ ∃ entries n,
      parseDirSized fill v img d = .ok (some entries, n) ∧ entrySize * n ≤ entries.length := by
  by_cases hdir : isDirectory d.attr
  · obtain ⟨l, hl, hsmall⟩ := hs.ends _ (hn.held d hd)
    have hin : ∀ c ∈ l, InImage v img c := fun c hc =>
      hn.inImage c (hn.dataCluster (hn.held d hd) (hl.reaches_iff.mpr hc))
    by_cases hne : l = []
    · refine .inl ?_
      rw [parseDirSized, if_pos hdir, v.along_of_chain hl, hne]
      rfl
    · refine .inr ⟨_, _, parseDir_eq_some_iff.mp (parseDir_eq fill hdir hl hne hn.geometry.pos
        hn.geometry.entries hin hsmall), ?_⟩
      rw [length_contents hin, Nat.mul_left_comm, Nat.mul_div_cancel' hn.geometry.entries]
  · exact .inl (by rw [parseDirSized, if_neg hdir])

theorem exists_parseDir (hn : Numbered v img) (hs : Settled v) (hd : Held v img d) :
    ∃ r, parseDir fill v img d = .ok r ∧
      ∀ entries n, r = some (entries, n) → entrySize * n ≤ entries.length := by
  rcases exists_parseDirSized fill hn hs hd with h | ⟨entries, n, h, hlen⟩
  · exact ⟨none, by rw [parseDir, h]; rfl, by simp⟩
  · refine ⟨some (entries, n), parseDir_eq_some_iff.mpr h, fun entries' n' he => ?_⟩
    obtain ⟨rfl, rfl⟩ := Prod.mk.inj (Option.some.inj he)
    exact hlen

/-- The loop of `find` returns from an array of held entries. The induction is on the path. -/
theorem exists_findLoop (hn : Numbered v img) (hs : Settled v) {tokens : List Text}
    {dir : Bytes} {size : ℕ} (hsize : entrySize * size ≤ dir.length)
    (hheld : ∀ i < size, ∀ e, entryAt dir i = .ok e → Matchable e → Held v img e)
    (file : FatDirLayout) :
    ∃ r, findLoop fill v img file dir size tokens = .ok r := by
  induction tokens generalizing dir size file with
  | nil => exact ⟨some file, by rw [findLoop]⟩
  | cons token rest ih =>
      obtain ⟨r, hr⟩ := search_returns_iff.mpr
        (.inr hsize : HasName dir token size ∨ _)
      rw [findLoop, hr, ok_bind]
      cases r with
      | none => exact ⟨none, rfl⟩
      | some tmp =>
          obtain ⟨i, hi, hent, hm⟩ := of_search hr
          have htmp := hheld i hi tmp hent ⟨token, hm⟩
          obtain ⟨p, hp, hlen⟩ := exists_parseDir fill hn hs htmp
          by_cases hrest : rest = []
          · exact ⟨some tmp, if_pos hrest⟩
          · simp only [if_neg hrest, hp, ok_bind]
            cases p with
            | none => exact ⟨none, rfl⟩
            | some p =>
                exact ih (hlen _ _ rfl) (fun j _ e he => hn.held_of_parseDir htmp hp he) tmp

theorem exists_find (hn : Numbered v img) (hs : Settled v) (fresh : FatDirLayout) (path : Text) :
    ∃ r, find fill v img fresh path = .ok r :=
  exists_findLoop fill hn hs hs.rootDir (fun _ hi _ he hm => .root hi he hm) fresh

end Opening

section Commands
variable {fill : ℕ → UInt8} {wcstombs : ℕ → Option Text} {s : Session}
variable {fresh freshParent : FatDirLayout}

theorem exists_cd (hn : Numbered s.volume s.image) (hs : Settled s.volume) (path : Text) :
    ∃ r, cd fill s fresh path = .ok r := by
  obtain ⟨file, hfile⟩ := exists_find fill hn hs fresh
    (addressConvertor s.currentPath (some path)).text
  rw [cd]
  simp only [hfile, ok_bind]
  split_ifs
  · exact ⟨_, rfl⟩
  · cases file with
    | none => exact ⟨_, rfl⟩
    | some dir => exact ⟨_, (apply_ite Except.ok _ _ _).symm⟩

theorem exists_ls (hn : Numbered s.volume s.image) (hs : Settled s.volume) {p : Option Parts}
    (hp : Represents s.lfn p) {dir : Option Text} (showDeleted : Bool)
    (hc : (addressConvertor s.currentPath dir).text = [slash] ∨
      components (addressConvertor s.currentPath dir).text ≠ []) :
    ∃ r, ls fill wcstombs s fresh dir showDeleted = .ok r := by
  have hopen : ∃ opened, openListed fill s fresh dir = .ok opened ∧
      ∀ entries n, opened = some (entries, n) → entrySize * n ≤ entries.length := by
    rw [openListed]
    split_ifs with hroot
    · refine ⟨_, rfl, fun entries n he => ?_⟩
      obtain ⟨rfl, rfl⟩ := Prod.mk.inj (Option.some.inj he)
      exact hs.rootDir
    · obtain ⟨file, hfile⟩ := exists_find fill hn hs fresh
        (addressConvertor s.currentPath dir).text
      simp only [hfile, ok_bind]
      cases file with
      | none => exact ⟨none, rfl, by simp⟩
      | some folder =>
          exact exists_parseDir fill hn hs (hn.held_of_find (hc.resolve_left hroot) hfile)
  obtain ⟨opened, hopened, hlen⟩ := hopen
  rw [ls_eq, hopened, ok_bind]
  cases opened with
  | none => exact ⟨_, rfl⟩
  | some opened =>
      obtain ⟨l, hl, -⟩ := list_of_represents wcstombs s.volume showDeleted fill
        (hlen opened.1 opened.2 rfl) hp
      simp only [hl, ok_bind]
      exact ⟨_, rfl⟩

theorem exists_dumpWith (hn : Numbered s.volume s.image) (hs : Settled s.volume)
    (format : Bytes → Line) {dir : Text}
    (hc : components (addressConvertor s.currentPath (some dir)).text ≠ []) :
    ∃ r, dumpWith fill s fresh format dir = .ok r := by
  obtain ⟨file, hfile⟩ := exists_find fill hn hs fresh
    (addressConvertor s.currentPath (some dir)).text
  rw [dumpWith]
  simp only [hfile, ok_bind]
  cases file with
  | none => exact ⟨_, rfl⟩
  | some file =>
      obtain ⟨l, hl, -⟩ := hs.ends _ (hn.held file (hn.held_of_find hc hfile))
      obtain ⟨rest, hrest⟩ := foldlM_dumpCluster fill s.volume s.image l file.fileSize []
      simp only [s.volume.along_of_chain hl, hrest, ok_bind]
      exact ⟨_, rfl⟩

end Commands

section Marking
variable (fill : ℕ → UInt8) (s : Session) (freshParent : FatDirLayout)

/-- The parent is the root directory, or it is found and has one cluster at most. -/
def Markable (pndir : Text) : Prop :=
  pndir = [slash] ∨ ∃ p, find fill s.volume s.image freshParent pndir = .ok (some p) ∧
    (isDirectory p.attr → ∀ l, s.volume.Chain (s.volume.firstCluster p) l → l.length ≤ 1)

variable {fill s freshParent} {fresh : FatDirLayout} {pndir dir : Text} {w : Volume}

/-- The array of a parent, and the one cluster that it is written back to. -/
structure Backed (v : Volume) (parent : Option FatDirLayout) (folder : Bytes) (size : ℕ) :
    Prop where
  entries : entrySize * size ≤ folder.length
  cluster : size ≠ 0 → ∀ p, parent = some p → isDirectory p.attr ∧
    ∃ c, v.Chain (v.firstCluster p) [c] ∧ clusterBytes v.boot ≤ folder.length

theorem exists_openParent (hn : Numbered s.volume s.image) (hs : Settled s.volume)
    (hc : pndir ≠ [slash] → components pndir ≠ []) (hm : Markable fill s freshParent pndir) :
    ∃ parent folder size, openParent fill s freshParent pndir = .ok (parent, folder, size) ∧
      Backed s.volume parent folder size := by
  by_cases hroot : pndir = [slash]
  · exact ⟨_, _, _, if_pos hroot, hs.rootDir, by simp⟩
  obtain ⟨p, hp, hone⟩ := hm.resolve_left hroot
  rw [openParent, if_neg hroot]
  rcases exists_parseDirSized fill hn hs (hn.held_of_find (hc hroot) hp) with
    hr | ⟨entries, n, hr, hlen⟩
  · simp only [hp, hr, ok_bind]
    exact ⟨_, _, _, rfl, by simp, by simp⟩
  · simp only [hp, hr, ok_bind]
    refine ⟨_, _, _, rfl, hlen, fun _ q hq => ?_⟩
    obtain rfl := Option.some.inj hq
    obtain ⟨hdir, l, hl, hne, hsize, -⟩ :=
      shape_of_parseDir hn.geometry.entries (parseDir_eq_some_iff.mpr hr)
    have hlast : l.length = 1 :=
      le_antisymm (hone hdir l hl) (List.length_pos_iff.mpr hne)
    obtain ⟨c, rfl⟩ := List.length_eq_one_iff.mp hlast
    refine ⟨hdir, c, hl, ?_⟩
    rw [hlast, Nat.one_mul] at hsize
    exact hsize.symm.trans_le hlen

/-- The loop that marks entries returns: each round writes the same cluster. -/
theorem exists_markEntries (hE : Edits s.volume w) {parent : Option FatDirLayout}
    {folder : Bytes} {size : ℕ} (hb : Backed s.volume parent folder size) (f : FatDirLayout)
    (b : UInt8) : ∃ t, markEntries s w parent folder size f b = .ok t := by
  suffices h : ∃ m, (List.range size).foldlM (markEntry w parent size f b) ⟨folder, s.image⟩ =
      .ok m ∧ m.folder.length = folder.length by
    obtain ⟨m, hm, -⟩ := h
    rw [markEntries, hm, ok_bind]
    cases parent <;> exact ⟨_, rfl⟩
  refine foldlM_total (I := fun _ (m : Marking) => m.folder.length = folder.length) rfl ?_
  intro done i todo m hl hlen
  have hi : i < size := List.mem_range.mp (hl ▸ by simp)
  have hent := hb.entries
  have hin : entrySize * i + entrySize ≤ m.folder.length := by
    have := Nat.mul_le_mul_left entrySize (Nat.succ_le_of_lt hi)
    rw [Nat.mul_succ] at this
    omega
  rw [markEntry, entryAt, dif_pos hin, ok_bind]
  split_ifs with hf
  · have hstore : entrySize * i + [b].length ≤ m.folder.length :=
      (Nat.add_le_add_left (show 1 ≤ entrySize by decide) _).trans hin
    have hcopy := copyIn_of_le hstore
    have hfolder := (length_copyIn hcopy).trans hlen
    rw [hcopy, ok_bind]
    cases parent with
    | none => exact ⟨_, rfl, hfolder⟩
    | some p =>
        obtain ⟨hdir, c, hc, hbytes⟩ := hb.cluster (by omega) p rfl
        have hc' : w.Chain (w.firstCluster p) [c] := hE.firstCluster ▸ hE.chain_singleton hc
        simp only [writeDir_of_single hdir hc' (by rw [hfolder, hE.boot]; exact hbytes), ok_bind]
        exact ⟨_, rfl, hfolder⟩
  · exact ⟨m, rfl, hlen⟩

theorem exists_delete (hn : Numbered s.volume s.image) (hs : Settled s.volume)
    (hc : components (deletePath s dir) ≠ [])
    (hpc : getParentPath (deletePath s dir) ≠ [slash] →
      components (getParentPath (deletePath s dir)) ≠ [])
    (hm : Markable fill s freshParent (getParentPath (deletePath s dir))) :
    ∃ r, delete fill s fresh freshParent dir = .ok r := by
  obtain ⟨file, hfile⟩ := exists_find fill hn hs fresh (deletePath s dir)
  obtain ⟨parent, folder, size, ho, hb⟩ := exists_openParent hn hs hpc hm
  rw [deletePath] at hfile hc ho
  rw [delete]
  simp only [hfile, ho, ok_bind]
  cases file with
  | none => exact ⟨_, rfl⟩
  | some f =>
      obtain ⟨t, k, lines, hfree, -⟩ := exists_freeChain (hs.staysInside hn.toLinked
        (hn.held f (hn.held_of_find hc hfile)))
      obtain ⟨r, hr⟩ := exists_markEntries (edits_of_freeChain hfree) hb f 0xE5
      simp only [hfree, hr, ok_bind]
      exact ⟨_, rfl⟩

theorem exists_undelete (hn : Numbered s.volume s.image) (hs : Settled s.volume)
    (hc : components (undeletePath s dir) ≠ [])
    (hpc : getParentPath (undeletePath s dir) ≠ [slash] →
      components (getParentPath (undeletePath s dir)) ≠ [])
    (hm : Markable fill s freshParent (getParentPath (undeletePath s dir))) :
    ∃ r, undelete fill s fresh freshParent dir = .ok r := by
  obtain ⟨file, hfile⟩ := exists_find fill hn hs fresh (undeletePath s dir)
  obtain ⟨parent, folder, size, ho, hb⟩ := exists_openParent hn hs hpc hm
  rw [undeletePath] at hfile hc ho
  rw [undelete]
  simp only [hfile, ho, ok_bind]
  cases file with
  | none => exact ⟨_, rfl⟩
  | some f =>
      have hrow : HasRow s.volume (s.volume.firstCluster f) := by
        rcases hn.held f (hn.held_of_find hc hfile) with hzero | hdata
        · exact hs.rows _ (by have := hn.size; omega)
        · exact hs.hasRow hn.toLinked hdata
      have hchange := s.volume.changeCluster_of_hasCell 0x0FFFFFFF hrow.1 hrow.2
      obtain ⟨r, hr⟩ := exists_markEntries (edits_of_changeCluster hchange (link_endMark _)) hb f
        (fixDeletedChar dir).2
      simp only [hchange, hr, ok_bind]
      exact ⟨_, rfl⟩

end Marking

end TFAT.SettledVolumes
