import TFAT.RelatedResults
import TFAT.ShellRuns

/-!
# What the commands do not see

The second table is read by `test_fat` only, and once a volume is mounted no command reads the
bytes in front of the data area. So sessions that differ in nothing else give the same answers
and go on to differ in nothing else.
-/
namespace TFAT.HiddenBytes
open ByteRegions LittleEndianWords LinkedChains DiskLayout ClusterTable ClusterPlacement
open FileDescriptor DirectoryIO PathText PathResolution LongNames UserCommands ShellCommands
open ShellRuns RelatedResults

structure SameFrom (off : ℕ) (img img' : Bytes) : Prop where
  length : img'.length = img.length
  data : ∀ x, off ≤ x → img'[x]? = img[x]?

/-- Volumes that differ in the contents of the second table. -/
def Twins (v w : Volume) : Prop :=
  ∃ b, w = { v with fatTableBak := b } ∧ b.length = v.fatTableBak.length

/-- Sessions that differ in the second table and in front of `off`, where no cluster lies. -/
structure Agree (off : ℕ) (s t : Session) : Prop where
  volume : Twins s.volume t.volume
  front : off ≤ s.volume.dataOffset
  image : SameFrom off s.image t.image
  currentPath : t.currentPath = s.currentPath
  lfn : t.lfn = s.lfn

section Images
variable {off p n : ℕ} {img img' : Bytes}

theorem SameFrom.slice (h : SameFrom off img img') (hp : off ≤ p) :
    ByteRegions.slice img' p n = ByteRegions.slice img p n :=
  slice_congr fun x hx _ => h.data x (hp.trans hx)

theorem SameFrom.mono {off' : ℕ} (h : SameFrom off img img') (hle : off ≤ off') :
    SameFrom off' img img' :=
  ⟨h.length, fun x hx => h.data x (hle.trans hx)⟩

theorem Agree.data {s t : Session} (h : Agree off s t) :
    SameFrom s.volume.dataOffset s.image t.image :=
  h.image.mono h.front

theorem getElem?_splice_gap {α : Type} {z : α} {l d : List α} {off i : ℕ} (hd : d ≠ [])
    (h₁ : l.length ≤ i) (h₂ : i < off) : (splice z l off d)[i]? = some z := by
  have hn : ¬ d.length = 0 := by simpa using hd
  have hlen : ((l ++ List.replicate (off - l.length) z).take off).length = off := by
    simp only [List.length_take, List.length_append, List.length_replicate]
    omega
  rw [splice, if_neg hn, List.append_assoc, List.getElem?_append_left (by omega),
    List.getElem?_take_of_lt h₂, List.getElem?_append_right h₁,
    List.getElem?_replicate_of_lt (by omega)]

theorem SameFrom.splice (h : SameFrom off img img') (d : Bytes) :
    SameFrom off (ByteRegions.splice 0 img p d) (ByteRegions.splice 0 img' p d) := by
  by_cases hd : d = []
  · subst hd
    simpa only [splice_nil] using h
  have hlen : (ByteRegions.splice 0 img' p d).length = (ByteRegions.splice 0 img p d).length := by
    rw [length_splice, length_splice, h.length]
  refine ⟨hlen, fun x hx => ?_⟩
  by_cases hin : p ≤ x ∧ x < p + d.length
  · rw [getElem?_splice_inside _ _ _ _ hin.1 hin.2, getElem?_splice_inside _ _ _ _ hin.1 hin.2]
  by_cases hl : x < img.length
  · rw [getElem?_splice_outside _ _ _ _ (by rw [h.length]; exact hl) (by omega),
      getElem?_splice_outside _ _ _ _ hl (by omega), h.data x hx]
  by_cases hp : x < p
  · rw [getElem?_splice_gap hd (by rw [h.length]; omega) hp, getElem?_splice_gap hd (by omega) hp]
  · rw [List.getElem?_eq_none (by rw [hlen, length_splice]; split_ifs <;> omega),
      List.getElem?_eq_none (by rw [length_splice]; split_ifs <;> omega)]

end Images

section Reading
variable {fill : ℕ → UInt8} {v w : Volume} {img img' : Bytes}

theorem off_le (v : Volume) (c : ℕ) : v.dataOffset ≤ v.clusterToSector c := by
  rw [Volume.clusterToSector_eq]
  exact Nat.le_add_left _ _

theorem readCluster_twins (hw : Twins v w) (hi : SameFrom v.dataOffset img img') :
    readCluster fill w img' = readCluster fill v img := by
  obtain ⟨b, rfl, -⟩ := hw
  funext s c
  have hslice : slice img' (v.clusterSpan c).off (v.clusterSpan c).len =
      slice img (v.clusterSpan c).off (v.clusterSpan c).len := hi.slice (off_le v c)
  change (if _ then _ else copyIn _ _ (slice img' (v.clusterSpan c).off (v.clusterSpan c).len) >>=
    _) = _
  rw [hslice]
  rfl

theorem parseDirSized_twins (hw : Twins v w) (hi : SameFrom v.dataOffset img img')
    (dir : FatDirLayout) : parseDirSized fill w img' dir = parseDirSized fill v img dir := by
  unfold parseDirSized
  rw [readCluster_twins hw hi]
  obtain ⟨b, rfl, -⟩ := hw
  rfl

theorem parseDir_twins (hw : Twins v w) (hi : SameFrom v.dataOffset img img')
    (dir : FatDirLayout) : parseDir fill w img' dir = parseDir fill v img dir := by
  rw [parseDir, parseDir, parseDirSized_twins hw hi]

theorem findLoop_twins (hw : Twins v w) (hi : SameFrom v.dataOffset img img') (f : FatDirLayout)
    (dir : Bytes) (size : ℕ) (tokens : List Text) :
    findLoop fill w img' f dir size tokens = findLoop fill v img f dir size tokens := by
  induction tokens generalizing f dir size with
  | nil => rfl
  | cons token rest ih =>
      simp only [findLoop, parseDir_twins hw hi, ih]

theorem find_twins (hw : Twins v w) (hi : SameFrom v.dataOffset img img') (f : FatDirLayout)
    (path : Text) : find fill w img' f path = find fill v img f path := by
  rw [find, find, findLoop_twins hw hi]
  obtain ⟨b, rfl, -⟩ := hw
  rfl

theorem dumpCluster_twins (hw : Twins v w) (hi : SameFrom v.dataOffset img img') :
    dumpCluster fill w img' = dumpCluster fill v img := by
  obtain ⟨b, rfl, -⟩ := hw
  funext r c
  have hload (n : ℕ) : (Descriptor.mk img' (v.clusterToSector c)).load fill n =
      (Descriptor.mk img (v.clusterToSector c)).load fill n := by
    rw [Descriptor.load, Descriptor.load, Descriptor.available, Descriptor.available]
    exact congrArg (splice 0 _ 0) (hi.slice (off_le v c))
  change (if r.1 < clusterBytes v.boot then Except.ok (r.1, r.2 ++
    (Descriptor.mk img' (v.clusterToSector c)).load fill r.1) else .ok (_, r.2 ++
    (Descriptor.mk img' (v.clusterToSector c)).load fill (clusterBytes v.boot))) = _
  rw [hload, hload]
  rfl

theorem list_twins {wcstombs : ℕ → Option Text} (hw : Twins v w) (lfn : LfnState) (block : Bytes)
    (size : ℕ) (showDeleted : Bool) :
    list fill wcstombs w lfn block size showDeleted =
      list fill wcstombs v lfn block size showDeleted := by
  obtain ⟨b, rfl, -⟩ := hw
  rfl

end Reading

section Writing
variable {v w : Volume} {img img' : Bytes} {off c x : ℕ}

theorem writeDir_twins (hw : Twins v w) (hi : SameFrom off img img') (dir : FatDirLayout)
    (entries : Bytes) (n : ℤ) : Related (SameFrom off) (writeDir v img dir entries n)
      (writeDir w img' dir entries n) := by
  obtain ⟨b, rfl, -⟩ := hw
  unfold writeDir
  by_cases hd : isDirectory dir.attr
  · rw [if_pos hd, if_pos hd]
    refine Related.bind (related_along (I := fun s t : Storing =>
      SameFrom off s.img t.img ∧ t.dirSize = s.dirSize ∧ t.index = s.index) ?_ _ _ ?_)
        fun s t _ _ h => .ok h.1
    swap
    · exact ⟨hi, rfl, rfl⟩
    rintro ⟨img, dirSize, index⟩ ⟨img', dirSize', index'⟩ c ⟨h, rfl, rfl⟩
    exact related_bind fun data _ => .ok ⟨h.splice data, rfl, rfl⟩
  · rw [if_neg hd, if_neg hd]
    exact .ok hi

theorem changeCluster_twins (hw : Twins v w) (c x : ℕ) :
    Related (fun v' w' => Twins v' w' ∧ v'.dataOffset = v.dataOffset) (v.changeCluster c x)
      (w.changeCluster c x) := by
  obtain ⟨b, rfl, hb⟩ := hw
  have hcell (i : ℕ) : HasCell v.fatn.width b i ↔ HasCell v.fatn.width v.fatTableBak i := by
    rw [HasCell, HasCell, hb]
  rw [v.changeCluster_eq, Volume.changeCluster_eq, Volume.store, Volume.store]
  by_cases hc : HasCell v.fatn.width v.fatTable (v.fatn.index c) ∧
      HasCell v.fatn.width v.fatTableBak (v.fatn.index c)
  · rw [if_pos hc, if_pos ⟨hc.1, (hcell _).mpr hc.2⟩]
    refine .ok ⟨⟨_, rfl, ?_⟩, rfl⟩
    exact (length_setCell x ((hcell _).mpr hc.2)).trans (hb.trans (length_setCell x hc.2).symm)
  · rw [if_neg hc, if_neg fun h => hc ⟨h.1, (hcell _).mp h.2⟩]
    exact .error _

theorem freeChain_twins (fuel : ℕ) (hw : Twins v w) (c : ℕ) :
    Related (fun r r' => Twins r.1 r'.1 ∧ r.1.dataOffset = v.dataOffset ∧ r'.2 = r.2)
      (freeChain fuel v c) (freeChain fuel w c) := by
  induction fuel generalizing v w c with
  | zero => exact .error _
  | succ fuel ih =>
      rw [freeChain, freeChain]
      split_ifs
      · exact .ok ⟨hw, rfl, rfl⟩
      · have hnext : w.nextCluster c = v.nextCluster c := by
          obtain ⟨b, rfl, -⟩ := hw
          rfl
        rw [hnext]
        refine related_bind fun d _ => (changeCluster_twins hw c 0).bind fun v' w' _ _ h => ?_
        refine (ih h.1 d).bind fun r r' _ _ hr => .ok ⟨hr.1, hr.2.1.trans h.2, ?_⟩
        exact congrArg (List.cons _) hr.2.2

end Writing

section Marking
variable {fill : ℕ → UInt8} {s t : Session} {v w : Volume} {off : ℕ}

theorem Agree.openParent (h : Agree off s t) (fresh : FatDirLayout) (pndir : Text) :
    UserCommands.openParent fill t fresh pndir = UserCommands.openParent fill s fresh pndir := by
  unfold UserCommands.openParent
  simp only [find_twins h.volume h.data, parseDirSized_twins h.volume h.data]
  obtain ⟨b, hv, -⟩ := h.volume
  rw [hv]

theorem Agree.markEntries (h : Agree off s t) (hw : Twins v w)
    (hoff : v.dataOffset = s.volume.dataOffset) (parent : Option FatDirLayout) (folder : Bytes)
    (size : ℕ) (file : FatDirLayout) (b : UInt8) : Related (Agree off)
      (UserCommands.markEntries s v parent folder size file b)
      (UserCommands.markEntries t w parent folder size file b) := by
  unfold UserCommands.markEntries
  refine Related.bind (related_foldlM (I := fun m m' : Marking => m'.folder = m.folder ∧
    SameFrom off m.image m'.image) ?_ _ ⟨rfl, h.image⟩) ?_
  · rintro ⟨folder, img⟩ ⟨folder', img'⟩ i ⟨rfl, hi⟩
    refine related_bind fun e _ => ?_
    split_ifs
    · refine related_bind fun r _ => ?_
      cases parent with
      | none => exact .ok ⟨rfl, hi⟩
      | some p => exact (writeDir_twins hw hi p r size).bind fun _ _ _ _ hi' => .ok ⟨rfl, hi'⟩
    · exact .ok ⟨rfl, hi⟩
  · rintro ⟨folder, img⟩ ⟨folder', img'⟩ - - ⟨rfl, hi⟩
    cases parent with
    | some p => exact .ok ⟨hw, hoff ▸ h.front, hi, h.currentPath, h.lfn⟩
    | none =>
        obtain ⟨b, rfl, hb⟩ := hw
        exact .ok ⟨⟨b, rfl, hb⟩, hoff ▸ h.front, hi, h.currentPath, h.lfn⟩

end Marking

/-- Both print the same lines and leave sessions that agree. -/
def Alike (off : ℕ) (r r' : Session × List Line) : Prop := r'.2 = r.2 ∧ Agree off r.1 r'.1

section Answers
variable {fill : ℕ → UInt8} {wcstombs : ℕ → Option Text} {s t : Session} {off : ℕ}
variable (h : Agree off s t) (fresh freshParent : FatDirLayout)
include h

theorem Agree.cd (path : Text) :
    Related (Alike off) (UserCommands.cd fill s fresh path)
      (UserCommands.cd fill t fresh path) := by
  have hmoved (npath : Text) :
      Agree off { s with currentPath := npath } { t with currentPath := npath } :=
    ⟨h.volume, h.front, h.image, rfl, h.lfn⟩
  unfold UserCommands.cd
  simp only [h.currentPath, find_twins h.volume h.data]
  split_ifs
  · exact .ok ⟨rfl, hmoved _⟩
  · refine related_bind fun found _ => ?_
    cases found with
    | none => exact .ok ⟨rfl, h⟩
    | some dir =>
        dsimp only
        split_ifs
        · exact .ok ⟨rfl, hmoved _⟩
        · exact .ok ⟨rfl, h⟩

theorem Agree.ls (dir : Option Text) (showDeleted : Bool) :
    Related (Alike off) (UserCommands.ls fill wcstombs s fresh dir showDeleted)
      (UserCommands.ls fill wcstombs t fresh dir showDeleted) := by
  have hopen : openListed fill t fresh dir = openListed fill s fresh dir := by
    unfold openListed
    simp only [h.currentPath, find_twins h.volume h.data, parseDir_twins h.volume h.data]
    obtain ⟨b, hv, -⟩ := h.volume
    rw [hv]
  rw [ls_eq, ls_eq, hopen, h.currentPath]
  refine related_bind fun opened _ => ?_
  cases opened with
  | none => exact .ok ⟨rfl, h⟩
  | some opened =>
      dsimp only
      rw [list_twins h.volume, h.lfn]
      exact related_bind fun l _ => .ok ⟨rfl, h.volume, h.front, h.image, rfl, rfl⟩

theorem Agree.dumpWith (format : Bytes → Line) (dir : Text) :
    Related (Alike off) (UserCommands.dumpWith fill s fresh format dir)
      (UserCommands.dumpWith fill t fresh format dir) := by
  unfold UserCommands.dumpWith
  simp only [h.currentPath, find_twins h.volume h.data, dumpCluster_twins h.volume h.data]
  refine related_bind fun found _ => ?_
  cases found with
  | none => exact .ok ⟨rfl, h⟩
  | some file =>
      have hchain : along t.volume.nextCluster 0 .endless (dumpCluster fill s.volume s.image)
          t.volume.fuel (t.volume.firstCluster file) (file.fileSize, []) =
          along s.volume.nextCluster 0 .endless (dumpCluster fill s.volume s.image)
          s.volume.fuel (s.volume.firstCluster file) (file.fileSize, []) := by
        obtain ⟨b, hv, -⟩ := h.volume
        rw [hv]
        rfl
      dsimp only
      rw [hchain]
      exact related_bind fun r _ => .ok ⟨rfl, h⟩

theorem Agree.delete (dir : Text) :
    Related (Alike off) (UserCommands.delete fill s fresh freshParent dir)
      (UserCommands.delete fill t fresh freshParent dir) := by
  unfold UserCommands.delete
  simp only [h.currentPath, find_twins h.volume h.data, h.openParent]
  refine related_bind fun found _ => related_bind fun opened _ => ?_
  obtain ⟨parent, folder, size⟩ := opened
  cases found with
  | none => exact .ok ⟨rfl, h⟩
  | some file =>
      have hsame : t.volume.fuel = s.volume.fuel ∧
          t.volume.firstCluster file = s.volume.firstCluster file := by
        obtain ⟨b, hv, -⟩ := h.volume
        rw [hv]
        exact ⟨rfl, rfl⟩
      dsimp only
      rw [hsame.1, hsame.2]
      refine (freeChain_twins _ h.volume _).bind ?_
      rintro ⟨v, lines⟩ ⟨w, lines'⟩ - - ⟨hw, hoff, rfl⟩
      exact (h.markEntries hw hoff parent folder size file _).bind
        fun r r' _ _ hr => .ok ⟨rfl, hr⟩

theorem Agree.undelete (dir : Text) :
    Related (Alike off) (UserCommands.undelete fill s fresh freshParent dir)
      (UserCommands.undelete fill t fresh freshParent dir) := by
  unfold UserCommands.undelete
  simp only [h.currentPath, find_twins h.volume h.data, h.openParent]
  refine related_bind fun found _ => ?_
  cases found with
  | none => exact .ok ⟨rfl, h⟩
  | some file =>
      have hsame : t.volume.firstCluster file = s.volume.firstCluster file := by
        obtain ⟨b, hv, -⟩ := h.volume
        rw [hv]
        rfl
      refine related_bind fun opened _ => ?_
      obtain ⟨parent, folder, size⟩ := opened
      dsimp only
      rw [hsame]
      refine (changeCluster_twins h.volume _ _).bind fun v w _ _ hw => ?_
      exact (h.markEntries hw.1 hw.2 parent folder size file _).bind
        fun r r' _ _ hr => .ok ⟨rfl, hr⟩

end Answers

end TFAT.HiddenBytes
