import TFAT.HeldEntries
import TFAT.LeavingVolumes
import TFAT.OutsideFaults

/-!
# Runs on volumes whose numbers are in range

Nothing stops an index from the disk or from the keyboard. Every index of a run
is below `table_size()` and has its cell in both tables, and every walked cluster
is a data cluster, when each volume is numbered at the moment it is mounted and
the commands bring in no other numbers: by typing them, by writing over the
mounted image, or by paths for which `find` returns a block that it has not set.
-/
namespace TFAT.NumberedRuns
open ByteRegions LittleEndianWords LinkedChains DiskLayout ClusterTable ClusterPlacement
open FileDescriptor VolumeMount VolumeLayout DirectoryIO PathText PathResolution UserCommands
open ShellCommands ShellRuns UndeleteSafety Fat16Flush MarkingEffects TableAccesses HeldEntries
open LeavingVolumes TableBlocks OutsideFaults

structure NumberedImage (fill : ℕ → UInt8) (img : Bytes) : Prop where
  loaded : selectFatn (bootSector fill img) = .fat32 → Linked (loadedFrom fill img)
  mounted : ∀ v, initFat fill img = .ok v → Numbered v img

/-- The command brings in no number from outside the mounted volume. -/
def BringsNone (env : Env) (s : Shell) (i : Input) : Prop :=
  match i.command with
  | .mount dev | .wmount dev =>
      ∀ img, s.files (env.canonical dev) = some img → NumberedImage env.fill img
  | .chain index => s.fd ≠ none → Named s.volume (index % 2 ^ 16)
  | .dumpFat path => ∀ fd, s.fd = some fd → env.canonical path ≠ fd.file
  | _ => ∀ path fresh, LooksUp s i path fresh → components path ≠ []

/-- A mounted volume is numbered. -/
def KeptNumbered (s : Shell) : Prop := s.fd ≠ none → Numbered s.volume s.image

variable {env : Env} {s t : Shell} {i : Input} {v : Volume} {c k : ℕ}

section Accesses

theorem BringsNone.components (h : BringsNone env s i) {path : Text} {fresh : FatDirLayout}
    (hl : LooksUp s i path fresh) : components path ≠ [] := by
  have hlook := hl
  unfold BringsNone at h
  cases hl with
  | cd hc _ => rw [hc] at h; exact h _ _ hlook
  | ls hc _ _ => rcases hc with hc | hc <;> (rw [hc] at h; exact h _ _ hlook)
  | dump hc _ => rcases hc with hc | hc <;> (rw [hc] at h; exact h _ _ hlook)
  | mark hm => cases hm with
    | delete hc _ | undelete hc _ => rw [hc] at h; exact h _ _ hlook
  | parent hm _ => cases hm with
    | delete hc _ | undelete hc _ => rw [hc] at h; exact h _ _ hlook

theorem mounted_of_writing (h : Writing s) : s.fd ≠ none := by
  obtain ⟨file, hfd⟩ := h
  simp [hfd]

theorem markPath_writing {path : Text} (h : MarkPath s i path) : Writing s := by
  cases h <;> assumption

theorem opened_eq_nil {fill : ℕ → UInt8} {img : Bytes} (h : v.rootDir = []) (path : Text) :
    opened fill v img path = [] := by
  have hnone (term : Text) (n : ℕ) : ∀ e, search [] term n ≠ .ok (some e) := by
    intro e he
    obtain ⟨j, -, hent, -⟩ := of_search he
    exact absurd (entryAt_eq_ok_iff.mp hent).1 (by simp [entrySize])
  rw [opened, h]
  cases PathText.components path with
  | nil => rfl
  | cons token rest =>
      rw [openedFrom]
      split
      · exact absurd (by assumption) (hnone _ _ _)
      · rfl

theorem changes_edits (h : Changes env s i v) : Edits s.volume v := by
  cases h with
  | delete _ _ hw => exact edits_of_freeChain hw
  | undelete _ _ hw => exact edits_of_changeCluster hw (UndeleteSafety.link_endMark _)

theorem named_of_finds (hk : KeptNumbered s) (hfd : s.fd ≠ none) {fresh e : FatDirLayout}
    {path : Text} (hc : PathText.components path ≠ []) (h : Finds env s fresh path e) :
    Named s.volume (s.volume.firstCluster e) :=
  (hk hfd).held e ((hk hfd).held_of_find (s := s.session) hc h)

/-- Every walk of a command goes over a table that is in range, from a number in range. -/
theorem linked_of_walks (hk : KeptNumbered s) (ht : s.fd ≠ none → HasTables s.volume)
    (hs : Consistent s) (hb : BringsNone env s i) {w : Walk} (h : Walks env s i w) :
    Linked w.volume ∧ HasTables w.volume ∧ Named w.volume w.first := by
  cases h with
  | @search path fresh e hl he _ =>
      by_cases hfd : s.fd = none
      · rw [opened_eq_nil (hs.released hfd).2.2] at he
        simp at he
      · have hn := hk hfd
        exact ⟨hn.toLinked, ht hfd,
          hn.held e (hn.held_of_openedFrom (fun _ hi _ he hm => .root hi he hm) he)⟩
  | ls hl hfd hp hf _ =>
      exact ⟨(hk hfd).toLinked, ht hfd, named_of_finds hk hfd (hb.components (.ls hl hfd hp)) hf⟩
  | dump hd hfd hf =>
      exact ⟨(hk hfd).toLinked, ht hfd, named_of_finds hk hfd (hb.components (.dump hd hfd)) hf⟩
  | chain hc hfd =>
      rw [BringsNone, hc] at hb
      exact ⟨(hk hfd).toLinked, ht hfd, hb hfd⟩
  | parent hp =>
      obtain ⟨path, hm, hr, hf, -⟩ := hp
      have hfd := mounted_of_writing (markPath_writing hm)
      exact ⟨(hk hfd).toLinked, ht hfd, named_of_finds hk hfd (hb.components (.parent hm hr)) hf⟩
  | writeBack hp hch =>
      obtain ⟨path, hm, hr, hf, -⟩ := hp
      have hfd := mounted_of_writing (markPath_writing hm)
      have hE := changes_edits hch
      refine ⟨(hk hfd).toLinked.of_edits hE, (ht hfd).of_edits hE, (named_of_edits hE).mpr ?_⟩
      rw [hE.firstCluster]
      exact named_of_finds hk hfd (hb.components (.parent hm hr)) hf
  | @loadRoot dev img hc hfile hn =>
      have hl : Linked (loadedFrom env.fill img) := by
        rcases hc with hc | hc <;> (rw [BringsNone, hc] at hb; exact (hb _ hfile).loaded hn)
      exact ⟨hl, hasTables_loadedFrom env.fill img, hl.root rfl⟩
  | storeRoot _ hw hn =>
      have hfd := mounted_of_writing hw
      exact ⟨(hk hfd).toLinked, ht hfd, (hk hfd).root hn⟩

theorem dataCluster_of_visits (hk : KeptNumbered s) (ht : s.fd ≠ none → HasTables s.volume)
    (hs : Consistent s) (hb : BringsNone env s i) (h : Visits env s i v c) :
    Linked v ∧ HasTables v ∧ DataCluster v c := by
  cases h with
  | walk hw hr =>
      obtain ⟨hl, htab, hn⟩ := linked_of_walks hk ht hs hb hw
      exact ⟨hl, htab, hl.dataCluster hn hr⟩
  | free hc hw hf hr =>
      have hfd := mounted_of_writing hw
      have hl := (hk hfd).toLinked
      exact ⟨hl, ht hfd, hl.dataCluster (named_of_finds hk hfd
        (hb.components (.mark (.delete hc hw))) hf) (reaches_of_frees hr)⟩

/-- Every index that a command uses is one of the table, and both tables have its cell. -/
theorem in_range_of_uses (hk : KeptNumbered s) (ht : s.fd ≠ none → HasTables s.volume)
    (hs : Consistent s) (hb : BringsNone env s i) (h : Uses env s i v k) :
    k < v.tableSize ∧ HasCells v k := by
  suffices hv : Linked v ∧ HasTables v ∧ k < v.tableSize from
    ⟨hv.2.2, hv.2.1.hasCells hv.1.unwrapped hv.2.2⟩
  cases h with
  | link hv =>
      obtain ⟨hl, htab, hc⟩ := dataCluster_of_visits hk ht hs hb hv
      exact ⟨hl, htab, hl.index_lt hc⟩
  | row _ hfd hlt => exact ⟨(hk hfd).toLinked, ht hfd, (index_le _ _).trans_lt hlt⟩
  | @mark dir f hc hw hf =>
      have hfd := mounted_of_writing hw
      have hl := (hk hfd).toLinked
      refine ⟨hl, ht hfd, ?_⟩
      rcases named_of_finds hk hfd (hb.components (.mark (.undelete hc hw))) hf with h₀ | hd
      · have hsize := hl.size
        have hle := index_le s.volume.fatn (s.volume.firstCluster f)
        omega
      · exact hl.index_lt hd

end Accesses

section Runs

/-- One command keeps a mounted volume numbered. -/
theorem KeptNumbered.step (hk : KeptNumbered s) (hb : BringsNone env s i)
    (ht : Performed env s i t) : KeptNumbered t := by
  cases ht with
  | @mounted dev wflag img v hc hf hv ht =>
      intro _
      have hfd : t.fd = some ⟨env.canonical dev, wflag⟩ := by rw [ht]; rfl
      have himg : t.image = img := stored_of_eq_some hfd (by rw [ht]; exact hf)
      have hn : NumberedImage env.fill img := by
        unfold BringsNone at hb
        cases wflag <;> (simp only [hc] at hb; exact hb img hf)
      rw [himg, ht]
      exact hn.mounted v hv
  | left _ hu =>
      rcases umount_cases hu with ⟨hn, rfl⟩ | ⟨fd, v, d, -, -, rfl⟩
      · exact hk
      · exact fun hfd => absurd rfl hfd
  | @looked r _ hv hi ht =>
      intro hfd
      rw [ht] at hfd ⊢
      obtain ⟨fd, hs⟩ := Option.ne_none_iff_exists'.mp hfd
      have himg : (s.resume r).image = s.image := (image_resume (s := s) hs r).trans hi
      rw [himg, show (s.resume r).volume = s.volume from hv]
      exact hk hfd
  | @deleted dir file r lines hc hfd hd ht =>
      intro _
      rw [ht, image_resume hfd r]
      have hw : Writing s := ⟨file, hfd⟩
      exact (hk (mounted_of_writing hw)).of_delete (s := s.session)
        (hb.components (.mark (.delete hc hw)))
        (fun hr => hb.components (.parent (.delete hc hw) hr)) hd
  | @undeleted dir file r lines hc hfd hd ht =>
      intro _
      rw [ht, image_resume hfd r]
      have hw : Writing s := ⟨file, hfd⟩
      exact (hk (mounted_of_writing hw)).of_undelete (s := s.session)
        (hb.components (.mark (.undelete hc hw)))
        (fun hr => hb.components (.parent (.undelete hc hw) hr)) hd
  | @dumped path data hc hfd ht =>
      intro _
      obtain ⟨fd, hs⟩ := Option.ne_none_iff_exists'.mp hfd
      rw [BringsNone, hc] at hb
      have hne := hb fd hs
      have himg : t.image = s.image := by
        have hst : t.fd = some fd := by rw [ht]; exact hs
        rw [image_eq hst, image_eq hs, ht]
        simp [storeFile, hne.symm]
      rw [himg, ht]
      exact hk hfd
  | same _ ht => exact ht ▸ hk

theorem KeptNumbered.run {files : Text → Option Bytes} {trace : List Done}
    (h : History env (.initial files) trace s)
    (hb : ∀ d ∈ trace, BringsNone env d.start d.input) : KeptNumbered s := by
  induction h with
  | start => exact fun hfd => absurd rfl hfd
  | @step trace s t i _ ht ih =>
      refine (ih fun d hd => hb d (by simp [hd])).step (i := i) ?_
        (performed_of_perform (step_running ht))
      exact hb ⟨i, s, t⟩ (by simp)

end Runs

section Example

theorem clusters_of_error {e : Fault} (hc : c ≠ 0) (h : v.nextCluster c = .error e) :
    v.clusters c = .error e := by
  rw [Volume.clusters, trail, Volume.fuel, along, if_neg hc, ok_bind, h, error_bind]

/-- The same volume with a number of sectors that fits its image. -/
def countedVolume : Volume :=
  { subFileVolume with boot := ⟨512, 1, 1, 2, 16, 6, 0xF8, 1, 0⟩ }

def countedImage : Bytes :=
  countedVolume.boot.toBytes ++ List.replicate 476 0 ++ countedVolume.fatTable ++
    countedVolume.fatTable ++ countedVolume.rootDir ++
    ((fileT 0x46 0x47 3).bytes ++ List.replicate 480 0) ++ List.replicate 512 0

def countedFiles : Text → Option Bytes := fun path =>
  if path = [0x56] then some countedImage else none

def countedShell : Shell where
  files := countedFiles
  fd := some ⟨[0x56], true⟩
  volume := countedVolume
  currentPath := [slash]
  label := []
  lfn := .initial

theorem countedVolume_plain : Plain16 countedVolume := by
  obtain ⟨hs, -, -, -, -, hcopy, h16, h32, -⟩ := subFileVolume_plain
  exact ⟨⟨rfl, rfl, hs.fatTable, hs.fatTableBak, hs.rootDir, rfl⟩, rfl, rfl, rfl, rfl, hcopy, h16,
    h32, by decide⟩

theorem countedImage_image : Fat16Image countedImage := by
  rw [countedImage, List.append_assoc]
  exact countedVolume_plain.image _

theorem countedImage_mounted (fill : ℕ → UInt8) :
    initFat fill countedImage = .ok countedVolume := by
  rw [countedImage_image.initFat_eq, countedImage, List.append_assoc]
  exact congrArg Except.ok (countedVolume_plain.mounted _)

theorem countedShell_mounted :
    step subFileEnv (.initial countedFiles) (input (.wmount [0x56])) =
      .ok (.running countedShell) := by
  have hl : getLabel countedVolume = [] := by decide
  have hf : (Shell.initial countedFiles).files (subFileEnv.canonical [0x56]) =
      some countedImage := by
    simp [Shell.initial, countedFiles, subFileEnv]
  have h := step_mount (i := input (.wmount [0x56])) true rfl hf rfl (countedImage_mounted _)
    (by decide)
  rw [mountedShell, hl] at h
  exact h

def namesInRange (block : Bytes) : Bool :=
  (List.range 16).all fun i => match entryAt block i with
    | .ok e => countedVolume.firstCluster e = 0 || countedVolume.firstCluster e = 2 ||
        countedVolume.firstCluster e = 3
    | .error _ => true

theorem named_of_namesInRange {block : Bytes} {i : ℕ} {e : FatDirLayout}
    (h : namesInRange block = true) (hi : i < 16) (he : entryAt block i = .ok e) :
    Named countedVolume (countedVolume.firstCluster e) := by
  have hc : clusterCount countedVolume = 2 := by decide
  have hn := List.all_eq_true.mp h i (List.mem_range.mpr hi)
  rw [he] at hn
  simp only [Bool.or_eq_true, decide_eq_true_eq] at hn
  rw [Named, DataCluster, IsData, hc]
  omega

theorem countedVolume_numbered : Numbered countedVolume countedImage := by
  have hc : clusterCount countedVolume = 2 := by decide
  have hdata {c : ℕ} (h : DataCluster countedVolume c) : c = 2 ∨ c = 3 := by
    rw [DataCluster, IsData, hc] at h
    omega
  have hlinked : Linked countedVolume := by
    refine ⟨fun hn => absurd hn (by decide), ?_, fun c h => ⟨0, ?_, .inl rfl⟩,
      fun hn => absurd hn (by decide)⟩
    · rw [hc]
      decide
    · rcases hdata h with rfl | rfl <;> decide +kernel
  refine ⟨hlinked, ⟨by decide, by decide, by decide⟩, fun c h => ?_, fun e he => ?_⟩
  · rw [InImage]
    rcases hdata h with rfl | rfl <;> decide +kernel
  · induction he with
    | root hi he _ => exact named_of_namesInRange (by decide +kernel) hi he
    | @inside d e c i _ _ hr he _ ih =>
        have hi : i < 16 := by
          have hle := (entryAt_eq_ok_iff.mp he).1
          have hlen := length_slice_le countedImage (countedVolume.clusterSpan c).off
            (countedVolume.clusterSpan c).len
          have hspan : (countedVolume.clusterSpan c).len = 512 := rfl
          rw [hspan] at hlen
          rw [cluster, hspan, entrySize] at hle
          omega
        rcases hdata (hlinked.dataCluster ih hr) with rfl | rfl
        · exact named_of_namesInRange (by decide +kernel) hi he
        · exact named_of_namesInRange (by decide +kernel) hi he

theorem countedImage_numbered (fill : ℕ → UInt8) : NumberedImage fill countedImage := by
  constructor
  · intro hn
    rw [bootSector_eq fill (by decide +kernel), countedImage_image.format] at hn
    exact absurd hn (by decide)
  · intro v hv
    rw [countedImage_mounted, Except.ok.injEq] at hv
    exact hv ▸ countedVolume_numbered

end Example

end TFAT.NumberedRuns
