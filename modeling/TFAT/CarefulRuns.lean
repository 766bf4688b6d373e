import TFAT.HeapRuns
import TFAT.Remounts
import TFAT.SettledVolumes
import TFAT.TablePages

/-!
# Runs in which no command goes astray

Along a run over images whose numbers are in range and whose chains end, the mounted volume stays
such a volume. Then every command returns or ends the program by `udie` or `sdie`, as long as `cd`
is not used without a volume, the strings that are built fit in their blocks, and the parent of
what is deleted or undeleted is there, with one cluster at most.
-/
namespace TFAT.CarefulRuns
open ByteRegions LinkedChains LittleEndianWords DiskLayout ClusterTable VolumeMount PathText
open PathResolution LongNameParts UserCommands ShellCommands ShellRuns ListingRuns Fat16Flush
open ClusterPlacement SystemPlaces LeavingVolumes MarkingEffects TableAccesses HeldEntries
open NumberedRuns DeleteSafety UndeleteSafety TableDumps TableBlocks MirroredTables TablePages
open Remounts SettledVolumes OwnedBlocks HeapSearches HeapRuns

/-- Mounting the image reads a volume that is written back to its places, and on which every
walk ends. -/
structure SettledImage (fill : ℕ → UInt8) (img : Bytes) : Prop where
  format : Fat16Image img ∨ PlainRoot img
  settled : ∀ v, initFat fill img = .ok v → Settled v

/-- What the commands rely on and do not test: numbers in range, images on which every walk ends,
strings that fit, a volume in front of `cd`, and one cluster at most in the parent of what is
marked. -/
structure Careful (env : Env) (s : Shell) (i : Input) : Prop where
  brings : BringsNone env s i
  mounts : ∀ dev, i.command = .mount dev ∨ i.command = .wmount dev →
    ∀ img, s.files (env.canonical dev) = some img → SettledImage env.fill img
  fits : StringsFit env s i
  marks : ∀ path, MarkPath s i path →
    Markable env.fill s.session i.freshParent (getParentPath path)

structure Steady (s : Shell) : Prop where
  numbered : KeptNumbered s
  settled : s.fd ≠ none → Settled s.volume
  writesBack : ∀ file, s.fd = some ⟨file, true⟩ →
    ∃ img v, WritesBack (places img) img v ∧ Kept file img v s

variable {env : Env} {s t : Shell} {i : Input}

section Keeping

theorem mounts_of_careful (hc : Careful env s i) {dev : Text} {wflag : Bool}
    (h : i.command = if wflag then .wmount dev else .mount dev) {img : Bytes}
    (hf : s.files (env.canonical dev) = some img) : SettledImage env.fill img := by
  refine hc.mounts dev ?_ img hf
  cases wflag
  · exact .inl h
  · exact .inr h

/-- A command ends chains of a settled volume, or mounts another one. -/
theorem settled_of_performed (h : s.fd ≠ none → Settled s.volume) (hc : Careful env s i)
    (ht : Performed env s i t) : t.fd ≠ none → Settled t.volume := by
  intro hfd
  cases ht with
  | mounted hm hf hv ht =>
      subst ht
      exact (mounts_of_careful hc hm hf).settled _ hv
  | left _ hu =>
      rcases umount_cases hu with ⟨hn, rfl⟩ | ⟨fd, v, d, -, -, rfl⟩
      · exact absurd hn hfd
      · exact absurd rfl hfd
  | looked _ hv _ ht =>
      subst ht
      rw [show (s.resume _).volume = s.volume from hv]
      exact h hfd
  | deleted _ _ hd ht =>
      subst ht
      exact (h hfd).of_edits (effect_of_delete hd).edits
  | undeleted _ _ hd ht =>
      subst ht
      exact (h hfd).of_edits (effect_of_undelete hd).edits
  | dumped _ _ ht | same _ ht =>
      subst ht
      exact h hfd

theorem writesBack_of_step (h : Steady s) (hc : Careful env s i)
    (ht : step env s i = .ok (.running t)) (file : Text) (hfd : t.fd = some ⟨file, true⟩) :
    ∃ img v, WritesBack (places img) img v ∧ Kept file img v t := by
  by_cases hl : i.command.Leaves
  · cases performed_of_perform (step_running ht) with
    | @mounted dev wflag img v hm hf hv htt =>
        cases wflag with
        | false =>
            subst htt
            exact absurd hfd (by simp [mountedShell])
        | true =>
            obtain ⟨w, hW, hk, -⟩ := kept_of_mount hf (mounts_of_careful hc hm hf).format hm ht
            have hfile : env.canonical dev = file := by
              have := hk.writable.fd.symm.trans hfd
              simpa using this
            exact ⟨img, w, hW, hfile ▸ hk⟩
    | left _ hu =>
        rcases umount_cases hu with ⟨hn, rfl⟩ | ⟨fd, v, d, -, -, rfl⟩
        · exact absurd hfd (by simp [hn])
        · exact absurd hfd (by simp)
    | looked hn | same hn => exact absurd hl hn
    | deleted hm | undeleted hm | dumped hm => exact absurd hl (by simp [hm, Command.Leaves])
  · have hs := (kept_of_perform hl (step_running ht)).1
    obtain ⟨img, v, hW, hk⟩ := h.writesBack file (hs ▸ hfd)
    exact ⟨img, v, hW, (hk.next hl ht).1⟩

theorem Steady.step (h : Steady s) (hc : Careful env s i) (ht : step env s i = .ok (.running t)) :
    Steady t := by
  have hp := performed_of_perform (step_running ht)
  exact ⟨h.numbered.step hc.brings hp, settled_of_performed h.settled hc hp,
    writesBack_of_step h hc ht⟩

theorem steady_of_history {files : Text → Option Bytes} {trace : List Done}
    (h : History env (.initial files) trace s)
    (hc : ∀ d ∈ trace, Careful env d.start d.input) : Steady s := by
  induction h with
  | start =>
      exact ⟨fun hfd => absurd rfl hfd, fun hfd => absurd rfl hfd, fun _ hfd => by cases hfd⟩
  | @step trace s t i _ ht ih =>
      exact (ih fun d hd => hc d (by simp [hd])).step (hc ⟨i, s, t⟩ (by simp)) ht

end Keeping

section Returning
variable {α : Type} {body : Except Fault α}

/-- The call returns, or ends the program by itself. -/
def Returns (x : Except Fault α) : Prop := x = .error .died ∨ ∃ a, x = .ok a

theorem returns_testFd (h : s.fd ≠ none → Returns body) : Returns (testFd s body) := by
  by_cases hfd : s.fd = none
  · exact .inl (if_pos hfd)
  · rw [testFd, if_neg hfd]
    exact h hfd

theorem returns_testWFd (h : ∀ file, s.fd = some ⟨file, true⟩ → Returns body) :
    Returns (testWFd s body) := by
  rw [testWFd]
  split
  · rename_i file hfd
    exact h file hfd
  · exact .inl rfl

theorem returns_enter {body : Session → Except Fault (Session × List Line)}
    (h : ∃ r, body s.session = .ok r) : Returns (enter s body) := by
  obtain ⟨r, hr⟩ := h
  exact .inr ⟨s.resume r.1, by rw [enter, hr, ok_bind]⟩

theorem returns_look (h : ∃ a, body = .ok a) : Returns (look s body) := by
  obtain ⟨a, ha⟩ := h
  exact .inr ⟨s, by rw [look, ha, ok_bind]⟩

theorem exists_initFat {fill : ℕ → UInt8} {img : Bytes} (h : Fat16Image img ∨ PlainRoot img) :
    ∃ v, initFat fill img = .ok v := by
  rcases h with h | h
  · exact ⟨_, h.initFat_eq fill⟩
  · exact ⟨_, h.initFat_eq fill⟩

theorem returns_mount (hc : Careful env s i) {dev : Text} (wflag : Bool)
    (h : i.command = if wflag then .wmount dev else .mount dev) :
    Returns (mount env s dev wflag) := by
  unfold mount
  simp only
  split
  · rename_i img hf _
    obtain ⟨v, hv⟩ := exists_initFat (mounts_of_careful hc h hf).format
    rw [hv, ok_bind]
    split_ifs
    · exact .inl rfl
    · exact .inr ⟨_, rfl⟩
  · exact .inl rfl

theorem exists_umount (h : Steady s) : ∃ t, umount s = .ok t := by
  cases hfd : s.fd with
  | none => exact ⟨s, by rw [umount, hfd]⟩
  | some fd =>
      obtain ⟨file, writable⟩ := fd
      cases writable with
      | false => exact ⟨_, by rw [umount, hfd]; rfl⟩
      | true =>
          obtain ⟨img, v, hW, hk⟩ := h.writesBack file hfd
          obtain ⟨w, d, hflush, -⟩ := hW.flush s.volume s.image hk.edits hk.length
          obtain ⟨t, ht, -⟩ := umount_of_writeFat hfd hflush
          exact ⟨t, ht⟩

theorem exists_dumpFat {v : Volume} (hs : Settled v) : ∃ data, dumpFat v = .ok data := by
  have hread : ∀ k ∈ List.range v.tableSize, v.getCluster k =
      .ok (cell v.fatn.width v.fatTable (v.fatn.index k)) := by
    intro k hk
    rw [TableBlocks.getCluster_eq]
    exact fetch_of_hasCell (hs.rows k (List.mem_range.mp hk)).1
  exact ⟨_, by rw [dumpFat, mapM_of_forall hread, ok_bind]⟩

theorem returns_writeTable (hs : Settled s.volume) (path : Text) :
    Returns (writeTable env s path) := by
  obtain ⟨data, hdata⟩ := exists_dumpFat hs
  unfold writeTable
  simp only
  split_ifs
  · rw [hdata]
    exact .inr ⟨_, rfl⟩
  · exact .inl rfl

theorem exists_fat {v : Volume} (hs : Settled v) (answers : List Bool) :
    ∃ rows, fat v answers = .ok rows := by
  refine ⟨_, fatFrom_eq_ok_iff.mpr ⟨fun j hj => (hs.rows j ?_).1, rfl⟩⟩
  rw [List.mem_range'_1, Nat.zero_add] at hj
  exact hj.2.trans_le (Nat.min_le_left _ _)

/-- Each handler returns, or ends the program. -/
theorem returns_perform (h : Steady s) (hp : ∃ p, Represents s.lfn p) (hc : Careful env s i) :
    Returns (perform env s i) := by
  have hb := hc.brings
  obtain ⟨p, hp⟩ := hp
  obtain ⟨c, fresh, freshParent⟩ := i
  cases c with
  | quit | umount => exact .inr (exists_umount h)
  | mount dev => exact returns_mount hc false rfl
  | wmount dev => exact returns_mount hc true rfl
  | cd path =>
      have hfd : s.fd ≠ none := hc.fits.1
      change Returns (enter s fun r => cd env.fill r fresh path)
      exact returns_enter (exists_cd (h.numbered hfd) (h.settled hfd) path)
  | ls dir | lsdel dir =>
      refine returns_testFd fun hfd => returns_enter ?_
      refine exists_ls (h.numbered hfd) (h.settled hfd) hp _ (or_iff_not_imp_left.mpr fun hr => ?_)
      first
      | exact hb.components (.ls (.inl rfl) hfd hr)
      | exact hb.components (.ls (.inr rfl) hfd hr)
  | dump dir =>
      refine returns_testFd fun hfd => returns_enter ?_
      exact exists_dumpWith (h.numbered hfd) (h.settled hfd) _
        (hb.components (.dump (.inl rfl) hfd))
  | hdump dir =>
      refine returns_testFd fun hfd => returns_enter ?_
      exact exists_dumpWith (h.numbered hfd) (h.settled hfd) _
        (hb.components (.dump (.inr rfl) hfd))
  | chain index =>
      refine returns_testFd fun hfd => returns_look ?_
      obtain ⟨l, hl, -⟩ := (h.settled hfd).ends _ (hb hfd)
      exact ⟨_, by rw [chain, s.volume.clusters_eq_ok_iff.mpr hl, ok_bind]⟩
  | fat answers => exact returns_testFd fun hfd => returns_look (exists_fat (h.settled hfd) answers)
  | dumpFat path => exact returns_testFd fun hfd => returns_writeTable (h.settled hfd) path
  | testFat =>
      refine returns_testFd fun hfd => returns_look ?_
      exact ⟨_, testFat_eq_ok_iff.mpr ⟨(h.settled hfd).rows, rfl⟩⟩
  | delete dir =>
      refine returns_testWFd fun file hfd => returns_enter ?_
      have hm : MarkPath s ⟨.delete dir, fresh, freshParent⟩ (deletePath s.session dir) :=
        .delete rfl ⟨file, hfd⟩
      have hne : s.fd ≠ none := by simp [hfd]
      exact exists_delete (h.numbered hne) (h.settled hne) (hb.components (.mark hm))
        (fun hr => hb.components (.parent hm hr)) (hc.marks _ hm)
  | undelete dir =>
      refine returns_testWFd fun file hfd => returns_enter ?_
      have hm : MarkPath s ⟨.undelete dir, fresh, freshParent⟩ (undeletePath s.session dir) :=
        .undelete rfl ⟨file, hfd⟩
      have hne : s.fd ≠ none := by simp [hfd]
      exact exists_undelete (h.numbered hne) (h.settled hne) (hb.components (.mark hm))
        (fun hr => hb.components (.parent hm hr)) (hc.marks _ hm)
  | info | test cluster => exact returns_testFd fun _ => .inr ⟨s, rfl⟩
  | showCommand | other => exact .inr ⟨s, rfl⟩

end Returning

section Example
open DirectoryIO

theorem countedVolume_named {c : ℕ} (h : Named countedVolume c) : c = 0 ∨ c = 2 ∨ c = 3 := by
  have hcount : clusterCount countedVolume = 2 := by decide
  rw [Named, DataCluster, IsData, hcount] at h
  omega

theorem countedVolume_chain {c : ℕ} (h : c = 2 ∨ c = 3) : countedVolume.Chain c [c] := by
  rcases h with rfl | rfl
  · exact .step (by decide) (show countedVolume.nextCluster 2 = .ok 0 by decide +kernel) .stop
  · exact .step (by decide) (show countedVolume.nextCluster 3 = .ok 0 by decide +kernel) .stop

theorem countedVolume_settled : Settled countedVolume := by
  have hbytes : clusterBytes countedVolume.boot = 512 := by decide
  have hlen : countedVolume.fatTable.length = 512 := by decide +kernel
  have hbak : countedVolume.fatTableBak.length = 512 := by decide +kernel
  refine ⟨fun c hc => ?_, fun i hi => ?_, by decide +kernel⟩
  · rw [hbytes]
    rcases countedVolume_named hc with rfl | rfl | rfl
    · exact ⟨[], .stop, by decide⟩
    · exact ⟨[2], countedVolume_chain (.inl rfl), by decide⟩
    · exact ⟨[3], countedVolume_chain (.inr rfl), by decide⟩
  · have hsize : countedVolume.tableSize = 256 := by decide
    have hindex := index_le countedVolume.fatn i
    have hwidth : countedVolume.fatn.width = 2 := rfl
    rw [HasRow, HasCells, HasCell, HasCell, hlen, hbak, hwidth]
    omega

theorem countedImage_settled (fill : ℕ → UInt8) : SettledImage fill countedImage := by
  refine ⟨.inl countedImage_image, fun v hv => ?_⟩
  rw [countedImage_mounted, Except.ok.injEq] at hv
  exact hv ▸ countedVolume_settled

theorem mount_careful : Careful subFileEnv (.initial countedFiles) (input (.wmount [0x56])) := by
  have himage {img : Bytes} (h : (Shell.initial countedFiles).files
      (subFileEnv.canonical [0x56]) = some img) : countedImage = img := by
    simpa [Shell.initial, countedFiles, subFileEnv] using h
  refine ⟨fun img himg => himage himg ▸ countedImage_numbered _, ?_, trivial, ?_⟩
  · rintro dev (h | h) img himg
    · cases h
    · cases h
      exact himage himg ▸ countedImage_settled _
  · intro path h
    cases h with
    | delete hc | undelete hc => cases hc

theorem deleteFile_marks {path : Text} (h : MarkPath countedShell deleteFile path) :
    path = [slash, 0x53, 0x55, 0x42, slash, 0x46, 0x47, dot, 0x54, slash] := by
  cases h with
  | delete hc _ =>
      rw [← Command.delete.inj hc]
      decide
  | undelete hc _ => cases hc

theorem deleteFile_careful : Careful subFileEnv countedShell deleteFile := by
  refine ⟨?_, ?_, ?_, ?_⟩
  · intro path fresh hl
    cases hl with
    | cd hc _ => cases hc
    | ls hc _ _ => rcases hc with h | h <;> cases h
    | dump hc _ => rcases hc with h | h <;> cases h
    | mark hm =>
        rw [deleteFile_marks hm]
        decide
    | parent hm _ =>
        rw [deleteFile_marks hm]
        decide
  · rintro dev (h | h) <;> cases h
  · intro _
    unfold FitsBlock
    decide
  · intro path h
    rw [deleteFile_marks h]
    refine .inr ⟨subDir 2, by decide +kernel, fun _ l hl => ?_⟩
    exact (hl.unique (countedVolume_chain (.inl rfl))).symm ▸ le_rfl

end Example

end TFAT.CarefulRuns
