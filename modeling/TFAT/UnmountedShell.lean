import TFAT.NumberedRuns

/-!
# The shell without a volume

Before the first mount and after `umount` the globals of the last volume are
still there, but the blocks behind them are not. Every command except `cd` tests
the descriptor first. `cd` goes on to search the root directory, which it finds
empty before the first mount and freed after `umount`.
-/
namespace TFAT.UnmountedShell
open ByteRegions LittleEndianWords DiskLayout ClusterTable FileDescriptor VolumeMount
open PathText EntryNames PathResolution UserCommands ShellCommands ShellRuns

/-- The shell with other files, other tables and another root directory. -/
def exchange (s : Shell) (files : Text → Option Bytes) (table bak root : Bytes) : Shell :=
  { s with
    files := files
    volume := { s.volume with fatTable := table, fatTableBak := bak, rootDir := root } }

variable (env : Env) (s : Shell) (i : Input)

/-- The command neither reads nor writes the files, the tables or the root directory:
whatever they are, it does the same and leaves them. -/
def LeavesReleased : Prop :=
  ∀ files table bak root, perform env (exchange s files table bak root) i =
    (perform env s i).map fun t => exchange t files table bak root

/-- A `cd` whose path has a component, while the count of root entries is not zero. -/
def SearchesRoot : Prop :=
  ∃ path, i.command = .cd path ∧
    (addressConvertor s.currentPath (some path)).text ≠ [slash] ∧
    components (addressConvertor s.currentPath (some path)).text ≠ [] ∧
    s.volume.boot.rootEntryCount.toNat ≠ 0

def Mounts : Prop := ∃ dev, i.command = .mount dev ∨ i.command = .wmount dev

variable {env s i}

theorem find_of_no_entries {fill : ℕ → UInt8} {v : Volume} {img : Bytes} {path : Text}
    (fresh : FatDirLayout) (hc : components path ≠ []) (hn : v.boot.rootEntryCount.toNat = 0) :
    find fill v img fresh path = .ok none := by
  obtain ⟨token, rest, hp⟩ := List.exists_cons_of_ne_nil hc
  rw [find, hp, hn]
  rfl

/-- Searching the freed root directory is an access outside it. -/
theorem find_of_freed {fill : ℕ → UInt8} {v : Volume} {img : Bytes} {path : Text}
    (fresh : FatDirLayout) (hc : components path ≠ []) (hn : v.boot.rootEntryCount.toNat ≠ 0)
    (hr : v.rootDir = []) : find fill v img fresh path = .error .wild := by
  obtain ⟨token, rest, hp⟩ := List.exists_cons_of_ne_nil hc
  obtain ⟨n, hn⟩ := Nat.exists_eq_succ_of_ne_zero hn
  rw [find, hp, hn, hr]
  rfl

theorem find_of_unused {fill : ℕ → UInt8} {v : Volume} {img : Bytes} {path : Text}
    (fresh : FatDirLayout) (hc : components path ≠ [])
    (hr : v.rootDir = List.replicate (entrySize * v.boot.rootEntryCount.toNat) 0) :
    find fill v img fresh path = .ok none := by
  obtain ⟨token, rest, hp⟩ := List.exists_cons_of_ne_nil hc
  have hlen : entrySize * v.boot.rootEntryCount.toNat ≤ v.rootDir.length := by
    rw [hr, List.length_replicate]
  obtain ⟨r, hs⟩ := search_returns_iff.mpr
    (.inr hlen : HasName v.rootDir token v.boot.rootEntryCount.toNat ∨ _)
  cases r with
  | none => rw [find, hp, findLoop, hs, ok_bind]
  | some e =>
      obtain ⟨j, hj, he, hm⟩ := of_search hs
      refine absurd ?_ (nameHead_ne_zero_of_matchesTerm hm)
      obtain ⟨hle, hb⟩ := entryAt_eq_ok_iff.mp he
      have hzero : slice v.rootDir (entrySize * j) entrySize = List.replicate entrySize 0 := by
        rw [hr, List.length_replicate] at hle
        rw [hr, slice, List.drop_replicate, List.take_replicate]
        congr 1
        omega
      rw [FatDirLayout.nameHead, hb, hzero]
      decide

theorem perform_cd_unmounted {path : Text} {r : Except Fault (Option FatDirLayout)}
    (hfd : s.fd = none) (hc : i.command = .cd path)
    (hr : find env.fill s.volume [] i.fresh (addressConvertor s.currentPath (some path)).text = r) :
    perform env s i =
      if (addressConvertor s.currentPath (some path)).text = [slash] then
        .ok { s with currentPath := (addressConvertor s.currentPath (some path)).text }
      else r.map fun file => match file with
        | none => s
        | some dir =>
            if isDirectory dir.attr then
              { s with currentPath := (addressConvertor s.currentPath (some path)).text }
            else s := by
  have himg : s.image = [] := by rw [Shell.image, hfd]; rfl
  have hresume (r : Session) : s.resume r =
      { s with volume := r.volume, currentPath := r.currentPath, lfn := r.lfn } := by
    simp only [Shell.resume, hfd]
  rw [perform, hc]
  simp only [enter, Shell.session, himg, UserCommands.cd, hr]
  split_ifs with hp
  · rw [ok_bind, hresume, hp]
  · cases r with
    | error e => rfl
    | ok file =>
        cases file with
        | none => simp only [ok_bind, hresume, Except.map]
        | some dir =>
            simp only [ok_bind, Except.map]
            split_ifs <;> simp only [ok_bind, hresume]

/-- The handler of `cd` without a volume leaves the released blocks if `find` does not see
them. -/
theorem exchange_cd {path : Text} (hfd : s.fd = none) (hc : i.command = .cd path)
    (hf : (addressConvertor s.currentPath (some path)).text = [slash] ∨
      ∀ table bak root, find env.fill
          { s.volume with fatTable := table, fatTableBak := bak, rootDir := root } []
          i.fresh (addressConvertor s.currentPath (some path)).text =
        find env.fill s.volume [] i.fresh (addressConvertor s.currentPath (some path)).text) :
    LeavesReleased env s i := by
  intro files table bak root
  rw [perform_cd_unmounted (s := exchange s files table bak root) hfd hc rfl,
    perform_cd_unmounted hfd hc rfl]
  rcases hf with hp | hf
  · rw [if_pos hp, if_pos (show (addressConvertor (exchange s files table bak root).currentPath
      (some path)).text = [slash] from hp)]
    rfl
  · rw [show find env.fill (exchange s files table bak root).volume [] i.fresh
      (addressConvertor (exchange s files table bak root).currentPath (some path)).text = _ from
        hf table bak root]
    change (if (addressConvertor s.currentPath (some path)).text = [slash] then _ else _) = _
    split_ifs with hp
    · rfl
    · cases find env.fill s.volume [] i.fresh
        (addressConvertor s.currentPath (some path)).text with
      | error e => rfl
      | ok file =>
          cases file with
          | none => rfl
          | some dir =>
              simp only [Except.map]
              split_ifs <;> rfl

/-- Every command but `cd` and the mounts ends in its test of the descriptor, or does
nothing. -/
theorem leavesReleased_of_tested (hfd : s.fd = none) (hm : ¬ Mounts i)
    (hc : ∀ path, i.command ≠ .cd path) : LeavesReleased env s i := by
  intro files table bak root
  have hfd' : (exchange s files table bak root).fd = none := hfd
  obtain ⟨c, fresh, freshParent⟩ := i
  cases c with
  | mount dev => exact absurd ⟨dev, .inl rfl⟩ hm
  | wmount dev => exact absurd ⟨dev, .inr rfl⟩ hm
  | cd path => exact absurd rfl (hc path)
  | quit | umount => simp only [perform, umount, hfd, hfd', Except.map]
  | ls | lsdel | chain | fat | dumpFat | testFat | dump | hdump | info | test =>
      simp only [perform, testFd, hfd, hfd', if_pos, Except.map]
  | delete | undelete => simp only [perform, testWFd, hfd, hfd', Except.map]
  | showCommand | other => rfl

/-- The search of `cd` reads the root directory. -/
theorem not_leavesReleased_of_searchesRoot (hs : Consistent s) (hfd : s.fd = none)
    (h : SearchesRoot s i) : ¬ LeavesReleased env s i := by
  obtain ⟨path, hc, hp, hcomp, hn⟩ := h
  intro hl
  have hblocks := hl s.files [] []
    (List.replicate (entrySize * s.volume.boot.rootEntryCount.toNat) 0)
  rw [perform_cd_unmounted hfd hc (find_of_freed _ hcomp hn (hs.released hfd).2.2), if_neg hp,
    perform_cd_unmounted (s := exchange s s.files [] [] _) hfd hc
      (find_of_unused (v := (exchange s s.files [] [] _).volume) _ hcomp rfl)] at hblocks
  rw [if_neg (show ¬ (addressConvertor (exchange s s.files [] [] _).currentPath
    (some path)).text = [slash] from hp)] at hblocks
  cases hblocks

/-- In every run, a command other than the mounts leaves the released state of an unmounted
shell alone exactly when it is no `cd` that searches the root directory. -/
theorem leavesReleased_iff {files : Text → Option Bytes} {trace : List Done}
    (h : History env (.initial files) trace s) (hfd : s.fd = none) (hm : ¬ Mounts i) :
    LeavesReleased env s i ↔ ¬ SearchesRoot s i := by
  refine ⟨fun hl hr => not_leavesReleased_of_searchesRoot h.consistent hfd hr hl, fun hr => ?_⟩
  by_cases hc : ∃ path, i.command = .cd path
  · obtain ⟨path, hc⟩ := hc
    refine exchange_cd hfd hc (or_iff_not_imp_left.mpr fun hp table bak root => ?_)
    by_cases hcomp : components (addressConvertor s.currentPath (some path)).text = []
    · rw [find_of_components_eq_nil _ hcomp, find_of_components_eq_nil _ hcomp]
    · have hn : s.volume.boot.rootEntryCount.toNat = 0 := by
        by_contra hn
        exact hr ⟨path, hc, hp, hcomp, hn⟩
      rw [find_of_no_entries _ hcomp hn]
      exact find_of_no_entries _ hcomp hn
  · exact leavesReleased_of_tested hfd hm fun path hp => hc ⟨path, hp⟩

section Example
open NumberedRuns LeavingVolumes

def readShell : Shell := mountedShell (.initial countedFiles) [0x56] false countedVolume

def leftShell : Shell :=
  { readShell with
    files := Function.update countedFiles [0x56] (some countedImage)
    fd := none
    volume := freeFat countedVolume
    currentPath := noPath
    label := noLabel }

theorem leftShell_history :
    ∃ trace, History subFileEnv (.initial countedFiles) trace leftShell := by
  have hfile : (Shell.initial countedFiles).files (subFileEnv.canonical [0x56]) =
      some countedImage := by
    simp [Shell.initial, countedFiles, subFileEnv]
  have hmount : step subFileEnv (.initial countedFiles) (input (.mount [0x56])) =
      .ok (.running readShell) :=
    step_mount false rfl hfile rfl (countedImage_mounted _) (by decide)
  have hfd : readShell.fd = some ⟨[0x56], false⟩ := rfl
  have himg : readShell.image = countedImage := stored_of_eq_some hfd hfile
  have hleave : step subFileEnv readShell (input .umount) = .ok (.running leftShell) := by
    have hp : perform subFileEnv readShell (input .umount) = .ok leftShell := by
      change umount readShell = _
      rw [umount, hfd]
      simp only [himg]
      rfl
    rw [step, hp]
    rfl
  exact ⟨_, .step (.step .start hmount) hleave⟩

/-- Behind `umount`, `cd A` reads the freed root directory. -/
theorem cd_reads_freed : ∃ trace, History subFileEnv (.initial countedFiles) trace leftShell ∧
    leftShell.fd = none ∧ ¬ Mounts (input (.cd [0x41])) ∧
      ¬ LeavesReleased subFileEnv leftShell (input (.cd [0x41])) := by
  obtain ⟨trace, h⟩ := leftShell_history
  refine ⟨trace, h, rfl, ?_, not_leavesReleased_of_searchesRoot h.consistent rfl ⟨[0x41], rfl, ?_⟩⟩
  · rintro ⟨dev, hc | hc⟩ <;> cases hc
  · decide

/-- Behind `umount`, `ls A` is rejected by its test of the descriptor. -/
theorem ls_leavesReleased : ∃ trace, History subFileEnv (.initial countedFiles) trace leftShell ∧
    LeavesReleased subFileEnv leftShell (input (.ls (some [0x41]))) := by
  obtain ⟨trace, h⟩ := leftShell_history
  refine ⟨trace, h, (leavesReleased_iff h rfl ?_).mpr ?_⟩
  · rintro ⟨dev, hc | hc⟩ <;> cases hc
  · rintro ⟨path, hc, -⟩
    cases hc

end Example

end TFAT.UnmountedShell
