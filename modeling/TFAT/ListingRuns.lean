import TFAT.SlotSequences
import TFAT.NumberedRuns

/-!
# Listings along a run

Only `ls` and `lsdel` ask the parser of long names, so along every run of the shell
its globals represent what some earlier listing has left. A run in which no listing
lends the left parts anything prints in each listing what the directory and the
arguments give behind a reset.
-/
namespace TFAT.ListingRuns
open ByteRegions LittleEndianWords DiskLayout ClusterTable FileDescriptor PathText EntryNames
open DirectoryIO PathResolution LongNames LongNameParts UserCommands ShellCommands ShellRuns
open ListedNames SlotSequences

def listingOf : Command → Option (Option Text × Bool)
  | .ls dir => some (dir, false)
  | .lsdel dir => some (dir, true)
  | _ => none

variable (env : Env)

/-- What a command prints, if it is a listing. -/
def output (s : Session) (i : Input) : Except Fault (List Line) :=
  match listingOf i.command with
  | none => .ok []
  | some (dir, showDeleted) =>
      (UserCommands.ls env.fill env.wcstombs s i.fresh dir showDeleted).map Prod.snd

/-- The command prints what it prints when the parser has just been reset. -/
def Independent (s : Shell) (i : Input) : Prop :=
  output env s.session i = output env { s.session with lfn := .initial } i

/-- The command lists a directory that lends something to the name parts that the parser
has kept. -/
def LeftNames (s : Shell) (i : Input) : Prop :=
  ∃ dir showDeleted block n, ∃ (m : ℕ) (u : Bytes),
    listingOf i.command = some (dir, showDeleted) ∧
      openListed env.fill s.session i.fresh dir = .ok (some (block, n)) ∧
      s.lfn.slot = m ∧ s.lfn.unicode = some u ∧
      Lends env.wcstombs showDeleted m (u.drop (26 * m)) (entriesFrom block 0 n)

section Step
variable {env} {fill : ℕ → UInt8} {wcstombs : ℕ → Option Text}

/-- A listing that returns leaves a parser that represents something. -/
theorem ls_represents {s : Session} {fresh : FatDirLayout} {dir : Option Text}
    {showDeleted : Bool} {r : Session × List Line} {p : Option Parts}
    (hp : Represents s.lfn p)
    (h : UserCommands.ls fill wcstombs s fresh dir showDeleted = .ok r) :
    ∃ p, Represents r.1.lfn p := by
  rw [ls_eq] at h
  obtain ⟨opened, -, h⟩ := bind_eq_ok.mp h
  cases opened with
  | none => exact ⟨p, by rw [← Except.ok.inj h]; exact hp⟩
  | some opened =>
      obtain ⟨l, hl, h⟩ := bind_eq_ok.mp h
      obtain ⟨t, ht, hr⟩ := list_of_represents wcstombs s.volume showDeleted fill (le_of_list hl) hp
      rw [ht, Except.ok.injEq] at hl
      rw [← Except.ok.inj h, ← hl]
      exact ⟨_, hr⟩

theorem globals_of_enter {s t : Shell} {body : Session → Except Fault (Session × List Line)}
    (h : enter s body = .ok t) (hb : ∀ r, body s.session = .ok r →
      ∃ w img, r.1 = { s.session with volume := w, image := img }) :
    t.lfn = s.lfn ∧ t.currentPath = s.currentPath := by
  obtain ⟨r, hr, rfl⟩ := enter_eq_ok h
  obtain ⟨w, img, hs⟩ := hb r hr
  change r.1.lfn = _ ∧ r.1.currentPath = _
  rw [hs]
  exact ⟨rfl, rfl⟩

theorem globals_of_perform {s t : Shell} {i : Input} (hl : ¬ i.command.Leaves)
    (hn : listingOf i.command = none) (hc : ∀ path, i.command ≠ .cd path)
    (h : perform env s i = .ok t) : t.lfn = s.lfn ∧ t.currentPath = s.currentPath := by
  obtain ⟨c, fresh, freshParent⟩ := i
  cases c with
  | quit | umount | mount dev | wmount dev => exact absurd trivial hl
  | ls dir | lsdel dir => cases hn
  | cd path => exact absurd rfl (hc path)
  | dump dir | hdump dir =>
      exact globals_of_enter (testFd_eq_ok h) fun r hr => ⟨_, _, dumpWith_result hr⟩
  | delete dir => exact globals_of_enter (testWFd_eq_ok h) fun r hr => delete_result hr
  | undelete dir => exact globals_of_enter (testWFd_eq_ok h) fun r hr => undelete_result hr
  | chain index | fat answers | testFat =>
      rw [look_eq_ok (testFd_eq_ok h)]
      exact ⟨rfl, rfl⟩
  | dumpFat path =>
      have hw := testFd_eq_ok h
      unfold writeTable at hw
      simp only at hw
      split_ifs at hw
      obtain ⟨data, -, hw⟩ := bind_eq_ok.mp hw
      rw [← Except.ok.inj hw]
      exact ⟨rfl, rfl⟩
  | info | test cluster =>
      rw [Except.ok.inj (testFd_eq_ok h)]
      exact ⟨rfl, rfl⟩
  | showCommand | other =>
      rw [Except.ok.inj h]
      exact ⟨rfl, rfl⟩

theorem cd_of_perform {s t : Shell} {i : Input} {path : Text} (hc : i.command = .cd path)
    (h : perform env s i = .ok t) :
    ∃ r, UserCommands.cd env.fill s.session i.fresh path = .ok r ∧ t = s.resume r.1 := by
  rw [perform, hc] at h
  exact enter_eq_ok h

theorem lfn_of_perform {s t : Shell} {i : Input} (hn : listingOf i.command = none)
    (h : perform env s i = .ok t) : t.lfn = s.lfn := by
  obtain ⟨c, fresh, freshParent⟩ := i
  cases c with
  | quit | umount =>
      rcases umount_cases h with ⟨-, rfl⟩ | ⟨fd, v, d, -, -, rfl⟩
      · rfl
      · rfl
  | mount dev | wmount dev =>
      obtain ⟨img, v, -, -, rfl⟩ := mount_eq_ok h
      rfl
  | cd path =>
      obtain ⟨r, hr, rfl⟩ := cd_of_perform rfl h
      obtain ⟨npath, hs⟩ := cd_result hr
      exact congrArg Session.lfn hs
  | _ => exact (globals_of_perform id hn (fun _ h => by cases h) h).1

/-- A listing that returns has entered `ls`. -/
theorem listing_of_perform {s t : Shell} {i : Input} {dir : Option Text} {showDeleted : Bool}
    (hn : listingOf i.command = some (dir, showDeleted)) (h : perform env s i = .ok t) :
    ∃ r, UserCommands.ls env.fill env.wcstombs s.session i.fresh dir showDeleted = .ok r ∧
      t = s.resume r.1 := by
  obtain ⟨c, fresh, freshParent⟩ := i
  cases c with
  | ls d | lsdel d =>
      obtain ⟨rfl, rfl⟩ := Prod.mk.inj (Option.some.inj hn)
      exact enter_eq_ok (testFd_eq_ok h)
  | _ => cases hn

/-- Along a run the globals of the parser represent what it holds. -/
theorem represents_of_history {files : Text → Option Bytes} {trace : List Done} {s : Shell}
    (h : History env (.initial files) trace s) : ∃ p, Represents s.lfn p := by
  induction h with
  | start => exact ⟨none, represents_initial⟩
  | @step trace s t i _ ht ih =>
      have hp := step_running ht
      obtain ⟨p, hr⟩ := ih
      cases hn : listingOf i.command with
      | none => exact ⟨p, by rw [lfn_of_perform hn hp]; exact hr⟩
      | some d =>
          obtain ⟨r, hls, rfl⟩ := listing_of_perform hn hp
          exact ls_represents hr hls

/-- What a listing prints, by what the parser holds. -/
theorem output_eq {s : Session} {i : Input} {dir : Option Text} {showDeleted : Bool}
    {block : Bytes} {n : ℕ} {p : Option Parts}
    (hn : listingOf i.command = some (dir, showDeleted))
    (ho : openListed env.fill s i.fresh dir = .ok (some (block, n)))
    (hb : entrySize * n ≤ block.length) (hp : Represents s.lfn p) :
    output env s i =
      .ok (listing env.wcstombs s.volume showDeleted p 0 (entriesFrom block 0 n)) := by
  obtain ⟨l, hl, -⟩ := list_of_represents env.wcstombs s.volume showDeleted env.fill hb hp
  simp only [output, hn, ls_eq, ho, ok_bind, hl]
  rfl

theorem leftNames_iff {s : Shell} {i : Input} {dir : Option Text} {showDeleted : Bool}
    {opened : Option (Bytes × ℕ)} (hn : listingOf i.command = some (dir, showDeleted))
    (ho : openListed env.fill s.session i.fresh dir = .ok opened) :
    LeftNames env s i ↔ ∃ block n, opened = some (block, n) ∧ ∃ (m : ℕ) (u : Bytes),
      s.lfn.slot = m ∧ s.lfn.unicode = some u ∧
      Lends env.wcstombs showDeleted m (u.drop (26 * m)) (entriesFrom block 0 n) := by
  constructor
  · rintro ⟨dir', showDeleted', block, n, m, u, hd, ho', hm, hu, hlends⟩
    obtain ⟨rfl, rfl⟩ := Prod.mk.inj (Option.some.inj (hn.symm.trans hd))
    exact ⟨block, n, Except.ok.inj (ho.symm.trans ho'), m, u, hm, hu, hlends⟩
  · rintro ⟨block, n, rfl, m, u, hm, hu, hlends⟩
    exact ⟨dir, showDeleted, block, n, m, u, hn, ho, hm, hu, hlends⟩

theorem lends_iff_of_represents {l : LfnState} {p : Option Parts} {showDeleted : Bool}
    {es : List FatDirLayout} (hp : Represents l p) :
    (∃ (m : ℕ) (u : Bytes), l.slot = m ∧ l.unicode = some u ∧
      Lends wcstombs showDeleted m (u.drop (26 * m)) es) ↔
      ∃ q, p = some q ∧ Lends wcstombs showDeleted q.missing q.chars es := by
  cases p with
  | none =>
      refine iff_of_false ?_ (by simp)
      rintro ⟨m, u, hm, -⟩
      rw [hp.1] at hm
      omega
  | some q =>
      obtain ⟨front, hf, hu⟩ := hp.unicode
      have hdrop : (front ++ q.chars).drop (26 * q.missing) = q.chars := by
        rw [← hf, List.drop_left]
      constructor
      · rintro ⟨m, u, hm, hu', hlends⟩
        obtain rfl : m = q.missing := by
          have := hp.slot
          omega
        rw [hu, Option.some.injEq] at hu'
        exact ⟨q, rfl, by rwa [← hu', hdrop] at hlends⟩
      · rintro ⟨q', hq, hlends⟩
        obtain rfl := Option.some.inj hq
        exact ⟨q.missing, _, hp.slot, hu, by rwa [hdrop]⟩

/-- A listing that returns is independent of what the parser holds exactly when it lends
nothing to it. -/
theorem independent_iff {s : Shell} {i : Input} {p : Option Parts} {lines : List Line}
    (hp : Represents s.lfn p) (h : output env s.session i = .ok lines) :
    Independent env s i ↔ ¬ LeftNames env s i := by
  unfold Independent
  cases hn : listingOf i.command with
  | none =>
      refine iff_of_true (by simp only [output, hn]) ?_
      rintro ⟨dir, showDeleted, block, n, m, u, hd, -⟩
      cases hn.symm.trans hd
  | some d =>
      obtain ⟨dir, showDeleted⟩ := d
      have hopen : openListed env.fill { s.session with lfn := .initial } i.fresh dir =
          openListed env.fill s.session i.fresh dir := rfl
      simp only [output, hn] at h
      obtain ⟨r, hr, -⟩ : ∃ r, UserCommands.ls env.fill env.wcstombs s.session i.fresh dir
          showDeleted = .ok r ∧ r.2 = lines := by
        cases hls : UserCommands.ls env.fill env.wcstombs s.session i.fresh dir showDeleted with
        | error e => rw [hls] at h; cases h
        | ok r => rw [hls] at h; exact ⟨r, rfl, Except.ok.inj h⟩
      rw [ls_eq] at hr
      obtain ⟨opened, ho, hr⟩ := bind_eq_ok.mp hr
      rw [leftNames_iff hn ho]
      cases opened with
      | none =>
          refine iff_of_true ?_ (by simp)
          simp only [output, hn, ls_eq, hopen, ho, ok_bind]
          rfl
      | some opened =>
          obtain ⟨block, n⟩ := opened
          obtain ⟨l, hl, -⟩ := bind_eq_ok.mp hr
          have hb := le_of_list hl
          rw [output_eq hn ho hb hp, output_eq hn (hopen.trans ho) hb represents_initial,
            Except.ok.injEq]
          simp only [Option.some.injEq, Prod.mk.injEq, and_assoc, lends_iff_of_represents hp]
          cases p with
          | none => simp
          | some q => simpa using listing_eq_iff

theorem exists_output {s t : Shell} {i : Input} (h : step env s i = .ok (.running t)) :
    ∃ lines, output env s.session i = .ok lines := by
  unfold output
  cases hn : listingOf i.command with
  | none => exact ⟨[], rfl⟩
  | some l =>
      obtain ⟨r, hr, -⟩ := listing_of_perform hn (step_running h)
      exact ⟨r.2, by simp only [hr]; rfl⟩

end Step

section Example
open VolumeMount VolumeLayout Fat16Flush LeavingVolumes NumberedRuns

/-- A FAT16 volume with the directory `SUB` in its root, and behind it a slot that no entry
claims. `SUB` holds its two dot entries. -/
def slotVolume : Volume :=
  { countedVolume with
    rootDir := (dirNamed 0x53 0x55 0x42 2).bytes ++ (slotX 0).bytes ++ List.replicate 448 0 }

def slotImage : Bytes :=
  slotVolume.boot.toBytes ++ List.replicate 476 0 ++ slotVolume.fatTable ++
    slotVolume.fatTable ++ slotVolume.rootDir ++
    ((dirNamed 0x2E 0x20 0x20 2).bytes ++ (dirNamed 0x2E 0x2E 0x20 0).bytes ++
      List.replicate 448 0) ++ List.replicate 512 0

def slotFiles : Text → Option Bytes := fun path => if path = [0x56] then some slotImage else none

theorem slotVolume_plain : Plain16 slotVolume := by
  obtain ⟨hs, hf, hsec, hres, htab, hcopy, h16, h32, hbelow⟩ := countedVolume_plain
  refine ⟨⟨hs.fatn, rfl, hs.fatTable, hs.fatTableBak, ?_, hs.dataOffset⟩, hf, hsec, hres, htab,
    hcopy, h16, h32, hbelow⟩
  change List.length (_ ++ _ ++ _) = _
  rw [List.length_append, List.length_append, List.length_replicate, FatDirLayout.length_bytes,
    FatDirLayout.length_bytes]
  rfl

theorem slotImage_image : Fat16Image slotImage := by
  rw [slotImage, List.append_assoc]
  exact slotVolume_plain.image _

theorem slotImage_mounted (fill : ℕ → UInt8) : initFat fill slotImage = .ok slotVolume := by
  rw [slotImage_image.initFat_eq, slotImage, List.append_assoc]
  exact congrArg Except.ok (slotVolume_plain.mounted _)

def slotShell : Shell := mountedShell (.initial slotFiles) [0x56] false slotVolume

theorem slotShell_mounted :
    step subFileEnv (.initial slotFiles) (input (.mount [0x56])) = .ok (.running slotShell) := by
  have hf : (Shell.initial slotFiles).files (subFileEnv.canonical [0x56]) = some slotImage := by
    simp [Shell.initial, slotFiles, subFileEnv]
  exact step_mount false rfl hf rfl (slotImage_mounted _) (by decide)

theorem slotVolume_left : (afterAll false none 0 (entriesFrom slotVolume.rootDir 0 16)).map
    (fun q => (q.missing, q.chars)) = some (0, copyLfnPart (slotX 0) ++ [0, 0]) := by
  decide +kernel

theorem slotVolume_lends : Lends subFileEnv.wcstombs false 0 (copyLfnPart (slotX 0) ++ [0, 0])
    (entriesFrom slotVolume.rootDir 0 16) :=
  ⟨by simp, dirNamed 0x53 0x55 0x42 2, by decide +kernel, .inr (by decide)⟩

theorem slotVolume_opened {s : Session} (hv : s.volume = slotVolume)
    (hp : s.currentPath = [slash]) (fresh : FatDirLayout) :
    openListed subFileEnv.fill s fresh none = .ok (some (slotVolume.rootDir, 16)) := by
  rw [openListed, hv, hp]
  rfl

theorem slotVolume_room : entrySize * 16 ≤ slotVolume.rootDir.length := by decide +kernel

theorem step_ls_root {s : Shell} {r : Listed} (hfd : s.fd ≠ none) (hv : s.volume = slotVolume)
    (hp : s.currentPath = [slash])
    (hl : list subFileEnv.fill subFileEnv.wcstombs slotVolume s.lfn slotVolume.rootDir 16 false =
      .ok r) : step subFileEnv s (input (.ls none)) =
        .ok (.running (s.resume { s.session with lfn := r.lfn })) := by
  have hls : perform subFileEnv s (input (.ls none)) =
      .ok (s.resume { s.session with lfn := r.lfn }) := by
    change testFd s (enter s fun r =>
      UserCommands.ls subFileEnv.fill subFileEnv.wcstombs r _ none false) = _
    rw [testFd, if_neg hfd, enter, ls_eq, slotVolume_opened hv hp, ok_bind]
    simp only [show s.session.volume = slotVolume from hv, show s.session.lfn = s.lfn from rfl,
      hl, ok_bind]
  rw [step, hls]
  rfl

/-- The first listing leaves the whole name of the slot in the parser, and the second one
prints it beside `SUB`. -/
theorem slotShell_listed_twice : ∃ trace s t,
    History subFileEnv (.initial slotFiles) (trace ++ [⟨input (.ls none), s, t⟩]) t ∧
      trace.map Done.input = [input (.mount [0x56]), input (.ls none)] ∧
      LeftNames subFileEnv s (input (.ls none)) := by
  obtain ⟨l, hl, hslot, front, hf, hu⟩ := kept_of_list subFileEnv.wcstombs slotVolume false
    subFileEnv.fill slotVolume_room represents_initial slotVolume_left
  have hfirst := step_ls_root (s := slotShell) (by simp [slotShell, mountedShell]) rfl rfl hl
  have hrun := History.step (.step .start slotShell_mounted) hfirst
  obtain ⟨p, hp⟩ := represents_of_history hrun
  obtain ⟨m, hm, -⟩ := list_of_represents subFileEnv.wcstombs slotVolume false subFileEnv.fill
    slotVolume_room hp
  refine ⟨_, _, _, .step hrun (step_ls_root (by simp [slotShell, mountedShell, Shell.resume])
    rfl rfl hm), rfl, ?_⟩
  rw [List.eq_nil_of_length_eq_zero hf, List.nil_append] at hu
  exact ⟨none, false, slotVolume.rootDir, 16, 0, _, rfl, slotVolume_opened rfl rfl _, hslot, hu,
    slotVolume_lends⟩

end Example

end TFAT.ListingRuns
