import TFAT.ShellCommands
import TFAT.SystemPlaces

/-!
# How a writable volume is left

`delete` and `undelete` change the tables in memory. In the root directory they
mark entries in memory as well, in every other directory they mark them on the
disk. `umount` and `quit` write the memory back. A further `mount`, and the end
of the process by `udie` or `sdie`, forget it. What was done is then shown
wholly or not at all if each command has kept to one side.
-/
namespace TFAT.LeavingVolumes
open ByteRegions LittleEndianWords LinkedChains DiskLayout ClusterTable FileDescriptor VolumeMount
open VolumeLayout DirectoryIO PathText PathResolution UserCommands ShellCommands Fat16Flush
open Fat32Root
open DeleteSafety UndeleteSafety MarkingEffects WriteBack SystemPlaces

variable (env : Env) (file : Text)

/-- The bytes of the mounted image that a command may write at once. -/
def Touches (s : Shell) (i : Input) (x : ℕ) : Prop :=
  match i.command with
  | .delete dir =>
      ParentBytes env.fill s.session i.freshParent (getParentPath (deletePath s.session dir)) x
  | .undelete dir =>
      ParentBytes env.fill s.session i.freshParent (getParentPath (undeletePath s.session dir)) x
  | .dumpFat path => env.canonical path = file
  | _ => False

/-- The command changes memory only, or the disk only. -/
def Confined (s : Shell) (i : Input) : Prop :=
  match i.command with
  | .delete dir => DeleteConfined env.fill s.session i.fresh i.freshParent dir
  | .undelete dir => UndeleteConfined env.fill s.session i.fresh i.freshParent dir
  | .dumpFat path => env.canonical path ≠ file
  | _ => True

/-- The shell has mounted the file for writing. -/
structure Writable (s : Shell) : Prop where
  fd : s.fd = some ⟨file, true⟩
  stored : s.files file = some s.image

variable {env file} {s t : Shell} {i : Input} {A : ℕ → Prop} {C : Prop}

section Steps

theorem Writable.session_resume (h : Writable file s) (r : Session) :
    (s.resume r).session = r := by
  simp [Shell.session, Shell.resume, Shell.image, h.fd]

theorem Writable.resume (h : Writable file s) (r : Session) : Writable file (s.resume r) := by
  constructor
  · exact h.fd
  · simp [Shell.resume, Shell.image, h.fd]

theorem effect_of_untouched {s s' : Session} (h : s'.volume = s.volume ∧ s'.image = s.image) :
    Effect A C s s' :=
  ⟨h.1 ▸ .refl _, h.2 ▸ .refl _ _, fun _ => .inl h.2⟩

theorem Writable.enter (h : Writable file s)
    {body : Session → Except Fault (Session × List Line)} (ht : enter s body = .ok t)
    (hb : ∀ r, body s.session = .ok r → Effect A C s.session r.1) :
    Writable file t ∧ Effect A C s.session t.session := by
  obtain ⟨r, hr, rfl⟩ := enter_eq_ok ht
  refine ⟨h.resume r.1, ?_⟩
  rw [h.session_resume]
  exact hb r hr

theorem Writable.look (h : Writable file s) {α : Type} {body : Except Fault α}
    (ht : look s body = .ok t) : Writable file t ∧ Effect A C s.session t.session := by
  obtain rfl := look_eq_ok ht
  exact ⟨h, .refl _ _ _⟩

theorem Writable.writeTable (h : Writable file s) {path : Text}
    (ht : writeTable env s path = .ok t) :
    Writable file t ∧ Effect (fun _ => env.canonical path = file) (env.canonical path ≠ file)
      s.session t.session := by
  unfold ShellCommands.writeTable at ht
  simp only at ht
  split_ifs at ht
  obtain ⟨data, -, ht⟩ := bind_eq_ok.mp ht
  rw [Except.ok.injEq] at ht
  by_cases hf : env.canonical path = file
  · have hfiles : t.files file = some (splice 0 s.image 0 data) := by
      rw [← ht, hf]
      simp [h.stored]
    have hfd : t.fd = s.fd := by rw [← ht]
    have himg : t.image = splice 0 s.image 0 data := by
      rw [Shell.image, hfd, h.fd]
      simp [hfiles]
    refine ⟨⟨hfd.trans h.fd, himg ▸ hfiles⟩, ?_, ?_, fun hn => absurd hf hn⟩
    · rw [← ht]
      exact .refl _
    · refine ⟨?_, fun x _ hx => absurd hf hx⟩
      change s.image.length ≤ t.image.length
      rw [himg]
      exact length_le_length_splice _ _ _ _
  · have hfiles : t.files file = some s.image := by
      rw [← ht]
      simp [Ne.symm hf, h.stored]
    have hfd : t.fd = s.fd := by rw [← ht]
    have himg : t.image = s.image := by
      rw [Shell.image, hfd, h.fd]
      simp [hfiles]
    refine ⟨⟨hfd.trans h.fd, himg ▸ hfiles⟩, effect_of_untouched ⟨?_, himg⟩⟩
    rw [← ht]
    rfl

/-- What a command that does not leave the volume does to it. -/
theorem Writable.perform (h : Writable file s) (hl : ¬ i.command.Leaves)
    (ht : perform env s i = .ok t) : Writable file t ∧
      Effect (Touches env file s i) (Confined env file s i) s.session t.session := by
  obtain ⟨c, fresh, freshParent⟩ := i
  cases c with
  | quit | mount | wmount | umount => exact absurd trivial hl
  | cd path =>
      change ShellCommands.enter s (fun r => UserCommands.cd env.fill r fresh path) = _ at ht
      exact h.enter ht fun r hr => effect_of_untouched (cd_untouched hr)
  | ls dir | lsdel dir =>
      exact h.enter (testFd_eq_ok ht) fun r hr => effect_of_untouched (ls_untouched hr)
  | chain index => exact h.look (testFd_eq_ok ht)
  | fat answers => exact h.look (testFd_eq_ok ht)
  | testFat => exact h.look (testFd_eq_ok ht)
  | dumpFat path => exact h.writeTable (testFd_eq_ok ht)
  | dump dir | hdump dir =>
      exact h.enter (testFd_eq_ok ht) fun r hr => effect_of_untouched (dumpWith_untouched hr)
  | delete dir => exact h.enter (testWFd_eq_ok ht) fun r hr => effect_of_delete hr
  | undelete dir => exact h.enter (testWFd_eq_ok ht) fun r hr => effect_of_undelete hr
  | info => exact Except.ok.inj (testFd_eq_ok ht) ▸ ⟨h, .refl _ _ _⟩
  | test cluster => exact Except.ok.inj (testFd_eq_ok ht) ▸ ⟨h, .refl _ _ _⟩
  | showCommand | other => exact Except.ok.inj ht ▸ ⟨h, .refl _ _ _⟩

end Steps

/-- The shell as a store over the places of its image. -/
def store (l : Places) (s : Shell) : Buffered ℕ (Option UInt8) := l.store s.volume s.image

variable (env file) in
/-- On FAT32, a deletion or an undeletion writes to no byte of the root directory at once. -/
def RootApart (l : Places) (d : Done) : Prop :=
  d.start.volume.fatn = .fat32 → d.input.command.Marks →
    ∀ x, Touches env file d.start d.input x → ¬ l.InRoot x

/-- The volume of the shell has come from mounting `img` as `v`. -/
structure Kept (file : Text) (img : Bytes) (v : Volume) (s : Shell) : Prop where
  writable : Writable file s
  edits : Edits v s.volume
  length : img.length ≤ s.image.length

section Running
variable {l : Places} {img : Bytes} {v : Volume} {trace : List Done} {s₁ : Shell} {d : Done}

theorem Kept.next (h : Kept file img v s) (hl : ¬ i.command.Leaves)
    (ht : step env s i = .ok (.running t)) : Kept file img v t ∧
      Effect (Touches env file s i) (Confined env file s i) s.session t.session := by
  obtain ⟨hw, he⟩ := h.writable.perform hl (step_running ht)
  exact ⟨⟨hw, h.edits.trans he.edits, h.length.trans he.image.length⟩, he⟩

/-- In a run every command keeps the volume writable and has its effect. -/
theorem Kept.run (h : Kept file img v s₁) (hr : Runs env s₁ trace s) : Kept file img v s ∧
    ∀ d ∈ trace, Kept file img v d.start ∧
      Effect (Touches env file d.start d.input) (Confined env file d.start d.input)
        d.start.session d.stop.session := by
  induction hr with
  | start => exact ⟨h, by simp⟩
  | step hr hl ht ih =>
      obtain ⟨hk, he⟩ := ih.1.next hl ht
      refine ⟨hk, fun d hd => ?_⟩
      rcases List.mem_append.mp hd with hd | hd
      · exact ih.2 d hd
      · rw [List.mem_singleton.mp hd]
        exact ⟨ih.1, he⟩

/-- A deletion or an undeletion writes to no byte that is held in memory. -/
theorem Kept.direct (hW : WritesBack l img v) (h : Kept file img v d.start)
    (hr : RootApart env file l d) (hm : d.input.command.Marks)
    (he : Effect (Touches env file d.start d.input) C d.start.session d.stop.session) :
    Direct l.area (store l d.start) (store l d.stop) := by
  intro x hx
  refine he.image.kept x ((hW.lt_of_mem hx).trans_le h.length) fun hT => ?_
  have hbytes : ∃ c, x ∈ d.start.volume.clusterSpan c := by
    obtain ⟨⟨c, fresh, freshParent⟩, start, stop⟩ := d
    cases c with
    | delete | undelete =>
        obtain ⟨-, p, -, -, c, -, hxc⟩ := hT
        exact ⟨c, hxc⟩
    | _ => exact False.elim hm
  obtain ⟨c, hxc⟩ := hbytes
  rcases hx with hx | hx
  · exact hW.not_inTables h.edits hxc hx
  · cases hn : v.fatn with
    | fat16 => exact hW.not_inRoot hn h.edits hxc hx
    | fat32 => exact hr (h.edits.fatn.trans hn) hm x hT hx

/-- Where every command keeps to one side, the disk has its first values in the places
that are held in memory. -/
theorem Kept.held (hW : WritesBack l img v) (h : Kept file img v s₁) (hr : Runs env s₁ trace s)
    (h₁ : s₁.image = img) (hroot : ∀ d ∈ trace, RootApart env file l d)
    (hc : ∀ d ∈ trace, Confined env file d.start d.input) :
    Held l.area (fun x => img[x]?) (store l s) := by
  induction hr with
  | start =>
      intro x _
      rw [← h₁]
      rfl
  | @step trace s t i hr hl ht ih =>
      have hk := (h.run hr).1
      have hs := ih (fun d hd => hroot d (by simp [hd])) fun d hd => hc d (by simp [hd])
      obtain ⟨-, he⟩ := hk.next hl ht
      have hd : (⟨i, s, t⟩ : Done) ∈ trace ++ [⟨i, s, t⟩] := by simp
      by_cases hm : i.command.Marks
      · exact hs.step (hk.direct (d := ⟨i, s, t⟩) hW (hroot _ hd) hm he)
      · refine hs.step fun x hx => he.image.kept x ((hW.lt_of_mem hx).trans_le hk.length) ?_
        obtain ⟨c, fresh, freshParent⟩ := i
        cases c with
        | delete | undelete => exact absurd trivial hm
        | dumpFat path => exact hc _ hd
        | _ => exact id

end Running

section Leaving
variable {l : Places} {img : Bytes} {v : Volume} {o : Outcome}

theorem kept_of_mount {dev : Text} (hfile : s.files (env.canonical dev) = some img)
    (himg : Fat16Image img ∨ PlainRoot img) (hm : i.command = .wmount dev)
    (ht : step env s i = .ok (.running t)) :
    ∃ v, WritesBack (places img) img v ∧ Kept (env.canonical dev) img v t ∧ t.image = img := by
  have hmount : mount env s dev true = .ok t := by
    have hp := step_running ht
    rwa [perform, hm] at hp
  obtain ⟨img', v, hfile', hv, rfl⟩ := mount_eq_ok hmount
  obtain rfl : img' = img := by simpa [hfile] using hfile'.symm
  have himage : Shell.image { s with
      fd := some ⟨env.canonical dev, true⟩
      volume := v
      currentPath := [slash]
      label := getLabel v } = img' := by
    simp [Shell.image, hfile]
  refine ⟨v, ?_, ⟨⟨rfl, himage ▸ hfile⟩, .refl _, himage ▸ le_rfl⟩, himage⟩
  rcases himg with h | h
  · rw [h.initFat_eq, Except.ok.injEq] at hv
    exact hv ▸ writesBack_fat16 h
  · rw [h.initFat_eq, Except.ok.injEq] at hv
    exact hv ▸ writesBack_fat32 h

/-- Leaving by `umount` or `quit` writes the buffer back. -/
theorem Kept.files_of_flush (hW : WritesBack l img v) (h : Kept file img v s)
    (hf : i.command.Flushes) (ho : step env s i = .ok o) :
    ∃ out, o.files file = some out ∧ ∀ x, out[x]? = writtenBack l.area (store l s) x := by
  obtain ⟨w, d, hflush, hbytes⟩ := hW.flush s.volume s.image h.edits h.length
  have humount : perform env s i = umount s := by
    obtain ⟨c, fresh, freshParent⟩ := i
    cases c with
    | quit | umount => rfl
    | _ => exact False.elim hf
  obtain ⟨t, ht, hfiles⟩ := umount_of_writeFat h.writable.fd hflush
  refine ⟨d.bytes, ?_, fun x => ?_⟩
  · rw [files_of_step (humount.trans ht) ho, hfiles, Function.update_self]
  · rw [hbytes]
    exact hW.getElem?_flush h.edits h.length x

theorem files_of_drop (hl : i.command.Leaves ∨ ∃ files, o = .exited files)
    (hf : ¬ i.command.Flushes) (ho : step env s i = .ok o) : o.files = s.files := by
  cases hp : perform env s i with
  | error e => exact files_of_step_error hp ho
  | ok t =>
      rw [files_of_step hp ho]
      obtain ⟨c, fresh, freshParent⟩ := i
      cases c with
      | quit | umount => exact absurd trivial hf
      | mount dev | wmount dev =>
          obtain ⟨img, v, -, -, rfl⟩ := mount_eq_ok hp
          rfl
      | _ =>
          rcases hl with hl | ⟨files, rfl⟩
          · exact False.elim hl
          · simp [step, hp] at ho

/-- The buffer changes with the tables and the root directory only. -/
theorem store_buffer {w : Volume} {image : Bytes} (ht : w.fatTable = s.volume.fatTable)
    (hr : w.rootDir = s.volume.rootDir) : (l.store w image).buffer = (store l s).buffer := by
  simp only [store, Places.store, ht, hr]

end Leaving

/-- A volume that is mounted for writing and left shows each deletion and undeletion wholly
or not at all when it is left by `umount` or `quit`, and also in every other way when each
command of the run keeps to memory or to the disk. -/
theorem left_whole_or_not_at_all {env : Env} {s₀ s₁ s : Shell} {dev : Text} {img : Bytes}
    {first last : Input} {trace : List Done} {o : Outcome}
    (hfile : s₀.files (env.canonical dev) = some img) (himg : Fat16Image img ∨ PlainRoot img)
    (hfirst : first.command = .wmount dev) (hmount : step env s₀ first = .ok (.running s₁))
    (hrun : Runs env s₁ trace s) (hlast : step env s last = .ok o)
    (hleft : last.command.Leaves ∨ ∃ files, o = .exited files)
    (hroot : ∀ d ∈ trace, RootApart env (env.canonical dev) (places img) d)
    (hcond : last.command.Flushes ∨
      ∀ d ∈ trace, Confined env (env.canonical dev) d.start d.input) :
    ∃ out, o.files (env.canonical dev) = some out ∧ ∀ d ∈ trace, d.input.command.Marks →
      Wholly (places img).area (store (places img) d.start) (store (places img) d.stop)
          (store (places img) s) (fun x => out[x]?) ∨
        NotAtAll (places img).area (store (places img) d.start) (store (places img) d.stop)
          (fun x => img[x]?) (fun x => out[x]?) := by
  obtain ⟨v, hW, hk₁, himage⟩ := kept_of_mount hfile himg hfirst hmount
  obtain ⟨hk, htrace⟩ := hk₁.run hrun
  by_cases hf : last.command.Flushes
  · obtain ⟨out, ho, hout⟩ := hk.files_of_flush hW hf hlast
    refine ⟨out, ho, fun d hd hm => .inl ?_⟩
    obtain ⟨hkd, he⟩ := htrace d hd
    exact (hkd.direct hW (hroot d hd) hm he).wholly hout
  · have hc := hcond.resolve_left hf
    have hheld := hk₁.held hW hrun himage hroot hc
    refine ⟨s.image, ?_, fun d hd _ => ?_⟩
    · rw [files_of_drop hleft hf hlast]
      exact hk.writable.stored
    · obtain ⟨-, he⟩ := htrace d hd
      rcases he.oneSide (hc d hd) with hi | ⟨ht, hr⟩
      · refine .inr (notAtAll_of_dropped ?_ hheld)
        funext x
        exact congrArg (fun img : Bytes => img[x]?) hi
      · exact .inl (wholly_of_dropped fun x _ => congrFun (store_buffer ht hr) x)

section Example

/-- A FAT16 volume with the directory `SUB` in cluster 2 and the file `FG.T` in it, in
cluster 3. -/
def subFileVolume : Volume where
  fatn := .fat16
  boot := ⟨512, 1, 1, 2, 16, 40000, 0xF8, 1, 0⟩
  boot16 := ⟨List.replicate 11 0⟩
  boot32 := ⟨0, 0, 0, []⟩
  fatTable := [0xF8, 0xFF, 0xFF, 0xFF, 0xFF, 0xFF, 0xFF, 0xFF] ++ List.replicate 504 0
  fatTableBak := [0xF8, 0xFF, 0xFF, 0xFF, 0xFF, 0xFF, 0xFF, 0xFF] ++ List.replicate 504 0
  dataOffset := 2048
  rootDir := (subDir 2).bytes ++ List.replicate 480 0

def subFileImage : Bytes :=
  subFileVolume.boot.toBytes ++ List.replicate 476 0 ++ subFileVolume.fatTable ++
    subFileVolume.fatTable ++ subFileVolume.rootDir ++
    ((fileT 0x46 0x47 3).bytes ++ List.replicate 480 0) ++ List.replicate 512 0

def subFileEnv : Env := ⟨fun _ => 0, fun _ => none, id, fun _ _ => true⟩

def subFileFiles : Text → Option Bytes := fun path =>
  if path = [0x56] then some subFileImage else none

def subFileShell : Shell where
  files := subFileFiles
  fd := some ⟨[0x56], true⟩
  volume := subFileVolume
  currentPath := [slash]
  label := []
  lfn := .initial

def input (c : Command) : Input := ⟨c, fileT 0 0 0, fileT 0 0 0⟩

def deleteFile : Input := input (.delete [0x53, 0x55, 0x42, slash, 0x46, 0x47, dot, 0x54])

theorem subFileVolume_plain : Plain16 subFileVolume := by
  refine ⟨⟨rfl, rfl, length_filled rfl, length_filled rfl, length_filled ?_, rfl⟩, rfl, rfl, rfl,
    rfl, rfl, rfl, rfl, by decide⟩
  rw [FatDirLayout.length_bytes]
  rfl

theorem subFileImage_image : Fat16Image subFileImage := by
  rw [subFileImage, List.append_assoc]
  exact subFileVolume_plain.image _

theorem subFileFiles_stored :
    (Shell.initial subFileFiles).files (subFileEnv.canonical [0x56]) = some subFileImage := by
  simp [Shell.initial, subFileFiles, subFileEnv]

theorem subFileImage_places : places subFileImage = ⟨512, 512, 2, 1536, 512⟩ := by
  rw [places, subFileImage_image.format]
  simp only [Places.mk.injEq]
  decide

theorem subFileVolume_mounted {s : Shell} (hs : s.files [0x56] = some subFileImage) :
    step subFileEnv s (input (.wmount [0x56])) = .ok (.running
      { s with fd := some ⟨[0x56], true⟩, volume := subFileVolume, currentPath := [slash],
               label := [] }) := by
  have hv : initFat subFileEnv.fill subFileImage = .ok subFileVolume := by
    rw [subFileImage_image.initFat_eq, subFileImage, List.append_assoc]
    exact congrArg Except.ok (subFileVolume_plain.mounted _)
  have hl : getLabel subFileVolume = [] := by decide
  have hm : mount subFileEnv s [0x56] true = _ := mount_of_initFat true hs rfl hv (by decide)
  rw [hl] at hm
  rw [step, show perform subFileEnv s (input (.wmount [0x56])) = _ from hm]
  rfl

theorem subFileShell_mounted :
    step subFileEnv (.initial subFileFiles) (input (.wmount [0x56])) =
      .ok (.running subFileShell) :=
  subFileVolume_mounted subFileFiles_stored

theorem subFileShell_kept :
    ∃ v, WritesBack (places subFileImage) subFileImage v ∧
      Kept [0x56] subFileImage v subFileShell ∧ subFileShell.image = subFileImage :=
  kept_of_mount subFileFiles_stored (.inl subFileImage_image) rfl subFileShell_mounted

/-- The deletion returns. It clears the table entry of cluster 3 in memory and marks the
entry of the file on the disk. -/
theorem deleteFile_running : ∃ t, step subFileEnv subFileShell deleteFile = .ok (.running t) ∧
    t.files [0x57] = none ∧ t.volume.fatTable[6]? = some 0 ∧ t.image[2048]? = some 0xE5 := by
  have hs : subFileShell.session = ⟨subFileVolume, subFileImage, [slash], .initial⟩ := by
    obtain ⟨-, -, -, himg⟩ := subFileShell_kept
    rw [Shell.session, himg]
    rfl
  have heval : ((UserCommands.delete (fun _ => 0) ⟨subFileVolume, subFileImage, [slash], .initial⟩
      (fileT 0 0 0) (fileT 0 0 0) [0x53, 0x55, 0x42, slash, 0x46, 0x47, dot, 0x54]).toOption.map
        fun r => (r.1.volume.fatTable[6]?, r.1.image[2048]?)) = some (some 0, some 0xE5) := by
    decide +kernel
  cases hd : UserCommands.delete (fun _ => 0) ⟨subFileVolume, subFileImage, [slash], .initial⟩
      (fileT 0 0 0) (fileT 0 0 0) [0x53, 0x55, 0x42, slash, 0x46, 0x47, dot, 0x54] with
  | error e => simp [hd, Except.toOption] at heval
  | ok r =>
      have hp : perform subFileEnv subFileShell deleteFile = .ok (subFileShell.resume r.1) := by
        change enter subFileShell (fun q => UserCommands.delete (fun _ => 0) q (fileT 0 0 0)
          (fileT 0 0 0) [0x53, 0x55, 0x42, slash, 0x46, 0x47, dot, 0x54]) = _
        rw [enter, hs, hd]
        rfl
      obtain ⟨v, -, hk, -⟩ := subFileShell_kept
      have himg : (subFileShell.resume r.1).image = r.1.image :=
        congrArg Session.image (hk.writable.session_resume r.1)
      simp only [hd, Except.toOption, Option.map_some, Option.some.injEq, Prod.mk.injEq] at heval
      refine ⟨_, by rw [step, hp]; rfl, ?_, heval.1, ?_⟩
      · simp [Shell.resume, subFileShell, subFileFiles]
      · rw [himg]
        exact heval.2

theorem deleteFile_runs {t : Shell}
    (h : step subFileEnv subFileShell deleteFile = .ok (.running t)) :
    Runs subFileEnv subFileShell [⟨deleteFile, subFileShell, t⟩] t :=
  .step .start id h

theorem deleteFile_rootApart (t : Shell) :
    RootApart subFileEnv [0x56] (places subFileImage) ⟨deleteFile, subFileShell, t⟩ :=
  fun hn => absurd (show Fatn.fat16 = .fat32 from hn) (by decide)

/-- A deletion in a subdirectory is torn when the next command is `mount` of a missing file:
the process ends with the entry marked on the disk and the old table. -/
theorem mount_missing_tears : ∃ t o out,
    step subFileEnv (.initial subFileFiles) (input (.wmount [0x56])) =
        .ok (.running subFileShell) ∧
      Runs subFileEnv subFileShell [⟨deleteFile, subFileShell, t⟩] t ∧
      step subFileEnv t (input (.mount [0x57])) = .ok o ∧ o.files [0x56] = some out ∧
      ¬ Wholly (places subFileImage).area (store (places subFileImage) subFileShell)
        (store (places subFileImage) t) (store (places subFileImage) t) (fun x => out[x]?) ∧
      ¬ NotAtAll (places subFileImage).area (store (places subFileImage) subFileShell)
        (store (places subFileImage) t) (fun x => subFileImage[x]?) (fun x => out[x]?) := by
  obtain ⟨t, ht, hmissing, htable, himage⟩ := deleteFile_running
  obtain ⟨v, hW, hk, himg⟩ := subFileShell_kept
  obtain ⟨hkt, he⟩ := hk.next id ht
  have hdirect := hk.direct (d := ⟨deleteFile, subFileShell, t⟩) hW (deleteFile_rootApart t)
    trivial he
  have hdied : perform subFileEnv t (input (.mount [0x57])) = .error .died := by
    have hf : t.files (subFileEnv.canonical [0x57]) = none := hmissing
    change mount subFileEnv t [0x57] false = _
    simp only [mount, hf]
  refine ⟨t, .exited t.files, t.image, subFileShell_mounted, deleteFile_runs ht,
    by rw [step, hdied], hkt.writable.stored, ?_⟩
  have hbuffer (s : Shell) :
      (store (places subFileImage) s).buffer 518 = s.volume.fatTable[6]? := by
    simp only [store, Places.store, subFileImage_places]
    rw [if_pos (by decide)]
  have hfirst : (store (places subFileImage) subFileShell).disk = fun x => subFileImage[x]? := by
    rw [← himg]
    rfl
  have hheld : Held (places subFileImage).area (fun x => subFileImage[x]?)
      (store (places subFileImage) t) := by
    rw [← hfirst]
    exact hdirect
  refine torn (i := 518) (j := 2048) ?_ ?_ ?_ hheld ?_ ?_
  · rw [subFileImage_places]
    exact .inl (by decide)
  · rw [hbuffer, hbuffer, htable]
    decide
  · rw [hfirst]
    change subFileImage[2048]? ≠ t.image[2048]?
    rw [himage]
    decide +kernel
  · rw [hbuffer]
    decide +kernel
  · rw [hfirst]

/-- The same deletion is shown when the volume is left by `umount`. -/
theorem umount_shows : ∃ t o out,
    Runs subFileEnv subFileShell [⟨deleteFile, subFileShell, t⟩] t ∧
      step subFileEnv t (input .umount) = .ok o ∧ o.files [0x56] = some out ∧
      (Wholly (places subFileImage).area (store (places subFileImage) subFileShell)
          (store (places subFileImage) t) (store (places subFileImage) t) (fun x => out[x]?) ∨
        NotAtAll (places subFileImage).area (store (places subFileImage) subFileShell)
          (store (places subFileImage) t) (fun x => subFileImage[x]?) (fun x => out[x]?)) := by
  obtain ⟨t, ht, -⟩ := deleteFile_running
  obtain ⟨v, hW, hk, -⟩ := subFileShell_kept
  obtain ⟨hkt, -⟩ := hk.next id ht
  obtain ⟨w, d, hflush, -⟩ := hW.flush t.volume t.image hkt.edits hkt.length
  obtain ⟨u, hu, -⟩ := umount_of_writeFat hkt.writable.fd hflush
  have hlast : step subFileEnv t (input .umount) = .ok (.running u) := by
    rw [step, show perform subFileEnv t (input .umount) = _ from hu]
    rfl
  obtain ⟨out, ho, hall⟩ := left_whole_or_not_at_all subFileFiles_stored
    (.inl subFileImage_image) rfl subFileShell_mounted (deleteFile_runs ht) hlast (.inl trivial)
    (fun d hd => List.mem_singleton.mp hd ▸ deleteFile_rootApart t) (.inl trivial)
  exact ⟨t, _, out, deleteFile_runs ht, hlast, ho, hall _ (List.mem_singleton.mpr rfl) trivial⟩

end Example

end TFAT.LeavingVolumes
