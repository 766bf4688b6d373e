import Mathlib.Logic.Function.Basic
import TFAT.UserCommands

/-!
# The shell

The program between two commands: the files of the machine, the open descriptor
and the globals. `step` runs one command of the dispatcher, with the tests that
guard it. A command that the program does not survive ends in the files as they
are on the disk then. What commands print is no part of the state.
-/
namespace TFAT.ShellCommands
open ByteRegions LittleEndianWords LinkedChains DiskLayout ClusterTable FileDescriptor VolumeMount
open DirectoryIO PathText EntryNames PathResolution LongNames UserCommands

inductive Access where
  | rdonly | rdwr | wronly
  deriving DecidableEq

/-- What the machine decides: the bytes of fresh blocks, the locale, the file that a
path names, under one name for each file, and who may open it. -/
structure Env where
  fill : ℕ → UInt8
  wcstombs : ℕ → Option Text
  canonical : Text → Text
  mayOpen : Text → Access → Bool

structure Fd where
  file : Text
  writable : Bool
  deriving DecidableEq

structure Shell where
  files : Text → Option Bytes
  fd : Option Fd
  volume : Volume
  currentPath : Text
  label : Text
  lfn : LfnState

inductive Command where
  | quit
  | mount (dev : Text)
  | wmount (dev : Text)
  | umount
  | cd (path : Text)
  | ls (dir : Option Text)
  | lsdel (dir : Option Text)
  | chain (index : ℕ)
  | fat (answers : List Bool)
  | dumpFat (path : Text)
  | testFat
  | dump (dir : Text)
  | hdump (dir : Text)
  | delete (dir : Text)
  | undelete (dir : Text)
  | info
  | showCommand
  | test (cluster : ℕ)
  | other
  deriving DecidableEq

/-- A command, and what the blocks that `find` allocates for it hold. -/
structure Input where
  command : Command
  fresh : FatDirLayout
  freshParent : FatDirLayout

def unsetVolume : Volume where
  fatn := .fat32
  boot := ⟨0, 0, 0, 0, 0, 0, 0, 0, 0⟩
  boot16 := ⟨[]⟩
  boot32 := ⟨0, 0, 0, []⟩
  fatTable := []
  fatTableBak := []
  dataOffset := 0
  rootDir := []

/-- `free_fat`. A freed block has no byte that may be accessed. -/
def freeFat (v : Volume) : Volume := { v with fatTable := [], fatTableBak := [], rootDir := [] }

def noPath : Text := [0x2D]
def noLabel : Text := [78, 79, 84, 72, 73, 78, 71]

def Shell.initial (files : Text → Option Bytes) : Shell :=
  ⟨files, none, unsetVolume, noPath, noLabel, .initial⟩

def Shell.image (s : Shell) : Bytes := (s.fd.bind fun fd => s.files fd.file).getD []

/-- What a command on a mounted volume sees. -/
def Shell.session (s : Shell) : Session := ⟨s.volume, s.image, s.currentPath, s.lfn⟩

/-- The shell when a command has left the session `r`. -/
def Shell.resume (s : Shell) (r : Session) : Shell :=
  { s with
    files := match s.fd with
      | some fd => Function.update s.files fd.file (some r.image)
      | none => s.files
    volume := r.volume
    currentPath := r.currentPath
    lfn := r.lfn }

/-- `TEST_FD` in front of a body. -/
def testFd {α : Type} (s : Shell) (body : Except Fault α) : Except Fault α :=
  if s.fd = none then .error .died else body

def testWFd {α : Type} (s : Shell) (body : Except Fault α) : Except Fault α :=
  match s.fd with
  | some ⟨_, true⟩ => body
  | _ => .error .died

def getLabel (v : Volume) : Text :=
  match v.fatn with
  | .fat16 => rtrim (cString v.boot16.volumeLabel)
  | .fat32 => rtrim (cString v.boot32.volumeLabel)

variable (env : Env)

/-- `mount`. A descriptor that is open already is forgotten, not closed. -/
def mount (s : Shell) (dev : Text) (wflag : Bool) : Except Fault Shell :=
  let file := env.canonical dev
  match s.files file, env.mayOpen file (if wflag then .rdwr else .rdonly) with
  | some img, true => do
      let v ← initFat env.fill img
      if v.boot.mediaType = 0 then .error .died
      else .ok { s with
        fd := some ⟨file, wflag⟩
        volume := v
        currentPath := [slash]
        label := getLabel v }
  | _, _ => .error .died

def umount (s : Shell) : Except Fault Shell :=
  match s.fd with
  | none => .ok s
  | some fd => do
      let (v, d) ←
        if fd.writable then writeFat s.volume ⟨s.image, 0⟩ else .ok (s.volume, ⟨s.image, 0⟩)
      .ok { s with
        files := Function.update s.files fd.file (some d.bytes)
        fd := none
        volume := freeFat v
        currentPath := noPath
        label := noLabel }

/-- `chain`, with the numbers that it prints. -/
def chain (v : Volume) (cluster : ℕ) : Except Fault (List ℕ) := do
  let l ← v.clusters cluster
  .ok (l.map (· % 2 ^ 16))

/-- The loop of `fat` with `n` rows left from index `i`; it asks before every tenth row. -/
def fatFrom (v : Volume) : ℕ → ℕ → List Bool → Except Fault (List (ℕ × ℕ))
  | 0, _, _ => .ok []
  | n + 1, i, answers =>
      if i % 10 = 0 ∧ answers.head? ≠ some true then .ok []
      else do
        let x ← v.getCluster i
        let rows ← fatFrom v n (i + 1) (if i % 10 = 0 then answers.tail else answers)
        .ok ((i, x) :: rows)

/-- `fat`, with the rows that it prints. -/
def fat (v : Volume) (answers : List Bool) : Except Fault (List (ℕ × ℕ)) :=
  fatFrom v v.tableSize 0 answers

/-- The bytes that `dump_fat` writes. -/
def dumpFat (v : Volume) : Except Fault Bytes := do
  let values ← (List.range v.tableSize).mapM v.getCluster
  .ok (values.flatMap (encode v.fatn.width))

/-- `test_fat`, with the entries that it reports. -/
def testFat (v : Volume) : Except Fault (List (ℕ × ℕ × ℕ)) := do
  let rows ← (List.range v.tableSize).mapM fun i => do
    let x ← v.getCluster i
    let y ← v.getClusterBak i
    .ok (i, x, y)
  .ok (rows.filter fun r => r.2.1 ≠ r.2.2)

def enter (s : Shell) (body : Session → Except Fault (Session × List Line)) :
    Except Fault Shell := do
  let r ← body s.session
  .ok (s.resume r.1)

def look {α : Type} (s : Shell) (body : Except Fault α) : Except Fault Shell := do
  let _ ← body
  .ok s

/-- `dump_fat`. The file is not truncated. -/
def writeTable (s : Shell) (path : Text) : Except Fault Shell :=
  let file := env.canonical path
  if env.mayOpen file .wronly then do
    let data ← dumpFat s.volume
    .ok { s with
      files := Function.update s.files file (some (splice 0 ((s.files file).getD []) 0 data)) }
  else .error .died

/-- What the handler of a command does. -/
def perform (s : Shell) (i : Input) : Except Fault Shell :=
  match i.command with
  | .quit | .umount => umount s
  | .mount dev => mount env s dev false
  | .wmount dev => mount env s dev true
  | .cd path => enter s fun r => UserCommands.cd env.fill r i.fresh path
  | .ls dir => testFd s (enter s fun r => UserCommands.ls env.fill env.wcstombs r i.fresh dir false)
  | .lsdel dir =>
      testFd s (enter s fun r => UserCommands.ls env.fill env.wcstombs r i.fresh dir true)
  | .chain index => testFd s (look s (chain s.volume (index % 2 ^ 16)))
  | .fat answers => testFd s (look s (fat s.volume answers))
  | .dumpFat path => testFd s (writeTable env s path)
  | .testFat => testFd s (look s (testFat s.volume))
  | .dump dir => testFd s (enter s fun r => UserCommands.dump env.fill r i.fresh dir)
  | .hdump dir => testFd s (enter s fun r => UserCommands.hdump env.fill r i.fresh dir)
  | .delete dir =>
      testWFd s (enter s fun r => UserCommands.delete env.fill r i.fresh i.freshParent dir)
  | .undelete dir =>
      testWFd s (enter s fun r => UserCommands.undelete env.fill r i.fresh i.freshParent dir)
  | .info | .test _ => testFd s (.ok s)
  | .showCommand | .other => .ok s

/-- How a command ends: the shell goes on, or the process has ended. -/
inductive Outcome where
  | running (s : Shell)
  | exited (files : Text → Option Bytes)

def Outcome.files : Outcome → Text → Option Bytes
  | running s => s.files
  | exited files => files

/-- One command. `udie` and `sdie` end the process before the command has written. -/
def step (s : Shell) (i : Input) : Except Fault Outcome :=
  match perform env s i with
  | .ok t => .ok (if i.command = .quit then .exited t.files else .running t)
  | .error .died => .ok (.exited s.files)
  | .error e => .error e

def Command.Leaves : Command → Prop
  | quit | umount | mount _ | wmount _ => True
  | _ => False

def Command.Marks : Command → Prop
  | delete _ | undelete _ => True
  | _ => False

/-- The commands that write the volume back. -/
def Command.Flushes : Command → Prop
  | quit | umount => True
  | _ => False

/-- A command that the shell has gone through. -/
structure Done where
  input : Input
  start : Shell
  stop : Shell

/-- The runs from a shell over commands that leave its volume mounted. -/
inductive Runs (s₀ : Shell) : List Done → Shell → Prop
  | start : Runs s₀ [] s₀
  | step {trace : List Done} {s t : Shell} {i : Input} : Runs s₀ trace s → ¬ i.command.Leaves →
      ShellCommands.step env s i = .ok (.running t) → Runs s₀ (trace ++ [⟨i, s, t⟩]) t

section Lemmas
variable {env} {s t : Shell} {i : Input}

theorem testFd_eq_ok {α : Type} {body : Except Fault α} {a : α} (h : testFd s body = .ok a) :
    body = .ok a := by
  unfold testFd at h
  split_ifs at h
  exact h

theorem testWFd_eq_ok {α : Type} {body : Except Fault α} {a : α} (h : testWFd s body = .ok a) :
    body = .ok a := by
  unfold testWFd at h
  split at h
  · exact h
  · simp at h

theorem enter_eq_ok {body : Session → Except Fault (Session × List Line)}
    (h : enter s body = .ok t) : ∃ r, body s.session = .ok r ∧ t = s.resume r.1 := by
  obtain ⟨r, hr, h⟩ := bind_eq_ok.mp h
  exact ⟨r, hr, (Except.ok.inj h).symm⟩

theorem look_eq_ok {α : Type} {body : Except Fault α} (h : look s body = .ok t) : t = s := by
  obtain ⟨r, -, h⟩ := bind_eq_ok.mp h
  exact (Except.ok.inj h).symm

theorem mount_eq_ok {dev : Text} {wflag : Bool} (h : mount env s dev wflag = .ok t) :
    ∃ img v, s.files (env.canonical dev) = some img ∧ initFat env.fill img = .ok v ∧
      t = { s with
        fd := some ⟨env.canonical dev, wflag⟩
        volume := v
        currentPath := [slash]
        label := getLabel v } := by
  unfold mount at h
  simp only at h
  split at h
  · rename_i img hfile _
    obtain ⟨v, hv, h⟩ := bind_eq_ok.mp h
    split_ifs at h
    exact ⟨img, v, hfile, hv, (Except.ok.inj h).symm⟩
  · simp at h

theorem mount_of_initFat {dev : Text} (wflag : Bool) {img : Bytes} {v : Volume}
    (hf : s.files (env.canonical dev) = some img)
    (hmay : env.mayOpen (env.canonical dev) (if wflag then .rdwr else .rdonly) = true)
    (hv : initFat env.fill img = .ok v) (hm : v.boot.mediaType ≠ 0) :
    mount env s dev wflag = .ok { s with
      fd := some ⟨env.canonical dev, wflag⟩
      volume := v
      currentPath := [slash]
      label := getLabel v } := by
  simp only [mount, hf, hmay, hv, ok_bind, if_neg hm]

theorem umount_of_writeFat {file : Text} {v : Volume} {d : Descriptor}
    (hfd : s.fd = some ⟨file, true⟩) (h : writeFat s.volume ⟨s.image, 0⟩ = .ok (v, d)) :
    ∃ t, umount s = .ok t ∧ t.files = Function.update s.files file (some d.bytes) := by
  rw [umount, hfd]
  simp only [if_pos, h, ok_bind]
  exact ⟨_, rfl, rfl⟩

/-- The shell goes on only behind a handler that has returned. -/
theorem step_running (h : step env s i = .ok (.running t)) : perform env s i = .ok t := by
  unfold step at h
  split at h
  · rename_i u hu
    split_ifs at h
    · simp at h
    · rw [Except.ok.injEq, Outcome.running.injEq] at h
      rw [hu, h]
  · simp at h
  · simp at h

theorem files_of_step {o : Outcome} (h : perform env s i = .ok t) (ho : step env s i = .ok o) :
    o.files = t.files := by
  rw [step, h] at ho
  simp only at ho
  rw [← Except.ok.inj ho]
  split_ifs <;> rfl

theorem files_of_step_error {o : Outcome} {e : Fault} (h : perform env s i = .error e)
    (ho : step env s i = .ok o) : o.files = s.files := by
  rw [step, h] at ho
  cases e with
  | died => rw [← Except.ok.inj ho]; rfl
  | outside | wild | null | endless => simp at ho

end Lemmas

end TFAT.ShellCommands
