import TFAT.NumberedRuns

/-!
# The two descriptors of the process

user.c and fs.c each keep a descriptor of their own. `mount` stores the same one in
both, `umount` clears only the one of user.c and closes it. The tests of a command
look at the one of user.c, and directories are read and written through the one of
fs.c. A process is a shell with the descriptor of fs.c beside it. While a volume is
mounted the two are the same open file, so the shell alone tells what the process
does, and an image that is only mounted for reading is never written.
-/
namespace TFAT.TwoDescriptors
open ByteRegions LittleEndianWords LinkedChains DiskLayout ClusterTable FileDescriptor PathText
open PathResolution UserCommands ShellCommands ShellRuns

/-- The shell, which holds the descriptor of user.c, and the descriptor that `init_fs` has
stored last. -/
structure Process where
  shell : Shell
  fsFd : Option Fd

def Process.initial (files : Text → Option Bytes) : Process := ⟨.initial files, none⟩

/-- The bytes behind the descriptor of fs.c. Behind `umount` it is closed. -/
def Process.fsImage (p : Process) : Bytes :=
  if p.shell.fd = none then [] else (p.fsFd.bind fun fd => p.shell.files fd.file).getD []

def Process.session (p : Process) : Session := { p.shell.session with image := p.fsImage }

def Process.keep (p : Process) (r : Session) : Process :=
  { p with shell := { p.shell with
      volume := r.volume
      currentPath := r.currentPath
      lfn := r.lfn } }

/-- The process when a command that writes directories has left the session `r`. -/
def Process.leave (p : Process) (r : Session) : Process :=
  { p with shell := { p.shell with
      files := match p.fsFd with
        | some fd =>
            if fd.writable then Function.update p.shell.files fd.file (some r.image)
            else p.shell.files
        | none => p.shell.files
      volume := r.volume
      currentPath := r.currentPath
      lfn := r.lfn } }

/-- The common body of `dump` and `hdump`, which looks the file up through the descriptor of
fs.c and reads it through the one of user.c. -/
def dumpThrough (fill : ℕ → UInt8) (s : Session) (image : Bytes) (fresh : FatDirLayout)
    (format : Bytes → Line) (dir : Text) : Except Fault (List Line) := do
  let ndir := (addressConvertor s.currentPath (some dir)).text
  match ← find fill s.volume s.image fresh ndir with
  | none => .ok [.fileNotFound ndir]
  | some file => do
      let r ← along s.volume.nextCluster 0 .endless (dumpCluster fill s.volume image)
        s.volume.fuel (s.volume.firstCluster file) (file.fileSize, [])
      .ok [.fileSize ndir (asInt file.fileSize), .top, format r.2, .bottom]

variable (env : Env)

def perform (p : Process) (i : Input) : Except Fault Process :=
  match i.command with
  | .mount dev => do
      let t ← mount env p.shell dev false
      .ok ⟨t, t.fd⟩
  | .wmount dev => do
      let t ← mount env p.shell dev true
      .ok ⟨t, t.fd⟩
  | .cd path => do
      let r ← UserCommands.cd env.fill p.session i.fresh path
      .ok (p.keep r.1)
  | .ls dir => testFd p.shell do
      let r ← UserCommands.ls env.fill env.wcstombs p.session i.fresh dir false
      .ok (p.keep r.1)
  | .lsdel dir => testFd p.shell do
      let r ← UserCommands.ls env.fill env.wcstombs p.session i.fresh dir true
      .ok (p.keep r.1)
  | .dump dir => testFd p.shell do
      let _ ← dumpThrough env.fill p.session p.shell.image i.fresh .chars dir
      .ok p
  | .hdump dir => testFd p.shell do
      let _ ← dumpThrough env.fill p.session p.shell.image i.fresh .hexes dir
      .ok p
  | .delete dir => testWFd p.shell do
      let r ← UserCommands.delete env.fill p.session i.fresh i.freshParent dir
      .ok (p.leave r.1)
  | .undelete dir => testWFd p.shell do
      let r ← UserCommands.undelete env.fill p.session i.fresh i.freshParent dir
      .ok (p.leave r.1)
  | _ => do
      let t ← ShellCommands.perform env p.shell i
      .ok ⟨t, p.fsFd⟩

inductive Ending where
  | running (p : Process)
  | exited (files : Text → Option Bytes)

def Ending.files : Ending → Text → Option Bytes
  | running p => p.shell.files
  | exited files => files

def step (p : Process) (i : Input) : Except Fault Ending :=
  match perform env p i with
  | .ok q => .ok (if i.command = .quit then .exited q.shell.files else .running q)
  | .error .died => .ok (.exited p.shell.files)
  | .error e => .error e

/-- The runs of the process, with the commands and the processes that they met. -/
inductive Run (files : Text → Option Bytes) : List (Process × Input) → Process → Prop
  | start : Run files [] (.initial files)
  | step {trace : List (Process × Input)} {p q : Process} {i : Input} : Run files trace p →
      TwoDescriptors.step env p i = .ok (.running q) → Run files (trace ++ [(p, i)]) q

/-- The file behind the descriptor on which a command issues its writes, if it issues any:
`umount` and `quit` write the tables and the root directory back through the descriptor of
user.c, `delete` and `undelete` write directories through the one of fs.c, and `dump_fat`
writes to the file that it opens. -/
def writesTo (p : Process) (i : Input) : Option Text :=
  match i.command with
  | .quit | .umount =>
      match p.shell.fd with
      | some ⟨file, true⟩ => some file
      | _ => none
  | .delete _ | .undelete _ =>
      match p.shell.fd with
      | some ⟨_, true⟩ => p.fsFd.map Fd.file
      | _ => none
  | .dumpFat path => if p.shell.fd = none then none else some (env.canonical path)
  | _ => none

/-- The command neither mounts the image for writing nor dumps the table over it. -/
def Spares (file : Text) (i : Input) : Prop :=
  (∀ dev, i.command = .wmount dev → env.canonical dev ≠ file) ∧
    ∀ path, i.command = .dumpFat path → env.canonical path ≠ file

/-- While a volume is mounted, both descriptors are the same open file. -/
def Tied (p : Process) : Prop := ∀ fd, p.shell.fd = some fd → p.fsFd = some fd

section Refinement
variable {env} {p q : Process} {i : Input}

/-- What the process shows of an ending. -/
def Ending.outcome : Ending → Outcome
  | running p => .running p.shell
  | exited files => .exited files

theorem Ending.outcome_files (o : Ending) : o.outcome.files = o.files := by
  cases o <;> rfl

theorem Tied.fsImage_eq (hp : Tied p) : p.fsImage = p.shell.image := by
  cases hfd : p.shell.fd with
  | none => simp [Process.fsImage, Shell.image, hfd]
  | some fd => simp [Process.fsImage, Shell.image, hfd, hp fd hfd]

theorem Tied.session_eq (hp : Tied p) : p.session = p.shell.session := by
  rw [Process.session, hp.fsImage_eq]
  rfl

/-- A command that writes nothing leaves what the shell resumes from. -/
theorem keep_shell (hc : Consistent p.shell) {r : Session} (hr : r.image = p.shell.image) :
    (p.keep r).shell = p.shell.resume r := by
  cases hfd : p.shell.fd with
  | none => simp [Process.keep, Shell.resume, hfd]
  | some fd =>
      have hf : Function.update p.shell.files fd.file (some r.image) = p.shell.files := by
        rw [Function.update_eq_self_iff, hr, hc.stored fd hfd]
      simp [Process.keep, Shell.resume, hfd, hf]

/-- While the volume is mounted for writing, directories are written to the open file. -/
theorem Tied.leave_shell (hp : Tied p) {file : Text} (hfd : p.shell.fd = some ⟨file, true⟩)
    (r : Session) : (p.leave r).shell = p.shell.resume r := by
  simp [Process.leave, Shell.resume, hfd, hp _ hfd]

theorem dumpWith_eq (fill : ℕ → UInt8) (s : Session) (fresh : FatDirLayout)
    (format : Bytes → Line) (dir : Text) :
    dumpWith fill s fresh format dir =
      (dumpThrough fill s s.image fresh format dir).map fun lines => (s, lines) := by
  unfold dumpWith dumpThrough
  simp only
  cases find fill s.volume s.image fresh (addressConvertor s.currentPath (some dir)).text with
  | error e => rfl
  | ok found =>
      cases found with
      | none => rfl
      | some file =>
          simp only [ok_bind]
          cases along s.volume.nextCluster 0 .endless (dumpCluster fill s.volume s.image)
            s.volume.fuel (s.volume.firstCluster file) (file.fileSize, []) <;> rfl

theorem map_bind_eq_enter (body : Session → Except Fault (Session × List Line))
    {resumed : Session → Process} (hs : p.session = p.shell.session)
    (h : ∀ r, body p.shell.session = .ok r → (resumed r.1).shell = p.shell.resume r.1) :
    (body p.session >>= fun r => .ok (resumed r.1)).map Process.shell =
      enter p.shell body := by
  rw [enter, hs]
  cases hb : body p.shell.session with
  | error e => rfl
  | ok r => exact congrArg Except.ok (h r hb)

theorem map_testFd {s : Shell} {body : Except Fault Process} :
    (testFd s body).map Process.shell = testFd s (body.map Process.shell) := by
  unfold testFd
  split_ifs <;> rfl

theorem Tied.map_testWFd (hp : Tied p)
    (body : Session → Except Fault (Session × List Line)) :
    (testWFd p.shell (body p.session >>= fun r => .ok (p.leave r.1))).map Process.shell =
      testWFd p.shell (enter p.shell body) := by
  unfold testWFd
  split
  · rename_i file hfd
    exact map_bind_eq_enter body hp.session_eq fun r _ => hp.leave_shell hfd r.1
  · rfl

/-- The shell of a process performs the command as the process does. -/
theorem perform_shell (env : Env) (hp : Tied p) (hc : Consistent p.shell) :
    (perform env p i).map Process.shell = ShellCommands.perform env p.shell i := by
  obtain ⟨c, fresh, freshParent⟩ := i
  have hdump (format : Bytes → Line) (dir : Text) :
      (testFd p.shell do
        let _ ← dumpThrough env.fill p.session p.shell.image fresh format dir
        .ok p).map Process.shell =
      testFd p.shell (enter p.shell fun r => dumpWith env.fill r fresh format dir) := by
    rw [map_testFd, enter, dumpWith_eq, hp.session_eq]
    change _ = testFd p.shell (Except.map _ (dumpThrough env.fill p.shell.session p.shell.image
      fresh format dir) >>= _)
    cases dumpThrough env.fill p.shell.session p.shell.image fresh format dir with
    | error e => rfl
    | ok lines =>
        have hr := keep_shell hc (r := p.shell.session) rfl
        change testFd p.shell (.ok p.shell) = testFd p.shell (.ok (p.shell.resume p.shell.session))
        rw [← hr]
        rfl
  have hls (dir : Option Text) (showDeleted : Bool) :
      (testFd p.shell do
        let r ← UserCommands.ls env.fill env.wcstombs p.session fresh dir showDeleted
        .ok (p.keep r.1)).map Process.shell =
      testFd p.shell (enter p.shell fun s =>
        UserCommands.ls env.fill env.wcstombs s fresh dir showDeleted) :=
    map_testFd.trans <| congrArg _ <| map_bind_eq_enter
      (fun s => UserCommands.ls env.fill env.wcstombs s fresh dir showDeleted) hp.session_eq
      fun r hr => keep_shell hc (ls_untouched hr).2
  cases c with
  | mount dev =>
      change (mount env p.shell dev false >>= _).map _ = mount env p.shell dev false
      cases mount env p.shell dev false <;> rfl
  | wmount dev =>
      change (mount env p.shell dev true >>= _).map _ = mount env p.shell dev true
      cases mount env p.shell dev true <;> rfl
  | cd path =>
      exact map_bind_eq_enter (fun s => UserCommands.cd env.fill s fresh path) hp.session_eq
        fun r hr => keep_shell hc (cd_untouched hr).2
  | ls dir => exact hls dir false
  | lsdel dir => exact hls dir true
  | dump dir => exact hdump .chars dir
  | hdump dir => exact hdump .hexes dir
  | delete dir =>
      exact hp.map_testWFd fun s => UserCommands.delete env.fill s fresh freshParent dir
  | undelete dir =>
      exact hp.map_testWFd fun s => UserCommands.undelete env.fill s fresh freshParent dir
  | _ =>
      change (ShellCommands.perform env p.shell _ >>= _).map _ = _
      cases ShellCommands.perform env p.shell _ <;> rfl

theorem step_outcome (env : Env) (hp : Tied p) (hc : Consistent p.shell) :
    (step env p i).map Ending.outcome = ShellCommands.step env p.shell i := by
  rw [ShellCommands.step, ← perform_shell env hp hc, step]
  cases perform env p i with
  | error e => cases e <;> rfl
  | ok q =>
      change Except.ok _ = Except.ok _
      split_ifs <;> rfl

theorem step_running (h : step env p i = .ok (.running q)) : perform env p i = .ok q := by
  unfold step at h
  split at h
  · rename_i r hr
    split_ifs at h
    · cases Except.ok.inj h
    · rw [hr, Ending.running.inj (Except.ok.inj h)]
  · cases Except.ok.inj h
  · cases h

theorem fd_of_perform {s t : Shell} (hm : ∀ dev, i.command ≠ .mount dev)
    (hw : ∀ dev, i.command ≠ .wmount dev) (h : ShellCommands.perform env s i = .ok t) :
    t.fd = s.fd ∨ t.fd = none := by
  cases performed_of_perform h with
  | @mounted dev wflag _ _ hc =>
      cases wflag with
      | false => exact absurd hc (hm dev)
      | true => exact absurd hc (hw dev)
  | left _ hu =>
      rcases umount_cases hu with ⟨-, rfl⟩ | ⟨fd, v, d, -, -, rfl⟩
      · exact .inl rfl
      · exact .inr rfl
  | looked _ _ _ ht | deleted _ _ _ ht | undeleted _ _ _ ht | dumped _ _ ht | same _ ht =>
      rw [ht]
      exact .inl rfl

/-- A mount stores its descriptor twice, and behind a command that keeps the one of fs.c the
one of user.c is the same or closed. -/
theorem tied_of_perform (hp : Tied p) (h : perform env p i = .ok q) : Tied q := by
  have hkeep (hfs : q.fsFd = p.fsFd) (hfd : q.shell.fd = p.shell.fd ∨ q.shell.fd = none) :
      Tied q := by
    intro fd hq
    rcases hfd with hfd | hfd
    · rw [hfs]
      exact hp fd (hfd.symm.trans hq)
    · cases hfd.symm.trans hq
  obtain ⟨c, fresh, freshParent⟩ := i
  cases c with
  | mount dev | wmount dev =>
      obtain ⟨t, -, h⟩ := bind_eq_ok.mp h
      rw [← Except.ok.inj h]
      exact fun _ => id
  | cd path =>
      obtain ⟨r, -, h⟩ := bind_eq_ok.mp h
      exact hkeep (by rw [← Except.ok.inj h]; rfl) (.inl (by rw [← Except.ok.inj h]; rfl))
  | ls dir | lsdel dir =>
      obtain ⟨r, -, h⟩ := bind_eq_ok.mp (testFd_eq_ok h)
      exact hkeep (by rw [← Except.ok.inj h]; rfl) (.inl (by rw [← Except.ok.inj h]; rfl))
  | dump dir | hdump dir =>
      obtain ⟨r, -, h⟩ := bind_eq_ok.mp (testFd_eq_ok h)
      rwa [← Except.ok.inj h]
  | delete dir | undelete dir =>
      obtain ⟨r, -, h⟩ := bind_eq_ok.mp (testWFd_eq_ok h)
      exact hkeep (by rw [← Except.ok.inj h]; rfl) (.inl (by rw [← Except.ok.inj h]; rfl))
  | _ =>
      obtain ⟨t, ht, h⟩ := bind_eq_ok.mp h
      refine hkeep (by rw [← Except.ok.inj h]) ?_
      rw [← Except.ok.inj h]
      exact fd_of_perform (fun _ => by simp) (fun _ => by simp) ht

theorem Run.history {files : Text → Option Bytes} {trace : List (Process × Input)}
    (h : Run env files trace p) : Tied p ∧ ∃ commands,
      History env (.initial files) commands p.shell ∧
        commands.map Done.input = trace.map Prod.snd := by
  induction h with
  | start => exact ⟨fun _ h => absurd h (by simp [Process.initial, Shell.initial]), [], .start, rfl⟩
  | @step trace p q i _ ht ih =>
      obtain ⟨hp, commands, hrun, hinputs⟩ := ih
      have hstep := step_outcome env (i := i) hp hrun.consistent
      rw [ht] at hstep
      exact ⟨tied_of_perform hp (step_running ht), _, .step hrun hstep.symm, by simp [hinputs]⟩

theorem exists_run {files : Text → Option Bytes} {commands : List Done} {s : Shell}
    (h : History env (.initial files) commands s) : ∃ trace p, Run env files trace p ∧
      p.shell = s ∧ trace.map Prod.snd = commands.map Done.input := by
  induction h with
  | start => exact ⟨[], .initial files, .start, rfl, rfl⟩
  | @step commands s t i h ht ih =>
      obtain ⟨trace, p, hrun, rfl, hinputs⟩ := ih
      have hstep := step_outcome env (i := i) hrun.history.1 h.consistent
      rw [ht] at hstep
      cases hq : step env p i with
      | error e =>
          rw [hq] at hstep
          cases hstep
      | ok o =>
          rw [hq] at hstep
          cases o with
          | exited files => cases Except.ok.inj hstep
          | running q =>
              have hshell : q.shell = t := Outcome.running.inj (Except.ok.inj hstep)
              exact ⟨_, q, .step hrun hq, hshell, by simp [hinputs]⟩

end Refinement

section Frame
variable {env} {p q : Process} {i : Input} {file : Text}

theorem files_of_performed (hp : Tied p) (hc : Consistent p.shell) {t : Shell}
    (h : Performed env p.shell i t) (hw : writesTo env p i ≠ some file) :
    t.files file = p.shell.files file := by
  cases h with
  | mounted _ _ _ ht =>
      rw [ht]
      rfl
  | left hf hu =>
      rcases umount_cases hu with ⟨-, rfl⟩ | ⟨fd, v, d, hfd, hwr, rfl⟩
      · rfl
      · change Function.update p.shell.files fd.file (some d.bytes) file = _
        rcases hwr with ⟨hwr, -⟩ | ⟨-, hd⟩
        · have hne : file ≠ fd.file := by
            rintro rfl
            refine hw ?_
            obtain ⟨c, fresh, freshParent⟩ := i
            obtain ⟨f, b⟩ := fd
            cases c with
            | quit | umount => simp_all [writesTo]
            | _ => exact hf.elim
          rw [Function.update_of_ne hne]
        · rw [hd, ← hc.stored fd hfd, Function.update_eq_self]
  | looked _ _ hi ht =>
      rw [ht, ← keep_shell hc hi]
      rfl
  | @deleted _ f _ _ hcmd hfd _ ht | @undeleted _ f _ _ hcmd hfd _ ht =>
      have hne : file ≠ f := by
        rintro rfl
        exact hw (by simp [writesTo, hcmd, hfd, hp _ hfd])
      rw [ht]
      simp [Shell.resume, hfd, hne]
  | @dumped path _ hcmd hfd ht =>
      have hne : file ≠ env.canonical path := by
        rintro rfl
        exact hw (by simp [writesTo, hcmd, hfd])
      rw [ht]
      simp [storeFile, hne]
  | same _ ht => rw [ht]

/-- The file is not open for writing. -/
def OnlyRead (file : Text) (p : Process) : Prop :=
  ∀ fd, p.shell.fd = some fd → fd.file = file → fd.writable = false

theorem OnlyRead.writesTo_ne (h : OnlyRead file p) (hp : Tied p) (hs : Spares env file i) :
    writesTo env p i ≠ some file := by
  have hopen {f : Text} (hfd : p.shell.fd = some ⟨f, true⟩) : f ≠ file := by
    rintro rfl
    cases h _ hfd rfl
  intro hw
  obtain ⟨c, fresh, freshParent⟩ := i
  cases c with
  | quit | umount =>
      simp only [writesTo] at hw
      split at hw
      · rename_i f hfd
        exact hopen hfd (Option.some.inj hw)
      · cases hw
  | delete dir | undelete dir =>
      simp only [writesTo] at hw
      split at hw
      · rename_i f hfd
        rw [hp _ hfd] at hw
        exact hopen hfd (Option.some.inj hw)
      · cases hw
  | dumpFat path =>
      simp only [writesTo] at hw
      split_ifs at hw
      exact hs.2 path rfl (Option.some.inj hw)
  | _ => cases hw

/-- Mounting it for reading does not open it for writing. -/
theorem OnlyRead.performed (h : OnlyRead file p) (hs : Spares env file i)
    (ht : Performed env p.shell i q.shell) : OnlyRead file q := by
  cases ht with
  | @mounted dev wflag img v hcmd _ _ ht =>
      intro fd hfd hfile
      rw [ht] at hfd
      obtain rfl : fd = ⟨env.canonical dev, wflag⟩ := (Option.some.inj hfd).symm
      cases wflag with
      | false => rfl
      | true => exact absurd hfile (hs.1 dev hcmd)
  | left _ hu =>
      rcases umount_cases hu with ⟨-, ht⟩ | ⟨fd, v, d, -, -, ht⟩
      · rw [OnlyRead, ht]
        exact h
      · intro fd hfd
        rw [ht] at hfd
        cases hfd
  | looked _ _ _ ht | deleted _ _ _ ht | undeleted _ _ _ ht | dumped _ _ ht | same _ ht =>
      rw [OnlyRead, ht]
      exact h

theorem files_of_step (hp : Tied p) (hc : Consistent p.shell) {o : Ending}
    (ho : step env p i = .ok o) (hw : writesTo env p i ≠ some file) :
    o.files file = p.shell.files file := by
  have hstep := step_outcome env (i := i) hp hc
  rw [ho] at hstep
  rw [← o.outcome_files]
  cases ht : ShellCommands.perform env p.shell i with
  | error e => rw [files_of_step_error ht hstep.symm]
  | ok t =>
      rw [ShellCommands.files_of_step ht hstep.symm]
      exact files_of_performed hp hc (performed_of_perform ht) hw

/-- A run whose commands all spare a file never writes to it. -/
theorem Run.spared {files : Text → Option Bytes} {trace : List (Process × Input)}
    (h : Run env files trace p) (hs : ∀ d ∈ trace, Spares env file d.2) :
    OnlyRead file p ∧ (∀ d ∈ trace, writesTo env d.1 d.2 ≠ some file) ∧
      p.shell.files file = files file := by
  induction h with
  | start => exact ⟨fun _ h => absurd h (by simp [Process.initial, Shell.initial]), by simp, rfl⟩
  | @step trace p q i hrun ht ih =>
      obtain ⟨hread, hwrites, hfiles⟩ := ih fun d hd => hs d (List.mem_append_left _ hd)
      have hspare : Spares env file i := hs (p, i) (by simp)
      obtain ⟨hp, commands, hhistory, -⟩ := hrun.history
      have hc := hhistory.consistent
      have hw := hread.writesTo_ne hp hspare
      refine ⟨hread.performed hspare ?_, ?_, (files_of_step hp hc ht hw).trans hfiles⟩
      · have hshell := perform_shell env (i := i) hp hc
        rw [step_running ht] at hshell
        exact performed_of_perform hshell.symm
      · simp only [List.mem_append, List.mem_singleton]
        rintro d (hd | rfl)
        · exact hwrites d hd
        · exact hw

/-- In every run, an image that is never mounted for writing and never the output of
`dump_fat` is not written, by no command and not by the one that ends the run. -/
theorem reader_untouched {files : Text → Option Bytes} {trace : List (Process × Input)}
    (h : Run env files trace p) (hs : ∀ d ∈ trace ++ [(p, i)], Spares env file d.2) :
    (∀ d ∈ trace ++ [(p, i)], writesTo env d.1 d.2 ≠ some file) ∧
      p.shell.files file = files file ∧
      ∀ o, step env p i = .ok o → o.files file = files file := by
  obtain ⟨hread, hwrites, hfiles⟩ := h.spared fun d hd => hs d (List.mem_append_left _ hd)
  obtain ⟨hp, commands, hhistory, -⟩ := h.history
  have hw := hread.writesTo_ne hp (hs (p, i) (by simp))
  refine ⟨?_, hfiles, fun o ho => (files_of_step hp hhistory.consistent ho hw).trans hfiles⟩
  simp only [List.mem_append, List.mem_singleton]
  rintro d (hd | rfl)
  · exact hwrites d hd
  · exact hw

end Frame

section Example
open LeavingVolumes NumberedRuns

def twoFiles : Text → Option Bytes := fun path =>
  if path = [0x56] ∨ path = [0x57] then some countedImage else none

theorem twoFiles_mounted : ∃ commands s, History subFileEnv (.initial twoFiles) commands s ∧
    commands.map Done.input = [input (.mount [0x56]), input (.wmount [0x57])] := by
  have hfirst := step_mount (s := .initial twoFiles) (i := input (.mount [0x56])) false rfl
    (show (Shell.initial twoFiles).files (subFileEnv.canonical [0x56]) = some countedImage by
      simp [Shell.initial, twoFiles, subFileEnv])
    rfl (countedImage_mounted _) (by decide)
  have hsecond := step_mount (i := input (.wmount [0x57])) true rfl
    (show (mountedShell (.initial twoFiles) (subFileEnv.canonical [0x56]) false
        countedVolume).files (subFileEnv.canonical [0x57]) = some countedImage by
      simp [mountedShell, Shell.initial, twoFiles, subFileEnv])
    rfl (countedImage_mounted _) (by decide)
  exact ⟨_, _, .step (.step .start hfirst) hsecond, rfl⟩

/-- `quit` then writes the second copy back, and not the first one. -/
theorem quit_spares_reader : ∃ trace p, Run subFileEnv twoFiles trace p ∧
    trace.map Prod.snd = [input (.mount [0x56]), input (.wmount [0x57])] ∧
      (∀ d ∈ trace ++ [(p, input .quit)], writesTo subFileEnv d.1 d.2 ≠ some [0x56]) ∧
        p.shell.files [0x56] = twoFiles [0x56] ∧
          ∀ o, step subFileEnv p (input .quit) = .ok o → o.files [0x56] = twoFiles [0x56] := by
  obtain ⟨commands, s, h, hinputs⟩ := twoFiles_mounted
  obtain ⟨trace, p, hrun, -, htrace⟩ := exists_run h
  refine ⟨trace, p, hrun, htrace.trans hinputs, reader_untouched hrun fun d hd => ?_⟩
  have hd : d.2 ∈ trace.map Prod.snd ++ [input .quit] := by
    simpa using List.mem_map_of_mem (f := Prod.snd) hd
  rw [htrace, hinputs] at hd
  simp only [List.cons_append, List.nil_append, List.mem_cons, List.not_mem_nil, or_false] at hd
  rcases hd with hd | hd | hd <;> rw [hd] <;> simp [Spares, input, subFileEnv]

end Example

end TFAT.TwoDescriptors
