import TFAT.ShellCommands

/-!
# Runs of the shell

A run is any sequence of commands, through mounts and unmounts. What the handler
of a command can do is said once: it mounts, it leaves a volume, it looks, it
marks entries of a volume that is mounted for writing, or it writes the table to
a file. Along a run the descriptor is open on a file that exists, and without a
descriptor there is no block of a volume that may be accessed.
-/
namespace TFAT.ShellRuns
open ByteRegions LittleEndianWords DiskLayout ClusterTable FileDescriptor VolumeMount PathText
open LongNames UserCommands ShellCommands

variable (env : Env)

inductive History (s₀ : Shell) : List Done → Shell → Prop
  | start : History s₀ [] s₀
  | step {trace : List Done} {s t : Shell} {i : Input} : History s₀ trace s →
      ShellCommands.step env s i = .ok (.running t) → History s₀ (trace ++ [⟨i, s, t⟩]) t

/-- The shell that a completed mount leaves. -/
def mountedShell (s : Shell) (file : Text) (wflag : Bool) (v : Volume) : Shell :=
  { s with
    fd := some ⟨file, wflag⟩
    volume := v
    currentPath := [slash]
    label := getLabel v }

def storeFile (s : Shell) (file : Text) (img : Bytes) : Shell :=
  { s with files := Function.update s.files file (some img) }

/-- What the handler of a command has done when it returns. -/
inductive Performed (s : Shell) (i : Input) (t : Shell) : Prop
  | mounted {dev : Text} {wflag : Bool} {img : Bytes} {v : Volume} :
      i.command = (if wflag then .wmount dev else .mount dev) →
      s.files (env.canonical dev) = some img → initFat env.fill img = .ok v →
      t = mountedShell s (env.canonical dev) wflag v → Performed s i t
  | left : i.command.Flushes → umount s = .ok t → Performed s i t
  | looked {r : Session} : ¬ i.command.Leaves → r.volume = s.volume → r.image = s.image →
      t = s.resume r → Performed s i t
  | deleted {dir file : Text} {r : Session} {lines : List Line} : i.command = .delete dir →
      s.fd = some ⟨file, true⟩ →
      UserCommands.delete env.fill s.session i.fresh i.freshParent dir = .ok (r, lines) →
      t = s.resume r → Performed s i t
  | undeleted {dir file : Text} {r : Session} {lines : List Line} : i.command = .undelete dir →
      s.fd = some ⟨file, true⟩ →
      UserCommands.undelete env.fill s.session i.fresh i.freshParent dir = .ok (r, lines) →
      t = s.resume r → Performed s i t
  | dumped {path : Text} {data : Bytes} : i.command = .dumpFat path → s.fd ≠ none →
      t = storeFile s (env.canonical path)
        (splice 0 ((s.files (env.canonical path)).getD []) 0 data) → Performed s i t
  | same : ¬ i.command.Leaves → t = s → Performed s i t

variable {env} {s t : Shell} {i : Input}

theorem files_storeFile (s : Shell) (file : Text) (img : Bytes) :
    (storeFile s file img).files file = some img := Function.update_self _ _ _

theorem leaves_of_mounts {dev : Text} {wflag : Bool}
    (h : i.command = if wflag then .wmount dev else .mount dev) : i.command.Leaves := by
  rw [h]
  cases wflag <;> trivial

theorem leaves_of_flushes {c : Command} (h : c.Flushes) : c.Leaves := by
  cases c with
  | quit | umount => trivial
  | _ => exact h.elim

section Handlers

theorem testFd_of_ok {α : Type} {body : Except Fault α} {a : α} (h : testFd s body = .ok a) :
    s.fd ≠ none ∧ body = .ok a := by
  refine ⟨fun hn => ?_, testFd_eq_ok h⟩
  rw [testFd, if_pos hn] at h
  exact absurd h (by simp)

theorem testWFd_of_ok {α : Type} {body : Except Fault α} {a : α} (h : testWFd s body = .ok a) :
    (∃ file, s.fd = some ⟨file, true⟩) ∧ body = .ok a := by
  refine ⟨?_, testWFd_eq_ok h⟩
  unfold testWFd at h
  split at h
  · exact ⟨_, by assumption⟩
  · simp at h

theorem performed_of_enter {body : Session → Except Fault (Session × List Line)}
    (hl : ¬ i.command.Leaves) (h : enter s body = .ok t)
    (hb : ∀ r, body s.session = .ok r → r.1.volume = s.volume ∧ r.1.image = s.image) :
    Performed env s i t := by
  obtain ⟨r, hr, ht⟩ := enter_eq_ok h
  obtain ⟨hv, hi⟩ := hb r hr
  exact .looked hl hv hi ht

theorem performed_of_mount {dev : Text} (wflag : Bool)
    (hc : i.command = if wflag then .wmount dev else .mount dev)
    (h : mount env s dev wflag = .ok t) : Performed env s i t := by
  obtain ⟨img, v, hf, hv, ht⟩ := mount_eq_ok h
  exact .mounted hc hf hv ht

/-- Every handler that returns has done one of these things. -/
theorem performed_of_perform (h : perform env s i = .ok t) : Performed env s i t := by
  obtain ⟨c, fresh, freshParent⟩ := i
  cases c with
  | quit | umount => exact .left trivial h
  | mount dev => exact performed_of_mount false rfl h
  | wmount dev => exact performed_of_mount true rfl h
  | cd path =>
      change enter s (fun r => UserCommands.cd env.fill r fresh path) = _ at h
      exact performed_of_enter id h fun r hr => cd_untouched hr
  | ls dir | lsdel dir =>
      exact performed_of_enter id (testFd_eq_ok h) fun r hr => ls_untouched hr
  | dump dir | hdump dir =>
      exact performed_of_enter id (testFd_eq_ok h) fun r hr => dumpWith_untouched hr
  | chain index => exact .same id (look_eq_ok (testFd_eq_ok h))
  | fat answers => exact .same id (look_eq_ok (testFd_eq_ok h))
  | testFat => exact .same id (look_eq_ok (testFd_eq_ok h))
  | dumpFat path =>
      obtain ⟨hfd, h⟩ := testFd_of_ok h
      unfold writeTable at h
      simp only at h
      split_ifs at h
      obtain ⟨data, -, h⟩ := bind_eq_ok.mp h
      exact .dumped rfl hfd (Except.ok.inj h).symm
  | delete dir =>
      obtain ⟨⟨file, hfd⟩, h⟩ := testWFd_of_ok h
      obtain ⟨⟨r, lines⟩, hr, ht⟩ := enter_eq_ok h
      exact .deleted rfl hfd hr ht
  | undelete dir =>
      obtain ⟨⟨file, hfd⟩, h⟩ := testWFd_of_ok h
      obtain ⟨⟨r, lines⟩, hr, ht⟩ := enter_eq_ok h
      exact .undeleted rfl hfd hr ht
  | info | test cluster => exact .same id (Except.ok.inj (testFd_eq_ok h)).symm
  | showCommand | other => exact .same id (Except.ok.inj h).symm

theorem step_mount (wflag : Bool) {dev : Text} {img : Bytes} {v : Volume}
    (hc : i.command = if wflag then .wmount dev else .mount dev)
    (hf : s.files (env.canonical dev) = some img)
    (hmay : env.mayOpen (env.canonical dev) (if wflag then .rdwr else .rdonly) = true)
    (hv : initFat env.fill img = .ok v) (hm : v.boot.mediaType ≠ 0) :
    ShellCommands.step env s i = .ok (.running (mountedShell s (env.canonical dev) wflag v)) := by
  have hp : perform env s i = .ok (mountedShell s (env.canonical dev) wflag v) := by
    rw [perform, hc]
    cases wflag <;> exact mount_of_initFat _ hf hmay hv hm
  have hq : i.command ≠ .quit := by
    rw [hc]
    cases wflag <;> exact fun h => by cases h
  rw [ShellCommands.step, hp]
  simp only [if_neg hq]

theorem umount_cases (h : umount s = .ok t) :
    s.fd = none ∧ t = s ∨ ∃ fd v d, s.fd = some fd ∧
      (fd.writable = true ∧ writeFat s.volume ⟨s.image, 0⟩ = .ok (v, d) ∨
        fd.writable = false ∧ d.bytes = s.image) ∧
      t = { s with
        files := Function.update s.files fd.file (some d.bytes)
        fd := none
        volume := freeFat v
        currentPath := noPath
        label := noLabel } := by
  unfold umount at h
  cases hfd : s.fd with
  | none =>
      rw [hfd] at h
      exact .inl ⟨rfl, (Except.ok.inj h).symm⟩
  | some fd =>
      rw [hfd] at h
      refine .inr ?_
      cases hwr : fd.writable with
      | true =>
          simp only [hwr, if_pos] at h
          obtain ⟨⟨v, d⟩, hw, ht⟩ := bind_eq_ok.mp h
          exact ⟨fd, v, d, rfl, .inl ⟨hwr, hw⟩, (Except.ok.inj ht).symm⟩
      | false =>
          simp only [hwr, Bool.false_eq_true, if_false, ok_bind, Except.ok.injEq] at h
          exact ⟨fd, s.volume, ⟨s.image, 0⟩, rfl, .inr ⟨hwr, rfl⟩, h.symm⟩

end Handlers

/-- A run from where another run has come to. -/
theorem History.append {s₀ u : Shell} {trace rest : List Done} (h : History env s₀ trace u)
    (h' : History env u rest s) : History env s₀ (trace ++ rest) s := by
  induction h' with
  | start => rwa [List.append_nil]
  | step _ ht ih =>
      rw [← List.append_assoc]
      exact .step ih ht

/-- Every command of a run was reached by the run up to it, and the shell went on. -/
theorem History.of_mem {s₀ : Shell} {trace : List Done} {d : Done} (h : History env s₀ trace s)
    (hd : d ∈ trace) : ∃ before, History env s₀ before d.start ∧
      ShellCommands.step env d.start d.input = .ok (.running d.stop) := by
  induction h with
  | start => exact absurd hd (by simp)
  | step h ht ih =>
      rcases List.mem_append.mp hd with hd | hd
      · exact ih hd
      · rw [List.mem_singleton.mp hd]
        exact ⟨_, h, ht⟩

/-- The open file exists, and without an open file every block has been freed, or was
never allocated. -/
structure Consistent (s : Shell) : Prop where
  stored : ∀ fd, s.fd = some fd → s.files fd.file = some s.image
  released : s.fd = none →
    s.volume.fatTable = [] ∧ s.volume.fatTableBak = [] ∧ s.volume.rootDir = []

section Keeping

theorem image_eq {fd : Fd} (hfd : s.fd = some fd) : s.image = (s.files fd.file).getD [] := by
  rw [Shell.image, hfd, Option.bind_some]

theorem stored_of_eq_some {fd : Fd} {img : Bytes} (hfd : s.fd = some fd)
    (h : s.files fd.file = some img) : s.image = img := by
  rw [image_eq hfd, h, Option.getD_some]

theorem consistent_initial (files : Text → Option Bytes) : Consistent (.initial files) :=
  ⟨fun _ h => absurd h (by simp [Shell.initial]), fun _ => ⟨rfl, rfl, rfl⟩⟩

theorem session_resume {fd : Fd} (hfd : s.fd = some fd) (r : Session) :
    (s.resume r).session = r := by
  simp [Shell.session, Shell.resume, Shell.image, hfd]

theorem image_resume {fd : Fd} (hfd : s.fd = some fd) (r : Session) :
    (s.resume r).image = r.image := by
  simp [Shell.resume, Shell.image, hfd]

theorem Consistent.resume (h : Consistent s) {r : Session}
    (hr : s.fd = none → r.volume = s.volume) : Consistent (s.resume r) := by
  constructor
  · intro fd hfd
    have hs : s.fd = some fd := hfd
    simp [Shell.resume, Shell.image, hs]
  · intro hn
    change r.volume.fatTable = [] ∧ r.volume.fatTableBak = [] ∧ r.volume.rootDir = []
    rw [hr hn]
    exact h.released hn

theorem Consistent.update (h : Consistent s) (file : Text) (img : Bytes) :
    Consistent (storeFile s file img) := by
  refine ⟨fun fd hfd => ?_, h.released⟩
  obtain ⟨out, hout⟩ : ∃ out, (storeFile s file img).files fd.file = some out := by
    by_cases hf : fd.file = file
    · exact ⟨img, by simp [storeFile, hf]⟩
    · exact ⟨s.image, by simp [storeFile, hf, h.stored fd hfd]⟩
  rw [stored_of_eq_some hfd hout]
  exact hout

theorem Consistent.performed (h : Consistent s) (ht : Performed env s i t) : Consistent t := by
  cases ht with
  | @mounted dev wflag img v _ hf _ ht =>
      subst ht
      refine ⟨fun fd hfd => ?_, fun hn => absurd hn (by simp [mountedShell])⟩
      have hfile : fd.file = env.canonical dev := congrArg Fd.file (Option.some.inj hfd).symm
      have hstored : (mountedShell s (env.canonical dev) wflag v).files fd.file = some img :=
        hfile ▸ hf
      rw [hstored, stored_of_eq_some hfd hstored]
  | left _ hu =>
      rcases umount_cases hu with ⟨-, rfl⟩ | ⟨fd, v, d, -, -, rfl⟩
      · exact h
      · exact ⟨fun fd hfd => absurd hfd (by simp), fun _ => ⟨rfl, rfl, rfl⟩⟩
  | looked _ hv _ ht => exact ht ▸ h.resume fun _ => hv
  | deleted _ hfd _ ht | undeleted _ hfd _ ht =>
      exact ht ▸ h.resume fun hn => absurd (hn.symm.trans hfd) (by simp)
  | dumped _ _ ht => exact ht ▸ h.update _ _
  | same _ ht => exact ht ▸ h

theorem History.consistent {files : Text → Option Bytes} {trace : List Done}
    (h : History env (.initial files) trace s) : Consistent s := by
  induction h with
  | start => exact consistent_initial files
  | step _ ht ih => exact ih.performed (performed_of_perform (step_running ht))

end Keeping

end TFAT.ShellRuns
