import TFAT.ClusterTests
import TFAT.HiddenBytes
import TFAT.Remounts

/-!
# What the shell replies

A command changes the shell and prints something. A conversation is a sequence of commands with
what they print. Shells that differ in the second table and in front of the data area have the
same conversations while the volume stays mounted, up to `test_fat`, which compares the tables. So
on FAT16 nobody notices that a volume has been left by `umount` and mounted again.
-/
namespace TFAT.Conversations
open ByteRegions LittleEndianWords DiskLayout ClusterTable ClusterPlacement FileDescriptor
open VolumeMount PathText LongNames UserCommands ShellCommands ShellRuns ClusterTests Fat16Flush
open MarkingEffects SystemPlaces LeavingVolumes TableBlocks MirroredTables Remounts
open RelatedResults HiddenBytes

/-- What `info` prints, without the fields of the boot record that nothing else reads. -/
structure Info where
  fatn : Fatn
  mediaType : UInt8
  bytesPerSector : UInt16
  sectorsPerCluster : UInt8
  reservedSectorCount : UInt16
  tableCount : UInt8
  tableSize : ℕ
  totalSectors : ℕ
  totalSize : ℕ

/-- `info`. The total size is in megabytes. -/
def info (v : Volume) : Info where
  fatn := v.fatn
  mediaType := v.boot.mediaType
  bytesPerSector := v.boot.bytesPerSector
  sectorsPerCluster := v.boot.sectorsPerCluster
  reservedSectorCount := v.boot.reservedSectorCount
  tableCount := v.boot.tableCount
  tableSize := v.tableSize
  totalSectors := v.totalSectors
  totalSize := v.totalSectors * v.boot.bytesPerSector.toNat / (1024 * 1024)

/-- What a command prints. -/
inductive Reply where
  | lines (l : List Line)
  | walk (l : List ℕ)
  | rows (l : List (ℕ × ℕ))
  | errors (l : List (ℕ × ℕ × ℕ))
  | tested (good : Bool)
  | info (i : Info)
  | silent

section Replies
variable (env : Env) (s : Shell)

/-- Run a body that leaves a session, with the lines that it prints. -/
def speak (body : Session → Except Fault (Session × List Line)) :
    Except Fault (Shell × Reply) := do
  let r ← body s.session
  .ok (s.resume r.1, .lines r.2)

/-- Run a body that only prints. -/
def tell {α : Type} (say : α → Reply) (body : Except Fault α) : Except Fault (Shell × Reply) := do
  let a ← body
  .ok (s, say a)

def quietly (body : Except Fault Shell) : Except Fault (Shell × Reply) := do
  let t ← body
  .ok (t, .silent)

/-- What the handler of a command does and prints. -/
def converse (i : Input) : Except Fault (Shell × Reply) :=
  match i.command with
  | .quit | .umount => quietly (umount s)
  | .mount dev => quietly (mount env s dev false)
  | .wmount dev => quietly (mount env s dev true)
  | .cd path => speak s fun r => UserCommands.cd env.fill r i.fresh path
  | .ls dir => testFd s (speak s fun r => UserCommands.ls env.fill env.wcstombs r i.fresh dir false)
  | .lsdel dir =>
      testFd s (speak s fun r => UserCommands.ls env.fill env.wcstombs r i.fresh dir true)
  | .chain index => testFd s (tell s .walk (chain s.volume (index % 2 ^ 16)))
  | .fat answers => testFd s (tell s .rows (fat s.volume answers))
  | .dumpFat path => testFd s (quietly (writeTable env s path))
  | .testFat => testFd s (tell s .errors (testFat s.volume))
  | .dump dir => testFd s (speak s fun r => UserCommands.dump env.fill r i.fresh dir)
  | .hdump dir => testFd s (speak s fun r => UserCommands.hdump env.fill r i.fresh dir)
  | .delete dir =>
      testWFd s (speak s fun r => UserCommands.delete env.fill r i.fresh i.freshParent dir)
  | .undelete dir =>
      testWFd s (speak s fun r => UserCommands.undelete env.fill r i.fresh i.freshParent dir)
  | .info => testFd s (tell s .info (.ok (info s.volume)))
  | .test cluster => testFd s (tell s .tested (.ok (testCluster s.volume s.image cluster)))
  | .showCommand | .other => quietly (.ok s)

def conversation : Shell → List Input → Except Fault (Shell × List Reply)
  | s, [] => .ok (s, [])
  | s, i :: later => do
      let r ← converse env s i
      if i.command = .quit then .ok (r.1, [r.2])
      else
        let rest ← conversation r.1 later
        .ok (rest.1, r.2 :: rest.2)

end Replies

/-- Shells with the same volume mounted, which differ in the second table and in front of `off`. -/
structure AgreeShells (off : ℕ) (s t : Shell) : Prop where
  mounted : s.fd ≠ none
  fd : t.fd = s.fd
  label : t.label = s.label
  stored : ∀ fd, s.fd = some fd → (t.files fd.file).isSome = (s.files fd.file).isSome
  files : ∀ f, (∀ fd, s.fd = some fd → f ≠ fd.file) → t.files f = s.files f
  session : Agree off s.session t.session

/-- The shell with other contents of the second table. -/
def withBackup (s : Shell) (bak : Bytes) : Shell :=
  { s with volume := { s.volume with fatTableBak := bak } }

def SameReply (off : ℕ) (r r' : Shell × Reply) : Prop := r'.2 = r.2 ∧ AgreeShells off r.1 r'.1

/-- The command leaves the volume mounted and does not compare the tables. -/
def Blind (c : Command) : Prop := ¬ c.Leaves ∧ c ≠ .testFat

section Steps
variable {env : Env} {s t : Shell} {i : Input} {off : ℕ}

theorem map_testFd {α β : Type} (f : α → β) (body : Except Fault α) :
    (testFd s body).map f = testFd s (body.map f) := by
  unfold testFd
  split_ifs <;> rfl

theorem map_testWFd {α β : Type} (f : α → β) (body : Except Fault α) :
    (testWFd s body).map f = testWFd s (body.map f) := by
  unfold testWFd
  split <;> rfl

theorem map_speak (body : Session → Except Fault (Session × List Line)) :
    (speak s body).map Prod.fst = enter s body := by
  unfold speak enter
  cases body s.session <;> rfl

theorem map_tell {α : Type} (say : α → Reply) (body : Except Fault α) :
    (tell s say body).map Prod.fst = look s body := by
  unfold tell look
  cases body <;> rfl

theorem map_quietly (body : Except Fault Shell) : (quietly body).map Prod.fst = body := by
  unfold quietly
  cases body <;> rfl

/-- The shell does what it does without its replies. -/
theorem perform_eq_converse (env : Env) (s : Shell) (i : Input) :
    perform env s i = (converse env s i).map Prod.fst := by
  obtain ⟨c, fresh, freshParent⟩ := i
  cases c with
  | delete | undelete => exact ((map_testWFd _ _).trans (congrArg _ (map_speak _))).symm
  | quit | umount | mount | wmount | showCommand | other => exact (map_quietly _).symm
  | cd path => exact (map_speak fun r => UserCommands.cd env.fill r fresh path).symm
  | ls | lsdel | dump | hdump => exact ((map_testFd _ _).trans (congrArg _ (map_speak _))).symm
  | chain | fat | testFat => exact ((map_testFd _ _).trans (congrArg _ (map_tell _ _))).symm
  | dumpFat => exact ((map_testFd _ _).trans (congrArg _ (map_quietly _))).symm
  | info => exact (map_testFd Prod.fst (tell s .info (.ok (Conversations.info s.volume)))).symm
  | test cluster =>
      exact (map_testFd Prod.fst (tell s .tested (.ok (testCluster s.volume s.image cluster)))).symm

theorem AgreeShells.resume (h : AgreeShells off s t) {r r' : Session}
    (hr : Agree off r r') : AgreeShells off (s.resume r) (t.resume r') := by
  obtain ⟨fd, hfd⟩ := Option.ne_none_iff_exists'.mp h.mounted
  have hfd' : t.fd = some fd := h.fd.trans hfd
  refine ⟨h.mounted, h.fd, h.label, fun fd' hfd'' => ?_, fun f hf => ?_, ?_⟩
  · have hsame : fd' = fd := (Option.some.inj (hfd''.symm.trans hfd))
    simp only [Shell.resume, hfd, hfd', hsame, Function.update_self, Option.isSome_some]
  · have hne : f ≠ fd.file := hf fd hfd
    simp only [Shell.resume, hfd, hfd', Function.update_of_ne hne]
    exact h.files f fun fd' hfd'' => hf fd' hfd''
  · rw [session_resume hfd, session_resume hfd']
    exact hr

theorem AgreeShells.testFd (h : AgreeShells off s t) {x y : Except Fault (Shell × Reply)}
    (hxy : Related (SameReply off) x y) :
    Related (SameReply off) (ShellCommands.testFd s x) (ShellCommands.testFd t y) := by
  unfold ShellCommands.testFd
  rw [if_neg h.mounted, if_neg (h.fd ▸ h.mounted)]
  exact hxy

theorem AgreeShells.testWFd (h : AgreeShells off s t) {x y : Except Fault (Shell × Reply)}
    (hxy : Related (SameReply off) x y) :
    Related (SameReply off) (ShellCommands.testWFd s x) (ShellCommands.testWFd t y) := by
  unfold ShellCommands.testWFd
  rw [h.fd]
  split
  · exact hxy
  · exact .error _

theorem AgreeShells.speak (h : AgreeShells off s t)
    (body : Session → Except Fault (Session × List Line))
    (hb : Related (Alike off) (body s.session) (body t.session)) :
    Related (SameReply off) (Conversations.speak s body) (Conversations.speak t body) :=
  hb.bind fun _ _ _ _ hr => .ok ⟨congrArg Reply.lines hr.1, h.resume hr.2⟩

theorem AgreeShells.tell (h : AgreeShells off s t) {α : Type} (say : α → Reply)
    {x y : Except Fault α} (hxy : y = x) :
    Related (SameReply off) (Conversations.tell s say x) (Conversations.tell t say y) := by
  rw [hxy]
  exact related_bind fun a _ => .ok ⟨rfl, h⟩

section Tables
variable {v w : Volume} {img img' : Bytes}

theorem chain_twins (hw : Twins v w) (c : ℕ) : chain w c = chain v c := by
  obtain ⟨b, rfl, -⟩ := hw
  rfl

theorem info_twins (hw : Twins v w) : info w = info v := by
  obtain ⟨b, rfl, -⟩ := hw
  rfl

theorem dumpFat_twins (hw : Twins v w) : dumpFat w = dumpFat v := by
  obtain ⟨b, rfl, -⟩ := hw
  rfl

theorem fatFrom_twins (hw : Twins v w) (n i : ℕ) (answers : List Bool) :
    fatFrom w n i answers = fatFrom v n i answers := by
  obtain ⟨b, rfl, -⟩ := hw
  induction n generalizing i answers with
  | zero => rfl
  | succ n ih =>
      simp only [fatFrom, ih]
      rfl

theorem fat_twins (hw : Twins v w) (answers : List Bool) : fat w answers = fat v answers := by
  rw [fat, fat, fatFrom_twins hw]
  obtain ⟨b, rfl, -⟩ := hw
  rfl

/-- The test counts the bytes that are there. -/
theorem testSectors_twins (hw : Twins v w) (hlen : img'.length = img.length) (sec n i : ℕ) :
    testSectors w img' sec n i = testSectors v img sec n i := by
  obtain ⟨b, rfl, -⟩ := hw
  induction n generalizing i with
  | zero => rfl
  | succ n ih => simp only [testSectors, fsTest_eq_zero_iff, hlen, ih]

theorem testCluster_twins (hw : Twins v w) (hlen : img'.length = img.length) (c : ℕ) :
    testCluster w img' c = testCluster v img c := by
  rw [testCluster, testCluster, testSectors_twins hw hlen]
  obtain ⟨b, rfl, -⟩ := hw
  rfl

end Tables

/-- Both write the same table, also when it goes to the mounted file. -/
theorem AgreeShells.writeTable (h : AgreeShells off s t) (path : Text) :
    Related (SameReply off) (quietly (ShellCommands.writeTable env s path))
      (quietly (ShellCommands.writeTable env t path)) := by
  have hw : Twins s.volume t.volume := h.session.volume
  have hi : SameFrom off s.image t.image := h.session.image
  obtain ⟨fd, hfd⟩ := Option.ne_none_iff_exists'.mp h.mounted
  have hfd' : t.fd = some fd := h.fd.trans hfd
  unfold ShellCommands.writeTable
  dsimp only
  rw [dumpFat_twins hw]
  split_ifs
  · rw [quietly, quietly, bind_assoc, bind_assoc]
    refine related_bind fun data _ => .ok ⟨rfl, h.mounted, h.fd, h.label, fun fd' hfd'' => ?_,
      fun f hf => ?_, hw, h.session.front, ?_, h.session.currentPath, h.session.lfn⟩
    · by_cases hpath : fd'.file = env.canonical path
      · simp only [hpath, Function.update_self, Option.isSome_some]
      · simp only [Function.update_of_ne hpath, h.stored fd' hfd'']
    · by_cases hpath : f = env.canonical path
      · subst hpath
        simp only [Function.update_self, h.files _ hf]
      · simp only [Function.update_of_ne hpath, h.files f hf]
    · change SameFrom off (storeFile s _ _).image (storeFile t _ _).image
      by_cases hpath : fd.file = env.canonical path
      · rw [image_storeFile_self hfd hpath, image_storeFile_self hfd' hpath, ← hpath,
          ← image_eq hfd, ← image_eq hfd']
        exact hi.splice data
      · rwa [image_storeFile_of_ne hfd hpath, image_storeFile_of_ne hfd' hpath]
  · exact .error _

theorem AgreeShells.converse (h : AgreeShells off s t) (hb : Blind i.command) :
    Related (SameReply off) (Conversations.converse env s i) (Conversations.converse env t i) := by
  obtain ⟨c, fresh, freshParent⟩ := i
  have hsession := h.session
  have hw : Twins s.volume t.volume := hsession.volume
  cases c with
  | quit | umount | mount | wmount => exact absurd trivial hb.1
  | testFat => exact absurd rfl hb.2
  | cd path =>
      exact h.speak (fun r => UserCommands.cd env.fill r fresh path) (hsession.cd fresh path)
  | ls dir => exact h.testFd (h.speak _ (hsession.ls fresh dir false))
  | lsdel dir => exact h.testFd (h.speak _ (hsession.ls fresh dir true))
  | dump dir => exact h.testFd (h.speak _ (hsession.dumpWith fresh .chars dir))
  | hdump dir => exact h.testFd (h.speak _ (hsession.dumpWith fresh .hexes dir))
  | delete dir => exact h.testWFd (h.speak _ (hsession.delete fresh freshParent dir))
  | undelete dir => exact h.testWFd (h.speak _ (hsession.undelete fresh freshParent dir))
  | chain index => exact h.testFd (h.tell _ (chain_twins hw _))
  | fat answers => exact h.testFd (h.tell _ (fat_twins hw answers))
  | dumpFat path => exact h.testFd (h.writeTable path)
  | test cluster =>
      exact h.testFd (h.tell _ (congrArg _ (testCluster_twins hw hsession.image.length cluster)))
  | info => exact h.testFd (h.tell _ (congrArg _ (info_twins hw)))
  | showCommand | other => exact .ok ⟨rfl, h⟩

end Steps

section Runs
variable {env : Env} {s t : Shell} {later : List Input} {off : ℕ}

/-- Both give the same replies and leave shells that agree. -/
def SameReplies (off : ℕ) (r r' : Shell × List Reply) : Prop :=
  r'.2 = r.2 ∧ AgreeShells off r.1 r'.1

theorem AgreeShells.conversation (h : AgreeShells off s t) (hb : ∀ i ∈ later, Blind i.command) :
    Related (SameReplies off) (Conversations.conversation env s later)
      (Conversations.conversation env t later) := by
  induction later generalizing s t with
  | nil => exact .ok ⟨rfl, h⟩
  | cons i later ih =>
      have hi := hb i (by simp)
      have hq : i.command ≠ .quit := fun hc => hi.1 (by rw [hc]; trivial)
      simp only [Conversations.conversation, if_neg hq]
      refine (h.converse hi).bind fun r r' _ _ hr => ?_
      refine (ih hr.2 fun j hj => hb j (by simp [hj])).bind fun q q' _ _ hq => ?_
      refine .ok ⟨?_, hq.2⟩
      rw [hr.1, hq.1]

/-- Shells that agree from the start of the image on differ in the second table only. -/
theorem AgreeShells.eq_withBackup (h : AgreeShells 0 s t) :
    ∃ bak, bak.length = s.volume.fatTableBak.length ∧ t = withBackup s bak := by
  obtain ⟨fd, hfd⟩ := Option.ne_none_iff_exists'.mp h.mounted
  have hfd' : t.fd = some fd := h.fd.trans hfd
  have himage : t.image = s.image :=
    List.ext_getElem? fun x => h.session.image.data x (Nat.zero_le x)
  rw [image_eq hfd', image_eq hfd] at himage
  have hfiles : t.files = s.files := by
    funext f
    by_cases hf : f = fd.file
    · have hstored := h.stored fd hfd
      rw [hf]
      cases ht : t.files fd.file with
      | none =>
          rw [ht] at hstored
          exact (Option.isNone_iff_eq_none.mp (by simpa using hstored.symm)).symm
      | some b =>
          cases hs : s.files fd.file with
          | none => simp [ht, hs] at hstored
          | some a => simpa [ht, hs] using himage
    · exact h.files f fun fd' hfd'' => by rwa [← Option.some.inj (hfd.symm.trans hfd'')]
  obtain ⟨bak, hv, hlen⟩ := h.session.volume
  have hvolume : t.volume = { s.volume with fatTableBak := bak } := hv
  have hpath : t.currentPath = s.currentPath := h.session.currentPath
  have hlfn : t.lfn = s.lfn := h.session.lfn
  refine ⟨bak, hlen, ?_⟩
  obtain ⟨files, fd, volume, currentPath, label, lfn⟩ := t
  simp only at hfiles hfd' hvolume hpath hlfn
  rw [withBackup, hfiles, hfd', ← hfd, hvolume, hpath, hlfn, show label = s.label from h.label]

theorem runs_of_conversation {s₀ : Shell} {before : List Done} {replies : List Reply}
    (hrun : Runs env s₀ before s) (hl : ∀ i ∈ later, ¬ i.command.Leaves)
    (h : conversation env s later = .ok (t, replies)) :
    ∃ trace, Runs env s₀ (before ++ trace) t ∧ trace.map Done.input = later := by
  induction later generalizing s before replies with
  | nil =>
      obtain ⟨rfl, -⟩ := Prod.mk.inj (Except.ok.inj h)
      exact ⟨[], by rwa [List.append_nil], rfl⟩
  | cons i later ih =>
      have hi : ¬ i.command.Leaves := hl i (by simp)
      have hq : i.command ≠ .quit := fun hc => hi (by rw [hc]; trivial)
      obtain ⟨⟨u, reply⟩, hu, h⟩ := bind_eq_ok.mp h
      rw [if_neg hq] at h
      obtain ⟨⟨t', rest⟩, ht, h⟩ := bind_eq_ok.mp h
      obtain ⟨rfl, -⟩ := Prod.mk.inj (Except.ok.inj h)
      have hstep : step env s i = .ok (.running u) := by
        have hp : perform env s i = .ok u := by rw [perform_eq_converse, hu]; rfl
        rw [step, hp]
        simp only [if_neg hq]
      obtain ⟨trace, hrun', hinput⟩ := ih (.step hrun hi hstep) (fun j hj => hl j (by simp [hj])) ht
      refine ⟨⟨i, s, u⟩ :: trace, by simpa using hrun', ?_⟩
      rw [List.map_cons, hinput]

theorem kept_of_runs {s₀ : Shell} {trace : List Done} (h : Runs env s₀ trace s) :
    s.fd = s₀.fd ∧ s.label = s₀.label ∧ getLabel s.volume = getLabel s₀.volume := by
  induction h with
  | start => exact ⟨rfl, rfl, rfl⟩
  | step _ hl ht ih =>
      obtain ⟨hfd, hlabel, hvolume⟩ := kept_of_perform hl (step_running ht)
      exact ⟨hfd.trans ih.1, hlabel.trans ih.2.1, hvolume.trans ih.2.2⟩

/-- What a completed `umount` has done. -/
theorem umount_of_flushes {t : Shell} {i : Input} (hi : i.command.Flushes)
    (h : step env s i = .ok (.running t)) : umount s = .ok t := by
  have hp := step_running h
  obtain ⟨c, fresh, freshParent⟩ := i
  cases c with
  | quit | umount => exact hp
  | _ => exact False.elim hi

theorem kept_of_umount (h : umount s = .ok t) :
    t.lfn = s.lfn ∧ ∀ f, (∀ fd, s.fd = some fd → f ≠ fd.file) → t.files f = s.files f := by
  rcases umount_cases h with ⟨-, rfl⟩ | ⟨fd, v, d, hfd, -, rfl⟩
  · exact ⟨rfl, fun _ _ => rfl⟩
  · exact ⟨rfl, fun f hf => Function.update_of_ne (hf fd hfd) _ _⟩

/-- A flush of a FAT16 volume writes in front of the data area only. -/
theorem sameFrom_written {l : Places} {img : Bytes} {v : Volume} {file : Text}
    (hW : WritesBack l img v) (hk : Kept file img v s) (hn : v.fatn = .fat16) :
    SameFrom s.volume.dataOffset s.image (written l s.volume s.image) := by
  refine ⟨length_written hW hk.edits hk.length, fun x hx => getElem?_written hW hk ?_⟩
  rw [hk.edits.dataOffset] at hx
  have hdata := hW.data
  have hroot := hW.fixedRoot hn
  rintro (h | h)
  · have := h.2
    omega
  · have := h.2
    omega

/-- In a run the label is that of the volume which was mounted in front of it. -/
theorem label_of_runs {s₀ s₁ : Shell} {dev : Text} {first : Input} {trace : List Done}
    (hfirst : first.command = .wmount dev) (hmount : step env s₀ first = .ok (.running s₁))
    (hrun : Runs env s₁ trace s) : s.label = getLabel s.volume := by
  obtain ⟨-, hlabel, hvolume⟩ := kept_of_runs hrun
  obtain ⟨img, v, -, -, hs₁⟩ := mount_eq_ok (mount_of_wmount hfirst hmount)
  rw [hlabel, hvolume, hs₁]

/-- A FAT16 volume that is left and mounted again is the volume that was left, up to the second
table and what lies in front of the data area. -/
theorem agree_of_remount {s₀ s₁ u : Shell} {dev dev' : Text} {img : Bytes}
    {first last again : Input} {trace : List Done}
    (hfile : s₀.files (env.canonical dev) = some img) (himg : Fat16Image img)
    (hfirst : first.command = .wmount dev) (hmount : step env s₀ first = .ok (.running s₁))
    (hrun : Runs env s₁ trace s) (hd : NotDumped env (env.canonical dev) trace)
    (hlast : last.command.Flushes) (hleft : step env s last = .ok (.running t))
    (hagain : again.command = .wmount dev') (hdev : env.canonical dev' = env.canonical dev)
    (hback : step env t again = .ok (.running u)) :
    AgreeShells s.volume.dataOffset { s with currentPath := [slash] } u := by
  obtain ⟨hout, hread, -⟩ := initFat_of_left hfile (.inl himg) hfirst hmount hrun hd hlast hleft
  obtain ⟨hv, -, -, hk₁⟩ := mounted_of_wmount hfile hfirst hmount
  have hk := (hk₁.run hrun).1
  have hW : WritesBack (places img) img s₁.volume := Rewritable.writesBack (.inl himg) hv
  have htables : HasTables s.volume := (hasTables_of_initFat hv).of_edits hk.edits
  have hfat16 : s₁.volume.fatn = .fat16 := by
    rw [himg.initFat_eq, Except.ok.injEq] at hv
    rw [← hv]
    rfl
  have hfile' : t.files (env.canonical dev') = some (written (places img) s.volume s.image) := by
    rw [hdev]
    exact hout
  obtain ⟨img', v, hfound, hv', hu⟩ := mount_eq_ok (mount_of_wmount hagain hback)
  obtain rfl := Option.some.inj (hfound.symm.trans hfile')
  obtain rfl := Except.ok.inj (hv'.symm.trans hread)
  have himage : u.image = written (places img) s.volume s.image := by
    rw [hu, Shell.image]
    simp [hfile']
  have hfd : s.fd = some ⟨env.canonical dev, true⟩ := hk.writable.fd
  obtain ⟨hlfn, hfiles⟩ := kept_of_umount (umount_of_flushes hlast hleft)
  refine ⟨?_, ?_, ?_, fun fd' hfd' => ?_, fun f hf => ?_, ⟨?_, le_rfl, ?_, ?_, ?_⟩⟩
  · simp [hfd]
  · rw [hu, hdev]
    exact hfd.symm
  · rw [hu, label_of_runs hfirst hmount hrun]
    rfl
  · have hsame : env.canonical dev = fd'.file :=
      congrArg Fd.file (Option.some.inj (hfd.symm.trans hfd'))
    have hstored : s.files (env.canonical dev) = some s.image := hk.writable.stored
    rw [hdev] at hfile'
    simp only [hu, ← hsame, hstored, hfile', Option.isSome_some]
  · rw [hu]
    exact hfiles f hf
  · rw [hu]
    exact ⟨s.volume.fatTable, rfl, htables.fatTable.trans htables.fatTableBak.symm⟩
  · change SameFrom s.volume.dataOffset s.image u.image
    rw [himage]
    exact sameFrom_written hW hk hfat16
  · rw [hu]
    rfl
  · rw [hu]
    exact hlfn

end Runs

section Example

end Example

section Example

end Example

end TFAT.Conversations
