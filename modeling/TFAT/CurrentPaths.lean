import TFAT.DirectoryTree
import TFAT.ListingRuns

/-!
# The current path along a run

`cd` keeps the path that it has been given as a text, and the last entry on it only has
to be a directory entry, whereas `ls` has to open the array of that entry. The text
starts and ends with a slash in every run. `ls` lists a directory of the volume as long
as no `cd` leads to the root directory under another path than the single slash, or
through a deleted entry.
-/
namespace TFAT.CurrentPaths
open ByteRegions LittleEndianWords LinkedChains DiskLayout ClusterTable FileDescriptor PathText
open EntryNames DirectoryIO PathResolution LongNames LongNameParts UserCommands ShellCommands
open ShellRuns ListedNames ListingRuns VolumeTree DirectoryTree

def Slashed (t : Text) : Prop := t.head? = some slash ∧ t.getLast? = some slash

/-- The command leaves the volume mounted and writes nothing, so it deletes nothing. -/
def Reads (c : Command) : Prop := ¬ c.Leaves ∧ ¬ c.Marks ∧ ∀ path, c ≠ .dumpFat path

/-- The argument of `cd` leads to the root directory under another path than `/`, by
slashes alone or by an entry with first cluster 0, or through a name as deleted entries
have it. -/
def Astray (fill : ℕ → UInt8) (s : Session) (fresh : FatDirLayout) (path : Text) : Prop :=
  let npath := (addressConvertor s.currentPath (some path)).text
  npath ≠ [slash] ∧
    (components npath = [] ∧ isDirectory fresh.attr ∨
      ∃ e, LeadsTo fill s.volume s.image (components npath) e ∧ isDirectory e.attr ∧
        (s.volume.firstCluster e = 0 ∨ ∃ t ∈ components npath, t.head? = some question))

/-- `ls` without an argument succeeds and lists a directory of the volume. -/
def Lists (env : Env) (s : Shell) : Prop :=
  ∀ fresh freshParent, ∃ t block n lines,
    step env s ⟨.ls none, fresh, freshParent⟩ = .ok (.running t) ∧
      openListed env.fill s.session fresh none = .ok (some (block, n)) ∧
      FolderBlock s.volume s.image block n ∧
      output env s.session ⟨.ls none, fresh, freshParent⟩ = .ok lines ∧
      ∀ path, Line.folderNotFound path ∉ lines

section Texts
variable {t u cur : Text}

theorem getLast?_endSlash (t : Text) : (endSlash t).getLast? = some slash := by
  unfold endSlash
  split_ifs with h
  · exact h
  · exact List.getLast?_concat

theorem head?_append (h : t.head? = some slash) (u : Text) : (t ++ u).head? = some slash := by
  rw [List.head?_append, h, Option.some_or]

theorem head?_endSlash (h : t.head? = some slash) : (endSlash t).head? = some slash := by
  unfold endSlash
  split_ifs
  · exact h
  · exact head?_append h _

theorem head?_stripSlash (h : t.head? = some slash) :
    stripSlash t = [] ∨ (stripSlash t).head? = some slash := by
  obtain ⟨u, rfl⟩ : ∃ u, t = slash :: u := by
    cases t with
    | nil => cases h
    | cons b u => exact ⟨u, by rw [Option.some.inj h]⟩
  unfold stripSlash
  split_ifs
  · cases u with
    | nil => exact .inl rfl
    | cons b u => exact .inr rfl
  · exact .inr rfl

theorem head?_getParentPath (h : t.head? = some slash) :
    (getParentPath t).head? = some slash := by
  simp only [getParentPath]
  rcases head?_stripSlash h with hs | hs
  · rw [hs]
    rfl
  · cases scanBack (stripSlash t) (stripSlash t).length with
    | zero => rfl
    | succ k =>
        refine head?_append ?_ _
        rw [List.head?_take, if_neg (by omega), hs]

theorem slashed_addressConvertor (h : Slashed cur) (path : Option Text) :
    Slashed (addressConvertor cur path).text := by
  cases path with
  | none => exact h
  | some path =>
      rcases argument_cases path with ⟨rest, rfl⟩ | ⟨rest, rfl, hd⟩ | ⟨rest, rfl⟩ | ⟨hd, hs⟩
      · rw [addressConvertor_dotDot]
        exact ⟨head?_endSlash (head?_append (head?_getParentPath h.1) _), getLast?_endSlash _⟩
      · rw [addressConvertor_dot cur hd]
        exact ⟨head?_endSlash (head?_append h.1 _), getLast?_endSlash _⟩
      · rw [addressConvertor_absolute]
        exact ⟨head?_endSlash rfl, getLast?_endSlash _⟩
      · rw [addressConvertor_relative cur hd hs]
        exact ⟨head?_endSlash (head?_append h.1 _), getLast?_endSlash _⟩

end Texts

section Steps
variable {env : Env} {s t : Shell} {i : Input}

theorem kept_of_reads (hr : Reads i.command) (h : perform env s i = .ok t) :
    t.fd = s.fd ∧ t.volume = s.volume ∧ t.image = s.image := by
  obtain ⟨hleaves, hmarks, hdump⟩ := hr
  cases performed_of_perform h with
  | @mounted dev wflag _ _ hc =>
      rw [hc] at hleaves
      cases wflag <;> exact absurd trivial hleaves
  | left hf =>
      refine absurd ?_ hleaves
      cases hc : i.command with
      | quit | umount => trivial
      | _ => rw [hc] at hf; exact hf.elim
  | @looked r _ hv hi ht =>
      refine ⟨by rw [ht]; rfl, by rw [ht]; exact hv, ?_⟩
      cases hfd : s.fd with
      | none => simp [ht, Shell.image, Shell.resume, hfd]
      | some fd => rw [← hi, ht]; exact image_resume hfd r
  | deleted hc | undeleted hc => exact absurd (by rw [hc]; trivial) hmarks
  | dumped hc => exact absurd hc (hdump _)
  | same _ ht => rw [ht]; exact ⟨rfl, rfl, rfl⟩

theorem currentPath_of_perform (hr : Reads i.command) (hn : ∀ path, i.command ≠ .cd path)
    (h : perform env s i = .ok t) : t.currentPath = s.currentPath := by
  cases hl : listingOf i.command with
  | none => exact (globals_of_perform hr.1 hl hn h).2
  | some d =>
      obtain ⟨r, hls, rfl⟩ := listing_of_perform hl h
      obtain ⟨lfn, hs⟩ := ls_result hls
      exact congrArg Session.currentPath hs

theorem slashed_of_perform (hr : Reads i.command) (hs : Slashed s.currentPath)
    (h : perform env s i = .ok t) : Slashed t.currentPath := by
  by_cases hc : ∃ path, i.command = .cd path
  · obtain ⟨path, hc⟩ := hc
    obtain ⟨r, hcd, rfl⟩ := cd_of_perform hc h
    rcases cd_cases hcd with hr | ⟨npath, rfl, hr, -⟩
    · rw [hr]
      exact hs
    · rw [hr]
      exact slashed_addressConvertor hs _
  · rwa [currentPath_of_perform hr (fun path hp => hc ⟨path, hp⟩) h]

/-- The current path is `/`, or leads to a directory entry with clusters and through no
deleted name. -/
def Standing (fill : ℕ → UInt8) (v : Volume) (img : Bytes) (path : Text) : Prop :=
  path = [slash] ∨ path ≠ [slash] ∧ ∃ e, LeadsTo fill v img (components path) e ∧
    isDirectory e.attr ∧ v.firstCluster e ≠ 0 ∧ ∀ t ∈ components path, t.head? ≠ some question

/-- A `cd` that does not lead astray comes to such a path. -/
theorem standing_of_cd {r : Session × List Line} {q : Session} {fill : ℕ → UInt8}
    {fresh : FatDirLayout} {path : Text} (ha : ¬ Astray fill q fresh path)
    (hs : Standing fill q.volume q.image q.currentPath)
    (h : UserCommands.cd fill q fresh path = .ok r) :
    Standing fill q.volume q.image r.1.currentPath := by
  rcases cd_cases h with hr | ⟨npath, rfl, hr, hroot | ⟨hroot, e, he, hdir⟩⟩
  · rwa [hr]
  · rw [hr]
    exact .inl hroot
  · rw [hr]
    have hn : components (addressConvertor q.currentPath (some path)).text ≠ [] := by
      intro hn
      rw [find_of_components_eq_nil fresh hn, Except.ok.injEq, Option.some.injEq] at he
      exact ha ⟨hroot, .inl ⟨hn, he ▸ hdir⟩⟩
    have hlead := (find_eq_some_iff hn).mp he
    refine .inr ⟨hroot, e, hlead, hdir, fun hc => ?_, fun t ht hq => ?_⟩
    · exact ha ⟨hroot, .inr ⟨e, hlead, hdir, .inl hc⟩⟩
    · exact ha ⟨hroot, .inr ⟨e, hlead, hdir, .inr ⟨t, ht, hq⟩⟩⟩

theorem standing_of_perform (hr : Reads i.command)
    (ha : ∀ path, i.command = .cd path → ¬ Astray env.fill s.session i.fresh path)
    (hs : Standing env.fill s.volume s.image s.currentPath) (h : perform env s i = .ok t) :
    Standing env.fill s.volume s.image t.currentPath := by
  by_cases hc : ∃ path, i.command = .cd path
  · obtain ⟨path, hc⟩ := hc
    obtain ⟨r, hcd, rfl⟩ := cd_of_perform hc h
    exact standing_of_cd (ha path hc) hs hcd
  · rwa [currentPath_of_perform hr (fun path hp => hc ⟨path, hp⟩) h]

end Steps

section Listing
variable {env : Env} {s : Shell}

theorem openListed_of_standing {fill : ℕ → UInt8} {q : Session} (hS : Standard q.volume q.image)
    (h : Standing fill q.volume q.image q.currentPath) (fresh : FatDirLayout) :
    ∃ block n, openListed fill q fresh none = .ok (some (block, n)) ∧
      entrySize * n ≤ block.length ∧ FolderBlock q.volume q.image block n := by
  rcases h with hroot | ⟨hroot, e, hlead, hdir, hc, hq⟩
  · refine ⟨_, _, ?_, hS.rootWhole, .inl ⟨rfl, rfl⟩⟩
    rw [openListed, addressConvertor, hroot, if_pos rfl]
  · obtain ⟨block, n, hparse, hb, hF⟩ := hS.folderBlock_of_leadsTo hlead hq hdir hc
    refine ⟨block, n, ?_, hb, hF⟩
    rw [openListed, addressConvertor]
    simp only [if_neg hroot, (find_eq_some_iff hlead.ne_nil).mpr hlead, ok_bind, hparse]

/-- Where nothing is opened, the listing is the message that there is no such folder. -/
theorem output_of_closed {q : Session} {i : Input} {dir : Option Text} {showDeleted : Bool}
    (hn : listingOf i.command = some (dir, showDeleted))
    (ho : openListed env.fill q i.fresh dir = .ok none) :
    output env q i = .ok [.folderNotFound (addressConvertor q.currentPath dir).text] := by
  simp only [output, hn, ls_eq, ho, ok_bind]
  rfl

theorem folderNotFound_notMem_listing (wcstombs : ℕ → Option Text) (v : Volume)
    (showDeleted : Bool) (p : Option Parts) (i : ℕ) (es : List FatDirLayout) (path : Text) :
    Line.folderNotFound path ∉ listing wcstombs v showDeleted p i es := by
  induction es generalizing p i with
  | nil => simp [listing]
  | cons e es ih =>
      rw [listing, List.mem_append, not_or]
      refine ⟨?_, ih _ _⟩
      unfold printed listLine
      split_ifs <;> simp

theorem lists_of_standing {p : Option Parts} (hfd : s.fd ≠ none) (hp : Represents s.lfn p)
    (hS : Standard s.volume s.image)
    (h : Standing env.fill s.volume s.image s.currentPath) : Lists env s := by
  intro fresh freshParent
  obtain ⟨block, n, hopen, hb, hF⟩ := openListed_of_standing (q := s.session) hS h fresh
  obtain ⟨l, hl, -⟩ := list_of_represents env.wcstombs s.volume false env.fill hb hp
  have hls : perform env s ⟨.ls none, fresh, freshParent⟩ =
      .ok (s.resume { s.session with lfn := l }) := by
    change testFd s (enter s fun r => UserCommands.ls env.fill env.wcstombs r fresh none false) = _
    rw [testFd, if_neg hfd, enter, ls_eq, hopen, ok_bind]
    simp only [show s.session.volume = s.volume from rfl, show s.session.lfn = s.lfn from rfl, hl,
      ok_bind]
  have hstep : step env s ⟨.ls none, fresh, freshParent⟩ =
      .ok (.running (s.resume { s.session with lfn := l })) := by
    rw [step, hls]
    rfl
  have hout := output_eq (i := ⟨.ls none, fresh, freshParent⟩) rfl hopen hb hp
  exact ⟨_, block, n, _, hstep, hopen, hF, hout, folderNotFound_notMem_listing _ _ _ _ _ _⟩

end Listing

section Runs
variable {env : Env} {s₀ s : Shell} {trace : List Done}

theorem kept_of_history (h : History env s₀ trace s) (hr : ∀ d ∈ trace, Reads d.input.command) :
    s.fd = s₀.fd ∧ s.volume = s₀.volume ∧ s.image = s₀.image := by
  induction h with
  | start => exact ⟨rfl, rfl, rfl⟩
  | @step trace s t i _ ht ih =>
      obtain ⟨hfd, hv, hi⟩ := ih fun d hd => hr d (List.mem_append_left _ hd)
      obtain ⟨hfd', hv', hi'⟩ := kept_of_reads (hr ⟨i, s, t⟩ (by simp)) (step_running ht)
      exact ⟨hfd'.trans hfd, hv'.trans hv, hi'.trans hi⟩

/-- Whatever the arguments of `cd` are, the current path starts and ends with a slash. -/
theorem slashed_of_history (h : History env s₀ trace s)
    (hr : ∀ d ∈ trace, Reads d.input.command) (hs : Slashed s₀.currentPath) :
    Slashed s.currentPath := by
  induction h with
  | start => exact hs
  | @step trace s t i _ ht ih =>
      exact slashed_of_perform (hr ⟨i, s, t⟩ (by simp))
        (ih fun d hd => hr d (List.mem_append_left _ hd)) (step_running ht)

theorem standing_of_history (h : History env s₀ trace s)
    (hr : ∀ d ∈ trace, Reads d.input.command)
    (ha : ∀ d ∈ trace, ∀ path, d.input.command = .cd path →
      ¬ Astray env.fill d.start.session d.input.fresh path)
    (hs : Standing env.fill s₀.volume s₀.image s₀.currentPath) :
    Standing env.fill s.volume s.image s.currentPath := by
  induction h with
  | start => exact hs
  | @step trace s t i _ ht ih =>
      have hreads := hr ⟨i, s, t⟩ (by simp)
      have hbefore := ih (fun d hd => hr d (List.mem_append_left _ hd))
        fun d hd => ha d (List.mem_append_left _ hd)
      obtain ⟨-, hv, hi⟩ := kept_of_reads hreads (step_running ht)
      rw [hv, hi]
      exact standing_of_perform hreads (ha ⟨i, s, t⟩ (by simp)) hbefore (step_running ht)

/-- What the shell is behind a mount and a run of commands that read. -/
theorem browsed_of_history {files : Text → Option Bytes} {before : List Done} {u : Shell}
    {i : Input} {wflag : Bool} {dev : Text} (hbefore : History env (.initial files) before u)
    (hi : i.command = if wflag then .wmount dev else .mount dev)
    (hm : step env u i = .ok (.running s₀)) (h : History env s₀ trace s)
    (hr : ∀ d ∈ trace, Reads d.input.command) :
    s₀.currentPath = [slash] ∧ s.fd ≠ none ∧ s.volume = s₀.volume ∧ s.image = s₀.image ∧
      Slashed s.currentPath ∧ ∃ p, Represents s.lfn p := by
  have hmount : mount env u dev wflag = .ok s₀ := by
    have hp := step_running hm
    rw [perform, hi] at hp
    cases wflag <;> exact hp
  obtain ⟨img, v, -, -, hs₀⟩ := mount_eq_ok hmount
  have hroot : s₀.currentPath = [slash] := by rw [hs₀]
  have hfd₀ : s₀.fd ≠ none := by
    rw [hs₀]
    exact Option.some_ne_none _
  obtain ⟨hfd, hv, himg⟩ := kept_of_history h hr
  refine ⟨hroot, hfd ▸ hfd₀, hv, himg, slashed_of_history h hr ?_,
    represents_of_history ((History.step hbefore hm).append h)⟩
  rw [hroot]
  exact ⟨rfl, rfl⟩

/-- In every run of commands that read, on a standard volume that has just been mounted,
the current path starts and ends with a slash, and `ls` lists a directory of the volume,
as long as no `cd` leads astray. -/
theorem browsing_lists {files : Text → Option Bytes} {before : List Done} {u : Shell} {i : Input}
    {wflag : Bool} {dev : Text} (hbefore : History env (.initial files) before u)
    (hi : i.command = if wflag then .wmount dev else .mount dev)
    (hm : step env u i = .ok (.running s₀)) (hS : Standard s₀.volume s₀.image)
    (h : History env s₀ trace s) (hr : ∀ d ∈ trace, Reads d.input.command)
    (ha : ∀ d ∈ trace, ∀ path, d.input.command = .cd path →
      ¬ Astray env.fill d.start.session d.input.fresh path) :
    Slashed s.currentPath ∧ Lists env s := by
  obtain ⟨hroot, hfd, hv, himg, hslashed, p, hp⟩ := browsed_of_history hbefore hi hm h hr
  exact ⟨hslashed, lists_of_standing hfd hp (by rw [hv, himg]; exact hS)
    (standing_of_history h hr ha (.inl hroot))⟩

end Runs

section Example
open LeavingVolumes NumberedRuns SlotSequences UndeleteSafety

theorem parseDir_of_zero {fill : ℕ → UInt8} {v : Volume} {img : Bytes} {e : FatDirLayout}
    (h : v.firstCluster e = 0) : parseDir fill v img e = .ok none := by
  rw [parseDir_def]
  split_ifs
  · rw [h, v.along_of_chain .stop]
    rfl
  · rfl

def subBlock : Bytes :=
  (dirNamed 0x2E 0x20 0x20 2).bytes ++ (dirNamed 0x2E 0x2E 0x20 0).bytes ++ List.replicate 448 0

theorem slotVolume_cluster : cluster slotVolume slotImage 2 = subBlock ∧
    InImage slotVolume slotImage 2 ∧ slotVolume.nextCluster 2 = .ok 0 := by
  rw [InImage]
  decide +kernel

theorem slotVolume_entries :
    (∀ i < 16, ∀ e ∈ (entryAt slotVolume.rootDir i).toOption.toList, isDirectory e.attr →
      e = dirNamed 0x53 0x55 0x42 2) ∧
    (∀ i < 16, ∀ e ∈ (entryAt subBlock i).toOption.toList, isDirectory e.attr → i < 2) ∧
    entryAt subBlock 0 = .ok (dirNamed 0x2E 0x20 0x20 2) ∧
    entryAt subBlock 1 = .ok (dirNamed 0x2E 0x2E 0x20 0) := by
  decide +kernel

theorem slotVolume_find : find (fun _ => 0) slotVolume slotImage (fileT 0 0 0)
      [slash, 0x53, 0x55, 0x42, slash] = .ok (some (dirNamed 0x53 0x55 0x42 2)) ∧
    find (fun _ => 0) slotVolume slotImage (fileT 0 0 0)
      [slash, 0x53, 0x55, 0x42, slash, dot, dot, slash] =
        .ok (some (dirNamed 0x2E 0x2E 0x20 0)) := by
  decide +kernel

theorem slotVolume_chain : slotVolume.Chain (slotVolume.firstCluster (dirNamed 0x53 0x55 0x42 2))
    [2] :=
  .step (by decide) slotVolume_cluster.2.2 .stop

theorem length_subBlock : subBlock.length = 512 := by
  simp only [subBlock, List.length_append, FatDirLayout.length_bytes, List.length_replicate]
  rfl

theorem entry_lt {block : Bytes} {i : ℕ} {e : FatDirLayout} (hb : block.length = 512)
    (he : entryAt block i = .ok e) : i < 16 := by
  have hle := (entryAt_eq_ok_iff.mp he).1
  rw [hb, entrySize] at hle
  omega

theorem mem_toList_of_ok {block : Bytes} {i : ℕ} {e : FatDirLayout}
    (he : entryAt block i = .ok e) : e ∈ (entryAt block i).toOption.toList := by
  rw [he]
  exact List.mem_singleton_self e

theorem slotVolume_contents : contents slotVolume slotImage [2] = subBlock := by
  rw [contents, List.flatMap_singleton, slotVolume_cluster.1]

theorem slotVolume_folder {d : FatDirLayout} {p : ℕ} (h : Folder slotVolume slotImage d p) :
    d = dirNamed 0x53 0x55 0x42 2 ∧ p = 0 := by
  obtain ⟨hroot, hsub, h₀, h₁⟩ := slotVolume_entries
  induction h with
  | top hi he ho hdir => exact ⟨hroot _ hi _ (mem_toList_of_ok he) hdir, rfl⟩
  | @within i p d e l _ hl he ho hdir ih =>
      obtain rfl := ih.1
      obtain rfl := hl.unique slotVolume_chain
      rw [slotVolume_contents] at he
      have hlt := hsub i (entry_lt length_subBlock he) e (mem_toList_of_ok he) hdir
      refine absurd ho.2 (not_not_intro ?_)
      obtain rfl | rfl : i = 0 ∨ i = 1 := by omega
      · rw [h₀, Except.ok.injEq] at he
        rw [← he]
        decide
      · rw [h₁, Except.ok.injEq] at he
        rw [← he]
        decide

theorem slotVolume_standard : Standard slotVolume slotImage := by
  obtain ⟨hroot, hsub, h₀, h₁⟩ := slotVolume_entries
  refine ⟨⟨by decide, by decide, by decide⟩, slotVolume_room, fun {i e} hi he _ hdir => ?_,
    fun {d p} h => ?_, fun {d p l} h hl => ?_⟩
  · rw [hroot i hi e (mem_toList_of_ok he) hdir]
    decide
  · obtain ⟨rfl, -⟩ := slotVolume_folder h
    refine ⟨[2], slotVolume_chain, by simp, fun c hc => ?_, by decide⟩
    rw [List.mem_singleton.mp hc]
    exact slotVolume_cluster.2.1
  · obtain ⟨rfl, rfl⟩ := slotVolume_folder h
    obtain rfl := hl.unique slotVolume_chain
    rw [slotVolume_contents]
    refine ⟨⟨_, h₀, ⟨by decide, by decide, by decide, by decide⟩⟩,
      ⟨_, h₁, ⟨by decide, by decide, by decide, by decide⟩⟩, fun {i e} hi he _ hdir => ?_⟩
    have := hsub i (entry_lt length_subBlock he) e (mem_toList_of_ok he) hdir
    omega

theorem slotShell_session : slotShell.session = ⟨slotVolume, slotImage, [slash], .initial⟩ := by
  have himage : slotShell.image = slotImage := by
    simp [Shell.image, slotShell, mountedShell, Shell.initial, slotFiles]
  rw [Shell.session, himage]
  rfl

/-- A `cd` on the volume that is mounted. -/
theorem slotShell_cd (path : Text) {npath : Text} {e : FatDirLayout}
    (hn : (addressConvertor [slash] (some path)).text = npath) (hroot : npath ≠ [slash])
    (hf : find (fun _ => 0) slotVolume slotImage (fileT 0 0 0) npath = .ok (some e))
    (hdir : isDirectory e.attr) : step subFileEnv slotShell (input (.cd path)) =
      .ok (.running (slotShell.resume { slotShell.session with currentPath := npath })) := by
  have hcd : perform subFileEnv slotShell (input (.cd path)) =
      .ok (slotShell.resume { slotShell.session with currentPath := npath }) := by
    change enter slotShell (fun r => UserCommands.cd (fun _ => 0) r (fileT 0 0 0) path) = _
    rw [enter, UserCommands.cd]
    simp only [slotShell_session, hn, if_neg hroot, hf, ok_bind, if_pos hdir]
  rw [step, hcd]
  rfl

theorem openListed_dotDot (lfn : LfnState) : openListed subFileEnv.fill
    ⟨slotVolume, slotImage, [slash, 0x53, 0x55, 0x42, slash, dot, dot, slash], lfn⟩ (fileT 0 0 0)
    none = .ok none := by
  rw [openListed]
  change (find (fun _ => 0) slotVolume slotImage (fileT 0 0 0)
    [slash, 0x53, 0x55, 0x42, slash, dot, dot, slash] >>= _) = _
  rw [slotVolume_find.2, ok_bind]
  exact parseDir_of_zero (show slotVolume.firstCluster (dirNamed 0x2E 0x2E 0x20 0) = 0 by decide)

/-- `cd SUB/..` leads to the entry `..` of a directory in the root directory, and `ls` then
does not find the folder. -/
theorem cd_dotDot_not_found : ∃ s,
    step subFileEnv (.initial slotFiles) (input (.mount [0x56])) = .ok (.running slotShell) ∧
      Standard slotShell.volume slotShell.image ∧
      History subFileEnv slotShell
        [⟨input (.cd [0x53, 0x55, 0x42, slash, dot, dot]), slotShell, s⟩] s ∧
      output subFileEnv s.session (input (.ls none)) =
        .ok [.folderNotFound [slash, 0x53, 0x55, 0x42, slash, dot, dot, slash]] ∧
      ¬ Lists subFileEnv s := by
  have hcd := slotShell_cd [0x53, 0x55, 0x42, slash, dot, dot] (by decide) (by decide)
    slotVolume_find.2 (by decide)
  have hfd : slotShell.fd = some ⟨[0x56], false⟩ := rfl
  have hsession := session_resume hfd
    { slotShell.session with
      currentPath := [slash, 0x53, 0x55, 0x42, slash, dot, dot, slash] }
  rw [slotShell_session] at hsession
  refine ⟨_, slotShell_mounted, ?_, .step .start hcd, ?_, fun hl => ?_⟩
  · rw [show slotShell.image = slotImage from congrArg Session.image slotShell_session]
    exact slotVolume_standard
  · rw [slotShell_session, hsession]
    exact output_of_closed rfl (openListed_dotDot _)
  · obtain ⟨t, block, n, lines, -, ho, -⟩ := hl (fileT 0 0 0) (fileT 0 0 0)
    rw [slotShell_session, hsession, openListed_dotDot] at ho
    cases ho

/-- `cd SUB` leads to a directory that `ls` lists. -/
theorem cd_sub_lists : ∃ s,
    History subFileEnv slotShell [⟨input (.cd [0x53, 0x55, 0x42]), slotShell, s⟩] s ∧
      Slashed s.currentPath ∧ Lists subFileEnv s := by
  have hcd := slotShell_cd [0x53, 0x55, 0x42] (by decide) (by decide)
    slotVolume_find.1 (by decide)
  have himage : slotShell.image = slotImage := congrArg Session.image slotShell_session
  have hmount : (input (.mount [0x56])).command =
      if false then .wmount [0x56] else .mount [0x56] := rfl
  refine ⟨_, .step .start hcd, browsing_lists .start hmount slotShell_mounted
    (by rw [himage]; exact slotVolume_standard) (.step .start hcd) (fun d hd => ?_)
    fun d hd path hpath => ?_⟩
  · rw [List.mem_singleton.mp hd]
    exact ⟨id, id, fun _ h => by cases h⟩
  · obtain rfl := List.mem_singleton.mp hd
    obtain rfl := Command.cd.inj hpath
    have hnames : components [slash, 0x53, 0x55, 0x42, slash] = [[0x53, 0x55, 0x42]] := by decide
    intro hstray
    rw [slotShell_session] at hstray
    simp only [Astray, show (addressConvertor [slash] (some [0x53, 0x55, 0x42])).text =
      [slash, 0x53, 0x55, 0x42, slash] by decide, hnames] at hstray
    obtain ⟨-, ⟨hn, -⟩ | ⟨e, he, -, hc⟩⟩ := hstray
    · cases hn
    · rw [← hnames] at he
      have hfind := (find_eq_some_iff (f := fileT 0 0 0) (by decide)).mpr he
      rw [show subFileEnv.fill = fun _ => 0 from rfl, slotVolume_find.1, Except.ok.injEq,
        Option.some.injEq] at hfind
      rcases hc with hc | ⟨t, ht, hq⟩
      · exact absurd hc (by rw [← hfind]; decide)
      · rw [List.mem_singleton.mp ht] at hq
        exact absurd hq (by decide)

end Example

end TFAT.CurrentPaths
