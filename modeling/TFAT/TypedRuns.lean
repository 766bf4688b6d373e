import TFAT.CommandLines
import TFAT.ConvertedPaths
import TFAT.CurrentPaths
import TFAT.MirroredTables
import TFAT.UndeleteSafety
import TFAT.UnmountedShell

/-!
# Sessions that are typed

`main` prints the prompt into a buffer, reads a line and hands it to the dispatcher, without
an end. A session is a sequence of such rounds. Its shells are those of the runs over the
commands that can be typed, as long as the prompt fits its buffer, and it does as long as little
has been typed. In every run the prompt says what is mounted.
-/
namespace TFAT.TypedRuns
open ByteRegions LittleEndianWords DiskLayout ClusterTable FileDescriptor VolumeMount PathText
open PathResolution LongNames UserCommands ShellCommands ShellRuns ListingRuns ScannedWords
open CommandLines ChainRelease

/-- What the user does in one round: a line, or none at the end of the input, the characters
behind it, and what the blocks of the searches hold. -/
structure Typing where
  line : Option Text
  stdin : Text
  fresh : FatDirLayout
  freshParent : FatDirLayout
  string : ∀ t, line = some t → 0 ∉ t

/-- The answers that `fat` takes from the characters; it reads two of them for each. -/
def answersOf : Text → List Bool
  | [] => []
  | [c] => [c == 0x59]
  | c :: _ :: t => (c == 0x59) :: answersOf t

def prompt (login : Text) (s : Shell) : Text :=
  login ++ ascii "@TFAT \x7b" ++ s.label ++ ascii "\x7d [" ++ s.currentPath ++ ascii "] $ "

variable (env : Env) (login : Text)

def mainRound (s : Shell) (i : Typing) : Except Fault Outcome := do
  let _ ← storeWord maxBuff (prompt login s)
  let d ← commandDispatcher (answersOf i.stdin) i.line
  ShellCommands.step env s ⟨d.command, i.fresh, i.freshParent⟩

/-- The sessions of `main` that have not ended. -/
inductive Typed (files : Text → Option Bytes) : List Typing → Shell → Prop
  | start : Typed files [] (.initial files)
  | round {typed : List Typing} {s t : Shell} {i : Typing} : Typed files typed s →
      mainRound env login s i = .ok (.running t) → Typed files (typed ++ [i]) t

def PromptFits (s : Shell) : Prop := (prompt login s).length < maxBuff

def typedLength (typed : List Typing) : ℕ := (typed.map fun i => (i.line.getD []).length).sum

variable {env login} {files : Text → Option Bytes} {s t : Shell}

section Rounds
variable {i : Typing} {o : Outcome}

/-- A round that returns has printed the prompt and run the command of the line. -/
theorem mainRound_eq_ok_iff : mainRound env login s i = .ok o ↔ PromptFits login s ∧
    ∃ d, commandDispatcher (answersOf i.stdin) i.line = .ok d ∧
      ShellCommands.step env s ⟨d.command, i.fresh, i.freshParent⟩ = .ok o := by
  rw [mainRound, storeWord, PromptFits]
  split_ifs with h
  · rw [ok_bind, bind_eq_ok]
    exact (and_iff_right h).symm
  · exact iff_of_false (by simp) fun hp => h hp.1

end Rounds

section Reached

/-- The characters that give the answers. -/
def stdinOf (answers : List Bool) : Text :=
  answers.flatMap fun a => [if a then 0x59 else 0x6E, 0x0A]

theorem answersOf_stdinOf (answers : List Bool) : answersOf (stdinOf answers) = answers := by
  induction answers with
  | nil => rfl
  | cons a answers ih =>
      change (_ == 0x59) :: answersOf (stdinOf answers) = _
      rw [ih]
      cases a <;> rfl

/-- A round in which the command is typed. -/
theorem exists_typing {i : Input} (h : Typeable i.command) (hp : PromptFits login s)
    (ht : ShellCommands.step env s i = .ok (.running t)) :
    ∃ typing, mainRound env login s typing = .ok (.running t) := by
  obtain ⟨d, hd, hc⟩ := commandDispatcher_spell h (words_lineOf h)
  refine ⟨⟨some (lineOf i.command), stdinOf (answersTo i.command), i.fresh, i.freshParent,
    fun u hu => Option.some.inj hu ▸ lineOf_string h⟩, mainRound_eq_ok_iff.mpr ⟨hp, d, ?_, ?_⟩⟩
  · rwa [answersOf_stdinOf]
  · rwa [hc]

theorem history_of_typed {typed : List Typing} (h : Typed env login files typed s) :
    ∃ trace, History env (.initial files) trace s ∧
      ∀ d ∈ trace, Typeable d.input.command ∧ PromptFits login d.start := by
  induction h with
  | start => exact ⟨[], .start, by simp⟩
  | @round typed s t i _ hr ih =>
      obtain ⟨trace, hh, htrace⟩ := ih
      obtain ⟨hp, d, hd, ht⟩ := mainRound_eq_ok_iff.mp hr
      refine ⟨_, .step hh ht, fun done hdone => ?_⟩
      rcases List.mem_append.mp hdone with hdone | hdone
      · exact htrace done hdone
      · rw [List.mem_singleton.mp hdone]
        cases hl : i.line with
        | none =>
            rw [hl] at hd
            cases hd
        | some line =>
            rw [hl] at hd
            exact ⟨typeable_of_dispatched (i.string line hl) hd, hp⟩

/-- The shells that sessions come to are those of the runs over commands that can be typed, in
front of prompts that fit. -/
theorem reached_iff : (∃ typed, Typed env login files typed s) ↔
    ∃ trace, History env (.initial files) trace s ∧
      ∀ d ∈ trace, Typeable d.input.command ∧ PromptFits login d.start := by
  constructor
  · rintro ⟨typed, h⟩
    exact history_of_typed h
  · rintro ⟨trace, h, htrace⟩
    induction h with
    | start => exact ⟨[], .start⟩
    | @step trace s t i _ ht ih =>
        obtain ⟨typed, hs⟩ := ih fun d hd => htrace d (List.mem_append_left _ hd)
        obtain ⟨hc, hp⟩ := htrace ⟨i, s, t⟩ (by simp)
        obtain ⟨typing, hr⟩ := exists_typing hc hp ht
        exact ⟨_, .round hs hr⟩

end Reached

section Prompts
variable {i : Input}

/-- What the prompt says: the label of the mounted volume and a path in it, or that nothing is
mounted. -/
structure Shows (s : Shell) : Prop where
  label : s.label = if s.fd = none then noLabel else getLabel s.volume
  unmounted : s.fd = none → s.currentPath = noPath ∨
    s.currentPath ≠ [] ∧ ∀ b ∈ s.currentPath, b = slash
  mounted : s.fd ≠ none → CurrentPaths.Slashed s.currentPath

theorem currentPath_of_stays (hl : ¬ i.command.Leaves) (hc : ∀ path, i.command ≠ .cd path)
    (h : perform env s i = .ok t) : t.currentPath = s.currentPath := by
  cases hn : listingOf i.command with
  | none => exact (globals_of_perform hl hn hc h).2
  | some d =>
      obtain ⟨r, hls, rfl⟩ := listing_of_perform hn h
      obtain ⟨lfn, hs⟩ := ls_result hls
      exact congrArg Session.currentPath hs

theorem find_unmounted {fill : ℕ → UInt8} {img : Bytes} {fresh e : FatDirLayout} {path : Text}
    (hs : Consistent s) (hfd : s.fd = none)
    (h : find fill s.volume img fresh path = .ok (some e)) : components path = [] := by
  by_contra hc
  by_cases hn : s.volume.boot.rootEntryCount.toNat = 0
  · rw [UnmountedShell.find_of_no_entries fresh hc hn] at h
    cases h
  · rw [UnmountedShell.find_of_freed fresh hc hn (hs.released hfd).2.2] at h
    cases h

theorem getLast?_addressConvertor (cur path : Text) :
    (addressConvertor cur (some path)).text.getLast? = some slash := by
  rcases argument_cases path with ⟨rest, rfl⟩ | ⟨rest, rfl, hd⟩ | ⟨rest, rfl⟩ | ⟨hd, hs⟩
  · rw [addressConvertor_dotDot]
    exact ConvertedPaths.getLast?_endSlash _
  · rw [addressConvertor_dot cur hd]
    exact ConvertedPaths.getLast?_endSlash _
  · rw [addressConvertor_absolute]
    exact ConvertedPaths.getLast?_endSlash _
  · rw [addressConvertor_relative cur hd hs]
    exact ConvertedPaths.getLast?_endSlash _

theorem Shows.cd {path : Text} (hS : Shows s) (hs : Consistent s) (hc : i.command = .cd path)
    (h : perform env s i = .ok t) : Shows t := by
  obtain ⟨r, hcd, rfl⟩ := cd_of_perform hc h
  rcases cd_cases hcd with hr | ⟨npath, rfl, hr, hgo⟩
  · rw [hr]
    exact ⟨hS.label, hS.unmounted, hS.mounted⟩
  · rw [hr]
    refine ⟨hS.label, fun hfd => .inr ?_, fun hfd =>
      CurrentPaths.slashed_addressConvertor (hS.mounted hfd) _⟩
    change (addressConvertor s.currentPath (some path)).text ≠ [] ∧
      ∀ b ∈ (addressConvertor s.currentPath (some path)).text, b = slash
    have hlast := getLast?_addressConvertor s.currentPath path
    refine ⟨fun hnil => absurd (hnil ▸ hlast) (by simp), ?_⟩
    rcases hgo with hroot | ⟨-, e, he, -⟩
    · change (addressConvertor s.currentPath (some path)).text = [slash] at hroot
      rw [hroot]
      simp
    · exact components_eq_nil_iff.mp (find_unmounted hs hfd he)

theorem Shows.step (hS : Shows s) (hs : Consistent s) (h : perform env s i = .ok t) :
    Shows t := by
  by_cases hc : ∃ path, i.command = .cd path
  · obtain ⟨path, hc⟩ := hc
    exact hS.cd hs hc h
  by_cases hl : i.command.Leaves
  · cases performed_of_perform h with
    | @mounted dev wflag _ v _ _ _ ht =>
        rw [ht]
        exact ⟨rfl, fun hn => absurd hn (by simp [mountedShell]), fun _ => ⟨rfl, rfl⟩⟩
    | left _ hu =>
        rcases umount_cases hu with ⟨-, rfl⟩ | ⟨fd, v, d, -, -, rfl⟩
        · exact hS
        · exact ⟨rfl, fun _ => .inl rfl, fun hn => absurd rfl hn⟩
    | looked hn | same hn => exact absurd hl hn
    | deleted hc | undeleted hc | dumped hc => rw [hc] at hl; exact hl.elim
  · obtain ⟨hfd, hlabel, hvolume⟩ := MirroredTables.kept_of_perform hl h
    have hpath := currentPath_of_stays hl (fun path hp => hc ⟨path, hp⟩) h
    refine ⟨?_, ?_, ?_⟩
    · rw [hlabel, hfd, hvolume]
      exact hS.label
    · rw [hpath, hfd]
      exact hS.unmounted
    · rw [hpath, hfd]
      exact hS.mounted

theorem shows_of_history {trace : List Done} (h : History env (.initial files) trace s) :
    Shows s := by
  induction h with
  | start => exact ⟨rfl, fun _ => .inl rfl, fun hn => absurd rfl hn⟩
  | step h ht ih => exact ih.step h.consistent (step_running ht)

/-- In every run the prompt names the mounted volume by its label and gives a path in it, or it
says that nothing is mounted. -/
theorem prompt_of_history {trace : List Done} (h : History env (.initial files) trace s) :
    (s.fd = none → ∃ path, (path = noPath ∨ path ≠ [] ∧ ∀ b ∈ path, b = slash) ∧
      prompt login s = login ++ ascii "@TFAT \x7b" ++ noLabel ++ ascii "\x7d [" ++ path ++
        ascii "] $ ") ∧
    (s.fd ≠ none → ∃ path, CurrentPaths.Slashed path ∧
      prompt login s = login ++ ascii "@TFAT \x7b" ++ getLabel s.volume ++ ascii "\x7d [" ++ path ++
        ascii "] $ ") := by
  have hS := shows_of_history h
  constructor
  · intro hfd
    have hlabel := hS.label
    rw [if_pos hfd] at hlabel
    exact ⟨s.currentPath, hS.unmounted hfd, by rw [prompt, hlabel]⟩
  · intro hfd
    have hlabel := hS.label
    rw [if_neg hfd] at hlabel
    exact ⟨s.currentPath, hS.mounted hfd, by rw [prompt, hlabel]⟩

end Prompts

section Lengths
variable {typed : List Typing}

theorem length_addressConvertor_le {cur : Text} (h : cur ≠ []) (path : Text) :
    (addressConvertor cur (some path)).text.length ≤ cur.length + path.length + 1 := by
  have hpos := List.length_pos_iff.mpr h
  rcases argument_cases path with ⟨rest, rfl⟩ | ⟨rest, rfl, hd⟩ | ⟨rest, rfl⟩ | ⟨hd, hs⟩
  · have hle := ConvertedPaths.length_endSlash_le (getParentPath cur ++ behindDots rest)
    have hrest := ConvertedPaths.length_behindDots_le rest
    have hparent := length_getParentPath_le h
    rw [List.length_append] at hle
    rw [addressConvertor_dotDot, List.length_cons, List.length_cons]
    omega
  · have hle := ConvertedPaths.length_endSlash_le (cur ++ behindDots rest)
    have hrest := ConvertedPaths.length_behindDots_le rest
    rw [List.length_append] at hle
    rw [addressConvertor_dot cur hd, List.length_cons]
    omega
  · have hle := ConvertedPaths.length_endSlash_le (slash :: rest)
    rw [addressConvertor_absolute]
    omega
  · have hle := ConvertedPaths.length_endSlash_le (cur ++ path)
    rw [List.length_append] at hle
    rw [addressConvertor_relative cur hd hs]
    omega

theorem length_argument_lt {answers : List Bool} {line w : Text} {d : Dispatched}
    (h : commandDispatcher answers (some line) = .ok d) (hw : argument d.command = some w) :
    w.length < line.length := by
  obtain ⟨verb, rest, hl⟩ := argument_of_dispatched h hw
  have hle := length_words_le (p := isSpace) line
  have hverb : IsWord isSpace verb := isWord_of_mem_words (l := line) (by rw [hl]; simp)
  have hpos := List.length_pos_iff.mpr hverb.ne_nil
  rw [hl, List.map_cons, List.map_cons, List.sum_cons, List.sum_cons] at hle
  omega

theorem currentPath_ne_nil (h : Shows s) : s.currentPath ≠ [] := by
  by_cases hfd : s.fd = none
  · rcases h.unmounted hfd with h | h
    · rw [h]
      decide
    · exact h.1
  · intro hn
    have hstart := (h.mounted hfd).1
    rw [hn] at hstart
    cases hstart

/-- A command makes the path longer by no more than its argument and a slash. -/
theorem length_currentPath_of_perform {i : Input} (hS : Shows s) (h : perform env s i = .ok t) :
    t.currentPath.length ≤
      s.currentPath.length + ((argument i.command).elim 0 fun w => w.length + 1) := by
  have hpos := List.length_pos_iff.mpr (currentPath_ne_nil hS)
  by_cases hc : ∃ path, i.command = .cd path
  · obtain ⟨path, hc⟩ := hc
    obtain ⟨r, hcd, rfl⟩ := cd_of_perform hc h
    rw [hc]
    change r.1.currentPath.length ≤ s.currentPath.length + (path.length + 1)
    rcases cd_cases hcd with hr | ⟨npath, rfl, hr, -⟩
    · rw [hr]
      exact Nat.le_add_right _ _
    · rw [hr]
      exact length_addressConvertor_le (currentPath_ne_nil hS) path
  by_cases hl : i.command.Leaves
  · have hone : t.currentPath.length ≤ s.currentPath.length := by
      cases performed_of_perform h with
      | mounted _ _ _ ht =>
          rw [ht]
          exact hpos
      | left _ hu =>
          rcases umount_cases hu with ⟨-, rfl⟩ | ⟨fd, v, d, -, -, rfl⟩
          · exact le_rfl
          · exact hpos
      | looked hn | same hn => exact absurd hl hn
      | deleted hc | undeleted hc | dumped hc => rw [hc] at hl; exact hl.elim
    omega
  · rw [currentPath_of_stays hl (fun path hp => hc ⟨path, hp⟩) h]
    exact Nat.le_add_right _ _

/-- The path of a session is hardly longer than what has been typed. -/
theorem length_currentPath_le (h : Typed env login files typed s) :
    s.currentPath.length ≤ 1 + typedLength typed := by
  induction h with
  | start => exact le_rfl
  | @round typed s t i h hr ih =>
      obtain ⟨trace, hh, -⟩ := history_of_typed h
      obtain ⟨-, d, hd, ht⟩ := mainRound_eq_ok_iff.mp hr
      have hle : t.currentPath.length ≤ s.currentPath.length +
          ((argument d.command).elim 0 fun w => w.length + 1) :=
        length_currentPath_of_perform (shows_of_history hh) (step_running ht)
      have hsum : typedLength (typed ++ [i]) = typedLength typed + (i.line.getD []).length := by
        simp [typedLength]
      have harg : ((argument d.command).elim 0 fun w => w.length + 1) ≤
          (i.line.getD []).length := by
        cases ha : argument d.command with
        | none => exact Nat.zero_le _
        | some w =>
            cases hl : i.line with
            | none =>
                rw [hl] at hd
                cases hd
            | some line =>
                rw [hl] at hd
                exact length_argument_lt hd ha
      omega

theorem length_rtrim_le (t : Text) : (EntryNames.rtrim t).length ≤ t.length :=
  (List.rdropWhile_prefix _ t).length_le

theorem length_cString_slice_le (b : Bytes) (a n : ℕ) :
    (EntryNames.cString (slice b a n)).length ≤ n := by
  refine (List.takeWhile_prefix _).length_le.trans ?_
  rw [slice, List.length_take]
  exact min_le_left _ _

theorem length_getLabel_le {fill : ℕ → UInt8} {img : Bytes} {v : Volume}
    (h : initFat fill img = .ok v) : (getLabel v).length ≤ 11 := by
  unfold initFat at h
  simp only at h
  split at h
  · rw [← Except.ok.inj h]
    exact (length_rtrim_le _).trans (length_cString_slice_le _ _ _)
  · obtain ⟨r, -, h⟩ := bind_eq_ok.mp h
    rw [← Except.ok.inj h]
    exact (length_rtrim_le _).trans (length_cString_slice_le _ _ _)

theorem length_label_of_perform {i : Input} (hs : s.label.length ≤ 11)
    (h : perform env s i = .ok t) : t.label.length ≤ 11 := by
  by_cases hl : i.command.Leaves
  · cases performed_of_perform h with
    | mounted _ _ hv ht =>
        rw [ht]
        exact length_getLabel_le hv
    | left _ hu =>
        rcases umount_cases hu with ⟨-, rfl⟩ | ⟨fd, v, d, -, -, rfl⟩
        · exact hs
        · exact (by decide : noLabel.length ≤ 11)
    | looked hn | same hn => exact absurd hl hn
    | deleted hc | undeleted hc | dumped hc => rw [hc] at hl; exact hl.elim
  · rwa [(MirroredTables.kept_of_perform hl h).2.1]

theorem length_label_le {trace : List Done} (h : History env (.initial files) trace s) :
    s.label.length ≤ 11 := by
  induction h with
  | start => exact (by decide : noLabel.length ≤ 11)
  | step _ ht ih => exact length_label_of_perform ih (step_running ht)

/-- As long as little has been typed the prompt fits its buffer. -/
theorem promptFits_of_typed (h : Typed env login files typed s)
    (hroom : login.length + typedLength typed + 26 < maxBuff) : PromptFits login s := by
  obtain ⟨trace, hh, -⟩ := history_of_typed h
  have hpath := length_currentPath_le h
  have hlabel := length_label_le hh
  have hfixed : (ascii "@TFAT \x7b").length = 7 ∧ (ascii "\x7d [").length = 3 ∧
      (ascii "] $ ").length = 4 := by decide
  rw [PromptFits, prompt]
  simp only [List.length_append, hfixed]
  omega

end Lengths

section Example
open LeavingVolumes

def wmountTyping : Typing where
  line := some (ascii "wmount V")
  stdin := []
  fresh := (input .info).fresh
  freshParent := (input .info).freshParent
  string t h := Option.some.inj h ▸ (by decide)

theorem subFileShell_typed :
    Typed subFileEnv (ascii "root") subFileFiles [wmountTyping] subFileShell := by
  have hd : commandDispatcher (answersOf wmountTyping.stdin) wmountTyping.line =
      .ok (.ran (.wmount [0x56])) := by rfl
  have hfits : PromptFits (ascii "root") (.initial subFileFiles) := by
    unfold PromptFits
    decide
  exact .round .start (mainRound_eq_ok_iff.mpr ⟨hfits, _, hd, subFileShell_mounted⟩)

/-- The prompt behind `wmount V`. -/
theorem promptFits_behind_wmount : PromptFits (ascii "root") subFileShell :=
  promptFits_of_typed subFileShell_typed (by decide)

/-- The volume in `V` has no label. -/
theorem prompt_behind_wmount : ∃ path, CurrentPaths.Slashed path ∧
    prompt (ascii "root") subFileShell = ascii "root@TFAT \x7b\x7d [" ++ path ++ ascii "] $ " := by
  have hm : History subFileEnv (.initial subFileFiles) _ subFileShell :=
    .step .start subFileShell_mounted
  have hl : getLabel subFileShell.volume = [] := by decide
  obtain ⟨path, hpath, hp⟩ : ∃ path, CurrentPaths.Slashed path ∧
      prompt (ascii "root") subFileShell = _ := (prompt_of_history hm).2 (by decide)
  rw [hl] at hp
  exact ⟨path, hpath, hp⟩

end Example

end TFAT.TypedRuns
