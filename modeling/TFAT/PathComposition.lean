import TFAT.CurrentPaths
import TFAT.PathSegments

/-!
# One `cd` instead of two

`cd p` and `cd q` in a row come to the same place as `cd p/q` as far as the text of the
second path is put behind the first unchanged. A leading dot of `q` is resolved by
cutting text, and the same dot inside `p/q` is a name that is looked up on the disk, so
the two come to paths with different numbers of segments. Where these differ, going up
long enough tells the two places apart.
-/
namespace TFAT.PathComposition
open ByteRegions LittleEndianWords LinkedChains DiskLayout ClusterTable FileDescriptor PathText
open EntryNames DirectoryIO PathResolution LongNames LongNameParts UserCommands ShellCommands
open ShellRuns ListedNames ListingRuns VolumeTree DirectoryTree CurrentPaths PathSegments

/-- The commands that take a path, given a relative one or none. -/
def Relative : Command → Prop
  | .cd path | .dump path | .hdump path | .delete path | .undelete path => path.head? ≠ some slash
  | .ls dir | .lsdel dir => ∀ path, dir = some path → path.head? ≠ some slash
  | _ => False

variable (env : Env)

def answer (s : Shell) (i : Input) : Except Fault (Session × List Line) :=
  match i.command with
  | .cd path => UserCommands.cd env.fill s.session i.fresh path
  | .ls dir => testFd s (UserCommands.ls env.fill env.wcstombs s.session i.fresh dir false)
  | .lsdel dir => testFd s (UserCommands.ls env.fill env.wcstombs s.session i.fresh dir true)
  | .dump dir => testFd s (UserCommands.dump env.fill s.session i.fresh dir)
  | .hdump dir => testFd s (UserCommands.hdump env.fill s.session i.fresh dir)
  | .delete dir => testWFd s (UserCommands.delete env.fill s.session i.fresh i.freshParent dir)
  | .undelete dir =>
      testWFd s (UserCommands.undelete env.fill s.session i.fresh i.freshParent dir)
  | _ => .ok (s.session, [])

/-- A line without the path as it has been spelled. -/
def erasePath : Line → Line
  | .folderNotFound _ => .folderNotFound []
  | .isNotDirectory _ => .isNotDirectory []
  | .fileNotFound _ => .fileNotFound []
  | .fileSize _ size => .fileSize [] size
  | line => line

/-- What a command shows, and what it makes of the volume. -/
structure Shown where
  lines : List Line
  volume : Volume
  image : Bytes

def shown (r : Session × List Line) : Shown := ⟨r.2.map erasePath, r.1.volume, r.1.image⟩

def talk : Shell → List Input → Except Fault (List Shown)
  | _, [] => .ok []
  | s, i :: later => do
      let r ← answer env s i
      let rest ← talk (s.resume r.1) later
      .ok (shown r :: rest)

/-- All later commands with relative paths behave the same. -/
def SameAfter (s t : Shell) : Prop :=
  ∀ later : List Input, (∀ i ∈ later, Relative i.command) → talk env s later = talk env t later

/-- `cd` with this argument succeeds. -/
def Enters (s : Shell) (fresh : FatDirLayout) (path : Text) (t : Shell) : Prop :=
  ∃ r, UserCommands.cd env.fill s.session fresh path = .ok (r, []) ∧ t = s.resume r

/-- `cd p/q` succeeds and comes to where `t` is. -/
def Joins (s : Shell) (p q : Text) (t : Shell) : Prop :=
  ∀ fresh, ∃ w, Enters env s fresh (p ++ slash :: q) w ∧ SameAfter env t w

section Answers
variable {env} {s t w : Shell} {i : Input}

/-- Two shells that go on in the same way give the same next answer, and go on in the same
way behind it. -/
theorem SameAfter.next {r : Session × List Line} (h : SameAfter env s t) (hi : Relative i.command)
    (hr : answer env s i = .ok r) : ∃ r', answer env t i = .ok r' ∧
      r'.2.map erasePath = r.2.map erasePath ∧
      SameAfter env (s.resume r.1) (t.resume r'.1) := by
  have hone := h [i] (by simpa using hi)
  simp only [talk, hr, ok_bind] at hone
  cases ht : answer env t i with
  | error e => rw [ht] at hone; cases hone
  | ok r' =>
      rw [ht] at hone
      simp only [ok_bind, Except.ok.injEq, List.cons.injEq, and_true] at hone
      refine ⟨r', rfl, (congrArg Shown.lines hone).symm, fun later hl => ?_⟩
      have hall := h (i :: later) (by simpa using ⟨hi, hl⟩)
      simp only [talk, hr, ht, ok_bind] at hall
      cases hs : talk env (s.resume r.1) later <;> cases hu : talk env (t.resume r'.1) later <;>
        rw [hs, hu] at hall
      · exact congrArg Except.error (Except.error.inj hall)
      · cases hall
      · cases hall
      · exact congrArg Except.ok (List.cons.inj (Except.ok.inj hall)).2

theorem SameAfter.refl (s : Shell) : SameAfter env s s := fun _ _ => rfl

end Answers

/-- `cd` comes to the path with these segments. -/
def Enterable (fill : ℕ → UInt8) (v : Volume) (img : Bytes) (fresh : FatDirLayout)
    (zs : List Text) : Prop :=
  zs = [] ∨ ∃ e, find fill v img fresh (render zs) = .ok (some e) ∧ isDirectory e.attr

section Entering
variable {fill : ℕ → UInt8} {v : Volume} {img : Bytes} {f g d e : FatDirLayout}
variable {q : Session} {r : Session × List Line} {path x : Text} {xs ys zs : List Text}

theorem cd_eq_nil_iff {q' : Session}
    (hz : (addressConvertor q.currentPath (some path)).text = render zs) :
    UserCommands.cd fill q f path = .ok (q', []) ↔
      q' = { q with currentPath := render zs } ∧ Enterable fill q.volume q.image f zs := by
  rw [Enterable, UserCommands.cd]
  simp only [hz, render_eq_root_iff]
  split_ifs with hroot
  · rw [Except.ok.injEq, Prod.mk.injEq]
    exact ⟨fun h => ⟨h.1.symm, .inl hroot⟩, fun h => ⟨h.1.symm, rfl⟩⟩
  · cases find fill q.volume q.image f (render zs) with
    | error e => simp [hroot]
    | ok file =>
        cases file with
        | none => simp [hroot]
        | some dir =>
            simp only [ok_bind]
            split_ifs with hdir
            · rw [Except.ok.injEq, Prod.mk.injEq]
              exact ⟨fun h => ⟨h.1.symm, .inr ⟨dir, rfl, hdir⟩⟩, fun h => ⟨h.1.symm, rfl⟩⟩
            · simp [hroot, hdir]

theorem filter_append_of_ne_nil (ys zs : List Text) (hx : x ≠ []) :
    (ys ++ x :: zs).filter (· ≠ []) = ys.filter (· ≠ []) ++ [x] ++ zs.filter (· ≠ []) := by
  simp [List.filter_append, hx]

/-- Where a path can be entered, the path without its last segment can. -/
theorem Enterable.dropLast (hg : isDirectory g.attr) (hz : Plain zs)
    (h : Enterable fill v img f zs) : Enterable fill v img g zs.dropLast := by
  rcases h with rfl | ⟨e, he, hdir⟩
  · exact .inl rfl
  · cases zs using List.reverseRecOn with
    | nil => exact .inl rfl
    | append_singleton ys x =>
        rw [List.dropLast_concat]
        have hy : components (render ys) = ys.filter (· ≠ []) :=
          components_render fun y hy => hz y (by simp [hy])
        by_cases hn : components (render ys) = []
        · exact .inr ⟨g, find_of_components_eq_nil g hn, hg⟩
        · have hcomp : components (render (ys ++ [x])) =
              components (render ys) ++ [x].filter (· ≠ []) := by
            rw [components_render hz, hy, List.filter_append]
          rw [find_eq_some_iff (by simp [hcomp, hn]), hcomp] at he
          obtain ⟨d, hd, hddir⟩ := Leads.of_append hn hdir he
          exact .inr ⟨d, (find_eq_some_iff hn).mpr hd, hddir⟩

/-- The block that `find` allocates does not matter where the path has a component. -/
theorem Enterable.congr (h : Enterable fill v img f zs) (hz : components (render zs) ≠ []) :
    Enterable fill v img g zs := by
  rcases h with h | ⟨e, he, hdir⟩
  · exact .inl h
  · exact .inr ⟨e, by rwa [find_congr g f hz], hdir⟩

end Entering

/-- The line is in no listing of the root directory. -/
def Betrays : Line → Prop
  | .folderNotFound _ => True
  | .directory _ _ name _ _ => name = [dot]
  | _ => False

section Listings
variable {env : Env} {v : Volume} {img : Bytes} {lfn : LfnState} {p : Option Parts}
variable {wcstombs : ℕ → Option Text} {f g e : FatDirLayout} {ys : List Text} {line : Line}

theorem betrays_erasePath : Betrays (erasePath line) ↔ Betrays line := by
  cases line <;> exact Iff.rfl

theorem mem_listing {showDeleted : Bool} {i : ℕ} {es : List FatDirLayout}
    (h : line ∈ listing wcstombs v showDeleted p i es) :
    ∃ e ∈ es, ∃ p, line ∈ printed wcstombs v showDeleted p e := by
  induction es generalizing p i with
  | nil => cases h
  | cons e es ih =>
      rcases List.mem_append.mp h with h | h
      · exact ⟨e, by simp, p, h⟩
      · obtain ⟨d, hd, hp⟩ := ih h
        exact ⟨d, by simp [hd], hp⟩

theorem mem_entriesFrom {block : Bytes} {i n : ℕ} :
    e ∈ entriesFrom block i n ↔ ∃ j, i ≤ j ∧ j < i + n ∧ entryAt block j = .ok e := by
  rw [entriesFrom, List.mem_filterMap]
  constructor
  · rintro ⟨j, hj, he⟩
    rw [List.mem_range'_1] at hj
    refine ⟨j, hj.1, hj.2, ?_⟩
    cases hentry : entryAt block j with
    | error e => rw [hentry] at he; cases he
    | ok d => rw [hentry] at he; rw [Option.some.inj he]
  · rintro ⟨j, hij, hj, he⟩
    exact ⟨j, List.mem_range'_1.mpr ⟨hij, hj⟩, by rw [he]; rfl⟩

theorem not_betrays_of_root (hS : Standard v img)
    (h : line ∈ listing wcstombs v false p 0
      (entriesFrom v.rootDir 0 v.boot.rootEntryCount.toNat)) : ¬ Betrays line := by
  obtain ⟨e, he, q, hline⟩ := mem_listing h
  obtain ⟨j, -, hj, hentry⟩ := mem_entriesFrom.mp he
  unfold printed at hline
  split_ifs at hline with hslot hshown
  · obtain ⟨name, -, rfl⟩ := List.mem_map.mp hline
    exact id
  · rw [List.mem_singleton.mp hline, listLine]
    split_ifs with hdir
    · intro hname
      simp only [isShown, Bool.and_eq_true, Option.isSome_iff_exists] at hshown
      obtain ⟨⟨hkept, -⟩, t, ht⟩ := hshown
      have hdel : isDeleted e = false := by simpa using hkept
      rw [ht] at hname
      have hhead : e.nameHead = dot := nameHead_of_baseName (ht.trans (congrArg some hname))
      exact hS.rootPlain (by omega) hentry ⟨by rw [hhead]; decide, hdel, by rw [hdir]; rfl⟩ hdir
        hhead
    · exact id
  · cases hline

theorem name_of_slice {t : Bytes} (h : slice e.bytes 0 11 = t) : e.name = t.take 8 := by
  rw [← h, FatDirLayout.name, ← slice_slice e.bytes 0 11 0 8 (by norm_num)]
  rfl

theorem baseName_of_dotName (h : slice e.bytes 0 11 = dotName) : baseName e = some [dot] := by
  rw [baseName, name_of_slice h]
  unfold getName
  cases e.caseInformation &&& 0x08 != 0 <;> rfl

theorem baseName_of_dotDotName (h : slice e.bytes 0 11 = dotDotName) :
    baseName e = some [dot, dot] := by
  rw [baseName, name_of_slice h]
  unfold getName
  cases e.caseInformation &&& 0x08 != 0 <;> rfl

/-- The first entry of every other directory has that name. -/
theorem exists_betrays_of_dotted {block : Bytes} {n c c' : ℕ} (h : Dotted v block c c')
    (hn : 0 < n) : ∃ line ∈ listing wcstombs v false p 0 (entriesFrom block 0 n), Betrays line := by
  obtain ⟨e, he, hown⟩ := h.own
  obtain ⟨m, rfl⟩ : ∃ m, n = m + 1 := ⟨n - 1, by omega⟩
  have hfirst : entriesFrom block 0 (m + 1) = e :: entriesFrom block 1 m := by
    rw [entriesFrom, List.range'_succ, List.filterMap_cons, he]
    rfl
  have hbase := baseName_of_dotName hown.name
  have hdel : isDeleted e = false := hown.live.2.1
  have hslot : isSlot e = false := by
    rw [isSlot, isLfn, Bool.and_eq_false_iff]
    refine .inr (beq_eq_false_iff_ne.mpr fun hattr => ?_)
    exact absurd hown.directory (by rw [hattr]; decide)
  have hshown : isShown false e := by
    simp [isShown, hdel, hbase, show isDirectory e.attr = true from hown.directory]
  have hline : printed wcstombs v false p e =
      [listLine v e [dot] (((claimed wcstombs p).map Prod.fst).getD [])] := by
    rw [printed, hslot, hshown, hbase]
    rfl
  refine ⟨listLine v e [dot] (((claimed wcstombs p).map Prod.fst).getD []), ?_, ?_⟩
  · rw [hfirst, listing, hline, List.singleton_append]
    exact List.mem_cons_self
  · rw [listLine, if_pos hown.directory]
    rfl

theorem convert_single_dot (ys : List Text) :
    (addressConvertor (render ys) (some [dot])).text = render ys := by
  rw [convert_dot (by simp)]
  simp [behindDots, segments]

theorem answer_root {t : Shell} (hfd : t.fd ≠ none) (ht : t.session = ⟨v, img, render [], lfn⟩)
    (hS : Standard v img) (hp : Represents lfn p) (g : FatDirLayout) :
    ∃ r, answer env t ⟨.ls (some [dot]), g, g⟩ = .ok r ∧ ∀ line ∈ r.2, ¬ Betrays line := by
  obtain ⟨l, hl, -⟩ := list_of_represents env.wcstombs v false env.fill hS.rootWhole hp
  have hopen : openListed env.fill ⟨v, img, render [], lfn⟩ g (some [dot]) =
      .ok (some (v.rootDir, v.boot.rootEntryCount.toNat)) := by
    rw [openListed, convert_single_dot, if_pos (by rfl)]
  have hls : answer env t ⟨.ls (some [dot]), g, g⟩ = .ok (⟨v, img, render [], l⟩,
      listing env.wcstombs v false p 0 (entriesFrom v.rootDir 0 v.boot.rootEntryCount.toNat)) := by
    rw [answer]
    simp only [testFd, if_neg hfd, ls_eq, ht, hopen, ok_bind, hl]
  exact ⟨_, hls, fun line hline => not_betrays_of_root hS hline⟩

theorem dotted_of_openListed {fill : ℕ → UInt8} {block : Bytes} {n : ℕ} (hS : Standard v img)
    (hne : ys ≠ []) (hy : Plain ys) (hq : ∀ y ∈ ys, y.head? ≠ some question)
    (hg : ¬ isDirectory g.attr)
    (h : openListed fill ⟨v, img, render ys, lfn⟩ g (some [dot]) = .ok (some (block, n))) :
    0 < n ∧ ∃ c c', Dotted v block c c' := by
  rw [openListed, convert_single_dot, if_neg (mt render_eq_root_iff.mp hne)] at h
  obtain ⟨file, hfile, h⟩ := bind_eq_ok.mp h
  cases file with
  | none => cases h
  | some e =>
      by_cases hn : components (render ys) = []
      · rw [find_of_components_eq_nil g hn, Except.ok.injEq, Option.some.injEq] at hfile
        exact absurd (hfile ▸ (opens_of_parseDir h).1) hg
      · have hlead := (find_eq_some_iff hn).mp hfile
        rw [components_render hy] at hlead
        exact hS.dotted_of_leadsTo hlead (fun y hmem => hq y (List.mem_filter.mp hmem).1) h

/-- Elsewhere something else is shown. -/
theorem exists_betrays_of_answer {w : Shell} {r : Session × List Line}
    (hw : w.session = ⟨v, img, render ys, lfn⟩) (hS : Standard v img) (hp : Represents lfn p)
    (hne : ys ≠ []) (hy : Plain ys) (hq : ∀ y ∈ ys, y.head? ≠ some question)
    (hg : ¬ isDirectory g.attr) (h : answer env w ⟨.ls (some [dot]), g, g⟩ = .ok r) :
    ∃ line ∈ r.2, Betrays line := by
  have hls := testFd_eq_ok (s := w) h
  rw [ls_eq, hw] at hls
  obtain ⟨opened, hopen, hls⟩ := bind_eq_ok.mp hls
  cases opened with
  | none =>
      rw [← Except.ok.inj hls]
      exact ⟨_, List.mem_singleton_self _, trivial⟩
  | some opened =>
      obtain ⟨block, n⟩ := opened
      obtain ⟨hn, c, c', hdots⟩ := dotted_of_openListed hS hne hy hq hg hopen
      obtain ⟨l, hlist, hls⟩ := bind_eq_ok.mp hls
      obtain ⟨l', hl', -⟩ := list_of_represents env.wcstombs v false env.fill (le_of_list hlist) hp
      rw [hl', Except.ok.injEq] at hlist
      rw [← Except.ok.inj hls, ← hlist]
      exact exists_betrays_of_dotted hdots hn

end Listings

/-- The shell in the directory with these segments. -/
def moved (s : Shell) (zs : List Text) : Shell :=
  s.resume { s.session with currentPath := render zs }

section Moving
variable {env : Env} {s t u : Shell} {f g : FatDirLayout} {p q : Text} {xs ys zs : List Text}

theorem session_moved (hfd : s.fd ≠ none) (zs : List Text) :
    (moved s zs).session = { s.session with currentPath := render zs } := by
  obtain ⟨fd, hfd⟩ := Option.ne_none_iff_exists'.mp hfd
  exact session_resume hfd _

theorem image_moved (hfd : s.fd ≠ none) (zs : List Text) : (moved s zs).image = s.image := by
  obtain ⟨fd, hfd⟩ := Option.ne_none_iff_exists'.mp hfd
  exact image_resume hfd _

theorem moved_moved (hfd : s.fd ≠ none) (ys zs : List Text) :
    moved (moved s ys) zs = moved s zs := by
  obtain ⟨fd, hfd'⟩ := Option.ne_none_iff_exists'.mp hfd
  rw [moved, session_moved hfd]
  simp [moved, Shell.resume, hfd']

theorem enters_iff {path : Text}
    (hz : (addressConvertor s.currentPath (some path)).text = render zs) :
    Enters env s f path t ↔ t = moved s zs ∧ Enterable env.fill s.volume s.image f zs := by
  have hcd (r : Session) : UserCommands.cd env.fill s.session f path = .ok (r, []) ↔
      r = { s.session with currentPath := render zs } ∧
        Enterable env.fill s.volume s.image f zs := cd_eq_nil_iff hz
  constructor
  · rintro ⟨r, hr, rfl⟩
    obtain ⟨rfl, he⟩ := (hcd r).mp hr
    exact ⟨rfl, he⟩
  · rintro ⟨rfl, he⟩
    exact ⟨_, (hcd _).mpr ⟨rfl, he⟩, rfl⟩

theorem components_convert_ne_nil (hd : q.head? ≠ some dot) (hs : q.head? ≠ some slash)
    (hq : q ≠ []) (cur : Text) : components (addressConvertor cur (some q)).text ≠ [] := by
  obtain ⟨b, q', rfl⟩ := List.exists_cons_of_ne_nil hq
  rw [addressConvertor_relative cur hd hs, Ne, components_eq_nil_iff]
  intro hall
  have hb : b = slash := hall b (by unfold endSlash; split_ifs <;> simp)
  exact hs (congrArg some hb)

end Moving

section Telling
variable {env : Env} {v : Volume} {img : Bytes} {lfn : LfnState} {p : Option Parts}
variable {f g : FatDirLayout} {xs ys : List Text} {t w : Shell}

theorem exists_isDirectory : ∃ f g : FatDirLayout, isDirectory f.attr ∧ ¬ isDirectory g.attr :=
  ⟨⟨List.replicate 32 0x10, rfl⟩, ⟨List.replicate 32 0, rfl⟩, by decide, by decide⟩

theorem convert_two_dots (hx : Plain xs) :
    (addressConvertor (render xs) (some [dot, dot])).text = render xs.dropLast := by
  rw [convert_dotDot hx]
  simp [behindDots, segments]

/-- Two places with different numbers of segments are told apart by going up to the root
directory from the one with fewer. -/
theorem not_sameAfter (hS : Standard v img) (hp : Represents lfn p)
    (hlt : xs.length < ys.length) (hx : Plain xs) (hy : Plain ys)
    (hq : ∀ y ∈ ys, y.head? ≠ some question) (he : Enterable env.fill v img f xs)
    (htfd : t.fd ≠ none) (hwfd : w.fd ≠ none) (ht : t.session = ⟨v, img, render xs, lfn⟩)
    (hw : w.session = ⟨v, img, render ys, lfn⟩) : ¬ SameAfter env t w := by
  intro hsame
  obtain ⟨d, g, hd, hg⟩ := exists_isDirectory
  have hne : ys ≠ [] := List.ne_nil_of_length_pos (by omega)
  induction xs using List.reverseRecOn generalizing ys t w f with
  | nil =>
      obtain ⟨r, hr, hroot⟩ := answer_root htfd ht hS hp g
      obtain ⟨r', hr', hlines, -⟩ := hsame.next (by simp [Relative, slash, dot]) hr
      obtain ⟨line, hline, hb⟩ := exists_betrays_of_answer hw hS hp hne hy hq hg hr'
      have hmem : erasePath line ∈ r.2.map erasePath := hlines ▸ List.mem_map_of_mem hline
      obtain ⟨line', hline', heq⟩ := List.mem_map.mp hmem
      exact hroot line' hline' (betrays_erasePath.mp (heq ▸ betrays_erasePath.mpr hb))
  | append_singleton xs x ih =>
      have hup (zs : List Text) (hz : Plain zs) (r : Session) :
          UserCommands.cd env.fill ⟨v, img, render zs, lfn⟩ d [dot, dot] = .ok (r, []) ↔
            r = ⟨v, img, render zs.dropLast, lfn⟩ ∧ Enterable env.fill v img d zs.dropLast :=
        cd_eq_nil_iff (convert_two_dots hz)
      have henter : Enterable env.fill v img d xs := by
        have := he.dropLast hd hx
        rwa [List.dropLast_concat] at this
      have hr : answer env t ⟨.cd [dot, dot], d, d⟩ = .ok (⟨v, img, render xs, lfn⟩, []) := by
        rw [answer, ht]
        exact (hup _ hx _).mpr (by rw [List.dropLast_concat]; exact ⟨rfl, henter⟩)
      obtain ⟨⟨q', lines⟩, hr', hlines, hrest⟩ := hsame.next (by simp [Relative, slash, dot]) hr
      obtain rfl : lines = [] := List.map_eq_nil_iff.mp hlines
      rw [answer, hw] at hr'
      obtain ⟨rfl, -⟩ := (hup _ hy _).mp hr'
      obtain ⟨tfd, htfd'⟩ := Option.ne_none_iff_exists'.mp htfd
      obtain ⟨wfd, hwfd'⟩ := Option.ne_none_iff_exists'.mp hwfd
      have hlen : xs.length < ys.dropLast.length := by
        rw [List.length_append, List.length_singleton] at hlt
        rw [List.length_dropLast]
        omega
      refine ih hlen (fun y hmem => hx y (by simp [hmem])) hy.dropLast
        (fun y hmem => hq y (List.dropLast_subset ys hmem)) henter ?_ ?_
        (session_resume htfd' _) (session_resume hwfd' _) hrest
        (List.ne_nil_of_length_pos (by omega))
      · exact htfd
      · exact hwfd

theorem not_sameAfter_moved {s : Shell} (hfd : s.fd ≠ none) (hS : Standard s.volume s.image)
    (hl : Represents s.lfn p) (hlt : xs.length < ys.length) (hx : Plain xs) (hy : Plain ys)
    (hq : ∀ y ∈ ys, y.head? ≠ some question) (he : Enterable env.fill s.volume s.image f xs) :
    ¬ SameAfter env (moved s xs) (moved s ys) :=
  not_sameAfter (t := moved s xs) (w := moved s ys) hS hl hlt hx hy hq he hfd hfd
    (session_moved hfd xs) (session_moved hfd ys)

end Telling

section Looking
variable {fill : ℕ → UInt8} {v : Volume} {img : Bytes} {f e : FatDirLayout}
variable {ys zs : List Text} {x : Text}

def Sizeless (fill : ℕ → UInt8) (v : Volume) (img : Bytes) : Prop :=
  ∀ {e : FatDirLayout}, Searched fill v img e → isDirectory e.attr → e.fileSize = 0

theorem baseName_of_matchesTerm (h : matchesTerm e x) (hs : e.fileSize = 0) :
    baseName e = some x := by
  simp only [matchesTerm, hs, bne_self_eq_false, Bool.false_and, Bool.false_or, Bool.and_eq_true,
    beq_iff_eq] at h
  exact h.2

/-- The last of the names that lead to a directory does not start with a dot, unless it is
`.` or `..`. -/
theorem head?_ne_dot_of_leadsTo {names : List Text} (hS : Standard v img)
    (hsize : Sizeless fill v img) (h : LeadsTo fill v img (names ++ [x]) e)
    (hdir : isDirectory e.attr) (hq : ∀ y ∈ names ++ [x], y.head? ≠ some question)
    (h₁ : x ≠ [dot]) (h₂ : x ≠ [dot, dot]) : x.head? ≠ some dot := by
  intro hhead
  obtain ⟨x', rfl⟩ := List.head?_eq_some_iff.mp hhead
  have hst : Searched fill v img e :=
    searched_of_findLoop (fun _ hi _ he => .root hi he) h.ne_nil (h.findLoop_eq e)
  have hfound (block : Bytes) (n : ℕ) (hs : search block (dot :: x') n = .ok (some e)) :
      ∃ j < n, entryAt block j = .ok e ∧ baseName e = some (dot :: x') ∧ Live e := by
    obtain ⟨j, hj, he, hm⟩ := of_search hs
    exact ⟨j, hj, he, baseName_of_matchesTerm hm (hsize hst hdir),
      live_of_matchesTerm hm (hq _ (by simp)) hdir⟩
  rcases h.last with ⟨-, hs⟩ | ⟨d, block, n, hd, hp, hs⟩
  · obtain ⟨j, hj, he, hbase, hlive⟩ := hfound _ _ hs
    exact hS.rootPlain hj he hlive hdir (nameHead_of_baseName hbase)
  · obtain ⟨j, -, he, hbase, hlive⟩ := hfound _ _ hs
    obtain ⟨-, c, c', ⟨e₀, he₀, hown⟩, ⟨e₁, he₁, hparent⟩, hrest⟩ :=
      hS.dotted_of_leadsTo hd (fun y hy => hq y (by simp [hy])) hp
    rcases j with _ | _ | j
    · rw [he, Except.ok.injEq] at he₀
      rw [he₀, baseName_of_dotName hown.name] at hbase
      exact h₁ (Option.some.inj hbase).symm
    · rw [he, Except.ok.injEq] at he₁
      rw [he₁, baseName_of_dotDotName hparent.name] at hbase
      exact h₂ (Option.some.inj hbase).symm
    · exact hrest (by omega) he hlive hdir (nameHead_of_baseName hbase)

theorem not_enterable (hS : Standard v img) (hsize : Sizeless fill v img)
    (hp : Plain (ys ++ x :: zs)) (hq : ∀ y ∈ ys ++ x :: zs, y.head? ≠ some question)
    (hx : x.head? = some dot) (h₁ : x ≠ [dot]) (h₂ : x ≠ [dot, dot]) :
    ¬ Enterable fill v img f (ys ++ x :: zs) := by
  have hne : x ≠ [] := fun h => by simp [h] at hx
  rintro (h | ⟨e, he, hdir⟩)
  · exact absurd h (by simp)
  · have hcomp := components_render hp
    rw [filter_append_of_ne_nil ys zs hne] at hcomp
    rw [find_eq_some_iff (by simp [hcomp]), hcomp] at he
    obtain ⟨d, hd, hddir⟩ := Leads.of_append (by simp) hdir he
    refine head?_ne_dot_of_leadsTo hS hsize hd hddir (fun y hy => hq y ?_) h₁ h₂ hx
    rcases List.mem_append.mp hy with hy | hy
    · exact List.mem_append_left _ (List.mem_filter.mp hy).1
    · rw [List.mem_singleton.mp hy]
      simp

end Looking

section Joining
variable {env : Env} {s t u : Shell} {f₁ f₂ : FatDirLayout} {p q : Text} {xs ys : List Text}

/-- Where two `cd` in a row come to, and the path that one `cd` is given instead. -/
theorem landing (hfd : s.fd ≠ none) (hs : Slashed s.currentPath) (hp₀ : p ≠ [])
    (hp : p.head? ≠ some slash) (hu : Enters env s f₁ p u) (ht : Enters env u f₂ q t) :
    ∃ ys, Plain ys ∧ (addressConvertor s.currentPath (some (p ++ slash :: q))).text =
        render (ys ++ (lastSlash p ++ segments q)) ∧
      ∀ zs, (addressConvertor (render ys) (some q)).text = render zs →
        t = moved s zs ∧ Enterable env.fill s.volume s.image f₂ zs := by
  obtain ⟨xs, hxs, hx⟩ := exists_render hs.1 hs.2
  obtain ⟨ys, hy, hys, happ⟩ := convert_append hx hp₀ hp
  rw [← hxs] at hys happ
  obtain ⟨rfl, -⟩ := (enters_iff hys).mp hu
  refine ⟨ys, hy, happ q, fun zs hzs => ?_⟩
  obtain ⟨rfl, he⟩ := (enters_iff (s := moved s ys) hzs).mp ht
  rw [image_moved hfd] at he
  exact ⟨moved_moved hfd ys zs, he⟩

theorem joins_of_plain (hfd : s.fd ≠ none) (hs : Slashed s.currentPath) (hp₀ : p ≠ [])
    (hq₀ : q ≠ []) (hp : p.head? ≠ some slash) (hq : q.head? ≠ some slash)
    (hu : Enters env s f₁ p u) (ht : Enters env u f₂ q t) (hlast : p.getLast? ≠ some slash)
    (hd : q.head? ≠ some dot) : Joins env s p q t := by
  obtain ⟨ys, -, happ, hland⟩ := landing hfd hs hp₀ hp hu ht
  have hzs : (addressConvertor (render ys) (some q)).text = render (ys ++ segments q) :=
    convert_relative hd hq
  obtain ⟨rfl, he⟩ := hland _ hzs
  have hn := components_convert_ne_nil hd hq hq₀ (render ys)
  rw [hzs] at hn
  rw [lastSlash, if_neg hlast, List.nil_append] at happ
  exact fun fresh => ⟨_, (enters_iff happ).mpr ⟨rfl, he.congr hn⟩, .refl _⟩

/-- Elsewhere one `cd` fails, or comes to a path with more segments. -/
theorem plain_of_joins {lfn : Option Parts} (hfd : s.fd ≠ none) (hs : Slashed s.currentPath)
    (hS : Standard s.volume s.image) (hl : Represents s.lfn lfn) (hp₀ : p ≠ [])
    (hp : p.head? ≠ some slash) (hq : q.head? ≠ some slash)
    (hu : Enters env s f₁ p u) (ht : Enters env u f₂ q t)
    (hsize : Sizeless env.fill s.volume s.image)
    (hlive : ∀ x ∈ components (addressConvertor s.currentPath (some (p ++ slash :: q))).text,
      x.head? ≠ some question) (h : Joins env s p q t) :
    p.getLast? ≠ some slash ∧ q.head? ≠ some dot := by
  obtain ⟨ys, hy, happ, hland⟩ := landing hfd hs hp₀ hp hu ht
  obtain ⟨w, hw, hsame⟩ := h f₁
  obtain ⟨rfl, hen⟩ := (enters_iff happ).mp hw
  have hr : Plain (ys ++ (lastSlash p ++ segments q)) := by
    refine hy.append (Plain.append ?_ (plain_segments q))
    unfold lastSlash
    split_ifs <;> simp [Plain]
  have hquestion : ∀ y ∈ ys ++ (lastSlash p ++ segments q), y.head? ≠ some question := by
    intro y hmem hhead
    have hne : y ≠ [] := fun hn => by simp [hn] at hhead
    refine hlive y ?_ hhead
    rw [happ, components_render hr, List.mem_filter]
    exact ⟨hmem, by simpa using hne⟩
  have hshort (zs : List Text) (hz : Plain zs)
      (hzs : (addressConvertor (render ys) (some q)).text = render zs)
      (hlt : zs.length < (ys ++ (lastSlash p ++ segments q)).length) : False := by
    obtain ⟨rfl, he⟩ := hland zs hzs
    exact not_sameAfter_moved hfd hS hl hlt hz hr hquestion he hsame
  have hd : q.head? ≠ some dot := by
    intro hd
    rcases convert_dots_cases hy hd with ⟨x, xs, hx, hhead, h₁, h₂⟩ | ⟨zs, hz, hzs, hlt⟩
    · rw [hx, ← List.append_assoc] at hen hr hquestion
      exact not_enterable hS hsize hr hquestion hhead h₁ h₂ hen
    · refine hshort zs hz hzs ?_
      rw [List.length_append, List.length_append]
      omega
  refine ⟨fun hlast => ?_, hd⟩
  refine hshort _ (hy.append (plain_segments q)) (convert_relative hd hq) ?_
  simp [lastSlash, hlast]

/-- In every directory that is reached on a standard volume by commands that read, `cd p/q`
comes to where `cd p` and `cd q` have come if `p` does not end with a slash and `q` does
not start with a dot. Where directories have no size and no name on the way is spelled as
deleted ones are, it does so in no other case. -/
theorem joins_iff {files : Text → Option Bytes} {before trace : List Done} {s₀ v : Shell}
    {i : Input} {wflag : Bool} {dev : Text} (hbefore : History env (.initial files) before v)
    (hi : i.command = if wflag then .wmount dev else .mount dev)
    (hm : step env v i = .ok (.running s₀)) (hS : Standard s₀.volume s₀.image)
    (h : History env s₀ trace s) (hr : ∀ d ∈ trace, Reads d.input.command) (hp₀ : p ≠ [])
    (hq₀ : q ≠ []) (hp : p.head? ≠ some slash) (hq : q.head? ≠ some slash)
    (hu : Enters env s f₁ p u) (ht : Enters env u f₂ q t) :
    (p.getLast? ≠ some slash ∧ q.head? ≠ some dot → Joins env s p q t) ∧
      (Sizeless env.fill s.volume s.image →
        (∀ x ∈ components (addressConvertor s.currentPath (some (p ++ slash :: q))).text,
          x.head? ≠ some question) →
        Joins env s p q t → p.getLast? ≠ some slash ∧ q.head? ≠ some dot) := by
  obtain ⟨-, hfd, hv, himg, hs, l, hl⟩ := browsed_of_history hbefore hi hm h hr
  rw [← hv, ← himg] at hS
  exact ⟨fun hplain => joins_of_plain hfd hs hp₀ hq₀ hp hq hu ht hplain.1 hplain.2,
    fun hsize hlive => plain_of_joins hfd hs hS hl hp₀ hp hq hu ht hsize hlive⟩

end Joining

section Example
open LeavingVolumes NumberedRuns SlotSequences UndeleteSafety

def subText : Text := [0x53, 0x55, 0x42]
def upText : Text := [dot, dot]

theorem slotShell_image : slotShell.image = slotImage := congrArg Session.image slotShell_session

theorem slotShell_standard : Standard slotShell.volume slotShell.image := by
  rw [slotShell_image]
  exact slotVolume_standard

theorem slotShell_fd : slotShell.fd ≠ none := Option.some_ne_none _

theorem slotShell_enterable {zs : List Text} {e : FatDirLayout}
    (h : find (fun _ => 0) slotVolume slotImage (fileT 0 0 0) (render zs) = .ok (some e))
    (hdir : isDirectory e.attr) :
    Enterable subFileEnv.fill slotShell.volume slotShell.image (fileT 0 0 0) zs := by
  rw [slotShell_image]
  exact .inr ⟨e, h, hdir⟩

theorem enters_sub :
    Enters subFileEnv slotShell (fileT 0 0 0) subText (moved slotShell [subText]) :=
  (enters_iff rfl).mpr ⟨rfl, slotShell_enterable slotVolume_find.1 (by decide)⟩

theorem enters_sub_up : Enters subFileEnv (moved slotShell [subText]) (fileT 0 0 0) upText
    (moved slotShell []) := by
  have hpath : (addressConvertor (moved slotShell [subText]).currentPath (some upText)).text =
      render [] := rfl
  exact (enters_iff hpath).mpr ⟨(moved_moved slotShell_fd _ _).symm, .inl rfl⟩

/-- `cd SUB` and `cd ..` come back to the root directory. `cd SUB/..` comes to the entry `..`
of `SUB`, and `ls` does not find the folder there. -/
theorem sub_dotDot_not_joined :
    step subFileEnv (.initial slotFiles) (input (.mount [0x56])) = .ok (.running slotShell) ∧
      Standard slotShell.volume slotShell.image ∧ ∃ u t w,
      Enters subFileEnv slotShell (fileT 0 0 0) subText u ∧
      Enters subFileEnv u (fileT 0 0 0) upText t ∧ t.currentPath = [slash] ∧
      Enters subFileEnv slotShell (fileT 0 0 0) (subText ++ slash :: upText) w ∧
      output subFileEnv w.session (input (.ls none)) =
        .ok [.folderNotFound [slash, 0x53, 0x55, 0x42, slash, dot, dot, slash]] ∧
      ¬ Joins subFileEnv slotShell subText upText t := by
  have hpath : (addressConvertor slotShell.currentPath (some (subText ++ slash :: upText))).text =
      render [subText, upText] := rfl
  have hw : Enters subFileEnv slotShell (fileT 0 0 0) (subText ++ slash :: upText)
      (moved slotShell [subText, upText]) :=
    (enters_iff hpath).mpr ⟨rfl, slotShell_enterable slotVolume_find.2 (by decide)⟩
  refine ⟨slotShell_mounted, slotShell_standard, _, _, _, enters_sub, enters_sub_up, rfl, hw, ?_,
    fun hj => ?_⟩
  · rw [session_moved slotShell_fd, slotShell_session]
    exact output_of_closed rfl (openListed_dotDot _)
  · obtain ⟨w, hw, hsame⟩ := hj (fileT 0 0 0)
    obtain ⟨rfl, -⟩ := (enters_iff hpath).mp hw
    exact not_sameAfter_moved (f := fileT 0 0 0) slotShell_fd slotShell_standard represents_initial
      (by decide) (by simp [Plain]) (by simp [Plain, subText, upText, slash, dot])
      (by simp [subText, upText, dot, question]) (.inl rfl) hsame

theorem slotVolume_sizeless (fill : ℕ → UInt8) : Sizeless fill slotVolume slotImage := by
  obtain ⟨hroot, hsub, h₀, h₁⟩ := slotVolume_entries
  have hall {e : FatDirLayout} (h : Searched fill slotVolume slotImage e)
      (hdir : isDirectory e.attr) :
      e = dirNamed 0x53 0x55 0x42 2 ∨ e = dirNamed 0x2E 0x20 0x20 2 ∨
        e = dirNamed 0x2E 0x2E 0x20 0 := by
    induction h with
    | root hi he => exact .inl (hroot _ hi _ (mem_toList_of_ok he) hdir)
    | @sub d e block n i _ hp hi he ih =>
        obtain ⟨hddir, hc⟩ := opens_of_parseDir hp
        have hcl : slotVolume.firstCluster d = 2 := by
          rcases ih hddir with rfl | rfl | rfl
          · decide
          · decide
          · exact absurd (by decide) hc
        have hchain : slotVolume.Chain (slotVolume.firstCluster d) [2] := by
          rw [hcl]
          exact .step (by decide) slotVolume_cluster.2.2 .stop
        have hparse := DirectoryIO.parseDir_eq fill hddir hchain (by simp) (by decide) (by decide)
          (by simpa using slotVolume_cluster.2.1) (by decide)
        rw [hparse, slotVolume_contents, Except.ok.injEq, Option.some.injEq, Prod.mk.injEq] at hp
        rw [← hp.1] at he
        have hlt := hsub i (entry_lt length_subBlock he) e (mem_toList_of_ok he) hdir
        obtain rfl | rfl : i = 0 ∨ i = 1 := by omega
        · rw [h₀, Except.ok.injEq] at he
          exact .inr (.inl he.symm)
        · rw [h₁, Except.ok.injEq] at he
          exact .inr (.inr he.symm)
  intro e h hdir
  rcases hall h hdir with rfl | rfl | rfl <;> decide

/-- `cd ./SUB` does what `cd .` and `cd SUB` do, and `cd SUB/..` does not do what `cd SUB` and
`cd ..` do. -/
theorem dot_sub_joined : Joins subFileEnv slotShell [dot] subText (moved slotShell [subText]) ∧
    ¬ Joins subFileEnv slotShell subText upText (moved slotShell []) := by
  have hmount : (input (.mount [0x56])).command =
      if false then .wmount [0x56] else .mount [0x56] := rfl
  have hstay : Enters subFileEnv slotShell (fileT 0 0 0) [dot] (moved slotShell []) := by
    have hpath : (addressConvertor slotShell.currentPath (some [dot])).text = render [] := rfl
    exact (enters_iff hpath).mpr ⟨rfl, .inl rfl⟩
  have hsub : Enters subFileEnv (moved slotShell []) (fileT 0 0 0) subText
      (moved slotShell [subText]) := by
    have hpath : (addressConvertor (moved slotShell []).currentPath (some subText)).text =
        render [subText] := rfl
    refine (enters_iff hpath).mpr ⟨(moved_moved slotShell_fd _ _).symm, ?_⟩
    rw [image_moved slotShell_fd]
    exact slotShell_enterable slotVolume_find.1 (by decide)
  constructor
  · exact (joins_iff .start hmount slotShell_mounted slotShell_standard .start (by simp) (by simp)
      (by decide) (by decide) (by decide) hstay hsub).1 ⟨by decide, by decide⟩
  · intro hj
    have hplain := (joins_iff .start hmount slotShell_mounted slotShell_standard .start (by simp)
      (by decide) (by decide) (by decide) (by decide) enters_sub enters_sub_up).2
      (by rw [slotShell_image]; exact slotVolume_sizeless _) (by decide) hj
    exact hplain.2 rfl

end Example

end TFAT.PathComposition
