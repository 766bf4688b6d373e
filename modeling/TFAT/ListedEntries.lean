import TFAT.ListingRuns
import TFAT.Remounts

/-!
# Which entries the listings show

The long names in a listing depend on what earlier listings have left in the parser. The lines
themselves do not: `lsdel` prints a line for each entry of the directory that has a name, `ls`
leaves out the deleted ones, and so it stays along a run until something is deleted, undeleted
or written over.
-/
namespace TFAT.ListedEntries
open ByteRegions LittleEndianWords LinkedChains DiskLayout ClusterTable FileDescriptor PathText
open EntryNames DirectoryIO PathResolution LongNames UserCommands ShellCommands ShellRuns
open ListedNames SlotSequences LeavingVolumes MirroredTables Remounts
open UndeleteSafety (fileT)

def bare : Line → Option Line
  | .file attr time size name cluster _ => some (.file attr time size name cluster [])
  | .directory attr time name cluster _ => some (.directory attr time name cluster [])
  | _ => none

/-- The line for an entry, deleted or not, without a long name. -/
def entryLine (v : Volume) (e : FatDirLayout) : Option Line :=
  if isDirectory e.attr || !isSpecial e.attr then
    (baseName e).map fun name => listLine v e name []
  else none

def shows (showDeleted : Bool) (e : FatDirLayout) : Bool := showDeleted || !isDeleted e

def entryLines (v : Volume) (showDeleted : Bool) (es : List FatDirLayout) : List Line :=
  (es.filter (shows showDeleted)).filterMap (entryLine v)

section Listing
variable {fill : ℕ → UInt8} {wcstombs : ℕ → Option Text} {v : Volume} {block : Bytes}
variable {showDeleted : Bool} {s t : Listed} {i n : ℕ} {e : FatDirLayout}

theorem bare_listLine (name full : Text) : bare (listLine v e name full) =
    some (listLine v e name []) := by
  unfold listLine
  split_ifs <;> rfl

theorem filterMap_bare_orphaned (l : List Text) : (l.map Line.orphaned).filterMap bare = [] := by
  simp [List.filterMap_map, Function.comp_def, bare]

theorem entryLines_append (es ds : List FatDirLayout) : entryLines v showDeleted (es ++ ds) =
    entryLines v showDeleted es ++ entryLines v showDeleted ds := by
  rw [entryLines, List.filter_append, List.filterMap_append]
  rfl

theorem bare_of_shortEntry (h : shortEntry wcstombs v s e = .ok t) :
    t.lines.filterMap bare = s.lines.filterMap bare ++ (entryLine v e).toList := by
  unfold shortEntry at h
  split_ifs at h with hattr
  · split at h
    · rename_i hn
      rw [← Except.ok.inj h, entryLine, if_pos hattr, hn, Option.map_none, Option.toList_none,
        List.append_nil]
    · rename_i name hn
      obtain ⟨⟨lfn, long⟩, -, h⟩ := bind_eq_ok.mp h
      rw [← Except.ok.inj h, entryLine, if_pos hattr, hn, List.filterMap_append,
        List.filterMap_cons, bare_listLine]
      rfl
  · rw [← Except.ok.inj h, entryLine, if_neg hattr, Option.toList_none, List.append_nil]

/-- A round of `list` prints the line of its entry, whatever the parser answers. -/
theorem bare_of_listEntry (h : listEntry fill wcstombs v block showDeleted s i = .ok t) :
    ∃ e, entryAt block i = .ok e ∧
      t.lines.filterMap bare = s.lines.filterMap bare ++ entryLines v showDeleted [e] := by
  rw [listEntry_bind] at h
  obtain ⟨e, he, h⟩ := bind_eq_ok.mp h
  refine ⟨e, he, ?_⟩
  have hshows : (isDeleted e && !showDeleted) = !shows showDeleted e := by
    unfold shows
    cases isDeleted e <;> cases showDeleted <;> rfl
  rw [hshows] at h
  cases hs : shows showDeleted e with
  | false =>
      rw [hs, Bool.not_false, if_pos rfl, Except.ok.injEq] at h
      rw [← h, entryLines, List.filter_cons_of_neg (by simp [hs]), List.filter_nil,
        List.filterMap_nil, List.append_nil]
  | true =>
      have hline : entryLines v showDeleted [e] = (entryLine v e).toList := by
        rw [entryLines, List.filter_cons_of_pos hs, List.filter_nil]
        cases hl : entryLine v e <;> simp [hl]
      rw [hs, Bool.not_true, if_neg Bool.false_ne_true] at h
      rw [hline]
      split_ifs at h
      · obtain ⟨r, -, h⟩ := bind_eq_ok.mp h
        rw [bare_of_shortEntry h, List.filterMap_append, filterMap_bare_orphaned, List.append_nil]
      · rw [bare_of_shortEntry h, List.append_nil]

/-- A listing prints the lines of the entries that it does not pass over, in their order. -/
theorem bare_of_list {lfn : LfnState} {r : Listed}
    (h : list fill wcstombs v lfn block n showDeleted = .ok r) :
    r.lines.filterMap bare = entryLines v showDeleted (entriesFrom block 0 n) := by
  refine foldlM_range_partial (I := fun k (s : Listed) =>
    s.lines.filterMap bare = entryLines v showDeleted (entriesFrom block 0 k)) h rfl ?_
  intro k s t _ hs ht
  obtain ⟨e, he, hlines⟩ := bare_of_listEntry ht
  have hone : entriesFrom block (0 + k) 1 = [e] := by
    rw [Nat.zero_add, entriesFrom_succ he]
    rfl
  rw [hlines, hs, entriesFrom_append, hone, entryLines_append]

end Listing

def openedEntries (fill : ℕ → UInt8) (s : Session) (fresh : FatDirLayout) (dir : Option Text) :
    List FatDirLayout :=
  match openListed fill s fresh dir with
  | .ok (some (block, n)) => entriesFrom block 0 n
  | _ => []

section Sessions
variable {fill : ℕ → UInt8} {wcstombs : ℕ → Option Text} {s s' : Session}
variable {fresh fresh' : FatDirLayout} {dir dir' : Option Text}

theorem bare_of_ls {showDeleted : Bool} {r : Session × List Line}
    (h : ls fill wcstombs s fresh dir showDeleted = .ok r) :
    r.2.filterMap bare = entryLines s.volume showDeleted (openedEntries fill s fresh dir) := by
  rw [ls_eq] at h
  obtain ⟨opened, ho, h⟩ := bind_eq_ok.mp h
  rw [openedEntries, ho]
  cases opened with
  | none =>
      rw [← Except.ok.inj h]
      rfl
  | some opened =>
      obtain ⟨l, hl, h⟩ := bind_eq_ok.mp h
      rw [← Except.ok.inj h]
      exact bare_of_list hl

/-- The path names the root directory as `ls` asks for it, or has a component. -/
def Listable (path : Text) : Prop := path = [slash] ∨ components path ≠ []

/-- What is opened depends on the components of the path that is asked for, the volume and
the image. -/
theorem openedEntries_congr (hv : s'.volume = s.volume) (hi : s'.image = s.image)
    (hdir : components (addressConvertor s'.currentPath dir').text =
      components (addressConvertor s.currentPath dir).text)
    (hl : Listable (addressConvertor s.currentPath dir).text)
    (hl' : Listable (addressConvertor s'.currentPath dir').text) :
    openedEntries fill s' fresh' dir' = openedEntries fill s fresh dir := by
  have hroot : components [slash] = [] := rfl
  have hopen : openListed fill s' fresh' dir' = openListed fill s fresh dir := by
    unfold openListed
    simp only [hv, hi]
    by_cases hr : (addressConvertor s.currentPath dir).text = [slash]
    · have hr' : (addressConvertor s'.currentPath dir').text = [slash] :=
        hl'.resolve_right fun hne => hne (by rw [hdir, hr, hroot])
      rw [if_pos hr, if_pos hr']
    · have hne := hl.resolve_left hr
      have hr' : (addressConvertor s'.currentPath dir').text ≠ [slash] := by
        intro hr'
        exact hne (by rw [← hdir, hr', hroot])
      have hfind : find fill s.volume s.image fresh' (addressConvertor s'.currentPath dir').text =
          find fill s.volume s.image fresh (addressConvertor s.currentPath dir).text := by
        rw [find, hdir]
        exact find_congr fresh' fresh hne
      rw [if_neg hr, if_neg hr', hfind]
  rw [openedEntries, hopen, openedEntries]

end Sessions

section Example

def subPath : Text := [0x53, 0x55, 0x42]
def subPath' : Text := [slash, slash, 0x53, 0x55, 0x42]

theorem sub_listed : (∃ r, ls subFileEnv.fill subFileEnv.wcstombs subFileShell.session
      (fileT 0 0 0) (some subPath) false = .ok r) ∧
    ∃ r, ls subFileEnv.fill subFileEnv.wcstombs subFileShell.session
      (fileT 0 0 0) (some subPath') true = .ok r := by
  have hok : (ls subFileEnv.fill subFileEnv.wcstombs subFileShell.session (fileT 0 0 0)
        (some subPath) false).isOk ∧
      (ls subFileEnv.fill subFileEnv.wcstombs subFileShell.session (fileT 0 0 0)
        (some subPath') true).isOk := by decide +kernel
  exact ⟨exists_of_isOk hok.1, exists_of_isOk hok.2⟩

end Example

end TFAT.ListedEntries
