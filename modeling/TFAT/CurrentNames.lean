import TFAT.MarkedPlaces
import TFAT.PathSegments
import TFAT.UndeleteSafety

/-!
# Plain names in the current directory

A plain name is looked up in the array that the current path leads to, which is also the
array that `delete` and `undelete` mark. The name of a deleted file has a question mark
for its first character.
-/
namespace TFAT.CurrentNames
open ByteRegions LittleEndianWords LinkedChains DiskLayout ClusterTable ClusterPlacement
open FileDescriptor DirectoryIO PathText EntryNames PathResolution UserCommands VolumeTree
open DirectoryTree ChainRelease EntryMarking MarkedTree MarkedPlaces ShownNames PathSegments
open DeleteSafety UndeleteSafety

/-- A single component that is not taken for a way up or for the current directory. -/
structure PlainName (p : Text) : Prop where
  ne_nil : p ≠ []
  undotted : p.head? ≠ some dot
  single : slash ∉ p

/-- The current path ends with a slash, and it is the single slash in the root directory. -/
def Ended (cur : Text) : Prop := (∃ q, cur = q ++ [slash]) ∧ (components cur = [] → cur = [slash])

/-- The current path leads to the array that lies in these clusters. -/
def Stands (fill : ℕ → UInt8) (s : Session) (block : Bytes) (n : ℕ) (l : List ℕ) : Prop :=
  Ended s.currentPath ∧
    OpensIn fill s.volume s.image (components s.currentPath) block n l

def Opens (fill : ℕ → UInt8) (v : Volume) (img : Bytes) (block : Bytes) (n : ℕ) :
    Option FatDirLayout → Prop
  | none => block = v.rootDir ∧ n = v.boot.rootEntryCount.toNat
  | some d => parseDir fill v img d = .ok (some (block, n))

section Paths
variable {p cur : Text}

theorem PlainName.getLast?_ne (hp : PlainName p) (t : Text) : (t ++ p).getLast? ≠ some slash := by
  rw [List.getLast?_append_of_ne_nil _ hp.ne_nil]
  exact fun h => hp.single (List.mem_of_mem_getLast? h)

theorem PlainName.path (hp : PlainName p) (cur : Text) :
    (addressConvertor cur (some p)).text = cur ++ p ++ [slash] := by
  have hhead : p.head? ≠ some slash := fun h => hp.single (List.mem_of_mem_head? h)
  rw [addressConvertor_relative _ hp.undotted hhead, endSlash, if_neg (hp.getLast?_ne cur)]

theorem PlainName.components_path (hp : PlainName p) (h : Ended cur) :
    components (addressConvertor cur (some p)).text = components cur ++ [p] := by
  obtain ⟨⟨q, rfl⟩, -⟩ := h
  exact components_relative hp.undotted hp.ne_nil fun b hb hs => hp.single (hs ▸ hb)

theorem PlainName.getParentPath_path (hp : PlainName p) (h : Ended cur) :
    getParentPath (addressConvertor cur (some p)).text = cur := by
  obtain ⟨⟨q, rfl⟩, -⟩ := h
  rw [hp.path, getParentPath]
  simp only [stripSlash, List.getLast?_concat, if_true, List.dropLast_concat]
  rw [List.append_assoc, List.singleton_append, scanBack_append hp.single, List.take_left]

theorem Ended.root_iff (h : Ended cur) : cur = [slash] ↔ components cur = [] := by
  refine ⟨fun hc => ?_, h.2⟩
  rw [hc]
  decide

/-- What `undelete` makes of a plain name. -/
theorem PlainName.fixDeletedChar_eq {a : UInt8} {u : Text} (hp : PlainName (a :: u)) :
    fixDeletedChar (a :: u) = (question :: u, a) := by
  have hlast : (a :: u).getLast? ≠ some slash := hp.getLast?_ne []
  exact fixDeletedChar_of_notMem (if_neg hlast) hp.single

theorem PlainName.deleted {a : UInt8} {u : Text} (hp : PlainName (a :: u)) :
    PlainName (question :: u) := by
  refine ⟨List.cons_ne_nil _ _, by rw [List.head?_cons]; decide, fun h => ?_⟩
  rcases List.mem_cons.mp h with h | h
  · exact absurd h (by decide)
  · exact hp.single (List.mem_cons_of_mem _ h)

end Paths

section Lookup
variable {fill : ℕ → UInt8} {s : Session} {fresh freshParent f g : FatDirLayout} {p : Text}
variable {block : Bytes} {n i : ℕ} {l : List ℕ} {parent : Option FatDirLayout}

/-- What the commands open and find under a plain name in the current directory. -/
theorem Stands.opened (h : Stands fill s block n l) (hp : PlainName p)
    (fresh freshParent : FatDirLayout) :
    find fill s.volume s.image fresh (addressConvertor s.currentPath (some p)).text =
        search block p n ∧
      ∃ parent, ArrayOf fill s.volume s.image block n l parent ∧
        openParent fill s freshParent
          (getParentPath (addressConvertor s.currentPath (some p)).text) =
            .ok (parent, block, n) := by
  obtain ⟨hcur, parent, hu, ha⟩ := h
  have hc := hp.components_path hcur
  refine ⟨find_of_opensAt fresh (opensAt_of_arrayOf hu ha) hc, parent, ha, ?_⟩
  rw [hp.getParentPath_path hcur]
  exact openParent_of_leadsUp hu ha rfl hcur.root_iff

theorem opens_of_find (hcur : Ended s.currentPath) (hp : PlainName p)
    (hf : find fill s.volume s.image fresh (addressConvertor s.currentPath (some p)).text =
      .ok (some g))
    (ho : openParent fill s freshParent
      (getParentPath (addressConvertor s.currentPath (some p)).text) = .ok (parent, block, n)) :
    LeadsUp fill s.volume s.image (components s.currentPath) parent ∧
      Opens fill s.volume s.image block n parent ∧ search block p n = .ok (some g) := by
  have hc := hp.components_path hcur
  rw [hp.getParentPath_path hcur] at ho
  rcases of_openParent ho with ⟨hroot, rfl, rfl, rfl⟩ | ⟨hroot, d, hd, rfl, hopen⟩
  · have hnames := hcur.root_iff.mp hroot
    rw [hnames, List.nil_append] at hc
    exact ⟨hnames, ⟨rfl, rfl⟩, find_of_components_eq_singleton fresh hc ▸ hf⟩
  · have hnames : components s.currentPath ≠ [] := mt hcur.root_iff.mpr hroot
    rw [find_eq_some_iff hnames] at hd
    rw [find_eq_some_iff (by rw [hc]; simp), hc] at hf
    rcases hf.last with ⟨hnil, -⟩ | ⟨d', block', n', hd', hp', hs⟩
    · exact absurd hnil hnames
    · have hsame := (hd.findLoop_eq fresh).symm.trans (hd'.findLoop_eq fresh)
      rw [Except.ok.injEq, Option.some.injEq] at hsame
      subst hsame
      rcases hopen with hopen | ⟨hopen, -⟩
      · rw [hp', Except.ok.injEq, Option.some.injEq, Prod.mk.injEq] at hopen
        obtain ⟨rfl, rfl⟩ := hopen
        exact ⟨hd, hp', hs⟩
      · rw [parseDir_eq_some_iff.mp hp'] at hopen
        cases hopen

end Lookup

section Names
variable {f : FatDirLayout} {b : UInt8} {t : Text}

theorem rtrim_cons (b : UInt8) (t : Text) :
    rtrim (b :: t) = if rtrim t = [] ∧ b = 0x20 then [] else b :: rtrim t := by
  have hcons : rtrim (b :: t) = ((t.reverse ++ [b]).dropWhile (· == 0x20)).reverse := by
    rw [rtrim, List.rdropWhile, List.reverse_cons]
  have ht : rtrim t = (t.reverse.dropWhile (· == 0x20)).reverse := rfl
  rw [hcons, ht, List.dropWhile_append]
  by_cases hblank : t.reverse.dropWhile (· == 0x20) = []
  · by_cases hb : b = 0x20 <;> simp [hblank, hb]
  · simp [hblank]

theorem name_eq (e : FatDirLayout) : e.name = e.nameHead :: slice e.bytes 1 7 := by
  obtain ⟨bs, hbs⟩ := name_eq_cons e
  have hdrop : e.name.drop 1 = slice e.bytes 1 7 := by
    rw [FatDirLayout.name, slice, slice, List.drop_take, List.drop_drop]
  rw [hbs] at hdrop ⊢
  rw [← hdrop]
  rfl

/-- The base name of a deleted entry has a question mark for the first character. -/
theorem baseName_deleted {a : UInt8} {u : Text} (h : baseName f = some (a :: u)) :
    baseName (f.setNameHead 0xE5) = some (question :: u) := by
  have hrest : slice (f.setNameHead 0xE5).bytes 1 7 = slice f.bytes 1 7 :=
    slice_setNameHead f _ (by norm_num) (by norm_num [entrySize])
  rw [baseName, name_eq, getName] at h
  rw [baseName, name_eq, caseInformation_setNameHead, hrest, nameHead_setNameHead, getName,
    if_neg (by decide)]
  simp only [Option.ite_none_left_eq_some, Option.some.injEq] at h ⊢
  generalize (slice f.bytes 1 7).map _ = rest at h ⊢
  generalize headChar f.nameHead _ = c at h
  obtain ⟨-, h⟩ := h
  have hquestion : headChar 0xE5 (f.caseInformation &&& 8 != 0) = question := rfl
  have hhead : cString (question :: rest) = question :: cString rest := rfl
  rw [hquestion, hhead, rtrim_cons, if_neg fun h => absurd h.2 (by decide)]
  by_cases hc : c = 0
  · rw [hc] at h
    cases h
  · rw [cString, List.takeWhile_cons_of_pos (by simpa using hc), rtrim_cons] at h
    split_ifs at h
    rw [List.cons.injEq] at h ⊢
    exact ⟨rfl, h.2⟩

/-- A deleted file answers to its name with a question mark for the first character. -/
theorem matchesTerm_deleted {a : UInt8} {u : Text} (h : matchesTerm f (a :: u))
    (hdir : isDirectory f.attr = false) (ha : a ≠ dot) :
    matchesTerm (f.setNameHead 0xE5) (question :: u) := by
  simp only [matchesTerm, hdir, Bool.false_and, Bool.or_false, Bool.and_eq_true, beq_iff_eq,
    fullName, Option.map_eq_some_iff, attr_setNameHead, fileSize_setNameHead,
    caseInformation_setNameHead, extention_setNameHead] at h ⊢
  obtain ⟨hnonempty, t, ht, hname⟩ := h
  cases t with
  | nil =>
      rw [List.nil_append, List.singleton_append, List.cons.injEq] at hname
      exact absurd hname.1.symm ha
  | cons c t =>
      rw [List.cons_append, List.cons_append, List.cons.injEq] at hname
      refine ⟨hnonempty, question :: t, baseName_deleted ht, ?_⟩
      rw [List.cons_append, List.cons_append, hname.2]

end Names

end TFAT.CurrentNames
