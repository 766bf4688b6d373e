import TFAT.DirectoryTree
import TFAT.PathLookup

/-!
# The names that a listing shows

`list` and `search` go through the same array with tests of their own. `list` leaves
deleted entries out and shows empty files, and a directory it shows under its base name
only. `search` takes deleted entries in, leaves empty files out, and finds an entry with
a size also under its full name when it is a directory. Under a name that is shown,
`search` finds an entry that is shown under it unless these differences come first.
-/
namespace TFAT.ShownNames
open ByteRegions LittleEndianWords DiskLayout ClusterTable DirectoryIO PathText EntryNames
open PathResolution LongNames UserCommands DeleteSafety DirectoryTree PathLookup LongNameParts
open ListedNames (entriesFrom isShown isSlot printed listing list_of_represents attr_of_isSlot
  isShown_eq_false_of_attr)

def shortName : Line → Option Text
  | .file _ _ _ name _ _ => some name
  | .directory _ _ name _ _ => some name
  | _ => none

/-- The short name under which `list` prints an entry, with `show_deleted = 0`. -/
def shownName (e : FatDirLayout) : Option Text :=
  if isShown false e then if isDirectory e.attr then baseName e else fullName e else none

/-- `search` takes the entry for the name, although `list` does not print it under it. -/
def Misleads (e : FatDirLayout) (name : Text) : Prop :=
  (isDeleted e ∧ Answers e name) ∨
    (isDirectory e.attr ∧ isSpecial e.attr = false ∧ e.fileSize ≠ 0 ∧ fullName e = some name)

/-- The name is that of a directory or of a nonempty file that is shown, and no entry in
front of it misleads. -/
def Reached (es : List FatDirLayout) (name : Text) : Prop :=
  ∃ front e back, es = front ++ e :: back ∧ shownName e = some name ∧
    (isDirectory e.attr ∨ e.fileSize ≠ 0) ∧ ∀ d ∈ front, ¬ Misleads d name

section Entries
variable {e : FatDirLayout} {name : Text} {es : List FatDirLayout}

theorem fullName_eq_some_iff : fullName e = some name ↔ ∃ t, baseName e = some t ∧
    t ++ [dot] ++ getExtension e.extention e.caseInformation = name := by
  simp only [fullName, Option.map_eq_some_iff]

theorem fullName_ne_baseName (h : fullName e = some name) : baseName e ≠ some name := by
  obtain ⟨t, ht, rfl⟩ := fullName_eq_some_iff.mp h
  intro hb
  rw [ht, Option.some.injEq] at hb
  have hlen := congrArg List.length hb
  simp at hlen

theorem isShown_iff : isShown false e = true ↔ isDeleted e = false ∧
    (isDirectory e.attr ∨ isSpecial e.attr = false) ∧ ∃ t, baseName e = some t := by
  simp [isShown, Option.isSome_iff_exists, and_assoc]

theorem isShown_of_shownName (h : shownName e = some name) : isShown false e = true := by
  by_contra hs
  rw [shownName, if_neg hs] at h
  cases h

theorem answers_of_shownName (h : shownName e = some name)
    (hs : isDirectory e.attr ∨ e.fileSize ≠ 0) : Answers e name := by
  obtain ⟨-, hattr, t, ht⟩ := isShown_iff.mp (isShown_of_shownName h)
  have hne : e.nameHead ≠ 0 := fun h₀ => by simp [(baseName_eq_none_iff e).mpr h₀] at ht
  rw [shownName, if_pos (isShown_of_shownName h)] at h
  split_ifs at h with hdir
  · exact ⟨hne, .inr ⟨hdir, h⟩⟩
  · exact ⟨hne, .inl ⟨hs.resolve_left hdir, hattr.resolve_left hdir, h⟩⟩

/-- An entry that answers to a name is shown under it or misleads. -/
theorem shownName_or_misleads (h : Answers e name) :
    shownName e = some name ∧ (isDirectory e.attr ∨ e.fileSize ≠ 0) ∨ Misleads e name := by
  by_cases hdel : isDeleted e = true
  · exact .inr (.inl ⟨hdel, h⟩)
  rw [Bool.not_eq_true] at hdel
  rcases h.2 with ⟨hsize, hattr, hfull⟩ | ⟨hdir, hbase⟩
  · obtain ⟨t, ht, -⟩ := fullName_eq_some_iff.mp hfull
    have hshown : isShown false e = true := isShown_iff.mpr ⟨hdel, .inr hattr, t, ht⟩
    by_cases hdir : isDirectory e.attr
    · exact .inr (.inr ⟨hdir, hattr, hsize, hfull⟩)
    · exact .inl ⟨by rw [shownName, if_pos hshown, if_neg hdir, hfull], .inr hsize⟩
  · have hshown : isShown false e = true := isShown_iff.mpr ⟨hdel, .inl hdir, name, hbase⟩
    exact .inl ⟨by rw [shownName, if_pos hshown, if_pos hdir, hbase], .inl hdir⟩

/-- An entry that misleads answers to the name and is not shown under it. -/
theorem Misleads.answers (h : Misleads e name) : Answers e name := by
  rcases h with ⟨-, h⟩ | ⟨-, hattr, hsize, hfull⟩
  · exact h
  · obtain ⟨t, ht, -⟩ := fullName_eq_some_iff.mp hfull
    exact ⟨fun h₀ => by simp [(baseName_eq_none_iff e).mpr h₀] at ht, .inl ⟨hsize, hattr, hfull⟩⟩

theorem Misleads.not_shown (h : Misleads e name) : shownName e ≠ some name := by
  intro hs
  obtain ⟨hdel, -⟩ := isShown_iff.mp (isShown_of_shownName hs)
  rcases h with ⟨hd, -⟩ | ⟨hdir, -, -, hfull⟩
  · simp [hdel] at hd
  · rw [shownName, if_pos (isShown_of_shownName hs), if_pos hdir] at hs
    exact fullName_ne_baseName hfull hs

/-- The entry found is shown under the name exactly when the name is reached. -/
theorem lookup_shown_iff : (∃ e, lookup es name = some e ∧ shownName e = some name) ↔
    Reached es name := by
  constructor
  · rintro ⟨e, he, hs⟩
    obtain ⟨hans, front, back, rfl, hfront⟩ := List.find?_eq_some_iff_append.mp he
    refine ⟨front, e, back, rfl, hs, ?_, fun d hd hm => ?_⟩
    · rcases shownName_or_misleads (by simpa using hans) with h | h
      · exact h.2
      · exact absurd hs h.not_shown
    · exact absurd hm.answers (by simpa using hfront d hd)
  · rintro ⟨front, e, back, rfl, hs, hsize, hfront⟩
    induction front with
    | nil =>
        have hans := answers_of_shownName hs hsize
        exact ⟨e, by rw [lookup, List.nil_append, List.find?_cons_of_pos (by simpa using hans)], hs⟩
    | cons d front ih =>
        rw [lookup, List.cons_append]
        by_cases hd : Answers d name
        · rw [List.find?_cons_of_pos (by simpa using hd)]
          rcases shownName_or_misleads hd with h | h
          · exact ⟨d, rfl, h.1⟩
          · exact absurd h (hfront d (by simp))
        · rw [List.find?_cons_of_neg (by simpa using hd)]
          exact ih fun x hx => hfront x (by simp [hx])

end Entries

section Listing
variable {fill : ℕ → UInt8} {wcstombs : ℕ → Option Text} {v : Volume} {p : Option Parts}
variable {e : FatDirLayout} {es : List FatDirLayout} {block : Bytes} {n i : ℕ}

theorem shortName_listLine {name : Text} (full : Text) (h : baseName e = some name)
    (hs : isShown false e = true) : shortName (listLine v e name full) = shownName e := by
  unfold listLine shownName
  simp only [if_pos hs, fullName, h, Option.map_some]
  split_ifs <;> rfl

theorem printed_shortNames :
    (printed wcstombs v false p e).filterMap shortName = (shownName e).toList := by
  unfold printed
  split_ifs with hslot hshown
  · have hn : isShown false e = false := isShown_eq_false_of_attr (attr_of_isSlot hslot)
    rw [shownName, if_neg (by rw [hn]; simp), List.filterMap_map]
    simp [Function.comp_def, shortName]
  · obtain ⟨-, -, t, ht⟩ := isShown_iff.mp hshown
    have hname := shortName_listLine (v := v) (((claimed wcstombs p).map Prod.fst).getD []) ht
      hshown
    rw [ht, Option.getD_some, List.filterMap_cons, List.filterMap_nil, hname]
    cases shownName e <;> rfl
  · rw [shownName, if_neg hshown]
    rfl

theorem listing_shortNames :
    (listing wcstombs v false p i es).filterMap shortName = es.filterMap shownName := by
  induction es generalizing p i with
  | nil => rfl
  | cons e es ih =>
      rw [listing, List.filterMap_append, printed_shortNames, ih, List.filterMap_cons]
      cases shownName e <;> rfl

end Listing

/-- The names lead to the array: none to `root_dir`, and others to the array that the
entry at their end opens. -/
def OpensAt (fill : ℕ → UInt8) (v : Volume) (img : Bytes) (names : List Text) (block : Bytes)
    (n : ℕ) : Prop :=
  names = [] ∧ block = v.rootDir ∧ n = v.boot.rootEntryCount.toNat ∨
    ∃ d, LeadsTo fill v img names d ∧ parseDir fill v img d = .ok (some (block, n))

/-- A path goes on with a search of the array that its other components lead to. -/
theorem find_of_opensAt {fill : ℕ → UInt8} {v : Volume} {img block : Bytes} {n : ℕ}
    {names : List Text} {name path : Text} (f : FatDirLayout)
    (h : OpensAt fill v img names block n) (hc : components path = names ++ [name]) :
    find fill v img f path = search block name n := by
  rcases h with ⟨rfl, rfl, rfl⟩ | ⟨d, hd, hp⟩
  · exact find_of_components_eq_singleton f hc
  · rw [find, hc]
    exact findLoop_snoc (hd.findLoop_eq f) hd.ne_nil hp

/-- `list` prints the names of the entries that are shown, a path whose last component is
such a name leads where `search` does, and there it finds an entry that is shown under the
name exactly when the name is reached: a directory or a nonempty file shown under it has no
entry in front that misleads. -/
theorem shown_name_found_iff (fill : ℕ → UInt8) (wcstombs : ℕ → Option Text) (v : Volume)
    (img : Bytes) (f : FatDirLayout) {block : Bytes} {n : ℕ} (name : Text)
    (hb : entrySize * n ≤ block.length) :
    (∀ l p, Represents l p → ∃ r, list fill wcstombs v l block n false = .ok r ∧
      r.lines.filterMap shortName = (entriesFrom block 0 n).filterMap shownName) ∧
    (∀ names path, OpensAt fill v img names block n → components path = names ++ [name] →
      find fill v img f path = search block name n) ∧
    ((∃ e, search block name n = .ok (some e) ∧ shownName e = some name) ↔
      Reached (entriesFrom block 0 n) name) := by
  refine ⟨fun l p hl => ?_, fun names path ho hc => find_of_opensAt f ho hc, ?_⟩
  · obtain ⟨l', hlist, -⟩ := list_of_represents wcstombs v false fill hb hl
    exact ⟨_, hlist, listing_shortNames⟩
  · obtain ⟨r, hr⟩ : ∃ r, search block name n = .ok r := search_returns_iff.mpr (.inr hb)
    rw [← lookup_shown_iff, ← search_eq_lookup hr, hr]
    simp only [Except.ok.injEq]

def emptyFile : FatDirLayout where
  bytes := 0x45 :: List.replicate 7 0x20 ++ [0x54, 0x20, 0x20] ++ List.replicate 21 0
  length_bytes := by simp [entrySize]

/-- The empty file is shown and not found. -/
theorem empty_file_not_found : ∃ r, list (fun _ => 0) (fun _ => none) dotVolume .initial
    emptyFile.bytes 1 false = .ok r ∧
      r.lines.filterMap shortName = [[0x45, dot, 0x54]] ∧
      search emptyFile.bytes [0x45, dot, 0x54] 1 = .ok none := by
  obtain ⟨l, hl, -⟩ := list_of_represents (fun _ => none) dotVolume false (fun _ => 0)
    (show entrySize * 1 ≤ emptyFile.bytes.length by decide) represents_initial
  refine ⟨_, hl, ?_, by decide⟩
  rw [listing_shortNames]
  decide

/-- The directory `A` is found under the name that is shown. -/
theorem dirA_found : ∃ e, search dirA.bytes [0x41] 1 = .ok (some e) ∧
    shownName e = some [0x41] := by
  refine (shown_name_found_iff (fun _ => 0) (fun _ => none) dotVolume dotImage dirA [0x41]
    (show entrySize * 1 ≤ dirA.bytes.length by decide)).2.2.mpr ⟨[], dirA, [], ?_, ?_, ?_, ?_⟩
  · decide
  · decide
  · exact .inl (by decide)
  · simp

end TFAT.ShownNames
