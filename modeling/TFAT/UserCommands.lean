import TFAT.LongNames
import TFAT.PathResolution
import TFAT.VolumeMount

/-!
# The commands on a mounted volume

The bodies of the commands of user.c behind their tests of the descriptor. A
command takes the session it runs in, with the contents of the blocks that
`find` allocates for it, to the session it leaves and the lines it prints. Lines
are values, one constructor for each format string.
-/
namespace TFAT.UserCommands
open ByteRegions LittleEndianWords LinkedChains DiskLayout ClusterTable FileDescriptor
open DirectoryIO PathText EntryNames PathResolution LongNames

structure Tm where
  year : ℤ
  mon : ℤ
  mday : ℤ
  hour : ℤ
  min : ℤ
  sec : ℤ
  deriving DecidableEq

def createTime (time date : ℕ) : Tm where
  year := ((date &&& 0xFE00) >>> 9 + 80 : ℕ)
  mon := ((date &&& 0x1E0) >>> 5 : ℕ) - 1
  mday := (date &&& 0x1F : ℕ)
  hour := ((time &&& 0xF800) >>> 11 : ℕ)
  min := ((time &&& 0x7E0) >>> 5 : ℕ)
  sec := ((time &&& 0x1F) * 2 : ℕ)

inductive Line where
  | folderNotFound (path : Text)
  | isNotDirectory (path : Text)
  | fileNotFound (path : Text)
  | fileSize (path : Text) (size : ℤ)
  | top
  | bottom
  | chars (bytes : Bytes)
  | hexes (bytes : Bytes)
  | makeZero (cluster : ℕ)
  | makeUnzero (cluster : ℕ)
  | file (attr : Text) (time : Tm) (size : ℕ) (name : Text) (cluster : ℕ) (fullName : Text)
  | directory (attr : Text) (time : Tm) (name : Text) (cluster : ℕ) (fullName : Text)
  | orphaned (name : Text)
  deriving DecidableEq

/-- What a command on a mounted volume can see and change. -/
structure Session where
  volume : Volume
  image : Bytes
  currentPath : Text
  lfn : LfnState

variable (fill : ℕ → UInt8) (wcstombs : ℕ → Option Text)

/-- The variables of `list`. -/
structure Listed where
  lfn : LfnState
  lines : List Line

def listLine (v : Volume) (e : FatDirLayout) (name full : Text) : Line :=
  let time := createTime e.createTime e.createDate
  let cluster := v.firstCluster e % 2 ^ 16
  if isDirectory e.attr then .directory (getAttr e.attr) time name cluster full
  else .file (getAttr e.attr) time e.fileSize
    (name ++ [dot] ++ getExtension e.extention e.caseInformation) cluster full

def listEntry (v : Volume) (block : Bytes) (showDeleted : Bool) (s : Listed) (i : ℕ) :
    Except Fault Listed := do
  let e ← entryAt block i
  if isDeleted e && !showDeleted then .ok s
  else do
    let (lfn, orphans) ←
      if !isDeleted e && isLfn e.attr then lfnAddSlot fill wcstombs s.lfn e i else .ok (s.lfn, [])
    let s : Listed := ⟨lfn, s.lines ++ orphans.map .orphaned⟩
    if isDirectory e.attr || !isSpecial e.attr then
      match baseName e with
      | none => .ok s
      | some name => do
          let (lfn, long) ← lfnGet wcstombs s.lfn e
          .ok ⟨lfn, s.lines ++ [listLine v e name ((long.map Prod.fst).getD [])]⟩
    else .ok s

def list (v : Volume) (lfn : LfnState) (block : Bytes) (size : ℕ) (showDeleted : Bool) :
    Except Fault Listed :=
  (List.range size).foldlM (listEntry fill wcstombs v block showDeleted) ⟨lfn, []⟩

variable (s : Session) (fresh freshParent : FatDirLayout)

def cd (path : Text) : Except Fault (Session × List Line) := do
  let npath := (addressConvertor s.currentPath (some path)).text
  if npath = [slash] then .ok ({ s with currentPath := npath }, [])
  else
    match ← find fill s.volume s.image fresh npath with
    | none => .ok (s, [.folderNotFound npath])
    | some dir =>
        if isDirectory dir.attr then .ok ({ s with currentPath := npath }, [])
        else .ok (s, [.isNotDirectory npath])

def ls (dir : Option Text) (showDeleted : Bool) : Except Fault (Session × List Line) := do
  let ndir := (addressConvertor s.currentPath dir).text
  if ndir = [slash] then
    let r ← list fill wcstombs s.volume s.lfn s.volume.rootDir
      s.volume.boot.rootEntryCount.toNat showDeleted
    .ok ({ s with lfn := r.lfn }, r.lines)
  else
    match ← find fill s.volume s.image fresh ndir with
    | none => .ok (s, [.folderNotFound ndir])
    | some folder =>
        match ← parseDir fill s.volume s.image folder with
        | none => .ok (s, [.folderNotFound ndir])
        | some (entries, size) => do
            let r ← list fill wcstombs s.volume s.lfn entries size showDeleted
            .ok ({ s with lfn := r.lfn }, r.lines)

/-- One round of the loop of `dump` and `hdump`: what remains to be printed, and
the bytes printed so far. A buffer that a read leaves unfilled is printed whole. -/
def dumpCluster (v : Volume) (img : Bytes) (r : ℕ × Bytes) (cluster : ℕ) :
    Except Fault (ℕ × Bytes) :=
  let d : Descriptor := ⟨img, v.clusterToSector cluster⟩
  if r.1 < clusterBytes v.boot then .ok (r.1, r.2 ++ d.load fill r.1)
  else .ok (r.1 - clusterBytes v.boot, r.2 ++ d.load fill (clusterBytes v.boot))

/-- `size` as the format `%d` prints it. -/
def asInt (size : ℕ) : ℤ := if size < 2 ^ 31 then size else (size : ℤ) - 2 ^ 32

def dumpWith (format : Bytes → Line) (dir : Text) : Except Fault (Session × List Line) := do
  let ndir := (addressConvertor s.currentPath (some dir)).text
  match ← find fill s.volume s.image fresh ndir with
  | none => .ok (s, [.fileNotFound ndir])
  | some file => do
      let r ← along s.volume.nextCluster 0 .endless (dumpCluster fill s.volume s.image)
        s.volume.fuel (s.volume.firstCluster file) (file.fileSize, [])
      .ok (s, [.fileSize ndir (asInt file.fileSize), .top, format r.2, .bottom])

def dump (dir : Text) : Except Fault (Session × List Line) := dumpWith fill s fresh .chars dir

def hdump (dir : Text) : Except Fault (Session × List Line) := dumpWith fill s fresh .hexes dir

/-- The loop of `delete` that frees a chain. -/
def freeChain : ℕ → Volume → ℕ → Except Fault (Volume × List Line)
  | 0, _, _ => .error .endless
  | fuel + 1, v, cluster =>
      if cluster = 0 then .ok (v, [])
      else do
        let next ← v.nextCluster cluster
        let v ← v.changeCluster cluster 0
        let (v, lines) ← freeChain fuel v next
        .ok (v, .makeZero (cluster % 2 ^ 16) :: lines)

/-- What `delete` and `undelete` open to mark an entry in: the directory entry of
the parent, unless that is the root directory, with its array and size. -/
def openParent (pndir : Text) : Except Fault (Option FatDirLayout × Bytes × ℕ) :=
  if pndir = [slash] then
    .ok (none, s.volume.rootDir, s.volume.boot.rootEntryCount.toNat)
  else do
    match ← find fill s.volume s.image freshParent pndir with
    | none => .error .null
    | some parent =>
        let (entries, size) ← parseDirSized fill s.volume s.image parent
        .ok (some parent, entries.getD [], size)

/-- The variables of the loop that marks entries. -/
structure Marking where
  folder : Bytes
  image : Bytes

def markEntry (v : Volume) (parent : Option FatDirLayout) (size : ℕ) (file : FatDirLayout)
    (b : UInt8) (m : Marking) (i : ℕ) : Except Fault Marking := do
  let e ← entryAt m.folder i
  if e = file then do
    let folder ← copyIn m.folder (entrySize * i) [b]
    match parent with
    | some p => do
        let image ← writeDir v m.image p folder size
        .ok ⟨folder, image⟩
    | none => .ok ⟨folder, m.image⟩
  else .ok m

def markEntries (v : Volume) (parent : Option FatDirLayout) (folder : Bytes) (size : ℕ)
    (file : FatDirLayout) (b : UInt8) : Except Fault Session := do
  let m ← (List.range size).foldlM (markEntry v parent size file b) ⟨folder, s.image⟩
  match parent with
  | some _ => .ok { s with volume := v, image := m.image }
  | none => .ok { s with volume := { v with rootDir := m.folder }, image := m.image }

def delete (dir : Text) : Except Fault (Session × List Line) := do
  let ndir := (addressConvertor s.currentPath (some dir)).text
  let file ← find fill s.volume s.image fresh ndir
  let (parent, folder, size) ← openParent fill s freshParent (getParentPath ndir)
  match file with
  | none => .ok (s, [.fileNotFound dir])
  | some file => do
      let (v, lines) ← freeChain s.volume.fuel s.volume (s.volume.firstCluster file)
      let s ← markEntries s v parent folder size file 0xE5
      .ok (s, lines)

def undelete (dir : Text) : Except Fault (Session × List Line) := do
  let (ddir, deletedChar) := fixDeletedChar dir
  let ndir := (addressConvertor s.currentPath (some ddir)).text
  match ← find fill s.volume s.image fresh ndir with
  | none => .ok (s, [.fileNotFound dir])
  | some file => do
      let (parent, folder, size) ← openParent fill s freshParent (getParentPath ndir)
      let cluster := s.volume.firstCluster file
      let v ← s.volume.changeCluster cluster 0x0FFFFFFF
      let s ← markEntries s v parent folder size file deletedChar
      .ok (s, [.makeUnzero (cluster % 2 ^ 16)])

section Results
variable {fill wcstombs s fresh freshParent} {r : Session × List Line}

/-- The end of a round of `list`, behind the slots of long names. -/
def shortEntry (wcstombs : ℕ → Option Text) (v : Volume) (s : Listed) (e : FatDirLayout) :
    Except Fault Listed :=
  if isDirectory e.attr || !isSpecial e.attr then
    match baseName e with
    | none => .ok s
    | some name => do
        let r ← lfnGet wcstombs s.lfn e
        .ok ⟨r.1, s.lines ++ [listLine v e name ((r.2.map Prod.fst).getD [])]⟩
  else .ok s

theorem listEntry_bind (v : Volume) (entries : Bytes) (showDeleted : Bool) (s : Listed) (i : ℕ) :
    listEntry fill wcstombs v entries showDeleted s i =
      entryAt entries i >>= fun e =>
        if isDeleted e && !showDeleted then .ok s
        else if !isDeleted e && isLfn e.attr then
          lfnAddSlot fill wcstombs s.lfn e i >>= fun r =>
            shortEntry wcstombs v ⟨r.1, s.lines ++ r.2.map .orphaned⟩ e
        else shortEntry wcstombs v ⟨s.lfn, s.lines ++ []⟩ e := by
  rw [listEntry]
  congr 1

/-- What `ls` opens to list it: an array of entries and its size. -/
def openListed (fill : ℕ → UInt8) (s : Session) (fresh : FatDirLayout) (dir : Option Text) :
    Except Fault (Option (Bytes × ℕ)) :=
  let ndir := (addressConvertor s.currentPath dir).text
  if ndir = [slash] then .ok (some (s.volume.rootDir, s.volume.boot.rootEntryCount.toNat))
  else do
    match ← find fill s.volume s.image fresh ndir with
    | none => .ok none
    | some folder => parseDir fill s.volume s.image folder

theorem ls_eq (dir : Option Text) (showDeleted : Bool) :
    ls fill wcstombs s fresh dir showDeleted =
      openListed fill s fresh dir >>= fun opened => match opened with
        | none => .ok (s, [.folderNotFound (addressConvertor s.currentPath dir).text])
        | some (block, n) => list fill wcstombs s.volume s.lfn block n showDeleted >>= fun l =>
            .ok ({ s with lfn := l.lfn }, l.lines) := by
  unfold ls openListed
  simp only
  split_ifs
  · rfl
  · cases find fill s.volume s.image fresh (addressConvertor s.currentPath dir).text with
    | error e => rfl
    | ok file =>
        cases file with
        | none => rfl
        | some folder => simp only [ok_bind]

/-- `cd` goes to the root directory or to a directory entry that `find` returns, or stays
where it is. -/
theorem cd_cases {path : Text} (h : cd fill s fresh path = .ok r) :
    r.1 = s ∨ ∃ npath, npath = (addressConvertor s.currentPath (some path)).text ∧
      r.1 = { s with currentPath := npath } ∧
      (npath = [slash] ∨ npath ≠ [slash] ∧ ∃ e, find fill s.volume s.image fresh npath =
        .ok (some e) ∧ isDirectory e.attr) := by
  unfold cd at h
  simp only at h
  split_ifs at h with hroot
  · rw [← Except.ok.inj h]
    exact .inr ⟨_, rfl, rfl, .inl hroot⟩
  · obtain ⟨file, hfile, h⟩ := bind_eq_ok.mp h
    cases file with
    | none => exact .inl (by rw [← Except.ok.inj h])
    | some dir =>
        simp only at h
        split_ifs at h with hdir
        · rw [← Except.ok.inj h]
          exact .inr ⟨_, rfl, rfl, .inr ⟨hroot, dir, hfile, hdir⟩⟩
        · exact .inl (by rw [← Except.ok.inj h])

theorem cd_result {path : Text} (h : cd fill s fresh path = .ok r) :
    ∃ npath, r.1 = { s with currentPath := npath } := by
  rcases cd_cases h with h | ⟨npath, -, h, -⟩
  · exact ⟨s.currentPath, h⟩
  · exact ⟨npath, h⟩

theorem ls_result {dir : Option Text} {showDeleted : Bool}
    (h : ls fill wcstombs s fresh dir showDeleted = .ok r) :
    ∃ lfn, r.1 = { s with lfn := lfn } := by
  rw [ls_eq] at h
  obtain ⟨opened, -, h⟩ := bind_eq_ok.mp h
  cases opened with
  | none =>
      rw [← Except.ok.inj h]
      exact ⟨_, rfl⟩
  | some opened =>
      obtain ⟨l, -, h⟩ := bind_eq_ok.mp h
      rw [← Except.ok.inj h]
      exact ⟨_, rfl⟩

theorem dumpWith_result {format : Bytes → Line} {dir : Text}
    (h : dumpWith fill s fresh format dir = .ok r) : r.1 = s := by
  obtain ⟨file, -, h⟩ := bind_eq_ok.mp h
  cases file with
  | none => rw [← Except.ok.inj h]
  | some file =>
      obtain ⟨p, -, h⟩ := bind_eq_ok.mp h
      rw [← Except.ok.inj h]

theorem markEntries_result {v : Volume} {parent : Option FatDirLayout} {folder : Bytes}
    {size : ℕ} {file : FatDirLayout} {b : UInt8} {t : Session}
    (h : markEntries s v parent folder size file b = .ok t) :
    ∃ w img, t = { s with volume := w, image := img } := by
  obtain ⟨m, -, h⟩ := bind_eq_ok.mp h
  cases parent with
  | none =>
      rw [← Except.ok.inj h]
      exact ⟨_, _, rfl⟩
  | some p =>
      rw [← Except.ok.inj h]
      exact ⟨_, _, rfl⟩

theorem delete_result {dir : Text} (h : delete fill s fresh freshParent dir = .ok r) :
    ∃ w img, r.1 = { s with volume := w, image := img } := by
  obtain ⟨file, -, h⟩ := bind_eq_ok.mp h
  obtain ⟨⟨parent, folder, size⟩, -, h⟩ := bind_eq_ok.mp h
  cases file with
  | none =>
      rw [← Except.ok.inj h]
      exact ⟨_, _, rfl⟩
  | some file =>
      obtain ⟨⟨v, lines⟩, -, h⟩ := bind_eq_ok.mp h
      obtain ⟨t, ht, h⟩ := bind_eq_ok.mp h
      rw [← Except.ok.inj h]
      exact markEntries_result ht

theorem undelete_result {dir : Text} (h : undelete fill s fresh freshParent dir = .ok r) :
    ∃ w img, r.1 = { s with volume := w, image := img } := by
  obtain ⟨file, -, h⟩ := bind_eq_ok.mp h
  cases file with
  | none =>
      rw [← Except.ok.inj h]
      exact ⟨_, _, rfl⟩
  | some file =>
      obtain ⟨⟨parent, folder, size⟩, -, h⟩ := bind_eq_ok.mp h
      obtain ⟨v, -, h⟩ := bind_eq_ok.mp h
      obtain ⟨t, ht, h⟩ := bind_eq_ok.mp h
      rw [← Except.ok.inj h]
      exact markEntries_result ht

theorem cd_untouched {path : Text} (h : cd fill s fresh path = .ok r) :
    r.1.volume = s.volume ∧ r.1.image = s.image := by
  obtain ⟨npath, h⟩ := cd_result h
  rw [h]
  exact ⟨rfl, rfl⟩

theorem ls_untouched {dir : Option Text} {showDeleted : Bool}
    (h : ls fill wcstombs s fresh dir showDeleted = .ok r) :
    r.1.volume = s.volume ∧ r.1.image = s.image := by
  obtain ⟨lfn, h⟩ := ls_result h
  rw [h]
  exact ⟨rfl, rfl⟩

theorem dumpWith_untouched {format : Bytes → Line} {dir : Text}
    (h : dumpWith fill s fresh format dir = .ok r) :
    r.1.volume = s.volume ∧ r.1.image = s.image := by
  rw [dumpWith_result h]
  exact ⟨rfl, rfl⟩

end Results

end TFAT.UserCommands
