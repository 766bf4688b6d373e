import TFAT.MarkingEffects
import TFAT.ShellRuns

/-!
# Which table entries a command uses

Every command as the chain walks it makes and the table entries it reads or
changes. Cluster numbers come from table entries, from directory entries, from
the boot sector and from the keyboard, and no function compares one with a
bound before it uses it as an index.
-/
namespace TFAT.TableAccesses
open ByteRegions LittleEndianWords LinkedChains DiskLayout ClusterTable ClusterPlacement
open FileDescriptor VolumeMount DirectoryIO PathText EntryNames PathResolution UserCommands
open ShellCommands ShellRuns DeleteSafety UndeleteSafety

/-- A chain walk: the volume whose table it follows, and its first cluster. -/
structure Walk where
  volume : Volume
  first : ℕ

/-- The walk comes to the cluster, and reads its link. -/
def Walk.Visits (w : Walk) (c : ℕ) : Prop := Reaches w.volume.nextCluster 0 w.first c

section Commands
variable (fill : ℕ → UInt8)

/-- The entries that the loop of `find` hands to `parse_dir`. -/
def openedFrom (v : Volume) (img : Bytes) : Bytes → ℕ → List Text → List FatDirLayout
  | _, _, [] => []
  | dir, size, token :: rest =>
      match search dir token size with
      | .ok (some tmp) =>
          if rest = [] then []
          else
            tmp :: match parseDir fill v img tmp with
              | .ok (some (entries, n)) => openedFrom v img entries n rest
              | _ => []
      | _ => []

def opened (v : Volume) (img : Bytes) (path : Text) : List FatDirLayout :=
  openedFrom fill v img v.rootDir v.boot.rootEntryCount.toNat (components path)

def loaded (b : FatBS) (d : Descriptor) : Volume :=
  let e := FatExtBS32.ofBytes (d.load fill FatExtBS32.size)
  let info := (d.advance FatExtBS32.size).seekSet (e.fatInfo.toNat * sector b)
  let d₁ := (info.advance fatInfoSize).seekSet (reservedBytes b)
  let d₂ := d₁.advance (tableBytes32 b e)
  { fatn := .fat32
    boot := b
    boot16 := ⟨[]⟩
    boot32 := e
    fatTable := d₁.load fill (tableBytes32 b e)
    fatTableBak := d₂.load fill (tableBytes32 b e)
    rootDir := malloc fill (clusterBytes b)
    dataOffset := (skipTables b e.tableSize32.toNat (d₂.advance (tableBytes32 b e))).pos }

def loadedFrom (img : Bytes) : Volume :=
  loaded fill (bootSector fill img) ((Descriptor.mk img 0).advance FatBS.size)

/-- The clusters that the loop of `delete` comes to; it clears each entry behind it. -/
inductive Frees : Volume → ℕ → ℕ → Prop
  | here {v : Volume} {c : ℕ} : c ≠ 0 → Frees v c c
  | later {v w : Volume} {c d x : ℕ} : c ≠ 0 → v.nextCluster c = .ok d →
      v.changeCluster c 0 = .ok w → Frees w d x → Frees v c x

variable (env : Env) (s : Shell) (i : Input)

def Lists (dir : Option Text) : Prop := i.command = .ls dir ∨ i.command = .lsdel dir

def Dumps (dir : Text) : Prop := i.command = .dump dir ∨ i.command = .hdump dir

/-- The commands that go through the whole table. -/
def ReadsTable : Prop :=
  (∃ answers, i.command = .fat answers) ∨ (∃ path, i.command = .dumpFat path) ∨
    i.command = .testFat

/-- The volume is mounted for writing. -/
def Writing : Prop := ∃ file, s.fd = some ⟨file, true⟩

/-- The entry that a command has found under its path. -/
def Finds (fresh : FatDirLayout) (path : Text) (e : FatDirLayout) : Prop :=
  find env.fill s.volume s.image fresh path = .ok (some e)

/-- The path that the marking command `i` looks up. -/
inductive MarkPath : Text → Prop
  | delete {dir : Text} : i.command = .delete dir → Writing s →
      MarkPath (deletePath s.session dir)
  | undelete {dir : Text} : i.command = .undelete dir → Writing s →
      MarkPath (undeletePath s.session dir)

/-- The paths that a command hands to `find`, each with its block for the result. -/
inductive LooksUp : Text → FatDirLayout → Prop
  | cd {path : Text} : i.command = .cd path →
      (addressConvertor s.currentPath (some path)).text ≠ [slash] →
      LooksUp (addressConvertor s.currentPath (some path)).text i.fresh
  | ls {dir : Option Text} : Lists i dir → s.fd ≠ none →
      (addressConvertor s.currentPath dir).text ≠ [slash] →
      LooksUp (addressConvertor s.currentPath dir).text i.fresh
  | dump {dir : Text} : Dumps i dir → s.fd ≠ none →
      LooksUp (addressConvertor s.currentPath (some dir)).text i.fresh
  | mark {path : Text} : MarkPath s i path → LooksUp path i.fresh
  | parent {path : Text} : MarkPath s i path → getParentPath path ≠ [slash] →
      LooksUp (getParentPath path) i.freshParent

/-- The directory that a marking command opens. -/
def OpensParent (p : FatDirLayout) : Prop :=
  ∃ path, MarkPath s i path ∧ getParentPath path ≠ [slash] ∧
    Finds env s i.freshParent (getParentPath path) p ∧ isDirectory p.attr

/-- The tables as a marking command has changed them when it writes a directory. -/
inductive Changes : Volume → Prop
  | delete {dir : Text} {f : FatDirLayout} {w : Volume} {lines : List Line} :
      i.command = .delete dir → Finds env s i.fresh (deletePath s.session dir) f →
      freeChain s.volume.fuel s.volume (s.volume.firstCluster f) = .ok (w, lines) → Changes w
  | undelete {dir : Text} {f : FatDirLayout} {w : Volume} :
      i.command = .undelete dir → Finds env s i.fresh (undeletePath s.session dir) f →
      s.volume.changeCluster (s.volume.firstCluster f) 0x0FFFFFFF = .ok w → Changes w

inductive Walks : Walk → Prop
  | search {path : Text} {fresh e : FatDirLayout} : LooksUp s i path fresh →
      e ∈ opened env.fill s.volume s.image path → isDirectory e.attr →
      Walks ⟨s.volume, s.volume.firstCluster e⟩
  | ls {dir : Option Text} {e : FatDirLayout} : Lists i dir → s.fd ≠ none →
      (addressConvertor s.currentPath dir).text ≠ [slash] →
      Finds env s i.fresh (addressConvertor s.currentPath dir).text e → isDirectory e.attr →
      Walks ⟨s.volume, s.volume.firstCluster e⟩
  | dump {dir : Text} {e : FatDirLayout} : Dumps i dir → s.fd ≠ none →
      Finds env s i.fresh (addressConvertor s.currentPath (some dir)).text e →
      Walks ⟨s.volume, s.volume.firstCluster e⟩
  | chain {index : ℕ} : i.command = .chain index → s.fd ≠ none → Walks ⟨s.volume, index % 2 ^ 16⟩
  | parent {p : FatDirLayout} : OpensParent env s i p →
      Walks ⟨s.volume, s.volume.firstCluster p⟩
  | writeBack {p : FatDirLayout} {w : Volume} : OpensParent env s i p → Changes env s i w →
      Walks ⟨w, w.firstCluster p⟩
  | loadRoot {dev : Text} {img : Bytes} : i.command = .mount dev ∨ i.command = .wmount dev →
      s.files (env.canonical dev) = some img → selectFatn (bootSector env.fill img) = .fat32 →
      Walks ⟨loadedFrom env.fill img, (loadedFrom env.fill img).boot32.rootCluster.toNat⟩
  | storeRoot : i.command.Flushes → Writing s → s.volume.fatn = .fat32 →
      Walks ⟨s.volume, s.volume.boot32.rootCluster.toNat⟩

inductive Visits : Volume → ℕ → Prop
  | walk {w : Walk} {c : ℕ} : Walks env s i w → w.Visits c → Visits w.volume c
  | free {dir : Text} {f : FatDirLayout} {c : ℕ} : i.command = .delete dir → Writing s →
      Finds env s i.fresh (deletePath s.session dir) f →
      Frees s.volume (s.volume.firstCluster f) c → Visits s.volume c

/-- The indices at which a command reads or changes a table. -/
inductive Uses : Volume → ℕ → Prop
  | link {v : Volume} {c : ℕ} : Visits env s i v c → Uses v (v.fatn.index c)
  | row {k : ℕ} : ReadsTable i → s.fd ≠ none → k < s.volume.tableSize →
      Uses s.volume (s.volume.fatn.index k)
  | mark {dir : Text} {f : FatDirLayout} : i.command = .undelete dir → Writing s →
      Finds env s i.fresh (undeletePath s.session dir) f →
      Uses s.volume (s.volume.fatn.index (s.volume.firstCluster f))

end Commands

section Reading
variable {fill : ℕ → UInt8} {v w : Volume} {img : Bytes} {c x : ℕ}

/-- The loop of `delete` comes to no cluster that the walk would not have come to. -/
theorem reaches_of_frees (h : Frees v c x) : Reaches v.nextCluster 0 c x := by
  induction h with
  | here hc => exact .here hc
  | @later v w c d x hc hd hw _ ih =>
      have hE := MarkingEffects.edits_of_changeCluster hw
        (by rw [Nat.zero_mod, v.fatn.link_zero])
      exact .later hc hd (hE.reaches ih)

end Reading

end TFAT.TableAccesses
