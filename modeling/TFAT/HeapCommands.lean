import TFAT.HeapListings
import TFAT.ClusterTests
import TFAT.ShellRuns

/-!
# Commands on the heap

The commands of user.c and the globals behind them, once more with their blocks. The blocks of the
mounted volume are lent to a command. It keeps the blocks of the globals and frees the others, up
to those that are lost: the blocks of the listing, the parent that `delete` has opened when it
finds no file, and what a further `mount` overwrites.
-/
namespace TFAT.HeapCommands
open LittleEndianWords LinkedChains DiskLayout ClusterTable VolumeMount DirectoryIO PathText
open EntryNames PathResolution LongNames UserCommands ShellCommands ClusterTests OwnedBlocks
open HeapSearches HeapListings

/-- `change_current_path` and `change_label`, where `new` is the block of the argument. -/
def changeString (old : ℕ) (new : Option ℕ) : OnHeap ℕ := do
  free old
  let p ← malloc
  useAny new
  pure p

section Sessions
variable (fill : ℕ → UInt8) (wcstombs : ℕ → Option Text) (s : Session) (fresh : FatDirLayout)
variable (freshParent : FatDirLayout) (b : VolumeBlocks) (cur : ℕ)

def cdHeap (path : Text) : OnHeap (ℕ × Session × List Line) := do
  let npath ← addressConvertorHeap cur s.currentPath (some path)
  use npath.1
  if npath.2 = [slash] then do
    let cur ← changeString cur (some npath.1)
    free npath.1
    pure (cur, { s with currentPath := npath.2 }, [])
  else
    match ← findHeap fill b s.volume s.image fresh npath.2 with
    | none => do
        use npath.1
        free npath.1
        pure (cur, s, [.folderNotFound npath.2])
    | some dir => do
        use dir.1
        if isDirectory dir.2.attr then do
          let cur ← changeString cur (some npath.1)
          free dir.1
          free npath.1
          pure (cur, { s with currentPath := npath.2 }, [])
        else do
          use npath.1
          free npath.1
          free dir.1
          pure (cur, s, [.isNotDirectory npath.2])

def lsHeap (q : LfnBlocks) (dir : Option Text) (showDeleted : Bool) :
    OnHeap (LfnBlocks × Session × List Line) := do
  let ndir ← addressConvertorHeap cur s.currentPath dir
  use ndir.1
  if ndir.2 = [slash] then do
    let r ← listHeap fill wcstombs s.volume q s.lfn b.root s.volume.rootDir
      s.volume.boot.rootEntryCount.toNat showDeleted
    free ndir.1
    pure (r.1, { s with lfn := r.2.lfn }, r.2.lines)
  else
    match ← findHeap fill b s.volume s.image fresh ndir.2 with
    | none => do
        use ndir.1
        free ndir.1
        pure (q, s, [.folderNotFound ndir.2])
    | some folder => do
        use folder.1
        match ← parseDirHeap fill b s.volume s.image folder.2 with
        | none => do
            use ndir.1
            free folder.1
            free ndir.1
            pure (q, s, [.folderNotFound ndir.2])
        | some (p, entries, size) => do
            let r ← listHeap fill wcstombs s.volume q s.lfn (some p) entries size showDeleted
            free folder.1
            free p
            free ndir.1
            pure (r.1, { s with lfn := r.2.lfn }, r.2.lines)

/-- The common body of `dump` and `hdump`. -/
def dumpHeap (format : Bytes → Line) (dir : Text) : OnHeap (Session × List Line) := do
  let ndir ← addressConvertorHeap cur s.currentPath (some dir)
  use ndir.1
  match ← findHeap fill b s.volume s.image fresh ndir.2 with
  | none => do
      use ndir.1
      free ndir.1
      pure (s, [.fileNotFound ndir.2])
  | some file => do
      use file.1
      let r ← alongHeap (nextClusterHeap b s.volume) 0 .endless
        (fun r c => plain (dumpCluster fill s.volume s.image r c)) s.volume.fuel
        (s.volume.firstCluster file.2) (file.2.fileSize, [])
      free file.1
      free ndir.1
      pure (s, [.fileSize ndir.2 (asInt file.2.fileSize), .top, format r.2, .bottom])

structure Opened where
  parent : Option (ℕ × FatDirLayout)
  folder : Option ℕ
  entries : Bytes
  size : ℕ

/-- What the functions without the heap know of it. -/
def Opened.seen (a : Opened) : Option FatDirLayout × Bytes × ℕ :=
  (a.parent.map Prod.snd, a.entries, a.size)

def Opened.owned (a : Opened) : Multiset ℕ := block (a.parent.map Prod.fst) + block a.folder

/-- The pointer to the entries: to those of the parent, or to the root directory. -/
def Opened.array (a : Opened) (b : VolumeBlocks) : Option ℕ :=
  if a.parent.isSome then a.folder else b.root

def openParentHeap (pndir : Text) : OnHeap Opened :=
  if pndir = [slash] then
    pure ⟨none, none, s.volume.rootDir, s.volume.boot.rootEntryCount.toNat⟩
  else do
    match ← findHeap fill b s.volume s.image freshParent pndir with
    | none => plain (.error .null)
    | some parent => do
        use parent.1
        let r ← parseDirSizedHeap fill b s.volume s.image parent.2
        pure ⟨some parent, r.1.map Prod.fst, (r.1.map Prod.snd).getD [], r.2⟩

/-- The end of `delete` and `undelete`: the entries are marked and the blocks freed. -/
def markHeap (v : Volume) (a : Opened) (file : ℕ × FatDirLayout) (c : UInt8)
    (lines : List Line) : OnHeap (Session × List Line) := do
  useAny (a.array b)
  use file.1
  useAny b.table
  let t ← plain (markEntries s v (a.parent.map Prod.snd) a.entries a.size file.2 c)
  freeAny a.folder
  freeAny (a.parent.map Prod.fst)
  free file.1
  pure (t, lines)

/-- `delete`. Where it finds no file, it does not free what it has opened. -/
def deleteHeap (dir : Text) : OnHeap (Session × List Line) := do
  let ndir ← addressConvertorHeap cur s.currentPath (some dir)
  use ndir.1
  let pndir ← getParentPathHeap ndir.2
  let file ← findHeap fill b s.volume s.image fresh ndir.2
  use pndir.1
  let a ← openParentHeap fill s freshParent b pndir.2
  free ndir.1
  free pndir.1
  match file with
  | none => pure (s, [.fileNotFound dir])
  | some file => do
      use file.1
      useAny b.table
      useAny b.bak
      let r ← plain (freeChain s.volume.fuel s.volume (s.volume.firstCluster file.2))
      markHeap s b r.1 a file 0xE5 r.2

def undeleteHeap (dir : Text) : OnHeap (Session × List Line) := do
  let ddir ← fixDeletedCharHeap dir
  use ddir.1
  let ndir ← addressConvertorHeap cur s.currentPath (some ddir.2.1)
  use ndir.1
  let pndir ← getParentPathHeap ndir.2
  match ← findHeap fill b s.volume s.image fresh ndir.2 with
  | none => do
      free ddir.1
      free ndir.1
      free pndir.1
      pure (s, [.fileNotFound dir])
  | some file => do
      use pndir.1
      let a ← openParentHeap fill s freshParent b pndir.2
      free ddir.1
      free ndir.1
      free pndir.1
      use file.1
      let cluster := s.volume.firstCluster file.2
      useAny b.table
      useAny b.bak
      let v ← plain (s.volume.changeCluster cluster 0x0FFFFFFF)
      markHeap s b v a file ddir.2.2 [.makeUnzero (cluster % 2 ^ 16)]

def lsLeaks (dir : Option Text) (showDeleted : Bool) : ℕ :=
  match openListed fill s fresh dir with
  | .ok (some (block, size)) =>
      match countedList fill wcstombs s.volume s.lfn block size showDeleted with
      | .ok r => r.2
      | .error _ => 0
  | _ => 0

def parentBlocks (pndir : Text) : ℕ :=
  if pndir = [slash] then 0
  else
    match find fill s.volume s.image freshParent pndir with
    | .ok (some parent) =>
        match parseDir fill s.volume s.image parent with
        | .ok (some _) => 2
        | _ => 1
    | _ => 0

def deleteLeaks (dir : Text) : ℕ :=
  let ndir := (addressConvertor s.currentPath (some dir)).text
  match find fill s.volume s.image fresh ndir with
  | .ok none => parentBlocks fill s freshParent (getParentPath ndir)
  | _ => 0

end Sessions

section Rules
variable {safe : Prop} {fill : ℕ → UInt8} {wcstombs : ℕ → Option Text} {s : Session}
variable {fresh freshParent : FatDirLayout} {b : VolumeBlocks} {cur : ℕ} {o : Multiset ℕ}

theorem refines_changeString {α β : Type} {lent : Set ℕ} {w : Multiset ℕ} {old : ℕ}
    {new : Option ℕ} {k : ℕ → OnHeap α} {r : Except Fault β} {Q : α → β → Multiset ℕ → Prop}
    (ho : o = {old} + (block new + w))
    (h : ∀ p, Refines safe lent ({p} + (block new + w)) (k p) r Q) :
    Refines safe lent o (changeString old new >>= k) r Q := by
  rw [changeString, bind_assoc]
  refine refines_free ho ?_
  rw [bind_assoc]
  refine refines_malloc fun p => ?_
  rw [bind_assoc]
  refine refines_useAny (u := {p} + w) (by abel) ?_
  rw [pure_bind]
  exact h p

/-- The address of an argument is in one new block, beside the one of `current_path`. -/
theorem refines_address {α β : Type} {w : Multiset ℕ} {path : Option Text}
    {k : ℕ × Text → OnHeap α} {r : Except Fault β} {Q : α → β → Multiset ℕ → Prop}
    (hne : s.currentPath ≠ []) (hfit : safe → FitsBlock s.currentPath path) (ho : o = {cur} + w)
    (h : ∀ p, Refines safe b.lent ({p} + {cur} + w)
      (k (p, (addressConvertor s.currentPath path).text)) r Q) :
    Refines safe b.lent o
      (addressConvertorHeap cur s.currentPath path >>= fun a => use a.1 >>= fun _ => k a) r Q := by
  refine (refines_addressConvertor cur hne hfit).aside ho ?_
  rintro ⟨p, text⟩ o' ⟨rfl, rfl⟩
  exact refines_use (add_assoc _ _ _) (h p)

theorem refines_table {α β : Type} {k : Unit → OnHeap α} {r : Except Fault β}
    {Q : α → β → Multiset ℕ → Prop} (h : Refines safe b.lent o (k ()) r Q) :
    Refines safe b.lent o (useAny b.table >>= k) r Q :=
  refines_useAny_of (fun _ _ hp => .inr (mem_lent.mpr (.inl hp))) h

theorem refines_bak {α β : Type} {k : Unit → OnHeap α} {r : Except Fault β}
    {Q : α → β → Multiset ℕ → Prop} (h : Refines safe b.lent o (k ()) r Q) :
    Refines safe b.lent o (useAny b.bak >>= k) r Q :=
  refines_useAny_of (fun _ _ hp => .inr (mem_lent.mpr (.inr (.inl hp)))) h

theorem refines_root {α β : Type} {k : Unit → OnHeap α} {r : Except Fault β}
    {Q : α → β → Multiset ℕ → Prop} (h : Refines safe b.lent o (k ()) r Q) :
    Refines safe b.lent o (useAny b.root >>= k) r Q :=
  refines_useAny_of (fun _ _ hp => .inr (mem_lent.mpr (.inr (.inr hp)))) h

theorem refines_cd {path : Text} (hne : s.currentPath ≠ [])
    (hfit : safe → FitsBlock s.currentPath (some path)) :
    Refines safe b.lent {cur} (cdHeap fill s fresh b cur path) (cd fill s fresh path) fun a b o =>
      a.2 = b ∧ o = {a.1} := by
  unfold cdHeap cd
  refine refines_address hne hfit (add_zero _).symm fun p => ?_
  dsimp only
  rw [add_zero]
  split_ifs
  · refine refines_changeString (w := 0) (by rw [block_some]; abel) fun c => ?_
    exact refines_free (by rw [block_some]; abel) (refines_pure ⟨rfl, rfl⟩)
  · refine (refines_find fresh _).call (zero_add _).symm ?_
    rintro a r o - ⟨rfl, rfl⟩
    cases a with
    | none =>
        rw [Option.map_none, block_none, zero_add]
        exact refines_use rfl (refines_free rfl (refines_pure ⟨rfl, rfl⟩))
    | some dir =>
        simp only [Option.map_some, block_some]
        refine refines_use rfl ?_
        split_ifs with hd
        · refine refines_changeString (w := {dir.1}) (by rw [block_some]; abel) fun c => ?_
          refine refines_free (u := {p} + {c}) (by rw [block_some]; abel) ?_
          exact refines_free rfl (refines_pure ⟨rfl, rfl⟩)
        · refine refines_use (u := {dir.1} + {cur}) (by abel) ?_
          refine refines_free (u := {dir.1} + {cur}) (by abel) ?_
          exact refines_free rfl (refines_pure ⟨rfl, rfl⟩)

theorem lsLeaks_of_none {dir : Option Text} {showDeleted : Bool}
    (h : openListed fill s fresh dir = .ok none) :
    lsLeaks fill wcstombs s fresh dir showDeleted = 0 := by
  rw [lsLeaks, h]

theorem lsLeaks_of_some {dir : Option Text} {showDeleted : Bool} {entries : Bytes} {size n : ℕ}
    {t : Listed} (h : openListed fill s fresh dir = .ok (some (entries, size)))
    (hc : countedList fill wcstombs s.volume s.lfn entries size showDeleted = .ok (t, n)) :
    lsLeaks fill wcstombs s fresh dir showDeleted = n := by
  rw [lsLeaks, h]
  simp only [hc]

/-- The long names of the directory that is listed fit in `dis_full_name`. -/
def ListedNamesFit (fill : ℕ → UInt8) (wcstombs : ℕ → Option Text) (s : Session)
    (fresh : FatDirLayout) (dir : Option Text) (showDeleted : Bool) : Prop :=
  ∀ entries size, openListed fill s fresh dir = .ok (some (entries, size)) →
    NamesFit fill wcstombs s.volume s.lfn entries size showDeleted

theorem refines_ls {q : LfnBlocks} (h : Points q s.lfn) (hne : s.currentPath ≠ [])
    {dir : Option Text} {showDeleted : Bool} (hfit : safe → FitsBlock s.currentPath dir)
    (hnames : safe → ListedNamesFit fill wcstombs s fresh dir showDeleted) :
    Refines safe b.lent ({cur} + q.owned) (lsHeap fill wcstombs s fresh b cur q dir showDeleted)
      (ls fill wcstombs s fresh dir showDeleted) fun a b o => a.2 = b ∧ Points a.1 b.1.lfn ∧
        ∃ lost, o = {cur} + a.1.owned + lost ∧
          Multiset.card lost = lsLeaks fill wcstombs s fresh dir showDeleted := by
  unfold lsHeap ls
  refine refines_address hne hfit rfl fun p => ?_
  dsimp only
  split_ifs with hroot
  · have ho : openListed fill s fresh dir =
        .ok (some (s.volume.rootDir, s.volume.boot.rootEntryCount.toNat)) := if_pos hroot
    refine refines_listed b.root (w := {p} + {cur}) h (by abel)
      (fun _ _ hp => .inr (mem_lent.mpr (.inr (.inr hp)))) (fun hs => hnames hs _ _ ho) ?_
    intro q' t lost hc hp
    refine refines_free (u := {cur} + q'.owned + lost) (by abel) ?_
    exact refines_pure ⟨rfl, hp, lost, rfl, (lsLeaks_of_some ho hc).symm⟩
  · refine (refines_find fresh _).call (zero_add _).symm ?_
    rintro a r o hf ⟨rfl, rfl⟩
    have ho : openListed fill s fresh dir = (a.map Prod.snd).elim (.ok none)
        fun folder => parseDir fill s.volume s.image folder := by
      refine (if_neg hroot).trans ((congrArg (· >>= _) hf).trans ?_)
      cases a <;> rfl
    cases a with
    | none =>
        rw [Option.map_none, block_none, zero_add, add_assoc]
        refine refines_use rfl (refines_free rfl (refines_pure ⟨rfl, h, 0, (add_zero _).symm, ?_⟩))
        exact (lsLeaks_of_none ho).symm
    | some folder =>
        rw [Option.map_some, block_some]
        refine refines_use rfl ?_
        refine (refines_parseDir folder.2).call (zero_add _).symm ?_
        rintro a r o hd ⟨rfl, rfl⟩
        replace ho := ho.trans hd
        cases a with
        | none =>
            rw [Option.map_none, block_none, zero_add]
            refine refines_use (u := {folder.1} + {cur} + q.owned) (by abel) ?_
            refine refines_free (u := {p} + {cur} + q.owned) (by abel) ?_
            refine refines_free (u := {cur} + q.owned) (by abel) ?_
            exact refines_pure ⟨rfl, h, 0, (add_zero _).symm, (lsLeaks_of_none ho).symm⟩
        | some d =>
            rw [Option.map_some, block_some]
            refine refines_listed (some d.1) (w := {d.1} + {folder.1} + {p} + {cur}) h (by abel)
              (fun _ p hp => .inl ?_) (fun hs => hnames hs _ _ ho) ?_
            · rw [Option.mem_some_iff] at hp
              simp [hp]
            intro q' t lost hc hp
            refine refines_free (u := q'.owned + {d.1} + lost + {p} + {cur}) (by abel) ?_
            refine refines_free (u := q'.owned + lost + {p} + {cur}) (by abel) ?_
            refine refines_free (u := {cur} + q'.owned + lost) (by abel) ?_
            exact refines_pure ⟨rfl, hp, lost, rfl, (lsLeaks_of_some ho hc).symm⟩

/-- `dump` and `hdump` free what they allocate. -/
theorem refines_dump (hne : s.currentPath ≠ []) (format : Bytes → Line) {dir : Text}
    (hfit : safe → FitsBlock s.currentPath (some dir)) :
    Refines safe b.lent {cur} (dumpHeap fill s fresh b cur format dir)
      (dumpWith fill s fresh format dir) fun a b o => a = b ∧ o = {cur} := by
  unfold dumpHeap dumpWith
  refine refines_address hne hfit (add_zero _).symm fun p => ?_
  rw [add_zero]
  refine (refines_find fresh _).call (zero_add _).symm ?_
  rintro a r o - ⟨rfl, rfl⟩
  cases a with
  | none =>
      rw [Option.map_none, block_none, zero_add]
      exact refines_use rfl (refines_free rfl (refines_pure ⟨rfl, rfl⟩))
  | some file =>
      rw [Option.map_some, block_some]
      refine refines_use rfl ?_
      refine (refines_along refines_nextCluster (I := fun r t o => r = t ∧ o = 0) ?_ _ _
        ⟨rfl, rfl⟩).call (zero_add _).symm ?_
      · rintro r t o c ⟨rfl, rfl⟩
        exact refines_plain fun _ _ => ⟨rfl, rfl⟩
      · rintro r t o - ⟨rfl, rfl⟩
        rw [zero_add]
        exact refines_free rfl (refines_free rfl (refines_pure ⟨rfl, rfl⟩))

theorem refines_openParent (pndir : Text) :
    Refines safe b.lent 0 (openParentHeap fill s freshParent b pndir)
      (openParent fill s freshParent pndir) fun a b o => a.seen = b ∧ o = a.owned ∧
        a.owned.card = parentBlocks fill s freshParent pndir := by
  unfold openParentHeap openParent
  split_ifs with hroot
  · refine refines_pure ⟨rfl, rfl, ?_⟩
    rw [parentBlocks, if_pos hroot]
    rfl
  · refine (refines_find freshParent pndir).call (zero_add _).symm ?_
    rintro a r o hf ⟨rfl, rfl⟩
    cases a with
    | none => exact refines_error
    | some parent =>
        rw [Option.map_some, block_some]
        refine refines_use rfl ?_
        refine (refines_parseDirSized parent.2).call (zero_add _).symm ?_
        rintro ⟨a, n⟩ ⟨entries, m⟩ o hd ⟨⟨rfl, rfl⟩, rfl⟩
        have hcount : parentBlocks fill s freshParent pndir =
            match a with | some _ => 2 | none => 1 := by
          rw [parentBlocks, if_neg hroot, hf, Option.map_some]
          simp only [parseDir, hd, ok_bind]
          cases a <;> rfl
        rw [hcount]
        cases a with
        | none => exact refines_pure ⟨rfl, by simp [Opened.owned], rfl⟩
        | some d => exact refines_pure ⟨rfl, by simp [Opened.owned, add_comm], rfl⟩

theorem mem_array (a : Opened) (w : Multiset ℕ) :
    ∀ p ∈ a.array b, p ∈ a.owned + w ∨ p ∈ b.lent := by
  intro p hp
  rw [Opened.array] at hp
  split_ifs at hp
  · rw [Option.mem_def] at hp
    exact .inl (by simp [Opened.owned, hp])
  · exact .inr (mem_lent.mpr (.inr (.inr hp)))

theorem refines_mark (v : Volume) (a : Opened) (file : ℕ × FatDirLayout) (c : UInt8)
    (lines : List Line) :
    Refines safe b.lent (a.owned + {file.1} + {cur}) (markHeap s b v a file c lines)
      (markEntries s v (a.parent.map Prod.snd) a.entries a.size file.2 c >>= fun t =>
        .ok (t, lines)) fun x y o => x = y ∧ o = {cur} := by
  refine refines_useAny_of (fun _ => add_assoc a.owned _ _ ▸ mem_array a _) ?_
  refine refines_use (u := a.owned + {cur}) (by abel) ?_
  refine refines_table (refines_plain_bind fun t _ => ?_)
  refine refines_freeAny (u := block (a.parent.map Prod.fst) + {file.1} + {cur})
    (by rw [Opened.owned]; abel) ?_
  exact refines_freeAny (add_assoc _ _ _) (refines_free rfl (refines_pure ⟨rfl, rfl⟩))

/-- `delete` loses what it has opened where it finds no file. -/
theorem refines_delete (hne : s.currentPath ≠ []) {dir : Text}
    (hfit : safe → FitsBlock s.currentPath (some dir)) :
    Refines safe b.lent {cur} (deleteHeap fill s fresh freshParent b cur dir)
      (UserCommands.delete fill s fresh freshParent dir) fun a b o => a = b ∧
        ∃ lost, o = {cur} + lost ∧
          Multiset.card lost = deleteLeaks fill s fresh freshParent dir := by
  unfold deleteHeap UserCommands.delete
  refine refines_address hne hfit (add_zero _).symm fun p => ?_
  rw [add_zero]
  refine (refines_getParentPath (addressConvertor_ne_nil _ _)).aside (zero_add _).symm ?_
  rintro ⟨p', pndir⟩ o ⟨rfl, rfl⟩
  refine (refines_find fresh _).call (zero_add _).symm ?_
  rintro a r o hf ⟨rfl, rfl⟩
  refine refines_use (u := block (a.map Prod.fst) + {p} + {cur}) (by abel) ?_
  refine (refines_openParent _).call (zero_add _).symm ?_
  rintro a' r o ho ⟨rfl, rfl, hcount⟩
  refine refines_free (u := a'.owned + block (a.map Prod.fst) + {p'} + {cur}) (by abel) ?_
  refine refines_free (u := a'.owned + block (a.map Prod.fst) + {cur}) (by abel) ?_
  cases a with
  | none =>
      refine refines_pure ⟨rfl, a'.owned, by rw [Option.map_none, block_none]; abel, ?_⟩
      rw [hcount, deleteLeaks, hf]
      rfl
  | some file =>
      rw [Option.map_some, block_some]
      refine refines_use (u := a'.owned + {cur}) (by abel) (refines_table (refines_bak ?_))
      refine refines_plain_bind fun r _ => ?_
      refine (refines_mark r.1 a' file 0xE5 r.2).last (add_zero _).symm ?_
      rintro x y o - ⟨rfl, rfl⟩
      refine ⟨rfl, 0, rfl, ?_⟩
      rw [deleteLeaks, hf]
      rfl

theorem refines_undelete (hne : s.currentPath ≠ []) {dir : Text} (hdir : safe → dir ≠ [])
    (hfit : safe → FitsBlock s.currentPath (some (fixDeletedChar dir).1)) :
    Refines safe b.lent {cur} (undeleteHeap fill s fresh freshParent b cur dir)
      (UserCommands.undelete fill s fresh freshParent dir) fun a b o => a = b ∧ o = {cur} := by
  unfold undeleteHeap UserCommands.undelete
  refine (refines_fixDeletedChar hdir).aside (zero_add _).symm ?_
  rintro ⟨p'', ddir⟩ o ⟨rfl, rfl⟩
  refine refines_use rfl (refines_address (w := {p''}) hne hfit (add_comm _ _) fun p => ?_)
  refine (refines_getParentPath (addressConvertor_ne_nil _ _)).aside (zero_add _).symm ?_
  rintro ⟨p', pndir⟩ o ⟨rfl, rfl⟩
  refine (refines_find fresh _).call (zero_add _).symm ?_
  rintro a r o hf ⟨rfl, rfl⟩
  cases a with
  | none =>
      rw [Option.map_none, block_none, zero_add]
      refine refines_free (u := {p'} + {p} + {cur}) (by abel) ?_
      refine refines_free (u := {p'} + {cur}) (by abel) ?_
      exact refines_free rfl (refines_pure ⟨rfl, rfl⟩)
  | some file =>
      rw [Option.map_some, block_some]
      refine refines_use (u := {file.1} + ({p} + {cur} + {p''})) (by abel) ?_
      refine (refines_openParent _).call (zero_add _).symm ?_
      rintro a' r o ho ⟨rfl, rfl, -⟩
      refine refines_free (u := a'.owned + {file.1} + {p'} + {p} + {cur}) (by abel) ?_
      refine refines_free (u := a'.owned + {file.1} + {p'} + {cur}) (by abel) ?_
      refine refines_free (u := a'.owned + {file.1} + {cur}) (by abel) ?_
      refine refines_use (u := a'.owned + {cur}) (by abel) (refines_table (refines_bak ?_))
      exact refines_plain_bind fun v _ => refines_mark v a' file _ _

end Rules

end TFAT.HeapCommands
