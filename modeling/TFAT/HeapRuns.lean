import TFAT.HeapCommands
import TFAT.TypedRuns

/-!
# Runs on the heap

The shell with the blocks behind its globals. A round of `main` prints a prompt, reads a line into
a block, runs the command and frees the line. Along every run a round does with its blocks what
the command does without, where the strings that the command builds fit in their blocks and `cd`
has a volume: it uses no block that has been freed, stores nothing behind the end of one and frees
none twice. And the blocks of a run are those of the globals and the ones that its commands have
lost.
-/
namespace TFAT.HeapRuns
open LittleEndianWords DiskLayout ClusterTable VolumeMount PathText LongNames UserCommands
open ShellCommands ShellRuns ClusterTests OwnedBlocks HeapSearches HeapListings HeapCommands
open LeavingVolumes

/-- The pointers of the program. Each of the two formats has tables of its own. -/
structure Pointers where
  currentPath : ℕ
  label : ℕ
  fatTable : Fatn → Option ℕ
  fatTableBak : Fatn → Option ℕ
  rootDir : Option ℕ
  lfn : LfnBlocks

def startHeap : OnHeap Pointers := do
  let currentPath ← malloc
  let label ← malloc
  pure ⟨currentPath, label, fun _ => none, fun _ => none, none, .null⟩

/-- The pointers to the blocks of a volume of a format. -/
def Pointers.at (p : Pointers) (n : Fatn) : VolumeBlocks :=
  ⟨p.fatTable n, p.fatTableBak n, p.rootDir⟩

section Functions
variable (env : Env) (p : Pointers) (s : Shell) (i : Input)

def freeFatHeap (n : Fatn) : OnHeap Unit := do
  freeAny (p.fatTable n)
  freeAny (p.fatTableBak n)
  freeAny p.rootDir

def initFatHeap (n : Fatn) : OnHeap Pointers := do
  let table ← malloc
  let bak ← malloc
  let root ← malloc
  use table
  use bak
  use root
  pure { p with
    fatTable := Function.update p.fatTable n (some table)
    fatTableBak := Function.update p.fatTableBak n (some bak)
    rootDir := some root }

def mountHeap (dev : Text) (wflag : Bool) : OnHeap (Pointers × Shell) :=
  let file := env.canonical dev
  match s.files file, env.mayOpen file (if wflag then .rdwr else .rdonly) with
  | some img, true => do
      let v ← plain (initFat env.fill img)
      let p ← initFatHeap p v.fatn
      if v.boot.mediaType = 0 then do
        freeFatHeap p v.fatn
        plain (.error .died)
      else do
        let currentPath ← changeString p.currentPath none
        let newLabel ← malloc
        let label ← changeString p.label (some newLabel)
        free newLabel
        pure ({ p with currentPath := currentPath, label := label }, mountedShell s file wflag v)
  | _, _ => plain (.error .died)

/-- `write_fat`, which reads the first table and the root directory and stores to the second
table. A volume that is not writable stays as it is. -/
def writeFatHeap (b : VolumeBlocks) (fd : Fd) : OnHeap (Volume × FileDescriptor.Descriptor) :=
  if fd.writable then do
    useAny b.bak
    useAny b.table
    useAny b.root
    plain (writeFat s.volume ⟨s.image, 0⟩)
  else pure (s.volume, ⟨s.image, 0⟩)

def umountHeap : OnHeap (Pointers × Shell) :=
  match s.fd with
  | none => pure (p, s)
  | some fd => do
      let r ← writeFatHeap s (p.at s.volume.fatn) fd
      freeFatHeap p s.volume.fatn
      let currentPath ← changeString p.currentPath none
      let label ← changeString p.label none
      pure ({ p with currentPath := currentPath, label := label }, { s with
        files := Function.update s.files fd.file (some r.2.bytes)
        fd := none
        volume := freeFat r.1
        currentPath := noPath
        label := noLabel })

/-- `quit_command`, up to the call of `exit`. -/
def quitHeap : OnHeap (Pointers × Shell) := do
  let r ← umountHeap p s
  free r.1.currentPath
  free r.1.label
  pure r

/-- The loop of `test_cluster`, where `fs_test` reads each sector into a block. -/
def testSectorsHeap (v : Volume) (img : Bytes) (sec : ℕ) : ℕ → ℕ → OnHeap Bool
  | 0, _ => pure true
  | n + 1, i => do
      let buff ← malloc
      use buff
      free buff
      if fsTest img ((sec + i * sector v.boot) % 2 ^ 32) (sector v.boot) = 0 then pure false
      else testSectorsHeap v img sec n (i + 1)

def testFdHeap {α : Type} (body : OnHeap α) : OnHeap α :=
  if s.fd = none then plain (.error .died) else body

def testWFdHeap {α : Type} (body : OnHeap α) : OnHeap α :=
  match s.fd with
  | some ⟨_, true⟩ => body
  | _ => plain (.error .died)

/-- A command that reads the tables: the first one, and the second one for `test_fat`. -/
def tablesHeap (b : VolumeBlocks) (body : Except Fault Shell) : OnHeap (Pointers × Shell) := do
  useAny b.table
  if i.command = .testFat then useAny b.bak else pure ()
  let t ← plain body
  pure (p, t)

/-- A command that leaves a session. -/
def enterHeap (body : Session → OnHeap (Session × List Line)) : OnHeap (Pointers × Shell) := do
  let r ← body s.session
  pure (p, s.resume r.1)

def listingHeap (b : VolumeBlocks) (dir : Option Text) (showDeleted : Bool) :
    OnHeap (Pointers × Shell) := do
  let r ← lsHeap env.fill env.wcstombs s.session i.fresh b p.currentPath p.lfn dir showDeleted
  pure ({ p with lfn := r.1 }, s.resume r.2.1)

def performHeap : OnHeap (Pointers × Shell) :=
  let b := p.at s.volume.fatn
  match i.command with
  | .quit => quitHeap p s
  | .umount => umountHeap p s
  | .mount dev => mountHeap env p s dev false
  | .wmount dev => mountHeap env p s dev true
  | .cd path => do
      let r ← cdHeap env.fill s.session i.fresh b p.currentPath path
      pure ({ p with currentPath := r.1 }, s.resume r.2.1)
  | .ls dir => testFdHeap s (listingHeap env p s i b dir false)
  | .lsdel dir => testFdHeap s (listingHeap env p s i b dir true)
  | .chain index => testFdHeap s (tablesHeap p i b (look s (chain s.volume (index % 2 ^ 16))))
  | .fat answers => testFdHeap s (tablesHeap p i b (look s (fat s.volume answers)))
  | .dumpFat path => testFdHeap s (tablesHeap p i b (writeTable env s path))
  | .testFat => testFdHeap s (tablesHeap p i b (look s (testFat s.volume)))
  | .dump dir =>
      testFdHeap s (enterHeap p s fun r => dumpHeap env.fill r i.fresh b p.currentPath .chars dir)
  | .hdump dir =>
      testFdHeap s (enterHeap p s fun r => dumpHeap env.fill r i.fresh b p.currentPath .hexes dir)
  | .delete dir => testWFdHeap s
      (enterHeap p s fun r => deleteHeap env.fill r i.fresh i.freshParent b p.currentPath dir)
  | .undelete dir => testWFdHeap s
      (enterHeap p s fun r => undeleteHeap env.fill r i.fresh i.freshParent b p.currentPath dir)
  | .info => testFdHeap s (pure (p, s))
  | .test cluster => testFdHeap s do
      let _ ← testSectorsHeap s.volume s.image (s.volume.clusterToSector cluster % 2 ^ 32)
        s.volume.boot.sectorsPerCluster.toNat 0
      pure (p, s)
  | .showCommand | .other => pure (p, s)

/-- One round of `main`. The line is in a block that `readline` allocates; `quit` does not come
back to its `free`. -/
def roundHeap : OnHeap (Pointers × Shell) := do
  use p.label
  use p.currentPath
  let command ← malloc
  use command
  let r ← performHeap env p s i
  if i.command = .quit then pure r
  else do
    free command
    pure r

/-- The strings that the command builds fit in their blocks, and `cd` has a volume. -/
def StringsFit : Prop :=
  match i.command with
  | .cd path => s.fd ≠ none ∧ FitsBlock s.currentPath (some path)
  | .ls dir => s.fd ≠ none → FitsBlock s.currentPath dir ∧
      ListedNamesFit env.fill env.wcstombs s.session i.fresh dir false
  | .lsdel dir => s.fd ≠ none → FitsBlock s.currentPath dir ∧
      ListedNamesFit env.fill env.wcstombs s.session i.fresh dir true
  | .dump dir | .hdump dir | .delete dir => s.fd ≠ none → FitsBlock s.currentPath (some dir)
  | .undelete dir => s.fd ≠ none → dir ≠ [] ∧
      FitsBlock s.currentPath (some (fixDeletedChar dir).1)
  | _ => True

/-- The blocks that a command loses. -/
def leaks : ℕ :=
  match i.command with
  | .mount _ | .wmount _ => if s.fd = none then 0 else 3
  | .ls dir => lsLeaks env.fill env.wcstombs s.session i.fresh dir false
  | .lsdel dir => lsLeaks env.fill env.wcstombs s.session i.fresh dir true
  | .delete dir => deleteLeaks env.fill s.session i.fresh i.freshParent dir
  | _ => 0

end Functions

/-- The runs of `main` with its heap, from the start of the program. -/
inductive HeapRun (env : Env) (files : Text → Option Bytes) :
    List Done → Pointers → Shell → Heap → Prop
  | start {p : Pointers} {h : Heap} : startHeap Heap.initial = .ok (p, h) →
      HeapRun env files [] p (.initial files) h
  | round {trace : List Done} {p q : Pointers} {s t : Shell} {h h' : Heap} {i : Input} :
      HeapRun env files trace p s h → i.command ≠ .quit →
      roundHeap env p s i h = .ok ((q, t), h') → HeapRun env files (trace ++ [⟨i, s, t⟩]) q t h'

def Pointers.mounted (p : Pointers) (s : Shell) : Multiset ℕ :=
  if s.fd = none then 0 else (p.at s.volume.fatn).owned

def Pointers.owned (p : Pointers) (s : Shell) : Multiset ℕ :=
  {p.currentPath} + {p.label} + p.mounted s + p.lfn.owned

/-- The pointers of the mounted volume and of the parser are null where it has no block, and the
current path has a character. -/
structure Sound (p : Pointers) (s : Shell) : Prop where
  lfn : Points p.lfn s.lfn
  tables : s.fd ≠ none → (p.fatTable s.volume.fatn).isSome ∧
    (p.fatTableBak s.volume.fatn).isSome ∧ p.rootDir.isSome
  path : s.currentPath ≠ []

/-- Behind a command the program owns the blocks of the globals, and `n` others. -/
def Leaves (n : ℕ) (a : Pointers × Shell) (t : Shell) (o : Multiset ℕ) : Prop :=
  a.2 = t ∧ Sound a.1 t ∧ ∃ lost, o = a.1.owned t + lost ∧ lost.card = n

section Globals
variable {env : Env} {p : Pointers} {s : Shell} {i : Input} {n : ℕ} {safe : Prop} {lent : Set ℕ}

theorem leaves_of_sound (h : Sound p s) : Leaves 0 (p, s) s (p.owned s) :=
  ⟨rfl, h, 0, (add_zero _).symm, rfl⟩

theorem card_block_of_isSome {q : Option ℕ} (h : q.isSome) : (block q).card = 1 := by
  obtain ⟨x, rfl⟩ := Option.isSome_iff_exists.mp h
  rfl

theorem mounted_of_fd (hfd : s.fd ≠ none) : p.mounted s = (p.at s.volume.fatn).owned :=
  if_neg hfd

theorem Sound.card_mounted (h : Sound p s) :
    (p.mounted s).card = if s.fd = none then 0 else 3 := by
  unfold Pointers.mounted
  split_ifs with hfd
  · rfl
  · obtain ⟨h₁, h₂, h₃⟩ := h.tables hfd
    rw [VolumeBlocks.owned, Multiset.card_add, Multiset.card_add]
    change (block (p.fatTable _)).card + (block (p.fatTableBak _)).card + (block p.rootDir).card = 3
    rw [card_block_of_isSome h₁, card_block_of_isSome h₂, card_block_of_isSome h₃]

theorem Sound.card_owned (h : Sound p s) :
    (p.owned s).card = 2 + (if s.fd = none then 0 else 3) + countBlocks s.lfn := by
  rw [Pointers.owned, Multiset.card_add, Multiset.card_add, Multiset.card_add, h.card_mounted,
    h.lfn.card_owned]
  rfl

theorem refines_freeFat {α β : Type} {o w : Multiset ℕ} {m : Fatn} {k : Unit → OnHeap α}
    {r : Except Fault β} {Q : α → β → Multiset ℕ → Prop} (ho : o = (p.at m).owned + w)
    (h : Refines safe lent w (k ()) r Q) : Refines safe lent o (freeFatHeap p m >>= k) r Q := by
  simp only [freeFatHeap, bind_assoc]
  refine refines_freeAny (u := block (p.fatTableBak m) + block p.rootDir + w)
    (by rw [ho, VolumeBlocks.owned]; simp only [Pointers.at]; abel) ?_
  exact refines_freeAny (add_assoc _ _ _) (refines_freeAny rfl h)

/-- Mounting overwrites the pointers to the blocks of a mounted volume. -/
theorem refines_mount (h : Sound p s) (dev : Text) (wflag : Bool) :
    Refines safe lent (p.owned s) (mountHeap env p s dev wflag) (mount env s dev wflag)
      (Leaves (if s.fd = none then 0 else 3)) := by
  unfold mountHeap mount
  simp only
  cases s.files (env.canonical dev) with
  | none => exact refines_error
  | some img =>
      cases env.mayOpen (env.canonical dev) (if wflag then .rdwr else .rdonly) with
      | false => exact refines_error
      | true =>
          refine refines_plain_bind fun v _ => ?_
          simp only [initFatHeap, bind_assoc, pure_bind]
          refine refines_malloc fun table => refines_malloc fun bak => refines_malloc fun root => ?_
          refine refines_use_of (fun _ => .inl (by simp)) ?_
          refine refines_use_of (fun _ => .inl (by simp)) ?_
          refine refines_use_of (fun _ => .inl (by simp)) ?_
          by_cases hm : v.boot.mediaType = 0
          · rw [if_pos hm, if_pos hm]
            refine refines_freeFat (w := p.owned s) ?_ refines_error
            simp only [VolumeBlocks.owned, Pointers.at, Function.update_self, block_some]
            abel
          · rw [if_neg hm, if_neg hm]
            refine refines_changeString
              (w := {root} + {bak} + {table} + {p.label} + p.mounted s + p.lfn.owned)
              (by rw [block_none, Pointers.owned]; abel) fun cur => ?_
            refine refines_malloc fun newLabel => ?_
            refine refines_changeString
              (w := {cur} + {root} + {bak} + {table} + p.mounted s + p.lfn.owned)
              (by rw [block_none, block_some]; abel) fun label => ?_
            refine refines_free (u := {label} + {cur} + {root} + {bak} + {table} + p.mounted s +
              p.lfn.owned) (by rw [block_some]; abel) (refines_pure ⟨rfl, ⟨h.lfn, fun _ => ?_,
                by simp⟩, p.mounted s, ?_, h.card_mounted⟩)
            · simp only [Function.update_self]
              exact ⟨rfl, rfl, rfl⟩
            · simp only [Pointers.owned, Pointers.mounted, VolumeBlocks.owned, Pointers.at,
                reduceCtorEq, if_false, Function.update_self, block_some]
              abel

theorem umount_bind {fd : Fd} (hfd : s.fd = some fd) : umount s =
    (if fd.writable then writeFat s.volume ⟨s.image, 0⟩ else .ok (s.volume, ⟨s.image, 0⟩)) >>=
      fun r => .ok { s with
        files := Function.update s.files fd.file (some r.2.bytes)
        fd := none
        volume := freeFat r.1
        currentPath := noPath
        label := noLabel } := by
  rw [umount, hfd]
  dsimp only
  split_ifs <;> rfl

theorem refines_writeFat (b : VolumeBlocks) (fd : Fd) :
    Refines safe b.lent 0 (writeFatHeap s b fd)
      (if fd.writable then writeFat s.volume ⟨s.image, 0⟩ else .ok (s.volume, ⟨s.image, 0⟩))
      fun a r o => a = r ∧ o = 0 := by
  unfold writeFatHeap
  split_ifs
  · refine refines_bak (refines_table (refines_root ?_))
    exact refines_plain fun _ _ => ⟨rfl, rfl⟩
  · exact refines_pure ⟨rfl, rfl⟩

theorem refines_umount (h : Sound p s) :
    Refines safe lent (p.owned s) (umountHeap p s) (umount s) (Leaves 0) := by
  unfold umountHeap
  cases hfd : s.fd with
  | none =>
      rw [umount, hfd]
      exact refines_pure (leaves_of_sound h)
  | some fd =>
      rw [umount_bind hfd]
      have hm : p.mounted s = (p.at s.volume.fatn).owned := mounted_of_fd (by simp [hfd])
      refine (refines_writeFat _ fd).lend (zero_add _).symm (fun _ q hq => .inl ?_) ?_
      · rw [Pointers.owned, hm]
        exact Multiset.mem_add.mpr (.inl (Multiset.mem_add.mpr (.inr hq)))
      rintro r r' o - ⟨rfl, rfl⟩
      rw [zero_add]
      refine refines_freeFat (w := {p.currentPath} + {p.label} + p.lfn.owned)
        (by rw [Pointers.owned, hm]; abel) ?_
      refine refines_changeString (w := {p.label} + p.lfn.owned)
        (by rw [block_none]; abel) fun cur => ?_
      refine refines_changeString (w := {cur} + p.lfn.owned) (by rw [block_none]; abel)
        fun label => ?_
      refine refines_pure ⟨rfl, ⟨h.lfn, fun hn => absurd rfl hn, by simp [noPath]⟩, 0, ?_, rfl⟩
      simp only [Pointers.owned, Pointers.mounted, if_true, block_none]
      abel

/-- `quit` frees the strings of the globals as well. -/
theorem refines_quit (h : Sound p s) :
    Refines safe lent (p.owned s) (quitHeap p s) (umount s) fun a t _ => a.2 = t := by
  refine (refines_umount h).ended (add_zero _).symm ?_
  rintro ⟨q, t⟩ u o - ⟨rfl, -, lost, rfl, -⟩
  refine refines_free (u := {q.label} + q.mounted t + q.lfn.owned + lost)
    (by rw [Pointers.owned]; abel) ?_
  exact refines_free (u := q.mounted t + q.lfn.owned + lost) (by abel) (refines_pure rfl)

theorem refines_testSectors (v : Volume) (img : Bytes) (sec n i : ℕ) :
    Refines safe lent 0 (testSectorsHeap v img sec n i)
      (.ok (testSectors v img sec n i) : Except Fault Bool) fun a b o => a = b ∧ o = 0 := by
  induction n generalizing i with
  | zero => exact refines_pure ⟨rfl, rfl⟩
  | succ n ih =>
      rw [testSectorsHeap, testSectors]
      refine refines_malloc fun buff => refines_use rfl (refines_free rfl ?_)
      split_ifs
      · exact refines_pure ⟨rfl, rfl⟩
      · exact ih (i + 1)

theorem refines_testFd {α β : Type} {o : Multiset ℕ} {x : OnHeap α} {r : Except Fault β}
    {Q : α → β → Multiset ℕ → Prop} (h : s.fd ≠ none → Refines safe lent o x r Q) :
    Refines safe lent o (testFdHeap s x) (testFd s r) Q := by
  unfold testFdHeap testFd
  split_ifs with hfd
  · exact refines_error
  · exact h hfd

theorem refines_testWFd {α β : Type} {o : Multiset ℕ} {x : OnHeap α} {r : Except Fault β}
    {Q : α → β → Multiset ℕ → Prop} (h : s.fd ≠ none → Refines safe lent o x r Q) :
    Refines safe lent o (testWFdHeap s x) (testWFd s r) Q := by
  unfold testWFdHeap testWFd
  cases hfd : s.fd with
  | none => exact refines_error
  | some fd =>
      obtain ⟨file, writable⟩ := fd
      cases writable with
      | true => exact h (by simp [hfd])
      | false => exact refines_error

theorem refines_tables (hfd : s.fd ≠ none) {body : Except Fault Shell}
    (hb : ∀ t, body = .ok t → Sound p t ∧ p.owned t = p.owned s) :
    Refines safe lent (p.owned s) (tablesHeap p i (p.at s.volume.fatn) body) body (Leaves 0) := by
  have hm {q : Option ℕ} (hq : ∀ x ∈ q, x ∈ (p.at s.volume.fatn).owned) (x : ℕ) (hx : x ∈ q) :
      x ∈ p.owned s ∨ x ∈ lent := by
    rw [Pointers.owned, mounted_of_fd hfd]
    exact .inl (Multiset.mem_add.mpr (.inl (Multiset.mem_add.mpr (.inr (hq x hx)))))
  have hend : Refines safe lent (p.owned s) (plain body >>= fun t => pure (p, t)) body
      (Leaves 0) := by
    refine refines_plain_last fun t ht => ?_
    obtain ⟨hp, ho⟩ := hb t ht
    exact ho ▸ refines_pure (leaves_of_sound hp)
  unfold tablesHeap
  refine refines_useAny_of (fun _ => hm fun x hx => mem_lent.mpr (.inl hx)) ?_
  split_ifs
  · exact refines_useAny_of (fun _ => hm fun x hx => mem_lent.mpr (.inr (.inl hx))) hend
  · exact hend

theorem owned_resume {r : Session} (hv : r.volume.fatn = s.volume.fatn) :
    p.owned (s.resume r) = p.owned s := by
  simp only [Pointers.owned, Pointers.mounted, Shell.resume, hv]

theorem Sound.resume {q : Pointers} {r : Session} (h : Sound p s)
    (hv : r.volume.fatn = s.volume.fatn) (hq : q.fatTable = p.fatTable)
    (hb : q.fatTableBak = p.fatTableBak) (hr : q.rootDir = p.rootDir)
    (hl : Points q.lfn r.lfn) (hpath : r.currentPath ≠ []) : Sound q (s.resume r) := by
  refine ⟨hl, fun hfd => ?_, hpath⟩
  rw [hq, hb, hr, show (s.resume r).volume.fatn = s.volume.fatn from hv]
  exact h.tables hfd

theorem mem_mounted_add {w : Multiset ℕ} (hfd : s.fd ≠ none) {x : ℕ}
    (hx : x ∈ (p.at s.volume.fatn).lent) : x ∈ {p.label} + p.mounted s + w ∨ x ∈ lent := by
  rw [mounted_of_fd hfd]
  exact .inl (Multiset.mem_add.mpr (.inl (Multiset.mem_add.mpr (.inr hx))))

/-- A command that leaves a session and the blocks of the parser. The blocks of the volume are
lent to it. -/
theorem refines_enter {x : Session → OnHeap (Session × List Line)}
    {body : Session → Except Fault (Session × List Line)} (h : Sound p s) (hfd : s.fd ≠ none)
    (hx : Refines safe (p.at s.volume.fatn).lent {p.currentPath} (x s.session) (body s.session)
      fun a b o => a = b ∧ ∃ lost, o = {p.currentPath} + lost ∧ Multiset.card lost = n)
    (hb : ∀ r, body s.session = .ok r →
      r.1.volume.fatn = s.volume.fatn ∧ r.1.lfn = s.lfn ∧ r.1.currentPath = s.currentPath) :
    Refines safe lent (p.owned s) (enterHeap p s x) (enter s body) (Leaves n) := by
  refine hx.lend (w := {p.label} + p.mounted s + p.lfn.owned)
    (by rw [Pointers.owned]; abel) (fun _ _ => mem_mounted_add hfd) ?_
  rintro r b o hr ⟨rfl, lost, rfl, hn⟩
  obtain ⟨hv, hl, hpath⟩ := hb r hr
  refine refines_pure ⟨rfl, h.resume hv rfl rfl rfl (hl.symm ▸ h.lfn) (hpath.symm ▸ h.path),
    lost, ?_, hn⟩
  rw [owned_resume hv, Pointers.owned]
  abel

theorem refines_moving (h : Sound p s) (path : Text)
    (hfit : safe → s.fd ≠ none ∧ FitsBlock s.currentPath (some path)) :
    Refines safe lent (p.owned s)
      (cdHeap env.fill s.session i.fresh (p.at s.volume.fatn) p.currentPath path >>= fun r =>
        pure ({ p with currentPath := r.1 }, s.resume r.2.1))
      (enter s fun r => cd env.fill r i.fresh path) (Leaves 0) := by
  refine (refines_cd (s := s.session) h.path fun hs => (hfit hs).2).lend
    (w := {p.label} + p.mounted s + p.lfn.owned) (by rw [Pointers.owned]; abel)
    (fun hs _ => mem_mounted_add (hfit hs).1) ?_
  rintro ⟨cur, r⟩ b o hr ⟨rfl, rfl⟩
  have hpath : r.1.currentPath ≠ [] := by
    rcases cd_cases hr with hs | ⟨npath, rfl, hs, -⟩
    · rw [hs]
      exact h.path
    · rw [hs]
      exact addressConvertor_ne_nil _ _
  obtain ⟨npath, hs⟩ := cd_result hr
  have hv : r.1.volume.fatn = s.volume.fatn := by rw [hs]; rfl
  refine refines_pure ⟨rfl, h.resume hv rfl rfl rfl (by rw [hs]; exact h.lfn) hpath, 0, ?_, rfl⟩
  rw [owned_resume (p := { p with currentPath := cur }) hv, Pointers.owned]
  change _ = {cur} + {p.label} + p.mounted s + p.lfn.owned + 0
  abel

theorem refines_listing (h : Sound p s) (hfd : s.fd ≠ none) (dir : Option Text)
    (showDeleted : Bool) (hfit : safe → FitsBlock s.currentPath dir ∧
      ListedNamesFit env.fill env.wcstombs s.session i.fresh dir showDeleted) :
    Refines safe lent (p.owned s) (listingHeap env p s i (p.at s.volume.fatn) dir showDeleted)
      (enter s fun r => ls env.fill env.wcstombs r i.fresh dir showDeleted)
      (Leaves (lsLeaks env.fill env.wcstombs s.session i.fresh dir showDeleted)) := by
  refine (refines_ls (s := s.session) h.lfn h.path (fun hs => (hfit hs).1)
    fun hs => (hfit hs).2).lend (w := {p.label} + p.mounted s + 0)
    (by rw [Pointers.owned]; abel) (fun _ _ => mem_mounted_add hfd) ?_
  rintro ⟨q, r⟩ b o hr ⟨rfl, hp, lost, rfl, hn⟩
  obtain ⟨lfn, hs⟩ := ls_result hr
  have hv : r.1.volume.fatn = s.volume.fatn := by rw [hs]; rfl
  refine refines_pure ⟨rfl, h.resume hv rfl rfl rfl hp (by rw [hs]; exact h.path), lost, ?_, hn⟩
  rw [owned_resume (p := { p with lfn := q }) hv, Pointers.owned]
  change _ = {p.currentPath} + {p.label} + p.mounted s + q.owned + lost
  abel

/-- A command does with its blocks what it does without, keeps the blocks of the globals and
loses as many as are counted. -/
theorem refines_perform (h : Sound p s) (hq : i.command ≠ .quit) :
    Refines (StringsFit env s i) lent (p.owned s) (performHeap env p s i) (perform env s i)
      (Leaves (leaks env s i)) := by
  obtain ⟨c, fresh, freshParent⟩ := i
  have hsame : Refines (StringsFit env s ⟨c, fresh, freshParent⟩) lent (p.owned s)
      (pure (p, s) : OnHeap (Pointers × Shell)) (.ok s : Except Fault Shell) (Leaves 0) :=
    refines_pure (leaves_of_sound h)
  have hlook {α : Type} {body : Except Fault α} (t : Shell) (ht : look s body = .ok t) :
      Sound p t ∧ p.owned t = p.owned s := by
    rw [look_eq_ok ht]
    exact ⟨h, rfl⟩
  cases c with
  | quit => exact absurd rfl hq
  | umount => exact refines_umount h
  | mount dev => exact refines_mount h dev false
  | wmount dev => exact refines_mount h dev true
  | cd path => exact refines_moving (i := ⟨.cd path, fresh, freshParent⟩) h path id
  | ls dir =>
      exact refines_testFd fun hfd =>
        refines_listing (i := ⟨.ls dir, fresh, freshParent⟩) h hfd dir false fun hs => hs hfd
  | lsdel dir =>
      exact refines_testFd fun hfd =>
        refines_listing (i := ⟨.lsdel dir, fresh, freshParent⟩) h hfd dir true fun hs => hs hfd
  | chain index | fat answers | testFat =>
      exact refines_testFd fun hfd => refines_tables hfd hlook
  | dumpFat path =>
      refine refines_testFd fun hfd => refines_tables hfd fun t ht => ?_
      unfold writeTable at ht
      simp only at ht
      split_ifs at ht
      obtain ⟨data, -, ht⟩ := bind_eq_ok.mp ht
      rw [← Except.ok.inj ht]
      exact ⟨⟨h.lfn, h.tables, h.path⟩, rfl⟩
  | dump dir | hdump dir =>
      refine refines_testFd fun hfd => refines_enter h hfd ?_ fun r hr => ?_
      · refine (refines_dump h.path _ fun hs => hs hfd).mono ?_
        rintro a b o ⟨rfl, rfl⟩
        exact ⟨rfl, 0, (add_zero _).symm, rfl⟩
      · rw [dumpWith_result hr]
        exact ⟨rfl, rfl, rfl⟩
  | delete dir =>
      refine refines_testWFd fun hfd =>
        refines_enter h hfd (refines_delete h.path fun hs => hs hfd) fun r hr => ?_
      obtain ⟨w, img, hs⟩ := delete_result hr
      exact ⟨(MirroredTables.mirrored_of_delete hr).fatn, by rw [hs]; rfl, by rw [hs]; rfl⟩
  | undelete dir =>
      refine refines_testWFd fun hfd => refines_enter h hfd ?_ fun r hr => ?_
      · refine (refines_undelete h.path (fun hs => (hs hfd).1) fun hs => (hs hfd).2).mono ?_
        rintro a b o ⟨rfl, rfl⟩
        exact ⟨rfl, 0, (add_zero _).symm, rfl⟩
      · obtain ⟨w, img, hs⟩ := undelete_result hr
        exact ⟨(MirroredTables.mirrored_of_undelete hr).fatn, by rw [hs]; rfl, by rw [hs]; rfl⟩
  | info => exact refines_testFd fun _ => hsame
  | test cluster =>
      refine refines_testFd fun _ => ?_
      refine (refines_testSectors _ _ _ _ _).aside (zero_add _).symm ?_
      rintro a o ⟨rfl, rfl⟩
      rw [zero_add]
      exact hsame
  | showCommand | other => exact hsame

theorem refines_prompt {α β : Type} {k : OnHeap α} {r : Except Fault β}
    {Q : α → β → Multiset ℕ → Prop} (h : Refines safe lent (p.owned s) k r Q) :
    Refines safe lent (p.owned s) (use p.label >>= fun _ => use p.currentPath >>= fun _ => k)
      r Q := by
  refine refines_use (u := {p.currentPath} + p.mounted s + p.lfn.owned)
    (by rw [Pointers.owned]; abel) ?_
  exact refines_use (u := {p.label} + p.mounted s + p.lfn.owned)
    (by rw [Pointers.owned]; abel) h

variable (env i) in
/-- The line of a round is freed. -/
theorem refines_round (h : Sound p s) (hq : i.command ≠ .quit) :
    Refines (StringsFit env s i) lent (p.owned s) (roundHeap env p s i) (perform env s i)
      (Leaves (leaks env s i)) := by
  refine refines_prompt (refines_malloc fun command => refines_use rfl ?_)
  simp only [if_neg hq]
  refine (refines_perform h hq).ended (w := {command}) (add_comm _ _) ?_
  rintro ⟨q, t⟩ b o ht ⟨rfl, hq, lost, rfl, hn⟩
  exact refines_free (add_comm _ _) (refines_pure ⟨rfl, hq, lost, rfl, hn⟩)

variable (env i) in
theorem refines_round_result (h : Sound p s) :
    Refines (StringsFit env s i) lent (p.owned s) (roundHeap env p s i) (perform env s i)
      fun a t _ => a.2 = t := by
  by_cases hq : i.command = .quit
  · refine refines_prompt (refines_malloc fun command => refines_use rfl ?_)
    have hround : performHeap env p s i = quitHeap p s := by rw [performHeap, hq]
    have hperform : perform env s i = umount s := by rw [perform, hq]
    simp only [if_pos hq, bind_pure, hround, hperform]
    exact (refines_quit h).last (w := {command}) (add_comm _ _) fun _ _ _ _ ha => ha
  · exact (refines_round env i h hq).mono fun _ _ _ ha => ha.1

end Globals

/-- The blocks that the commands of a run have lost. -/
def lostBlocks (env : Env) (trace : List Done) : ℕ :=
  (trace.map fun d => leaks env d.start d.input).sum

section Runs
variable {env : Env} {files : Text → Option Bytes} {trace : List Done} {p q : Pointers}
variable {s t : Shell} {h h' : Heap} {i : Input}

theorem startHeap_live (h₀ : startHeap Heap.initial = .ok (p, h)) :
    Sound p (.initial files) ∧ h.live = p.owned (.initial files) := by
  obtain ⟨rfl, rfl⟩ := Prod.mk.inj (Except.ok.inj h₀)
  refine ⟨⟨⟨rfl, rfl⟩, fun hfd => absurd rfl hfd, by simp [Shell.initial, noPath]⟩, ?_⟩
  change ({1} + ({0} + 0) : Multiset ℕ) = {0} + {1} + 0 + (0 + 0)
  abel

theorem round_live {lost : Multiset ℕ} (hp : Sound p s) (hl : h.live = p.owned s + lost)
    (hc : i.command ≠ .quit) (ht : roundHeap env p s i h = .ok ((q, t), h')) :
    perform env s i = .ok t ∧ Sound q t ∧
      ∃ more, h'.live = q.owned t + (more + lost) ∧ more.card = leaks env s i := by
  rcases (refines_round env i hp hc).alone hl with ⟨hbad, -⟩ | ⟨he, hok⟩
  · simp [hbad] at ht
  cases hr : perform env s i with
  | error e => simp [he e hr] at ht
  | ok u =>
      obtain ⟨⟨q', t'⟩, h'', o', hx, hl', rfl, hq, more, rfl, hn⟩ := hok u hr
      obtain ⟨hqt, rfl⟩ := Prod.mk.inj (Except.ok.inj (hx.symm.trans ht))
      obtain ⟨rfl, rfl⟩ := Prod.mk.inj hqt
      exact ⟨rfl, hq, more, by rw [hl', add_assoc], hn⟩

theorem owned_of_heapRun (h₀ : HeapRun env files trace p s h) : Sound p s ∧
    ∃ lost, h.live = p.owned s + lost ∧ lost.card = lostBlocks env trace := by
  induction h₀ with
  | start h₀ =>
      obtain ⟨hp, hl⟩ := startHeap_live h₀
      exact ⟨hp, 0, by rw [hl, add_zero], rfl⟩
  | round _ hc ht ih =>
      obtain ⟨hp, lost, hl, hn⟩ := ih
      obtain ⟨-, hq, more, hl', hm⟩ := round_live hp hl hc ht
      refine ⟨hq, more + lost, hl', ?_⟩
      rw [Multiset.card_add, hm, hn, lostBlocks, lostBlocks, List.map_append, List.sum_append]
      exact Nat.add_comm _ _

/-- A step of the shell is a round that returns, of a command that does not quit. -/
theorem step_eq_running_iff :
    step env s i = .ok (.running t) ↔ i.command ≠ .quit ∧ perform env s i = .ok t := by
  rw [step]
  cases perform env s i with
  | error e => cases e <;> simp
  | ok u =>
      by_cases hc : i.command = .quit <;> simp [hc]

theorem round_of_error {e : Fault} (h₀ : HeapRun env files trace p s h) (hf : StringsFit env s i)
    (he : perform env s i = .error e) : roundHeap env p s i h = .error (some e) := by
  obtain ⟨hp, lost, hl, -⟩ := owned_of_heapRun h₀
  exact (((refines_round_result env i hp).alone hl).resolve_left
    fun hbad => hbad.2 hf).1 e he

theorem exists_round (h₀ : HeapRun env files trace p s h) (hf : StringsFit env s i)
    (ht : perform env s i = .ok t) : ∃ q h', roundHeap env p s i h = .ok ((q, t), h') := by
  obtain ⟨hp, lost, hl, -⟩ := owned_of_heapRun h₀
  obtain ⟨-, hok⟩ := ((refines_round_result env i hp).alone hl).resolve_left
    fun hbad => hbad.2 hf
  obtain ⟨⟨q, t'⟩, h', o', hx, -, rfl⟩ := hok t ht
  exact ⟨q, h', hx⟩

/-- A round of a run does what its command does without a heap, where the strings that it builds
fit in their blocks and `cd` has a volume. It fails where the command fails and nowhere else: no
block is used behind its `free`, none is freed twice and nothing is stored behind the end of one. -/
theorem round_of_heapRun (h₀ : HeapRun env files trace p s h) (hf : StringsFit env s i) :
    (roundHeap env p s i h).map (fun r => r.1.2) = (perform env s i).mapError some := by
  cases hr : perform env s i with
  | error e =>
      rw [round_of_error h₀ hf hr]
      rfl
  | ok t =>
      obtain ⟨q, h', hx⟩ := exists_round h₀ hf hr
      rw [hx]
      rfl

/-- A run with the heap is a run of the shell. -/
theorem history_of_heapRun (h₀ : HeapRun env files trace p s h) :
    History env (.initial files) trace s := by
  induction h₀ with
  | start _ => exact .start
  | round h₀ hc ht ih =>
      obtain ⟨hp, lost, hl, -⟩ := owned_of_heapRun h₀
      exact .step ih (step_eq_running_iff.mpr ⟨hc, (round_live hp hl hc ht).1⟩)

/-- Where the strings of the commands fit, a run of the shell is one with the heap. -/
theorem heapRun_of_history (h₀ : History env (.initial files) trace s)
    (hf : ∀ d ∈ trace, StringsFit env d.start d.input) : ∃ p h, HeapRun env files trace p s h := by
  induction h₀ with
  | start => exact ⟨_, _, .start rfl⟩
  | @step trace s t i _ ht ih =>
      obtain ⟨p, h, h₀⟩ := ih fun d hd => hf d (by simp [hd])
      obtain ⟨hc, hp⟩ := step_eq_running_iff.mp ht
      obtain ⟨q, h', hr⟩ := exists_round h₀ (hf ⟨i, s, t⟩ (by simp)) hp
      exact ⟨q, h', .round h₀ hc hr⟩

/-- The blocks that are allocated in a run. -/
theorem live_of_heapRun (h₀ : HeapRun env files trace p s h) :
    h.live.card = 2 + (if s.fd = none then 0 else 3) + countBlocks s.lfn +
      lostBlocks env trace := by
  obtain ⟨hp, lost, hl, hn⟩ := owned_of_heapRun h₀
  rw [hl, Multiset.card_add, hp.card_owned, hn]

theorem subFileShell_heapRun : ∃ trace p h,
    HeapRun subFileEnv subFileFiles trace p subFileShell h := by
  obtain ⟨p, h, h₀⟩ := heapRun_of_history (.step .start subFileShell_mounted)
    (by simp [StringsFit, input])
  exact ⟨_, p, h, h₀⟩

theorem round_deleteFile : ∃ trace p h, HeapRun subFileEnv subFileFiles trace p subFileShell h ∧
    (roundHeap subFileEnv p subFileShell deleteFile h).map (fun r => r.1.2) =
      (perform subFileEnv subFileShell deleteFile).mapError some := by
  obtain ⟨trace, p, h, h₀⟩ := subFileShell_heapRun
  exact ⟨trace, p, h, h₀, round_of_heapRun h₀ fun _ => by
    unfold FitsBlock
    decide⟩

theorem subFileShell_remounted : step subFileEnv subFileShell (input (.wmount [0x56])) =
    .ok (.running subFileShell) :=
  subFileVolume_mounted subFileFiles_stored

/-- The second mount loses the three blocks of the first one. -/
theorem live_behind_wmount : ∃ trace p h, HeapRun subFileEnv subFileFiles trace p subFileShell h ∧
    trace.length = 2 ∧ h.live.card = 8 := by
  obtain ⟨p, h, h₀⟩ := heapRun_of_history
    (.step (.step .start subFileShell_mounted) subFileShell_remounted) (by simp [StringsFit, input])
  exact ⟨_, p, h, h₀, rfl, live_of_heapRun h₀⟩

end Runs

end TFAT.HeapRuns
