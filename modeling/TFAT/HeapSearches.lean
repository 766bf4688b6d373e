import Mathlib.Tactic.Abel
import TFAT.OwnedBlocks
import TFAT.PathResolution

/-!
# Searches on the heap

The functions that build strings, search directories and follow paths once more, with the blocks
that they allocate, use and free. The blocks of the mounted volume are lent to them. What they
compute is what the functions without the heap compute, as long as a converted path fits in its
block, and `find` gives its caller one block: everything else that it allocates it frees, also
where it gives up.
-/
namespace TFAT.HeapSearches
open LittleEndianWords LinkedChains DiskLayout ClusterTable DirectoryIO PathText EntryNames
open PathResolution OwnedBlocks

abbrev OnHeap := Heaped Fault

/-- The pointers to the tables and to the root directory of a volume. -/
structure VolumeBlocks where
  table : Option ℕ
  bak : Option ℕ
  root : Option ℕ

def VolumeBlocks.owned (b : VolumeBlocks) : Multiset ℕ := block b.table + block b.bak + block b.root

def VolumeBlocks.lent (b : VolumeBlocks) : Set ℕ := {p | p ∈ b.owned}

def getParentPathHeap (path : Text) : OnHeap (ℕ × Text) := do
  let ret ← malloc
  within ((getParentPath path).length + 1) (path.length + 1)
  pure (ret, getParentPath path)

def fixDeletedCharHeap (path : Text) : OnHeap (ℕ × Text × UInt8) := do
  let ret ← malloc
  within ((fixDeletedChar path).1.length + 1) (path.length + 1)
  pure (ret, fixDeletedChar path)

/-- The block that `address_convertor` builds its string in, where `cur` is the block of
`current_path`. -/
def convertedBlock (cur : ℕ) (currentPath : Text) : Option Text → OnHeap ℕ
  | none => do
      use cur
      malloc
  | some path =>
      if path[0]? = some dot ∧ path[1]? = some dot then do
        use cur
        let parent ← getParentPathHeap currentPath
        realloc (some parent.1)
      else if path[0]? = some dot then do
        use cur
        let copy ← malloc
        realloc (some copy)
      else if path[0]? = some slash then malloc
      else do
        use cur
        malloc

def addressConvertorHeap (cur : ℕ) (currentPath : Text) (path : Option Text) :
    OnHeap (ℕ × Text) := do
  let ret ← convertedBlock cur currentPath path
  let built := addressConvertor currentPath path
  within (built.text.length + 1) built.room
  pure (ret, built.text)

def getNameHeap (e : FatDirLayout) : OnHeap (Option (ℕ × Text)) :=
  match baseName e with
  | none => pure none
  | some name => do
      let ret ← malloc
      pure (some (ret, name))

def getExtensionHeap (e : FatDirLayout) : OnHeap (ℕ × Text) := do
  let ret ← malloc
  pure (ret, getExtension e.extention e.caseInformation)

def takeString (temp : ℕ × Text) : OnHeap Text := do
  use temp.1
  free temp.1
  pure temp.2

/-- The test of a file in `search`; `none` where it goes on to the test of a directory. -/
def matchesFileHeap (e : FatDirLayout) (term : Text) : OnHeap (Option Bool) :=
  if e.fileSize != 0 && !isSpecial e.attr then do
    match ← getNameHeap e with
    | none => pure (some false)
    | some temp => do
        let name ← takeString temp
        let temp ← getExtensionHeap e
        let ext ← takeString temp
        pure (if name ++ [dot] ++ ext = term then some true else none)
  else pure none

/-- The test of a directory in `search`. -/
def matchesDirectoryHeap (e : FatDirLayout) (term : Text) : OnHeap Bool :=
  if isDirectory e.attr then do
    match ← getNameHeap e with
    | none => pure false
    | some temp => do
        let name ← takeString temp
        pure (name == term)
  else pure false

def matchesTermHeap (e : FatDirLayout) (term : Text) : OnHeap Bool := do
  match ← matchesFileHeap e term with
  | some found => pure found
  | none => matchesDirectoryHeap e term

def searchFromHeap (dir : Option ℕ) (block : Bytes) (term : Text) :
    ℕ → ℕ → OnHeap (Option FatDirLayout)
  | 0, _ => pure none
  | n + 1, i => do
      useAny dir
      let e ← plain (entryAt block i)
      if ← matchesTermHeap e term then pure (some e) else searchFromHeap dir block term n (i + 1)

section Functions
variable (fill : ℕ → UInt8) (b : VolumeBlocks) (v : Volume) (img : Bytes)

def nextClusterHeap (index : ℕ) : OnHeap ℕ := do
  useAny b.table
  plain (v.nextCluster index)

def readClusterHeap (s : Option ℕ × Listing) (cluster : ℕ) : OnHeap (Option ℕ × Listing) :=
  if s.1 ≠ none ∧ clusterBytes v.boot * s.2.nr % 2 ^ 32 = 0 then do
    freeAny s.1
    let t ← plain (readCluster fill v img s.2 cluster)
    pure (none, t)
  else do
    let entries ← realloc s.1
    let t ← plain (readCluster fill v img s.2 cluster)
    use entries
    pure (some entries, t)

/-- `parse_dir`, where `*dir_size` is 0 before. -/
def parseDirSizedHeap (dir : FatDirLayout) : OnHeap (Option (ℕ × Bytes) × ℕ) :=
  if isDirectory dir.attr then do
    let s ← alongHeap (nextClusterHeap b v) 0 .endless (readClusterHeap fill v img) v.fuel
      (v.firstCluster dir) (none, ⟨none, 0, 1⟩)
    pure (s.1.map fun p => (p, s.2.entries.getD []), s.2.dirSize)
  else pure (none, 0)

def parseDirHeap (dir : FatDirLayout) : OnHeap (Option (ℕ × Bytes × ℕ)) := do
  let r ← parseDirSizedHeap fill b v img dir
  pure (r.1.map fun a => (a.1, a.2, r.2))

def giveUp (str file : ℕ) (dir : Option ℕ) : OnHeap (Option (ℕ × FatDirLayout)) := do
  free str
  free file
  freeAny dir
  pure none

/-- The loop of `find` with a token and what `strtok` gives behind it. The directory is the root
directory where it has no block of its own. -/
def findLoopHeap (str file : ℕ) :
    Option ℕ → Bytes → ℕ → Text → List Text → OnHeap (Option (ℕ × FatDirLayout))
  | dir, entries, size, token, rest => do
      match ← searchFromHeap (dir.or b.root) entries token size 0 with
      | none => giveUp str file dir
      | some tmp => do
          useAny (dir.or b.root)
          use file
          freeAny dir
          use str
          match rest with
          | [] => do
              free str
              pure (some (file, tmp))
          | next :: rest => do
              use file
              match ← parseDirHeap fill b v img tmp with
              | none => giveUp str file none
              | some (p, entries, n) => findLoopHeap str file (some p) entries n next rest

def findHeap (fresh : FatDirLayout) (path : Text) : OnHeap (Option (ℕ × FatDirLayout)) := do
  let str ← malloc
  let file ← malloc
  use str
  match components path with
  | [] => do
      free str
      pure (some (file, fresh))
  | token :: rest =>
      findLoopHeap fill b v img str file none v.rootDir v.boot.rootEntryCount.toNat token rest

end Functions

/-- The pointer is null where there is no result, and else the computation owns its block. -/
def Returned {α : Type} (a : Option (ℕ × α)) (b : Option α) (o : Multiset ℕ) : Prop :=
  a.map Prod.snd = b ∧ o = block (a.map Prod.fst)

section Strings
variable {safe : Prop} {lent : Set ℕ} {o : Multiset ℕ} {e : FatDirLayout} {term path cur : Text}

theorem refines_getParentPath (h : path ≠ []) : Refines safe lent 0 (getParentPathHeap path)
    (.ok (getParentPath path)) fun a b o => a.2 = b ∧ o = {a.1} :=
  refines_malloc fun _ => refines_within (fun _ => Nat.succ_le_succ (length_getParentPath_le h))
    (refines_pure ⟨rfl, add_zero _⟩)

theorem refines_fixDeletedChar (h : safe → path ≠ []) :
    Refines safe lent 0 (fixDeletedCharHeap path) (.ok (fixDeletedChar path))
      fun a b o => a.2 = b ∧ o = {a.1} :=
  refines_malloc fun _ => refines_within
    (fun hs => Nat.succ_le_succ (length_fixDeletedChar_le (h hs))) (refines_pure ⟨rfl, add_zero _⟩)

theorem refines_convertedBlock (c : ℕ) (h : cur ≠ []) (path : Option Text) :
    Refines safe lent {c} (convertedBlock c cur path) (.ok () : Except Fault Unit)
      fun a _ o => o = {a} + {c} := by
  have hnew (p : ℕ) : Refines safe lent ({p} + {c}) (pure p : OnHeap ℕ)
      (.ok () : Except Fault Unit) fun a _ o => o = {a} + {c} := refines_pure rfl
  have hblock : Refines safe lent {c} (malloc : OnHeap ℕ) (.ok () : Except Fault Unit)
      fun a _ o => o = {a} + {c} := by
    rw [← bind_pure malloc]
    exact refines_malloc hnew
  have hagain (p : ℕ) : Refines safe lent ({p} + {c}) (realloc (some p) : OnHeap ℕ)
      (.ok () : Except Fault Unit) fun a _ o => o = {a} + {c} := by
    rw [← bind_pure (realloc _)]
    exact refines_realloc rfl hnew
  cases path with
  | none => exact refines_use (add_zero _).symm hblock
  | some path =>
      rw [convertedBlock]
      split_ifs
      · refine refines_use (add_zero _).symm ?_
        refine (refines_getParentPath h).aside (zero_add _).symm ?_
        rintro ⟨parent, t⟩ o ⟨-, rfl⟩
        exact hagain parent
      · exact refines_use (add_zero _).symm (refines_malloc hagain)
      · exact hblock
      · exact refines_use (add_zero _).symm hblock

/-- The string that is built has a byte of its block for its end. -/
def FitsBlock (cur : Text) (path : Option Text) : Prop :=
  (addressConvertor cur path).text.length < (addressConvertor cur path).room

theorem refines_addressConvertor (c : ℕ) (h : cur ≠ []) {path : Option Text}
    (hfit : safe → FitsBlock cur path) : Refines safe lent {c} (addressConvertorHeap c cur path)
      (.ok (addressConvertor cur path).text) fun a b o => a.2 = b ∧ o = {a.1} + {c} := by
  refine (refines_convertedBlock c h path).aside (add_zero _).symm ?_
  rintro ret o rfl
  rw [add_zero]
  exact refines_within hfit (refines_pure ⟨rfl, rfl⟩)

theorem refines_getName (e : FatDirLayout) :
    Refines safe lent 0 (getNameHeap e) (.ok (baseName e)) Returned := by
  unfold getNameHeap
  cases baseName e with
  | none => exact refines_pure ⟨rfl, rfl⟩
  | some name => exact refines_malloc fun p => refines_pure ⟨rfl, add_zero _⟩

theorem refines_getExtension (e : FatDirLayout) : Refines safe lent 0 (getExtensionHeap e)
    (.ok (getExtension e.extention e.caseInformation)) fun a b o => a.2 = b ∧ o = {a.1} :=
  refines_malloc fun _ => refines_pure ⟨rfl, add_zero _⟩

theorem refines_takeString (temp : ℕ × Text) :
    Refines safe lent {temp.1} (takeString temp) (.ok temp.2) fun a b o => a = b ∧ o = 0 :=
  refines_use (add_zero _).symm (refines_free (add_zero _).symm (refines_pure ⟨rfl, rfl⟩))

theorem refines_name {α β : Type} {k : Option (ℕ × Text) → OnHeap α} {r : Except Fault β}
    {Q : α → β → Multiset ℕ → Prop} (hnone : baseName e = none → Refines safe lent o (k none) r Q)
    (hsome : ∀ p name, baseName e = some name →
      Refines safe lent ({p} + o) (k (some (p, name))) r Q) :
    Refines safe lent o (getNameHeap e >>= k) r Q := by
  refine (refines_getName e).aside (zero_add o).symm ?_
  rintro a o' ⟨ha, rfl⟩
  cases a with
  | none =>
      rw [Option.map_none, block_none, zero_add]
      exact hnone ha.symm
  | some temp => exact hsome temp.1 temp.2 ha.symm

theorem refines_copied {α β : Type} {k : Text → OnHeap α} {r : Except Fault β}
    {Q : α → β → Multiset ℕ → Prop} {q : ℕ × Text} (h : Refines safe lent o (k q.2) r Q) :
    Refines safe lent ({q.1} + o) (takeString q >>= k) r Q := by
  refine (refines_takeString q).aside rfl ?_
  rintro a o' ⟨rfl, rfl⟩
  rwa [zero_add]

def fileTest (e : FatDirLayout) (term : Text) : Option Bool :=
  if e.fileSize != 0 && !isSpecial e.attr then
    match baseName e with
    | none => some false
    | some name =>
        if name ++ [dot] ++ getExtension e.extention e.caseInformation = term then some true
        else none
  else none

theorem refines_matchesFile (e : FatDirLayout) (term : Text) :
    Refines safe lent 0 (matchesFileHeap e term) (.ok (fileTest e term))
      fun a b o => a = b ∧ o = 0 := by
  unfold matchesFileHeap fileTest
  split_ifs
  · refine refines_name (fun hn => ?_) fun p name hn => ?_
    · rw [hn]
      exact refines_pure ⟨rfl, rfl⟩
    · rw [hn]
      dsimp only
      refine refines_copied (q := (p, name)) ?_
      refine (refines_getExtension e).aside (zero_add _).symm ?_
      rintro ⟨q, ext⟩ o ⟨rfl, rfl⟩
      exact refines_copied (q := (q, _)) (refines_pure ⟨rfl, rfl⟩)
  · exact refines_pure ⟨rfl, rfl⟩

theorem refines_matchesDirectory (e : FatDirLayout) (term : Text) :
    Refines safe lent 0 (matchesDirectoryHeap e term)
      (.ok (isDirectory e.attr && baseName e == some term)) fun a b o => a = b ∧ o = 0 := by
  unfold matchesDirectoryHeap
  split_ifs with hd
  · rw [hd, Bool.true_and]
    refine refines_name (fun hn => ?_) fun p name hn => ?_
    · rw [hn]
      exact refines_pure ⟨rfl, rfl⟩
    · rw [hn]
      exact refines_copied (q := (p, name)) (refines_pure ⟨by simp, rfl⟩)
  · rw [Bool.eq_false_iff.mpr hd, Bool.false_and]
    exact refines_pure ⟨rfl, rfl⟩

theorem matchesTerm_eq (e : FatDirLayout) (term : Text) : matchesTerm e term =
    (fileTest e term).getD (isDirectory e.attr && baseName e == some term) := by
  unfold matchesTerm fileTest fullName
  by_cases hf : (e.fileSize != 0 && !isSpecial e.attr) = true
  · rw [if_pos hf, hf, Bool.true_and]
    cases baseName e with
    | none => simp
    | some name =>
        by_cases hn : name ++ [dot] ++ getExtension e.extention e.caseInformation = term
        · simp only [Option.map_some, hn, beq_self_eq_true, Bool.true_or, if_true,
            Option.getD_some]
        · simp only [if_neg hn, Option.map_some, Option.getD_none]
          rw [beq_eq_false_iff_ne.mpr fun h => hn (Option.some.inj h), Bool.false_or]
  · rw [if_neg hf, Bool.eq_false_iff.mpr hf, Bool.false_and, Bool.false_or]
    rfl

theorem refines_matchesTerm (e : FatDirLayout) (term : Text) :
    Refines safe lent 0 (matchesTermHeap e term) (.ok (matchesTerm e term))
      fun a b o => a = b ∧ o = 0 := by
  rw [matchesTerm_eq]
  refine (refines_matchesFile e term).aside (zero_add _).symm ?_
  rintro a o ⟨rfl, rfl⟩
  cases fileTest e term with
  | none => exact refines_matchesDirectory e term
  | some found => exact refines_pure ⟨rfl, rfl⟩

theorem refines_searchFrom {dir : Option ℕ} (hdir : safe → ∀ p ∈ dir, p ∈ o ∨ p ∈ lent)
    (entries : Bytes) (term : Text) (n i : ℕ) :
    Refines safe lent o (searchFromHeap dir entries term n i) (searchFrom entries term n i)
      fun a b o' => a = b ∧ o' = o := by
  induction n generalizing i with
  | zero => exact refines_pure ⟨rfl, rfl⟩
  | succ n ih =>
      refine refines_useAny_of hdir (refines_plain_bind fun e _ => ?_)
      refine (refines_matchesTerm e term).aside (zero_add _).symm ?_
      rintro a o' ⟨rfl, rfl⟩
      rw [zero_add]
      split_ifs
      · exact refines_pure ⟨rfl, rfl⟩
      · exact ih (i + 1)

end Strings

section Directories
variable {safe : Prop} {fill : ℕ → UInt8} {b : VolumeBlocks} {v : Volume} {img : Bytes}

theorem mem_lent {p : ℕ} : p ∈ b.lent ↔ b.table = some p ∨ b.bak = some p ∨ b.root = some p := by
  have hblock (q : Option ℕ) : p ∈ block q ↔ q = some p := by
    cases q <;> simp [eq_comm]
  simp [VolumeBlocks.lent, VolumeBlocks.owned, hblock, or_assoc]

theorem refines_nextCluster (c : ℕ) : Refines safe b.lent 0 (nextClusterHeap b v c)
    (v.nextCluster c) fun d e o => d = e ∧ o = 0 :=
  refines_useAny_of (fun _ _ hp => .inr (mem_lent.mpr (.inl hp)))
    (refines_plain fun _ _ => ⟨rfl, rfl⟩)

/-- The gathered entries are in one block, however often it is moved, or in none. -/
theorem refines_readCluster (s : Option ℕ × Listing) (t : Listing) (o : Multiset ℕ) (c : ℕ)
    (h : s.2 = t ∧ s.1.isSome = t.entries.isSome ∧ o = block s.1) :
    Refines safe b.lent o (readClusterHeap fill v img s c) (readCluster fill v img t c)
      fun s t o => s.2 = t ∧ s.1.isSome = t.entries.isSome ∧ o = block s.1 := by
  obtain ⟨q, t'⟩ := s
  obtain ⟨rfl, hq, rfl⟩ := h
  have hnone : q ≠ none ↔ t'.entries ≠ none := by
    rw [← Option.isSome_iff_ne_none, ← Option.isSome_iff_ne_none, hq]
  unfold readClusterHeap
  split_ifs with hz
  · refine refines_freeAny (add_zero _).symm (refines_plain_last fun t ht => ?_)
    rw [readCluster, if_pos (hz.imp_left hnone.mp)] at ht
    exact refines_pure ⟨rfl, by rw [← Except.ok.inj ht]; rfl, rfl⟩
  · refine refines_realloc (add_zero _).symm fun p => refines_plain_last fun t ht => ?_
    rw [readCluster, if_neg fun hz' => hz (hz'.imp_left hnone.mpr)] at ht
    obtain ⟨block, -, ht⟩ := bind_eq_ok.mp ht
    exact refines_use rfl (refines_pure ⟨rfl, by rw [← Except.ok.inj ht]; rfl, add_zero _⟩)

theorem refines_parseDirSized (dir : FatDirLayout) :
    Refines safe b.lent 0 (parseDirSizedHeap fill b v img dir) (parseDirSized fill v img dir)
      fun x y o => Returned x.1 y.1 o ∧ x.2 = y.2 := by
  unfold parseDirSizedHeap parseDirSized
  split_ifs
  · refine (refines_along refines_nextCluster refines_readCluster v.fuel (v.firstCluster dir)
      ⟨rfl, rfl, rfl⟩).call (add_zero 0).symm ?_
    rintro ⟨p, s⟩ t o - ⟨rfl, hp, rfl⟩
    rw [add_zero]
    refine refines_pure ⟨⟨?_, ?_⟩, rfl⟩
    · change p.isSome = s.entries.isSome at hp
      cases p <;> cases hs : s.entries <;> simp_all
    · cases p <;> rfl
  · exact refines_pure ⟨⟨rfl, rfl⟩, rfl⟩

theorem refines_parseDir (dir : FatDirLayout) :
    Refines safe b.lent 0 (parseDirHeap fill b v img dir) (parseDir fill v img dir) Returned := by
  refine (refines_parseDirSized dir).call (zero_add 0).symm ?_
  rintro ⟨a, n⟩ ⟨entries, m⟩ o - ⟨⟨rfl, rfl⟩, rfl⟩
  rw [add_zero]
  refine refines_pure ⟨?_, ?_⟩ <;> cases a <;> rfl

theorem refines_giveUp {lent : Set ℕ} (str file : ℕ) (dir : Option ℕ) :
    Refines safe lent ({str} + ({file} + block dir)) (giveUp str file dir)
      (.ok none : Except Fault _) Returned :=
  refines_free rfl (refines_free rfl (refines_freeAny (add_zero _).symm (refines_pure ⟨rfl, rfl⟩)))

/-- The directory that `find` searches is its own, or it is the root directory. -/
theorem mem_or_mem_lent {dir : Option ℕ} {o : Multiset ℕ} (hdir : block dir ≤ o) :
    ∀ p ∈ dir.or b.root, p ∈ o ∨ p ∈ b.lent := by
  intro p hp
  cases dir with
  | none => exact .inr (mem_lent.mpr (.inr (.inr hp)))
  | some q =>
      rw [Option.some_or, Option.mem_some_iff] at hp
      exact .inl (hp ▸ Multiset.singleton_le.mp hdir)

/-- The loop of `find` owns the string, the block of the result and the directory it is in. -/
theorem refines_findLoop (str file : ℕ) (e : FatDirLayout) (dir : Option ℕ) (entries : Bytes)
    (size : ℕ) (token : Text) (rest : List Text) :
    Refines safe b.lent ({str} + ({file} + block dir))
      (findLoopHeap fill b v img str file dir entries size token rest)
      (findLoop fill v img e entries size (token :: rest)) Returned := by
  have hdir (dir : Option ℕ) : safe → ∀ p ∈ dir.or b.root,
      p ∈ ({str} + ({file} + block dir) : Multiset ℕ) ∨ p ∈ b.lent := fun _ =>
    mem_or_mem_lent ((Multiset.le_add_left _ _).trans (Multiset.le_add_left _ _))
  induction rest generalizing e dir entries size token with
  | nil =>
      rw [findLoopHeap]
      refine (refines_searchFrom (hdir dir) entries token size 0).call (add_zero _).symm ?_
      rintro a found o - ⟨rfl, rfl⟩
      rw [add_zero]
      cases a with
      | none => exact refines_giveUp str file dir
      | some tmp =>
          refine refines_useAny_of (hdir dir) ?_
          refine refines_use (u := {str} + block dir) (by abel) ?_
          refine refines_freeAny (u := {str} + {file}) (by abel) (refines_use rfl ?_)
          exact refines_free rfl (refines_pure ⟨rfl, rfl⟩)
  | cons next rest ih =>
      rw [findLoopHeap]
      refine (refines_searchFrom (hdir dir) entries token size 0).call (add_zero _).symm ?_
      rintro a found o - ⟨rfl, rfl⟩
      rw [add_zero]
      cases a with
      | none => exact refines_giveUp str file dir
      | some tmp =>
          refine refines_useAny_of (hdir dir) ?_
          refine refines_use (u := {str} + block dir) (by abel) ?_
          refine refines_freeAny (u := {str} + {file}) (by abel) (refines_use rfl ?_)
          refine refines_use (u := {str}) (by abel) ?_
          refine (refines_parseDir tmp).call (zero_add _).symm ?_
          rintro a b o - ⟨rfl, rfl⟩
          cases a with
          | none => exact refines_giveUp str file none
          | some a =>
              rw [show block ((some a).map Prod.fst) + ({str} + {file}) =
                {str} + ({file} + block (some a.1)) by rw [Option.map_some]; abel]
              exact ih tmp (some a.1) a.2.1 a.2.2 next

/-- `find` gives its caller one block, or none. -/
theorem refines_find (fresh : FatDirLayout) (path : Text) :
    Refines safe b.lent 0 (findHeap fill b v img fresh path) (find fill v img fresh path)
      Returned := by
  refine refines_malloc fun str => refines_malloc fun file => ?_
  refine refines_use (u := {file}) (by abel) ?_
  rw [find]
  cases components path with
  | nil => exact refines_free (u := {file}) (by abel) (refines_pure ⟨rfl, rfl⟩)
  | cons token rest =>
      rw [show ({file} + ({str} + 0) : Multiset ℕ) = {str} + ({file} + block none) by
        rw [block_none]; abel]
      exact refines_findLoop str file fresh none _ _ token rest

end Directories

end TFAT.HeapSearches
