import TFAT.CurrentNames
import TFAT.DeleteFootprints
import TFAT.MarkedArrays

/-!
# Undeleting what has just been deleted

`delete` and then `undelete` with the plain name of a file of one cluster come back to
the session as it was, with an end mark in the table entry of the cluster, when the file
is the first that answers to the masked name. `undelete` looks for a name that has a
question mark for its first character, so a deleted entry in front of the file that
differs in this character only is taken for it, and it stores the character that the
name is displayed with, which may be another one than the entry had.
-/
namespace TFAT.RestoredEntries
open ByteRegions LittleEndianWords LinkedChains DiskLayout ClusterTable ClusterPlacement
open FileDescriptor DirectoryIO PathText PathResolution LongNames UserCommands VolumeTree
open DirectoryTree ChainRelease ChainFreeing EntryMarking MarkedTree MarkedPlaces DeleteSafety
open UndeleteSafety DeleteFootprints MarkedArrays CurrentNames EntryNames Fat16Flush

/-- The table holds the end mark for the first cluster of `f`, and the other entries are as
before. -/
structure EndMarked (v : Volume) (f : FatDirLayout) (t t' : Bytes) : Prop where
  length : t'.length = t.length
  ended : cell v.fatn.width t' (v.firstCluster f) = endMark v
  kept : ∀ i, i ≠ v.firstCluster f → cell v.fatn.width t' i = cell v.fatn.width t i

/-- `delete` and then `undelete` leave the session as it was but for the end mark of `f`. -/
def Undoes (fill : ℕ → UInt8) (s : Session) (fresh freshParent fresh' freshParent' : FatDirLayout)
    (p : Text) (f : FatDirLayout) : Prop :=
  ∃ s' lines t k lines', delete fill s fresh freshParent p = .ok (s', lines) ∧
    undelete fill s' fresh' freshParent' p =
      .ok ({ s with volume := retable s.volume t k }, lines') ∧
    EndMarked s.volume f s.volume.fatTable t ∧ EndMarked s.volume f s.volume.fatTableBak k

/-- The session in which the entries of the array that equal `f` are marked as deleted. -/
def markedSession (s : Session) (block : Bytes) (n : ℕ) (l : List ℕ) (f : FatDirLayout) :
    Session :=
  putArray s s.volume (remark f 0xE5 block n) l

/-- The loop that marks stays inside the array, which lies in one place. No entry of it looks
like the deleted file, none in front of the file answers to the masked name, and the first
character of the name is the byte that the entry has. With the file marked, the current path
still leads to that place. -/
structure Undoable (fill : ℕ → UInt8) (s : Session) (p : Text) (block : Bytes) (n : ℕ)
    (l : List ℕ) (i : ℕ) (f : FatDirLayout) : Prop where
  inside : entrySize * n ≤ block.length
  single : l.length ≤ 1
  head : p.head? = some f.nameHead
  alone : ∀ j < n, entryAt block j ≠ .ok (f.setNameHead 0xE5)
  first : ∀ j < i, ∀ e, entryAt block j = .ok e → ¬ matchesTerm e (question :: p.tail)
  leads : ∃ block' n' l',
    OpensIn fill (markedSession s block n l f).volume (markedSession s block n l f).image
      (components s.currentPath) block' n' l' ∧
    l'.map s.volume.clusterToSector = l.map s.volume.clusterToSector

section Tables
variable {v : Volume} {c x i : ℕ} {t k : Bytes} {f : FatDirLayout}

/-- A store of a link that ends a chain into the entry that ends it keeps all links. -/
theorem nextCluster_retable (hZ : Restored v (fun y => v.fatn.index y = v.fatn.index c) x t)
    (hx : v.fatn.link x = 0) (hc : v.nextCluster c = .ok 0) :
    (retable v t k).nextCluster = v.nextCluster := by
  funext y
  by_cases hy : v.fatn.index y = v.fatn.index c
  · have hsame : v.nextCluster y = v.nextCluster c := by
      rw [Volume.nextCluster_eq, Volume.nextCluster_eq, hy]
    rw [hsame, hc, ← hx]
    exact hZ.nextCluster hy
  · exact hZ.nextCluster_of_not hy

theorem visits_iff_of_single (h : v.Chain c [c]) : Visits v c i ↔ v.fatn.index c = i := by
  constructor
  · rintro ⟨x, hx, rfl⟩
    rw [List.mem_singleton.mp (h.reaches_iff.mp hx)]
  · intro hi
    exact ⟨c, h.reaches_iff.mpr (List.mem_singleton_self c), hi⟩

theorem hasCell_of_single (hchain : v.Chain (v.firstCluster f) [v.firstCluster f]) :
    HasCell v.fatn.width v.fatTable (v.firstCluster f) ∧
      v.nextCluster (v.firstCluster f) = .ok 0 := by
  obtain ⟨d, m, hm, hnext, hrest⟩ := hchain.cons (hchain.ne_stop (List.mem_singleton_self _))
  rw [List.cons.injEq] at hm
  obtain rfl := hm.2
  obtain rfl := hrest.eq_stop
  have hcell := (v.nextCluster_ok_iff.mp hnext).1
  rw [firstCluster_index] at hcell
  exact ⟨hcell, hnext⟩

end Tables

section Reading
variable {fill : ℕ → UInt8} {v : Volume} {img block : Bytes} {n : ℕ} {l : List ℕ}
variable {names : List Text} {t k : Bytes}

theorem parseDir_retable (hnext : (retable v t k).nextCluster = v.nextCluster)
    (hlen : t.length = v.fatTable.length) (d : FatDirLayout) :
    parseDir fill (retable v t k) img d = parseDir fill v img d := by
  have hfuel : (retable v t k).fuel = v.fuel := by
    rw [Volume.fuel, Volume.fuel, ← hlen]
    rfl
  rw [parseDir_def, hnext, hfuel]
  exact (parseDir_def fill).symm

theorem leads_of_parseDir_eq {w : Volume} {dir : Bytes} {size : ℕ} {e : FatDirLayout}
    (hp : ∀ d, parseDir fill w img d = parseDir fill v img d)
    (h : Leads fill v img dir size names e) : Leads fill w img dir size names e := by
  induction h with
  | found hs => exact .found hs
  | inside _ hd hs ih => exact .inside ih ((hp _).trans hd) hs

theorem opensIn_retable (hnext : (retable v t k).nextCluster = v.nextCluster)
    (hlen : t.length = v.fatTable.length) (h : OpensIn fill v img names block n l) :
    OpensIn fill (retable v t k) img names block n l := by
  have hp : ∀ d, parseDir fill (retable v t k) img d = parseDir fill v img d :=
    parseDir_retable hnext hlen
  obtain ⟨parent, hu, ha⟩ := h
  cases parent with
  | none => exact ⟨none, hu, ha⟩
  | some d =>
      refine ⟨some d, leads_of_parseDir_eq hp hu, (hp d).trans ha.1, ?_, ha.2.2⟩
      rw [Volume.Chain, hnext]
      exact ha.2.1

theorem opensIn_retable_iff (hnext : (retable v t k).nextCluster = v.nextCluster)
    (hlen : t.length = v.fatTable.length) :
    OpensIn fill (retable v t k) img names block n l ↔ OpensIn fill v img names block n l :=
  ⟨opensIn_retable (v := retable v t k) (t := v.fatTable) (k := v.fatTableBak) hnext.symm
    hlen.symm, opensIn_retable hnext hlen⟩

end Reading

section Deleting
variable {fill : ℕ → UInt8} {s : Session} {fresh freshParent : FatDirLayout} {p : Text}
variable {block : Bytes} {n i : ℕ} {l : List ℕ} {f : FatDirLayout}

theorem exists_freed {v : Volume} (hchain : v.Chain (v.firstCluster f) [v.firstCluster f])
    (hbak : v.fatTableBak.length = v.fatTable.length) :
    ∃ t k lines, freeChain v.fuel v (v.firstCluster f) = .ok (retable v t k, lines) ∧
      Cleared v.fatn.width (v.firstCluster f = ·) v.fatTable t ∧
      Cleared v.fatn.width (v.firstCluster f = ·) v.fatTableBak k ∧
      (retable v t k).nextCluster = v.nextCluster := by
  obtain ⟨hcell, hnext⟩ := hasCell_of_single hchain
  have hvisits : Visits v (v.firstCluster f) = (v.firstCluster f = ·) := by
    funext i
    rw [visits_iff_of_single hchain, firstCluster_index]
  have hin : StaysInside v (v.firstCluster f) := by
    intro i hi
    rw [hvisits] at hi
    subst hi
    refine ⟨hcell, ?_⟩
    rw [HasCell, hbak]
    exact hcell
  obtain ⟨t, k, lines, hfree, ht, hk⟩ := exists_freeChain hin
  rw [hvisits] at ht hk
  refine ⟨t, k, lines, hfree, ht, hk,
    nextCluster_retable ⟨ht.length, fun y hy => ?_, fun y hy => ?_⟩ v.fatn.link_zero hnext⟩
  · rw [hy, firstCluster_index]
    exact ⟨hcell, ht.zero _ rfl⟩
  · rw [firstCluster_index] at hy
    exact ht.kept _ fun h => hy h.symm

theorem delete_plain (fresh freshParent : FatDirLayout) (hg : Geometry s.volume.boot)
    (hs : Stands fill s block n l) (hp : PlainName p) (hf : FoundAt block p n i f)
    (hchain : s.volume.Chain (s.volume.firstCluster f) [s.volume.firstCluster f])
    (hbak : s.volume.fatTableBak.length = s.volume.fatTable.length) :
    ∃ t k lines, Cleared s.volume.fatn.width (s.volume.firstCluster f = ·) s.volume.fatTable t ∧
      Cleared s.volume.fatn.width (s.volume.firstCluster f = ·) s.volume.fatTableBak k ∧
      (retable s.volume t k).nextCluster = s.volume.nextCluster ∧
      (entrySize * n ≤ block.length → l.length ≤ 1 → delete fill s fresh freshParent p =
        .ok (putArray s (retable s.volume t k) (remark f 0xE5 block n) l, lines)) ∧
      ∀ s' lines', delete fill s fresh freshParent p = .ok (s', lines') →
        entrySize * n ≤ block.length ∧ l.length ≤ 1 := by
  obtain ⟨t, k, lines, hw, ht, hk, hnext⟩ := exists_freed hchain hbak
  obtain ⟨hfind, parent, ha, ho⟩ := hs.opened hp fresh freshParent
  have hfound : find fill s.volume s.image fresh (deletePath s p) = .ok (some f) :=
    hfind.trans (search_eq_ok_some_iff.mpr ⟨i, hf⟩)
  refine ⟨t, k, lines, ht, hk, hnext, fun hle hl => ?_, fun s' lines' hd => ?_⟩
  · exact delete_eq hfound ho hw (markEntries_eq hg ha hle hl hnext)
  · rcases delete_cases hd with ⟨hn, -⟩ | ⟨f', hf', parent', block', n', w, lines'', ho', hw', hm⟩
    · rw [hfound] at hn
      cases hn
    · rw [hfound, Except.ok.injEq, Option.some.injEq] at hf'
      subst hf'
      rw [hw, Except.ok.injEq, Prod.mk.injEq] at hw'
      have hopen := ho.symm.trans ho'
      rw [Except.ok.injEq, Prod.mk.injEq, Prod.mk.injEq] at hopen
      obtain ⟨rfl, rfl, rfl⟩ := hopen
      obtain ⟨rfl, -⟩ := hw'
      exact single_of_markEntries hg ha hf.1 hf.2.1 hnext hm

/-- An undeletion that finds its entry, ends its chain and marks. -/
theorem undelete_eq {s' : Session} {w : Volume} {parent : Option FatDirLayout} {dir : Text}
    (hf : find fill s.volume s.image fresh (undeletePath s dir) = .ok (some f))
    (ho : openParent fill s freshParent (getParentPath (undeletePath s dir)) =
      .ok (parent, block, n))
    (hw : s.volume.changeCluster (s.volume.firstCluster f) 0x0FFFFFFF = .ok w)
    (hm : markEntries s w parent block n f (fixDeletedChar dir).2 = .ok s') :
    undelete fill s fresh freshParent dir =
      .ok (s', [.makeUnzero (s.volume.firstCluster f % 2 ^ 16)]) := by
  unfold undelete
  change find fill s.volume s.image fresh (undeletePath s dir) >>= (fun file => _) = _
  rw [hf, ok_bind]
  change openParent fill s freshParent (getParentPath (undeletePath s dir)) >>= _ = _
  rw [ho, ok_bind]
  change s.volume.changeCluster (s.volume.firstCluster f) 0x0FFFFFFF >>= _ = _
  rw [hw, ok_bind]
  change markEntries s w parent block n f (fixDeletedChar dir).2 >>= _ = _
  rw [hm, ok_bind]

theorem undeletePath_plain {a : UInt8} {u : Text} (hp : PlainName (a :: u)) :
    undeletePath s (a :: u) = (addressConvertor s.currentPath (some (question :: u))).text := by
  rw [undeletePath, hp.fixDeletedChar_eq]

theorem undelete_plain {a : UInt8} {u : Text} {t k : Bytes} (fresh freshParent : FatDirLayout)
    (hg : Geometry s.volume.boot) (hs : Stands fill s block n l) (hp : PlainName (a :: u))
    (hf : FoundAt block (question :: u) n i f) (hle : entrySize * n ≤ block.length)
    (hl : l.length ≤ 1)
    (hw : s.volume.changeCluster (s.volume.firstCluster f) 0x0FFFFFFF = .ok (retable s.volume t k))
    (hnext : (retable s.volume t k).nextCluster = s.volume.nextCluster) :
    ∃ lines, undelete fill s fresh freshParent (a :: u) =
      .ok (putArray s (retable s.volume t k) (remark f a block n) l, lines) := by
  obtain ⟨hfind, parent, ha, ho⟩ := hs.opened hp.deleted fresh freshParent
  rw [search_eq_ok_some_iff.mpr ⟨i, hf⟩, ← undeletePath_plain hp] at hfind
  rw [← undeletePath_plain hp] at ho
  refine ⟨_, undelete_eq hfind ho hw ?_⟩
  rw [hp.fixDeletedChar_eq]
  exact markEntries_eq hg ha hle hl hnext

end Deleting

section Restoring
variable {fill : ℕ → UInt8} {s : Session} {fresh freshParent fresh' freshParent' : FatDirLayout}
variable {p : Text} {block : Bytes} {n i : ℕ} {l : List ℕ} {f : FatDirLayout}

theorem endMarked_of_cleared {v : Volume} {t₀ t : Bytes}
    (ht : Cleared v.fatn.width (v.firstCluster f = ·) t₀ t)
    (hcell : HasCell v.fatn.width t (v.firstCluster f)) :
    EndMarked v f t₀ (setCell v.fatn.width t (v.firstCluster f) 0x0FFFFFFF) := by
  refine ⟨(length_setCell _ hcell).trans ht.length, cell_setCell_self _ _ _ _, fun i hi => ?_⟩
  rw [cell_setCell_of_hasCell _ hcell hi.symm, ht.kept i hi.symm]

/-- Behind the deletion, the end mark of the file can be set. -/
theorem exists_ended {v w : Volume} (hchain : v.Chain (v.firstCluster f) [v.firstCluster f])
    (hbak : v.fatTableBak.length = v.fatTable.length) (hn : w.fatn = v.fatn)
    (ht : Cleared v.fatn.width (v.firstCluster f = ·) v.fatTable w.fatTable)
    (hk : Cleared v.fatn.width (v.firstCluster f = ·) v.fatTableBak w.fatTableBak) :
    ∃ t k, w.changeCluster (v.firstCluster f) 0x0FFFFFFF = .ok (retable w t k) ∧
      EndMarked v f v.fatTable t ∧ EndMarked v f v.fatTableBak k ∧
      (retable v t k).nextCluster = v.nextCluster := by
  obtain ⟨hcell, hnext⟩ := hasCell_of_single hchain
  have hcell' : HasCell v.fatn.width w.fatTable (v.firstCluster f) := by
    rw [HasCell, ht.length]
    exact hcell
  have hbak' : HasCell v.fatn.width w.fatTableBak (v.firstCluster f) := by
    rw [HasCell, hk.length, hbak]
    exact hcell
  have hend := endMarked_of_cleared ht hcell'
  refine ⟨_, _, ?_, hend, endMarked_of_cleared hk hbak', ?_⟩
  · rw [w.changeCluster_of_hasCell _ (by rwa [hn, firstCluster_index])
      (by rwa [hn, firstCluster_index]), hn, firstCluster_index, retable, hn]
  · refine nextCluster_retable ⟨hend.length, fun y hy => ?_, fun y hy => ?_⟩
      (link_endMark v) hnext
    · rw [hy, firstCluster_index]
      exact ⟨hcell, hend.ended⟩
    · rw [firstCluster_index] at hy
      exact hend.kept _ hy

theorem stands_deleted {t k block' : Bytes} {n' : ℕ} {l' : List ℕ} (hs : Stands fill s block n l)
    (ht : t.length = s.volume.fatTable.length)
    (hnext : (retable s.volume t k).nextCluster = s.volume.nextCluster) :
    Stands fill (putArray s (retable s.volume t k) (remark f 0xE5 block n) l) block' n' l' ↔
      OpensIn fill (markedSession s block n l f).volume (markedSession s block n l f).image
        (components s.currentPath) block' n' l' := by
  rw [Stands, currentPath_putArray, image_putArray, ← retable_putArray, opensIn_retable_iff]
  · exact and_iff_right hs.1
  · rw [retable_putArray, nextCluster_putArray, nextCluster_putArray]
    exact hnext
  · rw [fatTable_putArray]
    exact ht

/-- In the marked array the masked name finds the file, where nothing in front answers. -/
theorem foundAt_remark {a : UInt8} {u : Text} (hf : FoundAt block (a :: u) n i f)
    (hdir : isDirectory f.attr = false) (ha : (a :: u).head? ≠ some dot)
    (hfirst : ∀ j < i, ∀ e, entryAt block j = .ok e → ¬ matchesTerm e (question :: u)) :
    FoundAt (remark f 0xE5 block n) (question :: u) n i (f.setNameHead 0xE5) := by
  obtain ⟨hi, he, hm, hfront⟩ := hf
  refine ⟨hi, ?_, matchesTerm_deleted hm hdir fun h => ha (by rw [h]; rfl), fun j hj => ?_⟩
  · rw [entryAt_remark, he]
    simp [Except.map, relabel, hi]
  · obtain ⟨e, hej, hne⟩ := hfront j hj
    have hother : e ≠ f := fun h => hne (h ▸ hm)
    refine ⟨e, ?_, hfirst j hj e hej⟩
    rw [entryAt_remark, hej]
    simp [Except.map, relabel, hother]

/-- An undoable deletion is undone. -/
theorem undoes_of_undoable (hg : Geometry s.volume.boot) (hs : Stands fill s block n l)
    (hp : PlainName p) (hf : FoundAt block p n i f) (hdir : isDirectory f.attr = false)
    (hchain : s.volume.Chain (s.volume.firstCluster f) [s.volume.firstCluster f])
    (hbak : s.volume.fatTableBak.length = s.volume.fatTable.length)
    (hu : Undoable fill s p block n l i f) :
    Undoes fill s fresh freshParent fresh' freshParent' p f := by
  obtain ⟨a, u, rfl⟩ := List.exists_cons_of_ne_nil hp.ne_nil
  have ha : a = f.nameHead := by simpa using hu.head
  obtain ⟨-, parent, -, harray⟩ := id hs
  obtain ⟨t, k, lines, ht, hk, hnext, hdel, -⟩ :=
    delete_plain fresh freshParent hg hs hp hf hchain hbak
  have hd := hdel hu.inside hu.single
  have hfits := fits_remark f 0xE5 n (fits_of_arrayOf hg harray hu.single)
  obtain ⟨block', n', l', hopen, hplace⟩ := hu.leads
  have hs' := (stands_deleted hs ht.length hnext).mpr hopen
  obtain ⟨_, _, _, harray'⟩ := id hs'
  obtain ⟨rfl, rfl⟩ := opened_of_putArray hg harray hu.single hfits hplace harray'
  have hfound := foundAt_remark hf hdir hp.undotted hu.first
  generalize hs₁ : putArray s (retable s.volume t k) (remark f 0xE5 block n') l = s₁ at hd hs'
  have hg₁ : Geometry s₁.volume.boot := by
    rw [← hs₁, boot_putArray]
    exact hg
  obtain ⟨t', k', hset, hend, hendBak, hnext'⟩ := exists_ended (w := s₁.volume) hchain hbak
    (by rw [← hs₁, fatn_putArray]; rfl) (by rwa [← hs₁, fatTable_putArray])
    (by rwa [← hs₁, fatTableBak_putArray])
  have hset' : s₁.volume.changeCluster (s₁.volume.firstCluster (f.setNameHead 0xE5)) 0x0FFFFFFF =
      .ok (retable s₁.volume t' k') := by
    have hfirst : s₁.volume.firstCluster f = s.volume.firstCluster f := by
      rw [← hs₁, firstCluster_putArray]
      rfl
    rw [firstCluster_setNameHead, hfirst]
    exact hset
  have hlinks : (retable s₁.volume t' k').nextCluster = s₁.volume.nextCluster := by
    rw [← hs₁, retable_putArray, nextCluster_putArray, nextCluster_putArray]
    exact hnext'.trans hnext.symm
  obtain ⟨lines', hundelete⟩ := undelete_plain fresh' freshParent' hg₁ hs' hp hfound
    (hu.inside.trans_eq length_remark.symm) (length_le_one_of_map hplace hu.single) hset' hlinks
  have hback : remark (f.setNameHead 0xE5) a (remark f 0xE5 block n') n' = arrayAt s l := by
    rw [ha, remark_remark hu.inside hu.alone]
    exact eq_arrayAt hg harray hu.single
  rw [hback, ← hs₁, putArray_back hfits hplace, hs₁] at hundelete
  exact ⟨_, lines, t', k', lines', hd, hundelete, hend, hendBak⟩

theorem endMark_ne_zero (v : Volume) : endMark v ≠ 0 := by
  unfold endMark
  cases v.fatn <;> decide

/-- An undeletion that sets the end mark of a free cluster has found an entry with that first
cluster, and it marks entries in tables with the links that there were. -/
theorem of_undelete_freed {s' : Session} {c : ℕ} {dir : Text} {lines : List Line}
    (hci : s.volume.fatn.index c = c) (hc : s.volume.nextCluster c = .ok 0)
    (hfree : cell s.volume.fatn.width s.volume.fatTable c = 0)
    (hend : cell s.volume.fatn.width s'.volume.fatTable c = endMark s.volume)
    (h : undelete fill s fresh freshParent dir = .ok (s', lines)) :
    ∃ g, find fill s.volume s.image fresh (undeletePath s dir) = .ok (some g) ∧
      ∃ parent block n t k, openParent fill s freshParent (getParentPath (undeletePath s dir)) =
          .ok (parent, block, n) ∧
        (retable s.volume t k).nextCluster = s.volume.nextCluster ∧
        markEntries s (retable s.volume t k) parent block n g (fixDeletedChar dir).2 = .ok s' := by
  rcases undelete_cases h with ⟨-, rfl⟩ | ⟨g, hg, parent, block, n, w, ho, hw, hm⟩
  · rw [hfree] at hend
    exact absurd hend.symm (endMark_ne_zero s'.volume)
  · obtain ⟨t, k, rfl, hZ⟩ := of_changeCluster hw
    obtain ⟨r, hr⟩ := volume_of_markEntries hm
    have hfirst : s.volume.firstCluster g = c := by
      by_contra hne
      have hkept := hZ.kept c fun h => hne (by rw [← firstCluster_index, ← h, hci])
      rw [hci, hfree] at hkept
      rw [hr] at hend
      exact endMark_ne_zero s.volume (hend.symm.trans hkept)
    exact ⟨g, hg, parent, block, n, t, k, ho,
      nextCluster_retable hZ (link_endMark s.volume) (hfirst ▸ hc), hm⟩

/-- The array that has been opened and written back lies in one place. -/
theorem arrayOf_of_opens {s' : Session} {parent : Option FatDirLayout} {t k : Bytes} {b : UInt8}
    (hg : Geometry s.volume.boot) (hopens : Opens fill s.volume s.image block n parent)
    (hi : i < n) (he : entryAt block i = .ok f)
    (hnext : (retable s.volume t k).nextCluster = s.volume.nextCluster)
    (hm : markEntries s (retable s.volume t k) parent block n f b = .ok s')
    (hlen : s'.image.length = s.image.length) :
    ∃ l, ArrayOf fill s.volume s.image block n l parent ∧ l.length ≤ 1 ∧
      entrySize * n ≤ block.length := by
  cases parent with
  | none =>
      obtain ⟨m, hloop, -⟩ := bind_eq_ok.mp hm
      exact ⟨[], ⟨hopens.1, hopens.2, rfl⟩, Nat.zero_le 1, (of_markLoop hloop).1⟩
  | some d =>
      obtain ⟨hle, hchain, hin⟩ := opened_of_markEntries hg hopens hi he hnext hm
      refine ⟨[s.volume.firstCluster d], ⟨hopens, hchain, fun c hc => ?_⟩, le_rfl, hle⟩
      rw [List.mem_singleton.mp hc, InImage, ← hlen]
      exact hin

/-- What an undeletion that sets the end mark of a free cluster has opened, and where it has
marked. -/
theorem opened_of_undelete {s' : Session} {c : ℕ} {a : UInt8} {u : Text} {lines : List Line}
    (hg : Geometry s.volume.boot) (hcur : Ended s.currentPath) (hp : PlainName (a :: u))
    (h : undelete fill s fresh freshParent (a :: u) = .ok (s', lines))
    (hlen : s'.image.length = s.image.length) (hci : s.volume.fatn.index c = c)
    (hc : s.volume.nextCluster c = .ok 0)
    (hfree : cell s.volume.fatn.width s.volume.fatTable c = 0)
    (hend : cell s.volume.fatn.width s'.volume.fatTable c = endMark s.volume) :
    ∃ g parent block n l t k, LeadsUp fill s.volume s.image (components s.currentPath) parent ∧
      ArrayOf fill s.volume s.image block n l parent ∧ l.length ≤ 1 ∧
      search block (question :: u) n = .ok (some g) ∧
      putArray s (retable s.volume t k) (remark g a block n) l = s' := by
  obtain ⟨g, hfind, parent, block, n, t, k, ho, hlinks, hm⟩ :=
    of_undelete_freed hci hc hfree hend h
  rw [undeletePath_plain hp] at hfind ho
  rw [hp.fixDeletedChar_eq] at hm
  obtain ⟨hlead, hopens, hsearch⟩ := opens_of_find hcur hp.deleted hfind ho
  obtain ⟨j, hj, hej, -⟩ := of_search hsearch
  obtain ⟨l, harray, hl, hle⟩ := arrayOf_of_opens hg hopens hj hej hlinks hm hlen
  rw [markEntries_eq hg harray hle hl hlinks, Except.ok.injEq] at hm
  exact ⟨g, parent, block, n, l, t, k, hlead, harray, hl, hsearch, hm⟩

/-- A command that turns a marked array back into the one before has marked it in its place. -/
theorem same_place {s' : Session} {other : Bytes} {l' : List ℕ} {t k t₁ k₁ t₂ k₂ : Bytes}
    (hg : Geometry s.volume.boot) (hne : other ≠ arrayAt s l) (hf : Fits s other l)
    (hs' : s' = putArray s (retable s.volume t k) other l) (hf' : Fits s' block l')
    (h : putArray s' (retable s'.volume t₁ k₁) block l' =
      { s with volume := retable s.volume t₂ k₂ }) :
    l'.map s.volume.clusterToSector = l.map s.volume.clusterToSector ∧ block = arrayAt s l := by
  have hg' : Geometry s'.volume.boot := by
    rw [hs', boot_putArray]
    exact hg
  have hsectors : s'.volume.clusterToSector = s.volume.clusterToSector := by
    rw [hs', clusterToSector_putArray]
    rfl
  have hother : arrayAt s' l = other := by
    rw [hs']
    exact arrayAt_putArray hf rfl t k
  have hback : arrayAt (putArray s' (retable s'.volume t₁ k₁) block l') l = arrayAt s l := by
    rw [h]
    cases l <;> rfl
  have hfits : Fits s' other l := by
    rw [hs']
    cases l with
    | nil => trivial
    | cons c l =>
        refine ⟨hf.1, ?_, hf.2.2⟩
        have hlen := length_image_putArray hf (retable s.volume t k)
        change s.volume.clusterToSector c + clusterBytes s.volume.boot ≤ _
        rw [hlen]
        exact hf.2.1
  have hplace : l.map s'.volume.clusterToSector = l'.map s'.volume.clusterToSector := by
    by_contra hplace
    rw [arrayAt_putArray_of_ne hg' hf' hfits hplace, hother] at hback
    exact hne hback
  rw [arrayAt_putArray hf' hplace] at hback
  rw [hsectors] at hplace
  exact ⟨hplace.symm, hback⟩

/-- A search for the masked name that comes to the marked file comes to the first one, and
nothing in front of it answers to that name. -/
theorem first_of_search {term : Text} (hfirst : ∀ j < i, entryAt block j ≠ .ok f)
    (halone : ∀ j < n, entryAt block j ≠ .ok (f.setNameHead 0xE5))
    (h : search (remark f 0xE5 block n) term n = .ok (some (f.setNameHead 0xE5))) :
    ∀ j < i, ∀ e, entryAt block j = .ok e → ¬ matchesTerm e term := by
  obtain ⟨m, hm, hem, -, hfront⟩ := search_eq_ok_some_iff.mp h
  have him : i ≤ m := by
    by_contra hlt
    rw [entryAt_remark] at hem
    cases hblock : entryAt block m with
    | error x =>
        rw [hblock] at hem
        cases hem
    | ok e =>
        have hne : e ≠ f := fun h => hfirst m (by omega) (h ▸ hblock)
        rw [hblock] at hem
        simp only [Except.map, relabel, if_neg (fun h : m < n ∧ e = f => hne h.2),
          Except.ok.injEq] at hem
        exact halone m hm (hem ▸ hblock)
  intro j hj e hej
  have hne : e ≠ f := fun h => hfirst j hj (h ▸ hej)
  obtain ⟨d, hd, hmatch⟩ := hfront j (by omega)
  rw [entryAt_remark, hej] at hd
  simp only [Except.map, relabel, if_neg (fun h : j < n ∧ e = f => hne h.2),
    Except.ok.injEq] at hd
  rwa [hd]

/-- A deletion that is undone is undoable. -/
theorem undoable_of_undoes (hg : Geometry s.volume.boot) (hs : Stands fill s block n l)
    (hp : PlainName p) (hf : FoundAt block p n i f) (hlive : isDeleted f = false)
    (hchain : s.volume.Chain (s.volume.firstCluster f) [s.volume.firstCluster f])
    (hbak : s.volume.fatTableBak.length = s.volume.fatTable.length)
    (hu : Undoes fill s fresh freshParent fresh' freshParent' p f) :
    Undoable fill s p block n l i f := by
  obtain ⟨a, u, rfl⟩ := List.exists_cons_of_ne_nil hp.ne_nil
  obtain ⟨s', lines, t₂, k₂, lines', hd, hundelete, hend, -⟩ := hu
  obtain ⟨-, parent, -, harray⟩ := id hs
  have hb : f.nameHead ≠ 0xE5 := fun h => by simp [isDeleted, h] at hlive
  obtain ⟨t, k, lines₁, ht, -, hnext, hdel, hreturned⟩ :=
    delete_plain fresh freshParent hg hs hp hf hchain hbak
  obtain ⟨hle, hl⟩ := hreturned s' lines hd
  have hs' : s' = putArray s (retable s.volume t k) (remark f 0xE5 block n) l := by
    rw [hdel hle hl, Except.ok.injEq, Prod.mk.injEq] at hd
    exact hd.1.symm
  have hcur : s'.currentPath = s.currentPath := by
    rw [hs', currentPath_putArray]
  have hg' : Geometry s'.volume.boot := by
    rw [hs', boot_putArray]
    exact hg
  have hblock := eq_arrayAt hg harray hl
  have hfits := fits_remark f 0xE5 n (fits_of_arrayOf hg harray hl)
  have hlen : s.image.length = s'.image.length := by
    rw [hs', length_image_putArray hfits]
  obtain ⟨g, parent', block', n', l', t', k', hlead, harray', hl', hsearch, hm⟩ :=
    opened_of_undelete (c := s.volume.firstCluster f) hg' (hcur ▸ hs.1) hp hundelete hlen
      (by rw [hs', fatn_putArray]; exact firstCluster_index s.volume f)
      (by rw [hs', nextCluster_putArray, hnext]; exact (hasCell_of_single hchain).2)
      (by rw [hs', fatn_putArray, fatTable_putArray]; exact ht.zero _ rfl)
      (by rw [endMark, hs', fatn_putArray]; exact hend.ended)
  have hne : remark f 0xE5 block n ≠ arrayAt s l := hblock ▸ remark_ne hf.1 hf.2.1 hb
  obtain ⟨hplace, hback⟩ := same_place hg hne hfits hs'
    (fits_remark g a n' (fits_of_arrayOf hg' harray' hl')) hm
  have hopened := harray'
  rw [hs'] at hopened
  obtain ⟨rfl, rfl⟩ := opened_of_putArray hg harray hl hfits hplace hopened
  obtain ⟨rfl, ha, halone⟩ := of_remark_remark hf.1 hf.2.1 hb (hback.trans hblock.symm)
  have hstands : Stands fill s' (remark f 0xE5 block n') n' l' :=
    ⟨hcur ▸ hs.1, parent', hlead, harray'⟩
  rw [hs'] at hstands
  exact ⟨hle, hl, by rw [ha]; rfl, halone,
    first_of_search (fun j hj => hf.ne_of_lt hj) halone hsearch, _, _, l',
    (stands_deleted hs ht.length hnext).mp hstands, hplace⟩

end Restoring

/-- For a plain name that finds a live file of one cluster in the current directory: `delete`
and then `undelete` leave the volume as it was, with an end mark for the file, exactly when
the deletion is undoable. -/
theorem delete_undelete_iff {fill : ℕ → UInt8} {s : Session}
    {fresh freshParent fresh' freshParent' : FatDirLayout} {p : Text} {block : Bytes} {n i : ℕ}
    {l : List ℕ} {f : FatDirLayout} (hg : Geometry s.volume.boot)
    (hbak : s.volume.fatTableBak.length = s.volume.fatTable.length)
    (hs : Stands fill s block n l) (hp : PlainName p) (hf : FoundAt block p n i f)
    (hlive : isDeleted f = false) (hdir : isDirectory f.attr = false)
    (hchain : s.volume.Chain (s.volume.firstCluster f) [s.volume.firstCluster f]) :
    Undoes fill s fresh freshParent fresh' freshParent' p f ↔ Undoable fill s p block n l i f :=
  ⟨undoable_of_undoes hg hs hp hf hlive hchain hbak,
    undoes_of_undoable hg hs hp hf hdir hchain hbak⟩

/-- A FAT16 volume with a deleted file `?B.T` of the cluster 4 in front of the files `LB.T` and
`MC.T` of the clusters 2 and 3. -/
def twinVolume : Volume :=
  { lostVolume with
    fatTable := [0xF8, 0xFF, 0xFF, 0xFF, 0xFF, 0xFF, 0xFF, 0xFF] ++ List.replicate 504 0
    fatTableBak := [0xF8, 0xFF, 0xFF, 0xFF, 0xFF, 0xFF, 0xFF, 0xFF] ++ List.replicate 504 0
    rootDir := (fileT 0xE5 0x42 4).bytes ++ (fileT 0x4C 0x42 2).bytes ++
      (fileT 0x4D 0x43 3).bytes ++ List.replicate 416 0 }

def twinImage : Bytes :=
  twinVolume.boot.toBytes ++ List.replicate 476 0 ++ twinVolume.fatTable ++
    twinVolume.fatTable ++ twinVolume.rootDir ++ List.replicate 1536 0

def twinSession : Session := ⟨twinVolume, twinImage, [slash], .initial⟩

theorem twinVolume_plain : Plain16 twinVolume := by
  refine ⟨⟨rfl, rfl, length_filled rfl, length_filled rfl, length_filled ?_, rfl⟩, rfl, rfl, rfl,
    rfl, rfl, rfl, rfl, by decide⟩
  rw [List.length_append, List.length_append, FatDirLayout.length_bytes,
    FatDirLayout.length_bytes, FatDirLayout.length_bytes]
  rfl

theorem twinVolume_geometry : Geometry twinVolume.boot := by
  refine ⟨by decide, by decide, ?_⟩
  have hsize : clusterBytes twinVolume.boot = 512 := by decide
  rw [hsize]
  norm_num

theorem twinVolume_values : entryAt twinVolume.rootDir 0 = .ok (fileT 0xE5 0x42 4) ∧
    entryAt twinVolume.rootDir 1 = .ok (fileT 0x4C 0x42 2) ∧
    entryAt twinVolume.rootDir 2 = .ok (fileT 0x4D 0x43 3) ∧
    (∀ j < 16, entryAt twinVolume.rootDir j ≠ .ok ((fileT 0x4D 0x43 3).setNameHead 0xE5)) ∧
    twinVolume.nextCluster 2 = .ok 0 ∧ twinVolume.nextCluster 3 = .ok 0 := by
  decide +kernel

theorem twinSession_names : components twinSession.currentPath = [] := by decide

theorem twinSession_stands : Stands (fun _ => 0) twinSession twinVolume.rootDir 16 [] :=
  ⟨⟨⟨[], rfl⟩, fun _ => rfl⟩, none, twinSession_names, rfl, rfl, rfl⟩

theorem twinVolume_chains :
    twinVolume.Chain (twinVolume.firstCluster (fileT 0x4C 0x42 2))
        [twinVolume.firstCluster (fileT 0x4C 0x42 2)] ∧
      twinVolume.Chain (twinVolume.firstCluster (fileT 0x4D 0x43 3))
        [twinVolume.firstCluster (fileT 0x4D 0x43 3)] := by
  obtain ⟨-, -, -, -, h₂, h₃⟩ := twinVolume_values
  exact ⟨.step (by decide) h₂ .stop, .step (by decide) h₃ .stop⟩

/-- `delete LB.T` and `undelete LB.T` bring the file back that was deleted before. -/
theorem undelete_other_file : mounted16 twinSession.image = twinSession.volume ∧
    Geometry twinSession.volume.boot ∧
    Stands (fun _ => 0) twinSession twinVolume.rootDir 16 [] ∧
    PlainName [0x4C, 0x42, dot, 0x54] ∧
    FoundAt twinVolume.rootDir [0x4C, 0x42, dot, 0x54] 16 1 (fileT 0x4C 0x42 2) ∧
    ShownNames.shownName (fileT 0x4C 0x42 2) = some [0x4C, 0x42, dot, 0x54] ∧
    isDirectory (fileT 0x4C 0x42 2).attr = false ∧ (fileT 0x4C 0x42 2).fileSize ≠ 0 ∧
    twinVolume.Chain (twinVolume.firstCluster (fileT 0x4C 0x42 2))
      [twinVolume.firstCluster (fileT 0x4C 0x42 2)] ∧
    ¬ Undoes (fun _ => 0) twinSession (fileT 0 0 0) (fileT 0 0 0) (fileT 0 0 0) (fileT 0 0 0)
      [0x4C, 0x42, dot, 0x54] (fileT 0x4C 0x42 2) := by
  obtain ⟨h₀, h₁, -⟩ := twinVolume_values
  have hp : PlainName [0x4C, 0x42, dot, 0x54] := ⟨by decide, by decide, by decide⟩
  have hf : FoundAt twinVolume.rootDir [0x4C, 0x42, dot, 0x54] 16 1 (fileT 0x4C 0x42 2) := by
    refine ⟨by norm_num, h₁, by decide, fun j hj => ?_⟩
    obtain rfl : j = 0 := by omega
    exact ⟨_, h₀, by decide⟩
  have hchain := twinVolume_chains.1
  refine ⟨twinVolume_plain.mounted _, twinVolume_geometry, twinSession_stands, hp, hf,
    by decide, by decide, by decide, hchain, fun hu => ?_⟩
  have hundoable := undoable_of_undoes twinVolume_geometry twinSession_stands hp hf (by decide)
    hchain rfl hu
  exact hundoable.first 0 (by decide) _ h₀ (by decide)

/-- `delete MC.T` and `undelete MC.T` bring that file back. -/
theorem undelete_same_file :
    Undoes (fun _ => 0) twinSession (fileT 0 0 0) (fileT 0 0 0) (fileT 0 0 0) (fileT 0 0 0)
      [0x4D, 0x43, dot, 0x54] (fileT 0x4D 0x43 3) := by
  obtain ⟨h₀, h₁, h₂, halone, -⟩ := twinVolume_values
  have hcases (j : ℕ) (hj : j < 2) : entryAt twinVolume.rootDir j = .ok (fileT 0xE5 0x42 4) ∨
      entryAt twinVolume.rootDir j = .ok (fileT 0x4C 0x42 2) := by
    obtain rfl | rfl : j = 0 ∨ j = 1 := by omega
    · exact .inl h₀
    · exact .inr h₁
  have hf : FoundAt twinVolume.rootDir [0x4D, 0x43, dot, 0x54] 16 2 (fileT 0x4D 0x43 3) := by
    refine ⟨by norm_num, h₂, by decide, fun j hj => ?_⟩
    rcases hcases j hj with h | h
    · exact ⟨_, h, by decide⟩
    · exact ⟨_, h, by decide⟩
  have hlen : twinVolume.rootDir.length = 512 := twinVolume_plain.sized.rootDir
  refine (delete_undelete_iff twinVolume_geometry rfl twinSession_stands
    ⟨by decide, by decide, by decide⟩ hf (by decide) (by decide)
    twinVolume_chains.2).mpr ⟨by rw [hlen]; decide, by decide, by decide, halone,
      fun j hj e he => ?_, ?_⟩
  · rcases hcases j hj with h | h
    · rw [h, Except.ok.injEq] at he
      rw [← he]
      decide
    · rw [h, Except.ok.injEq] at he
      rw [← he]
      decide
  · exact ⟨_, _, [], ⟨none, twinSession_names, rfl, rfl, rfl⟩, rfl⟩

end TFAT.RestoredEntries
