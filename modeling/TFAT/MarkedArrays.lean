import TFAT.MarkedPlaces

/-!
# Arrays of entries before and behind the marking loop

The loop of `delete` and `undelete` gives every copy of an entry another first byte. On
an array that holds no entry which looks like a marked one, marking back is the inverse.
The root directory, and a directory of one cluster, are left just so.
-/
namespace TFAT.MarkedArrays
open ByteRegions LittleEndianWords LinkedChains DiskLayout ClusterTable ClusterPlacement
open FileDescriptor DirectoryIO PathText PathResolution UserCommands VolumeTree DirectoryTree
open ChainRelease EntryMarking MarkedTree MarkedPlaces

/-- The array with another first name byte in each of its first `n` entries that equals `f`. -/
def remark (f : FatDirLayout) (b : UInt8) (block : Bytes) : ℕ → Bytes
  | 0 => block
  | n + 1 =>
      if entryAt block n = .ok f then splice 0 (remark f b block n) (entrySize * n) [b]
      else remark f b block n

section Arrays
variable {f : FatDirLayout} {b c : UInt8} {block other : Bytes} {n i j : ℕ}

@[simp] theorem length_remark : (remark f b block n).length = block.length := by
  induction n with
  | zero => rfl
  | succ n ih =>
      rw [remark]
      split_ifs with he
      · have hn := (entryAt_eq_ok_iff.mp he).1
        rw [length_splice_of_le (by rw [ih]; exact length_name_le hn), ih]
      · exact ih

theorem entryAt_remark (j : ℕ) :
    entryAt (remark f b block n) j = (entryAt block j).map (relabel f b n j) := by
  induction n with
  | zero =>
      rw [remark]
      cases entryAt block j <;> simp [Except.map, relabel]
  | succ n ih =>
      rw [remark]
      split_ifs with he
      · have hn := (entryAt_eq_ok_iff.mp he).1
        rw [entryAt_splice b (by rw [length_remark]; exact hn), ih]
        by_cases hj : j = n
        · subst hj
          rw [he]
          simp [Except.map, relabel]
        · have hjn : j < n + 1 ↔ j < n := by omega
          cases entryAt block j <;> simp [Except.map, relabel, hj, hjn]
      · rw [ih]
        by_cases hj : j = n
        · subst hj
          cases hb : entryAt block j with
          | error => rfl
          | ok e =>
              have hne : e ≠ f := fun h => he (h ▸ hb)
              simp [Except.map, relabel, hne]
        · have hjn : j < n + 1 ↔ j < n := by omega
          cases entryAt block j <;> simp [Except.map, relabel, hjn]

theorem remark_ne (hi : i < n) (he : entryAt block i = .ok f) (hb : f.nameHead ≠ b) :
    remark f b block n ≠ block := by
  intro h
  have hmarked : entryAt (remark f b block n) i = (entryAt block i).map (relabel f b n i) :=
    entryAt_remark i
  rw [h, he] at hmarked
  simp only [Except.map, relabel, hi, true_and, if_true, Except.ok.injEq] at hmarked
  exact setNameHead_ne hb hmarked.symm

/-- Behind its first entries a marked array is as before. -/
theorem drop_remark : (remark f b block n).drop (entrySize * n) = block.drop (entrySize * n) := by
  have hdrop (m : ℕ) (hm : n ≤ m) :
      (remark f b block n).drop (entrySize * m) = block.drop (entrySize * m) := by
    induction n with
    | zero => rfl
    | succ n ih =>
        rw [remark]
        split_ifs with he
        · have hn := (entryAt_eq_ok_iff.mp he).1
          have hle := Nat.mul_le_mul_left entrySize hm
          rw [Nat.mul_succ] at hle
          rw [drop_splice (by rw [length_remark]; exact length_name_le hn) (length_name_le hle)]
          exact ih (by omega)
        · exact ih (by omega)
  exact hdrop n le_rfl

theorem array_ext (hl : block.length = other.length) (hn : entrySize * n ≤ block.length)
    (he : ∀ j < n, entryAt block j = entryAt other j)
    (hd : block.drop (entrySize * n) = other.drop (entrySize * n)) : block = other := by
  apply List.ext_getElem?
  intro k
  have hpos : 0 < entrySize := by decide
  rcases Nat.lt_or_ge k (entrySize * n) with hk | hk
  · have hj : k / entrySize < n := Nat.div_lt_of_lt_mul hk
    have hin : entrySize * (k / entrySize) + entrySize ≤ block.length := by
      have hm := Nat.mul_le_mul_left entrySize (Nat.succ_le_of_lt hj)
      rw [Nat.mul_succ] at hm
      omega
    have hs : slice block (entrySize * (k / entrySize)) entrySize =
        slice other (entrySize * (k / entrySize)) entrySize := by
      have hej := he _ hj
      rw [show entryAt block (k / entrySize) = .ok ⟨_, length_slice_of_le hin⟩ from dif_pos hin]
        at hej
      exact (entryAt_eq_ok_iff.mp hej.symm).2
    have hk' := congrArg (fun l : Bytes => l[k % entrySize]?) hs
    simp only [getElem?_slice, if_pos (Nat.mod_lt k hpos), Nat.div_add_mod] at hk'
    exact hk'
  · have hk' := congrArg (fun l : Bytes => l[k - entrySize * n]?) hd
    simp only [List.getElem?_drop, Nat.add_sub_cancel' hk] at hk'
    exact hk'

/-- Where no entry looks like a marked one, marking back brings the array back. -/
theorem remark_remark (hn : entrySize * n ≤ block.length)
    (hone : ∀ j < n, entryAt block j ≠ .ok (f.setNameHead b)) :
    remark (f.setNameHead b) f.nameHead (remark f b block n) n = block := by
  refine array_ext (by simp) (by simpa using hn) (fun j hj => ?_) (drop_remark.trans drop_remark)
  rw [entryAt_remark, entryAt_remark]
  cases hj' : entryAt block j with
  | error => rfl
  | ok e =>
      simp only [Except.map, relabel, hj, true_and, Except.ok.injEq]
      by_cases he : e = f
      · rw [if_pos he, he, if_pos rfl, setNameHead_setNameHead, setNameHead_nameHead]
      · have hne : e ≠ f.setNameHead b := fun h => hone j hj (h ▸ hj')
        rw [if_neg he, if_neg hne]

/-- Marking another entry brings the array back only if it is the one marked before. -/
theorem of_remark_remark {g : FatDirLayout} (hi : i < n) (he : entryAt block i = .ok f)
    (hb : f.nameHead ≠ b) (h : remark g c (remark f b block n) n = block) :
    g = f.setNameHead b ∧ c = f.nameHead ∧ ∀ j < n, entryAt block j ≠ .ok (f.setNameHead b) := by
  have hent (j : ℕ) (hj : j < n) {e : FatDirLayout} (hej : entryAt block j = .ok e) :
      relabel g c n j (relabel f b n j e) = e := by
    have hej' : entryAt (remark g c (remark f b block n) n) j =
        (entryAt (remark f b block n) j).map (relabel g c n j) := entryAt_remark j
    rw [h, entryAt_remark, hej] at hej'
    exact (Except.ok.inj hej').symm
  have hmarked := hent i hi he
  simp only [relabel, hi, true_and, if_true] at hmarked
  split_ifs at hmarked with hg
  · have hc := congrArg FatDirLayout.nameHead hmarked
    rw [nameHead_setNameHead] at hc
    refine ⟨hg.symm, hc, fun j hj hej => ?_⟩
    have hback := hent j hj hej
    have hne := setNameHead_ne hb
    simp only [relabel, hj, true_and, if_neg hne, if_pos hg] at hback
    rw [setNameHead_setNameHead] at hback
    have hhead := congrArg FatDirLayout.nameHead hback
    rw [nameHead_setNameHead, nameHead_setNameHead, hc] at hhead
    exact hb hhead
  · exact absurd hmarked (setNameHead_ne hb)

end Arrays

/-- The session with the volume `w` and another array in the place of the root directory, or
in the first of the clusters. -/
def putArray (s : Session) (w : Volume) (block : Bytes) : List ℕ → Session
  | [] => { s with volume := { w with rootDir := block } }
  | c :: _ => { s with volume := w, image := splice 0 s.image (s.volume.clusterToSector c) block }

/-- The array in that place. -/
def arrayAt (s : Session) : List ℕ → Bytes
  | [] => s.volume.rootDir
  | c :: _ => cluster s.volume s.image c

/-- The place is one cluster at most, which holds as many bytes as the array has. -/
def Fits (s : Session) (block : Bytes) : List ℕ → Prop
  | [] => True
  | c :: l => l = [] ∧ InImage s.volume s.image c ∧ block.length = clusterBytes s.volume.boot

section Fields
variable (s : Session) (w : Volume) (t k block : Bytes) (l : List ℕ)

@[simp] theorem boot_putArray : (putArray s w block l).volume.boot = w.boot := by
  cases l <;> rfl

@[simp] theorem fatn_putArray : (putArray s w block l).volume.fatn = w.fatn := by
  cases l <;> rfl

@[simp] theorem fatTable_putArray : (putArray s w block l).volume.fatTable = w.fatTable := by
  cases l <;> rfl

@[simp] theorem fatTableBak_putArray :
    (putArray s w block l).volume.fatTableBak = w.fatTableBak := by
  cases l <;> rfl

@[simp] theorem nextCluster_putArray :
    (putArray s w block l).volume.nextCluster = w.nextCluster := by
  cases l <;> rfl

@[simp] theorem firstCluster_putArray :
    (putArray s w block l).volume.firstCluster = w.firstCluster := by
  cases l <;> rfl

@[simp] theorem clusterToSector_putArray :
    (putArray s w block l).volume.clusterToSector = w.clusterToSector := by
  cases l <;> rfl

@[simp] theorem currentPath_putArray : (putArray s w block l).currentPath = s.currentPath := by
  cases l <;> rfl

theorem retable_putArray : retable (putArray s w block l).volume t k =
    (putArray s (retable w t k) block l).volume := by
  cases l <;> rfl

theorem image_putArray : (putArray s w block l).image = (putArray s s.volume block l).image := by
  cases l <;> rfl

end Fields

section Placing
variable {s : Session} {block t k t' k' : Bytes} {l l' : List ℕ}

theorem length_image_putArray (hf : Fits s block l) (w : Volume) :
    (putArray s w block l).image.length = s.image.length := by
  cases l with
  | nil => rfl
  | cons c l =>
      obtain ⟨-, hin, hlen⟩ := hf
      refine length_splice_of_le ?_
      rw [hlen]
      exact hin

theorem fits_remark (f : FatDirLayout) (b : UInt8) (n : ℕ) (hf : Fits s block l) :
    Fits s (remark f b block n) l := by
  cases l with
  | nil => trivial
  | cons c l => exact ⟨hf.1, hf.2.1, length_remark.trans hf.2.2⟩

/-- The array that has been put into a place is there, under whichever number. -/
theorem arrayAt_putArray (hf : Fits s block l)
    (hl : l'.map s.volume.clusterToSector = l.map s.volume.clusterToSector) (t k : Bytes) :
    arrayAt (putArray s (retable s.volume t k) block l) l' = block := by
  cases l with
  | nil =>
      obtain rfl : l' = [] := by simpa using hl
      rfl
  | cons c l =>
      obtain ⟨rfl, hin, hlen⟩ := hf
      obtain ⟨c', rfl, hc⟩ : ∃ c', l' = [c'] ∧
          s.volume.clusterToSector c' = s.volume.clusterToSector c := by
        simpa [List.map_eq_cons_iff] using hl
      change slice (splice 0 s.image (s.volume.clusterToSector c) block)
        (s.volume.clusterToSector c') (clusterBytes s.volume.boot) = block
      rw [hc, ← hlen, slice_splice_self]

theorem arrayAt_putArray_of_ne (hg : Geometry s.volume.boot) {other : Bytes}
    (hf : Fits s block l) (hf' : Fits s other l')
    (hl : l'.map s.volume.clusterToSector ≠ l.map s.volume.clusterToSector) (t k : Bytes) :
    arrayAt (putArray s (retable s.volume t k) block l) l' = arrayAt s l' := by
  cases l with
  | nil =>
      cases l' with
      | nil => exact absurd rfl hl
      | cons c' l' => rfl
  | cons c l =>
      cases l' with
      | nil => rfl
      | cons c' l' =>
          obtain ⟨rfl, hin, hlen⟩ := hf
          obtain ⟨rfl, hin', -⟩ := hf'
          have hne : s.volume.clusterToSector c' ≠ s.volume.clusterToSector c := by
            intro h
            exact hl (by rw [List.map_singleton, List.map_singleton, h])
          refine slice_splice_disjoint hin' ?_
          rw [hlen]
          exact clusterSpan_apart hg hne

theorem putArray_back (hf : Fits s block l)
    (hl : l'.map s.volume.clusterToSector = l.map s.volume.clusterToSector) :
    putArray (putArray s (retable s.volume t k) block l)
      (retable (putArray s (retable s.volume t k) block l).volume t' k') (arrayAt s l) l' =
        { s with volume := retable s.volume t' k' } := by
  cases l with
  | nil =>
      obtain rfl : l' = [] := by simpa using hl
      rfl
  | cons c l =>
      obtain ⟨rfl, hin, hblock⟩ := hf
      obtain ⟨c', rfl, hc⟩ : ∃ c', l' = [c'] ∧
          s.volume.clusterToSector c' = s.volume.clusterToSector c := by
        simpa [List.map_eq_cons_iff] using hl
      have himg : splice 0 (splice 0 s.image (s.volume.clusterToSector c) block)
          (s.volume.clusterToSector c') (cluster s.volume s.image c) = s.image := by
        have hfit : s.volume.clusterToSector c + block.length ≤ s.image.length := by
          rw [hblock]
          exact hin
        rw [hc, splice_splice_same hfit (hblock.trans (length_cluster hin).symm)]
        exact splice_slice_self 0 s.image hin
      exact congrArg (fun img : Bytes =>
        ({ s with volume := retable s.volume t' k', image := img } : Session)) himg

end Placing

section Marking
variable {fill : ℕ → UInt8} {s s' : Session} {block t k : Bytes} {n i : ℕ} {l : List ℕ}
variable {parent : Option FatDirLayout} {d f : FatDirLayout} {b : UInt8} {w : Volume}

theorem single_of_arrayOf (hg : Geometry s.volume.boot)
    (ha : ArrayOf fill s.volume s.image block n l (some d)) (hl : l.length ≤ 1) :
    isDirectory d.attr ∧ l = [s.volume.firstCluster d] ∧
      InImage s.volume s.image (s.volume.firstCluster d) ∧
      block = cluster s.volume s.image (s.volume.firstCluster d) ∧
      n = clusterBytes s.volume.boot / entrySize := by
  obtain ⟨hblock, hn⟩ := ha.contents hg
  obtain ⟨hdir, m, rfl, hin⟩ := ha.clusters
  obtain rfl : m = [] := List.eq_nil_of_length_eq_zero (by simpa using hl)
  refine ⟨hdir, rfl, hin, ?_, ?_⟩
  · rw [hblock, contents, List.flatMap_cons, List.flatMap_nil, List.append_nil]
  · rw [hn, List.length_singleton, Nat.one_mul]

theorem eq_arrayAt (hg : Geometry s.volume.boot)
    (ha : ArrayOf fill s.volume s.image block n l parent) (hl : l.length ≤ 1) :
    block = arrayAt s l := by
  cases parent with
  | none =>
      obtain ⟨rfl, -, rfl⟩ := ha
      rfl
  | some d =>
      obtain ⟨-, rfl, -, hblock, -⟩ := single_of_arrayOf hg ha hl
      exact hblock

theorem fits_of_arrayOf (hg : Geometry s.volume.boot)
    (ha : ArrayOf fill s.volume s.image block n l parent) (hl : l.length ≤ 1) :
    Fits s block l := by
  cases parent with
  | none =>
      obtain ⟨-, -, rfl⟩ := ha
      trivial
  | some d =>
      obtain ⟨-, rfl, hin, rfl, -⟩ := single_of_arrayOf hg ha hl
      exact ⟨rfl, hin, length_cluster hin⟩

/-- The number of entries of an array that is opened. -/
theorem size_of_arrayOf (hg : Geometry s.volume.boot)
    (ha : ArrayOf fill s.volume s.image block n l parent) (hl : l.length ≤ 1) :
    n = if l = [] then s.volume.boot.rootEntryCount.toNat
      else clusterBytes s.volume.boot / entrySize := by
  cases parent with
  | none =>
      obtain ⟨-, rfl, rfl⟩ := ha
      rfl
  | some d =>
      obtain ⟨-, rfl, -, -, rfl⟩ := single_of_arrayOf hg ha hl
      rfl

theorem length_le_one_of_map {l' : List ℕ} {g : ℕ → ℕ} (h : l'.map g = l.map g)
    (hl : l.length ≤ 1) : l'.length ≤ 1 := by
  have hlen := congrArg List.length h
  rw [List.length_map, List.length_map] at hlen
  exact hlen.trans_le hl

/-- An array that is opened in a place where another one has been put is that one. -/
theorem opened_of_putArray {other block' : Bytes} {n' : ℕ} {l' : List ℕ}
    {parent' : Option FatDirLayout} (hg : Geometry s.volume.boot)
    (ha : ArrayOf fill s.volume s.image block n l parent) (hl : l.length ≤ 1)
    (hf : Fits s other l)
    (hplace : l'.map s.volume.clusterToSector = l.map s.volume.clusterToSector)
    (ha' : ArrayOf fill (putArray s (retable s.volume t k) other l).volume
      (putArray s (retable s.volume t k) other l).image block' n' l' parent') :
    block' = other ∧ n' = n := by
  have hboot : (putArray s (retable s.volume t k) other l).volume.boot = s.volume.boot :=
    boot_putArray s _ other l
  have hg' : Geometry (putArray s (retable s.volume t k) other l).volume.boot := hboot ▸ hg
  have hl' := length_le_one_of_map hplace hl
  have hnil : l' = [] ↔ l = [] := by
    rw [← List.map_eq_nil_iff, hplace, List.map_eq_nil_iff]
  refine ⟨(eq_arrayAt hg' ha' hl').trans (arrayAt_putArray hf hplace t k), ?_⟩
  rw [size_of_arrayOf hg' ha' hl', size_of_arrayOf hg ha hl, hboot]
  simp only [hnil]

theorem markLoop_eq (image : ℕ → Bytes) {m : ℕ} (hm : entrySize * m ≤ block.length)
    (hkept : ∀ j < m, entryAt block j ≠ .ok f → image (j + 1) = image j)
    (hwrote : ∀ j < m, entryAt block j = .ok f →
      Wrote w n (image j) ⟨remark f b block (j + 1), image (j + 1)⟩ parent) :
    (List.range m).foldlM (markEntry w parent n f b) ⟨block, image 0⟩ =
      .ok ⟨remark f b block m, image m⟩ := by
  induction m with
  | zero => rfl
  | succ m ih =>
      have hin : entrySize * m + entrySize ≤ block.length := by rwa [Nat.mul_succ] at hm
      have hsame : entryAt (remark f b block m) m = entryAt block m := by
        rw [entryAt_remark]
        cases entryAt block m <;> simp [Except.map, relabel]
      rw [List.range_succ, List.foldlM_append, ih (by omega) (fun j hj => hkept j (by omega))
        (fun j hj => hwrote j (by omega)), ok_bind, List.foldlM_cons]
      have hround : markEntry w parent n f b ⟨remark f b block m, image m⟩ m =
          .ok ⟨remark f b block (m + 1), image (m + 1)⟩ := by
        by_cases he : entryAt block m = .ok f
        · refine markEntry_of_eq (hsame.trans he) ?_ (hwrote m (Nat.lt_succ_self m) he)
          rw [remark, if_pos he]
        · obtain ⟨e, hone⟩ : ∃ e, entryAt block m = .ok e := ⟨_, dif_pos hin⟩
          have hne : e ≠ f := fun h => he (h ▸ hone)
          have hentry : entryAt (Marking.mk (remark f b block m) (image m)).folder m = .ok e :=
            hsame.trans hone
          rw [markEntry_of_ne hentry hne, hkept m (Nat.lt_succ_self m) he, remark, if_neg he]
      rw [hround, ok_bind]
      rfl

/-- In the root directory and in a directory of one cluster a command marks every copy of the
entry and leaves the rest. -/
theorem markEntries_eq (hg : Geometry s.volume.boot)
    (ha : ArrayOf fill s.volume s.image block n l parent) (hle : entrySize * n ≤ block.length)
    (hl : l.length ≤ 1) (hnext : (retable s.volume t k).nextCluster = s.volume.nextCluster) :
    markEntries s (retable s.volume t k) parent block n f b =
      .ok (putArray s (retable s.volume t k) (remark f b block n) l) := by
  cases parent with
  | none =>
      obtain ⟨rfl, -, rfl⟩ := ha
      have hloop : (List.range n).foldlM (markEntry (retable s.volume t k) none n f b)
          ⟨s.volume.rootDir, s.image⟩ = .ok ⟨remark f b s.volume.rootDir n, s.image⟩ :=
        markLoop_eq (fun _ => s.image) hle (fun _ _ _ => rfl) fun _ _ _ => rfl
      rw [markEntries, hloop, ok_bind]
      rfl
  | some d =>
      obtain ⟨hdir, rfl, hin, hblock, hn⟩ := single_of_arrayOf hg ha hl
      have hchain : (retable s.volume t k).Chain (s.volume.firstCluster d)
          [s.volume.firstCluster d] := by
        rw [Volume.Chain, hnext]
        exact ha.2.1
      have hlen : block.length = clusterBytes s.volume.boot := hblock ▸ length_cluster hin
      have hlast (j : ℕ) : slice (remark f b block j) 0 (clusterBytes s.volume.boot) =
          remark f b block j := by
        rw [← hlen, ← length_remark (f := f) (b := b) (n := j), slice_zero_length]
      have hfits (j : ℕ) : s.volume.clusterToSector (s.volume.firstCluster d) +
          (remark f b block j).length ≤ s.image.length := by
        rw [length_remark, hlen]
        exact hin
      have hstart : splice 0 s.image (s.volume.clusterToSector (s.volume.firstCluster d)) block =
          s.image := by
        rw [hblock]
        exact splice_slice_self 0 s.image hin
      have hwrote (j : ℕ) : writeDir (retable s.volume t k)
          (splice 0 s.image (s.volume.clusterToSector (s.volume.firstCluster d))
            (remark f b block j)) d (remark f b block (j + 1)) n =
          .ok (splice 0 s.image (s.volume.clusterToSector (s.volume.firstCluster d))
            (remark f b block (j + 1))) := by
        rw [writeDir_of_single (v := retable s.volume t k) hdir hchain
          (by rw [length_remark, hlen]; rfl)]
        refine congrArg Except.ok ?_
        change splice 0 _ (s.volume.clusterToSector (s.volume.firstCluster d))
          (slice (remark f b block (j + 1)) 0 (clusterBytes s.volume.boot)) = _
        rw [hlast, splice_splice_same (hfits j) (by rw [length_remark, length_remark])]
      have hloop : (List.range n).foldlM (markEntry (retable s.volume t k) (some d) n f b)
          ⟨block, splice 0 s.image (s.volume.clusterToSector (s.volume.firstCluster d)) block⟩ =
            .ok ⟨remark f b block n, splice 0 s.image
              (s.volume.clusterToSector (s.volume.firstCluster d)) (remark f b block n)⟩ :=
        markLoop_eq (fun j => splice 0 s.image
          (s.volume.clusterToSector (s.volume.firstCluster d)) (remark f b block j)) hle
          (fun j _ he => by rw [remark, if_neg he]) fun j _ _ => hwrote j
      rw [hstart] at hloop
      rw [markEntries, hloop, ok_bind]
      rfl

theorem inImage_of_writeDir {img img' : Bytes} {size : ℤ} (hpos : 0 < clusterBytes w.boot)
    (hdir : isDirectory d.attr) (hchain : w.Chain (w.firstCluster d) [w.firstCluster d])
    (hle : clusterBytes w.boot ≤ block.length) (h : writeDir w img d block size = .ok img') :
    InImage w img' (w.firstCluster d) := by
  rw [writeDir_of_single hdir hchain hle, Except.ok.injEq] at h
  have hdata : (slice block 0 (clusterBytes w.boot)).length = clusterBytes w.boot :=
    length_slice_of_le (by omega)
  have hlen := length_splice 0 img (w.clusterToSector (w.firstCluster d))
    (slice block 0 (clusterBytes w.boot))
  rw [hdata, if_neg hpos.ne'] at hlen
  change splice 0 img (w.clusterToSector (w.firstCluster d)) _ = img' at h
  rw [h] at hlen
  change w.clusterToSector (w.firstCluster d) + clusterBytes w.boot ≤ img'.length
  omega

/-- A command that finds its entry in the array of a subdirectory and returns has written a
directory of one cluster. -/
theorem opened_of_markEntries (hg : Geometry s.volume.boot)
    (hp : parseDir fill s.volume s.image d = .ok (some (block, n))) (hi : i < n)
    (he : entryAt block i = .ok f)
    (hnext : (retable s.volume t k).nextCluster = s.volume.nextCluster)
    (h : markEntries s (retable s.volume t k) (some d) block n f b = .ok s') :
    entrySize * n ≤ block.length ∧
      s.volume.Chain (s.volume.firstCluster d) [s.volume.firstCluster d] ∧
      InImage s.volume s'.image (s.volume.firstCluster d) := by
  obtain ⟨m, hm, hfin⟩ := bind_eq_ok.mp h
  have hle : entrySize * n ≤ block.length := (of_markLoop hm).1
  obtain ⟨hdir, l, hl, hne, -, hlen, hsmall, -⟩ := whole_of_parseDir hg.entries hp hle
  obtain ⟨r, c, rfl⟩ := (List.eq_nil_or_concat' l).resolve_left hne
  have hchain : (retable s.volume t k).Chain (s.volume.firstCluster d) (r ++ [c]) := by
    rw [Volume.Chain, hnext]
    exact hl
  obtain ⟨img₁, folder', hlen', hw⟩ := exists_writeDir_of_markLoop hi he hm
  have hspan := length_of_writeDir (v := retable s.volume t k) hdir hchain hw
  rw [hlen', hlen] at hspan
  rw [hlen] at hsmall
  rw [List.length_append, List.length_singleton] at hspan hsmall
  have hr := clusters_of_span hg.pos hsmall le_rfl hspan
  obtain rfl : r = [] := List.eq_nil_of_length_eq_zero (by omega)
  obtain ⟨q, hq⟩ := hl.exists_eq_cons hne
  rw [List.nil_append, List.cons.injEq] at hq
  obtain rfl := hq.1
  refine ⟨hle, hl, ?_⟩
  have himg : s'.image = m.image := by
    rw [← Except.ok.inj hfin]
  rw [himg]
  refine inImage_of_writeDir (w := retable s.volume t k) hg.pos hdir hchain ?_ hw
  rw [hlen', hlen]
  exact Nat.le_mul_of_pos_left _ (by simp)

/-- A command that finds its entry in an array and returns has marked the root directory or a
directory of one cluster. -/
theorem single_of_markEntries (hg : Geometry s.volume.boot)
    (ha : ArrayOf fill s.volume s.image block n l parent) (hi : i < n)
    (he : entryAt block i = .ok f)
    (hnext : (retable s.volume t k).nextCluster = s.volume.nextCluster)
    (h : markEntries s (retable s.volume t k) parent block n f b = .ok s') :
    entrySize * n ≤ block.length ∧ l.length ≤ 1 := by
  cases parent with
  | none =>
      obtain ⟨m, hm, -⟩ := bind_eq_ok.mp h
      obtain ⟨-, -, rfl⟩ := ha
      exact ⟨(of_markLoop hm).1, Nat.zero_le 1⟩
  | some d =>
      obtain ⟨hle, hchain, -⟩ := opened_of_markEntries hg ha.1 hi he hnext h
      rw [ha.2.1.unique hchain]
      exact ⟨hle, le_rfl⟩

end Marking

end TFAT.MarkedArrays
