import TFAT.UserCommands
import TFAT.VolumeTree

/-!
# The loop that marks entries

`delete` and `undelete` give a new first name byte to every entry of an array
that equals the entry they have found. In the root directory the array is the
one in memory. In another directory the array is a copy, and each marked entry
sends the copy back to the disk.
-/
namespace TFAT.EntryMarking
open ByteRegions LittleEndianWords LinkedChains DiskLayout ClusterTable ClusterPlacement
open FileDescriptor DirectoryIO PathResolution UserCommands VolumeTree

/-- An entry as the loop leaves it behind the first `n` indices. -/
def relabel (file : FatDirLayout) (b : UInt8) (n j : ℕ) (e : FatDirLayout) : FatDirLayout :=
  if j < n ∧ e = file then e.setNameHead b else e

section Folder
variable {folder : Bytes} {i : ℕ}

/-- The first name byte of an entry is a byte of it. -/
theorem length_name_le {b : UInt8} {n : ℕ} (h : entrySize * i + entrySize ≤ n) :
    entrySize * i + [b].length ≤ n := by
  rw [List.length_singleton]
  rw [entrySize] at *
  omega

theorem slice_splice_name (b : UInt8) (hi : entrySize * i + entrySize ≤ folder.length) {j : ℕ}
    (hj : entrySize * j + entrySize ≤ folder.length) {e : FatDirLayout}
    (he : e.bytes = slice folder (entrySize * j) entrySize) :
    (if j = i then e.setNameHead b else e).bytes =
      slice (splice 0 folder (entrySize * i) [b]) (entrySize * j) entrySize := by
  have hpos : 1 ≤ entrySize := by decide
  split_ifs with hij
  · subst hij
    apply List.ext_getElem?
    intro k
    have hl := e.length_bytes
    rw [FatDirLayout.setNameHead, getElem?_slice,
      getElem?_splice_of_le (by rw [hl, List.length_singleton]; omega), he, getElem?_slice,
      getElem?_splice_of_le (by rw [List.length_singleton]; omega), List.length_singleton]
    by_cases hk : k < entrySize
    · rw [if_pos hk, if_pos hk]
      split_ifs
      · congr 1
        omega
      all_goals first | rfl | omega
    · rw [if_neg hk, if_neg hk, if_neg (by omega)]
  · rw [he, slice_splice_disjoint hj]
    rw [List.length_singleton]
    rcases Nat.lt_or_gt_of_ne hij with hlt | hgt
    · have hm := Nat.mul_le_mul_left entrySize (Nat.succ_le_of_lt hlt)
      rw [Nat.mul_succ] at hm
      exact .inl hm
    · have hm := Nat.mul_le_mul_left entrySize (Nat.succ_le_of_lt hgt)
      rw [Nat.mul_succ] at hm
      exact .inr (by omega)

theorem entryAt_splice (b : UInt8) (hi : entrySize * i + entrySize ≤ folder.length) (j : ℕ) :
    entryAt (splice 0 folder (entrySize * i) [b]) j =
      (entryAt folder j).map fun e => if j = i then e.setNameHead b else e := by
  have hlen : (splice 0 folder (entrySize * i) [b]).length = folder.length :=
    length_splice_of_le (length_name_le hi)
  by_cases hj : entrySize * j + entrySize ≤ folder.length
  · have he : entryAt folder j = .ok ⟨_, length_slice_of_le hj⟩ := dif_pos hj
    rw [he, Except.map, entryAt_eq_ok_iff, hlen]
    exact ⟨hj, slice_splice_name b hi hj rfl⟩
  · have he : entryAt folder j = .error .wild := dif_neg hj
    rw [he, Except.map, entryAt, dif_neg (by rwa [hlen])]

end Folder

/-- What a round that marks an entry does to the image. -/
def Wrote (v : Volume) (size : ℕ) (img : Bytes) (m : Marking) : Option FatDirLayout → Prop
  | none => m.image = img
  | some p => writeDir v img p m.folder size = .ok m.image

section Marking
variable {v : Volume} {parent : Option FatDirLayout} {size : ℕ} {file : FatDirLayout} {b : UInt8}
variable {m m' : Marking} {i : ℕ}

theorem of_markEntry (h : markEntry v parent size file b m i = .ok m') :
    entrySize * i + entrySize ≤ m.folder.length ∧ m'.folder.length = m.folder.length ∧
      (∀ j, entryAt m'.folder j = (entryAt m.folder j).map fun e =>
        if j = i ∧ e = file then e.setNameHead b else e) ∧
      (m' = m ∨ Wrote v size m.image m' parent) := by
  obtain ⟨e, he, h⟩ := bind_eq_ok.mp h
  have hi := (entryAt_eq_ok_iff.mp he).1
  have hle : entrySize * i + [b].length ≤ m.folder.length := length_name_le hi
  split_ifs at h with hf
  · rw [copyIn_of_le hle, ok_bind] at h
    have hfolder : m'.folder = splice 0 m.folder (entrySize * i) [b] ∧
        Wrote v size m.image m' parent := by
      cases parent with
      | none =>
          rw [← Except.ok.inj h]
          exact ⟨rfl, rfl⟩
      | some p =>
          obtain ⟨image, himg, h⟩ := bind_eq_ok.mp h
          rw [← Except.ok.inj h]
          exact ⟨rfl, himg⟩
    refine ⟨hi, by rw [hfolder.1, length_splice_of_le hle], fun j => ?_, .inr hfolder.2⟩
    rw [hfolder.1, entryAt_splice b hi]
    by_cases hj : j = i
    · subst hj
      rw [he]
      simp [Except.map, hf]
    · simp [hj]
  · rw [← Except.ok.inj h]
    refine ⟨hi, rfl, fun j => ?_, .inl rfl⟩
    by_cases hj : j = i
    · subst hj
      rw [he]
      simp [Except.map, hf]
    · cases entryAt m.folder j <;> simp [Except.map, hj]

theorem of_markLoop (h : (List.range size).foldlM (markEntry v parent size file b) m = .ok m') :
    entrySize * size ≤ m.folder.length ∧ m'.folder.length = m.folder.length ∧
      ∀ j, entryAt m'.folder j = (entryAt m.folder j).map (relabel file b size j) := by
  refine foldlM_range_partial (I := fun k s => entrySize * k ≤ m.folder.length ∧
    s.folder.length = m.folder.length ∧
    ∀ j, entryAt s.folder j = (entryAt m.folder j).map (relabel file b k j)) h ⟨?_, rfl, ?_⟩ ?_
  · omega
  · intro j
    cases entryAt m.folder j <;> simp [Except.map, relabel]
  · rintro k s t - ⟨-, hlen, hent⟩ ht
    obtain ⟨hk, hlen', hent', -⟩ := of_markEntry ht
    refine ⟨by rw [Nat.mul_succ]; omega, hlen'.trans hlen, fun j => ?_⟩
    rw [hent', hent]
    cases entryAt m.folder j with
    | error e => rfl
    | ok e =>
        simp only [Except.map, relabel, Except.ok.injEq]
        by_cases hj : j = k
        · subst hj
          simp
        · have hjk : j < k + 1 ↔ j < k := by omega
          simp [hj, hjk]

theorem markEntry_of_ne {e : FatDirLayout} (he : entryAt m.folder i = .ok e) (hne : e ≠ file) :
    markEntry v parent size file b m i = .ok m := by
  rw [markEntry, he, ok_bind, if_neg hne]

theorem of_markLoop_nil {img : Bytes}
    (h : (List.range size).foldlM (markEntry v parent size file b) ⟨[], img⟩ = .ok m') :
    size = 0 ∧ m' = ⟨[], img⟩ := by
  have hle := (of_markLoop h).1
  obtain rfl : size = 0 := by
    rw [List.length_nil, entrySize] at hle
    omega
  exact ⟨rfl, (Except.ok.inj h).symm⟩

/-- Rounds at other entries change nothing. -/
theorem markLoop_of_ne {l : List ℕ} (h : ∀ j ∈ l, ∃ e, entryAt m.folder j = .ok e ∧ e ≠ file) :
    l.foldlM (markEntry v parent size file b) m = .ok m := by
  induction l with
  | nil => rfl
  | cons j l ih =>
      obtain ⟨e, he, hne⟩ := h j (by simp)
      rw [List.foldlM_cons, markEntry_of_ne he hne, ok_bind]
      exact ih fun k hk => h k (by simp [hk])

theorem markEntry_of_eq {m₁ : Marking} (he : entryAt m.folder i = .ok file)
    (hf : m₁.folder = splice 0 m.folder (entrySize * i) [b])
    (hw : Wrote v size m.image m₁ parent) : markEntry v parent size file b m i = .ok m₁ := by
  have hi := (entryAt_eq_ok_iff.mp he).1
  have hle : entrySize * i + [b].length ≤ m.folder.length := length_name_le hi
  obtain ⟨folder, image⟩ := m₁
  subst hf
  rw [markEntry, he, ok_bind, if_pos rfl, copyIn_of_le hle, ok_bind]
  cases parent with
  | none =>
      change image = m.image at hw
      rw [hw]
  | some p =>
      change writeDir v m.image p (splice 0 m.folder (entrySize * i) [b]) size = .ok image at hw
      simp only [hw, ok_bind]

theorem range_eq_append {p n : ℕ} (h : p ≤ n) :
    List.range n = List.range p ++ List.range' p (n - p) := by
  obtain ⟨k, rfl⟩ := Nat.exists_eq_add_of_le h
  rw [Nat.add_sub_cancel_left, List.range_eq_range', List.range_eq_range',
    ← List.range'_append_1, Nat.zero_add]

/-- Where one entry only equals the file, `r` rounds of the loop store one byte and write
once. -/
theorem markLoop_of_unique {folder img : Bytes} {m₁ : Marking} {r : ℕ} (hi : i < r)
    (hle : entrySize * r ≤ folder.length) (he : entryAt folder i = .ok file)
    (hone : ∀ j < r, entryAt folder j = .ok file → j = i)
    (hf : m₁.folder = splice 0 folder (entrySize * i) [b]) (hw : Wrote v size img m₁ parent) :
    (List.range r).foldlM (markEntry v parent size file b) ⟨folder, img⟩ = .ok m₁ := by
  have hother (j : ℕ) (hj : j < r) (hji : j ≠ i) : ∃ e, entryAt folder j = .ok e ∧ e ≠ file := by
    have hin : entrySize * j + entrySize ≤ folder.length := by
      have hm := Nat.mul_le_mul_left entrySize (Nat.succ_le_of_lt hj)
      rw [Nat.mul_succ] at hm
      omega
    refine ⟨_, dif_pos hin, fun hej => hji (hone j hj ?_)⟩
    rw [← hej]
    exact dif_pos hin
  obtain ⟨k, hk⟩ : ∃ k, r - i = k + 1 := ⟨r - i - 1, by omega⟩
  have hrange : List.range r = List.range i ++ i :: List.range' (i + 1) k := by
    rw [range_eq_append hi.le, hk, List.range'_succ]
  have hfront : (List.range i).foldlM (markEntry v parent size file b) ⟨folder, img⟩ =
      .ok ⟨folder, img⟩ := by
    refine markLoop_of_ne fun j hj => ?_
    rw [List.mem_range] at hj
    exact hother j (by omega) (by omega)
  have hback : (List.range' (i + 1) k).foldlM (markEntry v parent size file b) m₁ = .ok m₁ := by
    refine markLoop_of_ne fun j hj => ?_
    rw [List.mem_range'_1] at hj
    obtain ⟨e, hej, hne⟩ := hother j (by omega) (by omega)
    refine ⟨e, ?_, hne⟩
    rw [hf, entryAt_splice b (entryAt_eq_ok_iff.mp he).1, hej]
    simp only [Except.map, if_neg (show ¬ j = i by omega)]
  rw [hrange, List.foldlM_append, hfront, ok_bind, List.foldlM_cons,
    markEntry_of_eq (m := ⟨folder, img⟩) he hf hw, ok_bind, hback]

/-- A loop that comes to an entry which equals the file leaves the image that a write of the
array has left. -/
theorem exists_writeDir_of_markLoop {p : FatDirLayout} {folder img : Bytes} (hi : i < size)
    (he : entryAt folder i = .ok file)
    (h : (List.range size).foldlM (markEntry v (some p) size file b) ⟨folder, img⟩ = .ok m') :
    ∃ img₁ folder', folder'.length = folder.length ∧
      writeDir v img₁ p folder' size = .ok m'.image := by
  have hI := foldlM_range_partial (I := fun k s => s.folder.length = folder.length ∧
    (∀ j, k ≤ j → entryAt s.folder j = entryAt folder j) ∧ (i < k → ∃ img₁ folder',
      folder'.length = folder.length ∧ writeDir v img₁ p folder' size = .ok s.image)) h
    ⟨rfl, fun _ _ => rfl, fun h => absurd h (Nat.not_lt_zero i)⟩ (by
    rintro k s t - ⟨hlen, hent, hw⟩ ht
    obtain ⟨-, hlen', hent', hwrote⟩ := of_markEntry ht
    refine ⟨hlen'.trans hlen, fun j hj => ?_, fun hik => ?_⟩
    · rw [hent', ← hent j (by omega)]
      cases entryAt s.folder j <;> simp [Except.map, show ¬ j = k by omega]
    · rcases Nat.lt_or_eq_of_le (Nat.le_of_lt_succ hik) with hlt | rfl
      · rcases hwrote with rfl | hwrote
        · exact hw hlt
        · exact ⟨_, _, hlen'.trans hlen, hwrote⟩
      · rw [markEntry, hent i le_rfl, he, ok_bind, if_pos rfl] at ht
        obtain ⟨folder', hcopy, ht⟩ := bind_eq_ok.mp ht
        obtain ⟨image, himg, ht⟩ := bind_eq_ok.mp ht
        rw [← Except.ok.inj ht]
        exact ⟨_, folder', (length_copyIn hcopy).trans hlen, himg⟩)
  exact hI.2.2 hi

/-- Where every write goes to one cluster, the loop leaves the image with the start of the
array in that cluster. -/
theorem image_eq_of_markLoop {p : FatDirLayout} {c : ℕ} {img folder : Bytes}
    (hdir : isDirectory p.attr) (hchain : v.Chain (v.firstCluster p) [c])
    (hin : InImage v img c) (hle : clusterBytes v.boot ≤ folder.length)
    (hsame : slice folder 0 (clusterBytes v.boot) = cluster v img c)
    (h : (List.range size).foldlM (markEntry v (some p) size file b) ⟨folder, img⟩ = .ok m') :
    m'.image = splice 0 img (v.clusterToSector c) (slice m'.folder 0 (clusterBytes v.boot)) := by
  have hI := foldlM_range_partial (I := fun _ s => s.folder.length = folder.length ∧
    s.image = splice 0 img (v.clusterToSector c) (slice s.folder 0 (clusterBytes v.boot))) h
    ⟨rfl, by rw [hsame]; exact (splice_slice_self 0 img hin).symm⟩ (by
    rintro k s t - ⟨hlen, himg⟩ ht
    obtain ⟨-, hlen', -, rfl | hwrote⟩ := of_markEntry ht
    · exact ⟨hlen, himg⟩
    · have hs : (slice s.folder 0 (clusterBytes v.boot)).length = clusterBytes v.boot :=
        length_slice_of_le (by omega)
      have ht : (slice t.folder 0 (clusterBytes v.boot)).length = clusterBytes v.boot :=
        length_slice_of_le (by omega)
      have hw : writeDir v s.image p t.folder size = .ok (splice 0 s.image (v.clusterSpan c).off
          (slice t.folder 0 (clusterBytes v.boot))) :=
        writeDir_of_single hdir hchain (by omega) size
      refine ⟨hlen'.trans hlen, Except.ok.inj (hwrote.symm.trans (hw.trans ?_))⟩
      rw [himg]
      exact congrArg Except.ok (splice_splice_same (by rw [hs]; exact hin) (hs.trans ht.symm)))
  exact hI.2

/-- Rounds behind the first cluster do not change what is written to it. -/
theorem markLoop_behind {p : FatDirLayout} {c : ℕ} {img folder : Bytes} {l : List ℕ}
    (hdir : isDirectory p.attr) (hchain : v.Chain (v.firstCluster p) [c])
    (hle : clusterBytes v.boot ≤ folder.length)
    (hsame : slice folder 0 (clusterBytes v.boot) = cluster v img c) (hin : InImage v img c)
    (hl : ∀ j ∈ l, clusterBytes v.boot ≤ entrySize * j ∧
      entrySize * j + entrySize ≤ folder.length) :
    ∃ m, l.foldlM (markEntry v (some p) size file b) ⟨folder, img⟩ = .ok m ∧ m.image = img := by
  have hloop : ∃ m, l.foldlM (markEntry v (some p) size file b) ⟨folder, img⟩ = .ok m ∧
      m.folder.length = folder.length ∧
      slice m.folder 0 (clusterBytes v.boot) = slice folder 0 (clusterBytes v.boot) ∧
      m.image = img := by
    refine foldlM_total (I := fun _ (s : Marking) => s.folder.length = folder.length ∧
      slice s.folder 0 (clusterBytes v.boot) = slice folder 0 (clusterBytes v.boot) ∧
      s.image = img) ⟨rfl, rfl, rfl⟩ ?_
    rintro q j q' s rfl ⟨hlen, hslice, himg⟩
    obtain ⟨hj, hj'⟩ := hl j (by simp)
    have he : entryAt s.folder j = .ok ⟨_, length_slice_of_le (by rw [hlen]; exact hj')⟩ :=
      dif_pos (by rw [hlen]; exact hj')
    generalize (⟨_, length_slice_of_le (by rw [hlen]; exact hj')⟩ : FatDirLayout) = e at he
    by_cases hef : e = file
    · have hone : entrySize * j + [b].length ≤ s.folder.length := by
        rw [List.length_singleton, hlen]
        rw [entrySize] at *
        omega
      have hlen' : (splice 0 s.folder (entrySize * j) [b]).length = folder.length :=
        (length_splice_of_le hone).trans hlen
      have hslice' : slice (splice 0 s.folder (entrySize * j) [b]) 0 (clusterBytes v.boot) =
          slice folder 0 (clusterBytes v.boot) := by
        rw [slice_splice_disjoint (by rw [hlen, Nat.zero_add]; exact hle)
          (.inl (by rw [Nat.zero_add]; exact hj)), hslice]
      have hw : writeDir v s.image p (splice 0 s.folder (entrySize * j) [b]) size = .ok img := by
        rw [writeDir_of_single hdir hchain (by rw [hlen']; exact hle), hslice', hsame, himg]
        exact congrArg Except.ok (splice_slice_self 0 img hin)
      have hround : markEntry v (some p) size file b s j =
          .ok ⟨splice 0 s.folder (entrySize * j) [b], img⟩ :=
        markEntry_of_eq (hef ▸ he) rfl hw
      exact ⟨_, hround, hlen', hslice', rfl⟩
    · exact ⟨s, markEntry_of_ne he hef, hlen, hslice, himg⟩
  obtain ⟨m, hm, -, -, himg⟩ := hloop
  exact ⟨m, hm, himg⟩

theorem image_of_markLoop_root
    (h : (List.range size).foldlM (markEntry v none size file b) m = .ok m') :
    m'.image = m.image := by
  refine foldlM_range_partial (I := fun _ s => s.image = m.image) h rfl ?_
  rintro k s t - hs ht
  obtain ⟨-, -, -, rfl | himg⟩ := of_markEntry ht
  · exact hs
  · exact himg.trans hs

/-- Where every write goes to one cluster, the loop leaves the image with the array in
that cluster and as it was in the others. -/
theorem image_of_markLoop {p : FatDirLayout} {c₀ : ℕ} {img : Bytes} {folder : Bytes}
    (hg : Geometry v.boot)
    (h : (List.range size).foldlM (markEntry v (some p) size file b) ⟨folder, img⟩ = .ok m')
    (hlen : clusterBytes v.boot ≤ folder.length)
    (hw : ∀ img₁ img₂ folder', folder'.length = folder.length →
      writeDir v img₁ p folder' size = .ok img₂ →
      img₂ = splice 0 img₁ (v.clusterToSector c₀) (slice folder' 0 (clusterBytes v.boot)))
    (hsame : ∀ c, InImage v img c → v.clusterToSector c = v.clusterToSector c₀ →
      cluster v img c = slice folder 0 (clusterBytes v.boot)) {c : ℕ} (hc : InImage v img c) :
    InImage v m'.image c ∧ cluster v m'.image c =
      if v.clusterToSector c = v.clusterToSector c₀ then
        slice m'.folder 0 (clusterBytes v.boot)
      else cluster v img c := by
  have hI := foldlM_range_partial (I := fun _ s => s.folder.length = folder.length ∧
    InImage v s.image c ∧ cluster v s.image c =
      if v.clusterToSector c = v.clusterToSector c₀ then slice s.folder 0 (clusterBytes v.boot)
      else cluster v img c) h
    ⟨rfl, hc, by split_ifs with he; exacts [hsame c hc he, rfl]⟩ (by
    rintro k s t - ⟨hl, hin, hcl⟩ ht
    obtain ⟨-, hl', -, rfl | hwrite⟩ := of_markEntry ht
    · exact ⟨hl, hin, hcl⟩
    · have himg := hw _ _ _ (hl'.trans hl) hwrite
      have hdata : (slice t.folder 0 (clusterBytes v.boot)).length = clusterBytes v.boot :=
        length_slice_of_le (by omega)
      have hin' : InImage v t.image c := by
        rw [himg]
        exact hin.trans (length_le_length_splice _ _ _ _)
      refine ⟨hl'.trans hl, hin', ?_⟩
      split_ifs with he
      · have hs := slice_splice_self 0 s.image (v.clusterToSector c₀)
          (slice t.folder 0 (clusterBytes v.boot))
        rw [hdata, ← himg, ← he] at hs
        exact hs
      · rw [if_neg he] at hcl
        rw [← hcl, himg]
        refine slice_splice_disjoint hin ?_
        rw [hdata]
        exact clusterSpan_apart hg he)
  exact hI.2

end Marking

end TFAT.EntryMarking
