import TFAT.ChainFreeing
import TFAT.ShownNames

/-!
# The byte that marks an entry

`delete` and `undelete` store a first name byte into the array of a directory, in each
entry that equals the one found, and send the array of a subdirectory to the disk. In the
root directory and in a directory of one cluster this is one byte of `root_dir` or of the
image, where no other entry equals the one found.
-/
namespace TFAT.MarkedPlaces
open ByteRegions LittleEndianWords LinkedChains DiskLayout ClusterTable ClusterPlacement
open FileDescriptor DirectoryIO PathText PathResolution UserCommands VolumeTree DirectoryTree
open ChainRelease EntryMarking MarkedTree DeleteSafety ShownNames

/-- The names lead to the directory; none lead to the root directory, which has no entry. -/
def LeadsUp (fill : ℕ → UInt8) (v : Volume) (img : Bytes) (names : List Text) :
    Option FatDirLayout → Prop
  | none => names = []
  | some d => LeadsTo fill v img names d

/-- The array of the directory, with its number of entries and the clusters it lies in. -/
def ArrayOf (fill : ℕ → UInt8) (v : Volume) (img : Bytes) (block : Bytes) (n : ℕ) (l : List ℕ) :
    Option FatDirLayout → Prop
  | none => block = v.rootDir ∧ n = v.boot.rootEntryCount.toNat ∧ l = []
  | some d => parseDir fill v img d = .ok (some (block, n)) ∧
      v.Chain (v.firstCluster d) l ∧ ∀ c ∈ l, InImage v img c

/-- The names lead to the array, which lies in these clusters. -/
def OpensIn (fill : ℕ → UInt8) (v : Volume) (img : Bytes) (names : List Text) (block : Bytes)
    (n : ℕ) (l : List ℕ) : Prop :=
  ∃ parent, LeadsUp fill v img names parent ∧ ArrayOf fill v img block n l parent

/-- The place of entry `i` of the array that lies in the clusters. -/
def placeIn (v : Volume) (l : List ℕ) (i : ℕ) : Place :=
  match l with
  | [] => .root i
  | c :: l =>
      let perCluster := clusterBytes v.boot / entrySize
      .cluster ((c :: l).getD (i / perCluster) 0) (i % perCluster)

/-- The session with the volume `w` and another first byte of the entry in the place. -/
def stamp (s : Session) (w : Volume) (b : UInt8) : Place → Session
  | .root i =>
      { s with volume := { w with rootDir := splice 0 s.volume.rootDir (entrySize * i) [b] } }
  | .cluster c i =>
      { s with
        volume := w
        image := splice 0 s.image (s.volume.clusterToSector c + entrySize * i) [b] }

/-- How many entries a command can mark for good: those of the root directory, or those of
the cluster that `write_dir` reaches. -/
def reached (v : Volume) (l : List ℕ) (n : ℕ) : ℕ :=
  if l = [] then n else clusterBytes v.boot / entrySize

/-- The entry at this index is one of the first `m`, and none of the others equals it. -/
def Only (block : Bytes) (m i : ℕ) (f : FatDirLayout) : Prop :=
  i < m ∧ ∀ j < m, entryAt block j = .ok f → j = i

/-- The path has no repeated slashes and leads to the entry at this index of the array. -/
structure Locates (fill : ℕ → UInt8) (v : Volume) (img : Bytes) (path : Text)
    (parent : Option FatDirLayout) (block : Bytes) (n : ℕ) (l : List ℕ) (i : ℕ)
    (f : FatDirLayout) : Prop where
  slashes : ¬ [slash, slash] <:+: path
  path : ∃ names name, components path = names ++ [name] ∧ LeadsUp fill v img names parent ∧
    FoundAt block name n i f
  array : ArrayOf fill v img block n l parent

section Entries
variable {e : FatDirLayout} {b : UInt8}

@[simp] theorem nameHead_setNameHead (e : FatDirLayout) (b : UInt8) :
    (e.setNameHead b).nameHead = b := by
  have hs : slice (splice 0 e.bytes 0 [b]) 0 1 = [b] := slice_splice_self 0 e.bytes 0 [b]
  rw [FatDirLayout.nameHead, FatDirLayout.setNameHead, hs]
  simp [value]

theorem setNameHead_ne (h : e.nameHead ≠ b) : e.setNameHead b ≠ e := by
  intro he
  rw [← he, nameHead_setNameHead] at h
  exact h rfl

theorem nameHead_ne_of_live (h : Live e) : e.nameHead ≠ 0xE5 := by
  intro he
  have hd := h.2.1
  rw [isDeleted, he] at hd
  exact absurd hd (by decide)

end Entries

section Opening
variable {fill : ℕ → UInt8} {s : Session} {fresh freshParent : FatDirLayout} {path : Text}
variable {names : List Text} {name : Text} {block : Bytes} {n i : ℕ} {l : List ℕ}
variable {parent : Option FatDirLayout} {v : Volume} {img : Bytes} {f d : FatDirLayout}

theorem opensAt_of_arrayOf (hu : LeadsUp fill v img names parent)
    (ha : ArrayOf fill v img block n l parent) : OpensAt fill v img names block n := by
  cases parent with
  | none => exact .inl ⟨hu, ha.1, ha.2.1⟩
  | some d => exact .inr ⟨d, hu, ha.1⟩

theorem openParent_of_leadsTo (hu : LeadsTo fill s.volume s.image (components path) d)
    (hp : parseDir fill s.volume s.image d = .ok (some (block, n))) :
    openParent fill s freshParent path = .ok (some d, block, n) := by
  have hne : components path ≠ [] := hu.ne_nil
  have hroot : path ≠ [slash] := by
    rintro rfl
    exact hne rfl
  rw [openParent, if_neg hroot, (find_eq_some_iff hne).mpr hu, ok_bind]
  simp only [parseDir_eq_some_iff.mp hp, ok_bind]
  rfl

/-- What the commands open for a parent path is the array that its components lead to. -/
theorem openParent_of_leadsUp (hu : LeadsUp fill s.volume s.image names parent)
    (ha : ArrayOf fill s.volume s.image block n l parent) (hnames : components path = names)
    (hroot : path = [slash] ↔ names = []) :
    openParent fill s freshParent path = .ok (parent, block, n) := by
  cases parent with
  | none =>
      obtain ⟨rfl, rfl, -⟩ := ha
      rw [openParent, if_pos (hroot.mpr hu)]
  | some d =>
      subst hnames
      exact openParent_of_leadsTo hu ha.1

theorem Locates.find_eq (h : Locates fill v img path parent block n l i f)
    (fresh : FatDirLayout) : find fill v img fresh path = .ok (some f) := by
  obtain ⟨names, name, hc, hu, hi⟩ := h.path
  rw [find_of_opensAt fresh (opensAt_of_arrayOf hu h.array) hc]
  exact search_eq_ok_some_iff.mpr ⟨i, hi⟩

theorem Locates.openParent_eq (h : Locates fill s.volume s.image path parent block n l i f)
    (freshParent : FatDirLayout) :
    openParent fill s freshParent (getParentPath path) = .ok (parent, block, n) := by
  obtain ⟨names, name, hc, hu, -⟩ := h.path
  obtain ⟨hnames, hroot⟩ := components_getParentPath h.slashes hc
  exact openParent_of_leadsUp hu h.array hnames hroot

theorem Locates.entry (h : Locates fill v img path parent block n l i f) :
    i < n ∧ entryAt block i = .ok f ∧ ∀ j < i, entryAt block j ≠ .ok f := by
  obtain ⟨names, name, -, -, hf⟩ := h.path
  exact ⟨hf.1, hf.2.1, fun j hj => hf.ne_of_lt hj⟩

theorem ArrayOf.clusters (ha : ArrayOf fill v img block n l (some d)) :
    isDirectory d.attr ∧ ∃ m, l = v.firstCluster d :: m ∧ InImage v img (v.firstCluster d) := by
  obtain ⟨hp, hchain, hin⟩ := ha
  obtain ⟨hdir, hc⟩ := opens_of_parseDir hp
  obtain ⟨e, m, rfl, -, -⟩ := hchain.cons hc
  exact ⟨hdir, m, rfl, hin _ (by simp)⟩

theorem ArrayOf.contents (hg : Geometry v.boot) (ha : ArrayOf fill v img block n l (some d)) :
    block = DirectoryIO.contents v img l ∧ n = l.length * (clusterBytes v.boot / entrySize) := by
  obtain ⟨hdir, m, rfl, -⟩ := ha.clusters
  rcases of_parseDir hdir ha.2.1 hg.pos hg.entries ha.2.2 ha.1 with ⟨h, -⟩ | ⟨h, -⟩
  · rw [Option.some.injEq, Prod.mk.injEq] at h
    exact h
  · cases h

end Opening

section Marking
variable {fill : ℕ → UInt8} {s s' : Session} {block t k : Bytes} {n i : ℕ} {l : List ℕ}
variable {parent : Option FatDirLayout} {d f : FatDirLayout} {b : UInt8} {m : List ℕ}

theorem placeIn_first {v : Volume} {c : ℕ} (hi : i < clusterBytes v.boot / entrySize) :
    placeIn v (c :: m) i = .cluster c i := by
  simp only [placeIn, Nat.div_eq_of_lt hi, Nat.mod_eq_of_lt hi, List.getD_cons_zero]

theorem slice_contents {v : Volume} {img : Bytes} {c : ℕ} (hc : InImage v img c) :
    slice (contents v img (c :: m)) 0 (clusterBytes v.boot) = cluster v img c := by
  have hlen := length_cluster hc
  rw [contents, List.flatMap_cons, slice_append_left (by omega), ← hlen, slice_zero_length]

theorem ArrayOf.first (hg : Geometry s.volume.boot)
    (ha : ArrayOf fill s.volume s.image block n l (some d))
    (hle : entrySize * n ≤ block.length) :
    clusterBytes s.volume.boot / entrySize ≤ n ∧ clusterBytes s.volume.boot ≤ block.length ∧
      slice block 0 (clusterBytes s.volume.boot) =
        cluster s.volume s.image (s.volume.firstCluster d) := by
  obtain ⟨hblock, hn⟩ := ha.contents hg
  obtain ⟨-, m, rfl, hin⟩ := ha.clusters
  have hnle : clusterBytes s.volume.boot / entrySize ≤ n := by
    rw [hn, List.length_cons, Nat.succ_mul]
    omega
  have h := Nat.mul_le_mul_left entrySize hnle
  rw [Nat.mul_div_cancel' hg.entries] at h
  exact ⟨hnle, h.trans hle, hblock ▸ slice_contents hin⟩

theorem slice_marked {v : Volume} {img : Bytes} {c : ℕ} (hc : InImage v img c)
    (hfirst : slice block 0 (clusterBytes v.boot) = cluster v img c)
    (hlong : clusterBytes v.boot ≤ block.length)
    (hi : entrySize * i + [b].length ≤ clusterBytes v.boot) :
    slice (splice 0 block (entrySize * i) [b]) 0 (clusterBytes v.boot) =
      cluster v (splice 0 img (v.clusterToSector c + entrySize * i) [b]) c := by
  have h : slice (splice 0 block (0 + entrySize * i) [b]) 0 (clusterBytes v.boot) =
      splice 0 (slice block 0 (clusterBytes v.boot)) (entrySize * i) [b] :=
    slice_splice_within (by rw [Nat.zero_add]; exact hlong) hi
  rw [Nat.zero_add, hfirst] at h
  exact h.trans (slice_splice_within hc hi).symm

/-- In a directory of which one cluster is left, the command marks the entry found with one
byte where no other entry of that cluster equals it. -/
theorem markEntries_of_first (hg : Geometry s.volume.boot)
    (ha : ArrayOf fill s.volume s.image block n l (some d))
    (hle : entrySize * n ≤ block.length) (he : entryAt block i = .ok f)
    (hone : Only block (clusterBytes s.volume.boot / entrySize) i f)
    (hchain : (retable s.volume t k).Chain (s.volume.firstCluster d)
      [s.volume.firstCluster d]) :
    markEntries s (retable s.volume t k) (some d) block n f b =
      .ok { s with
        volume := retable s.volume t k
        image := splice 0 s.image
          (s.volume.clusterToSector (s.volume.firstCluster d) + entrySize * i) [b] } := by
  obtain ⟨hdir, m, rfl, hin⟩ := ha.clusters
  obtain ⟨hip, hone⟩ := hone
  obtain ⟨hnle, hlong, hfirst⟩ := ha.first hg hle
  have hper : entrySize * (clusterBytes s.volume.boot / entrySize) =
      clusterBytes s.volume.boot := Nat.mul_div_cancel' hg.entries
  have hi' : entrySize * i + [b].length ≤ clusterBytes s.volume.boot :=
    length_name_le (entry_le hg.entries hip)
  have hlen : (splice 0 block (entrySize * i) [b]).length = block.length :=
    length_splice_of_le (hi'.trans hlong)
  have hmarked := slice_marked hin hfirst hlong hi'
  have hin' : InImage s.volume (splice 0 s.image (s.volume.clusterToSector
      (s.volume.firstCluster d) + entrySize * i) [b]) (s.volume.firstCluster d) :=
    hin.trans (length_le_length_splice _ _ _ _)
  have hwrite : writeDir (retable s.volume t k) s.image d (splice 0 block (entrySize * i) [b])
      n = .ok (splice 0 s.image (s.volume.clusterToSector (s.volume.firstCluster d) +
        entrySize * i) [b]) := by
    rw [writeDir_of_single (v := retable s.volume t k) hdir hchain (by rw [hlen]; exact hlong)]
    refine congrArg Except.ok (Eq.trans ?_ (splice_splice_slice hin hi'))
    exact congrArg (splice 0 s.image _) (hmarked.trans (slice_splice_within hin hi'))
  have hfront : (List.range (clusterBytes s.volume.boot / entrySize)).foldlM
      (markEntry (retable s.volume t k) (some d) n f b) ⟨block, s.image⟩ =
        .ok ⟨splice 0 block (entrySize * i) [b], splice 0 s.image
          (s.volume.clusterToSector (s.volume.firstCluster d) + entrySize * i) [b]⟩ :=
    markLoop_of_unique hip (by rw [hper]; exact hlong) he hone rfl hwrite
  obtain ⟨m₂, hback, himg₂⟩ : ∃ m₂, (List.range' (clusterBytes s.volume.boot / entrySize)
      (n - clusterBytes s.volume.boot / entrySize)).foldlM
        (markEntry (retable s.volume t k) (some d) n f b)
        ⟨splice 0 block (entrySize * i) [b], splice 0 s.image
          (s.volume.clusterToSector (s.volume.firstCluster d) + entrySize * i) [b]⟩ = .ok m₂ ∧
      m₂.image = splice 0 s.image
        (s.volume.clusterToSector (s.volume.firstCluster d) + entrySize * i) [b] := by
    refine markLoop_behind (v := retable s.volume t k) hdir hchain (by rw [hlen]; exact hlong)
      hmarked hin' fun j hj => ?_
    rw [List.mem_range'_1] at hj
    have hlow := Nat.mul_le_mul_left entrySize hj.1
    have hhigh := Nat.mul_le_mul_left entrySize (show j + 1 ≤ n by omega)
    rw [hper] at hlow
    rw [Nat.mul_succ] at hhigh
    exact ⟨hlow, by rw [hlen]; omega⟩
  rw [markEntries, range_eq_append hnle, List.foldlM_append, hfront, ok_bind, hback, ok_bind,
    himg₂]

/-- In the root directory, and in a directory of which one cluster is left, the command
marks the entry found with one byte where no other entry of what it reaches equals it. -/
theorem markEntries_of_only (hg : Geometry s.volume.boot)
    (ha : ArrayOf fill s.volume s.image block n l parent)
    (hle : entrySize * n ≤ block.length) (he : entryAt block i = .ok f)
    (hone : Only block (reached s.volume l n) i f)
    (hend : ∀ d, parent = some d →
      (retable s.volume t k).Chain (s.volume.firstCluster d) [s.volume.firstCluster d]) :
    markEntries s (retable s.volume t k) parent block n f b =
      .ok (stamp s (retable s.volume t k) b (placeIn s.volume l i)) := by
  cases parent with
  | none =>
      obtain ⟨rfl, -, rfl⟩ := ha
      have hloop : (List.range n).foldlM (markEntry (retable s.volume t k) none n f b)
          ⟨s.volume.rootDir, s.image⟩ =
            .ok ⟨splice 0 s.volume.rootDir (entrySize * i) [b], s.image⟩ :=
        markLoop_of_unique hone.1 hle he hone.2 rfl rfl
      rw [markEntries, hloop, ok_bind]
      rfl
  | some d =>
      obtain ⟨-, m, rfl, -⟩ := ha.clusters
      rw [reached, if_neg (List.cons_ne_nil _ _)] at hone
      rw [markEntries_of_first hg ha hle he hone (hend d rfl), placeIn_first hone.1]
      rfl

variable {Z : ℕ → Prop} {x : ℕ}

theorem chain_of_markEntries (hg : Geometry s.volume.boot)
    (ha : ArrayOf fill s.volume s.image block n l (some d)) (hi : i < n)
    (he : entryAt block i = .ok f) (hZ : Restored s.volume Z x t)
    (hx : s.volume.fatn.link x = 0) (hcut : Uncut s.volume Z d)
    (h : markEntries s (retable s.volume t k) (some d) block n f b = .ok s') :
    (retable s.volume t k).Chain (s.volume.firstCluster d) [s.volume.firstCluster d] := by
  obtain ⟨m, hm, -⟩ := bind_eq_ok.mp h
  obtain ⟨img₁, folder', hlen, hw⟩ := exists_writeDir_of_markLoop hi he hm
  exact chain_of_writeDir hg ha.1 (of_markLoop hm).1 hZ hx hcut hlen hw

theorem slice_contents_getD {v : Volume} {img : Bytes} {q : ℕ} (hin : ∀ c ∈ l, InImage v img c)
    (hq : q < l.length) : slice (contents v img l) (q * clusterBytes v.boot)
      (clusterBytes v.boot) = cluster v img (l.getD q 0) := by
  induction l generalizing q with
  | nil => exact absurd hq (Nat.not_lt_zero q)
  | cons c l ih =>
      have hc := length_cluster (hin c (by simp))
      cases q with
      | zero =>
          rw [Nat.zero_mul, List.getD_cons_zero]
          exact slice_contents (hin c (by simp))
      | succ q =>
          rw [List.getD_cons_succ, ← ih (fun x hx => hin x (by simp [hx]))
            (by rw [List.length_cons] at hq; omega), Nat.succ_mul, Nat.add_comm, ← hc]
          exact slice_append_right _ _ _ _

/-- An entry of an array lies in one of its clusters. -/
theorem entry_in_cluster (hg : Geometry s.volume.boot)
    (ha : ArrayOf fill s.volume s.image block n l (some d)) (hi : i < n)
    (he : entryAt block i = .ok f) : ∃ c r, placeIn s.volume l i = .cluster c r ∧ c ∈ l ∧
      r < clusterBytes s.volume.boot / entrySize ∧
      r + i / (clusterBytes s.volume.boot / entrySize) *
        (clusterBytes s.volume.boot / entrySize) = i ∧
      f.bytes = slice (cluster s.volume s.image c) (entrySize * r) entrySize := by
  obtain ⟨hblock, hn⟩ := ha.contents hg
  have hper : entrySize * (clusterBytes s.volume.boot / entrySize) =
      clusterBytes s.volume.boot := Nat.mul_div_cancel' hg.entries
  have hbytes := (entryAt_eq_ok_iff.mp he).2
  have hpos := hg.pos
  generalize hP : clusterBytes s.volume.boot / entrySize = per at *
  have hperpos : 0 < per := by
    rcases Nat.eq_zero_or_pos per with rfl | h
    · omega
    · exact h
  have hq : i / per < l.length := (Nat.div_lt_iff_lt_mul hperpos).mpr (hn ▸ hi)
  have hr : i % per < per := Nat.mod_lt i hperpos
  have hsum : i % per + i / per * per = i := Nat.mod_add_div' i per
  refine ⟨l.getD (i / per) 0, i % per, ?_, ?_, hr, hsum, ?_⟩
  · obtain ⟨-, m, rfl, -⟩ := ha.clusters
    simp only [placeIn, hP]
  · rw [List.getD_eq_getElem?_getD, List.getElem?_eq_getElem hq, Option.getD_some]
    exact List.getElem_mem hq
  · have hoff : entrySize * i = i / per * clusterBytes s.volume.boot + entrySize * (i % per) := by
      rw [← hper, Nat.mul_left_comm, ← Nat.mul_add, Nat.add_comm, hsum]
    have hle : entrySize * (i % per) + entrySize ≤ clusterBytes s.volume.boot :=
      entry_le hg.entries (hP.symm ▸ hr)
    rw [hbytes, hoff, ← slice_slice _ _ _ _ _ hle, hblock, slice_contents_getD ha.2.2 hq]

/-- A byte that is stored behind the first cluster is not written there. -/
theorem index_lt_of_image (hg : Geometry s.volume.boot)
    (ha : ArrayOf fill s.volume s.image block n l (some d)) {data : Bytes}
    (hi : i < n) (he : entryAt block i = .ok f)
    (hfirst : ∀ j < i, entryAt block j ≠ .ok f) (hb : f.nameHead ≠ b)
    (hdata : data.length = clusterBytes s.volume.boot)
    (himg : splice 0 s.image (s.volume.clusterToSector (s.volume.firstCluster d)) data =
      (stamp s (retable s.volume t k) b (placeIn s.volume l i)).image) :
    i < clusterBytes s.volume.boot / entrySize := by
  obtain ⟨c, r, hplace, hcl, hr, hsum, hbytes⟩ := entry_in_cluster hg ha hi he
  obtain ⟨hblock, hn⟩ := ha.contents hg
  obtain ⟨-, m, hl, hin₀⟩ := ha.clusters
  have hin : InImage s.volume s.image c := ha.2.2 c hcl
  have hle := entry_le hg.entries hr
  by_contra hge
  have hri : r < i := by omega
  rw [hplace] at himg
  by_cases hsector : s.volume.clusterToSector c =
      s.volume.clusterToSector (s.volume.firstCluster d)
  · -- the two numbers stand for one cluster, whose entry comes first
    have hspan : s.volume.clusterSpan c = s.volume.clusterSpan (s.volume.firstCluster d) := by
      rw [Volume.clusterSpan, hsector, Volume.clusterSpan]
    refine hfirst r hri (entryAt_eq_ok_iff.mpr ⟨?_, ?_⟩)
    · have hi' := (entryAt_eq_ok_iff.mp he).1
      have hmul := Nat.mul_le_mul_left entrySize hri.le
      omega
    · rw [hbytes, cluster, hspan]
      change slice (cluster s.volume s.image (s.volume.firstCluster d)) _ _ = _
      rw [← slice_contents (m := m) hin₀, ← hl, ← hblock, slice_slice _ _ _ _ _ hle,
        Nat.zero_add]
  · -- the byte lies outside of what is written
    have hbyte : slice (stamp s (retable s.volume t k) b (.cluster c r)).image
        (s.volume.clusterToSector c + entrySize * r) 1 = [b] := slice_splice_self 0 s.image _ [b]
    have hpos : 1 ≤ entrySize := by decide
    rw [← himg, slice_splice_disjoint (hin.trans' (by
        change s.volume.clusterToSector c + entrySize * r + 1 ≤
          s.volume.clusterToSector c + clusterBytes s.volume.boot
        omega)) (by
        rw [hdata]
        have hap := clusterSpan_apart hg hsector
        omega)] at hbyte
    have hhead : slice f.bytes 0 1 = [b] := by
      rw [hbytes, slice_slice _ _ _ _ _ (by rw [Nat.zero_add]; exact hpos), cluster,
        slice_slice _ _ _ _ _ (by
          change entrySize * r + 0 + 1 ≤ clusterBytes s.volume.boot
          omega)]
      exact hbyte
    apply hb
    rw [FatDirLayout.nameHead, hhead]
    simp [value]

/-- Where the loop has marked every copy of an entry, and has changed one entry only, there is
no other copy. -/
theorem only_of_marked {folder : Bytes} {r : ℕ} (hi : i < r)
    (he : entrySize * i + entrySize ≤ block.length) (hb : f.nameHead ≠ b)
    (hmarked : ∀ j < r, entryAt block j = .ok f → entryAt folder j = .ok (f.setNameHead b))
    (hfolder : ∀ j < r, entryAt folder j = entryAt (splice 0 block (entrySize * i) [b]) j) :
    Only block r i f := by
  refine ⟨hi, fun j hj hej => ?_⟩
  by_contra hne
  have hj' := hmarked j hj hej
  rw [hfolder j hj, entryAt_splice b he, hej] at hj'
  simp only [Except.map, if_neg hne, Except.ok.injEq] at hj'
  exact setNameHead_ne hb hj'.symm

/-- Where the command has stored one byte only, no other entry of what it has reached has
equalled the one found. -/
theorem only_of_markEntries (hg : Geometry s.volume.boot)
    (ha : ArrayOf fill s.volume s.image block n l parent) (hi : i < n)
    (he : entryAt block i = .ok f) (hfirst : ∀ j < i, entryAt block j ≠ .ok f)
    (hb : f.nameHead ≠ b)
    (hend : ∀ d, parent = some d →
      (retable s.volume t k).Chain (s.volume.firstCluster d) [s.volume.firstCluster d])
    (h : markEntries s (retable s.volume t k) parent block n f b =
      .ok (stamp s (retable s.volume t k) b (placeIn s.volume l i))) :
    entrySize * n ≤ block.length ∧ Only block (reached s.volume l n) i f := by
  obtain ⟨m, hm, hfin⟩ := bind_eq_ok.mp h
  obtain ⟨hle, hlen, hent⟩ := of_markLoop hm
  change entrySize * n ≤ block.length at hle
  have hmarked (j : ℕ) (hj : j < n) (hej : entryAt block j = .ok f) :
      entryAt m.folder j = .ok (f.setNameHead b) := by
    rw [hent j, hej]
    simp only [Except.map, relabel]
    rw [if_pos ⟨hj, trivial⟩]
  have hi' : entrySize * i + entrySize ≤ block.length := (entryAt_eq_ok_iff.mp he).1
  refine ⟨hle, ?_⟩
  cases parent with
  | none =>
      obtain ⟨rfl, -, rfl⟩ := ha
      have hfolder : m.folder = splice 0 s.volume.rootDir (entrySize * i) [b] :=
        congrArg (fun r : Session => r.volume.rootDir) (Except.ok.inj hfin)
      rw [reached, if_pos rfl]
      exact only_of_marked hi hi' hb hmarked fun j _ => by rw [hfolder]
  | some d =>
      obtain ⟨hdir, q, rfl, hin⟩ := ha.clusters
      obtain ⟨hnle, hlong, hsame⟩ := ha.first hg hle
      have hlong' : clusterBytes s.volume.boot ≤ m.folder.length := hlong.trans_eq hlen.symm
      have hdata : (slice m.folder 0 (clusterBytes s.volume.boot)).length =
          clusterBytes s.volume.boot := length_slice_of_le (by omega)
      have himg : m.image = splice 0 s.image (s.volume.clusterToSector (s.volume.firstCluster d))
          (slice m.folder 0 (clusterBytes s.volume.boot)) :=
        image_eq_of_markLoop (v := retable s.volume t k) hdir (hend d rfl) hin hlong hsame hm
      have hfin' : m.image = (stamp s (retable s.volume t k) b
          (placeIn s.volume (s.volume.firstCluster d :: q) i)).image :=
        congrArg Session.image (Except.ok.inj hfin)
      have hip := index_lt_of_image hg ha hi he hfirst hb hdata (himg.symm.trans hfin')
      have hi₁ : entrySize * i + [b].length ≤ clusterBytes s.volume.boot :=
        length_name_le (entry_le hg.entries hip)
      have hfolder : slice m.folder 0 (clusterBytes s.volume.boot) =
          slice (splice 0 block (entrySize * i) [b]) 0 (clusterBytes s.volume.boot) := by
        have hself := slice_splice_self 0 s.image
          (s.volume.clusterToSector (s.volume.firstCluster d))
          (slice m.folder 0 (clusterBytes s.volume.boot))
        rw [hdata, ← himg, hfin', placeIn_first hip] at hself
        rw [slice_marked hin hsame hlong hi₁]
        exact hself.symm
      have hlen' : (splice 0 block (entrySize * i) [b]).length = block.length :=
        length_splice_of_le (hi₁.trans hlong)
      rw [reached, if_neg (List.cons_ne_nil _ _)]
      refine only_of_marked hip hi' hb (fun j hj => hmarked j (hj.trans_le hnle)) fun j hj => ?_
      rw [← entryAt_slice hg.entries hj hlong', hfolder,
        entryAt_slice hg.entries hj (by rw [hlen']; exact hlong)]

end Marking

end TFAT.MarkedPlaces
