import TFAT.ClusterPlacement
import TFAT.FileDescriptor

/-!
# Directories that lie in cluster chains

`parse_dir` gathers the clusters of a directory into one growing array and
`write_dir` hands an array back to them. The reader counts its place in
entries. The writer adds a count of bytes to a pointer to entries, so from the
second cluster on it reads 32 times too far into the array.
-/
namespace TFAT.DirectoryIO
open ByteRegions LittleEndianWords LinkedChains DiskLayout ClusterTable ClusterPlacement
open FileDescriptor

structure Listing where
  entries : Option Bytes
  dirSize : ℕ
  nr : ℕ

/-- One round of the loop of `parse_dir`. -/
def readCluster (fill : ℕ → UInt8) (v : Volume) (img : Bytes) (s : Listing) (cluster : ℕ) :
    Except Fault Listing := do
  let span := v.clusterSpan cluster
  let size := clusterBytes v.boot * s.nr % 2 ^ 32
  if s.entries ≠ none ∧ size = 0 then
    -- `realloc` frees the block and returns null, and a failed `read` goes unnoticed
    .ok ⟨none, s.dirSize + clusterBytes v.boot / entrySize, s.nr + 1⟩
  else
    let block := realloc fill (s.entries.getD []) size
    let block ← copyIn block (entrySize * s.dirSize) (slice img span.off span.len)
    .ok ⟨some block, s.dirSize + clusterBytes v.boot / entrySize, s.nr + 1⟩

/-- `parse_dir`, where `*dir_size` is 0 before. -/
def parseDirSized (fill : ℕ → UInt8) (v : Volume) (img : Bytes) (dir : FatDirLayout) :
    Except Fault (Option Bytes × ℕ) :=
  if isDirectory dir.attr then do
    let s ← along v.nextCluster 0 .endless (readCluster fill v img) v.fuel (v.firstCluster dir)
      ⟨none, 0, 1⟩
    .ok (s.entries, s.dirSize)
  else .ok (none, 0)

/-- `parse_dir` for the callers that use the size only with an array. -/
def parseDir (fill : ℕ → UInt8) (v : Volume) (img : Bytes) (dir : FatDirLayout) :
    Except Fault (Option (Bytes × ℕ)) := do
  let (entries, dirSize) ← parseDirSized fill v img dir
  .ok (entries.map fun entries => (entries, dirSize))

structure Storing where
  img : Bytes
  dirSize : ℤ
  index : ℕ

/-- One round of the loop of `write_dir`. `entries + index` counts `index` in entries. -/
def storeCluster (v : Volume) (entries : Bytes) (s : Storing) (cluster : ℕ) :
    Except Fault Storing := do
  let data ← copyOut entries (entrySize * s.index) (clusterBytes v.boot)
  .ok ⟨splice 0 s.img (v.clusterSpan cluster).off data,
    s.dirSize - clusterBytes v.boot / entrySize, (s.index + clusterBytes v.boot) % 2 ^ 32⟩

def writeDir (v : Volume) (img : Bytes) (dir : FatDirLayout) (entries : Bytes) (dirSize : ℤ) :
    Except Fault Bytes :=
  if isDirectory dir.attr then do
    let s ← along v.nextCluster 0 .endless (storeCluster v entries) v.fuel (v.firstCluster dir)
      ⟨img, dirSize, 0⟩
    .ok s.img
  else .ok img

theorem readCluster_ne_error {e : Fault} (he : e ≠ .wild) (fill : ℕ → UInt8) (v : Volume)
    (img : Bytes) (s : Listing) (c : ℕ) : readCluster fill v img s c ≠ .error e := by
  unfold readCluster
  simp only
  split_ifs
  · exact ok_ne_error _ _
  · exact bind_ne_error (copyIn_ne_error he _ _ _) fun _ _ => ok_ne_error _ _

theorem storeCluster_ne_error {e : Fault} (he : e ≠ .wild) (v : Volume) (entries : Bytes)
    (s : Storing) (c : ℕ) : storeCluster v entries s c ≠ .error e :=
  bind_ne_error (copyOut_ne_error he _ _ _) fun _ _ => ok_ne_error _ _

def cluster (v : Volume) (img : Bytes) (c : ℕ) : Bytes :=
  slice img (v.clusterSpan c).off (v.clusterSpan c).len

def contents (v : Volume) (img : Bytes) (l : List ℕ) : Bytes := l.flatMap (cluster v img)

/-- The whole cluster is inside the image, where the program looks for it. -/
def InImage (v : Volume) (img : Bytes) (c : ℕ) : Prop :=
  (v.clusterSpan c).off + (v.clusterSpan c).len ≤ img.length

section Reading
variable {v : Volume} {img : Bytes} {dir : FatDirLayout} {l : List ℕ}

theorem parseDir_def (fill : ℕ → UInt8) : parseDir fill v img dir =
    if isDirectory dir.attr then do
      let s ← along v.nextCluster 0 .endless (readCluster fill v img) v.fuel (v.firstCluster dir)
        ⟨none, 0, 1⟩
      .ok (s.entries.map fun entries => (entries, s.dirSize))
    else .ok none := by
  rw [parseDir, parseDirSized]
  split_ifs
  · cases along v.nextCluster 0 Fault.endless (readCluster fill v img) v.fuel (v.firstCluster dir)
      ⟨none, 0, 1⟩ <;> rfl
  · rfl

theorem parseDir_eq_some_iff {fill : ℕ → UInt8} {entries : Bytes} {n : ℕ} :
    parseDir fill v img dir = .ok (some (entries, n)) ↔
      parseDirSized fill v img dir = .ok (some entries, n) := by
  rw [parseDir]
  cases parseDirSized fill v img dir with
  | error e => simp
  | ok r =>
      obtain ⟨entries', n'⟩ := r
      cases entries' <;> simp

theorem parseDir_returns_iff {fill : ℕ → UInt8} :
    (∃ q, parseDir fill v img dir = .ok q) ↔ ∃ r, parseDirSized fill v img dir = .ok r := by
  rw [parseDir]
  cases parseDirSized fill v img dir <;> simp

theorem length_cluster {c : ℕ} (h : InImage v img c) :
    (cluster v img c).length = clusterBytes v.boot :=
  length_slice_of_le h

theorem length_contents (h : ∀ c ∈ l, InImage v img c) :
    (contents v img l).length = l.length * clusterBytes v.boot := by
  induction l with
  | nil => simp [contents]
  | cons c l ih =>
      have hl := ih fun x hx => h x (by simp [hx])
      rw [contents] at hl ⊢
      rw [List.flatMap_cons, List.length_append, hl, length_cluster (h c (by simp)),
        List.length_cons, Nat.succ_mul, Nat.add_comm]

theorem contents_snoc (c : ℕ) :
    contents v img (l ++ [c]) = contents v img l ++ cluster v img c := by
  simp [contents]

/-- What `parse_dir` has gathered when it has passed the clusters `p`. -/
def gathered (v : Volume) (img : Bytes) (p : List ℕ) : Listing where
  entries := if p = [] then none else some (contents v img p)
  dirSize := p.length * (clusterBytes v.boot / entrySize)
  nr := p.length + 1

theorem gathered_getD (p : List ℕ) :
    (gathered v img p).entries.getD [] = contents v img p := by
  unfold gathered
  split_ifs with h
  · rw [h]
    rfl
  · rfl

/-- What is left when the size of the array has become 0. -/
def lost (v : Volume) (p : List ℕ) : Listing where
  entries := none
  dirSize := p.length * (clusterBytes v.boot / entrySize)
  nr := p.length + 1

theorem size_gathered (p : List ℕ) :
    clusterBytes v.boot * (gathered v img p).nr = (p.length + 1) * clusterBytes v.boot :=
  Nat.mul_comm _ _

theorem offset_gathered (hd : entrySize ∣ clusterBytes v.boot) (p : List ℕ) :
    entrySize * (gathered v img p).dirSize = p.length * clusterBytes v.boot := by
  rw [gathered, Nat.mul_left_comm, Nat.mul_div_cancel' hd]

theorem readCluster_of_size {fill : ℕ → UInt8} {s : Listing} {c : ℕ}
    (h : ¬ (s.entries ≠ none ∧ clusterBytes v.boot * s.nr % 2 ^ 32 = 0)) :
    readCluster fill v img s c = (do
      let block ← copyIn (realloc fill (s.entries.getD []) (clusterBytes v.boot * s.nr % 2 ^ 32))
        (entrySize * s.dirSize) (cluster v img c)
      .ok ⟨some block, s.dirSize + clusterBytes v.boot / entrySize, s.nr + 1⟩) := by
  rw [readCluster]
  exact if_neg h

/-- One round extends the array by one cluster, as long as its size fits 32 bits. -/
theorem readCluster_gathered (fill : ℕ → UInt8) (hpos : 0 < clusterBytes v.boot)
    (hd : entrySize ∣ clusterBytes v.boot) {p : List ℕ} {c : ℕ} (hp : ∀ x ∈ p, InImage v img x)
    (hc : InImage v img c) (h : (p.length + 1) * clusterBytes v.boot < 2 ^ 32) :
    readCluster fill v img (gathered v img p) c = .ok (gathered v img (p ++ [c])) := by
  have hlen := length_contents hp
  have hcl := length_cluster hc
  have hsucc : (p.length + 1) * clusterBytes v.boot =
      p.length * clusterBytes v.boot + clusterBytes v.boot := Nat.succ_mul _ _
  have hmod : clusterBytes v.boot * (gathered v img p).nr % 2 ^ 32 =
      (p.length + 1) * clusterBytes v.boot := by
    rw [size_gathered, Nat.mod_eq_of_lt h]
  rw [readCluster_of_size fun hz => by omega, hmod, gathered_getD, offset_gathered hd,
    realloc_of_le fill (by omega), ← hlen,
    copyIn_of_le (by
      rw [List.length_append, List.length_drop, length_malloc]
      omega),
    splice_append (by
      rw [List.length_drop, length_malloc]
      omega), ok_bind, ← contents_snoc, gathered, gathered]
  simp only [List.length_append, List.length_singleton, Nat.succ_mul]
  simp

/-- At 2^32 bytes the array is given back, and in larger ones the read leaves it. -/
theorem readCluster_gathered_of_le (fill : ℕ → UInt8) (hpos : 0 < clusterBytes v.boot)
    (hd : entrySize ∣ clusterBytes v.boot) {p : List ℕ} {c : ℕ} (hc : InImage v img c)
    (h : 2 ^ 32 ≤ (p.length + 1) * clusterBytes v.boot) :
    readCluster fill v img (gathered v img p) c =
      if (p.length + 1) * clusterBytes v.boot % 2 ^ 32 = 0 then .ok (lost v (p ++ [c]))
      else .error .wild := by
  have hcl := length_cluster hc
  have hsmall := clusterBytes_lt v.boot
  have hp : p ≠ [] := by
    rintro rfl
    rw [List.length_nil, Nat.zero_add, Nat.one_mul] at h
    omega
  have hsome : (gathered v img p).entries ≠ none := by
    rw [gathered, if_neg hp]
    exact Option.some_ne_none _
  split_ifs with hz
  · rw [readCluster, if_pos ⟨hsome, by rwa [size_gathered]⟩, lost, gathered, List.length_append,
      List.length_singleton, Nat.succ_mul]
  · have hmod := Nat.mod_lt ((p.length + 1) * clusterBytes v.boot) (show 0 < 2 ^ 32 by norm_num)
    have hsucc : (p.length + 1) * clusterBytes v.boot =
        p.length * clusterBytes v.boot + clusterBytes v.boot := Nat.succ_mul _ _
    rw [readCluster_of_size (fun hn => hz (by rw [← hn.2, size_gathered])), size_gathered,
      offset_gathered hd, copyIn, if_neg (by rw [length_realloc]; omega), error_bind]

theorem readCluster_lost (fill : ℕ → UInt8) (hpos : 0 < clusterBytes v.boot)
    (hd : entrySize ∣ clusterBytes v.boot) {p : List ℕ} {c : ℕ} (hc : InImage v img c)
    (h : p.length * clusterBytes v.boot = 2 ^ 32) :
    readCluster fill v img (lost v p) c = .error .wild := by
  have hcl := length_cluster hc
  have hsmall := clusterBytes_lt v.boot
  have hoff : entrySize * (lost v p).dirSize = 2 ^ 32 := by
    rw [lost, Nat.mul_left_comm, Nat.mul_div_cancel' hd, h]
  have hmod := Nat.mod_lt (clusterBytes v.boot * (lost v p).nr) (show 0 < 2 ^ 32 by norm_num)
  rw [readCluster_of_size (fun hn => hn.1 rfl), hoff, copyIn, if_neg (by
    rw [length_realloc]
    omega), error_bind]

/-- `parse_dir` returns the clusters of the directory, in the order of its chain. -/
theorem parseDir_eq (fill : ℕ → UInt8) (hdir : isDirectory dir.attr)
    (hw : v.Chain (v.firstCluster dir) l) (hl : l ≠ []) (hpos : 0 < clusterBytes v.boot)
    (hd : entrySize ∣ clusterBytes v.boot) (hi : ∀ c ∈ l, InImage v img c)
    (hs : l.length * clusterBytes v.boot < 2 ^ 32) :
    parseDir fill v img dir =
      .ok (some (contents v img l, l.length * (clusterBytes v.boot / entrySize))) := by
  have hfold : ∃ s, l.foldlM (readCluster fill v img) ⟨none, 0, 1⟩ = .ok s ∧
      s = gathered v img l := by
    apply foldlM_total (I := fun p s => s = gathered v img p)
    · simp [gathered]
    · rintro p c q s rfl rfl
      refine ⟨_, ?_, rfl⟩
      refine readCluster_gathered fill hpos hd (fun x hx => hi x (by simp [hx])) (hi c (by simp)) ?_
      refine lt_of_le_of_lt (Nat.mul_le_mul_right _ ?_) hs
      simp
  obtain ⟨s, hs, he⟩ := hfold
  rw [parseDir_def, if_pos hdir, v.along_of_chain hw, hs, ok_bind, he, gathered, if_neg hl]
  rfl

/-- If it returns at all, it returns that, or nothing for no cluster or for 2^32 bytes. -/
theorem of_parseDir {fill : ℕ → UInt8} {r : Option (Bytes × ℕ)} (hdir : isDirectory dir.attr)
    (hw : v.Chain (v.firstCluster dir) l) (hpos : 0 < clusterBytes v.boot)
    (hd : entrySize ∣ clusterBytes v.boot) (hi : ∀ c ∈ l, InImage v img c)
    (hr : parseDir fill v img dir = .ok r) :
    r = some (contents v img l, l.length * (clusterBytes v.boot / entrySize)) ∧ l ≠ [] ∧
        l.length * clusterBytes v.boot < 2 ^ 32 ∨
      r = none ∧ (l = [] ∨ l.length * clusterBytes v.boot = 2 ^ 32) := by
  rw [parseDir_def, if_pos hdir, v.along_of_chain hw] at hr
  obtain ⟨s, hs, he⟩ := bind_eq_ok.mp hr
  have hI := foldlM_partial (I := fun p s =>
      s = gathered v img p ∧ p.length * clusterBytes v.boot < 2 ^ 32 ∨
        s = lost v p ∧ p.length * clusterBytes v.boot = 2 ^ 32) hs
    (.inl (by simp [gathered])) (by
      rintro p c q s t rfl (⟨rfl, hsmall⟩ | ⟨rfl, hfull⟩) ht
      · have hp : ∀ x ∈ p, InImage v img x := fun x hx => hi x (by simp [hx])
        rw [List.length_append, List.length_singleton]
        by_cases h : (p.length + 1) * clusterBytes v.boot < 2 ^ 32
        · rw [readCluster_gathered fill hpos hd hp (hi c (by simp)) h] at ht
          exact .inl ⟨(Except.ok.inj ht).symm, h⟩
        · rw [readCluster_gathered_of_le fill hpos hd (hi c (by simp)) (by omega)] at ht
          split_ifs at ht with hz
          have hb := clusterBytes_lt v.boot
          refine .inr ⟨(Except.ok.inj ht).symm, ?_⟩
          rw [Nat.succ_mul] at h hz ⊢
          omega
      · rw [readCluster_lost fill hpos hd (hi c (by simp)) hfull] at ht
        cases ht)
  rw [← Except.ok.inj he]
  rcases hI with ⟨rfl, hsmall⟩ | ⟨rfl, hfull⟩
  · by_cases hl : l = []
    · exact .inr ⟨by simp [gathered, hl], .inl hl⟩
    · exact .inl ⟨by simp [gathered, hl], hl, hsmall⟩
  · exact .inr ⟨rfl, .inr hfull⟩

theorem parseDir_of_single (fill : ℕ → UInt8) {c : ℕ} (hdir : isDirectory dir.attr)
    (hw : v.Chain (v.firstCluster dir) [c]) (hc : InImage v img c) :
    parseDir fill v img dir = .ok (some (cluster v img c, clusterBytes v.boot / entrySize)) := by
  have hlen := length_cluster hc
  have hsmall := clusterBytes_lt v.boot
  have hsize : clusterBytes v.boot * 1 % 2 ^ 32 = clusterBytes v.boot := by omega
  have hcopy : copyIn (realloc fill [] (clusterBytes v.boot)) (entrySize * 0) (cluster v img c) =
      .ok (cluster v img c) := by
    rw [Nat.mul_zero, copyIn_of_le (by rw [length_realloc, hlen, Nat.zero_add]),
      splice_all (by rw [length_realloc, hlen])]
  have hround : readCluster fill v img ⟨none, 0, 1⟩ c =
      .ok ⟨some (cluster v img c), 0 + clusterBytes v.boot / entrySize, 2⟩ := by
    rw [readCluster_of_size (fun hn => hn.1 rfl), Option.getD_none, hsize, hcopy, ok_bind]
  rw [parseDir_def, if_pos hdir, v.along_of_chain hw, List.foldlM_cons, hround]
  simp [pure, Except.pure, bind, Except.bind]

/-- What holds of the variables of `parse_dir` behind the clusters `p`, wherever they lie. -/
structure Gathers (v : Volume) (img : Bytes) (p : List ℕ) (s : Listing) : Prop where
  nr : s.nr = p.length + 1
  dirSize : s.dirSize = p.length * (clusterBytes v.boot / entrySize)
  start : p = [] → s.entries = none
  length : (s.entries.getD []).length = p.length * clusterBytes v.boot % 2 ^ 32
  head : ∀ c q, p = c :: q → p.length * clusterBytes v.boot < 2 ^ 32 → InImage v img c →
    slice (s.entries.getD []) 0 (clusterBytes v.boot) = cluster v img c

variable {p : List ℕ} {c : ℕ} {s t : Listing}

theorem Gathers.count (hg : Gathers v img p s) (c : ℕ) : s.nr + 1 = (p ++ [c]).length + 1 := by
  rw [List.length_append, List.length_singleton, hg.nr]

theorem Gathers.size (hg : Gathers v img p s) (c : ℕ) :
    clusterBytes v.boot * s.nr = (p ++ [c]).length * clusterBytes v.boot := by
  rw [List.length_append, List.length_singleton, hg.nr, Nat.mul_comm]

theorem Gathers.moved (hg : Gathers v img p s) (c : ℕ) :
    s.dirSize + clusterBytes v.boot / entrySize =
      (p ++ [c]).length * (clusterBytes v.boot / entrySize) := by
  rw [List.length_append, List.length_singleton, hg.dirSize, Nat.succ_mul]

/-- A round in which the size of the array comes to 0. -/
theorem Gathers.freed (hg : Gathers v img p s) (hz : clusterBytes v.boot * s.nr % 2 ^ 32 = 0) :
    Gathers v img (p ++ [c]) ⟨none, s.dirSize + clusterBytes v.boot / entrySize, s.nr + 1⟩ := by
  rw [hg.size c] at hz
  refine ⟨hg.count c, hg.moved c, by simp, hz.symm, fun x q _ hsmall hin => ?_⟩
  -- only clusters of no bytes come here
  rw [Nat.mod_eq_of_lt hsmall] at hz
  have hlen := length_cluster hin
  rw [(Nat.mul_eq_zero.mp hz).resolve_left (by simp)] at hlen ⊢
  exact (List.eq_nil_of_length_eq_zero hlen).symm

/-- The first cluster of the array stays as long as the size fits 32 bits. -/
theorem Gathers.readCluster {fill : ℕ → UInt8} (hg : Gathers v img p s)
    (hd : entrySize ∣ clusterBytes v.boot) (h : DirectoryIO.readCluster fill v img s c = .ok t) :
    Gathers v img (p ++ [c]) t := by
  by_cases hz : s.entries ≠ none ∧ clusterBytes v.boot * s.nr % 2 ^ 32 = 0
  · unfold DirectoryIO.readCluster at h
    rw [if_pos hz] at h
    rw [← Except.ok.inj h]
    exact hg.freed hz.2
  rw [readCluster_of_size hz, hg.size c] at h
  obtain ⟨block, hblock, ht⟩ := bind_eq_ok.mp h
  rw [← Except.ok.inj ht]
  have hlen := length_copyIn hblock
  rw [length_realloc] at hlen
  refine ⟨hg.count c, hg.moved c, by simp, hlen, fun x q hx hsmall hin => ?_⟩
  have hsucc : (p ++ [c]).length * clusterBytes v.boot =
      p.length * clusterBytes v.boot + clusterBytes v.boot := by
    rw [List.length_append, List.length_singleton, Nat.succ_mul]
  have hoff : entrySize * s.dirSize = p.length * clusterBytes v.boot := by
    rw [hg.dirSize, Nat.mul_left_comm, Nat.mul_div_cancel' hd]
  have hold : (s.entries.getD []).length = p.length * clusterBytes v.boot := by
    rw [hg.length, Nat.mod_eq_of_lt (by omega)]
  have hblock' : block = splice 0 (realloc fill (s.entries.getD [])
      ((p ++ [c]).length * clusterBytes v.boot)) (p.length * clusterBytes v.boot)
      (cluster v img c) := by
    rw [Nat.mod_eq_of_lt hsmall, hoff, copyIn] at hblock
    split_ifs at hblock
    exact (Except.ok.inj hblock).symm
  have hcl : (cluster v img c).length ≤ clusterBytes v.boot := length_slice_le _ _ _
  rw [Option.getD_some, hblock']
  cases p with
  | nil =>
      obtain ⟨rfl, rfl⟩ : c = x ∧ [] = q := by simpa using hx
      have hself := slice_splice_self 0 (realloc fill (s.entries.getD [])
        (([] ++ [c]).length * clusterBytes v.boot)) 0 (cluster v img c)
      rw [length_cluster hin] at hself
      rw [List.length_nil, Nat.zero_mul]
      exact hself
  | cons d p =>
      obtain ⟨rfl, -⟩ : d = x ∧ p ++ [c] = q := by simpa using hx
      have hle : clusterBytes v.boot ≤ (d :: p).length * clusterBytes v.boot :=
        Nat.le_mul_of_pos_left _ (by simp)
      rw [slice_splice_disjoint (by rw [length_realloc]; omega) (.inl (by omega)),
        realloc_of_le fill (by omega), slice_append_left (by omega)]
      exact hg.head d p rfl (by omega) hin

theorem gathers_of_foldlM {fill : ℕ → UInt8} {s : Listing} (hd : entrySize ∣ clusterBytes v.boot)
    (h : l.foldlM (readCluster fill v img) ⟨none, 0, 1⟩ = .ok s) : Gathers v img l s :=
  foldlM_partial h ⟨rfl, by simp, by simp, by simp, by simp⟩
    fun _ _ _ _ _ _ hp ht => hp.readCluster hd ht

/-- Whatever the chain of the directory is, the array has the bytes of its first cluster
in front when that cluster lies in the image and the size fits 32 bits. -/
theorem shape_of_parseDir {fill : ℕ → UInt8} {entries : Bytes} {n : ℕ}
    (hd : entrySize ∣ clusterBytes v.boot)
    (h : parseDir fill v img dir = .ok (some (entries, n))) :
    isDirectory dir.attr ∧ ∃ l, v.Chain (v.firstCluster dir) l ∧ l ≠ [] ∧
      entrySize * n = l.length * clusterBytes v.boot ∧
      entries.length = l.length * clusterBytes v.boot % 2 ^ 32 ∧
      (l.length * clusterBytes v.boot < 2 ^ 32 → InImage v img (v.firstCluster dir) →
        slice entries 0 (clusterBytes v.boot) = cluster v img (v.firstCluster dir)) := by
  rw [parseDir_def] at h
  split_ifs at h with hdir
  · obtain ⟨s, hs, h⟩ := bind_eq_ok.mp h
    rw [Except.ok.injEq, Option.map_eq_some_iff] at h
    obtain ⟨b, hb, hbn⟩ := h
    rw [Prod.mk.injEq] at hbn
    obtain ⟨rfl, rfl⟩ := hbn
    obtain ⟨l, hl, -, hfold⟩ := follows_of_along hs
    have hg := gathers_of_foldlM hd hfold
    have hne : l ≠ [] := fun he => by simp [hg.start he] at hb
    have hcont : s.entries.getD [] = b := by rw [hb, Option.getD_some]
    refine ⟨hdir, l, hl, hne, ?_, hcont ▸ hg.length, fun hsmall hin => ?_⟩
    · rw [hg.dirSize, Nat.mul_left_comm, Nat.mul_div_cancel' hd]
    · obtain ⟨q, hq⟩ := hl.exists_eq_cons hne
      exact hcont ▸ hg.head _ q hq hsmall hin
  · simp at h

theorem whole_of_parseDir {fill : ℕ → UInt8} {entries : Bytes} {n : ℕ}
    (hd : entrySize ∣ clusterBytes v.boot) (h : parseDir fill v img dir = .ok (some (entries, n)))
    (hn : entrySize * n ≤ entries.length) : isDirectory dir.attr ∧
      ∃ l, v.Chain (v.firstCluster dir) l ∧ l ≠ [] ∧
        entrySize * n = l.length * clusterBytes v.boot ∧
        entries.length = l.length * clusterBytes v.boot ∧ entries.length < 2 ^ 32 ∧
        (InImage v img (v.firstCluster dir) →
          slice entries 0 (clusterBytes v.boot) = cluster v img (v.firstCluster dir)) := by
  obtain ⟨hdir, l, hl, hne, hsize, hlen, hhead⟩ := shape_of_parseDir hd h
  have hmod := Nat.mod_lt (l.length * clusterBytes v.boot) (show 0 < 2 ^ 32 by norm_num)
  have hsmall : l.length * clusterBytes v.boot < 2 ^ 32 := by omega
  exact ⟨hdir, l, hl, hne, hsize, hlen.trans (Nat.mod_eq_of_lt hsmall), hlen ▸ hmod, hhead hsmall⟩

theorem firstCluster_eq_zero_of_parseDir {fill : ℕ → UInt8} {entries : Option Bytes}
    (hdir : isDirectory dir.attr) (hpos : 0 < clusterBytes v.boot)
    (hd : entrySize ∣ clusterBytes v.boot)
    (h : parseDirSized fill v img dir = .ok (entries, 0)) : v.firstCluster dir = 0 := by
  rw [parseDirSized, if_pos hdir] at h
  obtain ⟨s, hs, h⟩ := bind_eq_ok.mp h
  obtain ⟨l, hl, -, hfold⟩ := follows_of_along hs
  have hn : l.length * (clusterBytes v.boot / entrySize) = 0 :=
    (gathers_of_foldlM hd hfold).dirSize.symm.trans (Prod.mk.inj (Except.ok.inj h)).2
  have hper : 0 < clusterBytes v.boot / entrySize :=
    Nat.div_pos (Nat.le_of_dvd hpos hd) (by decide)
  by_contra hc
  obtain ⟨d, m, rfl, -⟩ := hl.cons hc
  exact absurd ((Nat.mul_eq_zero.mp hn).resolve_right hper.ne') (by simp)

end Reading

section Writing
variable {v : Volume} {img : Bytes} {dir : FatDirLayout} {entries : Bytes}

theorem storeCluster_ok {s t : Storing} {c : ℕ} (h : storeCluster v entries s c = .ok t) :
    entrySize * s.index + clusterBytes v.boot ≤ entries.length ∧
      t.index = (s.index + clusterBytes v.boot) % 2 ^ 32 := by
  rw [storeCluster, bind_eq_ok] at h
  obtain ⟨data, hdata, ht⟩ := h
  rw [← Except.ok.inj ht]
  exact ⟨(copyOut_eq_ok_iff.mp hdata).1, rfl⟩

theorem writeDir_of_single {c : ℕ} (hdir : isDirectory dir.attr)
    (hw : v.Chain (v.firstCluster dir) [c]) (he : clusterBytes v.boot ≤ entries.length) (n : ℤ) :
    writeDir v img dir entries n =
      .ok (splice 0 img (v.clusterSpan c).off (slice entries 0 (clusterBytes v.boot))) := by
  have hcopy : copyOut entries (entrySize * 0) (clusterBytes v.boot) =
      .ok (slice entries 0 (clusterBytes v.boot)) := copyOut_of_le (by omega)
  rw [writeDir, if_pos hdir, v.along_of_chain hw]
  simp only [List.foldlM_cons, List.foldlM_nil, storeCluster, hcopy, ok_bind]
  rfl

theorem writeDir_singleton {c : ℕ} (hdir : isDirectory dir.attr)
    (hw : v.Chain (v.firstCluster dir) [c]) (he : entries.length = clusterBytes v.boot) (n : ℤ) :
    writeDir v img dir entries n = .ok (splice 0 img (v.clusterSpan c).off entries) := by
  rw [writeDir_of_single hdir hw he.ge, ← he, slice_zero_length]

/-- A write that returns has found an array that reaches 32 times as far behind
its first cluster as the clusters in front of the last one do. -/
theorem length_of_writeDir {p : List ℕ} {c : ℕ} {n : ℤ} {r : Bytes}
    (hdir : isDirectory dir.attr) (hw : v.Chain (v.firstCluster dir) (p ++ [c]))
    (hr : writeDir v img dir entries n = .ok r) :
    entrySize * (p.length * clusterBytes v.boot % 2 ^ 32) + clusterBytes v.boot ≤
      entries.length := by
  rw [writeDir, if_pos hdir, v.along_of_chain hw, bind_eq_ok] at hr
  obtain ⟨s, hs, -⟩ := hr
  have hI := foldlM_partial (I := fun l s => s.index = l.length * clusterBytes v.boot % 2 ^ 32 ∧
    ∀ q d, l = q ++ [d] → entrySize * (q.length * clusterBytes v.boot % 2 ^ 32) +
      clusterBytes v.boot ≤ entries.length) hs (by simp) (by
    rintro q d q' s t - ⟨hx, -⟩ ht
    obtain ⟨hle, hi⟩ := storeCluster_ok ht
    constructor
    · rw [hi, hx, List.length_append, List.length_singleton, Nat.succ_mul]
      omega
    · intro q₂ d₂ hq
      obtain ⟨rfl, -⟩ := List.append_inj' hq rfl
      rw [← hx]
      exact hle)
  exact hI.2 p c rfl

end Writing

/-- The cluster lies inside the image, at an offset that 32 bits hold. -/
def InRange (v : Volume) (img : Bytes) (c : ℕ) : Prop :=
  2 ≤ c ∧ (v.place c).off < 2 ^ 32 ∧ (v.place c).off + clusterBytes v.boot ≤ img.length

/-- The image `img'` holds the slices of the array in the clusters of the chain
and agrees with `img` elsewhere. -/
structure Holds (v : Volume) (img img' : Bytes) (l : List ℕ) (entries : Bytes) : Prop where
  slices : ∀ (i : ℕ) (h : i < l.length), slice img' (v.place (l.get ⟨i, h⟩)).off
    (clusterBytes v.boot) = slice entries (i * clusterBytes v.boot) (clusterBytes v.boot)
  length : img'.length = img.length
  frame : ∀ x, (∀ c ∈ l, x ∉ v.place c) → img'[x]? = img[x]?

/-- Writing a directory of the chain `l` and reading it are inverse to each other. -/
structure Faithful (v : Volume) (img : Bytes) (dir : FatDirLayout) (l : List ℕ) : Prop where
  write : ∀ entries : Bytes, entries.length = l.length * clusterBytes v.boot → ∀ n : ℤ,
    ∃ img', writeDir v img dir entries n = .ok img' ∧ Holds v img img' l entries ∧
      ∀ fill, parseDir fill v img' dir =
        .ok (some (entries, l.length * (clusterBytes v.boot / entrySize)))
  rewrite : ∀ fill, ∃ entries n, parseDir fill v img dir = .ok (some (entries, n)) ∧
    writeDir v img dir entries n = .ok img

section Agreement
variable {v : Volume} {img : Bytes} {dir : FatDirLayout} {l : List ℕ} {c : ℕ}

/-- In range the program looks for a cluster where it belongs. -/
theorem InRange.clusterSpan_eq (h : InRange v img c) (hd : entrySize ∣ clusterBytes v.boot)
    (hpos : 0 < clusterBytes v.boot) : v.clusterSpan c = v.place c := by
  have hoff := h.2.1
  have hle := Nat.le_of_dvd hpos hd
  have hmul := Nat.mul_le_mul_left (c - 2) hle
  rw [Volume.place] at hoff
  simp only [entrySize] at hoff hmul
  rw [Volume.clusterSpan, clusterToSector_exact h.1 (by omega) (by omega)]
  rfl

theorem faithful_singleton (hdir : isDirectory dir.attr)
    (hw : v.Chain (v.firstCluster dir) [c]) (hpos : 0 < clusterBytes v.boot)
    (hd : entrySize ∣ clusterBytes v.boot) (hc : InRange v img c) :
    Faithful v img dir [c] := by
  have hspan := hc.clusterSpan_eq hd hpos
  have hin : InImage v img c := by
    rw [InImage, hspan]
    exact hc.2.2
  have hsmall : [c].length * clusterBytes v.boot < 2 ^ 32 := by
    have hlt := clusterBytes_lt v.boot
    rw [List.length_singleton]
    omega
  have hparse : ∀ img', img'.length = img.length → ∀ fill, parseDir fill v img' dir =
      .ok (some (cluster v img' c, [c].length * (clusterBytes v.boot / entrySize))) := by
    intro img' hlen fill
    rw [parseDir_eq fill hdir hw (by simp) hpos hd (by simpa [InImage, hlen] using hin) hsmall,
      contents, List.flatMap_singleton]
  constructor
  · intro entries he n
    rw [List.length_singleton, Nat.one_mul] at he
    have hlen : (splice 0 img (v.clusterSpan c).off entries).length = img.length :=
      length_splice_of_le (by rw [he]; exact hin)
    have hslice : slice (splice 0 img (v.clusterSpan c).off entries) (v.clusterSpan c).off
        (clusterBytes v.boot) = entries := by
      rw [← he, slice_splice_self]
    refine ⟨_, writeDir_singleton hdir hw he n, ⟨?_, hlen, ?_⟩, fun fill => ?_⟩
    · intro i hi
      obtain rfl : i = 0 := by simpa using hi
      rw [Nat.zero_mul]
      change slice _ (v.place c).off _ = _
      rw [← hspan, hslice, ← he, slice_zero_length]
    · intro x hx
      have hxc := hx c (by simp)
      rw [← hspan, Span.mem_def] at hxc
      rw [getElem?_splice_of_le (by rw [he]; exact hin), if_neg (by rw [he]; exact hxc)]
    · rw [hparse _ hlen, cluster]
      exact congrArg (fun b => Except.ok (some (b, _))) hslice
  · intro fill
    refine ⟨_, _, hparse img rfl fill, ?_⟩
    rw [writeDir_singleton hdir hw (length_cluster hin), cluster, splice_slice_self _ _ hin]

theorem Faithful.length_eq_one (h : Faithful v img dir l) (hdir : isDirectory dir.attr)
    (hw : v.Chain (v.firstCluster dir) l) (hl : l ≠ []) (hpos : 0 < clusterBytes v.boot)
    (hc : ∀ c ∈ l, InRange v img c) : l.length = 1 := by
  obtain ⟨x, hx, hk⟩ := exists_add_length_le hw.nodup (fun c hm => (hc c hm).1) hl
  have hoff := (hc x hx).2.1
  have hmul := Nat.mul_le_mul_right (clusterBytes v.boot) (show l.length - 1 ≤ x - 2 by omega)
  rw [Volume.place] at hoff
  obtain ⟨p, c, rfl⟩ := (List.eq_nil_or_concat' l).resolve_left hl
  obtain ⟨img', hw', -⟩ := h.write (List.replicate _ 0) (List.length_replicate ..) 0
  have hle := length_of_writeDir hdir hw hw'
  rw [List.length_append, List.length_singleton, Nat.add_sub_cancel] at hmul
  rw [List.length_replicate, List.length_append, List.length_singleton, Nat.succ_mul,
    Nat.mod_eq_of_lt (by simp only at hoff; omega), entrySize] at hle
  have hzero : p.length * clusterBytes v.boot = 0 := by omega
  rw [List.length_append, List.length_singleton, (Nat.mul_eq_zero.mp hzero).resolve_right hpos.ne']

/-- Writing and reading a directory agree exactly on the directories of one cluster. -/
theorem faithful_iff_single (hdir : isDirectory dir.attr) (hw : v.Chain (v.firstCluster dir) l)
    (hl : l ≠ []) (hpos : 0 < clusterBytes v.boot) (hd : entrySize ∣ clusterBytes v.boot)
    (hc : ∀ c ∈ l, InRange v img c) : Faithful v img dir l ↔ l.length = 1 := by
  constructor
  · intro h
    exact h.length_eq_one hdir hw hl hpos hc
  · intro h
    obtain ⟨c, rfl⟩ := List.length_eq_one_iff.mp h
    exact faithful_singleton hdir hw hpos hd (hc c (by simp))

end Agreement

def subVolume : Volume where
  fatn := .fat16
  boot := ⟨512, 1, 1, 2, 16, 40000, 0xF8, 1, 0⟩
  boot16 := ⟨[]⟩
  boot32 := ⟨0, 0, 0, []⟩
  fatTable := [0xF8, 0xFF, 0xFF, 0xFF, 3, 0, 0xFF, 0xFF] ++ List.replicate 504 0
  fatTableBak := List.replicate 512 0
  dataOffset := 2048
  rootDir := List.replicate 512 0

def subImage : Bytes := List.replicate 3072 0

/-- A directory entry `SUB` whose first cluster is `c`. -/
def subDir (c : UInt8) : FatDirLayout where
  bytes := [0x53, 0x55, 0x42] ++ List.replicate 8 0x20 ++ [0x10] ++ List.replicate 14 0 ++ [c] ++
    List.replicate 5 0
  length_bytes := by simp [entrySize]

theorem subVolume_hasCell {c : ℕ} (h : c ≤ 3) :
    HasCell subVolume.fatn.width subVolume.fatTable (subVolume.fatn.index c) := by
  have hl : subVolume.fatTable.length = 512 := by
    rw [subVolume, List.length_append, List.length_replicate]
    rfl
  have hi : subVolume.fatn.index c = c % 2 ^ 16 := rfl
  have hn : subVolume.fatn.width = 2 := rfl
  rw [HasCell, hl, hi, hn]
  omega

theorem subVolume_chain_three : subVolume.Chain 3 [3] :=
  .step (by norm_num) (subVolume.nextCluster_ok_iff.mpr ⟨subVolume_hasCell le_rfl, by decide⟩)
    .stop

theorem subVolume_inRange {c : ℕ} (h₂ : 2 ≤ c) (h₃ : c ≤ 3) : InRange subVolume subImage c := by
  have hcs : clusterBytes subVolume.boot = 512 := rfl
  have hoff : (subVolume.place c).off = 2048 + (c - 2) * 512 := rfl
  have hlen : subImage.length = 3072 := List.length_replicate
  refine ⟨h₂, ?_, ?_⟩
  · rw [hoff]
    omega
  · rw [hoff, hcs, hlen]
    omega

/-- A directory of two clusters is not written faithfully. -/
theorem subDir_two_not_faithful : isDirectory (subDir 2).attr ∧
    subVolume.Chain (subVolume.firstCluster (subDir 2)) [2, 3] ∧
    (∀ c ∈ [2, 3], InRange subVolume subImage c) ∧
    ¬ Faithful subVolume subImage (subDir 2) [2, 3] := by
  have hdir : isDirectory (subDir 2).attr := by decide
  have hfirst : subVolume.firstCluster (subDir 2) = 2 := by decide
  have hw : subVolume.Chain (subVolume.firstCluster (subDir 2)) [2, 3] := by
    rw [hfirst]
    exact .step (by norm_num) (subVolume.nextCluster_ok_iff.mpr
      ⟨subVolume_hasCell (by norm_num), by decide⟩) subVolume_chain_three
  have hc : ∀ c ∈ [2, 3], InRange subVolume subImage c := by
    intro c hc
    simp only [List.mem_cons, List.not_mem_nil, or_false] at hc
    exact subVolume_inRange (by omega) (by omega)
  refine ⟨hdir, hw, hc, fun h => ?_⟩
  exact absurd (h.length_eq_one hdir hw (by simp) (by decide) hc) (by simp)

/-- The directory that consists of its second cluster alone is. -/
theorem subDir_three_faithful : Faithful subVolume subImage (subDir 3) [3] := by
  have hfirst : subVolume.firstCluster (subDir 3) = 3 := by decide
  have hw : subVolume.Chain (subVolume.firstCluster (subDir 3)) [3] := by
    rw [hfirst]
    exact subVolume_chain_three
  refine (faithful_iff_single (by decide) hw (by simp) (by decide) (by decide) ?_).mpr rfl
  intro c hc
  rw [List.mem_singleton.mp hc]
  exact subVolume_inRange (by norm_num) le_rfl

end TFAT.DirectoryIO
