import TFAT.ChainRelease
import TFAT.EntryMarking

/-!
# What a marking command does to the tree

`delete` and `undelete` end a set of chains early, by clearing table entries or
by setting an end mark, and then mark entries in one directory. On the tree of
the volume this is one change: the links are cut, and the copies of the entry in
the places of that directory are rewritten. A directory is written back through
the changed table, and it is written faithfully when it has a single cluster, as
before or because its first cluster was cut, or when there is nothing to write.
-/
namespace TFAT.MarkedTree
open ByteRegions LittleEndianWords LinkedChains DiskLayout ClusterTable ClusterPlacement
open FileDescriptor DirectoryIO PathText PathResolution UserCommands ChainOwners VolumeTree
open ChainRelease EntryMarking

/-- The entry is a live entry of the tree of the volume, in the given place. -/
def LiveAt (s : Session) (a : Place) (e : FatDirLayout) : Prop :=
  (shape s.volume).Listed (store s.volume s.image) a e ∧ Owner e

/-- The clusters that the walk from the first cluster of an entry visits. -/
def RefersTo (s : Session) (e : FatDirLayout) (x : ℕ) : Prop :=
  Reaches s.volume.nextCluster 0 (s.volume.firstCluster e) x

/-- The places of the directory that the path of a parent names: of the root
directory, or of the first cluster of the directory that is found. -/
def Opened (fill : ℕ → UInt8) (s : Session) (freshParent : FatDirLayout) (pndir : Text) :
    Place → Prop
  | .root _ => pndir = [slash]
  | .cluster c _ => pndir ≠ [slash] ∧ ∃ p,
      find fill s.volume s.image freshParent pndir = .ok (some p) ∧ isDirectory p.attr ∧
        s.volume.firstCluster p ≠ 0 ∧
        s.volume.clusterToSector c = s.volume.clusterToSector (s.volume.firstCluster p)

open Classical in
/-- The entries of the opened directory that equal `f` get a new first name byte. -/
noncomputable def mark (f : FatDirLayout) (b : UInt8) (M : Place → Prop) (a : Place)
    (e : FatDirLayout) : FatDirLayout :=
  if e = f ∧ M a then e.setNameHead b else e

/-- A command has left other tables and `b` as the first name byte of the entries that
equal `f` in the places `M`. -/
structure Rewritten (s s' : Session) (t k : Bytes) (f : FatDirLayout) (b : UInt8)
    (M : Place → Prop) : Prop where
  volume : ∃ r, s'.volume = { retable s.volume t k with rootDir := r }
  entries : ∀ a, (shape s.volume).Visible (InImage s.volume s.image) a →
    entryIn s'.volume s'.image a = (entryIn s.volume s.image a).map (mark f b M a)
  inImage : ∀ c, InImage s.volume s.image c → InImage s.volume s'.image c

/-- A directory of more than 32 clusters is not cut, or it is cut at its first one. -/
def Uncut (v : Volume) (Z : ℕ → Prop) (p : FatDirLayout) : Prop :=
  ∀ l, v.Chain (v.firstCluster p) l → 32 < l.length → Z (v.firstCluster p) ∨ ∀ y ∈ l, ¬ Z y

/-- Of the directory `p` at most one cluster is left to write for the entry `f`, or none of its
entries equals `f` and nothing is written. -/
def OneWritten (fill : ℕ → UInt8) (s : Session) (Z : ℕ → Prop) (f p : FatDirLayout) : Prop :=
  (∀ l, s.volume.Chain (s.volume.firstCluster p) l → l.length ≤ 1) ∨ Z (s.volume.firstCluster p) ∨
    ∀ folder size, parseDir fill s.volume s.image p = .ok (some (folder, size)) →
      ∀ i < size, entryAt folder i ≠ .ok f

theorem mark_of_not {f e : FatDirLayout} {b : UInt8} {M : Place → Prop} {a : Place}
    (h : ¬ (e = f ∧ M a)) : mark f b M a e = e :=
  if_neg h

theorem mark_self {f : FatDirLayout} {b : UInt8} {M : Place → Prop} {a : Place} (h : M a) :
    mark f b M a f = f.setNameHead b :=
  if_pos ⟨rfl, h⟩

theorem mark_eq_id {f : FatDirLayout} {b : UInt8} {M : Place → Prop} {a : Place} (h : ¬ M a) :
    mark f b M a = id :=
  funext fun _ => mark_of_not fun hm => h hm.2

theorem mark_eq_relabel {f : FatDirLayout} {b : UInt8} {M : Place → Prop} {a : Place} {i n : ℕ}
    (h : M a ↔ i < n) : mark f b M a = relabel f b n i := by
  funext e
  simp only [mark, relabel, h, and_comm]

variable {fill : ℕ → UInt8} {s s' : Session} {freshParent f p : FatDirLayout} {pndir : Text}
variable {parent : Option FatDirLayout} {folder : Bytes} {size x : ℕ} {b : UInt8}
variable {Z : ℕ → Prop} {t k : Bytes}

theorem of_openParent (h : openParent fill s freshParent pndir = .ok (parent, folder, size)) :
    pndir = [slash] ∧ parent = none ∧ folder = s.volume.rootDir ∧
        size = s.volume.boot.rootEntryCount.toNat ∨
      pndir ≠ [slash] ∧ ∃ p, find fill s.volume s.image freshParent pndir = .ok (some p) ∧
        parent = some p ∧ (parseDir fill s.volume s.image p = .ok (some (folder, size)) ∨
          parseDirSized fill s.volume s.image p = .ok (none, size) ∧ folder = []) := by
  unfold openParent at h
  split_ifs at h with hroot
  · simp only [Except.ok.injEq, Prod.mk.injEq] at h
    exact .inl ⟨hroot, h.1.symm, h.2.1.symm, h.2.2.symm⟩
  · refine .inr ⟨hroot, ?_⟩
    obtain ⟨r, hr, h⟩ := bind_eq_ok.mp h
    cases r with
    | none => simp at h
    | some p =>
        obtain ⟨⟨entries, n⟩, hq, h⟩ := bind_eq_ok.mp h
        simp only [Except.ok.injEq, Prod.mk.injEq] at h
        obtain ⟨rfl, rfl, rfl⟩ := h
        refine ⟨p, hr, rfl, ?_⟩
        cases entries with
        | none => exact .inr ⟨hq, rfl⟩
        | some entries => exact .inl (by rw [parseDir, hq]; rfl)

theorem clusters_of_span {n m c : ℕ} (hc : 0 < c) (hsmall : (m + 1) * c < 2 ^ 32) (hnm : n ≤ m)
    (h : entrySize * (n * c % 2 ^ 32) + c ≤ (m + 1) * c) : 32 * n ≤ m := by
  have hn := Nat.mul_le_mul_right c hnm
  rw [Nat.succ_mul] at h hsmall
  rw [Nat.mod_eq_of_lt (by omega), entrySize] at h
  refine Nat.le_of_mul_le_mul_right ?_ hc
  rw [Nat.mul_assoc]
  omega

/-- A directory that is written back without leaving its array has a single cluster. -/
theorem chain_of_writeDir (hg : Geometry s.volume.boot)
    (hp : parseDir fill s.volume s.image p = .ok (some (folder, size)))
    (hle : entrySize * size ≤ folder.length) (hZ : Restored s.volume Z x t)
    (hx : s.volume.fatn.link x = 0) (hcut : Uncut s.volume Z p) {img₁ img₂ folder' : Bytes}
    {n : ℤ} (hlen : folder'.length = folder.length)
    (hw : writeDir (retable s.volume t k) img₁ p folder' n = .ok img₂) :
    (retable s.volume t k).Chain (s.volume.firstCluster p) [s.volume.firstCluster p] := by
  obtain ⟨hdir, l, hl, hne, -, hfolder, hsmall, -⟩ := whole_of_parseDir hg.entries hp hle
  have hlinks (y : ℕ) : (retable s.volume t k).nextCluster y = s.volume.nextCluster y ∨
      (retable s.volume t k).nextCluster y = .ok 0 := by
    by_cases hy : Z y
    · exact .inr (by rw [hZ.nextCluster hy, hx])
    · exact .inl (hZ.nextCluster_of_not hy)
  obtain ⟨l', hl'⟩ : ∃ l', (retable s.volume t k).Chain (s.volume.firstCluster p) l' := by
    have hw' := hw
    rw [writeDir, if_pos hdir] at hw'
    obtain ⟨r, hr, -⟩ := bind_eq_ok.mp hw'
    obtain ⟨l', hl', -⟩ := follows_of_along hr
    exact ⟨l', hl'⟩
  obtain ⟨q, rfl⟩ := hl.exists_eq_cons hne
  have hc : s.volume.firstCluster p ≠ 0 := hl.ne_stop (by simp)
  have hle' := hl'.length_le_of_cut hl hlinks
  obtain ⟨d, q', rfl, hd, hrest⟩ := hl'.cons hc
  obtain ⟨r, z, hrz⟩ := (List.eq_nil_or_concat' (s.volume.firstCluster p :: q')).resolve_left
    (by simp)
  have hr : r.length = q'.length := by
    have hcount := congrArg List.length hrz
    simpa using hcount.symm
  have hspan : entrySize * (r.length * clusterBytes s.volume.boot % 2 ^ 32) +
      clusterBytes s.volume.boot ≤ folder'.length :=
    length_of_writeDir (v := retable s.volume t k) hdir (hrz ▸ hl') hw
  have hlong : 32 * q'.length ≤ q.length := by
    rw [hr, hlen, hfolder] at hspan
    exact clusters_of_span hg.pos (hfolder ▸ hsmall) (Nat.le_of_succ_le_succ hle') hspan
  suffices hq' : q' = [] by rwa [hq'] at hl'
  apply List.eq_nil_of_length_eq_zero
  by_contra hq'
  rcases hcut _ hl (by rw [List.length_cons]; omega) with hZc | hZl
  · rw [hZ.nextCluster hZc, hx, Except.ok.injEq] at hd
    rw [← hd] at hrest
    exact hq' (by rw [hrest.eq_nil, List.length_nil])
  · have heq := hl'.unique (hl.congr fun y hy => hZ.nextCluster_of_not (hZl y hy))
    rw [List.cons.injEq] at heq
    rw [heq.2] at hlong hq'
    omega

theorem entry_le {n i : ℕ} (hd : entrySize ∣ n) (hi : i < n / entrySize) :
    entrySize * i + entrySize ≤ n := by
  have hm := Nat.mul_le_mul_left entrySize (Nat.succ_le_of_lt hi)
  rwa [Nat.mul_div_cancel' hd, Nat.mul_succ] at hm

theorem uncut_of_oneWritten (h : (∀ l, s.volume.Chain (s.volume.firstCluster p) l →
    l.length ≤ 1) ∨ Z (s.volume.firstCluster p)) : Uncut s.volume Z p := by
  intro l hl hlen
  rcases h with h | h
  · have := h l hl
    omega
  · exact .inl h

/-- Reading an entry of the first cluster of an array. -/
theorem entryAt_slice {block : Bytes} {n i : ℕ} (hd : entrySize ∣ n) (hi : i < n / entrySize)
    (hn : n ≤ block.length) : entryAt (slice block 0 n) i = entryAt block i := by
  have hle := entry_le hd hi
  have hl : (slice block 0 n).length = n := length_slice_of_le (by omega)
  have he : entryAt block i = .ok ⟨_, length_slice_of_le (hle.trans hn)⟩ := dif_pos (hle.trans hn)
  rw [he, entryAt_eq_ok_iff, hl, slice_slice _ _ _ _ _ hle, Nat.zero_add]
  exact ⟨hle, rfl⟩

theorem toOption_map (r : Except Fault FatDirLayout) (g : FatDirLayout → FatDirLayout) :
    (r.map g).toOption = r.toOption.map g := by
  cases r <;> rfl

theorem rewritten_of_root (hr : pndir = [slash])
    (h : markEntries s (retable s.volume t k) none s.volume.rootDir
      s.volume.boot.rootEntryCount.toNat f b = .ok s') :
    Rewritten s s' t k f b (Opened fill s freshParent pndir) := by
  obtain ⟨m, hm, h⟩ := bind_eq_ok.mp h
  rw [← Except.ok.inj h]
  obtain ⟨-, -, hent⟩ := of_markLoop hm
  have himg := image_of_markLoop_root hm
  refine ⟨⟨_, rfl⟩, fun a ha => ?_, fun c hc => himg.symm ▸ hc⟩
  rcases ha with ⟨i, hi, rfl⟩ | ⟨c, -, i, -, rfl⟩
  · have hmark : mark f b (Opened fill s freshParent pndir) (.root i) =
        relabel f b s.volume.boot.rootEntryCount.toNat i := mark_eq_relabel (iff_of_true hr hi)
    change (entryAt m.folder i).toOption = (entryAt s.volume.rootDir i).toOption.map _
    rw [hent, toOption_map, hmark]
  · have hmark : mark f b (Opened fill s freshParent pndir) (.cluster c i) = id :=
      mark_eq_id fun ho => ho.1 hr
    change (entryAt (cluster _ m.image c) i).toOption = _
    rw [himg, hmark, Option.map_id]
    rfl

theorem opened_cluster_iff (hr : pndir ≠ [slash])
    (hp : find fill s.volume s.image freshParent pndir = .ok (some p)) (c i : ℕ) :
    Opened fill s freshParent pndir (.cluster c i) ↔ isDirectory p.attr ∧
      s.volume.firstCluster p ≠ 0 ∧
      s.volume.clusterToSector c = s.volume.clusterToSector (s.volume.firstCluster p) := by
  constructor
  · rintro ⟨-, q, hq, h⟩
    rw [hp, Except.ok.injEq, Option.some.injEq] at hq
    exact hq ▸ h
  · intro h
    exact ⟨hr, p, hp, h⟩

theorem cluster_eq_slice {v : Volume} {img : Bytes} {c c₀ : ℕ}
    (hhead : InImage v img c₀ → slice folder 0 (clusterBytes v.boot) = cluster v img c₀)
    (hc : InImage v img c) (he : v.clusterToSector c = v.clusterToSector c₀) :
    cluster v img c = slice folder 0 (clusterBytes v.boot) := by
  have hspan : v.clusterSpan c = v.clusterSpan c₀ := by
    rw [Volume.clusterSpan, he, Volume.clusterSpan]
  rw [InImage, hspan] at hc
  rw [hhead hc, cluster, hspan, cluster]

/-- The loop that marks writes to one cluster, or finds nothing to mark. -/
theorem clusters_of_marked {m : Marking} (hg : Geometry s.volume.boot)
    (hp : parseDir fill s.volume s.image p = .ok (some (folder, size)))
    (hZ : Restored s.volume Z x t) (hx : s.volume.fatn.link x = 0)
    (hcut : OneWritten fill s Z f p)
    (hm : (List.range size).foldlM (markEntry (retable s.volume t k) (some p) size f b)
      ⟨folder, s.image⟩ = .ok m) {c : ℕ} (hc : InImage s.volume s.image c) :
    InImage s.volume m.image c ∧ cluster (retable s.volume t k) m.image c =
      if s.volume.clusterToSector c = s.volume.clusterToSector (s.volume.firstCluster p) then
        slice m.folder 0 (clusterBytes s.volume.boot)
      else cluster s.volume s.image c := by
  obtain ⟨hle, -, -⟩ := of_markLoop hm
  obtain ⟨hdir, l, -, hne, -, hlen, -, hhead⟩ := whole_of_parseDir hg.entries hp hle
  have hfolder : clusterBytes s.volume.boot ≤ folder.length := by
    rw [hlen]
    exact Nat.le_mul_of_pos_left _ (List.length_pos_of_ne_nil hne)
  rcases or_assoc.mpr hcut with huncut | habsent
  · refine image_of_markLoop (v := retable s.volume t k) hg hm hfolder
      (fun img₁ img₂ folder' hlen hw => ?_) (fun c => cluster_eq_slice hhead) hc
    have hchain := chain_of_writeDir hg hp hle hZ hx (uncut_of_oneWritten huncut) hlen hw
    rw [writeDir_of_single (v := retable s.volume t k) hdir hchain (hlen ▸ hfolder)] at hw
    exact (Except.ok.inj hw).symm
  · rw [markLoop_of_ne fun j hj => ?_, Except.ok.injEq] at hm
    · subst hm
      refine ⟨hc, ?_⟩
      split_ifs with he
      · exact cluster_eq_slice hhead hc he
      · rfl
    · have hj' := List.mem_range.mp hj
      have hroom := Nat.mul_le_mul_left entrySize (Nat.succ_le_of_lt hj')
      rw [Nat.mul_succ] at hroom
      have he : entryAt folder j = .ok _ := dif_pos (hroom.trans hle)
      exact ⟨_, he, fun hef => habsent folder size hp j hj' (hef ▸ he)⟩

/-- Marking in a directory that lies in clusters. -/
theorem rewritten_of_cluster (hg : Geometry s.volume.boot) (hr : pndir ≠ [slash])
    (hfind : find fill s.volume s.image freshParent pndir = .ok (some p))
    (hp : parseDir fill s.volume s.image p = .ok (some (folder, size)))
    (hZ : Restored s.volume Z x t) (hx : s.volume.fatn.link x = 0)
    (hcut : OneWritten fill s Z f p)
    (h : markEntries s (retable s.volume t k) (some p) folder size f b = .ok s') :
    Rewritten s s' t k f b (Opened fill s freshParent pndir) := by
  obtain ⟨m, hm, h⟩ := bind_eq_ok.mp h
  rw [← Except.ok.inj h]
  obtain ⟨hle, hflen, hent⟩ := of_markLoop hm
  obtain ⟨hdir, l, hl, hne, hsize, hlen, -, hhead⟩ := whole_of_parseDir hg.entries hp hle
  have hfolder : clusterBytes s.volume.boot ≤ folder.length := by
    rw [hlen]
    exact Nat.le_mul_of_pos_left _ (List.length_pos_of_ne_nil hne)
  have hfirst : s.volume.firstCluster p ≠ 0 := by
    obtain ⟨q, rfl⟩ := hl.exists_eq_cons hne
    exact hl.ne_stop (by simp)
  have himg (c : ℕ) (hc : InImage s.volume s.image c) :=
    clusters_of_marked (k := k) hg hp hZ hx hcut hm hc
  refine ⟨⟨_, rfl⟩, fun a ha => ?_, fun c hc => (himg c hc).1⟩
  rcases ha with ⟨i, -, rfl⟩ | ⟨c, hc, i, hi, rfl⟩
  · rw [mark_eq_id fun ho => hr ho, Option.map_id]
    rfl
  · change (entryAt (cluster (retable s.volume t k) m.image c) i).toOption =
      (entryAt (cluster s.volume s.image c) i).toOption.map _
    rw [(himg c hc).2]
    by_cases he : s.volume.clusterToSector c = s.volume.clusterToSector (s.volume.firstCluster p)
    · have hsz : i < size := by
        have hm := entry_le hg.entries hi
        rw [entrySize] at *
        omega
      have hmark : mark f b (Opened fill s freshParent pndir) (.cluster c i) =
          relabel f b size i :=
        mark_eq_relabel (iff_of_true ((opened_cluster_iff hr hfind c i).mpr ⟨hdir, hfirst, he⟩) hsz)
      rw [if_pos he, entryAt_slice hg.entries hi (by rw [hflen]; exact hfolder), hent, toOption_map,
        hmark, cluster_eq_slice hhead hc he, entryAt_slice hg.entries hi hfolder]
    · have ho : ¬ Opened fill s freshParent pndir (.cluster c i) := fun ho =>
        he ((opened_cluster_iff hr hfind c i).mp ho).2.2
      rw [if_neg he, mark_eq_id ho, Option.map_id]
      rfl

theorem rewritten_of_nothing (hg : Geometry s.volume.boot) (hr : pndir ≠ [slash])
    (hfind : find fill s.volume s.image freshParent pndir = .ok (some p))
    (hp : parseDirSized fill s.volume s.image p = .ok (none, size))
    (h : markEntries s (retable s.volume t k) (some p) [] size f b = .ok s') :
    Rewritten s s' t k f b (Opened fill s freshParent pndir) := by
  obtain ⟨m, hm, -⟩ := bind_eq_ok.mp h
  obtain rfl := (of_markLoop_nil hm).1
  rw [← Except.ok.inj h]
  refine ⟨⟨_, rfl⟩, fun a _ => ?_, fun c hc => hc⟩
  have ho : ¬ Opened fill s freshParent pndir a := by
    cases a with
    | root i => exact hr
    | cluster c i =>
        intro ho
        obtain ⟨hdir, hne, -⟩ := (opened_cluster_iff hr hfind c i).mp ho
        exact hne (firstCluster_eq_zero_of_parseDir hdir hg.pos hg.entries hp)
  rw [mark_eq_id ho, Option.map_id]
  cases a <;> rfl

/-- The tables and the entries that a marking command leaves. -/
theorem rewritten_of_markEntries (hg : Geometry s.volume.boot)
    (ho : openParent fill s freshParent pndir = .ok (parent, folder, size))
    (hZ : Restored s.volume Z x t) (hx : s.volume.fatn.link x = 0)
    (hcut : ∀ p, pndir ≠ [slash] → find fill s.volume s.image freshParent pndir = .ok (some p) →
      OneWritten fill s Z f p)
    (h : markEntries s (retable s.volume t k) parent folder size f b = .ok s') :
    Rewritten s s' t k f b (Opened fill s freshParent pndir) := by
  rcases of_openParent ho with ⟨hr, rfl, rfl, rfl⟩ | ⟨hr, p, hfind, rfl, hp | ⟨hp, rfl⟩⟩
  · exact rewritten_of_root hr h
  · exact rewritten_of_cluster hg hr hfind hp hZ hx (hcut p hr hfind) h
  · exact rewritten_of_nothing hg hr hfind hp h

variable {M : Place → Prop}

theorem Rewritten.shape_eq (h : Rewritten s s' t k f b M) : shape s'.volume = shape s.volume := by
  obtain ⟨r, hv⟩ := h.volume
  rw [hv]
  rfl

/-- On the tree the command cuts links and rewrites the places that it has opened. -/
theorem Rewritten.unlinked (h : Rewritten s s' t k f b M) (hZ : Restored s.volume Z x t)
    (hx : s.volume.fatn.link x = 0) :
    (shape s.volume).Unlinked (InImage s.volume s.image) Z (mark f b M)
      (store s.volume s.image) (store s'.volume s'.image) := by
  obtain ⟨r, hv⟩ := h.volume
  have hnext : s'.volume.nextCluster = (retable s.volume t k).nextCluster := by
    rw [hv]
    rfl
  refine ⟨fun y hy => ?_, fun y hy => ?_, h.entries⟩
  · change s'.volume.nextCluster y = .ok 0
    rw [hnext, hZ.nextCluster hy, hx]
  · change s'.volume.nextCluster y = s.volume.nextCluster y
    rw [hnext, hZ.nextCluster_of_not hy]

theorem Rewritten.tableEntry_eq (h : Rewritten s s' t k f b M) (y : ℕ) :
    tableEntry s'.volume y = cell s.volume.fatn.width t (s.volume.fatn.index y) := by
  obtain ⟨r, hv⟩ := h.volume
  rw [hv]
  rfl

theorem Rewritten.allocated_iff (h : Rewritten s s' t k f b M) (y : ℕ) :
    Allocated s'.volume y ↔
      cell s.volume.fatn.width t (s.volume.fatn.index y) % s.volume.fatn.span ≠ 0 := by
  have hf : s'.volume.fatn = s.volume.fatn := by
    obtain ⟨r, hv⟩ := h.volume
    rw [hv]
    rfl
  rw [Allocated, h.tableEntry_eq, hf]

theorem Rewritten.geometry (h : Rewritten s s' t k f b M) (hg : Geometry s.volume.boot) :
    Geometry s'.volume.boot := by
  obtain ⟨r, hv⟩ := h.volume
  rw [hv]
  exact hg

theorem Rewritten.sound (h : Rewritten s s' t k f b M) (hZ : Restored s.volume Z x t) {y : ℕ}
    (hy : Sound s.volume s.image y) (hn : ¬ Z y) : Sound s'.volume s'.image y := by
  refine ⟨?_, ?_⟩
  · rw [h.allocated_iff, hZ.kept y hn]
    exact hy.1
  · obtain ⟨r, hv⟩ := h.volume
    rw [hv]
    exact h.inImage y hy.2

end TFAT.MarkedTree
