import TFAT.UndeleteSafety

/-!
# What marking commands leave as it was

`delete` and `undelete` keep the sizes of all blocks, and they end chains and
never lengthen them. What they store goes to two sides. The tables and the root
directory change in memory, and the bytes of the directory that is opened for
marking change on the disk.
-/
namespace TFAT.MarkingEffects
open ByteRegions LittleEndianWords LinkedChains DiskLayout ClusterTable ClusterPlacement
open FileDescriptor DirectoryIO PathText PathResolution UserCommands VolumeTree
open ChainRelease EntryMarking MarkedTree DeleteSafety UndeleteSafety

/-- A volume of the same geometry whose links are those of `v`, some of them ended. -/
structure Edits (v w : Volume) : Prop where
  fatn : w.fatn = v.fatn
  boot : w.boot = v.boot
  boot32 : w.boot32 = v.boot32
  dataOffset : w.dataOffset = v.dataOffset
  fatTable : w.fatTable.length = v.fatTable.length
  fatTableBak : w.fatTableBak.length = v.fatTableBak.length
  rootDir : w.rootDir.length = v.rootDir.length
  nextCluster : ∀ c, w.nextCluster c = v.nextCluster c ∨ w.nextCluster c = .ok 0

/-- An image that is no shorter and differs in the bytes of `A` only. -/
structure ChangedIn (A : ℕ → Prop) (img img' : Bytes) : Prop where
  length : img.length ≤ img'.length
  kept : ∀ x < img.length, ¬ A x → img'[x]? = img[x]?

section Volumes
variable {u v w : Volume} {c x : ℕ}

theorem Edits.refl (v : Volume) : Edits v v :=
  ⟨rfl, rfl, rfl, rfl, rfl, rfl, rfl, fun _ => .inl rfl⟩

theorem Edits.trans (h : Edits u v) (k : Edits v w) : Edits u w := by
  refine ⟨k.fatn.trans h.fatn, k.boot.trans h.boot, k.boot32.trans h.boot32,
    k.dataOffset.trans h.dataOffset, k.fatTable.trans h.fatTable,
    k.fatTableBak.trans h.fatTableBak, k.rootDir.trans h.rootDir, fun c => ?_⟩
  rcases k.nextCluster c with hk | hk
  · rw [hk]
    exact h.nextCluster c
  · exact .inr hk

theorem Edits.reaches (h : Edits v w) (hr : Reaches w.nextCluster 0 c x) :
    Reaches v.nextCluster 0 c x := by
  induction hr with
  | here hc => exact .here hc
  | @later c d x hc hd hr ih =>
      rcases h.nextCluster c with he | he
      · exact .later hc (he ▸ hd) ih
      · rw [he, Except.ok.injEq] at hd
        exact absurd hd.symm hr.ne_stop

theorem Edits.chain_singleton {a : ℕ} (h : Edits v w) (hw : v.Chain a [c]) : w.Chain a [c] := by
  cases hw with
  | step hc hd hs =>
      cases hs with
      | stop =>
          refine .step hc ?_ .stop
          rcases h.nextCluster c with he | he
          · rw [he, hd]
          · exact he

theorem Edits.clusterSpan (h : Edits v w) : w.clusterSpan = v.clusterSpan := by
  funext c
  simp only [Volume.clusterSpan, Volume.clusterToSector_eq, h.boot, h.dataOffset]

theorem Edits.firstCluster (h : Edits v w) : w.firstCluster = v.firstCluster := by
  funext d
  rw [Volume.firstCluster, Volume.firstCluster, h.fatn]

theorem edits_of_changeCluster (h : v.changeCluster c x = .ok w)
    (hx : v.fatn.link (x % 256 ^ v.fatn.width) = 0) : Edits v w := by
  obtain ⟨t, b, rfl, hZ⟩ := of_changeCluster h
  have hbak : b.length = v.fatTableBak.length := by
    rw [v.changeCluster_eq, Volume.store] at h
    split_ifs at h with hc
    have hb := congrArg Volume.fatTableBak (Except.ok.inj h)
    exact (congrArg List.length hb).symm.trans (length_setCell x hc.2)
  refine ⟨rfl, rfl, rfl, rfl, hZ.length, hbak, rfl, fun y => ?_⟩
  by_cases hy : v.fatn.index y = v.fatn.index c
  · exact .inr ((hZ.nextCluster hy).trans (by rw [hx]))
  · exact .inl (hZ.nextCluster_of_not hy)

theorem edits_of_freeChain {fuel : ℕ} {lines : List Line}
    (h : freeChain fuel v c = .ok (w, lines)) : Edits v w := by
  induction fuel generalizing v c lines with
  | zero => simp [freeChain] at h
  | succ fuel ih =>
      rw [freeChain] at h
      split_ifs at h
      · rw [Except.ok.injEq, Prod.mk.injEq] at h
        exact h.1 ▸ .refl v
      · obtain ⟨d, -, h⟩ := bind_eq_ok.mp h
        obtain ⟨u, hu, h⟩ := bind_eq_ok.mp h
        obtain ⟨⟨w', lines'⟩, hw, h⟩ := bind_eq_ok.mp h
        rw [Except.ok.injEq, Prod.mk.injEq] at h
        obtain ⟨rfl, -⟩ := h
        refine (edits_of_changeCluster hu ?_).trans (ih hw)
        rw [Nat.zero_mod, v.fatn.link_zero]

theorem fatTable_of_changeCluster (h : v.changeCluster c x = .ok w)
    (hx : tableEntry v c = x % 256 ^ v.fatn.width) : w.fatTable = v.fatTable := by
  rw [v.changeCluster_eq, Volume.store] at h
  split_ifs at h with hc
  rw [← Except.ok.inj h]
  exact setCell_eq_self hc.1 hx

theorem fatTable_of_freeChain {fuel : ℕ} {lines : List Line}
    (h : freeChain fuel v c = .ok (w, lines)) (hc : c = 0 ∨ tableEntry v c = 0) :
    w.fatTable = v.fatTable := by
  cases fuel with
  | zero => simp [freeChain] at h
  | succ fuel =>
      rw [freeChain] at h
      split_ifs at h with h₀
      · rw [Except.ok.injEq, Prod.mk.injEq] at h
        rw [← h.1]
      · obtain ⟨d, hd, h⟩ := bind_eq_ok.mp h
        obtain ⟨u, hu, h⟩ := bind_eq_ok.mp h
        obtain ⟨⟨w', lines'⟩, hw, h⟩ := bind_eq_ok.mp h
        rw [Except.ok.injEq, Prod.mk.injEq] at h
        have hx := hc.resolve_left h₀
        have hnext : d = 0 := by
          rw [(v.nextCluster_ok_iff.mp hd).2]
          exact (congrArg v.fatn.link hx).trans v.fatn.link_zero
        have htable := fatTable_of_changeCluster hu (by rw [hx, Nat.zero_mod])
        rw [← h.1, ← htable]
        cases fuel with
        | zero => simp [freeChain] at hw
        | succ fuel =>
            rw [freeChain, if_pos hnext, Except.ok.injEq, Prod.mk.injEq] at hw
            rw [← hw.1]

end Volumes

section Images
variable {A B : ℕ → Prop} {img img' img'' : Bytes} {v : Volume} {p : FatDirLayout}

theorem ChangedIn.refl (A : ℕ → Prop) (img : Bytes) : ChangedIn A img img :=
  ⟨le_rfl, fun _ _ _ => rfl⟩

theorem ChangedIn.trans (h : ChangedIn A img img') (k : ChangedIn A img' img'') :
    ChangedIn A img img'' :=
  ⟨h.length.trans k.length, fun x hx hA =>
    (k.kept x (hx.trans_le h.length) hA).trans (h.kept x hx hA)⟩

theorem ChangedIn.mono (h : ChangedIn A img img') (hAB : ∀ x, A x → B x) : ChangedIn B img img' :=
  ⟨h.length, fun x hx hB => h.kept x hx fun hA => hB (hAB x hA)⟩

theorem changedIn_splice {off : ℕ} {d : Bytes} (h : ∀ x, off ≤ x → x < off + d.length → A x) :
    ChangedIn A img (splice 0 img off d) := by
  refine ⟨length_le_length_splice _ _ _ _, fun x hx hA => getElem?_splice_outside _ _ _ _ hx ?_⟩
  by_contra hcon
  exact hA (h x (by omega) (by omega))

/-- The bytes of the clusters that a directory entry leads to. -/
def BytesOf (v : Volume) (p : FatDirLayout) (x : ℕ) : Prop :=
  isDirectory p.attr ∧ ∃ c, Reaches v.nextCluster 0 (v.firstCluster p) c ∧ x ∈ v.clusterSpan c

theorem changedIn_of_writeDir {entries : Bytes} {n : ℤ}
    (h : writeDir v img p entries n = .ok img') : ChangedIn (BytesOf v p) img img' := by
  unfold writeDir at h
  split_ifs at h with hdir
  · obtain ⟨s, hs, h⟩ := bind_eq_ok.mp h
    obtain ⟨l, hl, -, hfold⟩ := follows_of_along hs
    rw [← Except.ok.inj h]
    refine foldlM_partial (I := fun _ s => ChangedIn (BytesOf v p) img s.img) hfold (.refl _ _) ?_
    rintro q c r s t rfl hq ht
    obtain ⟨data, hdata, ht⟩ := bind_eq_ok.mp ht
    rw [← Except.ok.inj ht]
    refine hq.trans (changedIn_splice fun x h₁ h₂ => ⟨hdir, c, hl.reaches_iff.mpr (by simp), ?_⟩)
    have hlen : data.length ≤ clusterBytes v.boot := by
      rw [(copyOut_eq_ok_iff.mp hdata).2]
      exact length_slice_le _ _ _
    rw [ClusterPlacement.Span.mem_def]
    exact ⟨h₁, h₂.trans_le (Nat.add_le_add_left hlen _)⟩
  · exact Except.ok.inj h ▸ .refl _ _

end Images

variable (fill : ℕ → UInt8) (s : Session) (freshParent : FatDirLayout) (pndir : Text) in
/-- The bytes of the directory that is opened for marking, unless that is the root directory. -/
def ParentBytes (x : ℕ) : Prop :=
  pndir ≠ [slash] ∧ ∃ p, find fill s.volume s.image freshParent pndir = .ok (some p) ∧
    BytesOf s.volume p x

variable (fill : ℕ → UInt8) (s : Session) (freshParent : FatDirLayout) (pndir : Text) in
/-- Marking copies of `f` with `b` leaves the disk as it is: the root directory is opened,
or a directory without a copy, or one of a single cluster whose copies have that byte. -/
def LeavesImage (f : FatDirLayout) (b : UInt8) : Prop :=
  pndir = [slash] ∨ ∀ p entries size,
    find fill s.volume s.image freshParent pndir = .ok (some p) →
    parseDir fill s.volume s.image p = .ok (some (entries, size)) →
    (∀ i < size, entryAt entries i ≠ .ok f) ∨
      f.nameHead = b ∧ ∃ c, s.volume.Chain (s.volume.firstCluster p) [c] ∧
        InImage s.volume s.image c

section Marking
variable {fill : ℕ → UInt8} {s s' : Session} {freshParent f p : FatDirLayout} {pndir : Text}
variable {parent : Option FatDirLayout} {folder : Bytes} {size i : ℕ} {b : UInt8} {w : Volume}

theorem changedIn_of_markLoop {m m' : Marking}
    (h : (List.range size).foldlM (markEntry w (some p) size f b) m = .ok m') :
    ChangedIn (BytesOf w p) m.image m'.image := by
  refine foldlM_range_partial (I := fun _ r => ChangedIn (BytesOf w p) m.image r.image) h
    (.refl _ _) ?_
  rintro k r t - hr ht
  obtain ⟨-, -, -, rfl | hwrite⟩ := of_markEntry ht
  · exact hr
  · exact hr.trans (changedIn_of_writeDir hwrite)

/-- An entry that has the byte already is stored as it was. -/
theorem copyIn_nameHead (he : entryAt folder i = .ok f) (hb : f.nameHead = b) :
    copyIn folder (entrySize * i) [b] = .ok folder := by
  obtain ⟨hle, hf⟩ := entryAt_eq_ok_iff.mp he
  have hone : entrySize * i + 1 ≤ folder.length := by
    rw [entrySize] at *
    omega
  have hs : slice f.bytes 0 1 = slice folder (entrySize * i) 1 := by
    rw [hf, slice_slice _ _ _ _ _ (by decide), Nat.add_zero]
  obtain ⟨a, ha⟩ := List.length_eq_one_iff.mp (length_slice_of_le hone)
  rw [FatDirLayout.nameHead, hs, ha] at hb
  rw [copyIn_of_le hone, splice_eq_self hone]
  rw [List.length_singleton, ha, ← hb]
  simp [value]

theorem writeDir_of_parseDir {c : ℕ} {img img' : Bytes} {n : ℤ} (hE : Edits s.volume w)
    (hp : parseDir fill s.volume img p = .ok (some (folder, size)))
    (hw : s.volume.Chain (s.volume.firstCluster p) [c]) (hc : InImage s.volume img c)
    (h : writeDir w img p folder n = .ok img') : img' = img := by
  have hdir : isDirectory p.attr := by
    by_contra hn
    simp [parseDir_def, hn] at hp
  rw [parseDir_of_single fill hdir hw hc] at hp
  obtain ⟨rfl, -⟩ := Prod.mk.inj (Option.some.inj (Except.ok.inj hp))
  have hchain : w.Chain (w.firstCluster p) [c] := hE.firstCluster ▸ hE.chain_singleton hw
  have hlen := length_cluster hc
  rw [writeDir_singleton hdir hchain (hE.boot ▸ hlen), hE.clusterSpan, Except.ok.injEq] at h
  rw [← h]
  exact splice_slice_self 0 img hc

theorem sides_of_markEntries
    (ho : openParent fill s freshParent pndir = .ok (parent, folder, size))
    (h : markEntries s w parent folder size f b = .ok s') :
    s'.volume.fatTable = w.fatTable ∧
      (pndir = [slash] ∧ s'.image = s.image ∨ pndir ≠ [slash] ∧ s'.volume = w) := by
  obtain ⟨m, hm, hs⟩ := bind_eq_ok.mp h
  rcases of_openParent ho with ⟨hr, rfl, -, -⟩ | ⟨hr, p, -, rfl, -⟩
  · rw [← Except.ok.inj hs]
    exact ⟨rfl, .inl ⟨hr, image_of_markLoop_root hm⟩⟩
  · rw [← Except.ok.inj hs]
    exact ⟨rfl, .inr ⟨hr, rfl⟩⟩

theorem edits_of_markEntries (hE : Edits s.volume w) (hw : w.rootDir = s.volume.rootDir)
    (ho : openParent fill s freshParent pndir = .ok (parent, folder, size))
    (h : markEntries s w parent folder size f b = .ok s') : Edits s.volume s'.volume := by
  obtain ⟨m, hm, hs⟩ := bind_eq_ok.mp h
  rcases of_openParent ho with ⟨-, rfl, rfl, -⟩ | ⟨-, p, -, rfl, -⟩
  · rw [← Except.ok.inj hs]
    refine hE.trans ⟨rfl, rfl, rfl, rfl, rfl, rfl, ?_, fun _ => .inl rfl⟩
    exact (of_markLoop hm).2.1.trans (congrArg List.length hw.symm)
  · rw [← Except.ok.inj hs]
    exact hE

/-- Bytes of the image change in the directory that is opened only. -/
theorem changedIn_of_markEntries (hE : Edits s.volume w)
    (ho : openParent fill s freshParent pndir = .ok (parent, folder, size))
    (h : markEntries s w parent folder size f b = .ok s') :
    ChangedIn (ParentBytes fill s freshParent pndir) s.image s'.image := by
  obtain ⟨m, hm, hs⟩ := bind_eq_ok.mp h
  rcases of_openParent ho with ⟨-, rfl, -, -⟩ | ⟨hr, p, hfind, rfl, -⟩
  · rw [← Except.ok.inj hs]
    change ChangedIn _ _ m.image
    rw [image_of_markLoop_root hm]
    exact .refl _ _
  · rw [← Except.ok.inj hs]
    refine (changedIn_of_markLoop hm).mono fun x hx => ⟨hr, p, hfind, hx.1, ?_⟩
    obtain ⟨-, c, hc, hxc⟩ := hx
    rw [hE.firstCluster] at hc
    exact ⟨c, hE.reaches hc, hE.clusterSpan ▸ hxc⟩

theorem image_of_leavesImage (hE : Edits s.volume w)
    (hl : LeavesImage fill s freshParent pndir f b)
    (ho : openParent fill s freshParent pndir = .ok (parent, folder, size))
    (h : markEntries s w parent folder size f b = .ok s') : s'.image = s.image := by
  obtain ⟨m, hm, hs⟩ := bind_eq_ok.mp h
  rcases of_openParent ho with ⟨-, rfl, -, -⟩ | ⟨hr, p, hfind, rfl, hp⟩
  · rw [← Except.ok.inj hs]
    exact image_of_markLoop_root hm
  · rw [← Except.ok.inj hs]
    change m.image = s.image
    rcases hp with hp | ⟨-, rfl⟩
    · have hround (k : ℕ) (hk : k < size) (t : Marking)
          (ht : markEntry w (some p) size f b ⟨folder, s.image⟩ k = .ok t) :
          t = ⟨folder, s.image⟩ := by
        obtain ⟨e, he, hif⟩ := bind_eq_ok.mp ht
        split_ifs at hif with hef
        · rw [hef] at he
          rcases hl.resolve_left hr p folder size hfind hp with hun | ⟨hb, c, hw, hc⟩
          · exact absurd he (hun k hk)
          · obtain ⟨folder', hcopy, hrest⟩ := bind_eq_ok.mp hif
            obtain ⟨img', hwrite, hlast⟩ := bind_eq_ok.mp hrest
            obtain rfl := Except.ok.inj ((copyIn_nameHead he hb).symm.trans hcopy)
            rw [← Except.ok.inj hlast, writeDir_of_parseDir hE hp hw hc hwrite]
        · exact (Except.ok.inj hif).symm
      have hI := foldlM_range_partial (I := fun _ r => r = ⟨folder, s.image⟩) hm rfl
        fun k r t hk hr ht => hround k hk t (hr ▸ ht)
      rw [hI]
    · rw [(of_markLoop_nil hm).2]

end Marking

/-- A step has changed the tables and the root directory in memory only, or the disk only. -/
def OneSide (s s' : Session) : Prop :=
  s'.image = s.image ∨
    s'.volume.fatTable = s.volume.fatTable ∧ s'.volume.rootDir = s.volume.rootDir

/-- What a step does that writes to the bytes `A` of the disk and, if `C` holds, to one
side only. -/
structure Effect (A : ℕ → Prop) (C : Prop) (s s' : Session) : Prop where
  edits : Edits s.volume s'.volume
  image : ChangedIn A s.image s'.image
  oneSide : C → OneSide s s'

section Commands
variable (fill : ℕ → UInt8) (s : Session) (fresh freshParent : FatDirLayout) (dir : Text)

/-- A deletion that frees nothing, or leaves the disk as it is. -/
def DeleteConfined : Prop :=
  ∀ f, find fill s.volume s.image fresh (deletePath s dir) = .ok (some f) →
    (s.volume.firstCluster f = 0 ∨ tableEntry s.volume (s.volume.firstCluster f) = 0) ∨
      LeavesImage fill s freshParent (getParentPath (deletePath s dir)) f 0xE5

/-- An undeletion that finds its end mark in the table, or leaves the disk as it is. -/
def UndeleteConfined : Prop :=
  ∀ f, find fill s.volume s.image fresh (undeletePath s dir) = .ok (some f) →
    tableEntry s.volume (s.volume.firstCluster f) = endMark s.volume ∨
      LeavesImage fill s freshParent (getParentPath (undeletePath s dir)) f (fixDeletedChar dir).2

variable {fill s fresh freshParent dir} {s' : Session} {f : FatDirLayout} {w : Volume}
variable {parent : Option FatDirLayout} {folder : Bytes} {size : ℕ} {b : UInt8} {pndir : Text}
variable {lines : List Line} {A : ℕ → Prop} {C : Prop}

theorem Effect.refl (A : ℕ → Prop) (C : Prop) (s : Session) : Effect A C s s :=
  ⟨.refl _, .refl _ _, fun _ => .inl rfl⟩

/-- The effect of the marking loop, behind a change of the tables that has left `w`. -/
theorem effect_of_markEntries (hE : Edits s.volume w) (hw : w.rootDir = s.volume.rootDir)
    (ho : openParent fill s freshParent pndir = .ok (parent, folder, size))
    (h : markEntries s w parent folder size f b = .ok s')
    (hC : C → w.fatTable = s.volume.fatTable ∨ LeavesImage fill s freshParent pndir f b) :
    Effect (ParentBytes fill s freshParent pndir) C s s' := by
  refine ⟨edits_of_markEntries hE hw ho h, changedIn_of_markEntries hE ho h, fun hc => ?_⟩
  rcases hC hc with ht | hl
  · obtain ⟨htable, ⟨-, himg⟩ | ⟨-, hvol⟩⟩ := sides_of_markEntries ho h
    · exact .inl himg
    · exact .inr ⟨htable.trans ht, hvol ▸ hw⟩
  · exact .inl (image_of_leavesImage hE hl ho h)

theorem rootDir_of_freeChain {fuel c : ℕ} {v : Volume} (h : freeChain fuel v c = .ok (w, lines)) :
    w.rootDir = v.rootDir := by
  obtain ⟨t, k, rfl, -⟩ := of_freeChain h
  rfl

theorem rootDir_of_changeCluster {c x : ℕ} {v : Volume} (h : v.changeCluster c x = .ok w) :
    w.rootDir = v.rootDir := by
  obtain ⟨t, k, rfl, -⟩ := of_changeCluster h
  rfl

theorem effect_of_delete (h : delete fill s fresh freshParent dir = .ok (s', lines)) :
    Effect (ParentBytes fill s freshParent (getParentPath (deletePath s dir)))
      (DeleteConfined fill s fresh freshParent dir) s s' := by
  rcases delete_cases h with ⟨-, rfl⟩ | ⟨f, hf, parent, folder, size, w, lines', ho, hw, hm⟩
  · exact .refl _ _ _
  · refine effect_of_markEntries (edits_of_freeChain hw) (rootDir_of_freeChain hw) ho hm
      fun hc => ?_
    exact (hc f hf).imp_left (fatTable_of_freeChain hw)

theorem effect_of_undelete (h : undelete fill s fresh freshParent dir = .ok (s', lines)) :
    Effect (ParentBytes fill s freshParent (getParentPath (undeletePath s dir)))
      (UndeleteConfined fill s fresh freshParent dir) s s' := by
  rcases undelete_cases h with ⟨-, rfl⟩ | ⟨f, hf, parent, folder, size, w, ho, hw, hm⟩
  · exact .refl _ _ _
  · refine effect_of_markEntries (edits_of_changeCluster hw (link_endMark _))
      (rootDir_of_changeCluster hw) ho hm fun hc => ?_
    exact (hc f hf).imp_left (fatTable_of_changeCluster hw)

end Commands

end TFAT.MarkingEffects
