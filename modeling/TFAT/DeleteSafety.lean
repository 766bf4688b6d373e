import TFAT.Fat16Flush
import TFAT.MarkedTree

/-!
# Which deletions leave live entries whole

`delete` frees the chain of the entry that its path leads to, and then looks for
entries to mark in a directory that it finds through another path. The two need
not fit together. No live entry is left with a freed cluster exactly when the
entry found is a live entry of the directory that is opened for marking, or has
a chain that no live entry shares. That is so where `write_dir` writes at most one
cluster of that directory; for a second one it leaves its array.
-/
namespace TFAT.DeleteSafety
open ByteRegions LittleEndianWords LinkedChains DiskLayout ClusterTable FileDescriptor
open DirectoryIO PathText PathResolution LongNames UserCommands ChainOwners VolumeTree
open ChainRelease EntryMarking MarkedTree Fat16Flush

/-- No live entry refers to a cluster whose table entry has become zero. -/
def NoneZeroed (s s' : Session) : Prop :=
  ∀ a e x, LiveAt s' a e → RefersTo s' e x → ¬ (Allocated s.volume x ∧ ¬ Allocated s'.volume x)

def deletePath (s : Session) (dir : Text) : Text := (addressConvertor s.currentPath (some dir)).text

variable (fill : ℕ → UInt8) (s : Session) (fresh freshParent : FatDirLayout) (dir : Text)

/-- The entry found is a live entry of the directory that is opened for marking, or
shares its chain with no live entry. -/
def Spares : Prop :=
  ∀ f, find fill s.volume s.image fresh (deletePath s dir) = .ok (some f) →
    (∃ a, LiveAt s a f ∧ Opened fill s freshParent (getParentPath (deletePath s dir)) a) ∨
      ∀ a e x, LiveAt s a e → RefersTo s e x → ¬ RefersTo s f x

/-- The directory that is opened for marking is the root directory or has one cluster at most, or
the chain of the entry found contains its first cluster, or it has no entry equal to that one. -/
def ParentOneWritten : Prop :=
  ∀ f p, find fill s.volume s.image fresh (deletePath s dir) = .ok (some f) →
    getParentPath (deletePath s dir) ≠ [slash] →
    find fill s.volume s.image freshParent (getParentPath (deletePath s dir)) = .ok (some p) →
    OneWritten fill s (RefersTo s f) f p

section Proof
variable {fill s fresh freshParent dir} {s' : Session} {f p : FatDirLayout} {lines : List Line}
variable {t k : Bytes} {x : ℕ}

theorem hit_iff_refersTo {y : ℕ} (hy : s.volume.fatn.index y = y) :
    Hit s.volume (s.volume.firstCluster f) y ↔ RefersTo s f y := by
  constructor
  · rintro ⟨x, hx, hxy⟩
    rw [index_of_reaches hx (firstCluster_index _ _), hy] at hxy
    exact hxy ▸ hx
  · intro h
    exact ⟨y, h, rfl⟩

theorem oneWritten_hit (h : OneWritten fill s (RefersTo s f) f p) :
    OneWritten fill s (Hit s.volume (s.volume.firstCluster f)) f p :=
  h.imp_right (Or.imp_left (hit_iff_refersTo (firstCluster_index _ _)).mpr)

/-- `delete` has found nothing and done nothing, or it has freed a chain and marked entries. -/
theorem delete_cases (h : delete fill s fresh freshParent dir = .ok (s', lines)) :
    find fill s.volume s.image fresh (deletePath s dir) = .ok none ∧ s' = s ∨
      ∃ f, find fill s.volume s.image fresh (deletePath s dir) = .ok (some f) ∧
        ∃ parent folder size w lines',
          openParent fill s freshParent (getParentPath (deletePath s dir)) =
            .ok (parent, folder, size) ∧
          freeChain s.volume.fuel s.volume (s.volume.firstCluster f) = .ok (w, lines') ∧
          markEntries s w parent folder size f 0xE5 = .ok s' := by
  obtain ⟨file, hf, h⟩ := bind_eq_ok.mp h
  obtain ⟨⟨parent, folder, size⟩, ho, h⟩ := bind_eq_ok.mp h
  cases file with
  | none =>
      rw [Except.ok.injEq, Prod.mk.injEq] at h
      exact .inl ⟨hf, h.1.symm⟩
  | some f =>
      obtain ⟨⟨w, lines'⟩, hw, h⟩ := bind_eq_ok.mp h
      obtain ⟨u, hu, h⟩ := bind_eq_ok.mp h
      rw [Except.ok.injEq, Prod.mk.injEq] at h
      exact .inr ⟨f, hf, parent, folder, size, w, lines', ho, hw, h.1 ▸ hu⟩

theorem of_delete (hg : Geometry s.volume.boot)
    (hf : find fill s.volume s.image fresh (deletePath s dir) = .ok (some f))
    (hcut : ParentOneWritten fill s fresh freshParent dir)
    (h : delete fill s fresh freshParent dir = .ok (s', lines)) :
    ∃ t k, Restored s.volume (Hit s.volume (s.volume.firstCluster f)) 0 t ∧
      Rewritten s s' t k f 0xE5
        (Opened fill s freshParent (getParentPath (deletePath s dir))) := by
  rcases delete_cases h with ⟨hn, -⟩ | ⟨f', hf', parent, folder, size, w, lines', ho, hw, hm⟩
  · simp [hf] at hn
  · obtain rfl : f = f' := by simpa [hf] using hf'
    obtain ⟨t, k, rfl, hZ⟩ := of_freeChain hw
    exact ⟨t, k, hZ, rewritten_of_markEntries hg ho hZ s.volume.fatn.link_zero
      (fun p hr hp => oneWritten_hit (hcut f p hf hr hp)) hm⟩

/-- The table entries that became zero are those of allocated clusters on the freed chain. -/
theorem zeroed_iff {Z : ℕ → Prop} {M : Place → Prop} {b : UInt8}
    (hZ : Restored s.volume Z 0 t) (hw : Rewritten s s' t k f b M) :
    Allocated s.volume x ∧ ¬ Allocated s'.volume x ↔ Z x ∧ Allocated s.volume x := by
  rw [hw.allocated_iff]
  by_cases hx : Z x
  · rw [(hZ.stored x hx).2, Nat.zero_mod]
    simp [hx]
  · rw [hZ.kept x hx]
    exact ⟨fun h => absurd h.1 h.2, fun h => absurd h.1 hx⟩

theorem mark_not_owner {M : Place → Prop} {a : Place} (h : M a) : ¬ Owner (mark f 0xE5 M a f) := by
  rw [mark_self h]
  exact setNameHead_not_owner f

/-- When `delete` has found an entry, no live entry is left with a freed cluster
exactly when the others are spared. -/
theorem noneZeroed_iff_spared (hk : WellKept s.volume s.image)
    (hf : find fill s.volume s.image fresh (deletePath s dir) = .ok (some f))
    (hcut : ParentOneWritten fill s fresh freshParent dir)
    (h : delete fill s fresh freshParent dir = .ok (s', lines)) :
    NoneZeroed s s' ↔ (shape s.volume).Spared (Hit s.volume (s.volume.firstCluster f)) f
      (Opened fill s freshParent (getParentPath (deletePath s dir)))
      (store s.volume s.image) := by
  obtain ⟨t, k, hT, hw⟩ := of_delete hk.geometry hf hcut h
  have hsh := hw.shape_eq
  have hU := hw.unlinked hT s.volume.fatn.link_zero
  have hI := hk.intact
  have hZ (a : Place) (e : FatDirLayout) (x : ℕ)
      (_ : (shape s.volume).Listed (store s.volume s.image) a e) (_ : (shape s.volume).owner e)
      (hx : (shape s.volume).Refers (store s.volume s.image) e x) :
      Hit s.volume (s.volume.firstCluster f) x ↔
        (shape s.volume).Refers (store s.volume s.image) f x :=
    hit_iff_refersTo (index_of_refers hx)
  constructor
  · intro hn
    by_contra hS
    obtain ⟨a, e, x, hl, ho, hx, hzx, hsound⟩ :=
      hU.dangling hI (fun _ h => h.2) hZ (fun _ _ => mark_of_not) hS
    rw [← hsh] at hl hx
    exact hn a e x ⟨hl, ho⟩ hx ((zeroed_iff hT hw).mpr ⟨hzx, hsound.1⟩)
  · rintro hS a e x ⟨hl, ho⟩ hx hzx
    rw [hsh] at hl
    change (shape s'.volume).Refers (store s'.volume s'.image) e x at hx
    rw [hsh] at hx
    exact hU.not_refers hI (fun _ h => h.2) hS (fun _ => mark_not_owner)
      (fun _ _ => mark_of_not) hl ho hx ((zeroed_iff hT hw).mp hzx).1

theorem spared_of_spares (hk : WellKept s.volume s.image)
    (hf : find fill s.volume s.image fresh (deletePath s dir) = .ok (some f))
    (hS : Spares fill s fresh freshParent dir) :
    (shape s.volume).Spared (Hit s.volume (s.volume.firstCluster f)) f
      (Opened fill s freshParent (getParentPath (deletePath s dir)))
      (store s.volume s.image) := by
  rw [hk.intact.spared_iff fun a e x _ _ hx => hit_iff_refersTo (index_of_refers hx)]
  exact (hS f hf).imp (Exists.imp fun _ h => ⟨h.1.1, h.1.2, h.2⟩)
    fun hn a e x hl ho hx => hn a e x ⟨hl, ho⟩ hx

theorem delete_wellKept (hk : WellKept s.volume s.image)
    (hcut : ParentOneWritten fill s fresh freshParent dir)
    (h : delete fill s fresh freshParent dir = .ok (s', lines))
    (hS : Spares fill s fresh freshParent dir) : WellKept s'.volume s'.image := by
  rcases delete_cases h with ⟨-, rfl⟩ | ⟨f, hfind, -⟩
  · exact hk
  · obtain ⟨t, k, hT, hw⟩ := of_delete hk.geometry hfind hcut h
    refine ⟨hw.geometry hk.geometry, hw.shape_eq ▸ ?_⟩
    exact (hw.unlinked hT s.volume.fatn.link_zero).intact_of_spared hk.intact
      (fun _ h => h.2) (spared_of_spares hk hfind hS) (fun _ => mark_not_owner)
      (fun _ _ => mark_of_not) fun y hy hz => hw.sound hT hy hz

end Proof

/-- A deletion that returns, with at most one cluster of the opened directory to write, leaves
every live entry without freed clusters exactly when the entry found is a live entry of that
directory, or shares its chain with no live entry. -/
theorem delete_noneZeroed_iff {fill : ℕ → UInt8} {s s' : Session}
    {fresh freshParent : FatDirLayout} {dir : Text} {lines : List Line}
    (hk : WellKept s.volume s.image) (hcut : ParentOneWritten fill s fresh freshParent dir)
    (h : delete fill s fresh freshParent dir = .ok (s', lines)) :
    NoneZeroed s s' ↔ Spares fill s fresh freshParent dir := by
  rcases delete_cases h with ⟨hfind, rfl⟩ | ⟨f, hfind, -⟩
  · refine iff_of_true (fun a e x _ _ hx => hx.2 hx.1) fun f hf => ?_
    simp [hfind] at hf
  · rw [noneZeroed_iff_spared hk hfind hcut h]
    refine ⟨fun hS f' hf' => ?_, spared_of_spares hk hfind⟩
    rw [hfind, Except.ok.injEq, Option.some.injEq] at hf'
    subst hf'
    rw [hk.intact.spared_iff fun a e x _ _ hx => hit_iff_refersTo (index_of_refers hx)] at hS
    exact hS.imp (Exists.imp fun _ h => ⟨⟨h.1, h.2.1⟩, h.2.2⟩)
      fun hn a e x hl hx => hn a e x hl.1 hl.2 hx

def dirA : FatDirLayout where
  bytes := 0x41 :: List.replicate 10 0x20 ++ [0x10] ++ List.replicate 14 0 ++ [2] ++
    List.replicate 5 0
  length_bytes := by simp [entrySize]

def dotOfA : FatDirLayout where
  bytes := 0x2E :: List.replicate 10 0x20 ++ [0x10] ++ List.replicate 14 0 ++ [2] ++
    List.replicate 5 0
  length_bytes := by simp [entrySize]

def dotVolume : Volume where
  fatn := .fat16
  boot := ⟨512, 1, 1, 2, 16, 40000, 0xF8, 1, 0⟩
  boot16 := ⟨List.replicate 11 0⟩
  boot32 := ⟨0, 0, 0, []⟩
  fatTable := [0xF8, 0xFF, 0xFF, 0xFF, 0xFF, 0xFF] ++ List.replicate 506 0
  fatTableBak := [0xF8, 0xFF, 0xFF, 0xFF, 0xFF, 0xFF] ++ List.replicate 506 0
  dataOffset := 2048
  rootDir := dirA.bytes ++ List.replicate 480 0

def dotImage : Bytes :=
  dotVolume.boot.toBytes ++ List.replicate 476 0 ++ dotVolume.fatTable ++ dotVolume.fatTable ++
    dotVolume.rootDir ++ (dotOfA.bytes ++ List.replicate 480 0)

def dotSession : Session := ⟨dotVolume, dotImage, [slash], .initial⟩

theorem dotVolume_plain : Plain16 dotVolume := by
  refine ⟨⟨rfl, rfl, length_filled rfl, length_filled rfl, length_filled ?_, rfl⟩, rfl, rfl, rfl,
    rfl, rfl, rfl, rfl, by decide⟩
  rw [dirA.length_bytes]
  rfl

theorem dotSession_mounted : mounted16 dotImage = dotVolume := dotVolume_plain.mounted _

theorem dotVolume_chain : dotVolume.Chain (dotVolume.firstCluster dirA) [2] := by
  have hfirst : dotVolume.firstCluster dirA = 2 := by decide
  have hnext : dotVolume.nextCluster 2 = .ok 0 :=
    dotVolume.nextCluster_ok_iff.mpr ⟨by decide +kernel, by decide⟩
  rw [hfirst]
  exact .step (by norm_num) hnext .stop

/-- The only live entry is `A`. -/
theorem dotSession_liveAt {a : Place} {e : FatDirLayout} (h : LiveAt dotSession a e) :
    a = .root 0 ∧ e = dirA := by
  have htop : ∀ i < 16, ∀ e ∈ ((store dotSession.volume dotSession.image).content (.root i)).toList,
      Owner e → i = 0 ∧ e = dirA := by decide +kernel
  have hdots : ∀ i < 16,
      ∀ e ∈ ((store dotSession.volume dotSession.image).content (.cluster 2 i)).toList,
      ¬ Owner e := by decide +kernel
  obtain ⟨hl, ho⟩ := h
  induction hl with
  | @top a e ha hc =>
      obtain ⟨i, hi, rfl⟩ := ha
      obtain ⟨rfl, rfl⟩ := htop i hi e (Option.mem_toList.mpr hc) ho
      exact ⟨rfl, rfl⟩
  | @within a b d e l c _ hod _ hl hcl ha hc ih =>
      obtain ⟨-, rfl⟩ := ih hod
      obtain rfl := hl.unique dotVolume_chain
      obtain rfl := List.mem_singleton.mp hcl
      obtain ⟨i, hi, rfl⟩ := ha
      exact absurd ho (hdots i hi e (Option.mem_toList.mpr hc))

theorem dotSession_dirA : LiveAt dotSession (.root 0) dirA := by
  have he : (store dotSession.volume dotSession.image).content (.root 0) = some dirA := by
    decide +kernel
  exact ⟨.top ⟨0, by decide, rfl⟩ he, by decide⟩

theorem dotSession_wellKept : WellKept dotSession.volume dotSession.image := by
  refine ⟨⟨by decide, by decide, ?_⟩, ⟨fun hl ho => ?_, fun hl ho hl' ho' _ _ => ?_⟩⟩
  · have hsize : clusterBytes dotSession.volume.boot = 512 := by decide
    rw [hsize]
    norm_num
  · obtain ⟨rfl, rfl⟩ := dotSession_liveAt ⟨hl, ho⟩
    refine ⟨[2], dotVolume_chain, fun c hc => ?_⟩
    rw [List.mem_singleton.mp hc, Sound, Allocated, InImage]
    decide +kernel
  · rw [(dotSession_liveAt ⟨hl, ho⟩).1, (dotSession_liveAt ⟨hl', ho'⟩).1]

theorem dirA_oneWritten (Z : ℕ → Prop) (f : FatDirLayout) :
    OneWritten (fun _ => 0) dotSession Z f dirA :=
  .inl fun _ hl => (hl.unique dotVolume_chain).symm ▸ le_rfl

/-- `delete A//` frees the cluster of the live directory `A` and looks for its entry in it. -/
theorem delete_slashes_not_noneZeroed : ∃ s' lines,
    mounted16 dotSession.image = dotSession.volume ∧
      WellKept dotSession.volume dotSession.image ∧
      delete (fun _ => 0) dotSession dirA dirA [0x41, slash, slash] = .ok (s', lines) ∧
      ¬ NoneZeroed dotSession s' := by
  obtain ⟨⟨s', lines⟩, h⟩ := exists_of_isOk (show (delete (fun _ => 0) dotSession dirA dirA
    [0x41, slash, slash]).isOk by decide +kernel)
  refine ⟨s', lines, dotSession_mounted, dotSession_wellKept, h, fun hn => ?_⟩
  have hfind : find (fun _ => 0) dotSession.volume dotSession.image dirA
      (deletePath dotSession [0x41, slash, slash]) = .ok (some dirA) := by decide +kernel
  have hparent : find (fun _ => 0) dotSession.volume dotSession.image dirA
      (getParentPath (deletePath dotSession [0x41, slash, slash])) = .ok (some dirA) := by
    decide +kernel
  have hcut : ParentOneWritten (fun _ => 0) dotSession dirA dirA [0x41, slash, slash] := by
    intro f p _ _ hp
    rw [hparent, Except.ok.injEq, Option.some.injEq] at hp
    exact hp ▸ dirA_oneWritten _ _
  have hreach : RefersTo dotSession dirA 2 := dotVolume_chain.reaches_iff.mpr (by simp)
  have hS := (noneZeroed_iff_spared dotSession_wellKept hfind hcut h).mp hn
  have hhit : Hit dotSession.volume (dotSession.volume.firstCluster dirA) 2 := ⟨2, hreach, rfl⟩
  have hroot : getParentPath (deletePath dotSession [0x41, slash, slash]) = [slash] :=
    (hS (.root 0) dirA 2 dotSession_dirA.1 dotSession_dirA.2 hreach hhit).2
  exact absurd hroot (by decide)

/-- `delete A` removes the directory `A` and leaves nothing behind. -/
theorem delete_dirA_noneZeroed : ∃ s' lines,
    delete (fun _ => 0) dotSession dirA dirA [0x41] = .ok (s', lines) ∧
      NoneZeroed dotSession s' := by
  obtain ⟨⟨s', lines⟩, h⟩ := exists_of_isOk (show (delete (fun _ => 0) dotSession dirA dirA
    [0x41]).isOk by decide +kernel)
  have hfind : find (fun _ => 0) dotSession.volume dotSession.image dirA
      (deletePath dotSession [0x41]) = .ok (some dirA) := by decide +kernel
  have hroot : getParentPath (deletePath dotSession [0x41]) = [slash] := by decide
  refine ⟨s', lines, h, (delete_noneZeroed_iff dotSession_wellKept
    (fun f p _ hne _ => absurd hroot hne) h).mpr fun f hf => .inl ⟨.root 0, ?_, hroot⟩⟩
  rw [hfind, Except.ok.injEq, Option.some.injEq] at hf
  exact hf ▸ dotSession_dirA

end TFAT.DeleteSafety
