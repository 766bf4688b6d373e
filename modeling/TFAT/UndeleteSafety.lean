import TFAT.DeleteSafety

/-!
# Which entries can be brought back

`undelete` makes the first cluster of the entry it has found the end of a chain
and gives the entry its first name byte back. Nothing in the program looks
whether that cluster has been given away since. Live chains keep their table
entries exactly when none of them comes to that cluster, and the volume stays
well kept when in addition nothing else claims what becomes live again.
-/
namespace TFAT.UndeleteSafety
open ByteRegions LittleEndianWords LinkedChains DiskLayout ClusterTable FileDescriptor
open DirectoryIO PathText PathResolution LongNames UserCommands ChainOwners VolumeTree
open ChainRelease EntryMarking MarkedTree Fat16Flush

def undeletePath (s : Session) (dir : Text) : Text :=
  (addressConvertor s.currentPath (some (fixDeletedChar dir).1)).text

/-- The value that `undelete` stores into the table. -/
def endMark (v : Volume) : ℕ := 0x0FFFFFFF % 256 ^ v.fatn.width

/-- The table entries of all clusters in live chains are as before. -/
def LinksKept (s s' : Session) : Prop :=
  ∀ a e x, LiveAt s a e → RefersTo s e x → tableEntry s'.volume x = tableEntry s.volume x

/-- An entry that has become live shares no cluster with another live entry. -/
def Apart (s s' : Session) : Prop :=
  ∀ a b e e' x, LiveAt s' a e → ¬ LiveAt s a e → LiveAt s' b e' → a ≠ b →
    RefersTo s' e x → ¬ RefersTo s' e' x

/-- The entry is part of the tree, or stored in or below the first cluster of `f`. -/
def ListedWith (s : Session) (f : FatDirLayout) (a : Place) (e : FatDirLayout) : Prop :=
  ((shape s.volume).withRoot f).Listed (store s.volume s.image) a e

variable (fill : ℕ → UInt8) (s : Session) (fresh freshParent : FatDirLayout) (dir : Text)

/-- A live chain that comes to the first cluster of the entry found has its end mark there. -/
def Unclaimed : Prop :=
  ∀ f, find fill s.volume s.image fresh (undeletePath s dir) = .ok (some f) →
    ∀ a e, LiveAt s a e → RefersTo s e (s.volume.firstCluster f) →
      tableEntry s.volume (s.volume.firstCluster f) = endMark s.volume

/-- What may become live together with the entry `f` found in an opened directory. -/
structure Restorable (f : FatDirLayout) : Prop where
  intact : ((shape s.volume).withRoot f).Intact (Sound s.volume s.image) (store s.volume s.image)
  unclaimed : ∀ a e, ListedWith s f a e → Owner e → ¬ RefersTo s e (s.volume.firstCluster f)
  inside : s.volume.firstCluster f ≠ 0 → InImage s.volume s.image (s.volume.firstCluster f)
  single : ∀ a b, ListedWith s f a f → ListedWith s f b f →
    Opened fill s freshParent (getParentPath (undeletePath s dir)) a →
    Opened fill s freshParent (getParentPath (undeletePath s dir)) b → a = b

/-- The directory that is opened for marking is the root directory or has one cluster at most, or
its first cluster is that of the entry found, or it has no entry equal to that one. -/
def RestoredOneWritten : Prop :=
  ∀ f p, find fill s.volume s.image fresh (undeletePath s dir) = .ok (some f) →
    getParentPath (undeletePath s dir) ≠ [slash] →
    find fill s.volume s.image freshParent (getParentPath (undeletePath s dir)) = .ok (some p) →
    OneWritten fill s (fun y => y = s.volume.firstCluster f) f p

section Proof
variable {fill s fresh freshParent dir} {s' : Session} {f p : FatDirLayout} {lines : List Line}
variable {t k : Bytes} {x : ℕ}

theorem link_endMark (v : Volume) : v.fatn.link (endMark v) = 0 := by
  unfold endMark
  cases v.fatn <;> decide

/-- The class of numbers that share the table entry of a first cluster. -/
def Shared (v : Volume) (f : FatDirLayout) (y : ℕ) : Prop :=
  v.fatn.index y = v.fatn.index (v.firstCluster f)

theorem shared_iff {y : ℕ} (hy : s.volume.fatn.index y = y) :
    Shared s.volume f y ↔ y = s.volume.firstCluster f := by
  rw [Shared, hy, firstCluster_index]

/-- `undelete` has found nothing and done nothing, or it has set an end mark and marked
entries. -/
theorem undelete_cases (h : undelete fill s fresh freshParent dir = .ok (s', lines)) :
    find fill s.volume s.image fresh (undeletePath s dir) = .ok none ∧ s' = s ∨
      ∃ f, find fill s.volume s.image fresh (undeletePath s dir) = .ok (some f) ∧
        ∃ parent folder size w,
          openParent fill s freshParent (getParentPath (undeletePath s dir)) =
            .ok (parent, folder, size) ∧
          s.volume.changeCluster (s.volume.firstCluster f) 0x0FFFFFFF = .ok w ∧
          markEntries s w parent folder size f (fixDeletedChar dir).2 = .ok s' := by
  obtain ⟨file, hf, h⟩ := bind_eq_ok.mp h
  cases file with
  | none =>
      rw [Except.ok.injEq, Prod.mk.injEq] at h
      exact .inl ⟨hf, h.1.symm⟩
  | some f =>
      obtain ⟨⟨parent, folder, size⟩, ho, h⟩ := bind_eq_ok.mp h
      obtain ⟨w, hw, h⟩ := bind_eq_ok.mp h
      obtain ⟨u, hu, h⟩ := bind_eq_ok.mp h
      rw [Except.ok.injEq, Prod.mk.injEq] at h
      exact .inr ⟨f, hf, parent, folder, size, w, ho, hw, h.1 ▸ hu⟩

theorem of_undelete
    (hf : find fill s.volume s.image fresh (undeletePath s dir) = .ok (some f))
    (h : undelete fill s fresh freshParent dir = .ok (s', lines)) :
    ∃ t k parent folder size, Restored s.volume (Shared s.volume f) (endMark s.volume) t ∧
      openParent fill s freshParent (getParentPath (undeletePath s dir)) =
        .ok (parent, folder, size) ∧
      markEntries s (retable s.volume t k) parent folder size f (fixDeletedChar dir).2 =
        .ok s' := by
  rcases undelete_cases h with ⟨hn, -⟩ | ⟨f', hf', parent, folder, size, w, ho, hw, hm⟩
  · simp [hf] at hn
  · obtain rfl : f = f' := by simpa [hf] using hf'
    obtain ⟨t, k, rfl, hZ⟩ := of_changeCluster hw
    exact ⟨t, k, parent, folder, size, hZ, ho, hm⟩

/-- Marking changes nothing of the volume but the root directory. -/
theorem volume_of_markEntries {w : Volume} {parent : Option FatDirLayout} {folder : Bytes}
    {size : ℕ} {b : UInt8} (h : markEntries s w parent folder size f b = .ok s') :
    ∃ r, s'.volume = { w with rootDir := r } := by
  obtain ⟨m, -, h⟩ := bind_eq_ok.mp h
  cases parent with
  | none =>
      rw [← Except.ok.inj h]
      exact ⟨m.folder, rfl⟩
  | some p =>
      rw [← Except.ok.inj h]
      exact ⟨w.rootDir, rfl⟩

theorem linksKept_iff_unclaimed
    (hf : find fill s.volume s.image fresh (undeletePath s dir) = .ok (some f))
    (h : undelete fill s fresh freshParent dir = .ok (s', lines)) :
    LinksKept s s' ↔ ∀ a e, LiveAt s a e → RefersTo s e (s.volume.firstCluster f) →
      tableEntry s.volume (s.volume.firstCluster f) = endMark s.volume := by
  obtain ⟨t, k, parent, folder, size, hZ, -, hm⟩ := of_undelete hf h
  obtain ⟨r, hr⟩ := volume_of_markEntries hm
  have hnew (y : ℕ) : tableEntry s'.volume y =
      cell s.volume.fatn.width t (s.volume.fatn.index y) := by
    rw [hr]
    rfl
  constructor
  · intro hl a e hlive href
    rw [← hl a e _ hlive href, hnew]
    exact (hZ.stored _ rfl).2
  · intro hu a e x hlive href
    have hx := index_of_reaches href (firstCluster_index s.volume e)
    by_cases hxf : x = s.volume.firstCluster f
    · subst hxf
      rw [hu a e hlive href, hnew]
      exact (hZ.stored _ rfl).2
    · exact (hnew x).trans (hZ.kept x fun hs => hxf ((shared_iff hx).mp hs))

/-- The conditions on the tree, as the general theory of owners states them. -/
theorem Restorable.revivable (hR : Restorable fill s freshParent dir f) (b : UInt8) :
    (shape s.volume).Revivable (InImage s.volume s.image) (Sound s.volume s.image)
      (Shared s.volume f) f (f.setNameHead b)
      (Opened fill s freshParent (getParentPath (undeletePath s dir)))
      (store s.volume s.image) := by
  have hroot : (shape s.volume).withRoot (f.setNameHead b) = (shape s.volume).withRoot f := by
    simp [Shape.withRoot, shape]
  have hfirst : (shape s.volume).first (f.setNameHead b) = s.volume.firstCluster f :=
    firstCluster_setNameHead _ _ _
  constructor
  · rw [hroot]
    exact hR.intact
  · intro a e x hl ho hx hs
    rw [hroot] at hl
    have hxi := index_of_refers hx
    exact hR.unclaimed a e hl ho ((shared_iff hxi).mp hs ▸ hx)
  · rw [hfirst]
    exact fun hne => ⟨rfl, hR.inside hne⟩
  · rw [hroot]
    exact fun ha hM hb hM' => hR.single _ _ ha hb hM hM'

theorem oneWritten_shared (h : OneWritten fill s (fun y => y = s.volume.firstCluster f) f p) :
    OneWritten fill s (Shared s.volume f) f p :=
  h.imp_right (Or.imp_left fun he => congrArg s.volume.fatn.index he)

theorem undelete_wellKept (hg : Geometry s.volume.boot)
    (hf : find fill s.volume s.image fresh (undeletePath s dir) = .ok (some f))
    (hcut : RestoredOneWritten fill s fresh freshParent dir)
    (h : undelete fill s fresh freshParent dir = .ok (s', lines))
    (hR : Restorable fill s freshParent dir f) : WellKept s'.volume s'.image := by
  obtain ⟨t, k, parent, folder, size, hZ, ho, hm⟩ := of_undelete hf h
  have hw := rewritten_of_markEntries hg ho hZ (link_endMark _)
    (fun p hr hp => oneWritten_shared (hcut f p hf hr hp)) hm
  refine ⟨hw.geometry hg, hw.shape_eq ▸ ?_⟩
  refine (hw.unlinked hZ (link_endMark _)).intact_revived (fun _ h => h.2) (hR.revivable _)
    (fun _ => mark_self) (fun _ _ => mark_of_not) (fun y hy hz => hw.sound hZ hy hz)
    fun y hy hz => ⟨?_, ?_⟩
  · rw [hw.allocated_iff, (hZ.stored y hz).2, endMark]
    cases s.volume.fatn <;> decide
  · obtain ⟨r, hv⟩ := hw.volume
    rw [hv]
    exact hw.inImage y hy

theorem apart_of_wellKept (h : WellKept s'.volume s'.image) : Apart s s' :=
  fun _ _ _ _ _ hl _ hl' hab hx hx' => hab (h.intact.disjoint hl.1 hl.2 hl'.1 hl'.2 hx hx')

end Proof

/-- An undeletion that returns, with at most one cluster of the opened directory to write, keeps
the table entries of live chains exactly when the first cluster of the entry found is unclaimed,
and it leaves a well kept volume when that entry is restorable. -/
theorem undelete_keeps {fill : ℕ → UInt8} {s s' : Session} {fresh freshParent : FatDirLayout}
    {dir : Text} {lines : List Line} (hk : WellKept s.volume s.image)
    (hcut : RestoredOneWritten fill s fresh freshParent dir)
    (h : undelete fill s fresh freshParent dir = .ok (s', lines)) :
    (LinksKept s s' ↔ Unclaimed fill s fresh dir) ∧
      ((∀ f, find fill s.volume s.image fresh (undeletePath s dir) = .ok (some f) →
        Restorable fill s freshParent dir f) →
        WellKept s'.volume s'.image ∧ Apart s s') := by
  rcases undelete_cases h with ⟨hfind, rfl⟩ | ⟨f, hfind, -⟩
  · refine ⟨iff_of_true (fun _ _ _ _ _ => rfl) fun f hf => ?_, fun _ =>
      ⟨hk, apart_of_wellKept hk⟩⟩
    simp [hfind] at hf
  · refine ⟨(linksKept_iff_unclaimed hfind h).trans ?_, fun hR => ?_⟩
    · constructor
      · intro hu f' hf'
        rw [hfind, Except.ok.injEq, Option.some.injEq] at hf'
        exact hf' ▸ hu
      · intro hu
        exact hu f hfind
    · have hk' := undelete_wellKept hk.geometry hfind hcut h (hR f hfind)
      exact ⟨hk', apart_of_wellKept hk'⟩

def fileT (b₀ b₁ c : UInt8) : FatDirLayout where
  bytes := [b₀, b₁] ++ List.replicate 6 0x20 ++ [0x54, 0x20, 0x20, 0x20] ++ List.replicate 14 0 ++
    [c, 0, 5, 0, 0, 0]
  length_bytes := by simp [entrySize]

/-- A FAT16 volume with the live file `LB.T` in the clusters 2 and 3 and two deleted
entries: one of a file whose cluster 2 has been given to `LB.T`, and one whose cluster 4
is free. -/
def lostVolume : Volume where
  fatn := .fat16
  boot := ⟨512, 1, 1, 2, 16, 40000, 0xF8, 1, 0⟩
  boot16 := ⟨List.replicate 11 0⟩
  boot32 := ⟨0, 0, 0, []⟩
  fatTable := [0xF8, 0xFF, 0xFF, 0xFF, 3, 0, 0xFF, 0xFF] ++ List.replicate 504 0
  fatTableBak := [0xF8, 0xFF, 0xFF, 0xFF, 3, 0, 0xFF, 0xFF] ++ List.replicate 504 0
  dataOffset := 2048
  rootDir := (fileT 0x4C 0x42 2).bytes ++ (fileT 0xE5 0x41 2).bytes ++ (fileT 0xE5 0x43 4).bytes ++
    List.replicate 416 0

def lostImage : Bytes :=
  lostVolume.boot.toBytes ++ List.replicate 476 0 ++ lostVolume.fatTable ++ lostVolume.fatTable ++
    lostVolume.rootDir ++ List.replicate 1536 0

def lostSession : Session := ⟨lostVolume, lostImage, [slash], .initial⟩

theorem lostVolume_plain : Plain16 lostVolume := by
  refine ⟨⟨rfl, rfl, length_filled rfl, length_filled rfl, length_filled ?_, rfl⟩, rfl, rfl, rfl,
    rfl, rfl, rfl, rfl, by decide⟩
  rw [List.length_append, List.length_append, FatDirLayout.length_bytes,
    FatDirLayout.length_bytes, FatDirLayout.length_bytes]
  rfl

theorem lostSession_mounted : mounted16 lostSession.image = lostSession.volume :=
  lostVolume_plain.mounted _

theorem lostVolume_chain :
    lostVolume.Chain (lostVolume.firstCluster (fileT 0x4C 0x42 2)) [2, 3] := by
  have hfirst : lostVolume.firstCluster (fileT 0x4C 0x42 2) = 2 := by decide
  have h₂ : lostVolume.nextCluster 2 = .ok 3 :=
    lostVolume.nextCluster_ok_iff.mpr ⟨by decide +kernel, by decide⟩
  have h₃ : lostVolume.nextCluster 3 = .ok 0 :=
    lostVolume.nextCluster_ok_iff.mpr ⟨by decide +kernel, by decide⟩
  rw [hfirst]
  exact .step (by norm_num) h₂ (.step (by norm_num) h₃ .stop)

theorem lostSession_listed {a : Place} {e : FatDirLayout}
    (h : ListedWith lostSession (fileT 0xE5 0x43 4) a e) :
    ∃ i < 16, a = .root i ∧
      e ∈ ((store lostSession.volume lostSession.image).content (.root i)).toList ∧
      (Owner e → i = 0 ∧ e = fileT 0x4C 0x42 2) := by
  have htop : ∀ i < 16, ∀ e ∈ ((store lostSession.volume lostSession.image).content
      (.root i)).toList, Owner e → i = 0 ∧ e = fileT 0x4C 0x42 2 := by decide +kernel
  induction h with
  | @top a e ha hc =>
      rcases ha with ⟨i, hi, rfl⟩ | ⟨hdir, -⟩
      · exact ⟨i, hi, rfl, Option.mem_toList.mpr hc, htop i hi e (Option.mem_toList.mpr hc)⟩
      · exact absurd (show isDirectory (fileT 0xE5 0x43 4).attr from hdir) (by decide)
  | @within a b d e l c _ hod hopen _ _ _ _ ih =>
      obtain ⟨i, hi, -, -, hd⟩ := ih
      obtain ⟨-, rfl⟩ := hd hod
      exact absurd (show isDirectory (fileT 0x4C 0x42 2).attr from hopen) (by decide)

theorem lostSession_intact : ((shape lostSession.volume).withRoot (fileT 0xE5 0x43 4)).Intact
    (Sound lostSession.volume lostSession.image)
    (store lostSession.volume lostSession.image) := by
  constructor
  · intro a e hl ho
    obtain ⟨i, -, -, -, he⟩ := lostSession_listed hl
    obtain ⟨-, rfl⟩ := he ho
    refine ⟨[2, 3], lostVolume_chain, fun c hc => ?_⟩
    simp only [List.mem_cons, List.not_mem_nil, or_false] at hc
    rw [Sound, Allocated, InImage]
    rcases hc with rfl | rfl <;> decide +kernel
  · intro a b e e' x hl ho hl' ho' _ _
    obtain ⟨i, -, rfl, -, he⟩ := lostSession_listed hl
    obtain ⟨j, -, rfl, -, he'⟩ := lostSession_listed hl'
    rw [(he ho).1, (he' ho').1]

theorem lostSession_wellKept : WellKept lostSession.volume lostSession.image := by
  refine ⟨⟨by decide, by decide, ?_⟩, ⟨fun hl ho => ?_, fun hl ho hl' ho' hx hx' => ?_⟩⟩
  · have hsize : clusterBytes lostSession.volume.boot = 512 := by decide
    rw [hsize]
    norm_num
  · exact lostSession_intact.chain hl.withRoot ho
  · exact lostSession_intact.disjoint hl.withRoot ho hl'.withRoot ho' hx hx'

/-- `undelete XA.T` changes the table entry of the first cluster of the live file `LB.T`. -/
theorem undelete_reused_not_linksKept : ∃ s' lines,
    mounted16 lostSession.image = lostSession.volume ∧
      WellKept lostSession.volume lostSession.image ∧
      undelete (fun _ => 0) lostSession (fileT 0 0 0) (fileT 0 0 0)
        [0x58, 0x41, dot, 0x54] = .ok (s', lines) ∧
      ¬ LinksKept lostSession s' := by
  obtain ⟨⟨s', lines⟩, h⟩ := exists_of_isOk (show (undelete (fun _ => 0) lostSession
    (fileT 0 0 0) (fileT 0 0 0) [0x58, 0x41, dot, 0x54]).isOk by decide +kernel)
  refine ⟨s', lines, lostSession_mounted, lostSession_wellKept, h, fun hl => ?_⟩
  have hfind : find (fun _ => 0) lostSession.volume lostSession.image (fileT 0 0 0)
      (undeletePath lostSession [0x58, 0x41, dot, 0x54]) = .ok (some (fileT 0xE5 0x41 2)) := by
    decide +kernel
  have he : (store lostSession.volume lostSession.image).content (.root 0) =
      some (fileT 0x4C 0x42 2) := by decide +kernel
  have hlive : LiveAt lostSession (.root 0) (fileT 0x4C 0x42 2) :=
    ⟨.top ⟨0, by decide, rfl⟩ he, by decide⟩
  have href : RefersTo lostSession (fileT 0x4C 0x42 2) 2 :=
    lostVolume_chain.reaches_iff.mpr (by simp)
  have hmark := (linksKept_iff_unclaimed hfind h).mp hl _ _ hlive href
  exact absurd hmark (by decide)

/-- `undelete XC.T` brings a file back. -/
theorem undelete_free_keeps : ∃ s' lines,
    undelete (fun _ => 0) lostSession (fileT 0 0 0) (fileT 0 0 0)
      [0x58, 0x43, dot, 0x54] = .ok (s', lines) ∧
      LinksKept lostSession s' ∧ WellKept s'.volume s'.image ∧ Apart lostSession s' := by
  obtain ⟨⟨s', lines⟩, h⟩ := exists_of_isOk (show (undelete (fun _ => 0) lostSession
    (fileT 0 0 0) (fileT 0 0 0) [0x58, 0x43, dot, 0x54]).isOk by decide +kernel)
  have hfind : find (fun _ => 0) lostSession.volume lostSession.image (fileT 0 0 0)
      (undeletePath lostSession [0x58, 0x43, dot, 0x54]) = .ok (some (fileT 0xE5 0x43 4)) := by
    decide +kernel
  have hparent : getParentPath (undeletePath lostSession [0x58, 0x43, dot, 0x54]) = [slash] := by
    decide
  have hfree (a : Place) (e : FatDirLayout)
      (hl : ListedWith lostSession (fileT 0xE5 0x43 4) a e) (ho : Owner e) :
      ¬ RefersTo lostSession e (lostSession.volume.firstCluster (fileT 0xE5 0x43 4)) := by
    obtain ⟨i, -, -, -, he⟩ := lostSession_listed hl
    obtain ⟨-, rfl⟩ := he ho
    intro href
    exact absurd (lostVolume_chain.reaches_iff.mp href) (by decide)
  have hR : Restorable (fun _ => 0) lostSession (fileT 0 0 0) [0x58, 0x43, dot, 0x54]
      (fileT 0xE5 0x43 4) := by
    have honce : ∀ i < 16, ∀ e ∈ ((store lostSession.volume lostSession.image).content
        (.root i)).toList, e = fileT 0xE5 0x43 4 → i = 2 := by decide +kernel
    refine ⟨lostSession_intact, hfree, fun _ => by rw [InImage]; decide +kernel,
      fun a b ha hb _ _ => ?_⟩
    obtain ⟨i, hi, rfl, hmi, -⟩ := lostSession_listed ha
    obtain ⟨j, hj, rfl, hmj, -⟩ := lostSession_listed hb
    rw [honce i hi _ hmi rfl, honce j hj _ hmj rfl]
  obtain ⟨hlinks, hkept⟩ := undelete_keeps lostSession_wellKept
    (fun _ _ _ hr => absurd hparent hr) h
  refine ⟨s', lines, h, hlinks.mpr fun f hf a e hlive href => ?_, hkept fun f hf => ?_⟩
  · rw [hfind, Except.ok.injEq, Option.some.injEq] at hf
    subst hf
    exact absurd href (hfree a e hlive.1.withRoot hlive.2)
  · rw [hfind, Except.ok.injEq, Option.some.injEq] at hf
    exact hf ▸ hR

end TFAT.UndeleteSafety
