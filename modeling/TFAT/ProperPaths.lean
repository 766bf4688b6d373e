import TFAT.DeleteFootprints
import TFAT.RemainingEntries

/-!
# Deletions by proper paths

A path without `.`, `..`, repeated slashes and the mark of deleted names leads through live
directories. On a well-kept volume a deletion by such a path from a directory of one cluster, or
from the root directory, spares all other entries: the entry found is a live entry of the cluster
that is opened for marking. So behind any run of such deletions the volume is well kept, its tree
is the tree of the mounted volume without the deleted entries, and the files that remain have
their bytes.
-/
namespace TFAT.ProperPaths
open LittleEndianWords LinkedChains DiskLayout ClusterTable DirectoryIO PathText PathResolution
open EntryNames UserCommands ShellCommands ShellRuns ChainOwners VolumeTree DirectoryTree
open ChainRelease EntryMarking MarkedTree DeleteSafety MarkedPlaces CutChains PrunedTrees Remounts
open Conversations FileDumps RemainingEntries

def Proper (name : Text) : Prop := name.head? ≠ some question ∧ name.head? ≠ some dot

/-- A path of proper names. -/
structure ProperPath (path : Text) : Prop where
  slashes : ¬ [slash, slash] <:+: path
  ne_nil : components path ≠ []
  proper : ∀ name ∈ components path, Proper name

/-- The directory that a deletion opens for marking is the root directory, or it has no more than
one cluster. -/
def ParentOneCluster (fill : ℕ → UInt8) (s : Session) (freshParent : FatDirLayout) (dir : Text) :
    Prop :=
  ∀ p, getParentPath (deletePath s dir) ≠ [slash] →
    find fill s.volume s.image freshParent (getParentPath (deletePath s dir)) = .ok (some p) →
    ∀ l, s.volume.Chain (s.volume.firstCluster p) l → l.length ≤ 1

section Sessions
variable {fill : ℕ → UInt8} {s s' : Session} {fresh freshParent d e f : FatDirLayout}
variable {dir path name : Text} {names : List Text} {parent : Option FatDirLayout}
variable {block : Bytes} {n i : ℕ} {l : List ℕ} {a : Place} {lines : List Line}

/-- What is found under a proper name is live and neither `.` nor `..`. -/
theorem owner_of_matchesTerm (h : matchesTerm e name) (hn : Proper name) : Owner e := by
  have hhead := nameHead_ne_zero_of_matchesTerm h
  have hdot : e.nameHead ≠ dot := fun hd =>
    hn.2 (head?_of_matchesTerm h (by rw [hd]; cases e.caseInformation &&& 0x08 != 0 <;> rfl)
      (by decide) (by decide))
  refine owner_of_nameHead_ne_dot ⟨hhead, not_deleted_of_matchesTerm h hn.1, ?_⟩ hdot
  simp only [matchesTerm, Bool.or_eq_true, Bool.and_eq_true] at h
  rcases h with ⟨⟨-, h⟩, -⟩ | ⟨h, -⟩
  · rw [h, Bool.or_true]
  · rw [h, Bool.true_or]

theorem liveAt_root (hi : i < s.volume.boot.rootEntryCount.toNat)
    (he : entryAt s.volume.rootDir i = .ok e) (ho : Owner e) : LiveAt s (.root i) e := by
  refine ⟨.top ⟨i, hi, rfl⟩ ?_, ho⟩
  change (entryAt s.volume.rootDir i).toOption = some e
  rw [he]
  rfl

theorem liveAt_placeIn (hk : WellKept s.volume s.image) {b : Place} (hd : LiveAt s b d)
    (ha : ArrayOf fill s.volume s.image block n l (some d)) (hi : i < n)
    (he : entryAt block i = .ok e) (ho : Owner e) : LiveAt s (placeIn s.volume l i) e := by
  obtain ⟨c, r, hplace, hc, hr, -, hbytes⟩ := entry_in_cluster hk.geometry ha hi he
  refine ⟨.within hd.1 hd.2 ha.clusters.1 ha.2.1 hc ⟨r, hr, hplace⟩ ?_, ho⟩
  have hin : entryAt (cluster s.volume s.image c) r = .ok e := by
    refine entryAt_eq_ok_iff.mpr ⟨?_, hbytes⟩
    rw [length_cluster (ha.2.2 c hc)]
    exact entry_le hk.geometry.entries hr
  rw [hplace]
  change (entryAt (cluster s.volume s.image c) r).toOption = some e
  rw [hin]
  rfl

theorem arrayOf_of_liveAt (hk : WellKept s.volume s.image) (hd : LiveAt s a d)
    (hp : parseDir fill s.volume s.image d = .ok (some (block, n))) :
    ∃ l, ArrayOf fill s.volume s.image block n l (some d) := by
  obtain ⟨l, hl, hs⟩ := hk.intact.chain hd.1 hd.2
  exact ⟨l, hp, hl, fun c hc => (hs c hc).2⟩

theorem liveAt_of_leadsTo (hk : WellKept s.volume s.image)
    (h : LeadsTo fill s.volume s.image names e) (hn : ∀ t ∈ names, Proper t) :
    ∃ a, LiveAt s a e := by
  induction h with
  | @found name e hs =>
      obtain ⟨j, hj, he, hm⟩ := of_search hs
      exact ⟨_, liveAt_root hj he (owner_of_matchesTerm hm (hn name (by simp)))⟩
  | @inside names name d e block n _ hp hs ih =>
      obtain ⟨b, hb⟩ := ih fun t ht => hn t (by simp [ht])
      obtain ⟨l, ha⟩ := arrayOf_of_liveAt hk hb hp
      obtain ⟨j, hj, he, hm⟩ := of_search hs
      exact ⟨_, liveAt_placeIn hk hb ha hj he (owner_of_matchesTerm hm (hn name (by simp)))⟩

theorem locates_of_find (hk : WellKept s.volume s.image) (hp : ProperPath path)
    (hf : find fill s.volume s.image fresh path = .ok (some f)) :
    ∃ parent block n l i, Locates fill s.volume s.image path parent block n l i f ∧
      LiveAt s (placeIn s.volume l i) f ∧ ∀ d, parent = some d → ∃ b, LiveAt s b d := by
  obtain ⟨names, name, hc⟩ := (List.eq_nil_or_concat' _).resolve_left hp.ne_nil
  have hproper := hp.proper
  rw [hc] at hproper
  have hlead := (find_eq_some_iff hp.ne_nil).mp hf
  rw [hc] at hlead
  have hname : Proper name := hproper name (by simp)
  rcases hlead.last with ⟨rfl, hs⟩ | ⟨d, block, n, hd, hparse, hs⟩
  · obtain ⟨i, hi⟩ := search_eq_ok_some_iff.mp hs
    refine ⟨none, _, _, [], i, ⟨hp.slashes, ⟨[], name, hc, rfl, hi⟩, rfl, rfl, rfl⟩, ?_, by simp⟩
    exact liveAt_root hi.1 hi.2.1 (owner_of_matchesTerm hi.2.2.1 hname)
  · obtain ⟨b, hb⟩ := liveAt_of_leadsTo hk hd fun t ht => hproper t (by simp [ht])
    obtain ⟨l, ha⟩ := arrayOf_of_liveAt hk hb hparse
    obtain ⟨i, hi⟩ := search_eq_ok_some_iff.mp hs
    exact ⟨some d, block, n, l, i, ⟨hp.slashes, ⟨names, name, hc, hd, hi⟩, ha⟩,
      liveAt_placeIn hk hb ha hi.1 hi.2.1 (owner_of_matchesTerm hi.2.2.1 hname),
      fun d' hd' => ⟨b, Option.some.inj hd' ▸ hb⟩⟩

/-- The path above a proper path leads to a live entry, or is `/`. -/
theorem liveAt_above (hk : WellKept s.volume s.image) (hp : ProperPath path)
    (hr : getParentPath path ≠ [slash])
    (hf : find fill s.volume s.image fresh (getParentPath path) = .ok (some d)) :
    ∃ a, LiveAt s a d := by
  obtain ⟨names, name, hc⟩ := (List.eq_nil_or_concat' _).resolve_left hp.ne_nil
  obtain ⟨hnames, hroot⟩ := components_getParentPath hp.slashes hc
  have hne : components (getParentPath path) ≠ [] := hnames ▸ fun h => hr (hroot.mpr h)
  refine liveAt_of_leadsTo hk ((find_eq_some_iff hne).mp hf) fun t ht => hp.proper t ?_
  rw [hc, ← hnames]
  exact List.mem_append_left _ ht

/-- The entry lies in the cluster that is opened, if that is all of the directory. -/
theorem opened_of_locates (hk : WellKept s.volume s.image)
    (h : Locates fill s.volume s.image path parent block n l i f)
    (hone : ∀ p, parent = some p → l.length ≤ 1) :
    Opened fill s freshParent (getParentPath path) (placeIn s.volume l i) := by
  obtain ⟨names, name, hc, hu, -⟩ := h.path
  obtain ⟨hnames, hroot⟩ := components_getParentPath h.slashes hc
  cases parent with
  | none =>
      obtain ⟨-, -, rfl⟩ := h.array
      exact hroot.mpr hu
  | some d =>
      obtain ⟨hdir, hc₀⟩ := opens_of_parseDir h.array.1
      have hne : components (getParentPath path) ≠ [] := hnames ▸ hu.ne_nil
      have hfirst := h.array.2.1
      obtain ⟨m, rfl⟩ := hfirst.exists_eq_cons fun hnil => hc₀ (hnil ▸ hfirst).eq_stop
      obtain rfl : m = [] := List.eq_nil_of_length_eq_zero (by simpa using hone d rfl)
      obtain ⟨c, r, hplace, hcl, -⟩ := entry_in_cluster hk.geometry h.array h.entry.1 h.entry.2.1
      obtain rfl := List.mem_singleton.mp hcl
      rw [hplace]
      exact ⟨fun hr => hne (by rw [hr]; rfl), d, (find_eq_some_iff hne).mpr (hnames ▸ hu), hdir,
        hc₀, rfl⟩

/-- A deletion by a proper path from a directory of one cluster spares the other entries. -/
theorem spares_of_proper (hk : WellKept s.volume s.image) (hp : ProperPath (deletePath s dir))
    (hone : ParentOneCluster fill s freshParent dir) :
    Spares fill s fresh freshParent dir := by
  intro f hf
  obtain ⟨parent, block, n, l, i, hloc, hlive, -⟩ := locates_of_find hk hp hf
  refine .inl ⟨_, hlive, opened_of_locates hk hloc fun p hparent => ?_⟩
  subst hparent
  rcases of_openParent (hloc.openParent_eq freshParent) with ⟨-, hn, -⟩ | ⟨hr, q, hq, hpq, -⟩
  · cases hn
  · rw [Option.some.injEq] at hpq
    exact hone q hr hq l (hpq ▸ hloc.array.2.1)

theorem parentOneWritten_of_parentOneCluster (h : ParentOneCluster fill s freshParent dir) :
    ParentOneWritten fill s fresh freshParent dir := fun _ p _ hr hp => .inl (h p hr hp)

end Sessions

/-- The deletions of a run have proper paths, and delete from directories of one cluster or from
the root directory. -/
def ByProperPaths (env : Env) (trace : List Done) : Prop :=
  ∀ d ∈ trace, ∀ dir, d.input.command = .delete dir →
    ProperPath (deletePath d.start.session dir) ∧
      ParentOneCluster env.fill d.start.session d.input.freshParent dir

section Runs
variable {env : Env} {s₀ s t : Shell} {i : Input} {fd : Fd} {trace : List Done}

theorem tended_of_proper (hk : WellKept s.volume s.image)
    (hp : ∀ dir, i.command = .delete dir → ProperPath (deletePath s.session dir) ∧
      ParentOneCluster env.fill s.session i.freshParent dir) :
    Tended env ⟨i, s, t⟩ ∧ ParentLive env ⟨i, s, t⟩ := by
  obtain ⟨c, fresh, freshParent⟩ := i
  cases c with
  | delete dir =>
      obtain ⟨hpath, hone⟩ := hp dir rfl
      refine ⟨⟨spares_of_proper (s := s.session) hk hpath hone,
        parentOneWritten_of_parentOneCluster hone⟩, fun p hroot hparent hdir => ?_⟩
      obtain ⟨a, ha⟩ := liveAt_above (s := s.session) hk hpath hroot hparent
      exact ⟨a, p, ha, hdir, fun _ hx => hx⟩
  | _ => exact ⟨trivial, trivial⟩

theorem tended_of_runs (h : Runs env s₀ trace s) (hfd : s₀.fd = some fd)
    (hs : WellKept s₀.volume s₀.image) (hu : NotUndeleted trace)
    (hd : NotDumped env fd.file trace) (hp : ByProperPaths env trace) :
    ∀ d ∈ trace, Tended env d ∧ ParentLive env d := by
  induction h with
  | start => simp
  | @step trace s t i hr hl ht ih =>
      have hu' : NotUndeleted trace := fun d h => hu d (by simp [h])
      have hd' : NotDumped env fd.file trace := fun d h => hd d (by simp [h])
      have hall := ih hu' hd' fun d h => hp d (by simp [h])
      obtain ⟨hk, -⟩ := thinned_of_runs hr hfd hs hu' hd' fun d h => (hall d h).1
      intro d hmem
      rcases List.mem_append.mp hmem with hmem | hmem
      · exact hall d hmem
      · rw [List.mem_singleton.mp hmem]
        exact tended_of_proper hk (hp ⟨i, s, t⟩ (by simp))

end Runs

/-- Behind any run that undeletes nothing, and whose deletions have proper paths and delete from
the root directory or from directories of one cluster, the volume is well kept, the live entries
are those of the mounted volume that remain without the deleted ones, and where no two live
clusters lie at one place the files that remain have their bytes. -/
theorem tree_of_proper_runs {env : Env} {s₀ s : Shell} {trace : List Done} {fd : Fd}
    (h : Runs env s₀ trace s) (hfd : s₀.fd = some fd) (hs : WellKept s₀.volume s₀.image)
    (hu : NotUndeleted trace) (hd : NotDumped env fd.file trace) (hp : ByProperPaths env trace) :
    WellKept s.volume s.image ∧
      (∀ a e, LiveAt s.session a e ↔ (shape s₀.volume).Listed
        (without (Removed env trace) (store s₀.volume s₀.image)) a e ∧ Owner e) ∧
      (Spread s₀.session → ∀ a e, LiveAt s.session a e → ¬ isDirectory e.attr →
        KeepsFile s₀.session s.session e) := by
  have hall := tended_of_runs h hfd hs hu hd hp
  have hT : ∀ d ∈ trace, Tended env d := fun d hd => (hall d hd).1
  obtain ⟨hk, hthin⟩ := thinned_of_runs h hfd hs hu hd hT
  exact ⟨hk, fun a e => hthin.liveAt_iff hs, fun hS a e he hfile =>
    keepsFile_of_runs h hfd hs hu hd hT hS (fun d hd => (hall d hd).2) he hfile⟩

section Example
open DirectoryIO LeavingVolumes UndeleteSafety VolumeTree

def pairSession : Session := ⟨pairVolume, pairImage, [slash], .initial⟩

theorem pairVolume_chains {c : ℕ} {l : List ℕ} (h : c = 2 ∧ l = [2] ∨ c = 5 ∧ l = [5] ∨
    c = 3 ∧ l = [3, 4]) : pairVolume.Chain c l := by
  rcases h with ⟨rfl, rfl⟩ | ⟨rfl, rfl⟩ | ⟨rfl, rfl⟩
  · exact .step (by decide) (show pairVolume.nextCluster 2 = .ok 0 by decide +kernel) .stop
  · exact .step (by decide) (show pairVolume.nextCluster 5 = .ok 0 by decide +kernel) .stop
  · exact pairVolume_chain

theorem pairSession_liveAt {a : Place} {e : FatDirLayout} (h : LiveAt pairSession a e) :
    a = .root 0 ∧ e = subDir 2 ∨ a = .root 1 ∧ e = fileT 0x48 0x47 5 ∨
      a = .cluster 2 0 ∧ e = fileT 0x46 0x47 3 := by
  have htop : ∀ i < 16, ∀ e ∈ ((store pairVolume pairImage).content (.root i)).toList,
      Owner e → i = 0 ∧ e = subDir 2 ∨ i = 1 ∧ e = fileT 0x48 0x47 5 := by decide +kernel
  have hsub : ∀ i < 16, ∀ e ∈ ((store pairVolume pairImage).content (.cluster 2 i)).toList,
      Owner e → i = 0 ∧ e = fileT 0x46 0x47 3 := by decide +kernel
  obtain ⟨hl, ho⟩ := h
  induction hl with
  | @top a e ha hc =>
      obtain ⟨i, hi, rfl⟩ := ha
      rcases htop i hi e (Option.mem_toList.mpr hc) ho with ⟨rfl, rfl⟩ | ⟨rfl, rfl⟩
      · exact .inl ⟨rfl, rfl⟩
      · exact .inr (.inl ⟨rfl, rfl⟩)
  | @within a b d e l c _ hod hopens hl hcl ha hc ih =>
      rcases ih hod with ⟨-, rfl⟩ | ⟨-, rfl⟩ | ⟨-, rfl⟩
      · obtain rfl := hl.unique (pairVolume_chains (.inl ⟨by decide, rfl⟩))
        obtain rfl := List.mem_singleton.mp hcl
        obtain ⟨i, hi, rfl⟩ := ha
        obtain ⟨rfl, rfl⟩ := hsub i hi e (Option.mem_toList.mpr hc) ho
        exact .inr (.inr ⟨rfl, rfl⟩)
      · exact absurd hopens (show ¬ isDirectory (fileT 0x48 0x47 5).attr by decide)
      · exact absurd hopens (show ¬ isDirectory (fileT 0x46 0x47 3).attr by decide)

theorem pairSession_chain {a : Place} {e : FatDirLayout} (h : LiveAt pairSession a e) :
    ∃ l, pairVolume.Chain (pairVolume.firstCluster e) l ∧
      (a = .root 0 ∧ l = [2] ∨ a = .root 1 ∧ l = [5] ∨ a = .cluster 2 0 ∧ l = [3, 4]) := by
  rcases pairSession_liveAt h with ⟨ha, rfl⟩ | ⟨ha, rfl⟩ | ⟨ha, rfl⟩
  · exact ⟨[2], pairVolume_chains (.inl ⟨by decide, rfl⟩), .inl ⟨ha, rfl⟩⟩
  · exact ⟨[5], pairVolume_chains (.inr (.inl ⟨by decide, rfl⟩)), .inr (.inl ⟨ha, rfl⟩)⟩
  · exact ⟨[3, 4], pairVolume_chains (.inr (.inr ⟨by decide, rfl⟩)), .inr (.inr ⟨ha, rfl⟩)⟩

theorem pairSession_place {a : Place} {e : FatDirLayout} {x : ℕ} (h : LiveAt pairSession a e)
    (hx : RefersTo pairSession e x) : x = 2 ∧ a = .root 0 ∨ x = 5 ∧ a = .root 1 ∨
      (x = 3 ∨ x = 4) ∧ a = .cluster 2 0 := by
  obtain ⟨l, hl, hcases⟩ := pairSession_chain h
  have hmem : x ∈ l := hl.reaches_iff.mp hx
  rcases hcases with ⟨ha, rfl⟩ | ⟨ha, rfl⟩ | ⟨ha, rfl⟩
  · exact .inl ⟨by simpa using hmem, ha⟩
  · exact .inr (.inl ⟨by simpa using hmem, ha⟩)
  · exact .inr (.inr ⟨by simpa using hmem, ha⟩)

theorem pairSession_wellKept : WellKept pairVolume pairImage := by
  refine ⟨⟨by decide, by decide, ?_⟩, ⟨fun hl ho => ?_, fun hl ho hl' ho' hx hy => ?_⟩⟩
  · have hsize : clusterBytes pairVolume.boot = 512 := by decide
    rw [hsize]
    norm_num
  · obtain ⟨l, hl, hcases⟩ := pairSession_chain ⟨hl, ho⟩
    refine ⟨l, hl, ?_⟩
    have hsound : ∀ c ∈ [2, 3, 4, 5], Sound pairVolume pairImage c := by
      simp only [Sound, Allocated, InImage]
      decide +kernel
    rcases hcases with ⟨-, rfl⟩ | ⟨-, rfl⟩ | ⟨-, rfl⟩ <;>
      exact fun c hc => hsound c (by simp at hc ⊢; omega)
  · have hplace := pairSession_place ⟨hl, ho⟩ hx
    have hplace' := pairSession_place ⟨hl', ho'⟩ hy
    rcases hplace with ⟨rfl, rfl⟩ | ⟨rfl, rfl⟩ | ⟨hx, rfl⟩ <;>
      rcases hplace' with ⟨hy, rfl⟩ | ⟨hy, rfl⟩ | ⟨hy, rfl⟩ <;> first | rfl | omega

theorem pairSession_spread : Spread pairSession := by
  intro a b e d x y he hx hd hy hxy
  have hinj : ∀ x ∈ [2, 3, 4, 5], ∀ y ∈ [2, 3, 4, 5],
      pairVolume.clusterToSector x = pairVolume.clusterToSector y → x = y := by decide
  have hmem {a : Place} {e : FatDirLayout} {x : ℕ} (he : LiveAt pairSession a e)
      (hx : RefersTo pairSession e x) : x ∈ [2, 3, 4, 5] := by
    have hplace := pairSession_place he hx
    simp only [List.mem_cons, List.not_mem_nil, or_false]
    omega
  exact hinj x (hmem he hx) y (hmem hd hy) hxy

theorem find_pairParent : find (fun _ => 0) pairVolume pairImage (fileT 0 0 0)
    (getParentPath (deletePath pairSession [0x53, 0x55, 0x42, slash, 0x46, 0x47, dot, 0x54])) =
      .ok (some (subDir 2)) := by decide +kernel

theorem deletePair_proper (t : Shell) :
    ByProperPaths subFileEnv [⟨deleteFile, pairShell, t⟩] := by
  intro d hd dir hc
  obtain rfl := List.mem_singleton.mp hd
  obtain rfl := Command.delete.inj hc
  rw [show pairShell.session = pairSession from pairShell_session]
  refine ⟨⟨by decide, by decide, ?_⟩, fun p _ hp l hl => ?_⟩
  · simp only [Proper]
    decide
  · obtain rfl := Option.some.inj (Except.ok.inj (find_pairParent.symm.trans hp))
    exact (hl.unique (pairVolume_chains (.inl ⟨by decide, rfl⟩))) ▸ le_rfl

/-- Behind the deletion the volume is well kept, the file that was deleted is gone, and the other
one is there with its bytes. -/
theorem tree_behind_deletePair : ∃ t, step subFileEnv pairShell deleteFile = .ok (.running t) ∧
    WellKept t.volume t.image ∧ ¬ LiveAt t.session (.cluster 2 0) (fileT 0x46 0x47 3) ∧
    LiveAt t.session (.root 1) (fileT 0x48 0x47 5) ∧
    KeepsFile pairShell.session t.session (fileT 0x48 0x47 5) := by
  obtain ⟨t, ht⟩ := deletePair_running
  have hsession : pairShell.session = pairSession := pairShell_session
  have himage : pairShell.image = pairImage := congrArg Session.image hsession
  have hu : NotUndeleted [⟨deleteFile, pairShell, t⟩] := by
    intro d hd dir hc
    rw [List.mem_singleton.mp hd] at hc
    cases hc
  have hd : NotDumped subFileEnv [0x56] [⟨deleteFile, pairShell, t⟩] := by
    intro d hd path hc
    rw [List.mem_singleton.mp hd] at hc
    cases hc
  have hfd : pairShell.fd = some ⟨[0x56], true⟩ := rfl
  obtain ⟨hk, hlive, hkeep⟩ := tree_of_proper_runs (.step .start id ht) hfd
    (himage ▸ pairSession_wellKept) hu hd (deletePair_proper t)
  have hother : LiveAt t.session (.root 1) (fileT 0x48 0x47 5) := by
    refine (hlive _ _).mpr ⟨.top ⟨1, by decide, rfl⟩ (content_without.mpr ⟨?_, ?_⟩), by decide⟩
    · rw [himage]
      change (store pairVolume pairImage).content (.root 1) = _
      decide +kernel
    · rintro ⟨d, hmem, hrem⟩
      obtain rfl := List.mem_singleton.mp hmem
      have hsame := find_pair.symm.trans hrem.1
      exact absurd (Option.some.inj (Except.ok.inj hsame)) (by decide)
  refine ⟨t, ht, hk, fun hgone => ?_, hother, ?_⟩
  · refine not_removed ((hlive _ _).mp hgone).1 ⟨⟨deleteFile, pairShell, t⟩, by simp, find_pair, ?_⟩
    rw [hsession]
    exact ⟨by decide, subDir 2, find_pairParent, by decide, by decide, by decide⟩
  · exact hkeep (hsession ▸ pairSession_spread) _ _ hother (by decide)

end Example

end TFAT.ProperPaths
