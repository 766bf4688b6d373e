import TFAT.Conversations
import TFAT.CutChains
import TFAT.FileDumps
import TFAT.PrunedTrees

/-!
# What deletions leave of a volume

A deletion that spares the other entries takes the entry that it has found out of the tree of
the volume, with what hangs below it. So the tree behind a run of such deletions is the tree of
the mounted volume without the entries that have been found, and the files that remain keep
their chains and, where the directories that are opened for marking are live as well, their bytes.
-/
namespace TFAT.RemainingEntries
open ByteRegions LinkedChains DiskLayout ClusterTable ClusterPlacement DirectoryIO PathText
open PathResolution UserCommands ShellCommands ShellRuns ChainOwners VolumeTree ChainRelease
open EntryMarking MarkedTree DeleteSafety MirroredTables CutChains PrunedTrees
open MarkingEffects Remounts Conversations FileDumps

variable (env : Env)

/-- A deletion spares the other entries, and writes no more than one cluster of a directory. -/
def Tended (d : Done) : Prop :=
  match d.input.command with
  | .delete dir => Spares env.fill d.start.session d.input.fresh d.input.freshParent dir ∧
      ParentOneWritten env.fill d.start.session d.input.fresh d.input.freshParent dir
  | _ => True

/-- The command deletes the entry, and marks it in the given place. -/
def Removes (d : Done) (a : Place) (e : FatDirLayout) : Prop :=
  match d.input.command with
  | .delete dir => find env.fill d.start.volume d.start.image d.input.fresh
        (deletePath d.start.session dir) = .ok (some e) ∧
      Opened env.fill d.start.session d.input.freshParent
        (getParentPath (deletePath d.start.session dir)) a
  | _ => False

/-- A command of the run removes the entry from the given place. -/
def Removed (trace : List Done) (a : Place) (e : FatDirLayout) : Prop :=
  ∃ d ∈ trace, Removes env d a e

/-- The clusters of the directory that a deletion opens for marking are those of a live one. -/
def ParentLive (d : Done) : Prop :=
  match d.input.command with
  | .delete dir => ∀ p, getParentPath (deletePath d.start.session dir) ≠ [slash] →
      find env.fill d.start.volume d.start.image d.input.freshParent
        (getParentPath (deletePath d.start.session dir)) = .ok (some p) → isDirectory p.attr →
      ∃ a q, LiveAt d.start.session a q ∧ isDirectory q.attr ∧
        ∀ x, RefersTo d.start.session p x → RefersTo d.start.session q x
  | _ => True

/-- Clusters of live entries that lie at one place are one cluster. -/
def Spread (s : Session) : Prop :=
  ∀ a b e d x y, LiveAt s a e → RefersTo s e x → LiveAt s b d → RefersTo s d y →
    s.volume.clusterToSector x = s.volume.clusterToSector y → x = y

variable {env}

/-- The tree of `t` is the tree of `s` without the entries `D`. -/
structure Thinned (D : Place → FatDirLayout → Prop) (s t : Session) : Prop where
  edits : Edits s.volume t.volume
  inImage : ∀ c, InImage s.volume s.image c → InImage t.volume t.image c
  pruned : Pruned (shape s.volume) (InImage s.volume s.image) D
    (store s.volume s.image) (store t.volume t.image)

def KeepsFile (s t : Session) (e : FatDirLayout) : Prop :=
  ∃ l, s.volume.Chain (s.volume.firstCluster e) l ∧ t.volume.Chain (t.volume.firstCluster e) l ∧
    fileBytes t e l = fileBytes s e l

section Sessions
variable {D E : Place → FatDirLayout → Prop} {s t u : Session} {a : Place} {e : FatDirLayout}

theorem thinned_of_untouched (hD : ∀ a e, ¬ D a e) (hv : t.volume = s.volume)
    (hi : t.image = s.image) : Thinned D s t := by
  refine ⟨hv ▸ .refl _, fun c hc => by rwa [hv, hi], ?_⟩
  rw [hv, hi]
  exact pruned_refl hD

theorem Thinned.congr (h : Thinned D s t) (hDE : ∀ a e, D a e ↔ E a e) : Thinned E s t :=
  ⟨h.edits, h.inImage, h.pruned.congr hDE⟩

theorem Thinned.firstCluster_eq (h : Thinned D s t) :
    t.volume.firstCluster = s.volume.firstCluster := h.edits.firstCluster

theorem Thinned.shape_eq (h : Thinned D s t) : shape t.volume = shape s.volume := by
  rw [shape, h.edits.boot, h.firstCluster_eq, shape]

theorem Thinned.trans (h : Thinned D s t) (k : Thinned E t u) (hs : WellKept s.volume s.image) :
    Thinned (fun a e => D a e ∨ E a e) s u := by
  refine ⟨h.edits.trans k.edits, fun c hc => k.inImage c (h.inImage c hc), ?_⟩
  exact h.pruned.trans hs.intact (fun _ hc => hc.2) (h.shape_eq ▸ k.pruned) h.inImage

theorem Thinned.liveAt_iff (h : Thinned D s t) (hs : WellKept s.volume s.image) : LiveAt t a e ↔
    (shape s.volume).Listed (without D (store s.volume s.image)) a e ∧ Owner e := by
  rw [LiveAt, h.shape_eq]
  exact and_congr_left fun ho => h.pruned.listed_iff hs.intact (fun _ hc => hc.2) ho

theorem Thinned.liveAt (h : Thinned D s t) (hs : WellKept s.volume s.image) (hl : LiveAt t a e) :
    LiveAt s a e :=
  ⟨listed_of_without ((h.liveAt_iff hs).mp hl).1, hl.2⟩

/-- What remains keeps its chain. -/
theorem Thinned.chain_iff (h : Thinned D s t) (hs : WellKept s.volume s.image)
    (hl : LiveAt t a e) (l : List ℕ) :
    t.volume.Chain (t.volume.firstCluster e) l ↔ s.volume.Chain (s.volume.firstCluster e) l := by
  rw [h.firstCluster_eq]
  exact h.pruned.follows_iff hs.intact ((h.liveAt_iff hs).mp hl).1 hl.2

theorem Thinned.refersTo_iff (h : Thinned D s t) (hs : WellKept s.volume s.image)
    (hl : LiveAt t a e) (x : ℕ) : RefersTo t e x ↔ RefersTo s e x := by
  rw [RefersTo, h.firstCluster_eq]
  exact h.pruned.refers_iff hs.intact ((h.liveAt_iff hs).mp hl).1 hl.2

theorem Thinned.spread (h : Thinned D s t) (hs : WellKept s.volume s.image) (hS : Spread s) :
    Spread t := by
  intro a b e d x y he hx hd hy hxy
  have hspan := h.edits.clusterSpan
  refine hS a b e d x y (h.liveAt hs he) ((h.refersTo_iff hs he x).mp hx) (h.liveAt hs hd)
    ((h.refersTo_iff hs hd y).mp hy) ?_
  calc s.volume.clusterToSector x = t.volume.clusterToSector x :=
        congrArg Span.off (congrFun hspan x).symm
    _ = t.volume.clusterToSector y := hxy
    _ = s.volume.clusterToSector y := congrArg Span.off (congrFun hspan y)

section Deletion
variable {fill : ℕ → UInt8} {fresh freshParent : FatDirLayout} {dir : Text} {lines : List Line}
variable {c : ℕ}

/-- A deletion that spares the other entries removes the entry that it has found. -/
theorem thinned_of_delete (hs : WellKept s.volume s.image)
    (hS : Spares fill s fresh freshParent dir)
    (hcut : ParentOneWritten fill s fresh freshParent dir)
    (h : delete fill s fresh freshParent dir = .ok (t, lines)) :
    Thinned (fun a e => find fill s.volume s.image fresh (deletePath s dir) = .ok (some e) ∧
      Opened fill s freshParent (getParentPath (deletePath s dir)) a) s t := by
  rcases delete_cases h with ⟨hn, rfl⟩ | ⟨f, hf, -⟩
  · refine thinned_of_untouched (fun a e hD => ?_) rfl rfl
    cases hn.symm.trans hD.1
  · obtain ⟨table, bak, hT, hw⟩ := of_delete hs.geometry hf hcut h
    refine ⟨(effect_of_delete h).edits, fun c hc => ?_, ?_⟩
    · obtain ⟨root, hv⟩ := hw.volume
      rw [hv]
      exact hw.inImage c hc
    · refine (pruned_of_unlinked (hw.unlinked hT s.volume.fatn.link_zero)
        (spared_of_spares hs hf hS) (fun _ => mark_not_owner) fun _ _ => mark_of_not).congr
        fun a e => and_congr_left fun _ => ?_
      rw [hf, Except.ok.injEq, Option.some.injEq, eq_comm]

theorem eq_of_common_byte (hs : WellKept s.volume s.image) (hS : Spread s) {b : Place}
    {d : FatDirLayout} {y k : ℕ} (he : LiveAt s a e) (hc : RefersTo s e c) (hd : LiveAt s b d)
    (hy : RefersTo s d y) (hkc : k ∈ s.volume.clusterSpan c) (hky : k ∈ s.volume.clusterSpan y) :
    e = d := by
  have hplace : s.volume.clusterToSector c = s.volume.clusterToSector y := by
    by_contra hne
    have hapart := clusterSpan_apart hs.geometry hne
    rcases hapart with hle | hle
    · exact absurd hky.1 (not_le.mpr (hkc.2.trans_le hle))
    · exact absurd hkc.1 (not_le.mpr (hky.2.trans_le hle))
  obtain rfl := hS a b e d c y he hc hd hy hplace
  obtain rfl := hs.intact.disjoint he.1 he.2 hd.1 hd.2 hc hy
  exact Option.some.inj (he.1.content_eq.symm.trans hd.1.content_eq)

/-- Marking in a live directory does not write to the clusters of live files. -/
theorem cluster_of_delete (hs : WellKept s.volume s.image) (hS : Spread s)
    (hp : ∀ p, getParentPath (deletePath s dir) ≠ [slash] →
      find fill s.volume s.image freshParent (getParentPath (deletePath s dir)) = .ok (some p) →
      isDirectory p.attr → ∃ b q, LiveAt s b q ∧ isDirectory q.attr ∧
        ∀ x, RefersTo s p x → RefersTo s q x)
    (hl : LiveAt s a e) (hfile : ¬ isDirectory e.attr) (hc : RefersTo s e c)
    (h : delete fill s fresh freshParent dir = .ok (t, lines)) :
    cluster t.volume t.image c = cluster s.volume s.image c := by
  obtain ⟨hE, hI, -⟩ := effect_of_delete h
  have hin : InImage s.volume s.image c := (hs.intact.refers_sound hl.1 hl.2 hc).2
  rw [cluster, hE.clusterSpan, cluster]
  refine slice_congr fun k hk hk' => hI.kept k (hk'.trans_le hin) ?_
  rintro ⟨hr, p, hfind, hdir, y, hy, hky⟩
  obtain ⟨b, q, hq, hqdir, hsub⟩ := hp p hr hfind hdir
  obtain rfl := eq_of_common_byte hs hS hl hc hq (hsub y hy) ⟨hk, hk'⟩ hky
  exact hfile hqdir

end Deletion

end Sessions

section Runs
variable {s₀ s t : Shell} {i : Input} {fd : Fd} {trace : List Done}

theorem not_removed_nil {a : Place} {e : FatDirLayout} : ¬ Removed env [] a e := by
  simp [Removed]

theorem removed_snoc {a : Place} {e : FatDirLayout} : Removed env (trace ++ [⟨i, s, t⟩]) a e ↔
    Removed env trace a e ∨ Removes env ⟨i, s, t⟩ a e := by
  simp only [Removed, List.mem_append, List.mem_singleton, or_and_right, exists_or,
    exists_eq_left]

theorem wellKept_of_perform (hfd : s.fd = some fd) (hl : ¬ i.command.Leaves)
    (hu : ∀ dir, i.command ≠ .undelete dir)
    (hd : ∀ path, i.command = .dumpFat path → env.canonical path ≠ fd.file)
    (hT : Tended env ⟨i, s, t⟩) (hs : WellKept s.volume s.image)
    (h : perform env s i = .ok t) : WellKept t.volume t.image := by
  by_cases hm : i.command.Marks
  · obtain ⟨c, fresh, freshParent⟩ := i
    cases c with
    | delete dir =>
        obtain ⟨⟨r, lines⟩, hr, rfl⟩ := enter_eq_ok (testWFd_eq_ok h)
        rw [image_resume hfd]
        exact delete_wellKept (s := s.session) hs hT.2 hr hT.1
    | undelete dir => exact absurd rfl (hu dir)
    | _ => exact hm.elim
  · rw [volume_of_perform hl hm h, image_of_perform hfd hl hm hd h]
    exact hs

theorem thinned_of_perform (hfd : s.fd = some fd) (hl : ¬ i.command.Leaves)
    (hu : ∀ dir, i.command ≠ .undelete dir)
    (hd : ∀ path, i.command = .dumpFat path → env.canonical path ≠ fd.file)
    (hT : Tended env ⟨i, s, t⟩) (hs : WellKept s.volume s.image)
    (h : perform env s i = .ok t) : Thinned (Removes env ⟨i, s, t⟩) s.session t.session := by
  by_cases hm : i.command.Marks
  · obtain ⟨c, fresh, freshParent⟩ := i
    cases c with
    | delete dir =>
        obtain ⟨⟨r, lines⟩, hr, rfl⟩ := enter_eq_ok (testWFd_eq_ok h)
        rw [session_resume hfd]
        exact thinned_of_delete hs hT.1 hT.2 hr
    | undelete dir => exact absurd rfl (hu dir)
    | _ => exact hm.elim
  · refine thinned_of_untouched (fun a e hr => hm ?_) (volume_of_perform hl hm h)
      (image_of_perform hfd hl hm hd h)
    obtain ⟨c, fresh, freshParent⟩ := i
    cases c with
    | delete dir => trivial
    | _ => exact hr.elim

theorem cluster_of_perform (hfd : s.fd = some fd) (hl : ¬ i.command.Leaves)
    (hu : ∀ dir, i.command ≠ .undelete dir)
    (hd : ∀ path, i.command = .dumpFat path → env.canonical path ≠ fd.file)
    (hs : WellKept s.volume s.image) (hS : Spread s.session) (hp : ParentLive env ⟨i, s, t⟩)
    {a : Place} {e : FatDirLayout} {c : ℕ} (he : LiveAt s.session a e)
    (hfile : ¬ isDirectory e.attr) (hc : RefersTo s.session e c) (h : perform env s i = .ok t) :
    cluster t.volume t.image c = cluster s.volume s.image c := by
  by_cases hm : i.command.Marks
  · obtain ⟨cmd, fresh, freshParent⟩ := i
    cases cmd with
    | delete dir =>
        obtain ⟨⟨r, lines⟩, hr, rfl⟩ := enter_eq_ok (testWFd_eq_ok h)
        rw [image_resume hfd]
        exact cluster_of_delete (s := s.session) hs hS hp he hfile hc hr
    | undelete dir => exact absurd rfl (hu dir)
    | _ => exact hm.elim
  · rw [volume_of_perform hl hm h, image_of_perform hfd hl hm hd h]

theorem thinned_of_runs (h : Runs env s₀ trace s) (hfd : s₀.fd = some fd)
    (hs : WellKept s₀.volume s₀.image) (hu : NotUndeleted trace)
    (hd : NotDumped env fd.file trace) (hT : ∀ d ∈ trace, Tended env d) :
    WellKept s.volume s.image ∧ Thinned (Removed env trace) s₀.session s.session := by
  induction h with
  | start => exact ⟨hs, thinned_of_untouched (fun _ _ => not_removed_nil) rfl rfl⟩
  | @step trace s t i hr hl ht ih =>
      obtain ⟨hk, hthin⟩ := ih (fun d h => hu d (by simp [h])) (fun d h => hd d (by simp [h]))
        fun d h => hT d (by simp [h])
      have hfds : s.fd = some fd := (kept_of_runs hr).1.trans hfd
      have hui : ∀ dir, i.command ≠ .undelete dir := hu ⟨i, s, t⟩ (by simp)
      have hdi := hd ⟨i, s, t⟩ (by simp)
      have hTi := hT ⟨i, s, t⟩ (by simp)
      have hp := step_running ht
      refine ⟨wellKept_of_perform hfds hl hui hdi hTi hk hp, ?_⟩
      exact (hthin.trans (thinned_of_perform hfds hl hui hdi hTi hk hp) hs).congr
        fun a e => removed_snoc.symm

theorem cluster_of_runs (h : Runs env s₀ trace s) (hfd : s₀.fd = some fd)
    (hs : WellKept s₀.volume s₀.image) (hu : NotUndeleted trace)
    (hd : NotDumped env fd.file trace) (hT : ∀ d ∈ trace, Tended env d)
    (hS : Spread s₀.session) (hp : ∀ d ∈ trace, ParentLive env d) {a : Place} {e : FatDirLayout}
    {c : ℕ} (he : LiveAt s.session a e) (hfile : ¬ isDirectory e.attr)
    (hc : RefersTo s.session e c) : cluster s.volume s.image c = cluster s₀.volume s₀.image c := by
  induction h with
  | start => rfl
  | @step trace s t i hr hl ht ih =>
      have hu' : NotUndeleted trace := fun d h => hu d (by simp [h])
      have hd' : NotDumped env fd.file trace := fun d h => hd d (by simp [h])
      have hT' : ∀ d ∈ trace, Tended env d := fun d h => hT d (by simp [h])
      obtain ⟨hk, hthin⟩ := thinned_of_runs hr hfd hs hu' hd' hT'
      have hfds : s.fd = some fd := (kept_of_runs hr).1.trans hfd
      have hui : ∀ dir, i.command ≠ .undelete dir := hu ⟨i, s, t⟩ (by simp)
      have hdi := hd ⟨i, s, t⟩ (by simp)
      have hstep := step_running ht
      have hthin' := thinned_of_perform hfds hl hui hdi (hT ⟨i, s, t⟩ (by simp)) hk hstep
      have hes := hthin'.liveAt hk he
      have hcs := (hthin'.refersTo_iff hk he c).mp hc
      have hSs := hthin.spread hs hS
      rw [cluster_of_perform hfds hl hui hdi hk hSs (hp ⟨i, s, t⟩ (by simp)) hes hfile hcs hstep]
      exact ih hu' hd' hT' (fun d h => hp d (by simp [h])) hes hcs

theorem keepsFile_of_runs (h : Runs env s₀ trace s) (hfd : s₀.fd = some fd)
    (hs : WellKept s₀.volume s₀.image) (hu : NotUndeleted trace)
    (hd : NotDumped env fd.file trace) (hT : ∀ d ∈ trace, Tended env d)
    (hS : Spread s₀.session) (hp : ∀ d ∈ trace, ParentLive env d) {a : Place} {e : FatDirLayout}
    (he : LiveAt s.session a e) (hfile : ¬ isDirectory e.attr) :
    KeepsFile s₀.session s.session e := by
  obtain ⟨hk, hthin⟩ := thinned_of_runs h hfd hs hu hd hT
  obtain ⟨l, hl, -⟩ := hk.intact.chain he.1 he.2
  have hbytes : contents s.volume s.image l = contents s₀.volume s₀.image l :=
    List.flatMap_congr fun c hc =>
      cluster_of_runs h hfd hs hu hd hT hS hp he hfile (hl.reaches_iff.mpr hc)
  refine ⟨l, (hthin.chain_iff hs he l).mp hl, hl, ?_⟩
  rw [fileBytes, fileBytes, hthin.edits.boot]
  exact congrArg (List.take _) hbytes

end Runs

end TFAT.RemainingEntries
