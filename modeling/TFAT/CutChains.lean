import TFAT.MirroredTables

/-!
# What a run does to the chains

`delete` clears links and `undelete` sets an end mark, so no command makes a link. A run cuts
the links of the entries that it stores, and a chain ends behind the first of them. Where
nothing is undeleted, the cleared entries are those that the walks from the deleted files come
to in the table as it was mounted, in whatever order the files are deleted.
-/
namespace TFAT.CutChains
open LittleEndianWords LinkedChains DiskLayout ClusterTable PathText PathResolution UserCommands
open ShellCommands ShellRuns ChainRelease DeleteSafety UndeleteSafety MirroredTables

/-- The links of the entries in `R` are cut, and the others are as they were. -/
structure Cut (R : ℕ → Prop) (v w : Volume) : Prop where
  fatn : w.fatn = v.fatn
  cut : ∀ c, R (v.fatn.index c) → w.nextCluster c = .ok 0
  kept : ∀ c, ¬ R (v.fatn.index c) → w.nextCluster c = v.nextCluster c

section Volumes
variable {R S T : ℕ → Prop} {u v w : Volume} {c : ℕ}

theorem cut_refl (h : ∀ i, ¬ R i) (v : Volume) : Cut R v v :=
  ⟨rfl, fun _ hc => absurd hc (h _), fun _ _ => rfl⟩

theorem Cut.trans (h : Cut R u v) (k : Cut S v w) (hT : ∀ i, T i ↔ R i ∨ S i) : Cut T u w := by
  have hcut := k.cut
  have hkept := k.kept
  rw [h.fatn] at hcut hkept
  refine ⟨k.fatn.trans h.fatn, fun c hc => ?_, fun c hc => ?_⟩
  · by_cases hS : S (u.fatn.index c)
    · exact hcut c hS
    · rw [hkept c hS]
      exact h.cut c (((hT _).mp hc).resolve_right hS)
  · rw [hT, not_or] at hc
    rw [hkept c hc.2, h.kept c hc.1]

theorem Cut.congr (h : Cut R v w) (hS : ∀ i, S i ↔ R i) : Cut S v w :=
  ⟨h.fatn, fun c hc => h.cut c ((hS _).mp hc), fun c hc => h.kept c (mt (hS _).mpr hc)⟩

theorem Cut.withRoot (h : Cut R v w) (root : Bytes) : Cut R v { w with rootDir := root } :=
  ⟨h.fatn, h.cut, h.kept⟩

theorem cut_of_restored {x : ℕ} {t b : Bytes}
    (h : Restored v (fun y => R (v.fatn.index y)) x t) (hx : v.fatn.link x = 0) :
    Cut R v (retable v t b) :=
  ⟨rfl, fun _ hc => by rw [h.nextCluster hc, hx], fun _ hc => h.nextCluster_of_not hc⟩

theorem cut_of_freeChain {fuel : ℕ} {lines : List Line} (h : freeChain fuel v c = .ok (w, lines)) :
    Cut (Visits v c) v w := by
  obtain ⟨t, b, rfl, ht⟩ := of_freeChain h
  exact cut_of_restored ht v.fatn.link_zero

theorem cut_of_endMark (h : v.changeCluster c 0x0FFFFFFF = .ok w) :
    Cut (· = v.fatn.index c) v w := by
  obtain ⟨t, b, rfl, ht⟩ := of_changeCluster h
  exact cut_of_restored ht (link_endMark v)

/-- The walks of the shortened chains come to what had not been cut. -/
theorem Cut.visits_or_iff (h : Cut R v w) (hR : ∀ y d, R (v.fatn.index y) →
    v.nextCluster y = .ok d → d ≠ 0 → R (v.fatn.index d)) (c i : ℕ) :
    R i ∨ Visits w c i ↔ R i ∨ Visits v c i := by
  refine or_congr_right' fun hi => ?_
  constructor
  · rintro ⟨x, hx, rfl⟩
    rw [h.fatn]
    exact ⟨x, hx.before_cut h.cut h.kept, rfl⟩
  · rintro ⟨x, hx, rfl⟩
    refine ⟨x, (hx.or_of_cut hR h.kept).resolve_left hi, ?_⟩
    rw [h.fatn]

theorem visits_next {y d : ℕ} (hy : Visits v c (v.fatn.index y)) (hd : v.nextCluster y = .ok d)
    (h₀ : d ≠ 0) : Visits v c (v.fatn.index d) := by
  obtain ⟨x, hx, hxy⟩ := hy
  have hxd : v.nextCluster x = .ok d := by
    rw [Volume.nextCluster_eq] at hd ⊢
    rw [hxy]
    exact hd
  exact ⟨d, hx.trans (.later hx.last_ne_stop hxd (.here h₀)), rfl⟩

end Volumes

section Runs
variable {env : Env} {s₀ s t : Shell} {i : Input} {trace : List Done}

section Sessions
variable {fill : ℕ → UInt8} {r r' : Session} {fresh freshParent : FatDirLayout} {dir : Text}
variable {lines : List Line}

theorem cut_of_delete (h : delete fill r fresh freshParent dir = .ok (r', lines)) :
    Cut (fun k => ∃ f, find fill r.volume r.image fresh (deletePath r dir) = .ok (some f) ∧
      Visits r.volume (r.volume.firstCluster f) k) r.volume r'.volume := by
  rcases delete_cases h with ⟨hn, rfl⟩ | ⟨f, hf, parent, folder, size, w, l, -, hw, hm⟩
  · exact cut_refl (fun _ => not_found hn) _
  · obtain ⟨root, hv⟩ := volume_of_markEntries hm
    rw [hv]
    exact ((cut_of_freeChain hw).withRoot root).congr fun k => found_iff hf

theorem cut_of_undelete (h : undelete fill r fresh freshParent dir = .ok (r', lines)) :
    Cut (fun k => ∃ f, find fill r.volume r.image fresh (undeletePath r dir) = .ok (some f) ∧
      k = r.volume.fatn.index (r.volume.firstCluster f)) r.volume r'.volume := by
  rcases undelete_cases h with ⟨hn, rfl⟩ | ⟨f, hf, parent, folder, size, w, -, hw, hm⟩
  · exact cut_refl (fun _ => not_found hn) _
  · obtain ⟨root, hv⟩ := volume_of_markEntries hm
    rw [hv]
    exact ((cut_of_endMark hw).withRoot root).congr fun k => found_iff hf

end Sessions

/-- A command cuts the links of the entries that it stores. -/
theorem cut_of_perform (hl : ¬ i.command.Leaves) (h : perform env s i = .ok t) :
    Cut (Stores env s i) s.volume t.volume := by
  by_cases hm : i.command.Marks
  · obtain ⟨c, fresh, freshParent⟩ := i
    cases c with
    | delete dir =>
        obtain ⟨r, hd, rfl⟩ := enter_eq_ok (testWFd_eq_ok h)
        exact cut_of_delete hd
    | undelete dir =>
        obtain ⟨r, hd, rfl⟩ := enter_eq_ok (testWFd_eq_ok h)
        exact cut_of_undelete hd
    | _ => exact hm.elim
  · rw [volume_of_perform hl hm h]
    exact cut_refl (fun _ => not_stores hm) _

/-- A run cuts the links of the entries that it stores. -/
theorem cut_of_runs (h : Runs env s₀ trace s) : Cut (StoredIn env trace) s₀.volume s.volume := by
  induction h with
  | start => exact cut_refl (fun _ => not_storedIn_nil) _
  | step _ hl ht ih => exact ih.trans (cut_of_perform hl (step_running ht)) fun _ => storedIn_snoc

def Deleted (env : Env) (d : Done) (f : FatDirLayout) : Prop :=
  match d.input.command with
  | .delete dir => find env.fill d.start.volume d.start.image d.input.fresh
      (deletePath d.start.session dir) = .ok (some f)
  | _ => False

/-- The entries that the walks from the deleted files come to in the table of `v`. -/
def FreedIn (env : Env) (v : Volume) (trace : List Done) (k : ℕ) : Prop :=
  ∃ d ∈ trace, ∃ f, Deleted env d f ∧ Visits v (v.firstCluster f) k

def NotUndeleted (trace : List Done) : Prop :=
  ∀ d ∈ trace, ∀ dir, d.input.command ≠ .undelete dir

theorem freedIn_snoc {v : Volume} {k : ℕ} : FreedIn env v (trace ++ [⟨i, s, t⟩]) k ↔
    FreedIn env v trace k ∨ ∃ f, Deleted env ⟨i, s, t⟩ f ∧ Visits v (v.firstCluster f) k := by
  simp only [FreedIn, List.mem_append, List.mem_singleton, or_and_right, exists_or,
    exists_eq_left]

/-- What a deletion stores are the entries that are walked. -/
theorem stores_iff_deleted (hu : ∀ dir, i.command ≠ .undelete dir) {k : ℕ} : Stores env s i k ↔
    ∃ f, Deleted env ⟨i, s, t⟩ f ∧ Visits s.volume (s.volume.firstCluster f) k := by
  obtain ⟨c, fresh, freshParent⟩ := i
  cases c with
  | delete dir => exact Iff.rfl
  | undelete dir => exact absurd rfl (hu dir)
  | _ => exact ⟨False.elim, fun ⟨_, hf, _⟩ => hf⟩

/-- Walks that have been shortened by deletions come to what they came to before, but for what
has been freed. -/
theorem storedIn_iff_freedIn (h : Runs env s₀ trace s) (hu : NotUndeleted trace) {k : ℕ} :
    StoredIn env trace k ↔ FreedIn env s₀.volume trace k := by
  induction h generalizing k with
  | start => exact iff_of_false not_storedIn_nil (by simp [FreedIn])
  | @step trace s t i hr hl ht ih =>
      have ih (k : ℕ) := @ih (fun d hd => hu d (by simp [hd])) k
      have hi : ∀ dir, i.command ≠ .undelete dir := hu ⟨i, s, t⟩ (by simp)
      have hcut := cut_of_runs hr
      have hfirst (f : FatDirLayout) : s.volume.firstCluster f = s₀.volume.firstCluster f := by
        rw [Volume.firstCluster, hcut.fatn, Volume.firstCluster]
      have hvisits := hcut.visits_or_iff fun y d hy hd h₀ => by
        rw [ih] at hy ⊢
        obtain ⟨e, he, f, hf, hy⟩ := hy
        exact ⟨e, he, f, hf, visits_next hy hd h₀⟩
      rw [storedIn_snoc, freedIn_snoc, stores_iff_deleted hi (t := t), ← ih]
      simp only [hfirst]
      constructor
      · rintro (hk | ⟨f, hf, hv⟩)
        · exact .inl hk
        · exact ((hvisits _ k).mp (.inr hv)).imp_right fun hv => ⟨f, hf, hv⟩
      · rintro (hk | ⟨f, hf, hv⟩)
        · exact .inl hk
        · exact ((hvisits _ k).mpr (.inr hv)).imp_right fun hv => ⟨f, hf, hv⟩

def BothCleared (R : ℕ → Prop) (v w : Volume) : Prop :=
  Cleared v.fatn.width R v.fatTable w.fatTable ∧ Cleared v.fatn.width R v.fatTableBak w.fatTableBak

theorem cleared_refl {w : ℕ} {R : ℕ → Prop} (h : ∀ i, ¬ R i) (t : Bytes) : Cleared w R t t :=
  ⟨rfl, fun i hi => absurd hi (h i), fun _ _ => rfl⟩

theorem cleared_congr {w : ℕ} {R S : ℕ → Prop} {t t' : Bytes} (h : Cleared w R t t')
    (hS : ∀ i, S i ↔ R i) : Cleared w S t t' := by
  rwa [show S = R from funext fun i => propext (hS i)]

/-- A command that does not undelete clears what it stores. -/
theorem bothCleared_of_perform (hl : ¬ i.command.Leaves) (hu : ∀ dir, i.command ≠ .undelete dir)
    (h : perform env s i = .ok t) : BothCleared (Stores env s i) s.volume t.volume := by
  by_cases hm : i.command.Marks
  · obtain ⟨c, fresh, freshParent⟩ := i
    cases c with
    | delete dir =>
        obtain ⟨⟨r, lines⟩, hd, rfl⟩ := enter_eq_ok (testWFd_eq_ok h)
        rcases delete_cases hd with ⟨hn, rfl⟩ | ⟨f, hf, parent, folder, size, w, l, -, hw, hm⟩
        · exact ⟨cleared_refl (fun _ => not_found hn) _, cleared_refl (fun _ => not_found hn) _⟩
        · obtain ⟨root, hv⟩ := volume_of_markEntries hm
          obtain ⟨table, bak, rfl, -, ht, hb⟩ := cleared_of_freeChain hw
          rw [Shell.resume, hv]
          exact ⟨cleared_congr ht fun _ => found_iff hf, cleared_congr hb fun _ => found_iff hf⟩
    | undelete dir => exact absurd rfl (hu dir)
    | _ => exact hm.elim
  · rw [volume_of_perform hl hm h]
    exact ⟨cleared_refl (fun _ => not_stores hm) _, cleared_refl (fun _ => not_stores hm) _⟩

theorem bothCleared_of_runs (h : Runs env s₀ trace s) (hu : NotUndeleted trace) :
    BothCleared (StoredIn env trace) s₀.volume s.volume := by
  induction h with
  | start =>
      exact ⟨cleared_refl (fun _ => not_storedIn_nil) _, cleared_refl (fun _ => not_storedIn_nil) _⟩
  | @step trace s t i hr hl ht ih =>
      have ih := ih fun d hd => hu d (by simp [hd])
      have hi : ∀ dir, i.command ≠ .undelete dir := hu ⟨i, s, t⟩ (by simp)
      have hstep := bothCleared_of_perform hl hi (step_running ht)
      rw [BothCleared, (mirrored_of_runs hr).fatn] at hstep
      exact ⟨ih.1.trans hstep.1 fun _ => storedIn_snoc, ih.2.trans hstep.2 fun _ => storedIn_snoc⟩

end Runs

/-- In any run no command makes a link: each chain of the mounted volume is there with its first
clusters, and it ends behind the first of them whose entry the run has stored. -/
theorem chain_of_runs {env : Env} {s₀ s : Shell} {trace : List Done} {c : ℕ} {l : List ℕ}
    (h : Runs env s₀ trace s) (hc : s₀.volume.Chain c l) :
    ∃ m rest, l = m ++ rest ∧ s.volume.Chain c m ∧
      (∀ x ∈ m.dropLast, ¬ StoredIn env trace (s₀.volume.fatn.index x)) ∧
      (rest ≠ [] → ∃ x, m.getLast? = some x ∧ StoredIn env trace (s₀.volume.fatn.index x)) :=
  hc.cut (C := fun x => StoredIn env trace (s₀.volume.fatn.index x)) (cut_of_runs h).cut
    (cut_of_runs h).kept

section Example
open DirectoryIO LeavingVolumes

/-- A FAT16 volume with the file `HG.T` in cluster 5 and the directory `SUB` in cluster 2, which
has the file `FG.T` in the clusters 3 and 4. -/
def pairVolume : Volume :=
  { subFileVolume with
    fatTable := [0xF8, 0xFF, 0xFF, 0xFF, 0xFF, 0xFF, 4, 0, 0xFF, 0xFF, 0xFF, 0xFF] ++
      List.replicate 500 0
    fatTableBak := [0xF8, 0xFF, 0xFF, 0xFF, 0xFF, 0xFF, 4, 0, 0xFF, 0xFF, 0xFF, 0xFF] ++
      List.replicate 500 0
    rootDir := (subDir 2).bytes ++ (fileT 0x48 0x47 5).bytes ++ List.replicate 448 0 }

def pairImage : Bytes :=
  pairVolume.boot.toBytes ++ List.replicate 476 0 ++ pairVolume.fatTable ++ pairVolume.fatTable ++
    pairVolume.rootDir ++ ((fileT 0x46 0x47 3).bytes ++ List.replicate 480 0) ++
    List.replicate 1536 0x31

def pairShell : Shell :=
  { subFileShell with
    files := fun path => if path = [0x56] then some pairImage else none
    volume := pairVolume }

theorem pairShell_session : pairShell.session = ⟨pairVolume, pairImage, [slash], .initial⟩ := by
  simp [Shell.session, Shell.image, pairShell, subFileShell]

theorem pairVolume_link : pairVolume.nextCluster 3 = .ok 4 := by decide +kernel

theorem pairVolume_chain : pairVolume.Chain 3 [3, 4] :=
  .step (by decide) pairVolume_link
    (.step (by decide) (show pairVolume.nextCluster 4 = .ok 0 by decide +kernel) .stop)

theorem find_pair : find subFileEnv.fill pairShell.volume pairShell.image deleteFile.fresh
    (deletePath pairShell.session [0x53, 0x55, 0x42, slash, 0x46, 0x47, dot, 0x54]) =
      .ok (some (fileT 0x46 0x47 3)) := by
  rw [show pairShell.image = pairImage from congrArg Session.image pairShell_session,
    pairShell_session]
  decide +kernel

theorem deletePair_running : ∃ t, step subFileEnv pairShell deleteFile = .ok (.running t) := by
  obtain ⟨r, hr⟩ := exists_of_isOk (show (UserCommands.delete (fun _ => 0)
    ⟨pairVolume, pairImage, [slash], .initial⟩ (fileT 0 0 0) (fileT 0 0 0)
    [0x53, 0x55, 0x42, slash, 0x46, 0x47, dot, 0x54]).isOk by decide +kernel)
  refine ⟨pairShell.resume r.1, ?_⟩
  have hp : perform subFileEnv pairShell deleteFile = .ok (pairShell.resume r.1) := by
    change enter pairShell (fun q => UserCommands.delete (fun _ => 0) q (fileT 0 0 0)
      (fileT 0 0 0) [0x53, 0x55, 0x42, slash, 0x46, 0x47, dot, 0x54]) = _
    rw [enter, pairShell_session, hr]
    rfl
  rw [step, hp]
  rfl

theorem pairVolume_visits {k : ℕ} (h : k = 3 ∨ k = 4) :
    Visits pairVolume (pairVolume.firstCluster (fileT 0x46 0x47 3)) k := by
  rw [show pairVolume.firstCluster (fileT 0x46 0x47 3) = 3 by decide]
  rcases h with rfl | rfl
  · exact ⟨3, .here (by decide), rfl⟩
  · exact ⟨4, .later (by decide) pairVolume_link (.here (by decide)), rfl⟩

/-- The chain of two clusters ends behind the first one when the file is deleted. -/
theorem chain_behind_deleteFile : ∃ t, step subFileEnv pairShell deleteFile = .ok (.running t) ∧
    StoredIn subFileEnv [⟨deleteFile, pairShell, t⟩] 3 ∧ t.volume.Chain 3 [3] := by
  obtain ⟨t, ht⟩ := deletePair_running
  have hstored : StoredIn subFileEnv [⟨deleteFile, pairShell, t⟩] 3 :=
    ⟨⟨deleteFile, pairShell, t⟩, by simp, _, find_pair, pairVolume_visits (.inl rfl)⟩
  obtain ⟨m, rest, hl, hm, hdrop, -⟩ := chain_of_runs (.step .start id ht) pairVolume_chain
  refine ⟨t, ht, hstored, ?_⟩
  rcases m with - | ⟨c, - | ⟨d, m⟩⟩
  · exact absurd hm.eq_stop (by decide)
  · obtain ⟨rfl, -⟩ := List.cons.inj hl
    exact hm
  · obtain ⟨rfl, -⟩ := List.cons.inj hl
    exact absurd hstored (hdrop 3 (by simp))

end Example

/-- In any run without undeletions the entries that the walks from the deleted files come to, in
the table as it was mounted, are zero in both tables, and all others are as they were: what has
been freed does not depend on the order of the deletions. -/
theorem freed_of_runs {env : Env} {s₀ s : Shell} {trace : List Done} (h : Runs env s₀ trace s)
    (hu : NotUndeleted trace) : BothCleared (FreedIn env s₀.volume trace) s₀.volume s.volume := by
  obtain ⟨ht, hb⟩ := bothCleared_of_runs h hu
  exact ⟨cleared_congr ht fun _ => (storedIn_iff_freedIn h hu).symm,
    cleared_congr hb fun _ => (storedIn_iff_freedIn h hu).symm⟩

section Example
open LeavingVolumes

/-- The deletion clears the entries of both clusters of the file. -/
theorem freed_behind_deleteFile : ∃ t, step subFileEnv pairShell deleteFile = .ok (.running t) ∧
    FreedIn subFileEnv pairShell.volume [⟨deleteFile, pairShell, t⟩] 3 ∧
    FreedIn subFileEnv pairShell.volume [⟨deleteFile, pairShell, t⟩] 4 ∧
    BothCleared (FreedIn subFileEnv pairShell.volume [⟨deleteFile, pairShell, t⟩])
      pairShell.volume t.volume := by
  obtain ⟨t, ht⟩ := deletePair_running
  have hfreed {k : ℕ} (h : k = 3 ∨ k = 4) :
      FreedIn subFileEnv pairShell.volume [⟨deleteFile, pairShell, t⟩] k :=
    ⟨⟨deleteFile, pairShell, t⟩, by simp, _, find_pair, pairVolume_visits h⟩
  refine ⟨t, ht, hfreed (.inl rfl), hfreed (.inr rfl), freed_of_runs (.step .start id ht)
    fun d hd dir hc => ?_⟩
  rw [List.mem_singleton.mp hd] at hc
  cases hc

end Example

end TFAT.CutChains
