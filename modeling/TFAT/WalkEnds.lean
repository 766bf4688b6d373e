import TFAT.TableAccesses

/-!
# When the chain walks end

Seven loops follow links until they read zero, without a step counter and
without a record of where they have been. On a table whose entries stay in
range each of them ends after at most `table_size()` rounds when its walk comes
to no cluster twice, and does not get out of the loop when it does.
-/
namespace TFAT.WalkEnds
open ByteRegions LittleEndianWords LinkedChains DiskLayout ClusterTable FileDescriptor VolumeMount
open DirectoryIO PathText PathResolution UserCommands ShellCommands TableAccesses

/-- Every entry of the table names zero or an index of the table. -/
def StaysInTable (v : Volume) : Prop :=
  ∀ c < v.tableSize, ∃ d, v.nextCluster c = .ok d ∧ d < v.tableSize

/-- The loops that walk a chain and leave the table as it is, each with the values that
its variables have when it starts. -/
inductive Loop where
  | chain
  | dump (img : Bytes) (size : ℕ)
  | hdump (img : Bytes) (size : ℕ)
  | parseDir (img : Bytes)
  | writeDir (img entries : Bytes) (dirSize : ℤ)
  | initFat32 (rootDir : Bytes) (rootEntryCount : UInt16) (file : Descriptor)
  | writeFat32 (rootDir : Bytes) (rootEntryCount : UInt16) (file : Descriptor)

variable (fill : ℕ → UInt8) (v : Volume)

/-- Run a loop from a cluster for as many rounds as the budget allows, less one. -/
def Loop.run (fuel c : ℕ) : Loop → Except Fault Unit
  | .chain => (trail v.nextCluster 0 .endless fuel c).map fun _ => ()
  | .dump img size | .hdump img size =>
      (along v.nextCluster 0 .endless (dumpCluster fill v img) fuel c (size, [])).map fun _ => ()
  | .parseDir img =>
      (along v.nextCluster 0 .endless (readCluster fill v img) fuel c ⟨none, 0, 1⟩).map fun _ => ()
  | .writeDir img entries dirSize =>
      (along v.nextCluster 0 .endless (storeCluster v entries) fuel c
        ⟨img, dirSize, 0⟩).map fun _ => ()
  | .initFat32 rootDir rootEntryCount file =>
      (along v.nextCluster 0 .endless (loadRootCluster v.boot) fuel c
        ⟨0, rootDir, rootEntryCount, file⟩).map fun _ => ()
  | .writeFat32 rootDir rootEntryCount file =>
      (along v.nextCluster 0 .endless (storeRootCluster v.boot rootDir) fuel c
        ⟨0, rootEntryCount, file⟩).map fun _ => ()

section Program

theorem map_bind {α β : Type} (x : Except Fault α) (f : α → Except Fault β)
    (hf : ∀ a, ∃ b, f a = .ok b) : (x >>= f).map (fun _ => ()) = x.map fun _ => () := by
  cases x with
  | error e => rfl
  | ok a =>
      obtain ⟨b, hb⟩ := hf a
      rw [ok_bind, hb]
      rfl

theorem chain_eq_run (c : ℕ) :
    (chain v c).map (fun _ => ()) = Loop.chain.run fill v v.fuel c :=
  map_bind _ _ fun _ => ⟨_, rfl⟩

theorem parseDir_eq_run {dir : FatDirLayout} (img : Bytes) (hd : isDirectory dir.attr) :
    (parseDir fill v img dir).map (fun _ => ()) =
      (Loop.parseDir img).run fill v v.fuel (v.firstCluster dir) := by
  rw [parseDir_def, if_pos hd, map_bind _ _ fun _ => ⟨_, rfl⟩]
  rfl

theorem writeDir_eq_run {dir : FatDirLayout} (img entries : Bytes) (n : ℤ)
    (hd : isDirectory dir.attr) :
    (writeDir v img dir entries n).map (fun _ => ()) =
      (Loop.writeDir img entries n).run fill v v.fuel (v.firstCluster dir) := by
  rw [writeDir, if_pos hd, map_bind _ _ fun _ => ⟨_, rfl⟩]
  rfl

theorem dumpWith_eq_run {s : Session} {fresh file : FatDirLayout} {dir : Text}
    (format : Bytes → Line) (hf : find fill s.volume s.image fresh
      (addressConvertor s.currentPath (some dir)).text = .ok (some file)) :
    (dumpWith fill s fresh format dir).map (fun _ => ()) =
      (Loop.dump s.image file.fileSize).run fill s.volume s.volume.fuel
        (s.volume.firstCluster file) := by
  rw [dumpWith, hf, ok_bind, map_bind _ _ fun _ => ⟨_, rfl⟩]
  rfl

theorem initFat32_eq_run (b : FatBS) (d d₃ : Descriptor)
    (h : d₃ = skipTables b (loaded fill b d).boot32.tableSize32.toNat
      ((((((d.advance FatExtBS32.size).seekSet
        ((loaded fill b d).boot32.fatInfo.toNat * sector b)).advance fatInfoSize).seekSet
          (reservedBytes b)).advance (tableBytes32 b (loaded fill b d).boot32)).advance
            (tableBytes32 b (loaded fill b d).boot32))) :
    (initFat32 fill b d).map (fun _ => ()) =
      (Loop.initFat32 (loaded fill b d).rootDir b.rootEntryCount d₃).run fill (loaded fill b d)
        (loaded fill b d).fuel (loaded fill b d).boot32.rootCluster.toNat := by
  subst h
  exact map_bind _ _ fun _ => ⟨_, rfl⟩

theorem writeFat32_eq_run {d d' : Descriptor} {bak : Bytes}
    (hk : memcpy v.fatTableBak v.fatTable (tableBytes32 v.boot v.boot32) = .ok bak)
    (ht : writeTables v.fatTable (tableBytes32 v.boot v.boot32) v.boot.tableCount.toNat
      (d.seekSet (reservedBytes v.boot)) = .ok d') :
    (writeFat32 v d).map (fun _ => ()) =
      (Loop.writeFat32 v.rootDir v.boot.rootEntryCount d').run fill v v.fuel
        v.boot32.rootCluster.toNat := by
  rw [writeFat32, hk, ok_bind, ht, ok_bind, map_bind _ _ fun _ => ⟨_, rfl⟩]
  rfl

end Program

section Ends
variable {fill v} {c : ℕ}

/-- In range, a walk that comes to no cluster twice visits fewer clusters than the table
has entries. -/
theorem StaysInTable.exists_chain (h : StaysInTable v) (hc : c < v.tableSize)
    (hn : ¬ ComesBack v.nextCluster 0 c) : ∃ l, v.Chain c l ∧ l.length ≤ v.tableSize := by
  have hlt {x : ℕ} (hx : Reaches v.nextCluster 0 c x) : x < v.tableSize := by
    refine hx.closed (S := (· < v.tableSize)) hc fun y d hy hd _ => ?_
    obtain ⟨d', hd', hlt⟩ := h y hy
    rw [hd, Except.ok.injEq] at hd'
    exact hd' ▸ hlt
  obtain ⟨l, hl⟩ := exists_follows (fun x hx => ⟨hlt hx, (h x (hlt hx)).imp fun _ => And.left⟩) hn
  exact ⟨l, hl, hl.length_le fun x hx => hlt (hl.reaches_iff.mpr hx)⟩

/-- The budget is the only way in which a loop can be endless. -/
theorem Loop.run_ne_endless {l : List ℕ} {fuel : ℕ} (k : Loop) (hl : v.Chain c l)
    (hf : l.length < fuel) : k.run fill v fuel c ≠ .error .endless := by
  cases k with
  | chain => exact map_ne_error _ (along_ne_endless hl hf fun _ _ => ok_ne_error _ _)
  | dump img size | hdump img size =>
      refine map_ne_error _ (along_ne_endless hl hf fun s c => ?_)
      unfold dumpCluster
      split_ifs <;> exact ok_ne_error _ _
  | parseDir img =>
      exact map_ne_error _ (along_ne_endless hl hf (readCluster_ne_error (by decide) _ _ _))
  | writeDir img entries dirSize =>
      exact map_ne_error _ (along_ne_endless hl hf (storeCluster_ne_error (by decide) _ _))
  | initFat32 rootDir n file =>
      exact map_ne_error _ (along_ne_endless hl hf (loadRootCluster_ne_error (by decide) _))
  | writeFat32 rootDir n file =>
      exact map_ne_error _ (along_ne_endless hl hf (storeRootCluster_ne_error (by decide) _ _))

theorem map_ne_ok {α : Type} {x : Except Fault α} (h : ∀ a, x ≠ .ok a) :
    x.map (fun _ => ()) ≠ .ok () := by
  cases x with
  | ok a => exact absurd rfl (h a)
  | error e => exact fun hc => by cases hc

theorem Loop.run_ne_ok (k : Loop) (hc : ComesBack v.nextCluster 0 c) (fuel : ℕ) :
    k.run fill v fuel c ≠ .ok () := by
  cases k <;> exact map_ne_ok fun _ => along_ne_ok hc

/-- On a table whose entries stay in range a loop has ended after at most `table_size()`
rounds when its walk comes to no cluster twice, and it gets out of no number of rounds
when its walk comes back to a cluster. -/
theorem ends_unless_comesBack (fill : ℕ → UInt8) (h : StaysInTable v) (hc : c < v.tableSize)
    (k : Loop) :
    (¬ ComesBack v.nextCluster 0 c → k.run fill v (v.tableSize + 1) c ≠ .error .endless) ∧
      (ComesBack v.nextCluster 0 c → ∀ fuel, k.run fill v fuel c ≠ .ok ()) := by
  refine ⟨fun hn => ?_, k.run_ne_ok⟩
  obtain ⟨l, hl, hlen⟩ := h.exists_chain hc hn
  exact k.run_ne_endless hl (Nat.lt_succ_of_le hlen)

end Ends

section Example

/-- A FAT16 volume whose cluster 2 is followed by itself, and whose clusters 3 and 4 form
a chain. -/
def ringVolume : Volume where
  fatn := .fat16
  boot := ⟨512, 1, 1, 2, 16, 258, 0xF8, 1, 0⟩
  boot16 := ⟨[]⟩
  boot32 := ⟨0, 0, 0, []⟩
  fatTable := encode 2 0xFFF8 ++ encode 2 0xFFFF ++ encode 2 2 ++ encode 2 4 ++
    encode 2 0xFFFF ++ List.replicate 502 0
  fatTableBak := List.replicate 512 0
  dataOffset := 2048
  rootDir := List.replicate 512 0

theorem ringVolume_tableSize : ringVolume.tableSize = 256 := by decide

theorem ringVolume_nextCluster_zero {c : ℕ} (hc : 5 ≤ c) (h : c < 256) :
    ringVolume.nextCluster c = .ok 0 := by
  have hindex : c % 2 ^ 16 = c := Nat.mod_eq_of_lt (by omega)
  have hlen : ringVolume.fatTable.length = 512 := by
    simp only [ringVolume, List.length_append, length_encode, List.length_replicate]
  have hzeros : slice (List.replicate 502 (0 : UInt8)) (2 * c - 10) 2 = List.replicate 2 0 := by
    rw [slice, List.drop_replicate, List.take_replicate, Nat.min_eq_left (by omega)]
  have hcell : slice ringVolume.fatTable (2 * c) 2 = List.replicate 2 0 := by
    have hoff : 2 * c = (encode 2 0xFFF8 ++ encode 2 0xFFFF ++ encode 2 2 ++ encode 2 4 ++
        encode 2 0xFFFF).length + (2 * c - 10) := by
      simp only [List.length_append, length_encode]
      omega
    rw [hoff, ringVolume, slice_append_right, hzeros]
  refine ringVolume.nextCluster_ok_iff.mpr ⟨?_, ?_⟩
  · change HasCell 2 ringVolume.fatTable (c % 2 ^ 16)
    rw [hindex, HasCell, hlen]
    omega
  · change 0 = Fatn.fat16.link (cell 2 ringVolume.fatTable (c % 2 ^ 16))
    rw [hindex, cell, hcell]
    decide

theorem ringVolume_staysInTable : StaysInTable ringVolume := by
  have hfirst : ∀ c < 5, ∃ e < 6, ringVolume.nextCluster c = .ok e := by decide +kernel
  rw [StaysInTable, ringVolume_tableSize]
  intro c hc
  by_cases h : c < 5
  · obtain ⟨e, he, hnext⟩ := hfirst c h
    exact ⟨e, hnext, by omega⟩
  · exact ⟨0, ringVolume_nextCluster_zero (by omega) hc, by omega⟩

theorem trail_of_self {next : ℕ → Except Fault ℕ} {c : ℕ} (hc : c ≠ 0) (h : next c = .ok c)
    (fuel : ℕ) : trail next 0 .endless fuel c = .error .endless := by
  suffices hs : ∀ s, along next 0 Fault.endless (fun s c => .ok (s ++ [c])) fuel c s =
      .error .endless from hs []
  induction fuel with
  | zero => exact fun _ => rfl
  | succ fuel ih =>
      intro s
      rw [along, if_neg hc, ok_bind, h, ok_bind, ih]

/-- `chain 2` goes on for ever. -/
theorem ringVolume_endless : StaysInTable ringVolume ∧ 2 < ringVolume.tableSize ∧
    ∀ fuel, Loop.chain.run (fun _ => 0) ringVolume fuel 2 = .error .endless := by
  refine ⟨ringVolume_staysInTable, by decide, fun fuel => ?_⟩
  rw [Loop.run, trail_of_self (by decide) (by decide +kernel)]
  rfl

/-- The chain of cluster 3 ends within as many rounds as the table has entries. -/
theorem ringVolume_ends :
    Loop.chain.run (fun _ => 0) ringVolume 257 3 ≠ .error .endless := by
  have hchain : ringVolume.Chain 3 [3, 4] :=
    .step (by decide) (show ringVolume.nextCluster 3 = .ok 4 by decide +kernel)
      (.step (by decide) (show ringVolume.nextCluster 4 = .ok 0 by decide +kernel) .stop)
  exact (ends_unless_comesBack (fun _ => 0) ringVolume_staysInTable (by decide) .chain).1
    hchain.not_comesBack

end Example

end TFAT.WalkEnds
