import TFAT.LeavingVolumes
import TFAT.MirroredTables

/-!
# Leaving a volume and mounting it again

`write_fat` writes what `init_fat` reads. So a volume that is left by `umount` and mounted again
is the volume that was left, with its first table in place of the second, whatever has been
deleted and undeleted in between. Where nothing has been, leaving still writes the first table
over its copies.
-/
namespace TFAT.Remounts
open ByteRegions LittleEndianWords LinkedChains DiskLayout ClusterTable FileDescriptor VolumeMount
open VolumeLayout PathText UserCommands ShellCommands ShellRuns Fat16Flush Fat32Root
open MarkingEffects WriteBack SystemPlaces LeavingVolumes TableBlocks MirroredTables

/-- An image that mounting reads as it lies there, with both boot sectors in front of the
tables. -/
def Rewritable (img : Bytes) : Prop :=
  Fat16Image img ∨
    PlainRoot img ∧ FatBS.size + FatExtBS32.size ≤ reservedBytes (storedBoot img)

def remounted (v : Volume) : Volume := { v with fatTableBak := v.fatTable }

def written (l : Places) (v : Volume) (img : Bytes) : Bytes :=
  splice 0 (splice 0 img l.tables (List.replicate l.copies v.fatTable).flatten) l.root v.rootDir

section Flushing
variable {l : Places} {img image : Bytes} {v w : Volume}

theorem length_written (hW : WritesBack l img v) (hE : Edits v w)
    (hi : img.length ≤ image.length) : (written l w image).length = image.length := by
  have htable : w.fatTable.length = l.tableBytes := hE.fatTable.trans hW.fatTable
  have hroot : w.rootDir.length = l.rootBytes := hE.rootDir.trans hW.rootDir
  have horder := hW.order
  have hin := hW.inside
  rw [Places.tablesEnd] at horder
  have hlen := length_flatten_replicate l.copies w.fatTable
  have hinner : (splice 0 image l.tables (List.replicate l.copies w.fatTable).flatten).length =
      image.length := length_splice_of_le (by rw [hlen, htable]; omega)
  rw [written, length_splice_of_le (by rw [hinner]; omega), hinner]

theorem slice_written_front (hW : WritesBack l img v) (hE : Edits v w)
    (hi : img.length ≤ image.length) (hfront : ∀ x < l.tables, image[x]? = img[x]?) {off n : ℕ}
    (h : off + n ≤ l.tables) : slice (written l w image) off n = slice img off n := by
  refine slice_congr fun x _ hx => ?_
  rw [written, hW.getElem?_flush hE hi, writtenBack_of_notMem, ← hfront x (by omega)]
  · rfl
  · have horder := hW.order
    rw [Places.tablesEnd] at horder
    rintro (hx' | hx')
    · have := hx'.1
      omega
    · have := hx'.1
      omega

theorem storedBoot_written (hW : WritesBack l img v) (hE : Edits v w)
    (hi : img.length ≤ image.length) (hfront : ∀ x < l.tables, image[x]? = img[x]?)
    (h : FatBS.size ≤ l.tables) : storedBoot (written l w image) = storedBoot img := by
  rw [storedBoot, slice_written_front hW hE hi hfront (by omega), storedBoot]

theorem slice_written_table (hW : WritesBack l img v) (hE : Edits v w)
    (hi : img.length ≤ image.length) {j : ℕ} (hj : j < l.copies) :
    slice (written l w image) (l.tables + j * l.tableBytes) l.tableBytes = w.fatTable := by
  have htable : w.fatTable.length = l.tableBytes := hE.fatTable.trans hW.fatTable
  have horder := hW.order
  have hin := hW.inside
  rw [Places.tablesEnd] at horder
  have hm := Nat.mul_le_mul_right l.tableBytes (show j + 1 ≤ l.copies from hj)
  rw [Nat.succ_mul] at hm
  have hlen := length_flatten_replicate l.copies w.fatTable
  rw [htable] at hlen
  have hinner : (splice 0 image l.tables (List.replicate l.copies w.fatTable).flatten).length =
      image.length := length_splice_of_le (by rw [hlen]; omega)
  rw [written, slice_splice_disjoint (by rw [hinner]; omega) (.inl (by omega)),
    slice_splice_inside _ _ _ (by rw [hlen]; omega), ← htable, slice_flatten_replicate hj]

theorem slice_written_root (image : Bytes) (hW : WritesBack l img v) (hE : Edits v w) :
    slice (written l w image) l.root l.rootBytes = w.rootDir := by
  rw [written, ← hW.rootDir, ← hE.rootDir, slice_splice_self]

end Flushing

section Formats
variable {img image : Bytes} {v w : Volume}

theorem eq_remounted (hE : Edits v w) (hb : w.boot16 = v.boot16) :
    { v with fatTable := w.fatTable, fatTableBak := w.fatTable, rootDir := w.rootDir } =
      remounted w := by
  rw [remounted, ← hE.fatn, ← hE.boot, ← hb, ← hE.boot32, ← hE.dataOffset]

theorem places_fat16 (h : Fat16Image img) : places img =
    ⟨reservedBytes (storedBoot img), tableBytes16 (storedBoot img),
      (storedBoot img).tableCount.toNat, rootStart (storedBoot img),
      rootBytes (storedBoot img)⟩ := by
  rw [places, h.format]

theorem places_fat32 (h : Fat32Layout img) : places img =
    ⟨reservedBytes (storedBoot img), tableSpan img, (storedBoot img).tableCount.toNat,
      ((onDisk img).place (rootCluster img)).off, clusterBytes (storedBoot img)⟩ := by
  rw [places, h.format]

theorem mounted16_written (h : Fat16Image img) (hE : Edits (mounted16 img) w)
    (hb : w.boot16 = (mounted16 img).boot16) (hi : img.length ≤ image.length)
    (hfront : ∀ x < (places img).tables, image[x]? = img[x]?) (fill : ℕ → UInt8) :
    initFat fill (written (places img) w image) = .ok (remounted w) := by
  have hW := writesBack_fat16 h
  have hres := h.reserved_le
  have hlen := length_written hW hE hi
  have hcopies := h.tables
  have hp := places_fat16 h
  have hboot : storedBoot (written (places img) w image) = storedBoot img :=
    storedBoot_written hW hE hi hfront (by simp only [hp, FatBS.size]; omega)
  have hext : slice (written (places img) w image) FatBS.size FatExtBS16.size =
      slice img FatBS.size FatExtBS16.size :=
    slice_written_front hW hE hi hfront (by simp only [hp, FatBS.size, FatExtBS16.size]; omega)
  have hfirst := slice_written_table hW hE hi (j := 0) (by simp only [hp]; omega)
  have hsecond := slice_written_table hW hE hi (j := 1) (by simp only [hp]; omega)
  have hroot := slice_written_root image hW hE
  generalize written (places img) w image = out at *
  have himg : Fat16Image out := by
    constructor <;> rw [hboot]
    · exact h.format
    · exact h.sectorSize
    · exact h.reserved
    · exact h.tables
    · rw [hlen]
      exact h.inside.trans hi
    · exact h.below
  rw [hp] at hfirst hsecond hroot
  simp only [Nat.zero_mul, Nat.add_zero, Nat.one_mul] at hfirst hsecond hroot
  rw [himg.initFat_eq, mounted16, hboot, hext, hfirst, hsecond, hroot]
  exact congrArg Except.ok (eq_remounted hE hb)

structure Stores32 (img : Bytes) (w : Volume) (out : Bytes) : Prop where
  length : img.length ≤ out.length
  boot : storedBoot out = storedBoot img
  ext : storedExt out = storedExt img
  tables : ∀ j < (storedBoot img).tableCount.toNat,
    slice out (reservedBytes (storedBoot img) + j * tableSpan img) (tableSpan img) = w.fatTable
  root : slice out ((onDisk img).place (rootCluster img)).off (clusterBytes (storedBoot img)) =
    w.rootDir

theorem stores32_written (h : PlainRoot img)
    (hres : FatBS.size + FatExtBS32.size ≤ reservedBytes (storedBoot img))
    (hE : Edits (mounted32 img) w) (hi : img.length ≤ image.length)
    (hfront : ∀ x < (places img).tables, image[x]? = img[x]?) :
    Stores32 img w (written (places img) w image) := by
  have hW := writesBack_fat32 h
  have hp := places_fat32 h.image
  refine ⟨(length_written hW hE hi).symm ▸ hi, ?_, ?_, fun j hj => ?_, ?_⟩
  · exact storedBoot_written hW hE hi hfront (by simp only [hp]; omega)
  · rw [storedExt, slice_written_front hW hE hi hfront (by simp only [hp]; omega), storedExt]
  · have htable := slice_written_table hW hE hi (j := j) (by rwa [hp])
    rwa [hp] at htable ⊢
  · have hroot := slice_written_root image hW hE
    rwa [hp] at hroot ⊢

section Stored
variable {out : Bytes} (h : PlainRoot img) (hS : Stores32 img w out)
include hS

theorem tableSpan_of_stores32 : tableSpan out = tableSpan img := by
  rw [tableSpan, hS.boot, hS.ext, tableSpan]

theorem rootCluster_of_stores32 : rootCluster out = rootCluster img := by
  rw [rootCluster, hS.ext, rootCluster]

include h

theorem tables_of_stores32 :
    (onDisk out).fatTable = w.fatTable ∧ (onDisk out).fatTableBak = w.fatTable := by
  have hcopies := h.image.tables
  have hspan := tableSpan_of_stores32 hS
  have hfirst := hS.tables 0 (by omega)
  have hsecond := hS.tables 1 (by omega)
  rw [Nat.zero_mul, Nat.add_zero] at hfirst
  rw [Nat.one_mul] at hsecond
  simp only [onDisk, hS.boot, hspan]
  exact ⟨hfirst, hsecond⟩

theorem image_of_stores32 : Fat32Layout out := by
  have hspan := tableSpan_of_stores32 hS
  refine ⟨?_, ?_, ?_, h.image.bootSectors.trans hS.length, ?_, ?_, ?_⟩
  · exact hS.boot ▸ h.image.format
  · exact hS.boot ▸ h.image.tables
  · exact hS.boot ▸ h.image.rootEntries
  · exact hspan ▸ h.image.tableSize
  · rw [hS.boot, hspan]
    exact h.image.inside.trans hS.length
  · exact hS.boot ▸ h.image.clusters

theorem root_of_stores32 : readStart out + rootMove (storedBoot out) (rootCluster out) =
    ((onDisk img).place (rootCluster img)).off := by
  have hspan := tableSpan_of_stores32 hS
  have hcluster := rootCluster_of_stores32 hS
  rw [readStart_eq (image_of_stores32 h hS) (by rw [hS.boot, hspan]; exact h.skip), hS.boot, hspan,
    hcluster, h.rootMove_eq]
  rfl

/-- Mounting such an image reads the volume in memory. -/
theorem mounted_of_stores32 (hE : Edits (mounted32 img) w)
    (hb : w.boot16 = (mounted32 img).boot16) (fill : ℕ → UInt8) :
    initFat fill out = .ok (remounted w) := by
  have hspan := tableSpan_of_stores32 hS
  have hcluster := rootCluster_of_stores32 hS
  have himg := image_of_stores32 h hS
  have hread := root_of_stores32 h hS
  obtain ⟨htable, hbak⟩ := tables_of_stores32 h hS
  have hnext : (onDisk out).nextCluster = w.nextCluster := by
    have hfatn : w.fatn = (onDisk out).fatn := hE.fatn
    funext c
    rw [Volume.nextCluster_eq, Volume.nextCluster_eq, htable, hfatn]
  have hchain : (onDisk out).Chain (rootCluster out) [rootCluster out] := by
    rw [hcluster, Volume.Chain, hnext]
    exact hE.chain_singleton (h.chain.chain_single rfl).2
  have hin : readStart out + rootMove (storedBoot out) (rootCluster out) +
      clusterBytes (storedBoot out) ≤ out.length := by
    rw [hread, hS.boot]
    exact (h.chain.inside (rootCluster img) (by simp)).2.trans hS.length
  have hstart : readStart out = readStart img := by
    rw [readStart_eq himg (by rw [hS.boot, hspan]; exact h.skip), hS.boot, hspan,
      readStart_eq h.image h.skip]
  rw [himg.initFat_single fill hchain hin, mounted32, hread, hS.boot, hS.root]
  refine congrArg Except.ok (Eq.trans ?_ (eq_remounted hE hb))
  simp only [onDisk, hS.boot, hspan] at htable hbak
  simp only [mounted32, onDisk, hS.boot, hspan, hS.ext, hstart, htable, hbak]

end Stored

theorem mounted32_written (h : PlainRoot img)
    (hres : FatBS.size + FatExtBS32.size ≤ reservedBytes (storedBoot img))
    (hE : Edits (mounted32 img) w) (hb : w.boot16 = (mounted32 img).boot16)
    (hi : img.length ≤ image.length)
    (hfront : ∀ x < (places img).tables, image[x]? = img[x]?) (fill : ℕ → UInt8) :
    initFat fill (written (places img) w image) = .ok (remounted w) :=
  mounted_of_stores32 h (stores32_written h hres hE hi hfront) hE hb fill

theorem held_of_initFat {fill : ℕ → UInt8} (h : Fat16Image img ∨ PlainRoot img)
    (hv : initFat fill img = .ok v) : WritesBack (places img) img v ∧
      v.fatTable = slice img (places img).tables (places img).tableBytes ∧
      v.rootDir = slice img (places img).root (places img).rootBytes := by
  rcases h with h | h
  · rw [h.initFat_eq, Except.ok.injEq] at hv
    subst hv
    exact ⟨writesBack_fat16 h, by rw [places_fat16 h]; rfl, by rw [places_fat16 h]; rfl⟩
  · rw [h.initFat_eq, Except.ok.injEq] at hv
    subst hv
    refine ⟨writesBack_fat32 h, by rw [places_fat32 h.image]; rfl, ?_⟩
    have hmove : rootMove (storedBoot img) (rootCluster img) =
        (rootCluster img - 2) * clusterBytes (storedBoot img) := h.rootMove_eq
    rw [places_fat32 h.image, mounted32, hmove, readStart_eq h.image h.skip]
    rfl

theorem Rewritable.writesBack {fill : ℕ → UInt8} (h : Rewritable img)
    (hv : initFat fill img = .ok v) : WritesBack (places img) img v :=
  (held_of_initFat (h.imp_right And.left) hv).1

/-- What `write_fat` writes, `init_fat` reads. -/
theorem initFat_written {fill : ℕ → UInt8} (h : Rewritable img) (hv : initFat fill img = .ok v)
    (hE : Edits v w) (hb : w.boot16 = v.boot16) (hi : img.length ≤ image.length)
    (hfront : ∀ x < (places img).tables, image[x]? = img[x]?) :
    initFat fill (written (places img) w image) = .ok (remounted w) := by
  rcases h with h | ⟨h, hres⟩
  · rw [h.initFat_eq, Except.ok.injEq] at hv
    subst hv
    exact mounted16_written h hE hb hi hfront fill
  · rw [h.initFat_eq, Except.ok.injEq] at hv
    subst hv
    exact mounted32_written h hres hE hb hi hfront fill

end Formats

section Runs
variable {env : Env} {file : Text} {l : Places} {img : Bytes} {v : Volume} {s₁ s : Shell}
variable {trace : List Done}

def NotDumped (env : Env) (file : Text) (trace : List Done) : Prop :=
  ∀ d ∈ trace, ∀ path, d.input.command = .dumpFat path → env.canonical path ≠ file

theorem front_of_runs (hW : WritesBack l img v) (h : Kept file img v s₁)
    (hr : Runs env s₁ trace s) (h₁ : s₁.image = img) (hd : NotDumped env file trace) :
    ∀ x < l.tables, s.image[x]? = img[x]? := by
  induction hr with
  | start => exact fun x _ => by rw [h₁]
  | @step trace s t i hr hl ht ih =>
      intro x hx
      rw [← ih (fun d hd' => hd d (by simp [hd'])) x hx]
      have hk := (h.run hr).1
      obtain ⟨-, he⟩ := hk.next hl ht
      have hend := hW.order
      have hin := hW.inside
      have hdata := hW.data
      rw [Places.tablesEnd] at hend hdata
      have hlen : img.length ≤ s.image.length := hk.length
      refine he.image.kept x (show x < s.image.length by omega) fun hT => ?_
      have hspan (p : FatDirLayout) (hp : BytesOf s.session.volume p x) : False := by
        obtain ⟨-, c, -, hlow, -⟩ := hp
        rw [Volume.clusterSpan, Volume.clusterToSector_eq] at hlow
        have hoff : s.session.volume.dataOffset = v.dataOffset := hk.edits.dataOffset
        simp only at hlow
        omega
      obtain ⟨c, fresh, freshParent⟩ := i
      cases c with
      | delete | undelete =>
          obtain ⟨-, p, -, hp⟩ := hT
          exact hspan p hp
      | dumpFat path => exact hd ⟨⟨.dumpFat path, fresh, freshParent⟩, s, t⟩ (by simp) path rfl hT
      | _ => exact hT

theorem mount_of_wmount {s₀ : Shell} {dev : Text} {i : Input} (hi : i.command = .wmount dev)
    (h : step env s₀ i = .ok (.running s₁)) : mount env s₀ dev true = .ok s₁ := by
  have hp := step_running h
  rwa [perform, hi] at hp

/-- What a completed `wmount` has done. -/
theorem mounted_of_wmount {s₀ : Shell} {dev : Text} {i : Input}
    (hfile : s₀.files (env.canonical dev) = some img) (hi : i.command = .wmount dev)
    (h : step env s₀ i = .ok (.running s₁)) : initFat env.fill img = .ok s₁.volume ∧
      s₁.image = img ∧ s₁.volume.boot.mediaType ≠ 0 ∧
      Kept (env.canonical dev) img s₁.volume s₁ := by
  have hm := mount_of_wmount hi h
  have hmedia : s₁.volume.boot.mediaType ≠ 0 := by
    unfold mount at hm
    simp only at hm
    split at hm
    · obtain ⟨v, -, hm⟩ := bind_eq_ok.mp hm
      split_ifs at hm with hn
      rw [← Except.ok.inj hm]
      exact hn
    · simp at hm
  obtain ⟨img', v, hfile', hv, hs₁⟩ := mount_eq_ok hm
  obtain rfl : img' = img := by simpa [hfile] using hfile'.symm
  have himage : s₁.image = img' := by
    rw [hs₁]
    simp [Shell.image, hfile]
  have hvolume : s₁.volume = v := by rw [hs₁]
  refine ⟨hvolume ▸ hv, himage, hmedia, ⟨⟨by rw [hs₁], ?_⟩, .refl _, himage ▸ le_rfl⟩⟩
  rw [himage, hs₁]
  exact hfile

theorem files_of_left {o : Outcome} {last : Input} (hW : WritesBack l img v)
    (hk : Kept file img v s) (hlast : last.command.Flushes) (hleft : step env s last = .ok o) :
    o.files file = some (written l s.volume s.image) := by
  obtain ⟨out, hout, hbytes⟩ := hk.files_of_flush hW hlast hleft
  rw [hout]
  refine congrArg some (List.ext_getElem? fun x => ?_)
  rw [hbytes, written, hW.getElem?_flush hk.edits hk.length, store]

/-- A run behind `wmount`, and the `umount` or `quit` that ends it. The file then mounts as the
volume that was left, with its first table in place of the second. -/
theorem initFat_of_left {s₀ : Shell} {o : Outcome} {dev : Text} {first last : Input}
    (hfile : s₀.files (env.canonical dev) = some img) (himg : Rewritable img)
    (hfirst : first.command = .wmount dev) (hmount : step env s₀ first = .ok (.running s₁))
    (hrun : Runs env s₁ trace s) (hd : NotDumped env (env.canonical dev) trace)
    (hlast : last.command.Flushes) (hleft : step env s last = .ok o) :
    o.files (env.canonical dev) = some (written (places img) s.volume s.image) ∧
      initFat env.fill (written (places img) s.volume s.image) = .ok (remounted s.volume) ∧
      s.volume.boot.mediaType ≠ 0 := by
  obtain ⟨hv, himage, hmedia, hk₁⟩ := mounted_of_wmount hfile hfirst hmount
  have hk := (hk₁.run hrun).1
  have hb : s.volume.boot16 = s₁.volume.boot16 := by
    obtain ⟨table, bak, root, hw⟩ := (mirrored_of_runs hrun).volume
    rw [hw]
    rfl
  have hW := himg.writesBack hv
  refine ⟨files_of_left hW hk hlast hleft, ?_, ?_⟩
  · exact initFat_written himg hv hk.edits hb hk.length (front_of_runs hW hk₁ hrun himage hd)
  · rw [hk.edits.boot]
    exact hmedia

theorem getElem?_written (hW : WritesBack l img v) (hk : Kept file img v s) {x : ℕ}
    (hx : x ∉ l.area) : (written l s.volume s.image)[x]? = s.image[x]? := by
  rw [written, hW.getElem?_flush hk.edits hk.length, writtenBack_of_notMem hx]
  rfl

end Runs

section Unmarked
variable {env : Env} {file : Text} {l : Places} {img : Bytes} {v : Volume} {s₁ s : Shell}
variable {trace : List Done}

/-- A flush of an unchanged volume changes nothing exactly where the tables are equal. -/
theorem written_eq_self_iff (hW : WritesBack l img v)
    (ht : v.fatTable = slice img l.tables l.tableBytes)
    (hr : v.rootDir = slice img l.root l.rootBytes) : written l v img = img ↔
      ∀ j < l.copies, slice img (l.tables + j * l.tableBytes) l.tableBytes =
        slice img l.tables l.tableBytes := by
  constructor
  · intro h j hj
    have htable := slice_written_table hW (.refl v) le_rfl hj
    rwa [h, ht] at htable
  · intro h
    have horder := hW.order
    have hin := hW.inside
    rw [Places.tablesEnd] at horder
    have hcopies := slice_eq_flatten_replicate h
    rw [written, ht, hr, ← hcopies, splice_slice_self _ _ (by omega),
      splice_slice_self _ _ (by omega)]

def NotMarked (trace : List Done) : Prop := ∀ d ∈ trace, ¬ d.input.command.Marks

theorem image_storeFile_self {fd : Fd} {file : Text} {img : Bytes} (hfd : s.fd = some fd)
    (hf : fd.file = file) : (storeFile s file img).image = img := by
  subst hf
  rw [image_eq (s := storeFile s fd.file img) hfd, files_storeFile, Option.getD_some]

theorem image_storeFile_of_ne {fd : Fd} {file : Text} {img : Bytes} (hfd : s.fd = some fd)
    (hf : fd.file ≠ file) : (storeFile s file img).image = s.image := by
  rw [image_eq (s := storeFile s file img) hfd, image_eq hfd]
  exact congrArg (Option.getD · []) (Function.update_of_ne hf _ _)

theorem image_of_perform {t : Shell} {i : Input} {fd : Fd} (hfd : s.fd = some fd)
    (hl : ¬ i.command.Leaves) (hm : ¬ i.command.Marks)
    (hd : ∀ path, i.command = .dumpFat path → env.canonical path ≠ fd.file)
    (h : perform env s i = .ok t) : t.image = s.image := by
  cases performed_of_perform h with
  | mounted hc => exact absurd (leaves_of_mounts hc) hl
  | left hf => exact absurd (leaves_of_flushes hf) hl
  | looked _ _ hi ht => rw [ht, image_resume hfd, hi]
  | deleted hc | undeleted hc => exact absurd (by rw [hc]; trivial) hm
  | dumped hc _ ht => rw [ht, image_storeFile_of_ne hfd (Ne.symm (hd _ hc))]
  | same _ ht => rw [ht]

theorem unmarked_of_runs {fd : Fd} (hr : Runs env s₁ trace s) (hfd : s₁.fd = some fd)
    (hm : NotMarked trace) (hd : NotDumped env fd.file trace) :
    s.fd = some fd ∧ s.volume = s₁.volume ∧ s.image = s₁.image := by
  induction hr with
  | start => exact ⟨hfd, rfl, rfl⟩
  | @step trace s t i _ hl ht ih =>
      obtain ⟨hs, hv, hi⟩ := ih (fun d h => hm d (by simp [h])) fun d h => hd d (by simp [h])
      have hmark : ¬ i.command.Marks := hm ⟨i, s, t⟩ (by simp)
      have hp := step_running ht
      exact ⟨(kept_of_perform hl hp).1.trans hs, (volume_of_perform hl hmark hp).trans hv,
        (image_of_perform hs hl hmark (hd ⟨i, s, t⟩ (by simp)) hp).trans hi⟩

end Unmarked

/-- A volume that is mounted for writing, looked at and left by `umount` or `quit` is the image
that it was exactly where all copies of the table were equal: the flush writes the first one over
the others. -/
theorem looked_unchanged_iff {env : Env} {s₀ s₁ s : Shell} {dev : Text} {img : Bytes}
    {first last : Input} {trace : List Done} {o : Outcome}
    (hfile : s₀.files (env.canonical dev) = some img) (himg : Fat16Image img ∨ PlainRoot img)
    (hfirst : first.command = .wmount dev) (hmount : step env s₀ first = .ok (.running s₁))
    (hrun : Runs env s₁ trace s) (hm : NotMarked trace)
    (hd : NotDumped env (env.canonical dev) trace) (hlast : last.command.Flushes)
    (hleft : step env s last = .ok o) :
    o.files (env.canonical dev) = some img ↔
      ∀ j < (places img).copies, slice img ((places img).tables + j * (places img).tableBytes)
        (places img).tableBytes = slice img (places img).tables (places img).tableBytes := by
  obtain ⟨hv, himage, -, hk₁⟩ := mounted_of_wmount hfile hfirst hmount
  obtain ⟨hW, htable, hroot⟩ := held_of_initFat himg hv
  have hk := (hk₁.run hrun).1
  obtain ⟨-, hvolume, hsame⟩ := unmarked_of_runs hrun hk₁.writable.fd hm hd
  rw [files_of_left hW hk hlast hleft, hvolume, hsame, himage, Option.some.injEq,
    written_eq_self_iff hW htable hroot]

section Example

theorem left_of_kept {l : Places} {img : Bytes} {v : Volume} {s : Shell} (hW : WritesBack l img v)
    (hk : Kept [0x56] img v s) : ∃ t, step subFileEnv s (input .umount) = .ok (.running t) := by
  obtain ⟨w, d, hflush, -⟩ := hW.flush s.volume s.image hk.edits hk.length
  obtain ⟨t, ht, -⟩ := umount_of_writeFat hk.writable.fd hflush
  refine ⟨t, ?_⟩
  rw [step, show perform subFileEnv s (input .umount) = _ from ht]
  rfl

theorem info_runs : Runs subFileEnv subFileShell [⟨input .info, subFileShell, subFileShell⟩]
    subFileShell := .step .start id rfl

theorem info_unmarked : NotMarked [⟨input .info, subFileShell, subFileShell⟩] ∧
    NotDumped subFileEnv [0x56] [⟨input .info, subFileShell, subFileShell⟩] := by
  refine ⟨fun d hd => ?_, fun d hd path hc => ?_⟩
  · rw [List.mem_singleton.mp hd]
    exact id
  · rw [List.mem_singleton.mp hd] at hc
    cases hc

theorem subFileImage_copies : ∀ j < (places subFileImage).copies,
    slice subFileImage ((places subFileImage).tables + j * (places subFileImage).tableBytes)
      (places subFileImage).tableBytes =
    slice subFileImage (places subFileImage).tables (places subFileImage).tableBytes := by
  rw [subFileImage_places]
  decide +kernel

/-- The volume is looked at and left. Its tables are equal, and its file is as it was. -/
theorem subFileShell_unchanged : ∃ t, step subFileEnv subFileShell (input .umount) =
    .ok (.running t) ∧ t.files [0x56] = some subFileImage := by
  obtain ⟨v, hW, hk, -⟩ := subFileShell_kept
  obtain ⟨t, ht⟩ := left_of_kept hW hk
  have hlast : (input .umount).command.Flushes := trivial
  exact ⟨t, ht, (looked_unchanged_iff subFileFiles_stored (.inl subFileImage_image) rfl
    subFileShell_mounted info_runs info_unmarked.1 info_unmarked.2 hlast ht).mpr
      subFileImage_copies⟩

end Example

/-- A volume that is mounted for writing, used and left by `umount` or `quit` is there again when
it is mounted anew: the first table, the root directory and all other fields are those that were
left, and outside of the tables and the root directory the image is the one that was left. -/
theorem remount_restores {env : Env} {s₀ s₁ s u : Shell} {o : Outcome} {dev dev' : Text}
    {img : Bytes} {first last again : Input} {trace : List Done} {wflag : Bool}
    (hfile : s₀.files (env.canonical dev) = some img) (himg : Rewritable img)
    (hfirst : first.command = .wmount dev) (hmount : step env s₀ first = .ok (.running s₁))
    (hrun : Runs env s₁ trace s) (hd : NotDumped env (env.canonical dev) trace)
    (hlast : last.command.Flushes) (hleft : step env s last = .ok o)
    (hu : u.files (env.canonical dev) = o.files (env.canonical dev))
    (hagain : again.command = if wflag then .wmount dev' else .mount dev')
    (hdev : env.canonical dev' = env.canonical dev)
    (hmay : env.mayOpen (env.canonical dev) (if wflag then .rdwr else .rdonly)) :
    step env u again = .ok (.running (mountedShell u (env.canonical dev) wflag
        (remounted s.volume))) ∧
      ∃ out, u.files (env.canonical dev) = some out ∧
        ∀ x ∉ (places img).area, out[x]? = s.image[x]? := by
  obtain ⟨hout, hread, hmedia⟩ := initFat_of_left hfile himg hfirst hmount hrun hd hlast hleft
  obtain ⟨hv, -, -, hk₁⟩ := mounted_of_wmount hfile hfirst hmount
  have hW := himg.writesBack hv
  have hstored := hu.trans hout
  refine ⟨?_, _, hstored, fun x hx => getElem?_written hW (hk₁.run hrun).1 hx⟩
  rw [← hdev] at hstored hmay ⊢
  exact step_mount wflag hagain hstored hmay hread hmedia

section Example

theorem deleteFile_left : ∃ s t, Runs subFileEnv subFileShell [⟨deleteFile, subFileShell, s⟩] s ∧
    step subFileEnv s (input .umount) = .ok (.running t) := by
  obtain ⟨s, hs, -⟩ := deleteFile_running
  obtain ⟨v, hW, hk, -⟩ := subFileShell_kept
  obtain ⟨hks, -⟩ := hk.next id hs
  obtain ⟨t, ht⟩ := left_of_kept hW hks
  exact ⟨s, t, deleteFile_runs hs, ht⟩

theorem notDumped_deleteFile (s : Shell) :
    NotDumped subFileEnv [0x56] [⟨deleteFile, subFileShell, s⟩] := by
  intro d hd path hc
  rw [List.mem_singleton.mp hd] at hc
  cases hc

/-- Behind the deletion of its file the volume is left by `quit`. The next process mounts it for
reading. -/
theorem deleteFile_remounted : ∃ s files,
    Runs subFileEnv subFileShell [⟨deleteFile, subFileShell, s⟩] s ∧
      step subFileEnv s (input .quit) = .ok (.exited files) ∧
      step subFileEnv (.initial files) (input (.mount [0x56])) =
        .ok (.running (mountedShell (.initial files) [0x56] false (remounted s.volume))) ∧
      ∃ out, files [0x56] = some out ∧
        ∀ x ∉ (places subFileImage).area, out[x]? = s.image[x]? := by
  obtain ⟨s, t, hs, ht⟩ := deleteFile_left
  have hquit : step subFileEnv s (input .quit) = .ok (.exited t.files) := by
    have hp : perform subFileEnv s (input .umount) = .ok t := step_running ht
    rw [step, show perform subFileEnv s (input .quit) = .ok t from hp]
    rfl
  have hlast : (input .quit).command.Flushes := trivial
  have hagain : (input (.mount [0x56])).command =
      if false then .wmount [0x56] else .mount [0x56] := rfl
  exact ⟨s, t.files, hs, hquit, remount_restores subFileFiles_stored (.inl subFileImage_image) rfl
    subFileShell_mounted hs (notDumped_deleteFile s) hlast hquit rfl hagain rfl rfl⟩

end Example

end TFAT.Remounts
