import TFAT.UndeleteSafety

/-!
# What the dumps print

`dump` and `hdump` follow the chain of a file to its end, whatever the size of the
file is. They count the size down by a cluster where a whole cluster is printed, and
not where a part of one is. So behind the part that ends the file every further
cluster of the chain is printed again for as many bytes as that part has. The first
bytes of the chain are printed exactly when there is no further cluster, or no part.
-/
namespace TFAT.FileDumps
open ByteRegions LittleEndianWords LinkedChains DiskLayout ClusterTable ClusterPlacement
open FileDescriptor DirectoryIO PathText PathResolution LongNames UserCommands UndeleteSafety
open Fat16Flush

section Blocks
variable {B size : ℕ} {blocks : List Bytes} {b : Bytes}

/-- What the loop prints of blocks of `B` bytes when `size` bytes remain. -/
def printed (B : ℕ) : ℕ → List Bytes → Bytes
  | _, [] => []
  | size, b :: blocks =>
      if size < B then b.take size ++ printed B size blocks
      else b ++ printed B (size - B) blocks

/-- The last block starts at the end of the file at the latest, or the file ends with
a block. -/
def EndsInLast (B size k : ℕ) : Prop := (k - 1) * B ≤ size ∨ B ∣ size

theorem EndsInLast.of_cons (h : EndsInLast B size (blocks.length + 1)) (hB : B ≤ size) :
    EndsInLast B (size - B) blocks.length := by
  refine h.imp (fun h => ?_) fun h => Nat.dvd_sub h dvd_rfl
  rw [Nat.add_sub_cancel] at h
  rw [Nat.sub_mul, Nat.one_mul]
  omega

/-- Nothing is printed twice where the file ends in the last block. -/
theorem printed_eq_take (hb : ∀ b ∈ blocks, b.length = B)
    (h : EndsInLast B size blocks.length) : printed B size blocks = blocks.flatten.take size := by
  induction blocks generalizing size with
  | nil => rw [printed, List.flatten_nil, List.take_nil]
  | cons b blocks ih =>
      have hblocks : ∀ b ∈ blocks, b.length = B := fun c hc => hb c (by simp [hc])
      have hlen : b.length = B := hb b (by simp)
      rw [printed, List.flatten_cons]
      split_ifs with hsize
      · rw [List.length_cons] at h
        rcases h with h | h
        · rw [Nat.add_sub_cancel] at h
          have hnil : blocks = [] := by
            by_contra hne
            have hle := Nat.le_mul_of_pos_left B (List.length_pos_of_ne_nil hne)
            omega
          rw [hnil, printed, List.append_nil, List.flatten_nil, List.append_nil]
        · obtain rfl := Nat.eq_zero_of_dvd_of_lt h hsize
          rw [ih hblocks (.inr h), List.take_zero, List.take_zero, List.take_zero,
            List.append_nil]
      · have hwhole : b.take size = b := List.take_of_length_le (by omega)
        rw [ih hblocks (h.of_cons (by omega)), List.take_append, hwhole, hlen]

/-- Behind the part that ends the file the loop prints more. -/
theorem lt_length_printed (hb : ∀ b ∈ blocks, b.length = B)
    (h : ¬ EndsInLast B size blocks.length) : size < (printed B size blocks).length := by
  rw [EndsInLast, not_or, not_le] at h
  obtain ⟨hlast, hpart⟩ := h
  induction blocks generalizing size with
  | nil => simp at hlast
  | cons b blocks ih =>
      have hblocks : ∀ b ∈ blocks, b.length = B := fun c hc => hb c (by simp [hc])
      have hlen : b.length = B := hb b (by simp)
      rw [List.length_cons, Nat.add_sub_cancel] at hlast
      rw [printed]
      split_ifs with hsize
      · have hpos : 0 < size := Nat.pos_of_ne_zero fun h => hpart (h ▸ dvd_zero B)
        obtain ⟨c, rest, rfl⟩ := List.exists_cons_of_ne_nil
          (show blocks ≠ [] from fun h => by simp [h] at hlast)
        have hc : c.length = B := hblocks c (by simp)
        rw [printed, if_pos hsize, List.length_append, List.length_append, List.length_take,
          List.length_take]
        omega
      · have hsub : (blocks.length - 1) * B = blocks.length * B - B := by
          rw [Nat.sub_mul, Nat.one_mul]
        have hrest : ¬ B ∣ size - B := fun hd =>
          hpart ((Nat.dvd_sub_iff_left (by omega) dvd_rfl).mp hd)
        have hmore := ih hblocks (by omega) hrest
        rw [List.length_append]
        omega

end Blocks

def hexDigit (n : ℕ) : UInt8 := UInt8.ofNat (if n < 10 then 48 + n else 55 + n)

def hexForm (b : UInt8) : Text := [hexDigit (b.toNat / 16), hexDigit (b.toNat % 16), 0x20]

def between : Line → Text
  | .chars bytes => bytes
  | .hexes bytes => bytes.flatMap hexForm
  | _ => []

def Shows (r : Except Fault (Session × List Line)) (s : Session) (ndir : Text)
    (file : FatDirLayout) (text : Text) : Prop :=
  ∃ line, r = .ok (s, [.fileSize ndir (asInt file.fileSize), .top, line, .bottom]) ∧
    between line = text

def fileBytes (s : Session) (file : FatDirLayout) (l : List ℕ) : Bytes :=
  (contents s.volume s.image l).take
    (min file.fileSize (l.length * clusterBytes s.volume.boot))

section Dumping
variable {fill : ℕ → UInt8} {s : Session} {fresh file : FatDirLayout} {dir : Text} {l : List ℕ}
variable {v : Volume} {img : Bytes}

def loaded (fill : ℕ → UInt8) (v : Volume) (img : Bytes) (c : ℕ) : Bytes :=
  (Descriptor.mk img (v.clusterToSector c)).load fill (clusterBytes v.boot)

theorem length_loaded (c : ℕ) : (loaded fill v img c).length = clusterBytes v.boot :=
  Descriptor.length_load _ fill _

theorem length_flatten_loaded (l : List ℕ) :
    (l.map (loaded fill v img)).flatten.length = l.length * clusterBytes v.boot := by
  induction l with
  | nil => rw [List.map_nil, List.flatten_nil, List.length_nil, List.length_nil, Nat.zero_mul]
  | cons c l ih =>
      rw [List.map_cons, List.flatten_cons, List.length_append, length_loaded, ih,
        List.length_cons, Nat.succ_mul, Nat.add_comm]

theorem loaded_eq_cluster {c : ℕ} (hi : InImage v img c) : loaded fill v img c = cluster v img c :=
  Descriptor.load_eq fill hi

theorem map_loaded (hi : ∀ c ∈ l, InImage v img c) :
    l.map (loaded fill v img) = l.map (cluster v img) :=
  List.map_congr_left fun c hc => loaded_eq_cluster (hi c hc)

/-- The loop prints what `printed` says of the clusters. -/
theorem foldlM_dumpCluster (fill : ℕ → UInt8) (v : Volume) (img : Bytes) (l : List ℕ) (size : ℕ)
    (out : Bytes) : ∃ rest, l.foldlM (dumpCluster fill v img) (size, out) =
      .ok (rest, out ++ printed (clusterBytes v.boot) size (l.map (loaded fill v img))) := by
  induction l generalizing size out with
  | nil => exact ⟨size, by rw [List.map_nil, printed, List.append_nil]; rfl⟩
  | cons c l ih =>
      rw [List.foldlM_cons, List.map_cons, printed, dumpCluster]
      split_ifs with hsize
      · obtain ⟨rest, hrest⟩ := ih size (out ++ (loaded fill v img c).take size)
        refine ⟨rest, ?_⟩
        rw [ok_bind, ← Descriptor.take_load fill hsize.le]
        exact hrest.trans (by rw [List.append_assoc])
      · obtain ⟨rest, hrest⟩ := ih (size - clusterBytes v.boot) (out ++ loaded fill v img c)
        refine ⟨rest, ?_⟩
        rw [ok_bind]
        exact hrest.trans (by rw [List.append_assoc])

theorem dumpWith_eq_printed (format : Bytes → Line)
    (hf : find fill s.volume s.image fresh (addressConvertor s.currentPath (some dir)).text =
      .ok (some file)) (hl : s.volume.Chain (s.volume.firstCluster file) l) :
    dumpWith fill s fresh format dir =
      .ok (s, [.fileSize (addressConvertor s.currentPath (some dir)).text (asInt file.fileSize),
        .top, format (printed (clusterBytes s.volume.boot) file.fileSize
          (l.map (loaded fill s.volume s.image))), .bottom]) := by
  obtain ⟨rest, hrest⟩ := foldlM_dumpCluster fill s.volume s.image l file.fileSize []
  rw [dumpWith]
  simp only [hf, ok_bind]
  rw [s.volume.along_of_chain hl, hrest, ok_bind, List.nil_append]

theorem fileBytes_eq (hi : ∀ c ∈ l, InImage s.volume s.image c) :
    fileBytes s file l = (l.map (cluster s.volume s.image)).flatten.take file.fileSize := by
  have hwhole : (contents s.volume s.image l).take (l.length * clusterBytes s.volume.boot) =
      contents s.volume s.image l := List.take_of_length_le (length_contents hi).le
  rw [fileBytes, ← List.take_take, hwhole, contents, List.flatMap_def]

theorem length_flatMap_hexForm (bytes : Bytes) :
    (bytes.flatMap hexForm).length = bytes.length * 3 := by
  induction bytes with
  | nil => rfl
  | cons b bytes ih =>
      rw [List.flatMap_cons, List.length_append, ih, List.length_cons, hexForm]
      simp only [List.length_cons, List.length_nil]
      omega

/-- A dump shows the first bytes of a file exactly when the file ends in the last
cluster of its chain. -/
theorem shows_dumpWith_iff (format : Bytes → Line) (form : Bytes → Text)
    (hform : ∀ bytes, between (format bytes) = form bytes)
    (hinj : ∀ bytes bytes' : Bytes, form bytes = form bytes' → bytes.length = bytes'.length)
    (hf : find fill s.volume s.image fresh (addressConvertor s.currentPath (some dir)).text =
      .ok (some file)) (hl : s.volume.Chain (s.volume.firstCluster file) l)
    (hi : ∀ c ∈ l, InImage s.volume s.image c) :
    Shows (dumpWith fill s fresh format dir) s
        (addressConvertor s.currentPath (some dir)).text file (form (fileBytes s file l)) ↔
      EndsInLast (clusterBytes s.volume.boot) file.fileSize l.length := by
  have hblocks : ∀ b ∈ l.map (cluster s.volume s.image),
      b.length = clusterBytes s.volume.boot := by
    intro b hb
    obtain ⟨c, hc, rfl⟩ := List.mem_map.mp hb
    exact length_cluster (hi c hc)
  have hdump := dumpWith_eq_printed format hf hl
  rw [map_loaded hi] at hdump
  constructor
  · rintro ⟨line, hline, htext⟩
    rw [hdump] at hline
    simp only [Except.ok.injEq, Prod.mk.injEq, List.cons.injEq, true_and, and_true] at hline
    rw [← hline, hform, fileBytes_eq hi] at htext
    by_contra hn
    rw [← List.length_map (cluster s.volume s.image)] at hn
    have hlt := lt_length_printed hblocks hn
    rw [hinj _ _ htext, List.length_take] at hlt
    omega
  · intro h
    rw [← List.length_map (cluster s.volume s.image)] at h
    refine ⟨_, hdump, ?_⟩
    rw [hform, fileBytes_eq hi, printed_eq_take hblocks h]

theorem shows_dump_iff
    (hf : find fill s.volume s.image fresh (addressConvertor s.currentPath (some dir)).text =
      .ok (some file)) (hl : s.volume.Chain (s.volume.firstCluster file) l)
    (hi : ∀ c ∈ l, InImage s.volume s.image c) :
    Shows (dump fill s fresh dir) s (addressConvertor s.currentPath (some dir)).text file
        (fileBytes s file l) ↔
      EndsInLast (clusterBytes s.volume.boot) file.fileSize l.length :=
  shows_dumpWith_iff .chars id (fun _ => rfl) (fun _ _ => congrArg List.length) hf hl hi

theorem shows_hdump_iff
    (hf : find fill s.volume s.image fresh (addressConvertor s.currentPath (some dir)).text =
      .ok (some file)) (hl : s.volume.Chain (s.volume.firstCluster file) l)
    (hi : ∀ c ∈ l, InImage s.volume s.image c) :
    Shows (hdump fill s fresh dir) s (addressConvertor s.currentPath (some dir)).text file
        ((fileBytes s file l).flatMap hexForm) ↔
      EndsInLast (clusterBytes s.volume.boot) file.fileSize l.length := by
  refine shows_dumpWith_iff .hexes (·.flatMap hexForm) (fun _ => rfl) (fun b b' h => ?_) hf hl hi
  have hlen := congrArg List.length h
  rw [length_flatMap_hexForm, length_flatMap_hexForm] at hlen
  omega

/-- `dump` prints the first bytes of a file, and `hdump` their hexadecimal form, exactly
when the last cluster of its chain starts at the end of the file at the latest, or the
file ends with a cluster. -/
theorem dumps_show_iff
    (hf : find fill s.volume s.image fresh (addressConvertor s.currentPath (some dir)).text =
      .ok (some file)) (hl : s.volume.Chain (s.volume.firstCluster file) l)
    (hi : ∀ c ∈ l, InImage s.volume s.image c) :
    (Shows (dump fill s fresh dir) s (addressConvertor s.currentPath (some dir)).text file
        (fileBytes s file l) ∧
      Shows (hdump fill s fresh dir) s (addressConvertor s.currentPath (some dir)).text file
        ((fileBytes s file l).flatMap hexForm)) ↔
      EndsInLast (clusterBytes s.volume.boot) file.fileSize l.length := by
  rw [shows_dump_iff hf hl hi, shows_hdump_iff hf hl hi, and_self]

end Dumping

theorem lostSession_files :
    find (fun _ => 0) lostSession.volume lostSession.image (fileT 0 0 0)
      (addressConvertor lostSession.currentPath (some [0x4C, 0x42, dot, 0x54])).text =
        .ok (some (fileT 0x4C 0x42 2)) ∧
    find (fun _ => 0) lostSession.volume lostSession.image (fileT 0 0 0)
      (addressConvertor lostSession.currentPath (some [question, 0x43, dot, 0x54])).text =
        .ok (some (fileT 0xE5 0x43 4)) ∧
    lostVolume.firstCluster (fileT 0xE5 0x43 4) = 4 ∧ lostVolume.nextCluster 4 = .ok 0 ∧
    (∀ c ∈ [2, 3, 4], lostVolume.clusterToSector c + 512 ≤ lostImage.length) := by
  decide +kernel

theorem lostSession_inImage {c : ℕ} (hc : c ∈ [2, 3, 4]) :
    InImage lostSession.volume lostSession.image c :=
  lostSession_files.2.2.2.2 c hc

/-- Ten bytes of the file `LB.T` are printed, which has five. -/
theorem dump_prints_twice : mounted16 lostSession.image = lostSession.volume ∧
    lostSession.volume.Chain (lostSession.volume.firstCluster (fileT 0x4C 0x42 2)) [2, 3] ∧
    ¬ Shows (dump (fun _ => 0) lostSession (fileT 0 0 0) [0x4C, 0x42, dot, 0x54]) lostSession
      (addressConvertor lostSession.currentPath (some [0x4C, 0x42, dot, 0x54])).text
      (fileT 0x4C 0x42 2) (fileBytes lostSession (fileT 0x4C 0x42 2) [2, 3]) := by
  refine ⟨lostSession_mounted, lostVolume_chain, fun h => ?_⟩
  have hin : ∀ c ∈ [2, 3], InImage lostSession.volume lostSession.image c := by
    intro c hc
    simp only [List.mem_cons, List.not_mem_nil, or_false] at hc
    exact lostSession_inImage (by simp; omega)
  have hchain : lostSession.volume.Chain (lostSession.volume.firstCluster (fileT 0x4C 0x42 2))
      [2, 3] := lostVolume_chain
  have hends := (shows_dump_iff lostSession_files.1 hchain hin).mp h
  have hsize : (fileT 0x4C 0x42 2).fileSize = 5 := by decide
  have hbytes : clusterBytes lostSession.volume.boot = 512 := by decide
  rw [EndsInLast, hsize, hbytes] at hends
  exact absurd hends (by decide)

/-- The five bytes of the file `?C.T`, which has one cluster, are printed. -/
theorem dump_prints_once :
    Shows (dump (fun _ => 0) lostSession (fileT 0 0 0) [question, 0x43, dot, 0x54]) lostSession
        (addressConvertor lostSession.currentPath (some [question, 0x43, dot, 0x54])).text
        (fileT 0xE5 0x43 4) (fileBytes lostSession (fileT 0xE5 0x43 4) [4]) ∧
      Shows (hdump (fun _ => 0) lostSession (fileT 0 0 0) [question, 0x43, dot, 0x54]) lostSession
        (addressConvertor lostSession.currentPath (some [question, 0x43, dot, 0x54])).text
        (fileT 0xE5 0x43 4) ((fileBytes lostSession (fileT 0xE5 0x43 4) [4]).flatMap hexForm) := by
  have hchain : lostSession.volume.Chain
      (lostSession.volume.firstCluster (fileT 0xE5 0x43 4)) [4] := by
    rw [show lostSession.volume.firstCluster (fileT 0xE5 0x43 4) = 4 from
      lostSession_files.2.2.1]
    exact .step (by norm_num) lostSession_files.2.2.2.1 .stop
  refine (dumps_show_iff lostSession_files.2.1 hchain fun c hc => ?_).mpr (.inl (by simp))
  rw [List.mem_singleton.mp hc]
  exact lostSession_inImage (by simp)

end TFAT.FileDumps
