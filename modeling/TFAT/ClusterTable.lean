import TFAT.DiskLayout
import TFAT.LinkedChains

/-!
# Mounted volumes and their cluster tables

The state that a successful `init_fat` leaves in memory, and the functions of
FAT.c, FAT16.c and FAT32.c that read and change it. Unsigned 32-bit arithmetic
is written out modulo `2 ^ 32` wherever an operand can reach it. The table is
the block of bytes that was read from the disk, so an index outside it is an
access outside the block and not a default value.
-/
namespace TFAT.ClusterTable
open ByteRegions LittleEndianWords LinkedChains DiskLayout

/-- `FATN`, which is 1 on FAT16 and 2 on FAT32. -/
inductive Fatn where
  | fat16 | fat32
  deriving DecidableEq, Repr

def sector (b : FatBS) : ℕ := b.bytesPerSector.toNat

/-- `SECTOR * fat_boot.sectors_per_cluster`; the product of 16 and 8 bits never wraps. -/
def clusterBytes (b : FatBS) : ℕ := sector b * b.sectorsPerCluster.toNat

theorem clusterBytes_lt (b : FatBS) : clusterBytes b < 2 ^ 24 :=
  (Nat.mul_lt_mul'' b.bytesPerSector.toNat_lt b.sectorsPerCluster.toNat_lt).trans_eq
    (by norm_num)

def sub32 (a b : ℕ) : ℕ := (a + (2 ^ 32 - b)) % 2 ^ 32

theorem sub32_of_le {a b : ℕ} (h : b ≤ a) (hb : b < 2 ^ 32) (ha : a < 2 ^ 32) :
    sub32 a b = a - b := by
  unfold sub32
  omega

/-- The globals of a mounted volume. `boot32` is only read on FAT32. -/
structure Volume where
  fatn : Fatn
  boot : FatBS
  boot16 : FatExtBS16
  boot32 : FatExtBS32
  fatTable : Bytes
  fatTableBak : Bytes
  dataOffset : ℕ
  rootDir : Bytes
  deriving DecidableEq, Repr

namespace Volume
variable (v : Volume)

def clusterToSector16 (cluster : ℕ) : ℕ :=
  clusterBytes v.boot * sub32 cluster 2 % 2 ^ 32 + v.dataOffset

def clusterToSector32 (cluster : ℕ) : ℕ :=
  clusterBytes v.boot * sub32 cluster 2 % 2 ^ 32 + v.dataOffset

/-- `cluster_to_sector`. The product is taken in 32 bits and widened afterwards. -/
def clusterToSector (cluster : ℕ) : ℕ :=
  match v.fatn with
  | .fat16 => v.clusterToSector16 cluster
  | .fat32 => v.clusterToSector32 cluster

theorem clusterToSector_eq (cluster : ℕ) :
    v.clusterToSector cluster = clusterBytes v.boot * sub32 cluster 2 % 2 ^ 32 + v.dataOffset := by
  unfold clusterToSector
  cases v.fatn <;> rfl

def firstCluster16 (dir : FatDirLayout) : ℕ := dir.firstClusterLow

def firstCluster32 (dir : FatDirLayout) : ℕ :=
  dir.firstClusterHigh <<< 16 ||| dir.firstClusterLow

def firstCluster (dir : FatDirLayout) : ℕ :=
  match v.fatn with
  | .fat16 => firstCluster16 dir
  | .fat32 => firstCluster32 dir

/-- Read a cell of a table, which is an array of `w`-byte words. -/
def fetch (w : ℕ) (t : Bytes) (index : ℕ) : Except Fault ℕ :=
  if HasCell w t index then .ok (cell w t index) else .error .outside

def nextCluster16 (index : ℕ) : Except Fault ℕ := do
  let x ← fetch 2 v.fatTable (index % 2 ^ 16)
  if x &&& 0xF000 = 0xF000 then .ok 0 else .ok x

def nextCluster32 (index : ℕ) : Except Fault ℕ := do
  let x ← fetch 4 v.fatTable index
  if x &&& 0x0F000000 = 0x0F000000 then .ok 0 else .ok (x &&& 0x0FFFFFFF)

def nextCluster (index : ℕ) : Except Fault ℕ :=
  match v.fatn with
  | .fat16 => v.nextCluster16 index
  | .fat32 => v.nextCluster32 index

/-- Store a value into the same cell of both tables. -/
def store (w index newValue : ℕ) : Except Fault Volume :=
  if HasCell w v.fatTable index ∧ HasCell w v.fatTableBak index then
    .ok { v with
      fatTable := setCell w v.fatTable index newValue
      fatTableBak := setCell w v.fatTableBak index newValue }
  else .error .outside

def changeCluster16 (index newValue : ℕ) : Except Fault Volume :=
  v.store 2 (index % 2 ^ 16) (newValue % 2 ^ 16)

def changeCluster32 (index newValue : ℕ) : Except Fault Volume :=
  v.store 4 index newValue

def changeCluster (index newValue : ℕ) : Except Fault Volume :=
  match v.fatn with
  | .fat16 => v.changeCluster16 index newValue
  | .fat32 => v.changeCluster32 index newValue

def getCluster16 (index : ℕ) : Except Fault ℕ := fetch 2 v.fatTable (index % 2 ^ 16)
def getCluster32 (index : ℕ) : Except Fault ℕ := fetch 4 v.fatTable index

def getCluster (index : ℕ) : Except Fault ℕ :=
  match v.fatn with
  | .fat16 => v.getCluster16 index
  | .fat32 => v.getCluster32 index

def getClusterBak16 (index : ℕ) : Except Fault ℕ := fetch 2 v.fatTableBak (index % 2 ^ 16)
def getClusterBak32 (index : ℕ) : Except Fault ℕ := fetch 4 v.fatTableBak index

def getClusterBak (index : ℕ) : Except Fault ℕ :=
  match v.fatn with
  | .fat16 => v.getClusterBak16 index
  | .fat32 => v.getClusterBak32 index

/-- `table_size`, the number of entries of one table. -/
def tableSize : ℕ :=
  match v.fatn with
  | .fat16 => v.boot.tableSize16.toNat * (sector v.boot / 2)
  | .fat32 => v.boot32.tableSize32.toNat * (sector v.boot / 4) % 2 ^ 32

def totalSectors : ℕ :=
  match v.fatn with
  | .fat16 => v.boot.totalSectors16.toNat
  | .fat32 => v.boot.totalSectors32.toNat

end Volume

namespace Fatn

def width : Fatn → ℕ
  | .fat16 => 2
  | .fat32 => 4

/-- The table index a cluster number is narrowed to. -/
def index : Fatn → ℕ → ℕ
  | .fat16, c => c % 2 ^ 16
  | .fat32, c => c

/-- The number of values that the part of an entry which names a cluster takes. -/
def span : Fatn → ℕ
  | .fat16 => 2 ^ 16
  | .fat32 => 2 ^ 28

/-- The least value that the end-of-chain tests of the code take for an end mark. -/
def limit : Fatn → ℕ
  | .fat16 => 0xF000
  | .fat32 => 0x0F000000

/-- What `next_cluster` makes of the value of an entry. -/
def link (n : Fatn) (x : ℕ) : ℕ := if n.limit ≤ x % n.span then 0 else x % n.span

theorem width_pos (n : Fatn) : 0 < n.width := by
  cases n <;> norm_num [width]

theorem span_pos (n : Fatn) : 0 < n.span := by
  cases n <;> norm_num [span]

theorem link_lt (n : Fatn) (x : ℕ) : n.link x < n.span := by
  have h := Nat.mod_lt x n.span_pos
  have hp := n.span_pos
  unfold link
  split_ifs <;> omega

theorem link_zero (n : Fatn) : n.link 0 = 0 := by
  cases n <;> rfl

theorem index_of_lt (n : Fatn) {c : ℕ} (h : c < n.span) : n.index c = c := by
  cases n with
  | fat16 => exact Nat.mod_eq_of_lt h
  | fat32 => rfl

end Fatn

theorem land_nibble (x k : ℕ) : x &&& (15 * 2 ^ k) = x / 2 ^ k % 16 * 2 ^ k := by
  have h : x &&& (15 <<< k) = ((x >>> k) &&& 15) <<< k := by
    apply Nat.eq_of_testBit_eq
    intro i
    simp only [Nat.testBit_and, Nat.testBit_shiftLeft, Nat.testBit_shiftRight]
    by_cases hi : k ≤ i <;> simp [hi]
  rw [← Nat.shiftLeft_eq, h, Nat.shiftLeft_eq, Nat.shiftRight_eq_div_pow,
    show (15 : ℕ) = 2 ^ 4 - 1 from rfl, Nat.and_two_pow_sub_one_eq_mod]

/-- A mask of four ones on top compares the digits below it as well. -/
theorem land_nibble_eq_iff (x k : ℕ) :
    x &&& (15 * 2 ^ k) = 15 * 2 ^ k ↔ 15 * 2 ^ k ≤ x % (2 ^ k * 16) := by
  have hk : 0 < 2 ^ k := Nat.two_pow_pos k
  have hlow := Nat.mod_lt x hk
  have hdig := Nat.mod_lt (x / 2 ^ k) (show 0 < 16 by norm_num)
  rw [land_nibble, Nat.mul_left_inj hk.ne', Nat.mod_mul]
  constructor
  · intro h
    rw [h]
    omega
  · intro h
    by_contra hne
    have h₁ : x / 2 ^ k % 16 ≤ 14 := by omega
    have h₂ := Nat.mul_le_mul_left (2 ^ k) h₁
    omega

theorem Fatn.link_fat16 {x : ℕ} (hx : x < 2 ^ 16) :
    Fatn.fat16.link x = if x &&& 0xF000 = 0xF000 then 0 else x := by
  have hm := land_nibble_eq_iff x 12
  norm_num only at hm
  simp only [link, limit, span, hm, Nat.mod_eq_of_lt hx, Nat.mod_eq_of_lt (show x < 65536 from hx)]

theorem Fatn.link_fat32 (x : ℕ) :
    Fatn.fat32.link x = if x &&& 0x0F000000 = 0x0F000000 then 0 else x &&& 0x0FFFFFFF := by
  have hm := land_nibble_eq_iff x 24
  have hlow := Nat.and_two_pow_sub_one_eq_mod x 28
  norm_num only at hm hlow
  simp only [link, limit, span, hm, hlow]
  rfl

namespace Volume
variable (v : Volume)

theorem nextCluster16_eq (c : ℕ) :
    v.nextCluster16 c = if HasCell 2 v.fatTable (c % 2 ^ 16) then
      .ok (Fatn.fat16.link (cell 2 v.fatTable (c % 2 ^ 16))) else .error .outside := by
  unfold nextCluster16 fetch
  by_cases hc : HasCell 2 v.fatTable (c % 2 ^ 16)
  · rw [if_pos hc, ok_bind]
    rw [Fatn.link_fat16 ((cell_lt 2 v.fatTable _).trans_eq (by norm_num))]
    split_ifs <;> rfl
  · rw [if_neg hc, if_neg hc, error_bind]

theorem nextCluster32_eq (c : ℕ) :
    v.nextCluster32 c = if HasCell 4 v.fatTable c then
      .ok (Fatn.fat32.link (cell 4 v.fatTable c)) else .error .outside := by
  unfold nextCluster32 fetch
  by_cases hc : HasCell 4 v.fatTable c
  · rw [if_pos hc, ok_bind]
    rw [Fatn.link_fat32]
    split_ifs <;> rfl
  · rw [if_neg hc, if_neg hc, error_bind]

theorem nextCluster_eq (c : ℕ) :
    v.nextCluster c =
      if HasCell v.fatn.width v.fatTable (v.fatn.index c) then
        .ok (v.fatn.link (cell v.fatn.width v.fatTable (v.fatn.index c)))
      else .error .outside := by
  unfold nextCluster
  cases v.fatn with
  | fat16 => exact v.nextCluster16_eq c
  | fat32 => exact v.nextCluster32_eq c

theorem nextCluster_ok_iff {c d : ℕ} :
    v.nextCluster c = .ok d ↔ HasCell v.fatn.width v.fatTable (v.fatn.index c) ∧
      d = v.fatn.link (cell v.fatn.width v.fatTable (v.fatn.index c)) := by
  rw [nextCluster_eq]
  split_ifs with h
  · simp [h, eq_comm]
  · simp [h]

theorem changeCluster_eq (c x : ℕ) :
    v.changeCluster c x = v.store v.fatn.width (v.fatn.index c) x := by
  unfold changeCluster
  cases v.fatn with
  | fat16 =>
      have hm (t : Bytes) : setCell 2 t (c % 2 ^ 16) (x % 2 ^ 16) = setCell 2 t (c % 2 ^ 16) x :=
        setCell_mod 2 t _ x
      simp only [changeCluster16, store, hm, Fatn.width, Fatn.index]
      rfl
  | fat32 => rfl

theorem changeCluster_of_hasCell {c : ℕ} (x : ℕ)
    (h : HasCell v.fatn.width v.fatTable (v.fatn.index c))
    (hb : HasCell v.fatn.width v.fatTableBak (v.fatn.index c)) :
    v.changeCluster c x = .ok { v with
      fatTable := setCell v.fatn.width v.fatTable (v.fatn.index c) x
      fatTableBak := setCell v.fatn.width v.fatTableBak (v.fatn.index c) x } := by
  rw [changeCluster_eq, store, if_pos ⟨h, hb⟩]

/-- The clusters that the program's walk from `c` visits. -/
abbrev Chain (c : ℕ) (l : List ℕ) : Prop := Follows v.nextCluster 0 c l

/-- The step budget of a chain walk; a walk that exhausts it has no end. -/
def fuel : ℕ := v.fatTable.length + 2

theorem Chain.lt_of_lt {v : Volume} {c : ℕ} {l : List ℕ} (h : v.Chain c l)
    (hc : c < v.fatn.span) {x : ℕ} (hx : x ∈ l) : x < v.fatn.span := by
  induction h with
  | stop => simp at hx
  | step _ hd _ ih =>
      rcases List.mem_cons.mp hx with rfl | hx
      · exact hc
      · rw [nextCluster_ok_iff] at hd
        exact ih (hd.2 ▸ v.fatn.link_lt _) hx

theorem Chain.length_le {v : Volume} {c : ℕ} {l : List ℕ} (h : v.Chain c l)
    (hc : c < v.fatn.span) : l.length ≤ v.fatTable.length := by
  refine Follows.length_le h fun x hx => ?_
  obtain ⟨d, hd⟩ := h.next_ok hx
  rw [nextCluster_ok_iff, v.fatn.index_of_lt (h.lt_of_lt hc hx)] at hd
  exact hd.1.lt_length v.fatn.width_pos

theorem Chain.length_lt_fuel {v : Volume} {c : ℕ} {l : List ℕ} (h : v.Chain c l) :
    l.length < v.fuel := by
  cases h with
  | stop => simp [fuel]
  | step _ hd h =>
      have hd' := (v.nextCluster_ok_iff).mp hd
      have hl := Chain.length_le h (hd'.2 ▸ v.fatn.link_lt _)
      simp only [List.length_cons, fuel]
      omega

/-- The clusters visited by `while (cluster) { ...; cluster = next_cluster(cluster); }`. -/
def clusters (c : ℕ) : Except Fault (List ℕ) := trail v.nextCluster 0 .endless v.fuel c

theorem clusters_eq_ok_iff {c : ℕ} {l : List ℕ} : v.clusters c = .ok l ↔ v.Chain c l :=
  ⟨follows_of_trail, fun h => trail_of_follows h (Chain.length_lt_fuel h)⟩

/-- A loop over a finite chain is the fold of its body. -/
theorem along_of_chain {σ : Type} {body : σ → ℕ → Except Fault σ} {c : ℕ} {l : List ℕ}
    (h : v.Chain c l) (s : σ) :
    along v.nextCluster 0 .endless body v.fuel c s = l.foldlM body s :=
  along_of_follows h (Chain.length_lt_fuel h)

end Volume

end TFAT.ClusterTable
