import Mathlib.Tactic.Linarith
import TFAT.VolumeMount

/-!
# The areas in front of the data area

Where the reserved sectors, the copies of the table and the fixed root
directory lie, and what the loops and seeks that both formats share do there.
On a volume whose areas lie below `2 ^ 32` the reader's seeks skip exactly the
copies it does not read, and the writer's loop is one write of all copies.
-/
namespace TFAT.VolumeLayout
open ByteRegions LittleEndianWords DiskLayout ClusterTable FileDescriptor VolumeMount

def storedBoot (img : Bytes) : FatBS := .ofBytes (slice img 0 FatBS.size)

theorem bootSector_eq (fill : ℕ → UInt8) {img : Bytes} (h : FatBS.size ≤ img.length) :
    bootSector fill img = storedBoot img := by
  have hl : (Descriptor.mk img 0).pos + FatBS.size ≤ (Descriptor.mk img 0).bytes.length := by
    rw [Nat.zero_add]
    exact h
  rw [bootSector, Descriptor.load_eq fill hl, storedBoot]

def tablesEnd (b : FatBS) (n : ℕ) : ℕ := reservedBytes b + b.tableCount.toNat * n

theorem two_tables_le {b : FatBS} (n : ℕ) (h : 2 ≤ b.tableCount.toNat) :
    2 * n ≤ b.tableCount.toNat * n :=
  Nat.mul_le_mul_right n h

/-- The conditional seek passes over all copies but two, counting their bytes in
32 bits. -/
theorem skipTables_eq {b : FatBS} {tableSize n : ℕ} (d : Descriptor)
    (hn : sector b * tableSize = n) :
    skipTables b tableSize d = ⟨d.bytes, d.pos + (b.tableCount.toNat - 2) * n % 2 ^ 32⟩ := by
  unfold skipTables
  split_ifs with h
  · rw [Nat.mul_assoc, hn]
    rfl
  · rw [show b.tableCount.toNat - 2 = 0 by omega, Nat.zero_mul, Nat.zero_mod, Nat.add_zero]

theorem writeTables_eq (table img : Bytes) (count p : ℕ)
    (h : p + count * table.length ≤ img.length) :
    writeTables table table.length count ⟨img, p⟩ =
      .ok ⟨splice 0 img p (List.replicate count table).flatten, p + count * table.length⟩ := by
  induction count generalizing img p with
  | zero => simp [writeTables, splice_nil]
  | succ count ih =>
      rw [Nat.succ_mul] at h
      have hlen : (splice 0 img p table).length = img.length :=
        length_splice_of_le (by omega)
      rw [writeTables, copyOut_of_le (by omega), slice_zero_length, ok_bind, Descriptor.write,
        ih _ _ (by simp only [hlen]; omega),
        splice_splice_append (by simp only [length_flatten_replicate]; omega),
        List.replicate_succ, List.flatten_cons, Nat.succ_mul, Nat.add_assoc,
        Nat.add_comm table.length]

end TFAT.VolumeLayout
