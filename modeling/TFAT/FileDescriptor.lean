import TFAT.DiskLayout

/-!
# Files, blocks of memory and the calls that move bytes between them

A file is its bytes, and an open descriptor adds a position. A read transfers
the bytes there are, up to the requested count, and moves the position by what
it transferred. A block of memory is the bytes it holds; a fresh block holds
whatever `fill` says, and no result below depends on it. A transfer that would
touch a byte outside its block is a fault. Allocation itself never fails here.
-/
namespace TFAT.FileDescriptor
open ByteRegions LittleEndianWords DiskLayout

/-- A fresh block of `n` bytes. -/
def malloc (fill : ℕ → UInt8) (n : ℕ) : Bytes := (List.range n).map fill

@[simp] theorem length_malloc (fill : ℕ → UInt8) (n : ℕ) : (malloc fill n).length = n := by
  simp [malloc]

/-- Keep what fits of a block and extend it with fresh bytes to `n` of them. -/
def realloc (fill : ℕ → UInt8) (block : Bytes) (n : ℕ) : Bytes :=
  block.take n ++ (malloc fill n).drop block.length

@[simp] theorem length_realloc (fill : ℕ → UInt8) (block : Bytes) (n : ℕ) :
    (realloc fill block n).length = n := by
  simp only [realloc, List.length_append, List.length_take, List.length_drop, length_malloc]
  omega

theorem realloc_of_le (fill : ℕ → UInt8) {block : Bytes} {n : ℕ} (h : block.length ≤ n) :
    realloc fill block n = block ++ (malloc fill n).drop block.length := by
  rw [realloc, List.take_of_length_le h]

/-- Store the transferred bytes into a block. Nothing is stored where none came. -/
def copyIn (block : Bytes) (off : ℕ) (got : Bytes) : Except Fault Bytes :=
  if got.length = 0 ∨ off + got.length ≤ block.length then .ok (splice 0 block off got)
  else .error .wild

/-- Take the `n` bytes at an offset of a block. -/
def copyOut (block : Bytes) (off n : ℕ) : Except Fault Bytes :=
  if off + n ≤ block.length then .ok (slice block off n) else .error .wild

/-- `memcpy(dst, src, n)`. -/
def memcpy (dst src : Bytes) (n : ℕ) : Except Fault Bytes := do
  let data ← copyOut src 0 n
  copyIn dst 0 data

theorem copyOut_of_le {block : Bytes} {off n : ℕ} (h : off + n ≤ block.length) :
    copyOut block off n = .ok (slice block off n) :=
  if_pos h

theorem copyOut_eq_ok_iff {block b : Bytes} {off n : ℕ} :
    copyOut block off n = .ok b ↔ off + n ≤ block.length ∧ b = slice block off n := by
  unfold copyOut
  split_ifs with h <;> simp [h, eq_comm]

theorem copyIn_of_le {block got : Bytes} {off : ℕ} (h : off + got.length ≤ block.length) :
    copyIn block off got = .ok (splice 0 block off got) :=
  if_pos (.inr h)

theorem copyIn_of_lt {block got : Bytes} {off : ℕ} (hne : got ≠ [])
    (h : block.length < off + got.length) : copyIn block off got = .error .wild := by
  have hpos := List.length_pos_iff.mpr hne
  exact if_neg (by omega)

theorem length_copyIn {block got b : Bytes} {off : ℕ} (h : copyIn block off got = .ok b) :
    b.length = block.length := by
  unfold copyIn at h
  split_ifs at h with hg
  rw [← Except.ok.inj h, length_splice]
  split_ifs <;> omega

/-- A transfer fails in no other way than by leaving its block. -/
theorem copyIn_ne_error {e : Fault} (he : e ≠ .wild) (block : Bytes) (off : ℕ) (got : Bytes) :
    copyIn block off got ≠ .error e := by
  unfold copyIn
  split_ifs
  · exact ok_ne_error _ _
  · exact fun h => he (Except.error.inj h).symm

theorem copyOut_ne_error {e : Fault} (he : e ≠ .wild) (block : Bytes) (off n : ℕ) :
    copyOut block off n ≠ .error e := by
  unfold copyOut
  split_ifs
  · exact ok_ne_error _ _
  · exact fun h => he (Except.error.inj h).symm

theorem memcpy_self {dst src : Bytes} (h : dst.length = src.length) :
    memcpy dst src src.length = .ok src := by
  have h₁ : copyOut src 0 src.length = .ok src := by
    rw [copyOut_of_le (by omega), slice_zero_length]
  rw [memcpy, h₁, ok_bind, copyIn_of_le (by omega), splice_all h.symm]

structure Descriptor where
  bytes : Bytes
  pos : ℕ
  deriving DecidableEq

namespace Descriptor
variable (d : Descriptor)

/-- `lseek(fd, off, SEEK_SET)`. -/
def seekSet (off : ℕ) : Descriptor := { d with pos := off }

/-- `lseek(fd, off, SEEK_CUR)`; every offset of the program is unsigned. -/
def seekCur (off : ℕ) : Descriptor := { d with pos := d.pos + off }

/-- What `read(fd, _, n)` transfers from the file. -/
def available (n : ℕ) : Bytes := slice d.bytes d.pos n

/-- The position that a read of `n` bytes leaves. -/
def advance (n : ℕ) : Descriptor := { d with pos := d.pos + (d.available n).length }

/-- `read(fd, block + off, n)`. -/
def readInto (block : Bytes) (off n : ℕ) : Except Fault (Bytes × Descriptor) := do
  let b ← copyIn block off (d.available n)
  .ok (b, d.advance n)

def load (fill : ℕ → UInt8) (n : ℕ) : Bytes := splice 0 (malloc fill n) 0 (d.available n)

/-- `write(fd, data, n)` with `n` bytes of data. -/
def write (data : Bytes) : Descriptor :=
  ⟨splice 0 d.bytes d.pos data, d.pos + data.length⟩

@[simp] theorem seekSet_pos (off : ℕ) : (d.seekSet off).pos = off := rfl
@[simp] theorem advance_bytes (n : ℕ) : (d.advance n).bytes = d.bytes := rfl
@[simp] theorem write_pos (data : Bytes) : (d.write data).pos = d.pos + data.length := rfl

@[simp] theorem length_load (fill : ℕ → UInt8) (n : ℕ) : (d.load fill n).length = n := by
  have h := length_slice_le d.bytes d.pos n
  rw [load, length_splice_of_le (by rw [length_malloc, available]; omega), length_malloc]

variable {d} {n : ℕ}

theorem length_available (h : d.pos + n ≤ d.bytes.length) : (d.available n).length = n :=
  length_slice_of_le h

theorem advance_eq (h : d.pos + n ≤ d.bytes.length) : d.advance n = ⟨d.bytes, d.pos + n⟩ := by
  rw [advance, length_available h]

theorem load_eq (fill : ℕ → UInt8) (h : d.pos + n ≤ d.bytes.length) :
    d.load fill n = slice d.bytes d.pos n := by
  have hs := slice_splice_self 0 (malloc fill n) 0 (d.available n)
  have hl := d.length_load fill n
  rw [length_available h] at hs
  rw [load] at hl ⊢
  rw [← slice_zero_length (splice 0 (malloc fill n) 0 (d.available n)), hl, hs, available]

theorem take_load (fill : ℕ → UInt8) {m : ℕ} (h : n ≤ m) :
    (d.load fill m).take n = d.load fill n := by
  have hload (k : ℕ) : d.load fill k =
      d.available k ++ (malloc fill k).drop (d.available k).length := by
    rw [load, splice]
    split_ifs with hd
    · rw [List.eq_nil_of_length_eq_zero hd, List.nil_append, List.length_nil, List.drop_zero]
    · rw [List.take_zero, List.nil_append, Nat.zero_add]
  have hsub : (d.available m).take n = d.available n := by
    rw [available, slice, List.take_take, Nat.min_eq_left h, available, slice]
  have hmalloc : (malloc fill m).take n = malloc fill n := by
    rw [malloc, ← List.map_take, List.take_range, Nat.min_eq_left h, malloc]
  have hlen : (d.available n).length = min n (d.available m).length := by
    rw [← hsub, List.length_take]
  rw [hload, hload, List.take_append, hsub, List.take_drop]
  rcases Nat.le_total (d.available m).length n with hle | hle
  · rw [Nat.add_sub_cancel' hle, hmalloc, hlen, Nat.min_eq_right hle]
  · rw [Nat.sub_eq_zero_of_le hle, Nat.add_zero, List.drop_eq_nil_of_le (List.length_take_le _ _),
      hlen, Nat.min_eq_left hle, List.drop_eq_nil_of_le (length_malloc fill n).le]

theorem readInto_eq_ok_iff {block : Bytes} {off : ℕ} {r : Bytes × Descriptor} :
    d.readInto block off n = .ok r ↔
      copyIn block off (d.available n) = .ok r.1 ∧ r.2 = d.advance n := by
  rw [readInto, bind_eq_ok]
  constructor
  · rintro ⟨b, hb, hr⟩
    rw [← Except.ok.inj hr]
    exact ⟨hb, rfl⟩
  · rintro ⟨hb, hr⟩
    exact ⟨r.1, hb, by rw [← hr]⟩

theorem readInto_all {block : Bytes} (h : d.pos + n ≤ d.bytes.length) (hb : block.length = n) :
    d.readInto block 0 n = .ok (slice d.bytes d.pos n, ⟨d.bytes, d.pos + n⟩) := by
  have hl : (slice d.bytes d.pos n).length = block.length := by
    rw [hb]
    exact length_available h
  rw [readInto, advance_eq h, available, copyIn_of_le (by omega), ok_bind, splice_all hl]

theorem seekCur_readInto_all {block : Bytes} {m : ℕ} (h : d.pos + m + n ≤ d.bytes.length)
    (hb : block.length = n) :
    (d.seekCur m).readInto block 0 n =
      .ok (slice d.bytes (d.pos + m) n, ⟨d.bytes, d.pos + m + n⟩) :=
  readInto_all h hb

end Descriptor

end TFAT.FileDescriptor
