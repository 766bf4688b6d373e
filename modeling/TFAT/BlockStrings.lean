import TFAT.BlockWriters
import TFAT.EntryNames

/-!
# Strings in blocks of memory

The calls of string.h on a block that ends: each of them is a fault where it would touch a
byte outside. `Builds` says of a computation that it leaves a given string in a block of a
given size if the string and its zero fit, and that it is a fault if they do not. There is
one rule for each call and one for sequences.
-/
namespace TFAT.BlockStrings
open ByteRegions LittleEndianWords DiskLayout FileDescriptor PathText EntryNames BlockWriters

/-- A length that is kept in an `int`. One that is too large for it is a fault. -/
def toInt (n : ℕ) : Except Fault ℕ := if n < 2 ^ 31 then .ok n else .error .wild

def strlen (block : Bytes) : Except Fault ℕ :=
  if 0 ∈ block then .ok (cString block).length else .error .wild

def byteAt (block : Bytes) (i : ℕ) : Except Fault UInt8 :=
  match block[i]? with
  | some b => .ok b
  | none => .error .wild

/-- `block[strlen(block) - 1]`. -/
def lastByte (block : Bytes) : Except Fault UInt8 := do
  match ← strlen block with
  | 0 => .error .wild
  | n + 1 => byteAt block n

def strcpy (block : Bytes) (t : Text) : Except Fault Bytes := copyIn block 0 (t ++ [0])

def strcat (block : Bytes) (t : Text) : Except Fault Bytes := do
  let n ← strlen block
  copyIn block n (t ++ [0])

/-- The block starts with the string and its zero. -/
structure Holds (block : Bytes) (t : Text) : Prop where
  zero : 0 ∉ t
  front : t ++ [0] <+: block

/-- The computation leaves the string in a block of `room` bytes, or fails where it does
not fit. -/
structure Builds (x : Except Fault Bytes) (room : ℕ) (t : Text) : Prop where
  fits : t.length < room → ∃ b, x = .ok b ∧ b.length = room ∧ Holds b t
  spills : room ≤ t.length → ∃ e, x = .error e

section Reading
variable {block : Bytes} {t : Text} {n i : ℕ}

theorem toInt_of_lt (h : n < 2 ^ 31) : toInt n = .ok n := if_pos h

theorem cString_of_notMem (h : 0 ∉ t) (rest : Bytes) : cString (t ++ 0 :: rest) = t := by
  induction t with
  | nil => rfl
  | cons b t ih =>
      rw [List.mem_cons, not_or] at h
      rw [List.cons_append, cString, List.takeWhile_cons_of_pos (by simpa using Ne.symm h.1)]
      exact congrArg _ (ih h.2)

theorem Holds.eq_append (h : Holds block t) : ∃ rest, block = t ++ 0 :: rest := by
  obtain ⟨rest, hrest⟩ := h.front
  exact ⟨rest, by rw [← hrest, List.append_assoc, List.singleton_append]⟩

theorem Holds.length_lt (h : Holds block t) : t.length < block.length := by
  have hle := h.front.length_le
  rw [List.length_append, List.length_singleton] at hle
  exact hle

theorem Holds.cString_eq (h : Holds block t) : cString block = t := by
  obtain ⟨rest, rfl⟩ := h.eq_append
  exact cString_of_notMem h.zero rest

theorem Holds.strlen_eq (h : Holds block t) : strlen block = .ok t.length := by
  have hc := h.cString_eq
  obtain ⟨rest, rfl⟩ := h.eq_append
  rw [strlen, if_pos (by simp), hc]

theorem Holds.byteAt_eq (h : Holds block t) (hi : i ≤ t.length) :
    byteAt block i = .ok (t.getD i 0) := by
  obtain ⟨rest, rfl⟩ := h.eq_append
  rw [byteAt, List.getD_eq_getElem?_getD]
  rcases Nat.lt_or_eq_of_le hi with hlt | rfl
  · rw [List.getElem?_append_left hlt, List.getElem?_eq_getElem hlt]
    rfl
  · rw [List.getElem?_append_right le_rfl, Nat.sub_self, List.getElem?_eq_none le_rfl]
    rfl

theorem Holds.lastByte_eq (h : Holds block t) {b : UInt8} (hb : t.getLast? = some b) :
    lastByte block = .ok b := by
  obtain ⟨u, rfl⟩ := List.getLast?_eq_some_iff.mp hb
  rw [lastByte, h.strlen_eq, ok_bind, List.length_append, List.length_singleton]
  simp only
  rw [h.byteAt_eq (by simp), List.getD_eq_getElem?_getD, List.getElem?_append_right le_rfl,
    Nat.sub_self]
  rfl

theorem Holds.take_prefix (h : Holds block t) (n : ℕ) : t.take n <+: block :=
  (List.take_prefix n t).trans ((List.prefix_append t [0]).trans h.front)

theorem Holds.realloc (h : Holds block t) (fill : ℕ → UInt8) (hn : t.length < n) :
    Holds (realloc fill block n) t := by
  obtain ⟨rest, hrest⟩ := h.front
  refine ⟨h.zero, ?_⟩
  have hlen : (t ++ [0]).length ≤ n := by
    rw [List.length_append, List.length_singleton]
    exact hn
  rw [FileDescriptor.realloc, ← hrest, List.take_append, List.take_of_length_le hlen,
    List.append_assoc]
  exact List.prefix_append _ _

end Reading

section Writing
variable {block front : Bytes} {t u : Text} {n room room' : ℕ} {x : Except Fault Bytes}
variable {f : Bytes → Except Fault Bytes}

theorem builds_copyIn (hf : front <+: block) (h₀ : 0 ∉ front ++ u) :
    Builds (copyIn block front.length (u ++ [0])) block.length (front ++ u) := by
  refine ⟨fun hlt => ?_, fun hle => ?_⟩
  · rw [List.length_append] at hlt
    obtain ⟨b, hb, hl, hp⟩ := prefix_copyIn (t := u ++ [0]) hf (by
      rw [List.length_append, List.length_singleton]
      omega)
    exact ⟨b, hb, hl, h₀, by rwa [List.append_assoc]⟩
  · rw [List.length_append] at hle
    exact ⟨_, copyIn_of_lt (by simp) (by simp; omega)⟩

theorem builds_strcpy (h₀ : 0 ∉ t) : Builds (strcpy block t) block.length t :=
  builds_copyIn (List.nil_prefix : [] <+: block) h₀

theorem holds_strcpy_malloc (fill : ℕ → UInt8) (h₀ : 0 ∉ t) (hn : t.length < n) :
    ∃ b, strcpy (malloc fill n) t = .ok b ∧ b.length = n ∧ Holds b t := by
  obtain ⟨b, hb, hl, hh⟩ := (builds_strcpy h₀).fits ((length_malloc fill n).symm ▸ hn)
  exact ⟨b, hb, hl.trans (length_malloc fill n), hh⟩

theorem Holds.builds_strcat (h : Holds block t) (h₀ : 0 ∉ u) :
    Builds (strcat block u) block.length (t ++ u) := by
  rw [strcat, h.strlen_eq, ok_bind]
  refine builds_copyIn ((List.prefix_append t [0]).trans h.front) ?_
  rw [List.mem_append, not_or]
  exact ⟨h.zero, h₀⟩

/-- A second zero behind a string leaves room for one more character. -/
theorem Holds.copyIn_zero (h : Holds block t) (hfit : t.length + 1 < block.length) :
    ∃ tail, copyIn block (t.length + 1) [0] = .ok (t ++ 0 :: 0 :: tail) ∧
      (t ++ 0 :: 0 :: tail).length = block.length := by
  have hz : t.length + 1 + [(0 : UInt8)].length ≤ block.length := by
    rw [List.length_singleton]
    omega
  have hlen : (splice 0 block (t.length + 1) [0]).length = block.length := length_splice_of_le hz
  obtain ⟨rest, hblock⟩ := h.eq_append
  obtain ⟨d, tail, rfl⟩ : ∃ d tail, rest = d :: tail := by
    cases rest with
    | nil => simp [hblock] at hz
    | cons d tail => exact ⟨d, tail, rfl⟩
  have hstored : splice 0 block (t.length + 1) [0] = t ++ 0 :: 0 :: tail := by
    have hm := splice_append_middle (z := (0 : UInt8)) (a := t ++ [0]) (r := [d])
      (c := tail) (d := [0]) rfl
    rw [List.length_append, List.length_singleton] at hm
    rw [hblock]
    simpa using hm
  exact ⟨tail, by rw [copyIn_of_le hz, hstored], by rw [← hstored, hlen]⟩

theorem copyIn_over_zero (t tail : Bytes) (c : UInt8) :
    copyIn (t ++ 0 :: 0 :: tail) t.length [c] = .ok (t ++ [c] ++ 0 :: tail) := by
  have hm := splice_append_middle (z := (0 : UInt8)) (a := t) (r := [0])
    (c := 0 :: tail) (d := [c]) rfl
  rw [copyIn_of_le (by simp)]
  simpa using hm

/-- A computation goes on with what the first part of it has built. -/
theorem Builds.bind (hx : Builds x room t)
    (hf : ∀ b, b.length = room → Holds b t → Builds (f b) room' u)
    (hroom : room ≤ t.length → room' ≤ u.length) : Builds (x >>= f) room' u := by
  rcases Nat.lt_or_ge t.length room with hlt | hge
  · obtain ⟨b, rfl, hb, hh⟩ := hx.fits hlt
    exact hf b hb hh
  · obtain ⟨e, rfl⟩ := hx.spills hge
    exact ⟨fun hlt => absurd hlt (by have := hroom hge; omega), fun _ => ⟨e, rfl⟩⟩

theorem Builds.of_eq_ok {b : Bytes} (h : Builds x room t) (hb : x = .ok b) :
    t.length < room ∧ b.length = room ∧ Holds b t := by
  rcases Nat.lt_or_ge t.length room with hlt | hge
  · obtain ⟨c, hc, hlen, hh⟩ := h.fits hlt
    rw [hb, Except.ok.injEq] at hc
    exact ⟨hlt, hc ▸ hlen, hc ▸ hh⟩
  · obtain ⟨e, he⟩ := h.spills hge
    rw [hb] at he
    cases he

end Writing

end TFAT.BlockStrings
