import TFAT.ClusterTable
import TFAT.FileDescriptor
import TFAT.PathText

/-!
# Long file names

The parser of lfn.c. Slots that stand in front of a short entry each carry
thirteen 16-bit characters. The parser collects them in a block that the first
slot sizes, and it keeps its state in globals between one directory and the
next. How the locale turns a character into bytes is a parameter, `wcstombs`:
the bytes of a character, or nothing where the conversion fails.
-/
namespace TFAT.LongNames
open ByteRegions LittleEndianWords DiskLayout ClusterTable FileDescriptor PathText

def lfnIdStart : UInt8 := 0x40
def lfnIdSlotmask : UInt8 := 0x1F
def vfatLnAttr : UInt8 := 0x0F
def charsPerLfn : ℕ := 13

def until0 : ℕ := 2 ^ 31 - 1

/-- The globals of the parser. A block of offsets is an array of 32-bit words. -/
structure LfnState where
  unicode : Option Bytes
  checksum : UInt8
  slot : ℤ
  offsets : Option Bytes
  parts : ℕ
  deriving DecidableEq

def LfnState.initial : LfnState := ⟨none, 0, -1, none, 0⟩

def fatUni2esc : Text := List.map UInt8.ofNat
  (List.range' 48 10 ++ List.range' 65 26 ++ List.range' 97 26 ++ [43, 45])

def escape (n : ℕ) : UInt8 := fatUni2esc.getD (n % 64) 0

variable (fill : ℕ → UInt8) (wcstombs : ℕ → Option Text)

/-- What `cnv_unicode` makes of one character. -/
def convertUnit (lo hi : UInt8) : Text :=
  let val := lo.toNat + 256 * hi.toNat
  match wcstombs val with
  | some t => t
  | none =>
      if hi = 0 ∧ (lo < 0x80 ∨ 0xA0 ≤ lo) then [lo]
      else [58, escape (val / 4096), escape (val / 64), escape val]

/-- The loops of `cnv_unicode` over the characters of a block. -/
def convertUnits : Bytes → ℕ → Except Fault Text
  | _, 0 => .ok []
  | lo :: hi :: rest, maxlen + 1 =>
      if lo = 0 ∧ hi = 0 then .ok []
      else do
        let t ← convertUnits rest maxlen
        .ok (convertUnit wcstombs lo hi ++ t)
  | _, _ => .error .wild

/-- `cnv_unicode(lfn_unicode + off, maxlen, _)`. -/
def cnvUnicode (unicode : Option Bytes) (off maxlen : ℕ) : Except Fault Text :=
  match unicode with
  | none => .error .null
  | some b => convertUnits wcstombs (b.drop off) maxlen

/-- The 26 bytes of characters of a slot, as `copy_lfn_part` joins them. -/
def copyLfnPart (de : FatDirLayout) : Bytes :=
  slice de.bytes 1 10 ++ slice de.bytes 14 12 ++ slice de.bytes 28 4

def lfnReset (s : LfnState) : LfnState := { s with unicode := none, offsets := none, slot := -1 }

def isLfn (attr : UInt8) : Bool := attr == vfatLnAttr

/-- `lfn_check_orphaned`, with the name that it prints. -/
def lfnCheckOrphaned (s : LfnState) : Except Fault (LfnState × List Text) :=
  if s.slot = -1 then .ok (s, [])
  else do
    let t ← cnvUnicode wcstombs s.unicode (s.slot.toNat * charsPerLfn * 2) (s.parts * charsPerLfn)
    .ok (lfnReset s, [t])

/-- `lfn_add_slot`, with the names of orphaned parts that it prints. -/
def lfnAddSlot (s : LfnState) (de : FatDirLayout) (dirOffset : ℕ) :
    Except Fault (LfnState × List Text) := do
  let id := de.nameHead
  let slot := (id &&& lfnIdSlotmask).toNat
  let (s, orphans) ← if s.slot = 0 then lfnCheckOrphaned wcstombs s else .ok (s, [])
  if de.attr != vfatLnAttr then .error .died
  else do
    let s : LfnState :=
      if id &&& lfnIdStart != 0 ∧ slot ≠ 0 then
        { unicode := some (malloc fill ((slot * charsPerLfn + 1) * 2))
          checksum := UInt8.ofNat (value (slice de.bytes 13 1))
          slot := slot
          offsets := some (malloc fill (slot * 4))
          parts := 0 }
      else s
    if s.slot = -1 then .ok (s, orphans)
    else
      match s.unicode, s.offsets with
      | some unicode, some offsets => do
          let offset := (s.slot - 1).toNat * charsPerLfn * 2
          let unicode ← copyIn unicode offset (copyLfnPart de)
          let unicode ←
            if id &&& lfnIdStart != 0 then copyIn unicode (offset + 26) [0, 0] else .ok unicode
          if HasCell 4 offsets s.parts then
            .ok ({ s with
              unicode := some unicode
              slot := s.slot - 1
              offsets := some (setCell 4 offsets s.parts dirOffset)
              parts := s.parts + 1 }, orphans)
          else .error .wild
      | _, _ => .error .null

/-- `lfn_offsets[0]`. -/
def firstOffset (offsets : Bytes) : Except Fault ℕ :=
  if HasCell 4 offsets 0 then .ok (cell 4 offsets 0) else .error .wild

/-- `lfn_get`: the long name, and the offset of its first slot. -/
def lfnGet (s : LfnState) (de : FatDirLayout) : Except Fault (LfnState × Option (Text × ℕ)) :=
  if de.attr = vfatLnAttr then .error .died
  else if s.slot ≠ 0 then .ok (lfnReset s, none)
  else
    match s.offsets with
    | none => .error .null
    | some offsets => do
        let off ← firstOffset offsets
        let t ← cnvUnicode wcstombs s.unicode 0 until0
        .ok (lfnReset s, some (t, off))

end TFAT.LongNames
