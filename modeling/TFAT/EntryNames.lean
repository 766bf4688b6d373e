import Mathlib.Data.List.DropRight
import TFAT.DiskLayout
import TFAT.PathText

/-!
# Displayed names and attributes of directory entries

The short name of an entry as the program prints and compares it. The eight and
three bytes of the name are copied into zero-terminated strings, so a zero
byte among them ends the string, and blanks at the end are cut off.
-/
namespace TFAT.EntryNames
open ByteRegions LittleEndianWords DiskLayout PathText

/-- The bytes of a zero-terminated string. -/
def cString (b : Bytes) : Text := b.takeWhile (· != 0)

def tolower (b : UInt8) : UInt8 := if 65 ≤ b ∧ b ≤ 90 then b + 32 else b

def rtrim (t : Text) : Text := t.rdropWhile (· == 0x20)

/-- The byte that stands for `name[0]`. -/
def headChar (b : UInt8) (lower : Bool) : UInt8 :=
  if b = 0xE5 then question
  else if b = 0x05 then 0xE5
  else if lower then tolower b else b

/-- `get_name`, which has no name for an entry that was never used. -/
def getName (name : Bytes) (caseInformation : UInt8) : Option Text :=
  let lower := caseInformation &&& 0x08 != 0
  match name with
  | [] => none
  | b :: bs =>
      if b = 0 then none
      else some (rtrim (cString
        (headChar b lower :: bs.map fun b => if lower then tolower b else b)))

def getExtension (extention : Bytes) (caseInformation : UInt8) : Text :=
  let lower := caseInformation &&& 0x10 != 0
  rtrim (cString (extention.map fun b => if lower then tolower b else b))

def getAttr (attr : UInt8) : Text :=
  [if attr &&& 0x01 != 0 then 82 else 45, if attr &&& 0x02 != 0 then 72 else 45,
    if attr &&& 0x04 != 0 then 83 else 45, if attr &&& 0x08 != 0 then 86 else 45,
    if attr &&& 0x10 != 0 then 68 else 45, if attr &&& 0x20 != 0 then 65 else 45]

/-- The name under which a directory is found. -/
def baseName (e : FatDirLayout) : Option Text := getName e.name e.caseInformation

/-- The name under which a file is found. -/
def fullName (e : FatDirLayout) : Option Text :=
  (baseName e).map fun t => t ++ [dot] ++ getExtension e.extention e.caseInformation

/-- The test that `search` makes of one entry: a nonempty file under its full
name, a directory under its base name. -/
def matchesTerm (e : FatDirLayout) (term : Text) : Bool :=
  (e.fileSize != 0 && !isSpecial e.attr && fullName e == some term) ||
    (isDirectory e.attr && baseName e == some term)

theorem name_eq_cons (e : FatDirLayout) : ∃ bs, e.name = e.nameHead :: bs := by
  have hl : e.name.length = 8 := by
    rw [FatDirLayout.name, length_slice, e.length_bytes]
    rfl
  have h₁ : slice e.bytes 0 1 = slice e.name 0 1 := (slice_slice e.bytes 0 8 0 1 (by norm_num)).symm
  cases hn : e.name with
  | nil =>
      rw [hn] at hl
      simp at hl
  | cons b bs =>
      refine ⟨bs, ?_⟩
      rw [FatDirLayout.nameHead, h₁, hn]
      simp [slice, value]

theorem baseName_eq_none_iff (e : FatDirLayout) : baseName e = none ↔ e.nameHead = 0 := by
  obtain ⟨bs, hn⟩ := name_eq_cons e
  rw [baseName, hn]
  by_cases h : e.nameHead = 0 <;> simp [getName, h]

/-- An entry that was never used is not found under any name. -/
theorem nameHead_ne_zero_of_matchesTerm {e : FatDirLayout} {term : Text}
    (h : matchesTerm e term) : e.nameHead ≠ 0 := by
  intro h₀
  have hb := (baseName_eq_none_iff e).mpr h₀
  simp [matchesTerm, fullName, hb] at h

end TFAT.EntryNames
