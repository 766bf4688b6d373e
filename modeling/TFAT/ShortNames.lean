import TFAT.CurrentNames

/-!
# Reading a short name back

What `search` compares of a file are its eleven name bytes without the blanks that pad the
two parts, with a dot between them, perhaps in lower case. Where the bytes have no dot and
no lower-case letter of their own, they can be read back: each part ends at the dot or at
the end, and its letters are raised again. So two files with different names do not answer
to the same term.
-/
namespace TFAT.ShortNames
open ByteRegions LittleEndianWords DiskLayout PathText EntryNames VolumeTree DirectoryTree
open CurrentNames

/-- The bytes of the name and the extension. -/
def rawName (e : FatDirLayout) : Bytes := slice e.bytes 0 11

/-- `toupper` of an ASCII letter. -/
def upper (b : UInt8) : UInt8 := if 97 ≤ b ∧ b ≤ 122 then b - 32 else b

/-- A part of a name with blanks up to its width. -/
def pad (n : ℕ) (t : Text) : Bytes := t ++ List.replicate (n - t.length) 0x20

/-- The byte 0xE5 in front stands for a stored 0x05. -/
def storedHead : Text → Text
  | [] => []
  | b :: t => (if b = 0xE5 then 0x05 else b) :: t

/-- The eleven bytes that a displayed name is read back as. -/
def decodeName (t : Text) : Bytes :=
  pad 8 (storedHead ((t.takeWhile (· ≠ dot)).map upper)) ++
    pad 3 (((t.dropWhile (· ≠ dot)).drop 1).map upper)

/-- The bytes are a name that VFAT allows; the blanks that pad it are among them. -/
structure ValidName (e : FatDirLayout) : Prop where
  plain : ∀ b ∈ rawName e, b ≠ 0 ∧ b ≠ dot ∧ ¬ (97 ≤ b ∧ b ≤ 122) ∧ b ≠ question
  head_ne_blank : e.nameHead ≠ 0x20
  head_ne_deleted : e.nameHead ≠ 0xE5

def shown (lower : Bool) (b : UInt8) : UInt8 := if lower then tolower b else b

section Bytes
variable {lower : Bool} {b : UInt8} {t : Text}

theorem upper_shown (h : ¬ (97 ≤ b ∧ b ≤ 122)) : upper (shown lower b) = b := by
  have hb : upper b = b := if_neg h
  unfold shown tolower
  split_ifs with hl hu
  · rw [UInt8.le_iff_toNat_le, UInt8.le_iff_toNat_le] at hu
    simp only [UInt8.reduceToNat] at hu
    have hadd : (b + 32).toNat = b.toNat + 32 := by
      rw [UInt8.toNat_add]
      simp only [UInt8.reduceToNat]
      omega
    have hletter : 97 ≤ b + 32 ∧ b + 32 ≤ 122 := by
      rw [UInt8.le_iff_toNat_le, UInt8.le_iff_toNat_le, hadd]
      simp only [UInt8.reduceToNat]
      omega
    rw [upper, if_pos hletter]
    simp
  · exact hb
  · exact hb

theorem shown_eq_iff {c : UInt8} (hc : c.toNat < 65) : shown lower b = c ↔ b = c := by
  unfold shown tolower
  split_ifs with hl hu
  · rw [UInt8.le_iff_toNat_le, UInt8.le_iff_toNat_le] at hu
    simp only [UInt8.reduceToNat] at hu
    rw [← UInt8.toNat_inj, ← UInt8.toNat_inj, UInt8.toNat_add]
    simp only [UInt8.reduceToNat]
    omega
  · rfl
  · rfl

theorem map_upper_shown (h : ∀ b ∈ t, ¬ (97 ≤ b ∧ b ≤ 122)) :
    (t.map (shown lower)).map upper = t := by
  rw [List.map_map]
  conv_rhs => rw [← List.map_id t]
  exact List.map_congr_left fun b hb => upper_shown (h b hb)

theorem cString_map_shown (h : 0 ∉ t) : cString (t.map (shown lower)) = t.map (shown lower) := by
  rw [cString, List.takeWhile_eq_self_iff]
  intro c hc
  obtain ⟨b, hb, rfl⟩ := List.mem_map.mp hc
  simp only [bne_iff_ne]
  exact fun hz => h ((shown_eq_iff (by decide)).mp hz ▸ hb)

theorem rtrim_map_shown (t : Text) : rtrim (t.map (shown lower)) = (rtrim t).map (shown lower) := by
  induction t with
  | nil => rfl
  | cons b t ih =>
      have hb : shown lower b = 0x20 ↔ b = 0x20 := shown_eq_iff (by decide)
      rw [List.map_cons, rtrim_cons, rtrim_cons, ih]
      simp only [List.map_eq_nil_iff, hb]
      split_ifs <;> rfl

/-- The blanks that have been cut off can be put back. -/
theorem pad_rtrim (t : Text) : pad t.length (rtrim t) = t := by
  induction t with
  | nil => rfl
  | cons b t ih =>
      rw [rtrim_cons]
      split_ifs with h
      · rw [h.1] at ih
        rw [pad, List.nil_append, List.length_cons] at *
        rw [h.2, List.length_nil, Nat.sub_zero, List.replicate_succ]
        rw [List.length_nil, Nat.sub_zero] at ih
        rw [ih]
      · rw [pad, List.length_cons, List.length_cons, Nat.add_sub_add_right, List.cons_append]
        exact congrArg _ ih

theorem notMem_rtrim {c : UInt8} (h : c ∉ t) : c ∉ rtrim t :=
  fun hc => h ((List.rdropWhile_prefix _ _).subset hc)

end Bytes

section Names
variable {e d : FatDirLayout} {b : UInt8} {t : Text}

theorem name_append_extention (e : FatDirLayout) : e.name ++ e.extention = rawName e :=
  slice_append_slice e.bytes 0 8 3

theorem length_extention (e : FatDirLayout) : e.extention.length = 3 := by
  rw [FatDirLayout.extention, length_slice, e.length_bytes]
  rfl

theorem ValidName.mem_name (h : ValidName e) (hb : b ∈ e.name) :
    b ≠ 0 ∧ b ≠ dot ∧ ¬ (97 ≤ b ∧ b ≤ 122) ∧ b ≠ question :=
  h.plain b (name_append_extention e ▸ List.mem_append_left _ hb)

theorem ValidName.mem_extention (h : ValidName e) (hb : b ∈ e.extention) :
    b ≠ 0 ∧ b ≠ dot ∧ ¬ (97 ≤ b ∧ b ≤ 122) ∧ b ≠ question :=
  h.plain b (name_append_extention e ▸ List.mem_append_right _ hb)

def nameTail (e : FatDirLayout) : Bytes := slice e.bytes 1 7

theorem ValidName.mem_nameTail (h : ValidName e) (hb : b ∈ nameTail e) :
    b ≠ 0 ∧ b ≠ dot ∧ ¬ (97 ≤ b ∧ b ≤ 122) ∧ b ≠ question :=
  h.mem_name (name_eq e ▸ List.mem_cons_of_mem _ hb)

theorem ValidName.nameHead (h : ValidName e) : e.nameHead ≠ 0 ∧ e.nameHead ≠ dot ∧
    ¬ (97 ≤ e.nameHead ∧ e.nameHead ≤ 122) ∧ e.nameHead ≠ question :=
  h.mem_name (by rw [name_eq]; exact List.mem_cons_self)

theorem headChar_eq (h : b ≠ 0xE5) (lower : Bool) :
    headChar b lower = if b = 0x05 then 0xE5 else shown lower b := by
  rw [headChar, if_neg h]
  rfl

theorem ValidName.headChar_ne (h : ValidName e) (lower : Bool) {c : UInt8}
    (hc : c.toNat < 65) (hne : e.nameHead ≠ c) : headChar e.nameHead lower ≠ c := by
  rw [headChar_eq h.head_ne_deleted]
  split_ifs
  · rintro rfl
    exact absurd hc (by decide)
  · rwa [Ne, shown_eq_iff hc]

theorem ValidName.baseName_eq (h : ValidName e) :
    baseName e = some (headChar e.nameHead (e.caseInformation &&& 0x08 != 0) ::
      (rtrim (nameTail e)).map (shown (e.caseInformation &&& 0x08 != 0))) := by
  have hzero : 0 ∉ nameTail e := fun hz => (h.mem_nameTail hz).1 rfl
  have hc : cString ((nameTail e).map (shown (e.caseInformation &&& 0x08 != 0))) = _ :=
    cString_map_shown hzero
  rw [baseName, name_eq, getName, if_neg h.nameHead.1]
  change some (rtrim (cString (_ :: (nameTail e).map (shown _)))) = _
  rw [cString, List.takeWhile_cons_of_pos
    (by simpa using h.headChar_ne _ (by decide) h.nameHead.1), ← cString, hc, rtrim_cons,
    if_neg fun hb => h.headChar_ne _ (by decide) h.head_ne_blank hb.2, rtrim_map_shown]

theorem ValidName.getExtension_eq (h : ValidName e) :
    getExtension e.extention e.caseInformation =
      (rtrim e.extention).map (shown (e.caseInformation &&& 0x10 != 0)) := by
  have hzero : 0 ∉ e.extention := fun hz => (h.mem_extention hz).1 rfl
  rw [← rtrim_map_shown, ← cString_map_shown hzero]
  rfl

theorem dot_notMem_map_shown {lower : Bool} (h : dot ∉ t) : dot ∉ t.map (shown lower) := by
  intro hd
  obtain ⟨b, hb, hs⟩ := List.mem_map.mp hd
  exact h ((shown_eq_iff (by decide)).mp hs ▸ hb)

theorem ValidName.upper_headChar (h : ValidName e) (lower : Bool) :
    (if upper (headChar e.nameHead lower) = 0xE5 then 0x05
      else upper (headChar e.nameHead lower)) = e.nameHead := by
  rw [headChar_eq h.head_ne_deleted]
  split_ifs with h₁ h₂ h₂
  · exact h₁.symm
  · exact absurd (show upper 0xE5 = 0xE5 by decide) h₂
  · rw [upper_shown h.nameHead.2.2.1] at h₂
    exact absurd h₂ h.head_ne_deleted
  · exact upper_shown h.nameHead.2.2.1

theorem pad_name (e : FatDirLayout) : pad 8 (e.nameHead :: rtrim (nameTail e)) = e.name := by
  have hlen : (nameTail e).length = 7 := by
    rw [nameTail, length_slice, e.length_bytes]
    rfl
  have htail := pad_rtrim (nameTail e)
  rw [hlen] at htail
  rw [name_eq, pad, List.length_cons, List.cons_append, show (8 : ℕ) = 7 + 1 from rfl,
    Nat.add_sub_add_right]
  exact congrArg _ htail

theorem pad_extention (e : FatDirLayout) : pad 3 (rtrim e.extention) = e.extention := by
  rw [← length_extention e, pad_rtrim]

/-- What the name of a file is displayed as has one dot and is read back as the name. -/
theorem ValidName.decodes (h : ValidName e) :
    ∃ t, fullName e = some t ∧ t.count dot = 1 ∧ decodeName t = rawName e := by
  have htail : dot ∉ rtrim (nameTail e) := notMem_rtrim fun hd => (h.mem_nameTail hd).2.1 rfl
  have hext : dot ∉ rtrim e.extention := notMem_rtrim fun hd => (h.mem_extention hd).2.1 rfl
  have hhead := h.headChar_ne (e.caseInformation &&& 0x08 != 0) (c := dot) (by decide)
    h.nameHead.2.1
  have hbase : dot ∉ headChar e.nameHead (e.caseInformation &&& 0x08 != 0) ::
      (rtrim (nameTail e)).map (shown (e.caseInformation &&& 0x08 != 0)) := by
    rw [List.mem_cons, not_or]
    exact ⟨Ne.symm hhead, dot_notMem_map_shown htail⟩
  have hletters {u : Bytes} (hu : ∀ b ∈ u, ¬ (97 ≤ b ∧ b ≤ 122)) (lower : Bool) :
      ((rtrim u).map (shown lower)).map upper = rtrim u :=
    map_upper_shown fun b hb => hu b ((List.rdropWhile_prefix _ _).subset hb)
  refine ⟨_, by rw [fullName, h.baseName_eq, Option.map_some, h.getExtension_eq], ?_, ?_⟩
  · rw [List.count_append, List.count_append, List.count_eq_zero.mpr hbase,
      List.count_eq_zero.mpr (dot_notMem_map_shown hext)]
    rfl
  · rw [List.append_assoc, List.singleton_append, decodeName,
      List.takeWhile_append_of_pos fun c hc => by
        simpa using fun he : c = dot => hbase (he ▸ hc),
      List.takeWhile_cons_of_neg (by simp), List.append_nil,
      List.dropWhile_append_of_pos fun c hc => by
        simpa using fun he : c = dot => hbase (he ▸ hc),
      List.dropWhile_cons_of_neg (by simp), List.drop_succ_cons, List.drop_zero, List.map_cons,
      storedHead, h.upper_headChar, hletters fun b hb => (h.mem_nameTail hb).2.2.1,
      hletters fun b hb => (h.mem_extention hb).2.2.1, pad_name, pad_extention,
      name_append_extention]

/-- The displayed name of an entry that is not deleted determines its name bytes, whatever
letters are lowered, and two files of different names do not answer to one term. -/
theorem fullName_determines (h : ValidName e) :
    (∃ t, fullName e = some t ∧ t.count dot = 1 ∧ decodeName t = rawName e) ∧
      ∀ (d : FatDirLayout) (term : Text), ValidName d → isDirectory e.attr = false →
        isDirectory d.attr = false → rawName d ≠ rawName e →
          ¬ (matchesTerm e term ∧ matchesTerm d term) := by
  refine ⟨h.decodes, fun d term hd he hde hne hm => hne ?_⟩
  have hname {f : FatDirLayout} (hf : isDirectory f.attr = false) (hm : matchesTerm f term) :
      fullName f = some term := by
    simp only [matchesTerm, hf, Bool.false_and, Bool.or_false, Bool.and_eq_true,
      beq_iff_eq] at hm
    exact hm.2
  obtain ⟨t, ht, -, hdec⟩ := h.decodes
  obtain ⟨u, hu, -, hdec'⟩ := hd.decodes
  rw [hname he hm.1, Option.some.injEq] at ht
  rw [hname hde hm.2, Option.some.injEq] at hu
  rw [← hdec, ← hdec', ← ht, ← hu]

def lowered : FatDirLayout where
  bytes := [0x41, 0x20, 0x42] ++ List.replicate 5 0x20 ++ [0x43, 0x20, 0x20, 0x20, 0x18] ++
    List.replicate 15 0 ++ [1, 0, 0, 0]
  length_bytes := rfl

theorem rawName_lowered : rawName lowered =
    [0x41, 0x20, 0x42, 0x20, 0x20, 0x20, 0x20, 0x20, 0x43, 0x20, 0x20] := rfl

theorem lowered_determined :
    (∃ t, fullName lowered = some t ∧ t.count dot = 1 ∧ decodeName t = rawName lowered) ∧
      ∀ (d : FatDirLayout) (term : Text), ValidName d → isDirectory lowered.attr = false →
        isDirectory d.attr = false → rawName d ≠ rawName lowered →
          ¬ (matchesTerm lowered term ∧ matchesTerm d term) :=
  fullName_determines
    ⟨by rw [rawName_lowered]; simp [dot, question], by decide, by decide⟩

end Names

end TFAT.ShortNames
