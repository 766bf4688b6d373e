import Mathlib.Order.Interval.Set.Basic
import TFAT.BlockTraces
import TFAT.LongNameParts

/-!
# Where the parser of long names reads and writes

The functions of lfn.c once more, with each access to the blocks behind `lfn_unicode` and
`lfn_offsets`. Without their traces they are the functions of the parser. The parts that
the parser holds say which bytes of the blocks have been stored, and every call keeps
this, whatever the slots contain: no sequence of calls leaves the blocks or reads a byte
that nothing has stored.
-/
namespace TFAT.LongNameAccesses
open ByteRegions LittleEndianWords DiskLayout ClusterTable FileDescriptor PathText LongNames
open LongNameParts BlockTraces BlockTraces.Traced

/-- The blocks of the parser. -/
inductive LfnBlock where
  | unicode
  | offsets
  deriving DecidableEq

abbrev Lfn := Traced LfnBlock Fault

def storeAt (k : LfnBlock) (block : Bytes) (off : ℕ) (data : Bytes) : Lfn Bytes := do
  emit (.store k off data.length)
  lift (copyIn block off data)

def loadAt (k : LfnBlock) (block : Bytes) (off n : ℕ) : Lfn Bytes := do
  emit (.load k off n)
  lift (copyOut block off n)

section Functions
variable (fill : ℕ → UInt8) (wcstombs : ℕ → Option Text)

/-- One of the loops of `cnv_unicode`, from an offset of the block. -/
def convertUnitsTraced (b : Bytes) : ℕ → ℕ → Lfn Text
  | _, 0 => pure []
  | off, maxlen + 1 => do
      let up ← loadAt .unicode b off 2
      if up = [0, 0] then pure []
      else do
        let t ← convertUnitsTraced b (off + 2) maxlen
        pure (convertUnit wcstombs (up.getD 0 0) (up.getD 1 0) ++ t)

/-- `cnv_unicode`. The first loop counts the bytes that the second one writes. -/
def cnvUnicodeTraced (unicode : Option Bytes) (off maxlen : ℕ) : Lfn Text :=
  match unicode with
  | none => fail .null
  | some b => do
      let _len ← convertUnitsTraced wcstombs b off maxlen
      convertUnitsTraced wcstombs b off maxlen

def lfnResetTraced (s : LfnState) : Lfn LfnState := do
  if s.unicode.isSome then emit (.free .unicode)
  if s.offsets.isSome then emit (.free .offsets)
  pure (lfnReset s)

def lfnCheckOrphanedTraced (s : LfnState) : Lfn (LfnState × List Text) :=
  if s.slot = -1 then pure (s, [])
  else do
    let t ← cnvUnicodeTraced wcstombs s.unicode (s.slot.toNat * charsPerLfn * 2)
      (s.parts * charsPerLfn)
    let s ← lfnResetTraced s
    pure (s, [t])

def forgetTraced (s : LfnState) : Lfn (LfnState × List Text) :=
  if s.slot = 0 then lfnCheckOrphanedTraced wcstombs s else pure (s, [])

def openNameTraced (de : FatDirLayout) (s : LfnState) : Lfn LfnState :=
  if opensName de then do
    emit (.alloc .unicode ((slotNumber de * charsPerLfn + 1) * 2))
    emit (.alloc .offsets (slotNumber de * 4))
    pure (openName fill de s)
  else pure s

/-- `copy_lfn_part(lfn_unicode + offset, lfn)`. -/
def copyLfnPartTraced (unicode : Bytes) (offset : ℕ) (de : FatDirLayout) : Lfn Bytes := do
  let unicode ← storeAt .unicode unicode offset (slice de.bytes 1 10)
  let unicode ← storeAt .unicode unicode (offset + 10) (slice de.bytes 14 12)
  storeAt .unicode unicode (offset + 22) (slice de.bytes 28 4)

def endNameTraced (unicode : Bytes) (offset : ℕ) (de : FatDirLayout) : Lfn Bytes :=
  if marksEnd de then do
    let unicode ← storeAt .unicode unicode (offset + 26) [0]
    storeAt .unicode unicode (offset + 27) [0]
  else pure unicode

def storePartTraced (s : LfnState) (de : FatDirLayout) (dirOffset : ℕ) (orphans : List Text) :
    Lfn (LfnState × List Text) :=
  if s.slot = -1 then pure (s, orphans)
  else
    match s.unicode, s.offsets with
    | some unicode, some offsets => do
        let offset := (s.slot - 1).toNat * charsPerLfn * 2
        let unicode ← copyLfnPartTraced unicode offset de
        let unicode ← endNameTraced unicode offset de
        let offsets ← storeAt .offsets offsets (4 * s.parts) (encode 4 dirOffset)
        pure ({ s with
          unicode := some unicode
          slot := s.slot - 1
          offsets := some offsets
          parts := s.parts + 1 }, orphans)
    | _, _ => fail .null

def lfnAddSlotTraced (s : LfnState) (de : FatDirLayout) (dirOffset : ℕ) :
    Lfn (LfnState × List Text) := do
  let r ← forgetTraced wcstombs s
  if de.attr != vfatLnAttr then fail .died
  else do
    let s ← openNameTraced fill de r.1
    storePartTraced s de dirOffset r.2

def lfnGetTraced (s : LfnState) (de : FatDirLayout) : Lfn (LfnState × Option (Text × ℕ)) :=
  if de.attr = vfatLnAttr then fail .died
  else if s.slot ≠ 0 then do
    let s ← lfnResetTraced s
    pure (s, none)
  else
    match s.offsets with
    | none => fail .null
    | some offsets => do
        let off ← loadAt .offsets offsets 0 4
        let t ← cnvUnicodeTraced wcstombs s.unicode 0 until0
        let s ← lfnResetTraced s
        pure (s, some (t, value off))

end Functions

section Erasure
variable {fill : ℕ → UInt8} {wcstombs : ℕ → Option Text} {s : LfnState} {de : FatDirLayout}

theorem result_storeAt (k : LfnBlock) (b : Bytes) (off : ℕ) (d : Bytes) :
    (storeAt k b off d).result = copyIn b off d := by
  simp only [storeAt, result_bind, result_emit, result_lift, ok_bind]

theorem result_loadAt (k : LfnBlock) (b : Bytes) (off n : ℕ) :
    (loadAt k b off n).result = copyOut b off n := by
  simp only [loadAt, result_bind, result_emit, result_lift, ok_bind]

theorem result_convertUnitsTraced (b : Bytes) (off n : ℕ) :
    (convertUnitsTraced wcstombs b off n).result = convertUnits wcstombs (b.drop off) n := by
  induction n generalizing off with
  | zero => rw [convertUnitsTraced, convertUnits, result_pure]
  | succ n ih =>
      have hnext : b.drop (off + 2) = (b.drop off).drop 2 := List.drop_drop.symm
      have hlen : (b.drop off).length = b.length - off := List.length_drop
      rw [convertUnitsTraced, result_bind, result_loadAt, copyOut, slice]
      simp only [result_ite, result_bind, result_pure, ih, hnext]
      cases hu : b.drop off with
      | nil =>
          rw [hu, List.length_nil] at hlen
          rw [if_neg (by omega)]
          rfl
      | cons lo u =>
          cases u with
          | nil =>
              rw [hu, List.length_singleton] at hlen
              rw [if_neg (by omega)]
              rfl
          | cons hi u =>
              rw [hu, List.length_cons, List.length_cons] at hlen
              rw [if_pos (by omega), convertUnits]
              simp [ok_bind]

theorem result_cnvUnicodeTraced (u : Option Bytes) (off n : ℕ) :
    (cnvUnicodeTraced wcstombs u off n).result = cnvUnicode wcstombs u off n := by
  cases u with
  | none => rfl
  | some b =>
      rw [cnvUnicodeTraced, cnvUnicode, result_bind, result_convertUnitsTraced]
      cases convertUnits wcstombs (b.drop off) n <;> rfl

theorem result_lfnResetTraced (s : LfnState) : (lfnResetTraced s).result = .ok (lfnReset s) := by
  simp only [lfnResetTraced, result_bind, result_ite, result_emit, result_pure, ite_self, ok_bind]

theorem result_lfnCheckOrphanedTraced (s : LfnState) :
    (lfnCheckOrphanedTraced wcstombs s).result = lfnCheckOrphaned wcstombs s := by
  simp only [lfnCheckOrphanedTraced, lfnCheckOrphaned, result_ite, result_bind, result_pure,
    result_cnvUnicodeTraced, result_lfnResetTraced, ok_bind]

theorem copyIn_copyIn (b : Bytes) (off : ℕ) (a c : Bytes) :
    (copyIn b off a >>= fun b => copyIn b (off + a.length) c) = copyIn b off (a ++ c) := by
  by_cases ha : off + a.length ≤ b.length
  · rw [copyIn_of_le ha, ok_bind]
    have hl : (splice 0 b off a).length = b.length := length_splice_of_le ha
    by_cases hc : off + a.length + c.length ≤ b.length
    · rw [copyIn_of_le (by rw [hl]; exact hc),
        copyIn_of_le (by rw [List.length_append]; omega), splice_splice_append hc]
    · have hne : c ≠ [] := by
        rintro rfl
        exact hc ha
      rw [copyIn_of_lt hne (by rw [hl]; omega),
        copyIn_of_lt (List.append_ne_nil_of_right_ne_nil a hne)
          (by rw [List.length_append]; omega)]
  · cases a with
    | nil => rfl
    | cons x a =>
        rw [copyIn_of_lt (List.cons_ne_nil x a) (by omega), error_bind,
          copyIn_of_lt (List.append_ne_nil_of_left_ne_nil (List.cons_ne_nil x a) c)
            (by rw [List.length_append]; omega)]

theorem result_copyLfnPartTraced (b : Bytes) (off : ℕ) (de : FatDirLayout) :
    (copyLfnPartTraced b off de).result = copyIn b off (copyLfnPart de) := by
  have hlen (i n : ℕ) (h : i + n ≤ 32) : (slice de.bytes i n).length = n :=
    length_slice_of_le (by rw [de.length_bytes]; exact h)
  have htwo := copyIn_copyIn b off (slice de.bytes 1 10) (slice de.bytes 14 12)
  have hall := copyIn_copyIn b off (slice de.bytes 1 10 ++ slice de.bytes 14 12)
    (slice de.bytes 28 4)
  rw [hlen 1 10 (by omega)] at htwo
  rw [List.length_append, hlen 1 10 (by omega), hlen 14 12 (by omega), ← htwo] at hall
  rw [copyLfnPart, ← hall, bind_assoc, copyLfnPartTraced]
  simp only [result_bind, result_storeAt]

theorem result_endNameTraced (b : Bytes) (off : ℕ) (de : FatDirLayout) :
    (endNameTraced b off de).result =
      if de.nameHead &&& lfnIdStart != 0 then copyIn b (off + 26) [0, 0] else .ok b := by
  have hzero : copyIn b (off + 26) [0, 0] =
      (copyIn b (off + 26) [0] >>= fun b => copyIn b (off + 27) [0]) :=
    (copyIn_copyIn b (off + 26) [0] [0]).symm
  rw [endNameTraced, result_ite, result_pure, hzero]
  simp only [result_bind, result_storeAt]
  rfl

theorem result_storePartTraced (s : LfnState) (de : FatDirLayout) (i : ℕ) (lines : List Text) :
    (storePartTraced s de i lines).result = storePart s de i lines := by
  have hcell (o : Bytes) : copyIn o (4 * s.parts) (encode 4 i) =
      if HasCell 4 o s.parts then .ok (setCell 4 o s.parts i) else .error .wild := by
    by_cases h : HasCell 4 o s.parts
    · rw [if_pos h, copyIn_of_le (by rw [length_encode]; exact h), setCell]
    · rw [if_neg h]
      refine copyIn_of_lt (List.length_pos_iff.mp (by rw [length_encode]; decide)) ?_
      rw [length_encode]
      exact Nat.lt_of_not_le h
  rw [storePartTraced, storePart, result_ite, result_pure]
  cases s.unicode with
  | none => rfl
  | some u =>
      cases s.offsets with
      | none => rfl
      | some o =>
          simp only [result_bind, result_copyLfnPartTraced, result_endNameTraced,
            result_storeAt, result_pure, hcell]
          split_ifs <;> rfl

theorem result_openNameTraced (s : LfnState) (de : FatDirLayout) :
    (openNameTraced fill de s).result = .ok (openName fill de s) := by
  rw [openNameTraced, result_ite, openName]
  split_ifs <;> rfl

theorem result_lfnAddSlotTraced (s : LfnState) (de : FatDirLayout) (i : ℕ) :
    (lfnAddSlotTraced fill wcstombs s de i).result = lfnAddSlot fill wcstombs s de i := by
  simp only [lfnAddSlotTraced, forgetTraced, result_bind, result_ite,
    result_lfnCheckOrphanedTraced, result_pure, result_fail, result_openNameTraced,
    result_storePartTraced, ok_bind]
  by_cases hs : s.slot = 0
  · simp only [lfnAddSlot, if_pos hs]
    cases lfnCheckOrphaned wcstombs s <;> rfl
  · simp only [lfnAddSlot, if_neg hs]
    rfl

theorem result_lfnGetTraced (s : LfnState) (de : FatDirLayout) :
    (lfnGetTraced wcstombs s de).result = lfnGet wcstombs s de := by
  have hload (o : Bytes) : (value <$> copyOut o 0 4) = firstOffset o := by
    rw [copyOut, firstOffset]
    by_cases h : HasCell 4 o 0
    · rw [if_pos h, if_pos (show 0 + 4 ≤ o.length from h)]
      rfl
    · rw [if_neg h, if_neg (show ¬ 0 + 4 ≤ o.length from h)]
      rfl
  rw [lfnGetTraced, lfnGet]
  simp only [result_ite, result_bind, result_fail, result_lfnResetTraced, result_pure, ok_bind]
  cases s.offsets with
  | none => rfl
  | some o =>
      simp only [result_bind, result_loadAt, result_cnvUnicodeTraced, result_lfnResetTraced,
        result_pure, ok_bind, ← hload]
      cases copyOut o 0 4 <;> rfl

end Erasure

/-- The block holds these bytes, and the positions have been stored. -/
def Filled (m : Memory LfnBlock) (k : LfnBlock) (b : Bytes) (D : Set ℕ) : Prop :=
  ∃ st, m k = some ⟨b.length, st⟩ ∧ D ⊆ st

/-- The block has been stored to, and the other one is as before. -/
def Writes (k : LfnBlock) (b : Bytes) (m : Memory LfnBlock) (D : Set ℕ) (b' : Bytes)
    (m' : Memory LfnBlock) : Prop :=
  b'.length = b.length ∧ Filled m' k b' D ∧ ∀ j, j ≠ k → m' j = m j

section Rules
variable {m m' m'' : Memory LfnBlock} {k : LfnBlock} {b b' b'' d : Bytes} {D E : Set ℕ}
variable {off n : ℕ} {e : FatDirLayout}

theorem Filled.mono (h : Filled m k b D) (hED : E ⊆ D) : Filled m k b E := by
  obtain ⟨st, hm, hD⟩ := h
  exact ⟨st, hm, hED.trans hD⟩

theorem Writes.trans (h₁ : Writes k b m D b' m') (h₂ : Writes k b' m' E b'' m'') :
    Writes k b m E b'' m'' := by
  obtain ⟨hl₁, -, ho₁⟩ := h₁
  obtain ⟨hl₂, hf, ho₂⟩ := h₂
  exact ⟨hl₂.trans hl₁, hf, fun j hj => (ho₂ j hj).trans (ho₁ j hj)⟩

theorem Writes.mono (h : Writes k b m D b' m') (hED : E ⊆ D) : Writes k b m E b' m' :=
  ⟨h.1, h.2.1.mono hED, h.2.2⟩

theorem safe_storeAt (h : Filled m k b D) (hle : off + d.length ≤ b.length) :
    Safe m (storeAt k b off d) (Writes k b m (D ∪ Set.Ico off (off + d.length))) := by
  obtain ⟨st, hm, hD⟩ := h
  have hl : (splice 0 b off d).length = b.length := length_splice_of_le hle
  have hw : Writes k b m (D ∪ Set.Ico off (off + d.length)) (splice 0 b off d)
      (Function.update m k (some ⟨b.length, st ∪ Set.Ico off (off + d.length)⟩)) := by
    refine ⟨hl, ⟨_, ?_, Set.union_subset_union_left _ hD⟩, ?_⟩
    · rw [Function.update_self, hl]
    · intro j hj
      exact Function.update_of_ne hj _ m
  refine (safe_store (U := fun _ => Writes k b m _ (splice 0 b off d)) hm hle hw).bind ?_
  intro _ m' hm'
  exact safe_lift (copyIn_of_le hle) hm'

theorem safe_loadAt (h : Filled m k b D) (hle : off + n ≤ b.length)
    (hD : Set.Ico off (off + n) ⊆ D) :
    Safe m (loadAt k b off n) fun r m' => r = slice b off n ∧ m' = m := by
  obtain ⟨st, hm, hst⟩ := h
  refine (safe_load (U := fun _ m' => m' = m) hm hle (hD.trans hst) rfl).bind ?_
  rintro _ m' rfl
  exact safe_lift (if_pos hle) ⟨rfl, rfl⟩

/-- A loop of `cnv_unicode` reads no further than the final zero character. -/
theorem safe_convertUnitsTraced {wcstombs : ℕ → Option Text} {c len : ℕ}
    (h : Filled m .unicode b (Set.Ico off b.length)) (hb : b.length = off + 2 * c + 2)
    (hz : b.drop (off + 2 * c) = [0, 0]) (hc : c ≤ len) :
    Safe m (convertUnitsTraced wcstombs b off len) fun _ m' => m' = m := by
  induction len generalizing off c with
  | zero => exact safe_pure rfl
  | succ len ih =>
      rw [convertUnitsTraced]
      refine (safe_loadAt h (by omega) (Set.Ico_subset_Ico_right (by omega))).bind ?_
      rintro up m' ⟨rfl, hm'⟩
      rw [hm']
      split_ifs with hzero
      · exact safe_pure rfl
      · cases c with
        | zero =>
            rw [slice, show off = off + 2 * 0 from rfl, hz] at hzero
            exact absurd rfl hzero
        | succ c =>
            have hnext : off + 2 + 2 * c = off + 2 * (c + 1) := by omega
            have hrest : Safe m (convertUnitsTraced wcstombs b (off + 2) len)
                fun _ m' => m' = m :=
              ih (c := c) (h.mono (Set.Ico_subset_Ico_left (by omega))) (by omega)
                (by rw [hnext]; exact hz) (by omega)
            exact hrest.bind fun _ _ h' => safe_pure h'

theorem safe_copyLfnPartTraced (h : Filled m .unicode b D) (hle : off + 26 ≤ b.length) :
    Safe m (copyLfnPartTraced b off e)
      (Writes .unicode b m (D ∪ Set.Ico off (off + 26))) := by
  have hlen (i n : ℕ) (h : i + n ≤ 32) : (slice e.bytes i n).length = n :=
    length_slice_of_le (by rw [e.length_bytes]; exact h)
  have h₁ := hlen 1 10 (by omega)
  have h₂ := hlen 14 12 (by omega)
  have h₃ := hlen 28 4 (by omega)
  refine (safe_storeAt h (by omega)).bind fun b₁ m₁ hw₁ => ?_
  refine (safe_storeAt hw₁.2.1 (by rw [hw₁.1]; omega)).bind fun b₂ m₂ hw₂ => ?_
  refine (safe_storeAt hw₂.2.1 (by rw [hw₂.1, hw₁.1]; omega)).mono fun b₃ m₃ hw₃ => ?_
  refine ((hw₁.trans hw₂).trans hw₃).mono ?_
  intro x hx
  rw [h₁, h₂, h₃]
  simp only [Set.mem_union, Set.mem_Ico] at hx ⊢
  grind

theorem safe_endNameTraced (h : Filled m .unicode b D) (hle : off + 28 ≤ b.length) :
    Safe m (endNameTraced b off e)
      (Writes .unicode b m (D ∪ if marksEnd e then Set.Ico (off + 26) (off + 28) else ∅)) := by
  rw [endNameTraced]
  split_ifs
  · refine (safe_storeAt h (by rw [List.length_singleton]; omega)).bind fun b₁ m₁ hw₁ => ?_
    refine (safe_storeAt hw₁.2.1 (by rw [hw₁.1, List.length_singleton]; omega)).mono ?_
    intro b₂ m₂ hw₂
    refine (hw₁.trans hw₂).mono ?_
    intro x hx
    simp only [Set.mem_union, Set.mem_Ico, List.length_singleton] at hx ⊢
    grind
  · exact safe_pure ⟨rfl, h.mono (by rw [Set.union_empty]), fun _ _ => rfl⟩

end Rules

/-- What the parts have stored of the blocks. -/
def Stored (s : LfnState) (m : Memory LfnBlock) : Option Parts → Prop
  | none => True
  | some p =>
      (∃ u, s.unicode = some u ∧ Filled m .unicode u (Set.Ico (26 * p.missing) u.length)) ∧
      ∃ o, s.offsets = some o ∧ Filled m .offsets o (Set.Ico 0 (4 * p.count))

section Calls
variable {fill : ℕ → UInt8} {wcstombs : ℕ → Option Text} {s : LfnState} {m : Memory LfnBlock}
variable {e : FatDirLayout} {i : ℕ} {p : Option Parts}

theorem safe_lfnResetTraced (h : Represents s p) (hm : Stored s m p) :
    Safe m (lfnResetTraced s) fun t _ => t = lfnReset s := by
  cases p with
  | none =>
      rw [lfnResetTraced, h.2.1, h.2.2]
      exact ⟨trivial, _, rfl, rfl⟩
  | some p =>
      obtain ⟨⟨u, hu, su, hmu, -⟩, o, ho, so, hmo, -⟩ := hm
      rw [lfnResetTraced, hu, ho]
      have hmo' : Function.update m .unicode none .offsets = some ⟨o.length, so⟩ := hmo
      refine (safe_free (U := fun _ m' => m' .offsets = some ⟨o.length, so⟩) hmu hmo').bind ?_
      intro _ m' hm'
      refine (safe_free (U := fun _ _ => True) hm' trivial).bind ?_
      intro _ _ _
      exact safe_pure rfl

theorem safe_cnvUnicodeTraced {p : Parts} {maxlen : ℕ} (h : Holds s p)
    (hm : Stored s m (some p)) (hmax : 13 * p.count ≤ maxlen) :
    Safe m (cnvUnicodeTraced wcstombs s.unicode (26 * p.missing) maxlen) fun _ m' => m' = m := by
  obtain ⟨front, hf, hu⟩ := h.unicode
  obtain ⟨⟨u, hu', hfill⟩, -⟩ := hm
  have hb : u = front ++ p.chars := Option.some.inj (hu'.symm.trans hu)
  have hlen : u.length = 26 * p.missing + 2 * (13 * p.count) + 2 := by
    rw [hb, List.length_append, hf, p.length_chars]
    omega
  have hend : u.drop (26 * p.missing + 2 * (13 * p.count)) = [0, 0] := by
    rw [hb, ← hf, List.drop_length_add_append, ← p.ended]
    congr 1
    omega
  have hloop : Safe m (convertUnitsTraced wcstombs u (26 * p.missing) maxlen)
      fun _ m' => m' = m :=
    safe_convertUnitsTraced hfill hlen hend hmax
  rw [hu', cnvUnicodeTraced]
  refine hloop.bind ?_
  rintro _ m' rfl
  exact hloop

/-- `lfn_check_orphaned` reads the parts that have been stored. -/
theorem safe_lfnCheckOrphanedTraced (h : Represents s p) (hm : Stored s m p) :
    Safe m (lfnCheckOrphanedTraced wcstombs s) fun r m' =>
      Represents r.1 none ∧ Stored r.1 m' none := by
  have hsafe : Safe m (lfnCheckOrphanedTraced wcstombs s) fun _ _ => True := by
    rw [lfnCheckOrphanedTraced]
    cases p with
    | none =>
        rw [if_pos h.1]
        exact safe_pure trivial
    | some p =>
        have hslot : s.slot ≠ -1 := by
          rw [h.slot]
          omega
        have hoff : s.slot.toNat * charsPerLfn * 2 = 26 * p.missing := by
          rw [h.slot, Int.toNat_natCast, charsPerLfn]
          omega
        rw [if_neg hslot, hoff]
        refine (safe_cnvUnicodeTraced h hm (by rw [h.parts, charsPerLfn]; omega)).bind ?_
        rintro _ m' rfl
        refine (safe_lfnResetTraced (p := some p) h hm).bind ?_
        intro _ _ _
        exact safe_pure trivial
  obtain ⟨t, ht, hrep⟩ := lfnCheckOrphaned_of_represents wcstombs h
  refine (hsafe.with_result ((result_lfnCheckOrphanedTraced s).trans ht)).mono ?_
  rintro r m' ⟨rfl, -⟩
  exact ⟨hrep, trivial⟩

theorem safe_lfnGetTraced (he : e.attr ≠ vfatLnAttr) (h : Represents s p) (hm : Stored s m p) :
    Safe m (lfnGetTraced wcstombs s e) fun r m' =>
      Represents r.1 none ∧ Stored r.1 m' none := by
  have hsafe : Safe m (lfnGetTraced wcstombs s e) fun _ _ => True := by
    have hreset := safe_lfnResetTraced h hm
    rw [lfnGetTraced, if_neg he]
    split_ifs with hslot
    · refine hreset.bind ?_
      intro _ _ _
      exact safe_pure trivial
    · cases p with
      | none =>
          rw [h.1] at hslot
          exact absurd (by decide) hslot
      | some p =>
          have hmissing : 26 * p.missing = 0 := by
            have hs := h.slot
            omega
          have hcount := p.count_pos
          have hfits := p.fits
          obtain ⟨o, ho, hfill⟩ := hm.2
          obtain ⟨o', ho', hlen, -⟩ := h.offsets
          have hscan : Safe m (cnvUnicodeTraced wcstombs s.unicode 0 until0)
              fun _ m' => m' = m := by
            rw [← hmissing]
            exact safe_cnvUnicodeTraced h hm (by rw [until0]; omega)
          rw [ho] at ho' ⊢
          obtain rfl := Option.some.inj ho'
          refine (safe_loadAt hfill (by omega) (Set.Ico_subset_Ico_right (by omega))).bind ?_
          rintro _ m' ⟨-, rfl⟩
          refine hscan.bind ?_
          rintro _ m' rfl
          refine hreset.bind ?_
          intro _ _ _
          exact safe_pure trivial
  obtain ⟨t, ht, hrep⟩ := lfnGet_of_represents wcstombs he h
  refine (hsafe.with_result ((result_lfnGetTraced s e).trans ht)).mono ?_
  rintro r m' ⟨rfl, -⟩
  exact ⟨hrep, trivial⟩

/-- The stores of `lfn_add_slot` fill the block in front of the parts that it has. -/
theorem safe_storePartTraced {q : Parts} {u o : Bytes} (lines : List Text)
    (hs : s.slot = q.missing + 1) (hp : s.parts + 1 = q.count) (hu : s.unicode = some u)
    (hulen : u.length = 26 * (q.missing + q.count) + 2) (ho : s.offsets = some o)
    (holen : o.length = 4 * (q.missing + q.count))
    (hmu : Filled m .unicode u
      (Set.Ico (26 * (q.missing + 1) + if marksEnd e then 2 else 0) u.length))
    (hmo : Filled m .offsets o (Set.Ico 0 (4 * s.parts))) :
    Safe m (storePartTraced s e i lines) fun r m' => Stored r.1 m' (some q) := by
  have hslot : s.slot ≠ -1 := by
    rw [hs]
    omega
  have hoff : (s.slot - 1).toNat * charsPerLfn * 2 = 26 * q.missing := by
    rw [hs, Int.add_sub_cancel, Int.toNat_natCast, charsPerLfn]
    omega
  have hcount := q.count_pos
  rw [storePartTraced, if_neg hslot, hu, ho]
  simp only [hoff]
  refine (safe_copyLfnPartTraced hmu (by omega)).bind fun b₁ m₁ hw₁ => ?_
  refine (safe_endNameTraced hw₁.2.1 (by rw [hw₁.1]; omega)).bind fun b₂ m₂ hw₂ => ?_
  have hw := hw₁.trans hw₂
  have hmo₂ : Filled m₂ .offsets o (Set.Ico 0 (4 * s.parts)) := by
    rw [Filled, hw.2.2 .offsets (by decide)]
    exact hmo
  refine (safe_storeAt hmo₂ (by rw [length_encode]; omega)).bind fun o₃ m₃ hw₃ => ?_
  refine safe_pure ⟨⟨b₂, rfl, ?_⟩, o₃, rfl, hw₃.2.1.mono ?_⟩
  · have hb₂ := hw.2.1
    rw [Filled, ← hw₃.2.2 .unicode (by decide)] at hb₂
    refine Filled.mono hb₂ ?_
    rw [hw.1]
    intro x hx
    split_ifs <;> simp only [Set.mem_union, Set.mem_Ico] at hx ⊢ <;> grind
  · rw [length_encode, ← hp]
    intro x hx
    simp only [Set.mem_union, Set.mem_Ico] at hx ⊢
    omega

/-- A slot that opens a name stores its part at the end of new blocks. -/
theorem safe_openName (lines : List Text) (r : LfnState) (h : opensName e) :
    Safe m (openNameTraced fill e r >>= fun s => storePartTraced s e i lines)
      fun t m' => Stored t.1 m' (some (.ofSlot e i h)) := by
  have hn : (Parts.ofSlot e i h).missing + 1 = slotNumber e := Nat.sub_one_add_one h.2
  have hone : (Parts.ofSlot e i h).count = 1 := rfl
  have hsize : (malloc fill ((slotNumber e * charsPerLfn + 1) * 2)).length =
      26 * slotNumber e + 2 := by
    rw [length_malloc, charsPerLfn]
    omega
  have hwords : (malloc fill (slotNumber e * 4)).length = slotNumber e * 4 := length_malloc _ _
  have hopen : Safe m (openNameTraced fill e r) fun t m' => t = openName fill e r ∧
      m' .unicode = some ⟨(slotNumber e * charsPerLfn + 1) * 2, ∅⟩ ∧
      m' .offsets = some ⟨slotNumber e * 4, ∅⟩ := by
    rw [openNameTraced, if_pos h]
    refine (safe_alloc (U := fun _ m' =>
      m' .unicode = some ⟨(slotNumber e * charsPerLfn + 1) * 2, ∅⟩) rfl).bind ?_
    intro _ m₁ hm₁
    have hkeep : Function.update m₁ .offsets (some ⟨slotNumber e * 4, ∅⟩) .unicode =
        some ⟨(slotNumber e * charsPerLfn + 1) * 2, ∅⟩ :=
      hm₁
    refine (safe_alloc (U := fun _ m' =>
      m' .unicode = some ⟨(slotNumber e * charsPerLfn + 1) * 2, ∅⟩ ∧
        m' .offsets = some ⟨slotNumber e * 4, ∅⟩) ⟨hkeep, rfl⟩).bind ?_
    rintro _ m₂ hm₂
    exact safe_pure ⟨rfl, hm₂⟩
  refine hopen.bind ?_
  rintro t m₁ ⟨rfl, hu, ho⟩
  rw [openName, if_pos h]
  refine safe_storePartTraced lines ?_ ?_ rfl ?_ rfl ?_ ⟨∅, ?_, ?_⟩ ⟨∅, ?_, ?_⟩
  · change (slotNumber e : ℤ) = _
    omega
  · rfl
  · rw [hsize, hone, hn]
  · rw [hwords, hone, hn, Nat.mul_comm]
  · rw [hu, length_malloc]
  · rw [hsize, hn, if_pos h.1]
    intro x hx
    rw [Set.mem_Ico] at hx
    omega
  · rw [ho, hwords]
  · intro x hx
    rw [Set.mem_Ico] at hx
    exact absurd hx.2 (Nat.not_lt_zero x)

theorem safe_forgetTraced (h : Represents s p) (hm : Stored s m p) :
    Safe m (forgetTraced wcstombs s) fun r m' =>
      Represents r.1 (p.filter fun p => p.missing ≠ 0) ∧
        Stored r.1 m' (p.filter fun p => p.missing ≠ 0) := by
  rw [forgetTraced]
  cases p with
  | none =>
      rw [if_neg (by rw [h.1]; decide)]
      exact safe_pure ⟨h, hm⟩
  | some p =>
      by_cases hp : p.missing = 0
      · rw [if_pos (by rw [h.slot, hp]; rfl), Option.filter_some_neg (by simpa using hp)]
        exact safe_lfnCheckOrphanedTraced h hm
      · rw [if_neg (by rw [h.slot]; exact_mod_cast hp),
          Option.filter_some_pos (by simpa using hp)]
        exact safe_pure ⟨h, hm⟩

/-- One more part of a name is stored in front of those that the blocks hold. -/
theorem safe_extend {p : Parts} (lines : List Text) (hp : p.missing ≠ 0)
    (h : Represents s (some p)) (hm : Stored s m (some p)) :
    Safe m (storePartTraced s e i lines) fun t m' => Stored t.1 m' (some (p.extend e hp)) := by
  have hmissing : (p.extend e hp).missing + 1 = p.missing := Nat.succ_pred_eq_of_ne_zero hp
  have hmore : (p.extend e hp).count = p.count + 1 := rfl
  obtain ⟨⟨u, hu, hmu⟩, o, ho, hmo⟩ := hm
  obtain ⟨front, hf, hu'⟩ := h.unicode
  obtain ⟨o', ho', hlen, -⟩ := h.offsets
  obtain rfl := Option.some.inj (hu.symm.trans hu')
  obtain rfl := Option.some.inj (ho.symm.trans ho')
  have hs := h.slot
  have hparts := h.parts
  refine safe_storePartTraced lines (by omega) (by omega) hu ?_ ho (by omega)
    (hmu.mono (Set.Ico_subset_Ico_left (by omega))) (hmo.mono (by rw [hparts]))
  rw [List.length_append, hf, p.length_chars]
  omega

/-- `lfn_add_slot` leaves what `next` says, in blocks that hold it. -/
theorem safe_lfnAddSlotTraced (he : e.attr = vfatLnAttr) (h : Represents s p)
    (hm : Stored s m p) :
    Safe m (lfnAddSlotTraced fill wcstombs s e i) fun r m' =>
      Represents r.1 (next p e i) ∧ Stored r.1 m' (next p e i) := by
  have hattr : (e.attr != vfatLnAttr) = false := by rw [he]; rfl
  have hsafe : Safe m (lfnAddSlotTraced fill wcstombs s e i) fun r m' =>
      Stored r.1 m' (next p e i) := by
    rw [lfnAddSlotTraced]
    simp only [hattr, Bool.false_eq_true, if_false]
    refine (safe_forgetTraced h hm).bind ?_
    rintro ⟨r, lines⟩ m₁ ⟨hr, hm₁⟩
    by_cases hopen : opensName e
    · rw [next_of_opensName hopen]
      exact safe_openName lines r hopen
    · have hsame : Safe m₁ (openNameTraced fill e r) fun t m' => t = r ∧ m' = m₁ := by
        rw [openNameTraced, if_neg hopen]
        exact safe_pure ⟨rfl, rfl⟩
      refine hsame.bind ?_
      rintro t m₂ ⟨rfl, rfl⟩
      cases p with
      | none =>
          rw [next_none hopen, storePartTraced, if_pos hr.1]
          exact safe_pure trivial
      | some p =>
          by_cases hp : p.missing = 0
          · rw [Option.filter_some_neg (by simpa using hp)] at hr
            rw [next_of_whole hopen hp, storePartTraced, if_pos hr.1]
            exact safe_pure trivial
          · rw [Option.filter_some_pos (by simpa using hp)] at hr hm₁
            rw [next_of_missing hopen hp]
            exact safe_extend lines hp hr hm₁
  obtain ⟨t, ht, hrep⟩ := lfnAddSlot_of_represents wcstombs fill (i := i) he h
  refine (hsafe.with_result ((result_lfnAddSlotTraced s e i).trans ht)).mono ?_
  rintro r m' ⟨rfl, hstored⟩
  exact ⟨hrep, hstored⟩

end Calls

/-- The calls of the parser: of `lfn_add_slot` for slots, of `lfn_get` for other entries, and
of `lfn_check_orphaned`. -/
inductive Call where
  | addSlot (de : FatDirLayout) (h : de.attr = vfatLnAttr) (dirOffset : ℕ)
  | get (de : FatDirLayout) (h : de.attr ≠ vfatLnAttr)
  | checkOrphaned

section Runs
variable (fill : ℕ → UInt8) (wcstombs : ℕ → Option Text)

def call (s : LfnState) : Call → Lfn LfnState
  | .addSlot de _ dirOffset => do
      let r ← lfnAddSlotTraced fill wcstombs s de dirOffset
      pure r.1
  | .get de _ => do
      let r ← lfnGetTraced wcstombs s de
      pure r.1
  | .checkOrphaned => do
      let r ← lfnCheckOrphanedTraced wcstombs s
      pure r.1

/-- The globals represent parts whose bytes have been stored. -/
def Kept (s : LfnState) (m : Memory LfnBlock) : Prop := ∃ p, Represents s p ∧ Stored s m p

/-- Every call is safe and keeps what the parts have stored. -/
theorem safe_call (s : LfnState) (m : Memory LfnBlock) (c : Call) (h : Kept s m) :
    Safe m (call fill wcstombs s c) Kept := by
  obtain ⟨p, hp, hm⟩ := h
  cases c with
  | addSlot de he i =>
      exact (safe_lfnAddSlotTraced he hp hm).bind fun _ _ hr => safe_pure ⟨_, hr⟩
  | get de he => exact (safe_lfnGetTraced he hp hm).bind fun _ _ hr => safe_pure ⟨_, hr⟩
  | checkOrphaned =>
      exact (safe_lfnCheckOrphanedTraced hp hm).bind fun _ _ hr => safe_pure ⟨_, hr⟩

/-- From the start of the program no sequence of calls leaves the blocks of the parser or
reads a byte of them that has not been stored, and each call returns. -/
theorem lfn_accesses_sound (calls : List Call) :
    Sound (fun _ => none) (run (call fill wcstombs) .initial calls).events ∧
      ∃ s, (run (call fill wcstombs) .initial calls).result = .ok s := by
  have hstart : Kept .initial fun _ => none := ⟨none, represents_initial, trivial⟩
  obtain ⟨hs, s, hr, -⟩ := safe_run (safe_call fill wcstombs) calls hstart
  exact ⟨hs, s, hr⟩

end Runs

end TFAT.LongNameAccesses
