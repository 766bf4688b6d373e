import TFAT.LongNames

/-!
# What the parser of long names holds

Between two calls the parser holds nothing, or the last parts of a name of which
the first ones are still missing. The blocks of lfn.c represent such a state, and
each call of the parser takes a represented state to a represented one without an
access outside the blocks. What it prints and returns depends on the parts alone,
not on what else the blocks hold.
-/
namespace TFAT.LongNameParts
open ByteRegions LittleEndianWords DiskLayout ClusterTable FileDescriptor PathText LongNames

/-- The text of the characters in front of the first zero one. -/
def nameOf (wcstombs : ℕ → Option Text) : Bytes → Text
  | lo :: hi :: rest =>
      if lo = 0 ∧ hi = 0 then [] else convertUnit wcstombs lo hi ++ nameOf wcstombs rest
  | _ => []

def slotNumber (e : FatDirLayout) : ℕ := (e.nameHead &&& lfnIdSlotmask).toNat

def marksEnd (e : FatDirLayout) : Bool := e.nameHead &&& lfnIdStart != 0

/-- The slot opens a new name. -/
def opensName (e : FatDirLayout) : Prop := marksEnd e ∧ slotNumber e ≠ 0

instance (e : FatDirLayout) : Decidable (opensName e) :=
  inferInstanceAs (Decidable (marksEnd e = true ∧ slotNumber e ≠ 0))

theorem slotNumber_le (e : FatDirLayout) : slotNumber e ≤ 31 := by
  rw [slotNumber, UInt8.toNat_and]
  exact Nat.and_le_right

theorem length_copyLfnPart (e : FatDirLayout) : (copyLfnPart e).length = 26 := by
  have h (off n : ℕ) (hn : off + n ≤ 32) : (slice e.bytes off n).length = n :=
    length_slice_of_le (by rw [e.length_bytes]; exact hn)
  rw [copyLfnPart, List.length_append, List.length_append, h 1 10 (by omega),
    h 14 12 (by omega), h 28 4 (by omega)]

/-- The last parts of a name: how many are missing in front of them, how many there are,
their characters with the final zero, and the place of the slot that came first. -/
@[ext] structure Parts where
  missing : ℕ
  count : ℕ
  chars : Bytes
  first : ℕ
  length_chars : chars.length = 26 * count + 2
  ended : chars.drop (26 * count) = [0, 0]
  count_pos : 0 < count
  fits : missing + count ≤ 31
  first_lt : first < 2 ^ 32

/-- The characters of a slot in front of those that follow them. -/
def joinPart (e : FatDirLayout) (chars : Bytes) : Bytes :=
  copyLfnPart e ++ (if marksEnd e then [0, 0] ++ chars.drop 2 else chars)

theorem length_joinPart (e : FatDirLayout) {chars : Bytes} (h : 2 ≤ chars.length) :
    (joinPart e chars).length = 26 + chars.length := by
  rw [joinPart, List.length_append, length_copyLfnPart]
  split_ifs
  · rw [List.length_append, List.length_drop, List.length_cons, List.length_singleton]
    omega
  · rfl

theorem drop_joinPart (e : FatDirLayout) (chars : Bytes) {n : ℕ} (h : 2 ≤ n) :
    (joinPart e chars).drop (26 + n) = chars.drop n := by
  rw [joinPart, ← length_copyLfnPart e, List.drop_length_add_append]
  split_ifs
  · obtain ⟨k, rfl⟩ := Nat.exists_eq_add_of_le h
    rw [show 2 + k = ([0, 0] : Bytes).length + k from rfl, List.drop_length_add_append,
      List.drop_drop]
    rfl
  · rfl

namespace Parts

/-- What the parser holds behind the slot that opens a name. -/
def ofSlot (e : FatDirLayout) (i : ℕ) (h : opensName e) : Parts where
  missing := slotNumber e - 1
  count := 1
  chars := copyLfnPart e ++ [0, 0]
  first := i % 2 ^ 32
  length_chars := by rw [List.length_append, length_copyLfnPart]; rfl
  ended := by
    rw [Nat.mul_one, ← length_copyLfnPart e]
    exact List.drop_left
  count_pos := one_pos
  fits := by
    have hle := slotNumber_le e
    have hne := h.2
    omega
  first_lt := Nat.mod_lt _ (by norm_num)

def extend (p : Parts) (e : FatDirLayout) (h : p.missing ≠ 0) : Parts where
  missing := p.missing - 1
  count := p.count + 1
  chars := joinPart e p.chars
  first := p.first
  length_chars := by
    have hl := p.length_chars
    rw [length_joinPart e (by omega)]
    omega
  ended := by
    have hc := p.count_pos
    rw [show 26 * (p.count + 1) = 26 + 26 * p.count by omega, drop_joinPart e _ (by omega),
      p.ended]
  count_pos := Nat.succ_pos _
  fits := by
    have hf := p.fits
    omega
  first_lt := p.first_lt

@[simp] theorem ofSlot_missing (e : FatDirLayout) (i : ℕ) (h : opensName e) :
    (ofSlot e i h).missing = slotNumber e - 1 := rfl

@[simp] theorem extend_missing (p : Parts) (e : FatDirLayout) (h : p.missing ≠ 0) :
    (p.extend e h).missing = p.missing - 1 := rfl

@[simp] theorem extend_chars (p : Parts) (e : FatDirLayout) (h : p.missing ≠ 0) :
    (p.extend e h).chars = joinPart e p.chars := rfl

end Parts

/-- The parts that `lfn_add_slot` leaves. -/
def next (p : Option Parts) (e : FatDirLayout) (i : ℕ) : Option Parts :=
  if h : opensName e then some (.ofSlot e i h)
  else
    match p with
    | none => none
    | some p => if h : p.missing = 0 then none else some (p.extend e h)

section Next
variable {p : Parts} {e : FatDirLayout} {i : ℕ}

theorem next_of_opensName {q : Option Parts} (h : opensName e) :
    next q e i = some (.ofSlot e i h) :=
  dif_pos h

theorem next_none (h : ¬ opensName e) : next none e i = none := dif_neg h

theorem next_of_whole (h : ¬ opensName e) (hm : p.missing = 0) : next (some p) e i = none :=
  (dif_neg h).trans (dif_pos hm)

theorem next_of_missing (h : ¬ opensName e) (hm : p.missing ≠ 0) :
    next (some p) e i = some (p.extend e hm) :=
  (dif_neg h).trans (dif_neg hm)

/-- A slot that does not open a name keeps one that misses slots, and extends it. -/
theorem next_eq_some_iff {o : Option Parts} {q : Parts} (h : ¬ opensName e) :
    next o e i = some q ↔ ∃ p, ∃ hm : p.missing ≠ 0, o = some p ∧ q = p.extend e hm := by
  constructor
  · intro hq
    cases o with
    | none =>
        rw [next_none h] at hq
        cases hq
    | some p =>
        by_cases hm : p.missing = 0
        · rw [next_of_whole h hm] at hq
          cases hq
        · rw [next_of_missing h hm, Option.some.injEq] at hq
          exact ⟨p, hm, rfl, hq.symm⟩
  · rintro ⟨p, hm, rfl, rfl⟩
    exact next_of_missing h hm

end Next

def storePart (s : LfnState) (de : FatDirLayout) (dirOffset : ℕ) (orphans : List Text) :
    Except Fault (LfnState × List Text) :=
  if s.slot = -1 then .ok (s, orphans)
  else
    match s.unicode, s.offsets with
    | some unicode, some offsets => do
        let offset := (s.slot - 1).toNat * charsPerLfn * 2
        let unicode ← copyIn unicode offset (copyLfnPart de)
        let unicode ←
          if de.nameHead &&& lfnIdStart != 0 then copyIn unicode (offset + 26) [0, 0]
          else .ok unicode
        if HasCell 4 offsets s.parts then
          .ok ({ s with
            unicode := some unicode
            slot := s.slot - 1
            offsets := some (setCell 4 offsets s.parts dirOffset)
            parts := s.parts + 1 }, orphans)
        else .error .wild
    | _, _ => .error .null

variable (wcstombs : ℕ → Option Text)

/-- The names that `lfn_add_slot` prints: a whole name that no entry has claimed. -/
def orphans : Option Parts → List Text
  | none => []
  | some p => if p.missing = 0 then [nameOf wcstombs p.chars] else []

/-- The name that an entry claims, with the place of its first slot. -/
def claimed : Option Parts → Option (Text × ℕ)
  | none => none
  | some p => if p.missing = 0 then some (nameOf wcstombs p.chars, p.first) else none

section Printing
variable {p : Parts}

@[simp] theorem orphans_none : orphans wcstombs none = [] := rfl

@[simp] theorem claimed_none : claimed wcstombs none = none := rfl

theorem orphans_of_whole (h : p.missing = 0) :
    orphans wcstombs (some p) = [nameOf wcstombs p.chars] :=
  if_pos h

theorem orphans_of_missing (h : p.missing ≠ 0) : orphans wcstombs (some p) = [] := if_neg h

theorem claimed_of_whole (h : p.missing = 0) :
    claimed wcstombs (some p) = some (nameOf wcstombs p.chars, p.first) :=
  if_pos h

theorem claimed_of_missing (h : p.missing ≠ 0) : claimed wcstombs (some p) = none := if_neg h

end Printing

/-- The blocks of the parser hold these parts. -/
structure Holds (s : LfnState) (p : Parts) : Prop where
  slot : s.slot = p.missing
  parts : s.parts = p.count
  unicode : ∃ front : Bytes, front.length = 26 * p.missing ∧ s.unicode = some (front ++ p.chars)
  offsets : ∃ o : Bytes, s.offsets = some o ∧ o.length = 4 * (p.missing + p.count) ∧
    cell 4 o 0 = p.first

/-- The globals of the parser represent a state. -/
def Represents (s : LfnState) : Option Parts → Prop
  | none => s.slot = -1 ∧ s.unicode = none ∧ s.offsets = none
  | some p => Holds s p

theorem represents_initial : Represents .initial none := ⟨rfl, rfl, rfl⟩

theorem represents_lfnReset (s : LfnState) : Represents (lfnReset s) none := ⟨rfl, rfl, rfl⟩

section Conversion
variable {wcstombs}

/-- The loops of `cnv_unicode` stop inside a block that ends with a zero character. -/
theorem convertUnits_of_ended {u : Bytes} {k n : ℕ} (hu : u.length = 2 * k + 2)
    (hz : u.drop (2 * k) = [0, 0]) (hk : k ≤ n) :
    convertUnits wcstombs u n = .ok (nameOf wcstombs u) := by
  induction k generalizing u n with
  | zero =>
      rw [Nat.mul_zero, List.drop_zero] at hz
      subst hz
      cases n with
      | zero => rfl
      | succ n => rfl
  | succ k ih =>
      obtain ⟨lo, hi, rest, rfl⟩ : ∃ lo hi rest, u = lo :: hi :: rest := by
        obtain ⟨lo, u, rfl⟩ := List.exists_cons_of_length_pos (show 0 < u.length by omega)
        rw [List.length_cons] at hu
        obtain ⟨hi, u, rfl⟩ := List.exists_cons_of_length_pos (show 0 < u.length by omega)
        exact ⟨lo, hi, u, rfl⟩
      cases n with
      | zero => exact absurd hk (by omega)
      | succ n =>
          rw [List.length_cons, List.length_cons] at hu
          rw [show 2 * (k + 1) = 2 * k + 1 + 1 by omega, List.drop_succ_cons,
            List.drop_succ_cons] at hz
          rw [convertUnits, nameOf, ih (by omega) hz (by omega), ok_bind]
          split_ifs <;> rfl

theorem Parts.convertUnits (p : Parts) {n : ℕ} (h : 13 * p.count ≤ n) :
    LongNames.convertUnits wcstombs p.chars n = .ok (nameOf wcstombs p.chars) :=
  convertUnits_of_ended (by rw [p.length_chars]; omega)
    (by rw [show 2 * (13 * p.count) = 26 * p.count by omega, p.ended]) h

end Conversion

section Calls
variable (fill : ℕ → UInt8) {s : LfnState} {e : FatDirLayout} {i : ℕ}

/-- `lfn_check_orphaned` prints what is held and forgets it. -/
theorem lfnCheckOrphaned_of_represents {p : Option Parts} (h : Represents s p) :
    ∃ t, lfnCheckOrphaned wcstombs s = .ok (t, p.toList.map fun p => nameOf wcstombs p.chars) ∧
      Represents t none := by
  cases p with
  | none =>
      refine ⟨s, ?_, h⟩
      rw [lfnCheckOrphaned, if_pos h.1]
      rfl
  | some p =>
      obtain ⟨front, hf, hu⟩ := h.unicode
      have hslot : s.slot ≠ -1 := by
        rw [h.slot]
        omega
      have hoff : s.slot.toNat * charsPerLfn * 2 = front.length := by
        rw [h.slot, Int.toNat_natCast, hf, charsPerLfn]
        omega
      refine ⟨lfnReset s, ?_, represents_lfnReset s⟩
      rw [lfnCheckOrphaned, if_neg hslot, hoff, hu, cnvUnicode]
      simp only [List.drop_left]
      rw [p.convertUnits (by rw [h.parts, charsPerLfn]; omega), ok_bind]
      rfl

theorem store_of_missing {front tail o : Bytes} {m : ℕ} (lines : List Text)
    (hs : s.slot = m + 1) (hf : front.length = 26 * (m + 1)) (ht : 2 ≤ tail.length)
    (hu : s.unicode = some (front ++ tail)) (ho : s.offsets = some o)
    (hc : HasCell 4 o s.parts) :
    storePart s e i lines = .ok ({ s with
      unicode := some (front.take (26 * m) ++ joinPart e tail)
      slot := m
      offsets := some (setCell 4 o s.parts i)
      parts := s.parts + 1 }, lines) := by
  have hslot : s.slot ≠ -1 := by rw [hs]; omega
  have hoff : (s.slot - 1).toNat * charsPerLfn * 2 = (front.take (26 * m)).length := by
    rw [hs, Int.add_sub_cancel, Int.toNat_natCast, List.length_take, hf, charsPerLfn]
    omega
  have hpart := length_copyLfnPart e
  have hold : (copyLfnPart e).length = (front.drop (26 * m)).length := by
    rw [List.length_drop, hf, hpart]
    omega
  have hblock : front ++ tail = front.take (26 * m) ++ (front.drop (26 * m) ++ tail) := by
    rw [← List.append_assoc, List.take_append_drop]
  have hlen : (front.take (26 * m)).length + (copyLfnPart e).length ≤ (front ++ tail).length := by
    rw [List.length_append, List.length_take, hf, hpart]
    omega
  have hcopy : copyIn (front ++ tail) (front.take (26 * m)).length (copyLfnPart e) =
      .ok (front.take (26 * m) ++ (copyLfnPart e ++ tail)) := by
    rw [copyIn_of_le hlen, hblock, splice_append_middle hold]
  have hzero : copyIn (front.take (26 * m) ++ (copyLfnPart e ++ tail))
      ((front.take (26 * m)).length + 26) [0, 0] =
        .ok (front.take (26 * m) ++ (copyLfnPart e ++ ([0, 0] ++ tail.drop 2))) := by
    have hpre : (front.take (26 * m)).length + 26 =
        (front.take (26 * m) ++ copyLfnPart e).length := by
      rw [List.length_append, hpart]
    have htwo : ([0, 0] : Bytes).length = (tail.take 2).length := by
      rw [List.length_take, Nat.min_eq_left ht]
      rfl
    have hsplit : front.take (26 * m) ++ (copyLfnPart e ++ tail) =
        front.take (26 * m) ++ copyLfnPart e ++ (tail.take 2 ++ tail.drop 2) := by
      rw [List.take_append_drop, List.append_assoc]
    rw [copyIn_of_le (by simp only [List.length_append, hpart, List.length_cons,
        List.length_nil]; omega), hpre, hsplit, splice_append_middle htwo, List.append_assoc]
  rw [storePart, if_neg hslot, hu, ho]
  simp only [hoff, hcopy, ok_bind]
  rw [show (e.nameHead &&& lfnIdStart != 0) = marksEnd e from rfl, joinPart, hs,
    Int.add_sub_cancel]
  split_ifs
  · rw [hzero, ok_bind]
  · rfl

theorem forget_of_represents {p : Option Parts} (h : Represents s p) :
    ∃ t, (if s.slot = 0 then lfnCheckOrphaned wcstombs s else .ok (s, [])) =
        .ok (t, orphans wcstombs p) ∧
      Represents t (p.filter fun p => p.missing ≠ 0) := by
  cases p with
  | none => exact ⟨s, by rw [if_neg (by rw [h.1]; decide)]; rfl, h⟩
  | some p =>
      by_cases hm : p.missing = 0
      · obtain ⟨t, ht, hr⟩ := lfnCheckOrphaned_of_represents wcstombs h
        refine ⟨t, ?_, ?_⟩
        · rw [if_pos (by rw [h.slot, hm]; rfl), ht, orphans_of_whole wcstombs hm]
          rfl
        · rwa [Option.filter_some_neg (by simpa using hm)]
      · refine ⟨s, ?_, ?_⟩
        · rw [if_neg (by rw [h.slot]; exact_mod_cast hm), orphans_of_missing wcstombs hm]
        · rwa [Option.filter_some_pos (by simpa using hm)]

/-- The state in which `lfn_add_slot` stores a part. -/
def openName (fill : ℕ → UInt8) (e : FatDirLayout) (s : LfnState) : LfnState :=
  if opensName e then
    { unicode := some (malloc fill ((slotNumber e * charsPerLfn + 1) * 2))
      checksum := UInt8.ofNat (value (slice e.bytes 13 1))
      slot := slotNumber e
      offsets := some (malloc fill (slotNumber e * 4))
      parts := 0 }
  else s

theorem lfnAddSlot_bind (s : LfnState) (e : FatDirLayout) (i : ℕ) :
    lfnAddSlot fill wcstombs s e i =
      (if s.slot = 0 then lfnCheckOrphaned wcstombs s else .ok (s, [])) >>= fun r =>
        if e.attr != vfatLnAttr then .error .died
        else storePart (openName fill e r.1) e i r.2 := by
  by_cases hs : s.slot = 0
  · simp only [lfnAddSlot, if_pos hs]
    cases lfnCheckOrphaned wcstombs s <;> rfl
  · simp only [lfnAddSlot, if_neg hs]
    rfl

theorem lfnAddSlot_eq {r : LfnState} {lines : List Text} (he : e.attr = vfatLnAttr)
    (h : (if s.slot = 0 then lfnCheckOrphaned wcstombs s else .ok (s, [])) = .ok (r, lines)) :
    lfnAddSlot fill wcstombs s e i = storePart (openName fill e r) e i lines := by
  rw [lfnAddSlot_bind, h, ok_bind, he]
  exact if_neg (by decide)

theorem store_holds {u o : Bytes} {p : Parts} (lines : List Text)
    (hs : s.slot = p.missing + 1) (hp : s.parts + 1 = p.count) (hu : s.unicode = some u)
    (hroom : 26 * (p.missing + 1) + 2 ≤ u.length)
    (hchars : p.chars = joinPart e (u.drop (26 * (p.missing + 1)))) (ho : s.offsets = some o)
    (hlen : o.length = 4 * (p.missing + p.count))
    (hfirst : cell 4 (setCell 4 o s.parts i) 0 = p.first) :
    ∃ t, storePart s e i lines = .ok (t, lines) ∧ Holds t p := by
  have hc : HasCell 4 o s.parts := by
    rw [HasCell, hlen]
    omega
  have hfront : (u.take (26 * (p.missing + 1))).length = 26 * (p.missing + 1) := by
    rw [List.length_take]
    omega
  have htail : 2 ≤ (u.drop (26 * (p.missing + 1))).length := by
    rw [List.length_drop]
    omega
  have hblock : s.unicode = some (u.take (26 * (p.missing + 1)) ++ u.drop (26 * (p.missing + 1))) :=
    by rw [hu, List.take_append_drop]
  have hstore := store_of_missing (i := i) (e := e) lines hs hfront htail hblock ho hc
  have hless : ((u.take (26 * (p.missing + 1))).take (26 * p.missing)).length =
      26 * p.missing := by
    rw [List.length_take, hfront]
    omega
  exact ⟨_, hstore, rfl, hp, ⟨_, hless, by rw [hchars]⟩,
    ⟨_, rfl, (length_setCell i hc).trans hlen, hfirst⟩⟩

/-- A name is opened in new blocks, whatever the old ones hold. -/
theorem store_of_opensName {r : LfnState} (lines : List Text) (h : opensName e) :
    ∃ t, storePart (openName fill e r) e i lines = .ok (t, lines) ∧
      Holds t (.ofSlot e i h) := by
  have hn : slotNumber e - 1 + 1 = slotNumber e := Nat.sub_one_add_one h.2
  have hsize : (malloc fill ((slotNumber e * charsPerLfn + 1) * 2)).length =
      26 * slotNumber e + 2 := by
    rw [length_malloc, charsPerLfn]
    omega
  have hwords : (malloc fill (slotNumber e * 4)).length = 4 * slotNumber e := by
    rw [length_malloc, Nat.mul_comm]
  rw [openName, if_pos h]
  refine store_holds lines ?_ rfl rfl ?_ ?_ rfl ?_ (cell_setCell_self 4 _ 0 i)
  · change (slotNumber e : ℤ) = ((slotNumber e - 1 : ℕ) : ℤ) + 1
    exact_mod_cast hn.symm
  · rw [hsize, Parts.ofSlot, hn]
  · have hend : ((malloc fill ((slotNumber e * charsPerLfn + 1) * 2)).drop
        (26 * slotNumber e)).drop 2 = [] := by
      rw [List.drop_drop, List.drop_of_length_le hsize.le]
    rw [Parts.ofSlot, hn, joinPart, if_pos h.1, hend, List.append_nil]
  · rw [hwords, Parts.ofSlot, hn]

/-- `lfn_add_slot` prints an unclaimed name and holds what `next` says. -/
theorem lfnAddSlot_of_represents {p : Option Parts} (he : e.attr = vfatLnAttr)
    (h : Represents s p) : ∃ t, lfnAddSlot fill wcstombs s e i = .ok (t, orphans wcstombs p) ∧
      Represents t (next p e i) := by
  obtain ⟨r, hr, hrep⟩ := forget_of_represents wcstombs h
  rw [lfnAddSlot_eq wcstombs fill he hr]
  by_cases hopen : opensName e
  · obtain ⟨t, ht, hold⟩ := store_of_opensName fill (i := i) (r := r) (orphans wcstombs p) hopen
    exact ⟨t, ht, by rw [next_of_opensName hopen]; exact hold⟩
  · rw [openName, if_neg hopen]
    cases p with
    | none =>
        have hslot : r.slot = -1 := hrep.1
        exact ⟨r, by rw [storePart, if_pos hslot], by rw [next_none hopen]; exact hrep⟩
    | some p =>
        by_cases hm : p.missing = 0
        · rw [Option.filter_some_neg (by simpa using hm)] at hrep
          have hslot : r.slot = -1 := hrep.1
          exact ⟨r, by rw [storePart, if_pos hslot], by rw [next_of_whole hopen hm]; exact hrep⟩
        · rw [Option.filter_some_pos (by simpa using hm)] at hrep
          obtain ⟨front, hf, hu⟩ := hrep.unicode
          obtain ⟨o, ho, hlen, hfirst⟩ := hrep.offsets
          have hcount := p.count_pos
          have hchars := p.length_chars
          have hmissing : (p.extend e hm).missing + 1 = p.missing := Nat.succ_pred_eq_of_ne_zero hm
          have hmore : (p.extend e hm).count = p.count + 1 := rfl
          have hcells : HasCell 4 o 0 := by
            rw [HasCell, hlen]
            omega
          have hdrop : (front ++ p.chars).drop (26 * p.missing) = p.chars := by
            rw [← hf, List.drop_left]
          have hroom : 26 * ((p.extend e hm).missing + 1) + 2 ≤ (front ++ p.chars).length := by
            rw [hmissing, List.length_append, hf]
            omega
          obtain ⟨t, ht, hold⟩ := store_holds (e := e) (i := i) (p := p.extend e hm)
            (orphans wcstombs (some p)) (by rw [hrep.slot, ← hmissing]; rfl)
            (by rw [hrep.parts]; rfl) hu
            hroom
            (by rw [hmissing, hdrop]; rfl) ho
            (by omega)
            (by rw [cell_setCell_ne _ hcells (by rw [hrep.parts]; omega), hfirst]; rfl)
          exact ⟨t, ht, by rw [next_of_missing hopen hm]; exact hold⟩

/-- `lfn_get` returns a whole name and forgets what is held. -/
theorem lfnGet_of_represents {p : Option Parts} (he : e.attr ≠ vfatLnAttr)
    (h : Represents s p) : ∃ t, lfnGet wcstombs s e = .ok (t, claimed wcstombs p) ∧
      Represents t none := by
  refine ⟨lfnReset s, ?_, represents_lfnReset s⟩
  cases p with
  | none =>
      rw [lfnGet, if_neg he, if_pos (by rw [h.1]; decide)]
      rfl
  | some p =>
      by_cases hm : p.missing = 0
      · obtain ⟨front, hf, hu⟩ := h.unicode
        obtain ⟨o, ho, hlen, hoff⟩ := h.offsets
        have hslot : ¬ s.slot ≠ 0 := by rw [h.slot, hm]; decide
        have hfront : front = [] := List.eq_nil_of_length_eq_zero (by rw [hf, hm])
        have hcount := p.count_pos
        have hcell : HasCell 4 o 0 := by
          rw [HasCell, hlen]
          omega
        have hfits := p.fits
        rw [lfnGet, if_neg he, if_neg hslot, ho, claimed_of_whole wcstombs hm]
        simp only [firstOffset, if_pos hcell, ok_bind, hoff, hu, hfront, cnvUnicode,
          List.nil_append, List.drop_zero]
        rw [p.convertUnits (by rw [until0]; omega), ok_bind]
      · rw [lfnGet, if_neg he, if_pos (by rw [h.slot]; exact_mod_cast hm),
          claimed_of_missing wcstombs hm]

end Calls

end TFAT.LongNameParts
