import TFAT.SlotSequences

/-!
# The round trip of a long name

VFAT stores a name of 16-bit characters in slots of thirteen, the last slot first.
A name that does not fill its last slot is ended there by a zero character. The
parser gives the name back from whatever state it was left in: it either forgets
the old parts or prints them as an orphan, and the slot that opens the name brings
a zero character of its own for the names that fill their last slot.
-/
namespace TFAT.LongNameRoundTrip
open ByteRegions LittleEndianWords DiskLayout PathText LongNames LongNameParts ListedNames
open SlotSequences

/-- The bytes of 16-bit characters. -/
def unitBytes (w : List UInt16) : Bytes := w.flatMap fun u => encode 2 u.toNat

def slotCount (w : List UInt16) : ℕ := (w.length + charsPerLfn - 1) / charsPerLfn

/-- The characters that the slots of a name store. -/
def padded (w : List UInt16) : List UInt16 :=
  if w.length % charsPerLfn = 0 then w
  else w ++ 0 :: List.replicate (charsPerLfn * slotCount w - w.length - 1) 0xFFFF

/-- The slots that VFAT stores for a name, in the order of the directory. -/
structure Encodes (w : List UInt16) (slots : List FatDirLayout) : Prop where
  counted : slots.length = slotCount w
  vfat : ∀ d ∈ slots, d.attr = vfatLnAttr
  numbered : slots.map (fun d => d.nameHead.toNat) = slotIds slots.length
  stored : slots.reverse.flatMap copyLfnPart = unitBytes (padded w)

variable (fill : ℕ → UInt8) (wcstombs : ℕ → Option Text)

/-- The states of the parser behind any sequence of its calls. -/
inductive Reached : LfnState → Prop
  | start : Reached .initial
  | slot {s : LfnState} {d : FatDirLayout} {i : ℕ} {r : LfnState × List Text} : Reached s →
      d.attr = vfatLnAttr → lfnAddSlot fill wcstombs s d i = .ok r → Reached r.1
  | entry {s : LfnState} {e : FatDirLayout} {r : LfnState × Option (Text × ℕ)} : Reached s →
      e.attr ≠ vfatLnAttr → lfnGet wcstombs s e = .ok r → Reached r.1
  | orphan {s : LfnState} {r : LfnState × List Text} : Reached s →
      lfnCheckOrphaned wcstombs s = .ok r → Reached r.1

def addSlots : LfnState → List FatDirLayout → ℕ → Except Fault LfnState
  | s, [], _ => .ok s
  | s, d :: slots, i => do
      let (t, _) ← lfnAddSlot fill wcstombs s d i
      addSlots t slots (i + 1)

section States
variable {fill wcstombs} {s : LfnState}

/-- Every call keeps the globals a representation of what the parser holds. -/
theorem Reached.represents (h : Reached fill wcstombs s) : ∃ p, Represents s p := by
  induction h with
  | start => exact ⟨none, represents_initial⟩
  | slot _ hd hr ih =>
      obtain ⟨p, hp⟩ := ih
      obtain ⟨t, ht, hrep⟩ := lfnAddSlot_of_represents wcstombs fill hd hp
      rw [ht, Except.ok.injEq] at hr
      exact ⟨_, by rw [← hr]; exact hrep⟩
  | entry _ he hr ih =>
      obtain ⟨p, hp⟩ := ih
      obtain ⟨t, ht, hrep⟩ := lfnGet_of_represents wcstombs he hp
      rw [ht, Except.ok.injEq] at hr
      exact ⟨_, by rw [← hr]; exact hrep⟩
  | orphan _ hr ih =>
      obtain ⟨p, hp⟩ := ih
      obtain ⟨t, ht, hrep⟩ := lfnCheckOrphaned_of_represents wcstombs hp
      rw [ht, Except.ok.injEq] at hr
      exact ⟨_, by rw [← hr]; exact hrep⟩

variable (fill wcstombs)

theorem addSlots_of_missing {q : Parts} {slots : List FatDirLayout} {i : ℕ}
    (hv : ∀ d ∈ slots, d.attr = vfatLnAttr) (hn : ∀ d ∈ slots, ¬ opensName d)
    (hm : q.missing = slots.length) (hq : Represents s (some q)) :
    ∃ t q', addSlots fill wcstombs s slots i = .ok t ∧ Represents t (some q') ∧ q'.missing = 0 ∧
      q'.chars = gather slots q.chars ∧ q'.first = q.first := by
  induction slots generalizing s q i with
  | nil => exact ⟨s, q, rfl, hq, hm, rfl, rfl⟩
  | cons d slots ih =>
      have hne : q.missing ≠ 0 := by
        rw [hm, List.length_cons]
        omega
      obtain ⟨t, ht, hrep⟩ := lfnAddSlot_of_represents wcstombs fill (i := i) (hv d (by simp)) hq
      rw [next_of_missing (hn d (by simp)) hne] at hrep
      obtain ⟨u, q', hu, hq', hzero, hchars, hfirst⟩ := ih (i := i + 1)
        (fun c hc => hv c (by simp [hc])) (fun c hc => hn c (by simp [hc]))
        (by rw [Parts.extend_missing, hm, List.length_cons, Nat.add_sub_cancel]) hrep
      refine ⟨u, q', ?_, hq', hzero, hchars, hfirst⟩
      rw [addSlots, ht, ok_bind]
      exact hu

/-- From any state, numbered slots leave the whole of their name, and the place of the
first of them. -/
theorem addSlots_of_numbered {p : Option Parts} {slots : List FatDirLayout} (i : ℕ)
    (hv : ∀ d ∈ slots, d.attr = vfatLnAttr)
    (hids : slots.map (fun d => d.nameHead.toNat) = slotIds slots.length) (hne : slots ≠ [])
    (hn : slots.length ≤ 31) (hp : Represents s p) :
    ∃ t q, addSlots fill wcstombs s slots i = .ok t ∧ Represents t (some q) ∧ q.missing = 0 ∧
      q.chars = slotChars slots ∧ q.first = i % 2 ^ 32 := by
  obtain ⟨start, rest, rfl, hopens, hnumber, hsmall⟩ := start_of_numbered hids hne hn
  obtain ⟨u, hu, hrep⟩ := lfnAddSlot_of_represents wcstombs fill (i := i) (hv start (by simp)) hp
  rw [next_of_opensName hopens] at hrep
  obtain ⟨t, q, ht, hq, hm, hchars, hfirst⟩ := addSlots_of_missing fill wcstombs (i := i + 1)
    (fun d hd => hv d (by simp [hd])) (fun d hd => not_opensName_of_lt (hsmall d hd))
    (by rw [Parts.ofSlot_missing, hnumber, Nat.add_sub_cancel]) hrep
  refine ⟨t, q, ?_, hq, hm, hchars.trans (gather_slotChars hsmall), hfirst⟩
  rw [addSlots, hu, ok_bind]
  exact ht

end States

section Characters
variable {wcstombs} {w : List UInt16}

/-- The bytes of a character that is not zero are not both zero. -/
theorem encode_unit {u : UInt16} (h : u ≠ 0) :
    ∃ lo hi, encode 2 u.toNat = [lo, hi] ∧ ¬ (lo = 0 ∧ hi = 0) := by
  refine ⟨_, _, rfl, ?_⟩
  rintro ⟨hlo, hhi⟩
  have hvalue : value (encode 2 u.toNat) = 0 := by
    rw [encode, hlo, encode, hhi]
    rfl
  rw [value_encode, Nat.mod_eq_of_lt (show u.toNat < 256 ^ 2 from u.toNat_lt)] at hvalue
  exact h (UInt16.toNat_inj.mp hvalue)

theorem nameOf_unitBytes (hw : ∀ u ∈ w, u ≠ 0) {r : Bytes} :
    nameOf wcstombs (unitBytes w ++ 0 :: 0 :: r) = nameOf wcstombs (unitBytes w ++ [0, 0]) := by
  induction w with
  | nil => rfl
  | cons u w ih =>
      obtain ⟨lo, hi, hu, hne⟩ := encode_unit (hw u (by simp))
      have hcons : unitBytes (u :: w) = lo :: hi :: unitBytes w := by
        rw [unitBytes, List.flatMap_cons, hu]
        rfl
      rw [hcons, List.cons_append, List.cons_append, List.cons_append, List.cons_append, nameOf,
        nameOf, if_neg hne, if_neg hne, ih fun c hc => hw c (by simp [hc])]

/-- The slots of a name convert to the name. -/
theorem nameOf_padded (hw : ∀ u ∈ w, u ≠ 0) :
    nameOf wcstombs (unitBytes (padded w) ++ [0, 0]) =
      nameOf wcstombs (unitBytes w ++ [0, 0]) := by
  unfold padded
  split_ifs
  · rfl
  · rw [unitBytes, List.flatMap_append, List.flatMap_cons, ← unitBytes, List.append_assoc,
      List.append_assoc]
    exact nameOf_unitBytes hw

theorem length_unitBytes (w : List UInt16) : (unitBytes w).length = 2 * w.length := by
  induction w with
  | nil => rfl
  | cons u w ih =>
      rw [unitBytes, List.flatMap_cons, ← unitBytes, List.length_append, length_encode, ih,
        List.length_cons]
      omega

theorem cnvUnicode_unitBytes (h : w.length ≤ until0) :
    cnvUnicode wcstombs (some (unitBytes w ++ [0, 0])) 0 until0 =
      .ok (nameOf wcstombs (unitBytes w ++ [0, 0])) := by
  refine convertUnits_of_ended (k := w.length) ?_ ?_ h
  · rw [List.drop_zero, List.length_append, length_unitBytes]
    rfl
  · rw [List.drop_zero, ← length_unitBytes, List.drop_left]

end Characters

section Encoding
variable {w : List UInt16}

def slotOf (id : UInt8) (chars : Bytes) (h : chars.length = 26) : FatDirLayout where
  bytes := [id] ++ (slice chars 0 10 ++ ([vfatLnAttr, 0, 0] ++
    (slice chars 10 12 ++ ([0, 0] ++ slice chars 22 4))))
  length_bytes := by
    simp only [List.length_append, length_slice, h, List.length_cons, List.length_nil]
    rfl

theorem copyLfnPart_slotOf (id : UInt8) {chars : Bytes} (h : chars.length = 26) :
    copyLfnPart (slotOf id chars h) = chars := by
  have hlen (off n : ℕ) (hn : off + n ≤ 26) : (slice chars off n).length = n :=
    length_slice_of_le (by rw [h]; exact hn)
  have h₁ : slice (slotOf id chars h).bytes 1 10 = slice chars 0 10 := by
    have hs := slice_append_middle [id] (slice chars 0 10) ([vfatLnAttr, 0, 0] ++
      (slice chars 10 12 ++ ([0, 0] ++ slice chars 22 4)))
    rwa [hlen 0 10 (by omega)] at hs
  have h₂ : slice (slotOf id chars h).bytes 14 12 = slice chars 10 12 := by
    have hs := slice_append_middle ([id] ++ (slice chars 0 10 ++ [vfatLnAttr, 0, 0]))
      (slice chars 10 12) ([0, 0] ++ slice chars 22 4)
    rw [hlen 10 12 (by omega), List.length_append, List.length_append, hlen 0 10 (by omega)] at hs
    rw [← hs, slotOf]
    simp only [List.append_assoc]
    rfl
  have h₃ : slice (slotOf id chars h).bytes 28 4 = slice chars 22 4 := by
    have hs := slice_append_middle ([id] ++ (slice chars 0 10 ++ ([vfatLnAttr, 0, 0] ++
      (slice chars 10 12 ++ [0, 0])))) (slice chars 22 4) []
    rw [hlen 22 4 (by omega)] at hs
    simp only [List.length_append, hlen 0 10 (by omega), hlen 10 12 (by omega)] at hs
    rw [← hs, slotOf]
    simp only [List.append_assoc, List.append_nil]
    rfl
  have hall : slice chars 0 (10 + 12 + 4) = chars := by
    have hs := slice_zero_length chars
    rwa [h] at hs
  rw [copyLfnPart, h₁, h₂, h₃, slice_append_slice, slice_append_slice, hall]

theorem attr_slotOf (id : UInt8) {chars : Bytes} (h : chars.length = 26) :
    (slotOf id chars h).attr = vfatLnAttr := by
  have hlen : (slice chars 0 10).length = 10 := length_slice_of_le (by rw [h]; omega)
  have hs := slice_append_middle ([id] ++ slice chars 0 10) [vfatLnAttr]
    ([0, 0] ++ (slice chars 10 12 ++ ([0, 0] ++ slice chars 22 4)))
  rw [List.length_append, hlen] at hs
  have hattr : slice (slotOf id chars h).bytes 11 1 = [vfatLnAttr] := by
    rw [← hs, slotOf]
    simp only [List.append_assoc]
    rfl
  rw [FatDirLayout.attr, hattr]
  rfl

theorem nameHead_slotOf (id : UInt8) {chars : Bytes} (h : chars.length = 26) :
    (slotOf id chars h).nameHead = id := by
  have hs : slice (slotOf id chars h).bytes 0 1 = [id] := rfl
  rw [FatDirLayout.nameHead, hs]
  simp [value]

theorem length_slotIds (n : ℕ) : (slotIds n).length = n := by
  cases n with
  | zero => rfl
  | succ n => rw [slotIds, List.length_cons, List.length_reverse, List.length_range']

theorem lt_of_mem_slotIds {n k : ℕ} (hn : n ≤ 31) (hk : k ∈ slotIds n) : k < 256 := by
  cases n with
  | zero => cases hk
  | succ n =>
      rw [slotIds, List.mem_cons, List.mem_reverse, List.mem_range'_1] at hk
      rcases hk with rfl | hk
      · exact Nat.or_lt_two_pow (show 0x40 < 2 ^ 8 by norm_num) (by omega)
      · omega

theorem exists_slots {ids : List ℕ} (hids : ∀ n ∈ ids, n < 256) {b : Bytes}
    (hb : b.length = 26 * ids.length) : ∃ slots : List FatDirLayout,
      (∀ d ∈ slots, d.attr = vfatLnAttr) ∧ slots.map (fun d => d.nameHead.toNat) = ids ∧
        slots.reverse.flatMap copyLfnPart = b := by
  induction ids generalizing b with
  | nil => exact ⟨[], by simp, rfl, (List.eq_nil_of_length_eq_zero hb).symm⟩
  | cons n ids ih =>
      have hlast : (b.drop (26 * ids.length)).length = 26 := by
        rw [List.length_drop, hb, List.length_cons]
        omega
      obtain ⟨slots, hv, hn, hs⟩ := ih (fun k hk => hids k (by simp [hk]))
        (show (b.take (26 * ids.length)).length = _ by
          rw [List.length_take, hb, List.length_cons]
          omega)
      refine ⟨slotOf (UInt8.ofNat n) _ hlast :: slots, fun d hd => ?_, ?_, ?_⟩
      · rcases List.mem_cons.mp hd with rfl | hd
        · exact attr_slotOf _ _
        · exact hv d hd
      · rw [List.map_cons, hn, nameHead_slotOf, UInt8.toNat_ofNat',
          Nat.mod_eq_of_lt (hids n (by simp))]
      · rw [List.reverse_cons, List.flatMap_append, hs, List.flatMap_singleton,
          copyLfnPart_slotOf, List.take_append_drop]

/-- The slots of a name are full. -/
theorem length_padded (w : List UInt16) : (padded w).length = 13 * slotCount w := by
  unfold padded slotCount charsPerLfn
  split_ifs
  · omega
  · rw [List.length_append, List.length_cons, List.length_replicate]
    omega

theorem exists_encodes (h : w.length ≤ 403) : ∃ slots, Encodes w slots := by
  have hn : slotCount w ≤ 31 := by
    rw [slotCount, charsPerLfn]
    omega
  have hb : (unitBytes (padded w)).length = 26 * (slotIds (slotCount w)).length := by
    rw [length_unitBytes, length_slotIds, length_padded]
    omega
  obtain ⟨slots, hv, hn, hs⟩ := exists_slots (fun k => lt_of_mem_slotIds hn) hb
  have hcount : slots.length = slotCount w := by
    rw [← length_slotIds (slotCount w), ← hn, List.length_map]
  exact ⟨slots, hcount, hv, by rw [hn, hcount], hs⟩

end Encoding

/-- From every state of the parser, the slots of a name and the entry behind them give the
name back with the place of its first slot, and leave the parser reset. -/
theorem lfnGet_of_encodes {fill : ℕ → UInt8} {wcstombs : ℕ → Option Text} {s : LfnState}
    {w : List UInt16} {slots : List FatDirLayout} {e : FatDirLayout} {d : ℕ}
    (hs : Reached fill wcstombs s) (hw : w ≠ []) (hlen : w.length ≤ 403)
    (hzero : ∀ u ∈ w, u ≠ 0) (hslots : Encodes w slots) (hd : d < 2 ^ 32)
    (he : e.attr ≠ vfatLnAttr) :
    ∃ t r text, addSlots fill wcstombs s slots d = .ok t ∧
      lfnGet wcstombs t e = .ok (r, some (text, d)) ∧
      cnvUnicode wcstombs (some (unitBytes w ++ [0, 0])) 0 until0 = .ok text ∧
      r.slot = -1 ∧ r.unicode = none ∧ r.offsets = none := by
  obtain ⟨p, hp⟩ := hs.represents
  have hpos : 0 < w.length := List.length_pos_of_ne_nil hw
  have hcount : slots.length = (w.length + 13 - 1) / 13 := hslots.counted
  have hne : slots ≠ [] := by
    rw [← List.length_pos_iff, hcount]
    omega
  obtain ⟨t, q, ht, hq, hm, hchars, hfirst⟩ := addSlots_of_numbered fill wcstombs d
    hslots.vfat hslots.numbered hne (by omega) hp
  obtain ⟨r, hr, hreset⟩ := lfnGet_of_represents wcstombs he hq
  rw [claimed_of_whole wcstombs hm, hfirst, Nat.mod_eq_of_lt hd, hchars, slotChars,
    hslots.stored, nameOf_padded hzero] at hr
  exact ⟨t, r, _, ht, hr, cnvUnicode_unitBytes (by rw [until0]; omega), hreset⟩

/-- A name of thirty letters in three slots, the first one at offset 5, read by a parser that holds
an older name. -/
theorem thirty_round_trip : ∃ s slots, Reached (fun _ => 0) (fun _ => none) s ∧ s.slot = 0 ∧
    Encodes (List.replicate 30 0x58) slots ∧
    ∃ t r text, addSlots (fun _ => 0) (fun _ => none) s slots 5 = .ok t ∧
      lfnGet (fun _ => none) t (dirNamed 0x53 0x55 0x42 2) = .ok (r, some (text, 5)) ∧
      cnvUnicode (fun _ => none) (some (unitBytes (List.replicate 30 0x58) ++ [0, 0])) 0 until0 =
        .ok text ∧
      r.slot = -1 ∧ r.unicode = none ∧ r.offsets = none := by
  have hattr : (slotX 0).attr = vfatLnAttr := by decide
  obtain ⟨s, hs, hrep⟩ := lfnAddSlot_of_represents (fun _ => none) (fun _ => 0) (i := 0) hattr
    represents_initial
  rw [next_of_opensName slotX_opens.1.2] at hrep
  have hreached : Reached (fun _ => 0) (fun _ => none) s := .slot .start hattr hs
  obtain ⟨slots, hslots⟩ := exists_encodes (w := List.replicate 30 0x58) (by decide)
  refine ⟨s, slots, hreached, ?_, hslots, lfnGet_of_encodes hreached (by decide) (by decide)
    (by simp) hslots (by norm_num) (by decide)⟩
  rw [hrep.slot, Parts.ofSlot_missing]
  decide

end TFAT.LongNameRoundTrip
