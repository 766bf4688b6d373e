import TFAT.GatheredSlots

/-!
# The slots in front of an entry

A long name belongs to an entry if the slots directly in front of it count down to
one and carry the checksum of its short name. The parser of lfn.c asks less: it
counts the slots that come since the last one that opens a name, and it takes no
notice of their numbers, their checksums or the entries that `list` passes over.
A listing is right about an entry exactly when no other slots complete a name by
their count.
-/
namespace TFAT.SlotSequences
open ByteRegions LittleEndianWords LinkedChains DiskLayout FileDescriptor PathText EntryNames
open PathResolution ClusterTable LongNames LongNameParts UserCommands ListedNames GatheredSlots

def aliasChecksum (e : FatDirLayout) : UInt8 := UInt8.ofNat (value (slice e.bytes 13 1))

/-- The checksum that VFAT gives the eleven bytes of a short name. -/
def shortChecksum (name : Bytes) : UInt8 :=
  name.foldl (fun sum b => ((sum &&& 1) <<< 7) + (sum >>> 1) + b) 0

/-- The numbers of `n` slots in the order of the directory. -/
def slotIds : ℕ → List ℕ
  | 0 => []
  | n + 1 => (0x40 ||| (n + 1)) :: (List.range' 1 n).reverse

/-- The slots are all there are directly in front of the entry, live, with the right
numbers and the checksum of the entry. -/
structure Belong (es : List FatDirLayout) (e : FatDirLayout) (slots : List FatDirLayout) :
    Prop where
  directly : ∃ front, es = front ++ slots
  nonempty : slots ≠ []
  live : ∀ d ∈ slots, isSlot d = true
  numbered : slots.map (fun d => d.nameHead.toNat) = slotIds slots.length
  checked : ∀ d ∈ slots, aliasChecksum d = shortChecksum (slice e.bytes 0 11)

def slotChars (slots : List FatDirLayout) : Bytes := slots.reverse.flatMap copyLfnPart ++ [0, 0]

/-- The slots complete a name by their count. -/
def CompletesByCount (es : List FatDirLayout) : Prop :=
  ∃ start rest, OpenedBy false es start rest ∧ rest.length + 1 = slotNumber start

section Counting
variable {es : List FatDirLayout}

/-- Behind entries that start from a reset parser, it holds what their count says. -/
theorem afterAll_eq_some_iff {m : ℕ} {chars : Bytes} :
    (∃ q, afterAll false none 0 es = some q ∧ q.missing = m ∧ q.chars = chars) ↔
      ∃ start rest, OpenedBy false es start rest ∧ rest.length + 1 + m = slotNumber start ∧
        chars = gather rest (copyLfnPart start ++ [0, 0]) := by
  rw [afterAll_iff_gathered, Gathered, or_iff_left]
  rintro ⟨q, hq, -⟩
  cases hq

end Counting

section Numbers
variable {es slots : List FatDirLayout} {d e : FatDirLayout} {n : ℕ}

theorem marksEnd_of_lt (h : d.nameHead.toNat < 64) : marksEnd d = false := by
  have hall : ∀ k < 64, UInt8.ofNat k &&& lfnIdStart = 0 := by decide
  have hid := hall _ h
  rw [UInt8.ofNat_toNat] at hid
  rw [marksEnd, hid]
  rfl

theorem not_opensName_of_lt (h : d.nameHead.toNat < 64) : ¬ opensName d := fun ho =>
  absurd ho.1 (by rw [marksEnd_of_lt h]; decide)

theorem opensName_of_id (h : d.nameHead.toNat = 0x40 ||| n) (h₀ : n ≠ 0) (hn : n ≤ 31) :
    opensName d ∧ slotNumber d = n := by
  have hall : ∀ k < 32, (UInt8.ofNat (0x40 ||| k) &&& lfnIdStart != 0) = true ∧
      (UInt8.ofNat (0x40 ||| k) &&& lfnIdSlotmask).toNat = k := by decide
  obtain ⟨hmark, hnumber⟩ := hall n (by omega)
  rw [← h, UInt8.ofNat_toNat] at hmark hnumber
  exact ⟨⟨hmark, by rw [slotNumber, hnumber]; exact h₀⟩, hnumber⟩

theorem gather_eq (h : ∀ d ∈ slots, marksEnd d = false) (chars : Bytes) :
    gather slots chars = slots.reverse.flatMap copyLfnPart ++ chars := by
  induction slots generalizing chars with
  | nil => rfl
  | cons d slots ih =>
      have hd := h d (by simp)
      rw [gather, List.foldl_cons, ← gather, ih (fun c hc => h c (by simp [hc])), joinPart,
        if_neg (by rw [hd]; decide), List.reverse_cons, List.flatMap_append,
        List.flatMap_singleton, List.append_assoc]

theorem Belong.id_of_reverse (h : Belong es e slots) {j : ℕ} (hj : j + 1 < slots.length)
    (hd : slots.reverse[j]? = some d) : d.nameHead.toNat = j + 1 := by
  obtain ⟨n, hn⟩ := Nat.exists_eq_succ_of_ne_zero (show slots.length ≠ 0 by omega)
  have hids : slots.reverse.map (fun d => d.nameHead.toNat) =
      List.range' 1 n ++ [0x40 ||| (n + 1)] := by
    rw [List.map_reverse, h.numbered, hn, slotIds, List.reverse_cons, List.reverse_reverse]
  have hget := congrArg (fun l => l[j]?) hids
  simp only [List.getElem?_map, hd, Option.map_some] at hget
  rw [List.getElem?_append_left (by rw [List.length_range']; omega),
    List.getElem?_range' (by omega), Option.some.injEq] at hget
  omega

theorem Belong.filter_eq (h : Belong es e slots) :
    ∃ front, es.filter (consults false) = front ++ slots := by
  obtain ⟨front, rfl⟩ := h.directly
  refine ⟨front.filter (consults false), ?_⟩
  have hself : slots.filter (consults false) = slots :=
    List.filter_eq_self.mpr fun d hd => by rw [consults, h.live d hd, Bool.true_or]
  rw [List.filter_append, hself]

/-- The first of numbered slots opens their name, and the others open none. -/
theorem start_of_numbered (hids : slots.map (fun d => d.nameHead.toNat) = slotIds slots.length)
    (hne : slots ≠ []) (hn : slots.length ≤ 31) :
    ∃ start rest, slots = start :: rest ∧ opensName start ∧ slotNumber start = rest.length + 1 ∧
      ∀ d ∈ rest, d.nameHead.toNat < 64 := by
  obtain ⟨start, rest, rfl⟩ := List.exists_cons_of_ne_nil hne
  rw [List.length_cons, slotIds, List.map_cons] at hids
  obtain ⟨hfirst, hrest⟩ := List.cons.inj hids
  rw [List.length_cons] at hn
  obtain ⟨hopens, hnumber⟩ := opensName_of_id hfirst (by omega) hn
  refine ⟨start, rest, rfl, hopens, hnumber, fun d hd => ?_⟩
  have hmem : d.nameHead.toNat ∈ (List.range' 1 rest.length).reverse := by
    rw [← hrest]
    exact List.mem_map_of_mem hd
  rw [List.mem_reverse, List.mem_range'_1] at hmem
  omega

theorem gather_slotChars {start : FatDirLayout} {rest : List FatDirLayout}
    (h : ∀ d ∈ rest, d.nameHead.toNat < 64) :
    gather rest (copyLfnPart start ++ [0, 0]) = slotChars (start :: rest) := by
  rw [gather_eq fun d hd => marksEnd_of_lt (h d hd), slotChars, List.reverse_cons,
    List.flatMap_append, List.flatMap_singleton, List.append_assoc]

/-- Slots that belong to an entry complete their name, with their characters. -/
theorem Belong.completes (h : Belong es e slots) (hn : slots.length ≤ 31) :
    ∃ start rest, OpenedBy false es start rest ∧ rest.length + 1 = slotNumber start ∧
      gather rest (copyLfnPart start ++ [0, 0]) = slotChars slots := by
  obtain ⟨start, rest, rfl, hopens, hnumber, hsmall⟩ :=
    start_of_numbered h.numbered h.nonempty hn
  refine ⟨start, rest, ⟨h.filter_eq, h.live _ (by simp), hopens, fun d hd => ?_⟩,
    hnumber.symm, gather_slotChars hsmall⟩
  exact ⟨h.live d (by simp [hd]), not_opensName_of_lt (hsmall d hd)⟩

/-- More than 31 slots complete no name. -/
theorem Belong.not_completes (h : Belong es e slots) (hn : 31 < slots.length) :
    ¬ CompletesByCount es := by
  rintro ⟨start, rest, ⟨⟨front, hfront⟩, -, hopens, -⟩, hcount⟩
  have hle := slotNumber_le start
  obtain ⟨front', hfront'⟩ := h.filter_eq
  have hj : slots.reverse[rest.length]? = some start := by
    have hlast : (es.filter (consults false)).reverse[rest.length]? = some start := by
      rw [hfront, List.reverse_append, List.reverse_cons, List.append_assoc,
        List.getElem?_append_right (by rw [List.length_reverse]), List.length_reverse,
        Nat.sub_self]
      rfl
    rw [hfront', List.reverse_append,
      List.getElem?_append_left (by rw [List.length_reverse]; omega)] at hlast
    exact hlast
  have hid := h.id_of_reverse (by omega) hj
  exact not_opensName_of_lt (by omega) hopens

end Numbers

variable (fill : ℕ → UInt8) (wcstombs : ℕ → Option Text) (v : Volume) (s₀ : LfnState)
variable (block : Bytes)

/-- A listing of `n` entries prints this long name, or none, beside the entry at `i`: it is
what `lfn_get` returns behind the entries in front of it. -/
def PrintsBeside (n i : ℕ) (e : FatDirLayout) (long : Option Text) : Prop :=
  ∃ s t r behind, list fill wcstombs v s₀ block i false = .ok s ∧
    lfnGet wcstombs s.lfn e = .ok r ∧ r.2.map Prod.fst = long ∧
    list fill wcstombs v s₀ block n false = .ok t ∧
    t.lines = s.lines ++ listLine v e ((baseName e).getD []) (long.getD []) :: behind

/-- The listing prints a long name beside the entry exactly when slots belong to it, and
then it is the conversion of their characters. -/
def NamedRight (n i : ℕ) (e : FatDirLayout) : Prop :=
  ∃ long, PrintsBeside fill wcstombs v s₀ block n i e long ∧
    (long ≠ none ↔ ∃ slots, Belong (entriesFrom block 0 i) e slots) ∧
    ∀ slots, Belong (entriesFrom block 0 i) e slots → ∃ t, long = some t ∧
      cnvUnicode wcstombs (some (slotChars slots)) 0 until0 = .ok t

section Right
variable {fill wcstombs v s₀ block} {n i : ℕ} {e : FatDirLayout}

theorem entriesFrom_append (i m n : ℕ) :
    entriesFrom block i (m + n) = entriesFrom block i m ++ entriesFrom block (i + m) n := by
  rw [entriesFrom, ← List.range'_append_1, List.filterMap_append]
  rfl

theorem listing_append (p : Option Parts) (i : ℕ) (es ds : List FatDirLayout) :
    listing wcstombs v false p i (es ++ ds) = listing wcstombs v false p i es ++
      listing wcstombs v false (afterAll false p i es) (i + es.length) ds := by
  induction es generalizing p i with
  | nil => rfl
  | cons d es ih =>
      rw [List.cons_append, listing, ih, listing, afterAll, List.length_cons, List.append_assoc,
        Nat.add_right_comm, ← Nat.add_assoc]

/-- What is printed beside an entry depends on what the parser holds there. -/
theorem printsBeside (h₀ : Represents s₀ none) (hb : entrySize * n ≤ block.length) (hi : i < n)
    (he : entryAt block i = .ok e) (hshown : isShown false e = true) :
    PrintsBeside fill wcstombs v s₀ block n i e
      ((claimed wcstombs (afterAll false none 0 (entriesFrom block 0 i))).map Prod.fst) := by
  have hattr : e.attr ≠ vfatLnAttr := fun ha => by
    rw [isShown_eq_false_of_attr ha] at hshown
    cases hshown
  have hslot : isSlot e = false := by
    by_contra hs
    exact hattr (attr_of_isSlot (by simpa using hs))
  have hbi : entrySize * i ≤ block.length :=
    (Nat.mul_le_mul_left _ hi.le).trans hb
  obtain ⟨l, hl, hr⟩ := list_of_represents wcstombs v false fill hbi h₀
  obtain ⟨r, hget, -⟩ := lfnGet_of_represents wcstombs hattr hr
  obtain ⟨m, hm, -⟩ := list_of_represents wcstombs v false fill hb h₀
  obtain ⟨k, rfl⟩ : ∃ k, n = i + (k + 1) := ⟨n - i - 1, by omega⟩
  have hlines : ∃ behind, listing wcstombs v false none 0 (entriesFrom block 0 (i + (k + 1))) =
      listing wcstombs v false none 0 (entriesFrom block 0 i) ++
        listLine v e ((baseName e).getD []) (((claimed wcstombs
          (afterAll false none 0 (entriesFrom block 0 i))).map Prod.fst).getD []) :: behind := by
    rw [entriesFrom_append, listing_append, Nat.zero_add, Nat.zero_add, entriesFrom_succ he,
      listing, printed, if_neg (by rw [hslot]; decide), if_pos hshown]
    exact ⟨_, rfl⟩
  obtain ⟨behind, hlines⟩ := hlines
  exact ⟨_, _, _, behind, hl, hget, rfl, hm, hlines⟩

theorem PrintsBeside.unique {long long' : Option Text}
    (h : PrintsBeside fill wcstombs v s₀ block n i e long)
    (h' : PrintsBeside fill wcstombs v s₀ block n i e long') : long = long' := by
  obtain ⟨s, -, r, -, hs, hr, rfl, -⟩ := h
  obtain ⟨s', -, r', -, hs', hr', rfl, -⟩ := h'
  rw [hs, Except.ok.injEq] at hs'
  rw [← hs', hr, Except.ok.injEq] at hr'
  rw [hr']

/-- A long name is claimed where slots complete one by their count. -/
theorem claimed_ne_none_iff {es : List FatDirLayout} :
    (claimed wcstombs (afterAll false none 0 es)).map Prod.fst ≠ none ↔ CompletesByCount es := by
  constructor
  · intro h
    cases hq : afterAll false none 0 es with
    | none => exact absurd (by rw [hq]; rfl) h
    | some q =>
        by_cases hm : q.missing = 0
        · obtain ⟨start, rest, hcounted, hcount, -⟩ :=
            afterAll_eq_some_iff.mp ⟨q, hq, hm, rfl⟩
          exact ⟨start, rest, hcounted, hcount⟩
        · exact absurd (by rw [hq, claimed_of_missing wcstombs hm]; rfl) h
  · rintro ⟨start, rest, hcounted, hcount⟩
    obtain ⟨q, hq, hm, -⟩ := afterAll_eq_some_iff (m := 0) |>.mpr
      ⟨start, rest, hcounted, hcount, rfl⟩
    rw [hq, claimed_of_whole wcstombs hm]
    exact Option.some_ne_none _

/-- Where a listing is right, the slots that complete a name belong to the entry. -/
theorem NamedRight.belong (h : NamedRight fill wcstombs v s₀ block n i e)
    (h₀ : Represents s₀ none) (hb : entrySize * n ≤ block.length) (hi : i < n)
    (he : entryAt block i = .ok e) (hshown : isShown false e = true) :
    CompletesByCount (entriesFrom block 0 i) ↔
      ∃ slots, Belong (entriesFrom block 0 i) e slots := by
  obtain ⟨long, hlong, hiff, -⟩ := h
  obtain rfl := hlong.unique (printsBeside h₀ hb hi he hshown)
  rwa [claimed_ne_none_iff] at hiff

/-- A listing is right about an entry exactly when no other slots than those that belong to
it complete a name in front of it, and no more than 31 belong to it. -/
theorem namedRight_iff (h₀ : Represents s₀ none) (hb : entrySize * n ≤ block.length) (hi : i < n)
    (he : entryAt block i = .ok e) (hshown : isShown false e = true) :
    NamedRight fill wcstombs v s₀ block n i e ↔
      (CompletesByCount (entriesFrom block 0 i) →
        ∃ slots, Belong (entriesFrom block 0 i) e slots) ∧
      ∀ slots, Belong (entriesFrom block 0 i) e slots → slots.length ≤ 31 := by
  have hprint : PrintsBeside fill wcstombs v s₀ block n i e _ := printsBeside h₀ hb hi he hshown
  constructor
  · intro h
    have hiff := h.belong h₀ hb hi he hshown
    refine ⟨hiff.mp, fun slots hs => ?_⟩
    by_contra hlen
    exact hs.not_completes (by omega) (hiff.mpr ⟨slots, hs⟩)
  · rintro ⟨hcount, hlen⟩
    refine ⟨_, hprint, ?_, fun slots hs => ?_⟩
    · rw [claimed_ne_none_iff]
      refine ⟨hcount, ?_⟩
      rintro ⟨slots, hs⟩
      obtain ⟨start, rest, hcounted, hnumber, -⟩ := hs.completes (hlen slots hs)
      exact ⟨start, rest, hcounted, hnumber⟩
    · obtain ⟨start, rest, hcounted, hnumber, hchars⟩ := hs.completes (hlen slots hs)
      obtain ⟨q, hq, hm, hqc⟩ := afterAll_eq_some_iff (m := 0) |>.mpr
        ⟨start, rest, hcounted, hnumber, rfl⟩
      have hfits := q.fits
      refine ⟨nameOf wcstombs q.chars, by rw [hq, claimed_of_whole wcstombs hm]; rfl, ?_⟩
      rw [← hchars, ← hqc, cnvUnicode, List.drop_zero, q.convertUnits (by rw [until0]; omega)]

end Right

section Example

def dirNamed (b₀ b₁ b₂ c : UInt8) : FatDirLayout where
  bytes := [b₀, b₁, b₂] ++ List.replicate 8 0x20 ++ [0x10] ++ List.replicate 14 0 ++ [c] ++
    List.replicate 5 0
  length_bytes := by simp [entrySize]

def slotX (checksum : UInt8) : FatDirLayout where
  bytes := [0x41, 0x58, 0, 0, 0] ++ List.replicate 6 0xFF ++ [0x0F, 0, checksum] ++
    List.replicate 12 0xFF ++ [0, 0] ++ List.replicate 4 0xFF
  length_bytes := by simp [entrySize]

/-- A slot with a checksum, and the directory `SUB`. -/
def slotBlock (checksum : UInt8) : Bytes :=
  (slotX checksum).bytes ++ (dirNamed 0x53 0x55 0x42 2).bytes

theorem slotBlock_entries : entriesFrom (slotBlock 0) 0 1 = [slotX 0] ∧
    entriesFrom (slotBlock 0xBF) 0 1 = [slotX 0xBF] := by
  decide

theorem slotX_opens : (isSlot (slotX 0) = true ∧ opensName (slotX 0)) ∧
    isSlot (slotX 0xBF) = true ∧ opensName (slotX 0xBF) := by
  decide

/-- The name `X` is printed beside `SUB` although its slot carries another checksum. -/
theorem checksum_not_compared : ¬ NamedRight (fun _ => 0) (fun _ => none) DirectoryIO.subVolume
    .initial (slotBlock 0) 2 1 (dirNamed 0x53 0x55 0x42 2) := by
  intro h
  have hcount : CompletesByCount (entriesFrom (slotBlock 0) 0 1) := by
    rw [slotBlock_entries.1]
    exact ⟨slotX 0, [], ⟨⟨[], by decide⟩, slotX_opens.1.1, slotX_opens.1.2, by simp⟩,
      by decide⟩
  obtain ⟨slots, hs⟩ := (h.belong represents_initial (by decide) (by decide)
    (by decide) (by decide)).mp hcount
  obtain ⟨front, hfront⟩ := hs.directly
  rw [slotBlock_entries.1] at hfront
  obtain ⟨d, hd⟩ := List.exists_mem_of_ne_nil _ hs.nonempty
  have hmem : d ∈ front ++ slots := List.mem_append_right _ hd
  rw [← hfront, List.mem_singleton] at hmem
  have hsum := hs.checked d hd
  rw [hmem] at hsum
  exact absurd hsum (by decide)

/-- With the checksum of `SUB` the slot lends its name rightly. -/
theorem checksum_right : NamedRight (fun _ => 0) (fun _ => none) DirectoryIO.subVolume
    .initial (slotBlock 0xBF) 2 1 (dirNamed 0x53 0x55 0x42 2) := by
  refine (namedRight_iff represents_initial (by decide) (by decide) (by decide)
    (by decide)).mpr ⟨fun _ => ⟨[slotX 0xBF], ?_⟩, fun slots hs => ?_⟩
  · rw [slotBlock_entries.2]
    exact ⟨⟨[], rfl⟩, by simp, by simpa using slotX_opens.2.1, by decide,
      by decide⟩
  · obtain ⟨front, hfront⟩ := hs.directly
    rw [slotBlock_entries.2] at hfront
    have hlen := congrArg List.length hfront
    rw [List.length_append, List.length_singleton] at hlen
    omega

end Example

end TFAT.SlotSequences
