import TFAT.LongNameParts
import TFAT.ShellRuns

/-!
# Names that one listing leaves to the next

`list` never resets the parser of long names, and entries that it skips or that
have no name do not ask it. What a directory leaves in the parser is therefore
still there in the next listing. A listing prints what it would print behind a
reset unless the name parts that are left find their missing slots, or the entry
that claims them, at the start of the directory.
-/
namespace TFAT.ListedNames
open ByteRegions LittleEndianWords LinkedChains DiskLayout ClusterTable FileDescriptor PathText
open EntryNames DirectoryIO PathResolution LongNames LongNameParts UserCommands ShellCommands
open ShellRuns

def isSlot (e : FatDirLayout) : Bool := !isDeleted e && isLfn e.attr

/-- The entry gets a line of the listing and claims a long name. -/
def isShown (showDeleted : Bool) (e : FatDirLayout) : Bool :=
  !(isDeleted e && !showDeleted) && (isDirectory e.attr || !isSpecial e.attr) &&
    (baseName e).isSome

/-- The parser is asked about the entry. -/
def consults (showDeleted : Bool) (e : FatDirLayout) : Bool := isSlot e || isShown showDeleted e

variable (wcstombs : ℕ → Option Text) (v : Volume) (showDeleted : Bool)

/-- What the parser holds behind an entry of a listing. -/
def after (p : Option Parts) (i : ℕ) (e : FatDirLayout) : Option Parts :=
  if isSlot e then next p e i else if isShown showDeleted e then none else p

/-- The lines that an entry of a listing prints. -/
def printed (p : Option Parts) (e : FatDirLayout) : List Line :=
  if isSlot e then (orphans wcstombs p).map .orphaned
  else if isShown showDeleted e then
    [listLine v e ((baseName e).getD []) (((claimed wcstombs p).map Prod.fst).getD [])]
  else []

/-- The lines of a listing from what the parser holds. -/
def listing : Option Parts → ℕ → List FatDirLayout → List Line
  | _, _, [] => []
  | p, i, e :: es =>
      printed wcstombs v showDeleted p e ++ listing (after showDeleted p i e) (i + 1) es

def afterAll : Option Parts → ℕ → List FatDirLayout → Option Parts
  | p, _, [] => p
  | p, i, e :: es => afterAll (after showDeleted p i e) (i + 1) es

def entriesFrom (block : Bytes) (i n : ℕ) : List FatDirLayout :=
  (List.range' i n).filterMap fun j => (entryAt block j).toOption

/-- The characters of a name when these slots have joined the ones that are there. -/
def gather (slots : List FatDirLayout) (chars : Bytes) : Bytes :=
  slots.foldl (fun chars e => joinPart e chars) chars

/-- A name of which `m` slots are missing finds them at the start of the directory, and
behind them a slot that makes it an orphan or an entry that claims a nonempty name. -/
def Lends (m : ℕ) (chars : Bytes) (es : List FatDirLayout) : Prop :=
  (∀ e ∈ (es.filter (consults showDeleted)).take m, isSlot e ∧ ¬ opensName e) ∧
    ∃ e, (es.filter (consults showDeleted))[m]? = some e ∧
      (isSlot e ∨
        nameOf wcstombs (gather ((es.filter (consults showDeleted)).take m) chars) ≠ [])

section Listing
variable {wcstombs v showDeleted} {fill : ℕ → UInt8} {block : Bytes}

theorem attr_of_isSlot {e : FatDirLayout} (h : isSlot e = true) : e.attr = vfatLnAttr := by
  simp only [isSlot, isLfn, Bool.and_eq_true, beq_iff_eq] at h
  exact h.2

theorem not_deleted_of_isSlot {e : FatDirLayout} (h : isSlot e = true) :
    isDeleted e = false := by
  simp only [isSlot, Bool.and_eq_true, Bool.not_eq_true'] at h
  exact h.1

theorem isShown_eq_false_of_attr {e : FatDirLayout} (h : e.attr = vfatLnAttr) :
    isShown showDeleted e = false := by
  have hattr : (isDirectory e.attr || !isSpecial e.attr) = false := by
    rw [h]
    decide
  rw [isShown, hattr, Bool.and_false, Bool.false_and]

theorem entriesFrom_succ {e : FatDirLayout} {i n : ℕ} (he : entryAt block i = .ok e) :
    entriesFrom block i (n + 1) = e :: entriesFrom block (i + 1) n := by
  rw [entriesFrom, List.range'_succ, List.filterMap_cons, he]
  rfl

theorem listEntry_of_isSlot {s : Listed} {e : FatDirLayout} {i : ℕ} {r : LfnState × List Text}
    (he : entryAt block i = .ok e) (hslot : isSlot e = true)
    (hr : lfnAddSlot fill wcstombs s.lfn e i = .ok r) :
    listEntry fill wcstombs v block showDeleted s i =
      .ok ⟨r.1, s.lines ++ r.2.map .orphaned⟩ := by
  have hattr : (isDirectory e.attr || !isSpecial e.attr) = false := by
    rw [attr_of_isSlot hslot]
    decide
  have hdel := not_deleted_of_isSlot hslot
  have hlfn : isLfn e.attr = true := by
    rw [attr_of_isSlot hslot]
    decide
  rw [listEntry, he, ok_bind]
  simp only [hdel, hlfn, hattr, hr, ok_bind, Bool.false_and, Bool.not_false, Bool.true_and,
    Bool.false_eq_true, if_false, if_true]

theorem listEntry_of_isShown {s : Listed} {e : FatDirLayout} {i : ℕ}
    {r : LfnState × Option (Text × ℕ)} (he : entryAt block i = .ok e)
    (hshown : isShown showDeleted e = true) (hr : lfnGet wcstombs s.lfn e = .ok r) :
    listEntry fill wcstombs v block showDeleted s i =
      .ok ⟨r.1, s.lines ++
        [listLine v e ((baseName e).getD []) ((r.2.map Prod.fst).getD [])]⟩ := by
  have hslot : (!isDeleted e && isLfn e.attr) = false := by
    by_contra hs
    rw [isShown_eq_false_of_attr (attr_of_isSlot (by simpa [isSlot] using hs))] at hshown
    cases hshown
  simp only [isShown, Bool.and_eq_true, Bool.not_eq_true'] at hshown
  obtain ⟨⟨hdel, hattr⟩, hname⟩ := hshown
  obtain ⟨name, hname⟩ := Option.isSome_iff_exists.mp hname
  rw [listEntry, he, ok_bind]
  simp only [hdel, hslot, hattr, hname, hr, ok_bind, Bool.false_eq_true, if_false, if_true,
    List.map_nil, List.append_nil, Option.getD_some]

theorem listEntry_of_passed {s : Listed} {e : FatDirLayout} {i : ℕ}
    (he : entryAt block i = .ok e) (hslot : isSlot e = false)
    (hshown : isShown showDeleted e = false) :
    listEntry fill wcstombs v block showDeleted s i = .ok s := by
  rw [listEntry, he, ok_bind]
  unfold isSlot at hslot
  by_cases hdel : (isDeleted e && !showDeleted) = true
  · rw [if_pos hdel]
  · simp only [if_neg hdel, hslot, Bool.false_eq_true, if_false, ok_bind, List.map_nil,
      List.append_nil]
    rw [Bool.not_eq_true] at hdel
    rw [isShown, hdel, Bool.not_false, Bool.true_and, Bool.and_eq_false_iff] at hshown
    rcases hshown with hattr | hname
    · rw [if_neg (by rw [hattr]; decide)]
    · rw [Option.isSome_eq_false_iff, Option.isNone_iff_eq_none] at hname
      rw [hname]
      simp only [ite_self]

variable (fill) (wcstombs) (v) (showDeleted)

/-- One round of `list` on a parser that represents what it holds. -/
theorem listEntry_of_represents {p : Option Parts} {s : Listed} {e : FatDirLayout} {i : ℕ}
    (he : entryAt block i = .ok e) (h : Represents s.lfn p) :
    ∃ l, listEntry fill wcstombs v block showDeleted s i =
        .ok ⟨l, s.lines ++ printed wcstombs v showDeleted p e⟩ ∧
      Represents l (after showDeleted p i e) := by
  unfold printed after
  by_cases hslot : isSlot e
  · obtain ⟨l, hl, hr⟩ := lfnAddSlot_of_represents wcstombs fill (i := i) (attr_of_isSlot hslot) h
    rw [if_pos hslot, if_pos hslot]
    exact ⟨l, listEntry_of_isSlot he hslot hl, hr⟩
  · rw [if_neg hslot, if_neg hslot]
    by_cases hshown : isShown showDeleted e
    · have hattr : e.attr ≠ vfatLnAttr := fun ha => by
        rw [isShown_eq_false_of_attr ha] at hshown
        cases hshown
      obtain ⟨l, hl, hr⟩ := lfnGet_of_represents wcstombs hattr h
      rw [if_pos hshown, if_pos hshown]
      exact ⟨l, listEntry_of_isShown he hshown hl, hr⟩
    · rw [if_neg hshown, if_neg hshown, List.append_nil]
      exact ⟨s.lfn, listEntry_of_passed he (by simpa using hslot) (by simpa using hshown), h⟩

theorem foldlM_listEntry {p : Option Parts} {s : Listed} {i n : ℕ}
    (hb : entrySize * (i + n) ≤ block.length) (h : Represents s.lfn p) :
    ∃ l, (List.range' i n).foldlM (listEntry fill wcstombs v block showDeleted) s =
        .ok ⟨l, s.lines ++ listing wcstombs v showDeleted p i (entriesFrom block i n)⟩ ∧
      Represents l (afterAll showDeleted p i (entriesFrom block i n)) := by
  induction n generalizing p s i with
  | zero =>
      refine ⟨s.lfn, ?_, h⟩
      rw [show listing wcstombs v showDeleted p i (entriesFrom block i 0) = [] from rfl,
        List.append_nil]
      rfl
  | succ n ih =>
      have hin : entrySize * i + entrySize ≤ block.length := by
        rw [entrySize] at *
        omega
      obtain ⟨e, he⟩ : ∃ e, entryAt block i = .ok e := ⟨_, dif_pos hin⟩
      obtain ⟨l, hl, hr⟩ := listEntry_of_represents wcstombs v showDeleted fill he h
      have hrest : entrySize * (i + 1 + n) ≤ block.length := by
        rwa [show i + 1 + n = i + (n + 1) by omega]
      obtain ⟨m, hm, hlast⟩ :=
        ih (s := ⟨l, s.lines ++ printed wcstombs v showDeleted p e⟩) hrest hr
      refine ⟨m, ?_, ?_⟩
      · rw [List.range'_succ, List.foldlM_cons, hl, ok_bind, hm, entriesFrom_succ he, listing,
          List.append_assoc]
      · rwa [entriesFrom_succ he, afterAll]

theorem list_of_represents {p : Option Parts} {s : LfnState} {n : ℕ}
    (hb : entrySize * n ≤ block.length) (h : Represents s p) :
    ∃ l, list fill wcstombs v s block n showDeleted =
        .ok ⟨l, listing wcstombs v showDeleted p 0 (entriesFrom block 0 n)⟩ ∧
      Represents l (afterAll showDeleted p 0 (entriesFrom block 0 n)) := by
  rw [list, List.range_eq_range']
  exact foldlM_listEntry wcstombs v showDeleted fill (by rwa [Nat.zero_add]) (s := ⟨s, []⟩) h

/-- The parts that a listing leaves are in the globals of the parser. -/
theorem kept_of_list {p : Option Parts} {s : LfnState} {n m : ℕ} {chars : Bytes}
    (hb : entrySize * n ≤ block.length) (h : Represents s p)
    (hq : (afterAll showDeleted p 0 (entriesFrom block 0 n)).map
      (fun q => (q.missing, q.chars)) = some (m, chars)) :
    ∃ l, list fill wcstombs v s block n showDeleted =
        .ok ⟨l, listing wcstombs v showDeleted p 0 (entriesFrom block 0 n)⟩ ∧
      l.slot = m ∧ ∃ front : Bytes, front.length = 26 * m ∧ l.unicode = some (front ++ chars) := by
  obtain ⟨l, hl, hr⟩ := list_of_represents wcstombs v showDeleted fill hb h
  obtain ⟨q, hq', hpair⟩ := Option.map_eq_some_iff.mp hq
  rw [hq'] at hr
  obtain ⟨rfl, rfl⟩ := Prod.mk.inj hpair
  exact ⟨l, hl, hr.slot, hr.unicode⟩

variable {fill} {wcstombs} {v} {showDeleted}

/-- A listing that ends has stayed inside the array. -/
theorem le_of_list {s : LfnState} {n : ℕ} {r : Listed}
    (h : list fill wcstombs v s block n showDeleted = .ok r) : entrySize * n ≤ block.length := by
  refine foldlM_range_partial (I := fun i _ => entrySize * i ≤ block.length) h (Nat.zero_le _)
    fun i t t' _ _ ht => ?_
  obtain ⟨e, he, -⟩ := bind_eq_ok.mp ht
  exact (entryAt_eq_ok_iff.mp he).1

section Lending
variable {m i : ℕ} {chars : Bytes} {e : FatDirLayout} {es : List FatDirLayout}

theorem lends_cons_passed (h : consults showDeleted e = false) :
    Lends wcstombs showDeleted m chars (e :: es) ↔ Lends wcstombs showDeleted m chars es := by
  rw [Lends, Lends, List.filter_cons_of_neg (by rw [h]; decide)]

theorem lends_zero_cons (h : consults showDeleted e = true) :
    Lends wcstombs showDeleted 0 chars (e :: es) ↔ isSlot e ∨ nameOf wcstombs chars ≠ [] := by
  rw [Lends, List.filter_cons_of_pos h]
  simp [gather]

theorem lends_succ_cons (h : consults showDeleted e = true) :
    Lends wcstombs showDeleted (m + 1) chars (e :: es) ↔
      (isSlot e ∧ ¬ opensName e) ∧ Lends wcstombs showDeleted m (joinPart e chars) es := by
  rw [Lends, Lends, List.filter_cons_of_pos h]
  simp only [List.take_succ_cons, List.mem_cons, forall_eq_or_imp, List.getElem?_cons_succ,
    gather, List.foldl_cons, and_assoc]

theorem not_lends_nil : ¬ Lends wcstombs showDeleted m chars [] := by
  rintro ⟨-, e, he, -⟩
  cases he

theorem listLine_inj {name t u : Text} : listLine v e name t = listLine v e name u ↔ t = u := by
  unfold listLine
  split_ifs <;> simp

/-- A listing from a name that is held prints what it prints from nothing, unless the
directory lends the name the slots that it misses. -/
theorem listing_eq_iff {q : Parts} : listing wcstombs v showDeleted (some q) i es =
    listing wcstombs v showDeleted none i es ↔
      ¬ Lends wcstombs showDeleted q.missing q.chars es := by
  induction es generalizing q i with
  | nil => simp [listing, not_lends_nil]
  | cons e es ih =>
      rw [listing, listing, printed, printed, after, after]
      by_cases hslot : isSlot e
      · have hc : consults showDeleted e = true := by rw [consults, hslot, Bool.true_or]
        simp only [if_pos hslot]
        by_cases hm : q.missing = 0
        · have hnext : next (some q) e i = next none e i := by
            by_cases ho : opensName e
            · rw [next_of_opensName ho, next_of_opensName ho]
            · rw [next_of_whole ho hm, next_none ho]
          rw [hm, lends_zero_cons hc, hnext, orphans_of_whole wcstombs hm, orphans_none]
          simp [hslot]
        · obtain ⟨m, hm'⟩ := Nat.exists_eq_succ_of_ne_zero hm
          rw [orphans_of_missing wcstombs hm, orphans_none, hm', Nat.succ_eq_add_one,
            lends_succ_cons hc]
          by_cases ho : opensName e
          · rw [next_of_opensName ho, next_of_opensName ho]
            simp [ho]
          · rw [next_of_missing ho hm, next_none ho, List.map_nil, List.nil_append,
              List.nil_append, ih, Parts.extend_missing, Parts.extend_chars, hm',
              Nat.succ_sub_one]
            simp only [hslot, ho, not_false_eq_true, and_self, true_and]
      · simp only [if_neg hslot]
        by_cases hshown : isShown showDeleted e
        · have hc : consults showDeleted e = true := by rw [consults, hshown, Bool.or_true]
          simp only [if_pos hshown]
          by_cases hm : q.missing = 0
          · rw [hm, lends_zero_cons hc, claimed_of_whole wcstombs hm, claimed_none,
              List.append_left_inj, List.singleton_inj, listLine_inj]
            simp [hslot]
          · obtain ⟨m, hm'⟩ := Nat.exists_eq_succ_of_ne_zero hm
            rw [claimed_of_missing wcstombs hm, claimed_none, hm', Nat.succ_eq_add_one,
              lends_succ_cons hc]
            simp [hslot]
        · have hc : consults showDeleted e = false := by
            rw [consults, Bool.or_eq_false_iff]
            exact ⟨by simpa using hslot, by simpa using hshown⟩
          simp only [if_neg hshown]
          rw [lends_cons_passed hc, List.nil_append, List.nil_append, ih]

end Lending

end Listing

end TFAT.ListedNames
