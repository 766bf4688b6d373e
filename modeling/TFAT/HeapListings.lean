import TFAT.HeapSearches
import TFAT.NameBuffers

/-!
# Listings on the heap

The parser of long names and `list` once more, with their blocks. A listing frees the strings that
it builds, and the long names that it copies have to fit in `dis_full_name`. It loses blocks in
two places: the text of an orphaned name is printed and never freed, and a slot that opens a name
forgets the blocks of a name that is not whole. How many blocks are lost is counted along the
entries.
-/
namespace TFAT.HeapListings
open LittleEndianWords DiskLayout ClusterTable PathText EntryNames PathResolution LongNames
open LongNameParts UserCommands ListedNames NameBuffers OwnedBlocks HeapSearches

/-- `lfn_unicode` and `lfn_offsets`. -/
structure LfnBlocks where
  unicode : Option ℕ
  offsets : Option ℕ

def LfnBlocks.owned (q : LfnBlocks) : Multiset ℕ := block q.unicode + block q.offsets

def LfnBlocks.null : LfnBlocks := ⟨none, none⟩

variable (fill : ℕ → UInt8) (wcstombs : ℕ → Option Text)

/-- `cnv_unicode`, on the block behind `lfn_unicode`. -/
def cnvUnicodeHeap (q : Option ℕ) (unicode : Option Bytes) (off maxlen : ℕ) :
    OnHeap (ℕ × Text) := do
  let text ← plain (cnvUnicode wcstombs unicode off maxlen)
  useAny q
  let out ← malloc
  pure (out, text)

def lfnResetHeap (q : LfnBlocks) (s : LfnState) : OnHeap (LfnBlocks × LfnState) := do
  freeAny q.unicode
  freeAny q.offsets
  pure (.null, lfnReset s)

/-- `lfn_check_orphaned`. The text is not freed. -/
def lfnCheckOrphanedHeap (q : LfnBlocks) (s : LfnState) :
    OnHeap (LfnBlocks × LfnState × List Text) :=
  if s.slot = -1 then pure (q, s, [])
  else do
    let name ← cnvUnicodeHeap wcstombs q.unicode s.unicode (s.slot.toNat * charsPerLfn * 2)
      (s.parts * charsPerLfn)
    use name.1
    let r ← lfnResetHeap q s
    pure (r.1, r.2, [name.2])

def forgetHeap (q : LfnBlocks) (s : LfnState) : OnHeap (LfnBlocks × LfnState × List Text) :=
  if s.slot = 0 then lfnCheckOrphanedHeap wcstombs q s else pure (q, s, [])

/-- The allocations of `lfn_add_slot`. The pointers are overwritten. -/
def openNameHeap (q : LfnBlocks) (de : FatDirLayout) : OnHeap LfnBlocks :=
  if opensName de then do
    let unicode ← malloc
    let offsets ← malloc
    pure ⟨some unicode, some offsets⟩
  else pure q

def lfnAddSlotHeap (q : LfnBlocks) (s : LfnState) (de : FatDirLayout) (dirOffset : ℕ) :
    OnHeap (LfnBlocks × LfnState × List Text) := do
  let r ← forgetHeap wcstombs q s
  if de.attr != vfatLnAttr then plain (.error .died)
  else do
    let q ← openNameHeap r.1 de
    let t ← plain (storePart (openName fill de r.2.1) de dirOffset r.2.2)
    useAny q.unicode
    useAny q.offsets
    pure (q, t)

def lfnGetHeap (q : LfnBlocks) (s : LfnState) (de : FatDirLayout) :
    OnHeap (LfnBlocks × LfnState × Option (ℕ × Text × ℕ)) :=
  if de.attr = vfatLnAttr then plain (.error .died)
  else if s.slot ≠ 0 then do
    let r ← lfnResetHeap q s
    pure (r.1, r.2, none)
  else
    match s.offsets with
    | none => plain (.error .null)
    | some offsets => do
        useAny q.offsets
        let off ← plain (firstOffset offsets)
        let lfn ← cnvUnicodeHeap wcstombs q.unicode s.unicode 0 until0
        let r ← lfnResetHeap q s
        pure (r.1, r.2, some (lfn.1, lfn.2, off))

def getAttrHeap (e : FatDirLayout) : OnHeap (ℕ × Text) := do
  let ret ← malloc
  pure (ret, getAttr e.attr)

def copyExtension (e : FatDirLayout) : OnHeap Unit :=
  if isDirectory e.attr then pure ()
  else do
    let temp ← getExtensionHeap e
    let _ ← takeString temp
    pure ()

def takeLongName : Option (ℕ × Text × ℕ) → OnHeap Text
  | none => pure []
  | some (p, text, _) => do
      within (text.length + 1) disFullName.length
      takeString (p, text)

def listNamed (v : Volume) (q : LfnBlocks) (s : Listed) (e : FatDirLayout) (temp : ℕ × Text) :
    OnHeap (LfnBlocks × Listed) := do
  let name ← takeString temp
  copyExtension e
  let temp ← getAttrHeap e
  let _ ← takeString temp
  let r ← lfnGetHeap wcstombs q s.lfn e
  let full ← takeLongName r.2.2
  pure (r.1, ⟨r.2.1, s.lines ++ [listLine v e name full]⟩)

/-- What `list` does with an entry that is no slot, or behind its slot. -/
def listShort (v : Volume) (q : LfnBlocks) (s : Listed) (e : FatDirLayout) :
    OnHeap (LfnBlocks × Listed) :=
  if isDirectory e.attr || !isSpecial e.attr then do
    match ← getNameHeap e with
    | none => pure (q, s)
    | some temp => listNamed wcstombs v q s e temp
  else pure (q, s)

/-- One round of the loop of `list`, where `dir` is the block of the array. -/
def listEntryHeap (v : Volume) (dir : Option ℕ) (block : Bytes) (showDeleted : Bool)
    (r : LfnBlocks × Listed) (i : ℕ) : OnHeap (LfnBlocks × Listed) := do
  useAny dir
  let e ← plain (entryAt block i)
  if isDeleted e && !showDeleted then pure r
  else if !isDeleted e && isLfn e.attr then do
    let t ← lfnAddSlotHeap fill wcstombs r.1 r.2.lfn e i
    listShort wcstombs v t.1 ⟨t.2.1, r.2.lines ++ t.2.2.map .orphaned⟩ e
  else listShort wcstombs v r.1 ⟨r.2.lfn, r.2.lines ++ []⟩ e

def listHeap (v : Volume) (q : LfnBlocks) (lfn : LfnState) (dir : Option ℕ) (block : Bytes)
    (size : ℕ) (showDeleted : Bool) : OnHeap (LfnBlocks × Listed) :=
  (List.range size).foldlM (listEntryHeap fill wcstombs v dir block showDeleted) (q, ⟨lfn, []⟩)

variable {fill wcstombs}

/-- The pointers of the parser are null where it has no block. -/
def Points (q : LfnBlocks) (s : LfnState) : Prop :=
  q.unicode.isSome = s.unicode.isSome ∧ q.offsets.isSome = s.offsets.isSome

def countBlocks (s : LfnState) : ℕ := s.unicode.toList.length + s.offsets.toList.length

/-- The blocks that are owned are those of the parser, and `n` others. -/
def Keeps (q : LfnBlocks) (s : LfnState) (n : ℕ) (o : Multiset ℕ) : Prop :=
  Points q s ∧ ∃ lost, o = q.owned + lost ∧ lost.card = n

def slotLeaks (s : LfnState) (de : FatDirLayout) : ℕ :=
  if s.slot = 0 then 1 else if opensName de then countBlocks s else 0

section Parser
variable {safe : Prop} {lent : Set ℕ} {q : LfnBlocks} {s : LfnState} {de : FatDirLayout}

theorem card_block (p : Option ℕ) : (block p).card = p.toList.length := by
  cases p <;> rfl

theorem Points.card_owned (h : Points q s) : q.owned.card = countBlocks s := by
  have hcard {α : Type} {p : Option ℕ} {b : Option α} (hp : p.isSome = b.isSome) :
      (block p).card = b.toList.length := by
    rw [card_block]
    cases p <;> cases b <;> simp_all
  rw [LfnBlocks.owned, Multiset.card_add, hcard h.1, hcard h.2, countBlocks]

theorem points_null (s : LfnState) : Points .null (lfnReset s) := ⟨rfl, rfl⟩

theorem refines_cnvUnicode (q : Option ℕ) (unicode : Option Bytes) (off n : ℕ) :
    Refines safe lent (block q) (cnvUnicodeHeap wcstombs q unicode off n)
      (cnvUnicode wcstombs unicode off n) fun a t o => a.2 = t ∧ o = {a.1} + block q :=
  refines_plain_last fun _ _ => refines_useAny (add_zero _).symm
    (refines_malloc fun _ => refines_pure ⟨rfl, rfl⟩)

theorem refines_lfnReset (q : LfnBlocks) (s : LfnState) :
    Refines safe lent q.owned (lfnResetHeap q s) (.ok (lfnReset s))
      fun a b o => a = (.null, b) ∧ o = 0 :=
  refines_freeAny rfl (refines_freeAny (add_zero _).symm (refines_pure ⟨rfl, rfl⟩))

/-- Each name that `lfn_check_orphaned` prints is a block that is lost. -/
theorem refines_lfnCheckOrphaned (h : Points q s) :
    Refines safe lent q.owned (lfnCheckOrphanedHeap wcstombs q s) (lfnCheckOrphaned wcstombs s)
      fun a b o => a.2 = b ∧ Keeps a.1 b.1 b.2.length o := by
  unfold lfnCheckOrphanedHeap lfnCheckOrphaned
  split_ifs
  · exact refines_pure ⟨rfl, h, 0, (add_zero _).symm, rfl⟩
  · refine (refines_cnvUnicode q.unicode _ _ _).call rfl ?_
    rintro ⟨p, text⟩ t o - ⟨rfl, rfl⟩
    rw [add_assoc]
    refine refines_use rfl ((refines_lfnReset q s).aside (add_comm _ _) ?_)
    rintro a o ⟨rfl, rfl⟩
    exact refines_pure ⟨rfl, points_null s, {p}, rfl, rfl⟩

theorem refines_forget (h : Points q s) :
    Refines safe lent q.owned (forgetHeap wcstombs q s)
      (if s.slot = 0 then lfnCheckOrphaned wcstombs s else .ok (s, []))
      fun a b o => a.2 = b ∧ Keeps a.1 b.1 b.2.length o := by
  unfold forgetHeap
  split_ifs
  · exact refines_lfnCheckOrphaned h
  · exact refines_pure ⟨rfl, h, 0, (add_zero _).symm, rfl⟩

theorem of_storePart {i : ℕ} {lines : List Text} {t : LfnState × List Text}
    (h : storePart s de i lines = .ok t) : (Points q s → Points q t.1) ∧ t.2 = lines := by
  by_cases hs : s.slot = -1
  · rw [storePart, if_pos hs] at h
    rw [← Except.ok.inj h]
    exact ⟨id, rfl⟩
  · rw [storePart, if_neg hs] at h
    split at h
    · rename_i unicode offsets hu ho
      have hstored (r : LfnState) (hr : r.unicode.isSome ∧ r.offsets.isSome)
          (ht : t = (r, lines)) : (Points q s → Points q t.1) ∧ t.2 = lines := by
        rw [ht, Points, Points, hu, ho, hr.1, hr.2]
        exact ⟨id, rfl⟩
      obtain ⟨u, -, h⟩ := bind_eq_ok.mp h
      dsimp only at h
      split at h
      · obtain ⟨w, -, h⟩ := bind_eq_ok.mp h
        split_ifs at h
        exact hstored _ ⟨rfl, rfl⟩ (Except.ok.inj h).symm
      · rw [ok_bind] at h
        split_ifs at h
        exact hstored _ ⟨rfl, rfl⟩ (Except.ok.inj h).symm
    · simp at h

theorem of_forget {r : LfnState × List Text}
    (h : (if s.slot = 0 then lfnCheckOrphaned wcstombs s else .ok (s, [])) = .ok r) :
    r.2.length + (if opensName de then countBlocks r.1 else 0) = slotLeaks s de := by
  by_cases hs : s.slot = 0
  · rw [if_pos hs, lfnCheckOrphaned, if_neg (by rw [hs]; decide)] at h
    obtain ⟨t, -, h⟩ := bind_eq_ok.mp h
    rw [slotLeaks, if_pos hs, ← Except.ok.inj h]
    split_ifs <;> rfl
  · rw [if_neg hs] at h
    rw [slotLeaks, if_neg hs, ← Except.ok.inj h]
    exact zero_add _

variable (fill) in
theorem refines_openName {n : ℕ} {o : Multiset ℕ} (h : Keeps q s n o) :
    Refines safe lent o (openNameHeap q de) (.ok (openName fill de s)) fun a b o =>
      Keeps a b (n + if opensName de then countBlocks s else 0) o := by
  obtain ⟨hp, lost, rfl, rfl⟩ := h
  unfold openNameHeap openName
  split_ifs
  · refine refines_malloc fun u => refines_malloc fun p => refines_pure ⟨⟨rfl, rfl⟩, q.owned + lost,
      ?_, ?_⟩
    · simp only [LfnBlocks.owned, block_some]
      abel
    · rw [Multiset.card_add, hp.card_owned, add_comm]
  · exact refines_pure ⟨hp, lost, rfl, rfl⟩

/-- A slot loses the text of an orphaned name, or the blocks of a name that is not whole. -/
theorem refines_lfnAddSlot (h : Points q s) (i : ℕ) :
    Refines safe lent q.owned (lfnAddSlotHeap fill wcstombs q s de i)
      (lfnAddSlot fill wcstombs s de i) fun a b o => a.2 = b ∧ Keeps a.1 b.1 (slotLeaks s de) o := by
  rw [lfnAddSlot_bind]
  refine (refines_forget h).call (add_zero _).symm ?_
  rintro ⟨q', r⟩ r' o hr ⟨rfl, hk⟩
  rw [add_zero]
  dsimp only
  split_ifs
  · exact refines_error
  · refine (refines_openName fill hk).aside (add_zero _).symm ?_
    rintro q'' o' hk'
    rw [add_zero, of_forget hr] at *
    refine refines_plain_last fun t ht => ?_
    obtain ⟨hp, lost, rfl, hn⟩ := hk'
    refine refines_useAny (u := block q''.offsets + lost) (add_assoc _ _ _) ?_
    refine refines_useAny (u := block q''.unicode + lost) ?_ (refines_pure ?_)
    · rw [LfnBlocks.owned]
      abel
    · exact ⟨rfl, (of_storePart ht).1 hp, lost, rfl, hn⟩

/-- `lfn_get` gives its caller the text in one block and frees those of the parser. -/
theorem refines_lfnGet (q : LfnBlocks) (s : LfnState) (de : FatDirLayout) :
    Refines safe lent q.owned (lfnGetHeap wcstombs q s de) (lfnGet wcstombs s de) fun a b o =>
      a.1 = .null ∧ a.2.1 = b.1 ∧ Points .null b.1 ∧ Returned a.2.2 b.2 o := by
  unfold lfnGetHeap lfnGet
  split_ifs with ha hs
  · exact refines_error
  · refine (refines_lfnReset q s).aside (add_zero _).symm ?_
    rintro a o ⟨rfl, rfl⟩
    exact refines_pure ⟨rfl, rfl, points_null s, rfl, rfl⟩
  · cases s.offsets with
    | none => exact refines_error
    | some offsets =>
        refine refines_useAny (u := block q.unicode) (add_comm _ _) ?_
        refine refines_plain_bind fun off _ => ?_
        refine (refines_cnvUnicode q.unicode s.unicode 0 until0).call rfl ?_
        rintro ⟨p, text⟩ t o - ⟨rfl, rfl⟩
        rw [add_assoc]
        refine (refines_lfnReset q s).aside (add_comm _ _) ?_
        rintro a o ⟨rfl, rfl⟩
        exact refines_pure ⟨rfl, rfl, points_null s, rfl, zero_add _⟩

end Parser

def entryLeaks (block : Bytes) (s : Listed) (i : ℕ) : ℕ :=
  match entryAt block i with
  | .ok e => if !isDeleted e && isLfn e.attr then slotLeaks s.lfn e else 0
  | .error _ => 0

variable (fill wcstombs) in
def countedList (v : Volume) (lfn : LfnState) (block : Bytes) (size : ℕ) (showDeleted : Bool) :
    Except Fault (Listed × ℕ) :=
  (List.range size).foldlM
    (counted (listEntry fill wcstombs v block showDeleted) (entryLeaks block)) (⟨lfn, []⟩, 0)

/-- The long names of a listing fit in `dis_full_name`. -/
def NamesFit (fill : ℕ → UInt8) (wcstombs : ℕ → Option Text) (v : Volume) (lfn : LfnState)
    (block : Bytes) (size : ℕ) (showDeleted : Bool) : Prop :=
  ∀ i < size, ∀ t, Hands fill wcstombs v lfn block showDeleted i t → t.length < disFullName.length

section Lines
variable {safe : Prop} {lent : Set ℕ} {v : Volume} {q : LfnBlocks} {s : Listed} {e : FatDirLayout}
variable {dir : Option ℕ} {entries : Bytes} {showDeleted : Bool}

theorem list_eq_countedList (v : Volume) (lfn : LfnState) (entries : Bytes) (size : ℕ)
    (showDeleted : Bool) : list fill wcstombs v lfn entries size showDeleted =
      (countedList fill wcstombs v lfn entries size showDeleted).map Prod.fst :=
  (foldlM_counted _ _ _ _ _).symm

theorem refines_getAttr (e : FatDirLayout) :
    Refines safe lent 0 (getAttrHeap e) (.ok (getAttr e.attr)) fun a b o => a.2 = b ∧ o = {a.1} :=
  refines_malloc fun _ => refines_pure ⟨rfl, add_zero _⟩

theorem refines_copyExtension (e : FatDirLayout) :
    Refines safe lent 0 (copyExtension e) (.ok () : Except Fault Unit) fun _ _ o => o = 0 := by
  unfold copyExtension
  split_ifs
  · exact refines_pure rfl
  · refine (refines_getExtension e).aside (zero_add _).symm ?_
    rintro ⟨p, ext⟩ o ⟨-, rfl⟩
    exact refines_copied (q := (p, ext)) (refines_pure rfl)

theorem refines_takeLongName (a : Option (ℕ × Text × ℕ))
    (hfit : safe → ∀ p t off, a = some (p, t, off) → t.length < disFullName.length) :
    Refines safe lent (block (a.map Prod.fst)) (takeLongName a)
      (.ok (((a.map Prod.snd).map Prod.fst).getD [])) fun t u o => t = u ∧ o = 0 := by
  cases a with
  | none => exact refines_pure ⟨rfl, rfl⟩
  | some a => exact refines_within (fun hs => hfit hs _ _ _ rfl) (refines_takeString (a.1, a.2.1))

theorem refines_listNamed (p : ℕ) (name : Text) (hfit : safe → ∀ r t off,
      lfnGet wcstombs s.lfn e = .ok (r, some (t, off)) → t.length < disFullName.length) :
    Refines safe lent ({p} + q.owned) (listNamed wcstombs v q s e (p, name))
      (lfnGet wcstombs s.lfn e >>= fun r =>
        .ok ⟨r.1, s.lines ++ [listLine v e name ((r.2.map Prod.fst).getD [])]⟩)
      fun a t o => a.2 = t ∧ Points a.1 t.lfn ∧ o = a.1.owned := by
  refine refines_copied (q := (p, name)) ?_
  refine (refines_copyExtension e).aside (zero_add _).symm ?_
  rintro - o rfl
  rw [zero_add]
  refine (refines_getAttr e).aside (zero_add _).symm ?_
  rintro ⟨p', attr⟩ o ⟨-, rfl⟩
  refine refines_copied (q := (p', attr)) ?_
  refine (refines_lfnGet q s.lfn e).call (add_zero _).symm ?_
  rintro ⟨q', lfn, long⟩ ⟨lfn', long'⟩ o hget ⟨rfl, rfl, hp, rfl, rfl⟩
  refine (refines_takeLongName long fun hs p t off hlong => ?_).aside rfl ?_
  · subst hlong
    exact hfit hs lfn t off hget
  · rintro full o ⟨rfl, rfl⟩
    exact refines_pure ⟨rfl, hp, rfl⟩

theorem refines_listShort (h : Points q s.lfn) (hfit : safe → ∀ r t off,
      (isDirectory e.attr || !isSpecial e.attr) = true → (baseName e).isSome →
      lfnGet wcstombs s.lfn e = .ok (r, some (t, off)) → t.length < disFullName.length) :
    Refines safe lent q.owned (listShort wcstombs v q s e) (shortEntry wcstombs v s e)
      fun a t o => a.2 = t ∧ Points a.1 t.lfn ∧ o = a.1.owned := by
  unfold listShort shortEntry
  split_ifs with he
  · refine refines_name (fun hn => ?_) fun p name hn => ?_
    · rw [hn]
      exact refines_pure ⟨rfl, h, rfl⟩
    · rw [hn] at hfit ⊢
      exact refines_listNamed p name fun hs r t off => hfit hs r t off he rfl
  · exact refines_pure ⟨rfl, h, rfl⟩

theorem not_named_of_isLfn (h : isLfn e.attr = true) :
    (isDirectory e.attr || !isSpecial e.attr) = false := by
  rw [isLfn, beq_iff_eq] at h
  rw [h]
  decide

/-- A round of `list` keeps the blocks of the parser, and what it loses is counted. The array is
lent to it. -/
theorem refines_listEntry (h : Points q s.lfn) (i : ℕ) (hfit : safe → ∀ e r t off,
      entryAt entries i = .ok e → isShown showDeleted e →
      lfnGet wcstombs s.lfn e = .ok (r, some (t, off)) → t.length < disFullName.length) :
    Refines safe {p | p ∈ dir} q.owned
      (listEntryHeap fill wcstombs v dir entries showDeleted (q, s) i)
      (listEntry fill wcstombs v entries showDeleted s i) fun a t o => a.2 = t ∧
        Points a.1 t.lfn ∧ ∃ lost, o = a.1.owned + lost ∧ lost.card = entryLeaks entries s i := by
  rw [listEntry_bind]
  refine refines_useAny_of (fun _ p hp => .inr hp) (refines_plain_bind fun e he => ?_)
  unfold entryLeaks
  rw [he]
  by_cases hd : (isDeleted e && !showDeleted) = true
  · have hn : (!isDeleted e && isLfn e.attr) = false := by
      rw [Bool.and_eq_true] at hd
      rw [hd.1]
      rfl
    rw [if_pos hd, if_pos hd]
    simp only [hn]
    exact refines_pure ⟨rfl, h, 0, (add_zero _).symm, rfl⟩
  · rw [if_neg hd, if_neg hd]
    by_cases hl : (!isDeleted e && isLfn e.attr) = true
    · simp only [if_pos hl]
      have hslot := not_named_of_isLfn (Bool.and_eq_true_iff.mp hl).2
      refine (refines_lfnAddSlot h i).call (add_zero _).symm ?_
      rintro ⟨q', t⟩ r o - ⟨rfl, hp, lost, rfl, hlost⟩
      rw [add_zero]
      refine (refines_listShort hp fun _ _ _ _ hn => ?_).last rfl ?_
      · rw [hslot] at hn
        cases hn
      · rintro ⟨q'', s''⟩ u o' - ⟨rfl, hp', rfl⟩
        exact ⟨rfl, hp', lost, rfl, hlost⟩
    · simp only [if_neg hl]
      refine (refines_listShort (s := ⟨s.lfn, s.lines ++ []⟩) h fun hs r t off hn hb hget =>
        hfit hs e r t off he ?_ hget).last (add_zero _).symm ?_
      · rw [isShown, hn, hb, Bool.eq_false_iff.mpr hd]
        rfl
      · rintro ⟨q'', s''⟩ u o' - ⟨rfl, hp', rfl⟩
        exact ⟨rfl, hp', 0, rfl, rfl⟩

/-- A listing keeps the blocks of the parser and loses what is counted. -/
theorem refines_list (lfn : LfnState) (h : Points q lfn) (size : ℕ)
    (hfit : safe → NamesFit fill wcstombs v lfn entries size showDeleted) :
    Refines safe {p | p ∈ dir} q.owned
      (listHeap fill wcstombs v q lfn dir entries size showDeleted)
      (countedList fill wcstombs v lfn entries size showDeleted) fun a t o => a.2 = t.1 ∧
        Points a.1 t.1.lfn ∧ ∃ lost, o = a.1.owned + lost ∧ lost.card = t.2 := by
  induction size with
  | zero => exact refines_pure ⟨rfl, h, 0, (add_zero _).symm, rfl⟩
  | succ n ih =>
      have hheap : listHeap fill wcstombs v q lfn dir entries (n + 1) showDeleted =
          listHeap fill wcstombs v q lfn dir entries n showDeleted >>= fun r =>
            listEntryHeap fill wcstombs v dir entries showDeleted r n := by
        rw [listHeap, listHeap, List.range_succ, List.foldlM_append]
        simp
      have hcounted : countedList fill wcstombs v lfn entries (n + 1) showDeleted =
          countedList fill wcstombs v lfn entries n showDeleted >>= fun t =>
            listEntry fill wcstombs v entries showDeleted t.1 n >>= fun u =>
              .ok (u, t.2 + entryLeaks entries t.1 n) := by
        rw [countedList, countedList, List.range_succ, List.foldlM_append]
        congr 1
        funext t
        rw [List.foldlM_cons, counted]
        cases listEntry fill wcstombs v entries showDeleted t.1 n <;> rfl
      rw [hheap, hcounted]
      refine (ih fun hs i hi => hfit hs i (by omega)).call (add_zero _).symm ?_
      rintro ⟨q', s⟩ ⟨s', m⟩ o hn ⟨rfl, hp, lost, rfl, rfl⟩
      rw [add_zero, ← bind_pure (listEntryHeap _ _ _ _ _ _ _ _)]
      have hlist : list fill wcstombs v lfn entries n showDeleted = .ok s := by
        rw [list_eq_countedList, hn]
        rfl
      refine (refines_listEntry hp n fun hs e r t off he hshown hget =>
        hfit hs n (Nat.lt_succ_self n) t ⟨s, e, r, off, hlist, he, hshown, hget⟩).call rfl ?_
      rintro ⟨q'', s''⟩ t o - ⟨rfl, hp', lost', rfl, hlost⟩
      refine refines_pure ⟨rfl, hp', lost + lost', by abel, ?_⟩
      rw [Multiset.card_add, hlost]

variable (dir) in
theorem refines_listed {α β : Type} {lfn : LfnState} {size : ℕ} {o w : Multiset ℕ}
    {k : LfnBlocks × Listed → OnHeap α} {g : Listed → Except Fault β}
    {Q : α → β → Multiset ℕ → Prop} (h : Points q lfn) (ho : o = q.owned + w)
    (hdir : safe → ∀ p ∈ dir, p ∈ w ∨ p ∈ lent)
    (hfit : safe → NamesFit fill wcstombs v lfn entries size showDeleted)
    (hk : ∀ q' t lost, countedList fill wcstombs v lfn entries size showDeleted =
      .ok (t, Multiset.card lost) → Points q' t.lfn →
      Refines safe lent (q'.owned + lost + w) (k (q', t)) (g t) Q) :
    Refines safe lent o (listHeap fill wcstombs v q lfn dir entries size showDeleted >>= k)
      (list fill wcstombs v lfn entries size showDeleted >>= g) Q := by
  have hlist : list fill wcstombs v lfn entries size showDeleted >>= g =
      countedList fill wcstombs v lfn entries size showDeleted >>= fun t => g t.1 := by
    rw [list_eq_countedList]
    cases countedList fill wcstombs v lfn entries size showDeleted <;> rfl
  rw [hlist]
  refine (refines_list lfn h size hfit).lend ho hdir ?_
  rintro ⟨q', t⟩ ⟨t', n⟩ o' hc ⟨rfl, hp, lost, rfl, rfl⟩
  exact hk q' t lost hc hp

end Lines

end TFAT.HeapListings
