import TFAT.ListedNames

/-!
# The slots that the parser has gathered

What the parser of long names holds behind the entries of a directory is said by the entries
alone: the last slot that opens a name and the ones behind it, or, where no slot opens a name,
all the slots behind the parts that an earlier directory has left.
-/
namespace TFAT.GatheredSlots
open LittleEndianWords DiskLayout LongNames LongNameParts ListedNames

variable (showDeleted : Bool)

/-- Among the entries that ask the parser, the last slot that opens a name is followed by
these slots only. -/
def OpenedBy (es : List FatDirLayout) (start : FatDirLayout) (rest : List FatDirLayout) : Prop :=
  (∃ front, es.filter (consults showDeleted) = front ++ start :: rest) ∧
    isSlot start ∧ opensName start ∧ ∀ d ∈ rest, isSlot d ∧ ¬ opensName d

/-- The entries that ask the parser are slots that open no name. -/
def Joins (es : List FatDirLayout) : Prop :=
  ∀ d ∈ es.filter (consults showDeleted), isSlot d ∧ ¬ opensName d

/-- The slots at the end of the entries have these characters and miss `m` more slots. They
start with one that opens a name, or are all of the entries behind the parts that are held. -/
def Gathered (p : Option Parts) (es : List FatDirLayout) (m : ℕ) (chars : Bytes) : Prop :=
  (∃ start rest, OpenedBy showDeleted es start rest ∧ rest.length + 1 + m = slotNumber start ∧
      chars = gather rest (copyLfnPart start ++ [0, 0])) ∨
    ∃ q, p = some q ∧ Joins showDeleted es ∧
      (es.filter (consults showDeleted)).length + m = q.missing ∧
      chars = gather (es.filter (consults showDeleted)) q.chars

variable {showDeleted} {p : Option Parts} {es : List FatDirLayout} {e : FatDirLayout}
variable {m : ℕ} {chars : Bytes}

theorem afterAll_snoc (showDeleted : Bool) (p : Option Parts) (i : ℕ) (es : List FatDirLayout)
    (e : FatDirLayout) : afterAll showDeleted p i (es ++ [e]) =
      after showDeleted (afterAll showDeleted p i es) (i + es.length) e := by
  induction es generalizing p i with
  | nil => rfl
  | cons d es ih =>
      rw [List.cons_append, afterAll, ih, afterAll, List.length_cons]
      congr 1
      omega

theorem gather_snoc (slots : List FatDirLayout) (e : FatDirLayout) (chars : Bytes) :
    gather (slots ++ [e]) chars = joinPart e (gather slots chars) := by
  rw [gather, List.foldl_append]
  rfl

theorem append_singleton_eq_iff {α : Type} {l front rest : List α} {x start : α} :
    l ++ [x] = front ++ start :: rest ↔
      (rest = [] ∧ start = x ∧ front = l) ∨
        ∃ init, rest = init ++ [x] ∧ l = front ++ start :: init := by
  rcases List.eq_nil_or_concat rest with rfl | ⟨init, y, rfl⟩
  · constructor
    · intro h
      obtain ⟨hl, hx⟩ := List.append_inj' h rfl
      exact .inl ⟨rfl, (List.cons.inj hx).1.symm, hl.symm⟩
    · rintro (⟨-, rfl, rfl⟩ | ⟨init, h, -⟩)
      · rfl
      · exact absurd h (by simp)
  · rw [List.concat_eq_append, ← List.cons_append, ← List.append_assoc]
    constructor
    · intro h
      obtain ⟨hl, hx⟩ := List.append_inj' h rfl
      exact .inr ⟨init, by rw [(List.cons.inj hx).1], hl⟩
    · rintro (⟨h, -⟩ | ⟨init', h, rfl⟩)
      · exact absurd h (by simp)
      · rw [(List.append_inj' h rfl).1, (List.append_inj' h rfl).2]

theorem consults_of_isSlot (h : isSlot e = true) : consults showDeleted e = true := by
  rw [consults, h, Bool.true_or]

theorem filter_snoc (h : consults showDeleted e = true) :
    (es ++ [e]).filter (consults showDeleted) = es.filter (consults showDeleted) ++ [e] := by
  rw [List.filter_append, List.filter_cons_of_pos h, List.filter_nil]

section Entries

theorem gathered_snoc_passed (h : consults showDeleted e = false) :
    Gathered showDeleted p (es ++ [e]) m chars ↔ Gathered showDeleted p es m chars := by
  have hfilter : (es ++ [e]).filter (consults showDeleted) = es.filter (consults showDeleted) := by
    rw [List.filter_append, List.filter_cons_of_neg (by rw [h]; decide), List.filter_nil,
      List.append_nil]
  simp only [Gathered, OpenedBy, Joins, hfilter]

theorem not_gathered_snoc (h : consults showDeleted e = true) (hs : isSlot e = false) :
    ¬ Gathered showDeleted p (es ++ [e]) m chars := by
  rintro (⟨start, rest, ⟨⟨front, hl⟩, hstart, -, hrest⟩, -⟩ | ⟨q, -, hjoin, -⟩)
  · rw [filter_snoc h, append_singleton_eq_iff] at hl
    rcases hl with ⟨-, rfl, -⟩ | ⟨init, rfl, -⟩
    · rw [hs] at hstart
      cases hstart
    · have hlast := (hrest e (by simp)).1
      rw [hs] at hlast
      cases hlast
  · have hlast := (hjoin e (by rw [filter_snoc h]; simp)).1
    rw [hs] at hlast
    cases hlast

/-- A slot that opens a name is the only one of it so far. -/
theorem gathered_snoc_of_opensName (hs : isSlot e = true) (ho : opensName e) :
    Gathered showDeleted p (es ++ [e]) m chars ↔
      m + 1 = slotNumber e ∧ chars = copyLfnPart e ++ [0, 0] := by
  have hfilter : (es ++ [e]).filter (consults showDeleted) = _ :=
    filter_snoc (consults_of_isSlot hs)
  constructor
  · rintro (⟨start, rest, ⟨⟨front, hl⟩, -, -, hrest⟩, hcount, rfl⟩ | ⟨q, -, hjoin, -⟩)
    · rw [hfilter, append_singleton_eq_iff] at hl
      rcases hl with ⟨rfl, rfl, -⟩ | ⟨init, rfl, -⟩
      · exact ⟨by rw [List.length_nil] at hcount; omega, rfl⟩
      · exact absurd ho (hrest e (by simp)).2
    · exact absurd ho (hjoin e (by rw [hfilter]; simp)).2
  · rintro ⟨hcount, rfl⟩
    exact .inl ⟨e, [], ⟨⟨_, hfilter⟩, hs, ho, by simp⟩, by rw [List.length_nil]; omega, rfl⟩

/-- Another slot joins what has been gathered. -/
theorem gathered_snoc_of_not_opensName (hs : isSlot e = true) (ho : ¬ opensName e) :
    Gathered showDeleted p (es ++ [e]) m chars ↔
      ∃ cs, Gathered showDeleted p es (m + 1) cs ∧ chars = joinPart e cs := by
  have hfilter : (es ++ [e]).filter (consults showDeleted) = _ :=
    filter_snoc (consults_of_isSlot hs)
  constructor
  · rintro (⟨start, rest, ⟨⟨front, hl⟩, hstart, hopens, hrest⟩, hcount, rfl⟩ |
      ⟨q, hq, hjoin, hcount, rfl⟩)
    · rw [hfilter, append_singleton_eq_iff] at hl
      rcases hl with ⟨-, rfl, -⟩ | ⟨init, rfl, hl⟩
      · exact absurd hopens ho
      · rw [List.length_append, List.length_singleton] at hcount
        exact ⟨_, .inl ⟨start, init, ⟨⟨front, hl⟩, hstart, hopens,
          fun d hd => hrest d (by simp [hd])⟩, by omega, rfl⟩, gather_snoc _ _ _⟩
    · rw [hfilter, List.length_append, List.length_singleton] at hcount
      rw [hfilter, gather_snoc]
      exact ⟨_, .inr ⟨q, hq, fun d hd => hjoin d (by rw [hfilter]; simp [hd]), by omega, rfl⟩, rfl⟩
  · rintro ⟨cs, ⟨start, rest, ⟨⟨front, hl⟩, hstart, hopens, hrest⟩, hcount, rfl⟩ |
      ⟨q, hq, hjoin, hcount, rfl⟩, rfl⟩
    · refine .inl ⟨start, rest ++ [e], ⟨⟨front, ?_⟩, hstart, hopens, fun d hd => ?_⟩, ?_,
        (gather_snoc _ _ _).symm⟩
      · rw [hfilter, hl, List.append_assoc, List.cons_append]
      · rcases List.mem_append.mp hd with hd | hd
        · exact hrest d hd
        · rw [List.mem_singleton.mp hd]
          exact ⟨hs, ho⟩
      · rw [List.length_append, List.length_singleton]
        omega
    · refine .inr ⟨q, hq, fun d hd => ?_, ?_, ?_⟩
      · rw [hfilter] at hd
        rcases List.mem_append.mp hd with hd | hd
        · exact hjoin d hd
        · rw [List.mem_singleton.mp hd]
          exact ⟨hs, ho⟩
      · rw [hfilter, List.length_append, List.length_singleton]
        omega
      · rw [hfilter, gather_snoc]

end Entries

/-- The parser holds what its slots have gathered. -/
theorem afterAll_iff_gathered {i : ℕ} :
    (∃ q, afterAll showDeleted p i es = some q ∧ q.missing = m ∧ q.chars = chars) ↔
      Gathered showDeleted p es m chars := by
  induction es using List.reverseRecOn generalizing m chars with
  | nil =>
      constructor
      · rintro ⟨q, hq, rfl, rfl⟩
        exact .inr ⟨q, hq, by simp [Joins], by simp, rfl⟩
      · rintro (⟨start, rest, ⟨⟨front, hl⟩, -⟩, -⟩ | ⟨q, hq, -, hcount, rfl⟩)
        · exact absurd hl (by simp)
        · exact ⟨q, hq, by simpa using hcount.symm, rfl⟩
  | append_singleton es e ih =>
      rw [afterAll_snoc, after]
      by_cases hs : isSlot e = true
      · rw [if_pos hs]
        by_cases ho : opensName e
        · rw [next_of_opensName ho, gathered_snoc_of_opensName hs ho]
          have hne := ho.2
          constructor
          · rintro ⟨q, hq, rfl, rfl⟩
            obtain rfl := Option.some.inj hq
            exact ⟨by rw [Parts.ofSlot_missing]; omega, rfl⟩
          · rintro ⟨hcount, rfl⟩
            exact ⟨_, rfl, by rw [Parts.ofSlot_missing]; omega, rfl⟩
        · rw [gathered_snoc_of_not_opensName hs ho]
          constructor
          · rintro ⟨q, hq, rfl, rfl⟩
            obtain ⟨r, hm, hr, rfl⟩ := (next_eq_some_iff ho).mp hq
            have hmissing : (r.extend e hm).missing + 1 = r.missing :=
              Nat.succ_pred_eq_of_ne_zero hm
            exact ⟨r.chars, ih.mp ⟨r, hr, hmissing.symm, rfl⟩, rfl⟩
          · rintro ⟨cs, hgathered, rfl⟩
            obtain ⟨r, hr, hm, rfl⟩ := ih.mpr hgathered
            have hne : r.missing ≠ 0 := by omega
            refine ⟨r.extend e hne, (next_eq_some_iff ho).mpr ⟨r, hne, hr, rfl⟩, ?_, rfl⟩
            rw [Parts.extend_missing, hm, Nat.add_sub_cancel]
      · rw [if_neg hs]
        by_cases hshown : isShown showDeleted e = true
        · rw [if_pos hshown]
          refine iff_of_false (by simp) (not_gathered_snoc ?_ (by simpa using hs))
          rw [consults, hshown, Bool.or_true]
        · have hc : consults showDeleted e = false := by
            rw [consults, Bool.or_eq_false_iff]
            exact ⟨by simpa using hs, by simpa using hshown⟩
          rw [if_neg hshown, gathered_snoc_passed hc]
          exact ih

end TFAT.GatheredSlots
