import TFAT.DirectoryIO
import TFAT.EntryNames

/-!
# From a path to a directory entry

`search` looks a term up in an array of entries and `find` follows a path from
the root directory. The entry that `find` returns lies in a block that it
allocates and fills in its loop, once for each component: on a path without
components the block is returned as the allocator left it.
-/
namespace TFAT.PathResolution
open ByteRegions LittleEndianWords DiskLayout ClusterTable DirectoryIO PathText EntryNames

/-- `root_dir[i]`, for any array of entries. -/
def entryAt (block : Bytes) (i : ℕ) : Except Fault FatDirLayout :=
  if h : entrySize * i + entrySize ≤ block.length then
    .ok ⟨slice block (entrySize * i) entrySize, length_slice_of_le h⟩
  else .error .wild

/-- The loop of `search` with `n` entries left from index `i`. -/
def searchFrom (block : Bytes) (term : Text) : ℕ → ℕ → Except Fault (Option FatDirLayout)
  | 0, _ => .ok none
  | n + 1, i => do
      let e ← entryAt block i
      if matchesTerm e term then .ok (some e) else searchFrom block term n (i + 1)

def search (block : Bytes) (term : Text) (size : ℕ) : Except Fault (Option FatDirLayout) :=
  searchFrom block term size 0

variable (fill : ℕ → UInt8) (v : Volume) (img : Bytes)

/-- The loop of `find`, with `*file` as it stands. -/
def findLoop : FatDirLayout → Bytes → ℕ → List Text → Except Fault (Option FatDirLayout)
  | file, _, _, [] => .ok (some file)
  | _, dir, size, token :: rest => do
      match ← search dir token size with
      | none => .ok none
      | some tmp =>
          if rest = [] then .ok (some tmp)
          else
            match ← parseDir fill v img tmp with
            | none => .ok none
            | some (entries, n) => findLoop tmp entries n rest

def find (fresh : FatDirLayout) (path : Text) : Except Fault (Option FatDirLayout) :=
  findLoop fill v img fresh v.rootDir v.boot.rootEntryCount.toNat (components path)

/-- The entries of the root directory and of the directories that entries name,
as the program gathers them. -/
inductive Searched : FatDirLayout → Prop
  | root {i : ℕ} {e : FatDirLayout} : i < v.boot.rootEntryCount.toNat →
      entryAt v.rootDir i = .ok e → Searched e
  | sub {d e : FatDirLayout} {entries : Bytes} {n i : ℕ} : Searched d →
      parseDir fill v img d = .ok (some (entries, n)) → i < n → entryAt entries i = .ok e →
      Searched e

variable {fill v img}

theorem entryAt_eq_ok_iff {block : Bytes} {i : ℕ} {e : FatDirLayout} :
    entryAt block i = .ok e ↔ entrySize * i + entrySize ≤ block.length ∧
      e.bytes = slice block (entrySize * i) entrySize := by
  unfold entryAt
  split_ifs with h
  · rw [Except.ok.injEq]
    constructor
    · intro he
      exact ⟨h, by rw [← he]⟩
    · intro he
      exact FatDirLayout.ext he.2.symm
  · simp [h]

theorem entryAt_append_zero (e : FatDirLayout) (rest : Bytes) :
    entryAt (e.bytes ++ rest) 0 = .ok e := by
  have hl := e.length_bytes
  rw [entryAt_eq_ok_iff, Nat.mul_zero, Nat.zero_add, List.length_append, hl,
    slice_append_left (by rw [hl, Nat.zero_add])]
  refine ⟨Nat.le_add_right _ _, ?_⟩
  conv_rhs => rw [← hl]
  exact (slice_zero_length _).symm

/-- A search for the term comes to the entry at this index first. -/
def FoundAt (block : Bytes) (term : Text) (size i : ℕ) (e : FatDirLayout) : Prop :=
  i < size ∧ entryAt block i = .ok e ∧ matchesTerm e term ∧
    ∀ k < i, ∃ d, entryAt block k = .ok d ∧ ¬ matchesTerm d term

theorem searchFrom_eq_some_iff {block : Bytes} {term : Text} {n i : ℕ} {e : FatDirLayout} :
    searchFrom block term n i = .ok (some e) ↔ ∃ j, i ≤ j ∧ j < i + n ∧
      entryAt block j = .ok e ∧ matchesTerm e term ∧
      ∀ k, i ≤ k → k < j → ∃ d, entryAt block k = .ok d ∧ ¬ matchesTerm d term := by
  induction n generalizing i with
  | zero =>
      simp only [searchFrom, Except.ok.injEq, reduceCtorEq, false_iff]
      rintro ⟨j, hij, hj, -⟩
      omega
  | succ n ih =>
      rw [searchFrom, bind_eq_ok]
      constructor
      · rintro ⟨d, hd, h⟩
        split_ifs at h with hm
        · rw [Except.ok.injEq, Option.some.injEq] at h
          subst h
          exact ⟨i, le_rfl, by omega, hd, hm, fun k hik hki => absurd hki (by omega)⟩
        · obtain ⟨j, hij, hj, he, hme, hfront⟩ := ih.mp h
          refine ⟨j, by omega, by omega, he, hme, fun k hik hkj => ?_⟩
          rcases Nat.eq_or_lt_of_le hik with rfl | hlt
          · exact ⟨d, hd, hm⟩
          · exact hfront k hlt hkj
      · rintro ⟨j, hij, hj, he, hme, hfront⟩
        rcases Nat.eq_or_lt_of_le hij with rfl | hlt
        · exact ⟨e, he, by rw [if_pos hme]⟩
        · obtain ⟨d, hd, hm⟩ := hfront i le_rfl hlt
          refine ⟨d, hd, ?_⟩
          rw [if_neg hm]
          exact ih.mpr ⟨j, hlt, by omega, he, hme, fun k hk => hfront k (by omega)⟩

/-- `search` finds the first entry that has the name. -/
theorem search_eq_ok_some_iff {block : Bytes} {term : Text} {size : ℕ} {e : FatDirLayout} :
    search block term size = .ok (some e) ↔ ∃ i, FoundAt block term size i e := by
  rw [search, searchFrom_eq_some_iff]
  simp only [FoundAt, Nat.zero_le, true_and, Nat.zero_add, forall_true_left]

theorem FoundAt.ne_of_lt {block : Bytes} {term : Text} {size i j : ℕ} {e : FatDirLayout}
    (h : FoundAt block term size i e) (hj : j < i) : entryAt block j ≠ .ok e := by
  intro hej
  obtain ⟨d, hd, hne⟩ := h.2.2.2 j hj
  rw [hej, Except.ok.injEq] at hd
  exact hne (hd ▸ h.2.2.1)

theorem of_search {block : Bytes} {term : Text} {size : ℕ} {e : FatDirLayout}
    (h : search block term size = .ok (some e)) :
    ∃ j < size, entryAt block j = .ok e ∧ matchesTerm e term := by
  obtain ⟨j, hj, he, hm, -⟩ := search_eq_ok_some_iff.mp h
  exact ⟨j, hj, he, hm⟩

theorem exists_searchFrom_of_matches {block : Bytes} {term : Text} {n i j : ℕ} {e : FatDirLayout}
    (hij : i ≤ j) (hj : j < i + n) (he : entryAt block j = .ok e) (hm : matchesTerm e term) :
    ∃ d, searchFrom block term n i = .ok (some d) := by
  induction n generalizing i with
  | zero => exact absurd hj (by omega)
  | succ n ih =>
      have hin := (entryAt_eq_ok_iff.mp he).1
      have hle : entrySize * i + entrySize ≤ block.length := by
        have := Nat.mul_le_mul_left entrySize hij
        omega
      rw [searchFrom, entryAt, dif_pos hle, ok_bind]
      split_ifs with hd
      · exact ⟨_, rfl⟩
      · rcases Nat.eq_or_lt_of_le hij with rfl | hlt
        · rw [entryAt, dif_pos hin, Except.ok.injEq] at he
          exact absurd hm (he ▸ hd)
        · exact ih hlt (by omega)

theorem exists_searchFrom_of_le {block : Bytes} (term : Text) {n i : ℕ}
    (h : entrySize * (i + n) ≤ block.length) : ∃ r, searchFrom block term n i = .ok r := by
  induction n generalizing i with
  | zero => exact ⟨none, rfl⟩
  | succ n ih =>
      have hle : entrySize * i + entrySize ≤ block.length := by
        rw [entrySize] at *
        omega
      rw [searchFrom, entryAt, dif_pos hle, ok_bind]
      split_ifs
      · exact ⟨_, rfl⟩
      · exact ih (by rwa [show i + 1 + n = i + (n + 1) by omega])

theorem le_of_searchFrom_eq_none {block : Bytes} {term : Text} {n i : ℕ}
    (hi : entrySize * i ≤ block.length) (h : searchFrom block term n i = .ok none) :
    entrySize * (i + n) ≤ block.length := by
  induction n generalizing i with
  | zero => exact hi
  | succ n ih =>
      rw [searchFrom, bind_eq_ok] at h
      obtain ⟨d, hd, h⟩ := h
      split_ifs at h
      · simp at h
      · rw [show i + (n + 1) = i + 1 + n by omega]
        exact ih (entryAt_eq_ok_iff.mp hd).1 h

def HasName (block : Bytes) (term : Text) (size : ℕ) : Prop :=
  ∃ i < size, ∃ e, entryAt block i = .ok e ∧ matchesTerm e term

theorem search_eq_some_iff {block : Bytes} {term : Text} {size : ℕ} :
    (∃ e, search block term size = .ok (some e)) ↔ HasName block term size := by
  constructor
  · rintro ⟨e, h⟩
    obtain ⟨j, hj, he, hm⟩ := of_search h
    exact ⟨j, hj, e, he, hm⟩
  · rintro ⟨j, hj, e, he, hm⟩
    exact exists_searchFrom_of_matches (Nat.zero_le j) (by omega) he hm

/-- Only a search that finds nothing goes through the whole array. -/
theorem search_returns_iff {block : Bytes} {term : Text} {size : ℕ} :
    (∃ r, search block term size = .ok r) ↔
      HasName block term size ∨ entrySize * size ≤ block.length := by
  constructor
  · rintro ⟨r, h⟩
    cases r with
    | none =>
        have hle := le_of_searchFrom_eq_none (Nat.zero_le _) h
        rw [Nat.zero_add] at hle
        exact .inr hle
    | some e => exact .inl (search_eq_some_iff.mp ⟨e, h⟩)
  · rintro (h | h)
    · obtain ⟨e, he⟩ := search_eq_some_iff.mpr h
      exact ⟨some e, he⟩
    · exact exists_searchFrom_of_le term (by rwa [Nat.zero_add])

/-- The block for the result is overwritten as soon as there is a component. -/
theorem findLoop_congr (f g : FatDirLayout) (dir : Bytes) (size : ℕ) {tokens : List Text}
    (h : tokens ≠ []) :
    findLoop fill v img f dir size tokens = findLoop fill v img g dir size tokens := by
  cases tokens with
  | nil => exact absurd rfl h
  | cons token rest => rfl

theorem find_congr (f g : FatDirLayout) {path : Text} (h : components path ≠ []) :
    find fill v img f path = find fill v img g path :=
  findLoop_congr f g _ _ h

theorem find_of_components_eq_nil (f : FatDirLayout) {path : Text} (h : components path = []) :
    find fill v img f path = .ok (some f) := by
  rw [find, h]
  rfl

theorem find_of_components_eq_singleton (f : FatDirLayout) {path name : Text}
    (h : components path = [name]) :
    find fill v img f path = search v.rootDir name v.boot.rootEntryCount.toNat := by
  rw [find, h, findLoop]
  cases search v.rootDir name v.boot.rootEntryCount.toNat with
  | error e => rfl
  | ok r =>
      cases r with
      | none => rfl
      | some tmp => simp only [ok_bind, if_pos]

theorem searched_of_findLoop {f e : FatDirLayout} {dir : Bytes} {size : ℕ} {tokens : List Text}
    (hs : ∀ i < size, ∀ e, entryAt dir i = .ok e → Searched fill v img e) (hn : tokens ≠ [])
    (h : findLoop fill v img f dir size tokens = .ok (some e)) : Searched fill v img e := by
  induction tokens generalizing f dir size with
  | nil => exact absurd rfl hn
  | cons token rest ih =>
      rw [findLoop, bind_eq_ok] at h
      obtain ⟨r, hr, h⟩ := h
      cases r with
      | none => simp at h
      | some tmp =>
          obtain ⟨j, hj, htmp, -⟩ := of_search hr
          have hst := hs j hj tmp htmp
          simp only at h
          split_ifs at h with hrest
          · rw [Except.ok.injEq, Option.some.injEq] at h
            exact h ▸ hst
          · rw [bind_eq_ok] at h
            obtain ⟨p, hp, h⟩ := h
            cases p with
            | none => simp at h
            | some p =>
                exact ih (fun i hi e he => .sub hst hp hi he) hrest h

end TFAT.PathResolution
