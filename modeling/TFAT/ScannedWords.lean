import Mathlib.Algebra.GroupWithZero.Nat
import Mathlib.Data.List.TakeWhile

/-!
# Words between separators

A scanner that passes the separators in front of a word and takes the word up to the next
separator. What it takes, call after call, are the words of the list: the pieces between
separators that are not empty. However many separators stand around them makes no difference.
-/
namespace TFAT.ScannedWords

variable {α : Type} (p : α → Bool)

/-- The next word and what stands behind it. -/
def scanWord (l : List α) : Option (List α × List α) :=
  match l.dropWhile p with
  | [] => none
  | a :: t => some ((a :: t).takeWhile fun b => !p b, (a :: t).dropWhile fun b => !p b)

/-- The pieces between separators that are not empty. -/
def words (l : List α) : List (List α) := (l.splitOnP p).filter (· ≠ [])

/-- A word is not empty and has no separator. -/
structure IsWord (w : List α) : Prop where
  ne_nil : w ≠ []
  letters : ∀ a ∈ w, p a = false

variable {p} {a : α} {l w t : List α}

theorem IsWord.of_all (hn : w ≠ []) (h : w.all (!p ·) = true) : IsWord p w :=
  ⟨hn, fun a ha => by simpa using List.all_eq_true.mp h a ha⟩

@[simp] theorem words_nil : words p [] = [] := rfl

theorem words_sep_cons (h : p a) : words p (a :: l) = words p l := by
  have hsplit : ([] ++ a :: l).splitOnP p = _ :=
    List.splitOnP_append_cons_of_forall_mem (by simp) a h l
  rw [words, words, ← List.nil_append (a :: l), hsplit]
  rfl

theorem IsWord.words_eq (h : IsWord p w) : words p w = [w] := by
  rw [words, List.splitOnP_eq_singleton h.letters,
    List.filter_cons_of_pos (by simpa using h.ne_nil)]
  rfl

theorem IsWord.words_append_cons (h : IsWord p w) (ha : p a) :
    words p (w ++ a :: l) = w :: words p l := by
  rw [words, List.splitOnP_append_cons_of_forall_mem h.letters a ha,
    List.filter_cons_of_pos (by simpa using h.ne_nil)]
  rfl

theorem words_seps_append (h : ∀ a ∈ l, p a) : words p (l ++ t) = words p t := by
  induction l with
  | nil => rfl
  | cons a l ih =>
      rw [List.cons_append, words_sep_cons (h a (by simp))]
      exact ih fun b hb => h b (List.mem_cons_of_mem a hb)

theorem words_dropWhile (l : List α) : words p (l.dropWhile p) = words p l := by
  have h : words p (l.takeWhile p ++ l.dropWhile p) = words p (l.dropWhile p) :=
    words_seps_append fun a ha => List.mem_takeWhile_imp ha
  rw [← h, List.takeWhile_append_dropWhile]

theorem IsWord.words_append (h : IsWord p w) (ht : ∀ a, t.head? = some a → p a) :
    words p (w ++ t) = w :: words p t := by
  cases t with
  | nil => rw [List.append_nil, h.words_eq, words_nil]
  | cons a t =>
      have ha := ht a rfl
      rw [h.words_append_cons ha, words_sep_cons ha]

/-- What the scanner takes is a word, up to a separator or the end. -/
theorem scanWord_spec (h : scanWord p l = some (w, t)) :
    l.dropWhile p = w ++ t ∧ IsWord p w ∧ ∀ a, t.head? = some a → p a := by
  unfold scanWord at h
  cases hl : l.dropWhile p with
  | nil =>
      rw [hl] at h
      cases h
  | cons a r =>
      rw [hl, Option.some.injEq, Prod.mk.injEq] at h
      obtain ⟨rfl, rfl⟩ := h
      have ha : p a = false := by
        have hhead := List.head?_dropWhile_not p l
        rw [hl] at hhead
        simpa using hhead
      refine ⟨List.takeWhile_append_dropWhile.symm, ⟨?_, fun b hb => ?_⟩, fun b hb => ?_⟩
      · rw [List.takeWhile_cons_of_pos (by rw [ha]; rfl)]
        exact List.cons_ne_nil _ _
      · simpa using List.mem_takeWhile_imp hb
      · have hhead := List.head?_dropWhile_not (fun b => !p b) (a :: r)
        rw [hb] at hhead
        simpa using hhead

theorem scanWord_eq_none_iff : scanWord p l = none ↔ l.dropWhile p = [] := by
  unfold scanWord
  cases l.dropWhile p with
  | nil => exact iff_of_true rfl rfl
  | cons a r => exact iff_of_false (by simp) (by simp)

theorem scanWord_dropWhile (l : List α) : scanWord p (l.dropWhile p) = scanWord p l := by
  have h : (l.dropWhile p).dropWhile p = l.dropWhile p :=
    List.dropWhile_eq_self_iff.mpr fun hl => List.dropWhile_get_zero_not p l hl
  rw [scanWord, scanWord, h]

theorem words_eq (l : List α) : words p l = match scanWord p l with
    | none => []
    | some (w, t) => w :: words p t := by
  cases h : scanWord p l with
  | none => rw [← words_dropWhile, scanWord_eq_none_iff.mp h, words_nil]
  | some r =>
      obtain ⟨hdrop, hw, ht⟩ := scanWord_spec h
      rw [← words_dropWhile, hdrop]
      exact hw.words_append ht

theorem words_of_scanWord (h : scanWord p l = some (w, t)) : words p l = w :: words p t := by
  rw [words_eq, h]

theorem words_eq_nil_iff : words p l = [] ↔ scanWord p l = none := by
  rw [words_eq]
  cases scanWord p l with
  | none => exact iff_of_true rfl rfl
  | some r => exact iff_of_false (by simp) (by simp)

/-- A scanner takes words until none is left. -/
theorem scan_induction {motive : List α → Prop} (l : List α)
    (done : ∀ l, scanWord p l = none → motive l)
    (next : ∀ l w t, scanWord p l = some (w, t) → w ++ t <:+ l → motive t → motive l) :
    motive l := by
  generalize hn : l.length = n
  induction n using Nat.strongRecOn generalizing l with
  | ind n ih =>
      cases hs : scanWord p l with
      | none => exact done l hs
      | some r =>
          obtain ⟨hdrop, hw, -⟩ := scanWord_spec hs
          have hsuffix : r.1 ++ r.2 <:+ l := hdrop ▸ List.dropWhile_suffix p
          have hlen := hsuffix.length_le
          have hpos := List.length_pos_iff.mpr hw.ne_nil
          rw [List.length_append] at hlen
          exact next l r.1 r.2 hs hsuffix (ih r.2.length (by omega) r.2 rfl)

theorem isWord_of_mem_words (h : w ∈ words p l) : IsWord p w := by
  induction l using scan_induction (p := p) with
  | done l hs =>
      rw [words_eq_nil_iff.mpr hs] at h
      cases h
  | next l v t hs _ ih =>
      rw [words_of_scanWord hs, List.mem_cons] at h
      rcases h with rfl | h
      · exact (scanWord_spec hs).2.1
      · exact ih h

theorem infix_of_mem_words (h : w ∈ words p l) : w <:+: l := by
  induction l using scan_induction (p := p) with
  | done l hs =>
      rw [words_eq_nil_iff.mpr hs] at h
      cases h
  | next l v t hs hl ih =>
      rw [words_of_scanWord hs, List.mem_cons] at h
      rcases h with rfl | h
      · exact (List.prefix_append w t).isInfix.trans hl.isInfix
      · exact (ih h).trans ((List.suffix_append v t).trans hl).isInfix

theorem length_words_le (l : List α) : ((words p l).map List.length).sum ≤ l.length := by
  induction l using scan_induction (p := p) with
  | done l hs =>
      rw [words_eq_nil_iff.mpr hs]
      exact Nat.zero_le _
  | next l w t hs hl ih =>
      have hlen := hl.length_le
      rw [List.length_append] at hlen
      rw [words_of_scanWord hs, List.map_cons, List.sum_cons]
      omega

theorem words_flatMap {ws : List (List α)} (ha : p a) (h : ∀ w ∈ ws, IsWord p w) :
    words p (ws.flatMap (· ++ [a])) = ws := by
  induction ws with
  | nil => rfl
  | cons w ws ih =>
      rw [List.flatMap_cons, List.append_assoc, List.singleton_append,
        (h w (by simp)).words_append_cons ha]
      exact congrArg _ (ih fun v hv => h v (List.mem_cons_of_mem w hv))

end TFAT.ScannedWords
