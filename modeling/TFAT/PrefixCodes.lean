import Mathlib.Data.List.Basic

/-!
# Codes without prefixes

A code gives each symbol of an alphabet a word. Where no word is empty and none is the
start of another, a text has one decoding at most: the words of two spellings agree from
the first on.
-/
namespace TFAT.PrefixCodes
variable {α β : Type*}

/-- No word of the alphabet is empty, and none starts with another. -/
structure PrefixFree (S : α → Prop) (code : α → List β) : Prop where
  nonempty : ∀ a, S a → code a ≠ []
  unique : ∀ a b, S a → S b → code a <+: code b → a = b

section Decoding
variable {S : α → Prop} {code : α → List β} {a b : α} {s t : List β} {l m : List α}

theorem PrefixFree.head_eq (h : PrefixFree S code) (ha : S a) (hb : S b)
    (hst : code a ++ s = code b ++ t) : a = b ∧ s = t := by
  have hpa : code a <+: code b ++ t := hst ▸ List.prefix_append (code a) s
  have hpb : code b <+: code b ++ t := List.prefix_append (code b) t
  have hab : a = b := by
    rcases List.prefix_or_prefix_of_prefix hpa hpb with hp | hp
    · exact h.unique a b ha hb hp
    · exact (h.unique b a hb ha hp).symm
  subst hab
  exact ⟨rfl, List.append_cancel_left hst⟩

/-- A text has one decoding at most. -/
theorem PrefixFree.flatMap_injective (h : PrefixFree S code) (hl : ∀ a ∈ l, S a)
    (hm : ∀ a ∈ m, S a) (he : l.flatMap code = m.flatMap code) : l = m := by
  induction l generalizing m with
  | nil =>
      cases m with
      | nil => rfl
      | cons b m =>
          rw [List.flatMap_nil, List.flatMap_cons] at he
          exact absurd (List.append_eq_nil_iff.mp he.symm).1 (h.nonempty b (hm b (by simp)))
  | cons a l ih =>
      cases m with
      | nil =>
          rw [List.flatMap_nil, List.flatMap_cons] at he
          exact absurd (List.append_eq_nil_iff.mp he).1 (h.nonempty a (hl a (by simp)))
      | cons b m =>
          rw [List.flatMap_cons, List.flatMap_cons] at he
          obtain ⟨rfl, hrest⟩ := h.head_eq (hl a (by simp)) (hm b (by simp)) he
          rw [ih (fun c hc => hl c (by simp [hc])) (fun c hc => hm c (by simp [hc])) hrest]

end Decoding

end TFAT.PrefixCodes
