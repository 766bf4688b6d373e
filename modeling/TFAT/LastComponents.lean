import TFAT.PathSegments

/-!
# The last component of a path

`fix_deleted_char` and `get_parent_path` look for the last slash from the end of a path.
Their scan comes to the start both where there is no slash and where the only one is the
first character, so a name that stands in the root directory is not told from its slash.
And a path that ends with two slashes loses one of them, not a component.
-/
namespace TFAT.LastComponents
open LittleEndianWords PathText PathSegments

/-- The path less a slash at its end, with a question mark for the first character of the
last component, and that character. -/
def MarksLast (path : Text) (r : Text × UInt8) : Prop :=
  ∃ front b name, stripSlash path = front ++ b :: name ∧
    components path = components front ++ [b :: name] ∧ r = (front ++ question :: name, b)

section Last
variable {path p t x : Text} {xs : List Text}

theorem exists_last_segment (h : slash ∈ t) : ∃ p x, t = p ++ slash :: x ∧ slash ∉ x := by
  obtain ⟨x, p, hr, hx⟩ := List.eq_append_cons_of_mem (List.mem_reverse.mpr h)
  refine ⟨p.reverse, x.reverse, ?_, by simpa using hx⟩
  rw [← List.reverse_reverse t, hr]
  simp

theorem components_append_slash_cons (p : Text) (hx : slash ∉ x) (hne : x ≠ []) :
    components (p ++ slash :: x) = components (p ++ [slash]) ++ [x] := by
  have hns : ∀ b ∈ x, b ≠ slash := fun b hb he => hx (he ▸ hb)
  rw [components, components, tokens_append_slash_append, tokens_append_slash,
    tokens_of_ne_slash hns, List.nil_append, if_neg hne]

/-- Without repeated slashes a path is one name, or it has a slash in front of the last. -/
theorem strip_cases (hc : components path ≠ []) (hs : ¬ [slash, slash] <:+: path) :
    (∃ b name, stripSlash path = b :: name ∧ slash ∉ b :: name) ∨
      ∃ p b name, stripSlash path = p ++ slash :: b :: name ∧ slash ∉ b :: name ∧
        p.getLast? ≠ some slash := by
  rw [← components_stripSlash] at hc
  by_cases hmem : slash ∈ stripSlash path
  · obtain ⟨p, x, hstrip, hx⟩ := exists_last_segment hmem
    refine .inr ?_
    cases x with
    | nil => exact absurd hstrip (stripSlash_append_slash hs)
    | cons b name =>
        refine ⟨p, b, name, hstrip, hx, fun hlast => hs ?_⟩
        obtain ⟨q, rfl⟩ := List.getLast?_eq_some_iff.mp hlast
        refine List.IsInfix.trans ?_ stripSlash_prefix.isInfix
        exact ⟨q, b :: name, by rw [hstrip]; simp⟩
  · cases hstrip : stripSlash path with
    | nil =>
        rw [hstrip] at hc
        exact absurd rfl hc
    | cons b name => exact .inl ⟨b, name, rfl, hstrip ▸ hmem⟩

theorem head?_of_stripSlash {b : UInt8} (h : (stripSlash path).head? = some b) :
    path.head? = some b := by
  obtain ⟨rest, hrest⟩ := stripSlash_prefix (t := path)
  obtain ⟨u, hu⟩ := List.head?_eq_some_iff.mp h
  rw [← hrest, hu]
  rfl

/-- Where the only slash is the first character, it is the slash that is marked. -/
theorem fixDeletedChar_of_root (hp : stripSlash path = slash :: x) (hx : slash ∉ x) :
    fixDeletedChar path = (question :: x, slash) := by
  have hscan : scanBack (slash :: x) (slash :: x).length = 0 := @scanBack_append [] x hx
  rw [fixDeletedChar, hp]
  simp only [hscan, if_true]
  rfl

theorem fixDeletedChar_of_inner {b : UInt8} {name : Text}
    (hpath : stripSlash path = p ++ slash :: b :: name) (hns : slash ∉ b :: name) (hp : p ≠ []) :
    fixDeletedChar path = (p ++ [slash] ++ question :: name, b) := by
  have hscan : scanBack (p ++ slash :: b :: name) (p ++ slash :: b :: name).length = p.length :=
    scanBack_append hns
  have hpos : ¬ p.length = 0 := by simpa using hp
  have htake : (p ++ slash :: b :: name).take (p.length + 1) = p ++ [slash] := by
    simp [List.take_append, List.take_of_length_le]
  have hdrop : (p ++ slash :: b :: name).drop (p.length + 1 + 1) = name := by
    rw [Nat.add_assoc, ← List.drop_drop, List.drop_left]
    rfl
  have hget : (p ++ slash :: b :: name).getD (p.length + 1) 0 = b := by
    simp [List.getD_eq_getElem?_getD]
  rw [fixDeletedChar, hpath]
  simp only [hscan, if_neg hpos, htake, hdrop, hget]
  rw [List.append_assoc (p ++ [slash]), List.singleton_append]

/-- In front of a slash behind another character there is a component. -/
theorem components_append_slash_ne (hp : p ≠ []) (hlast : p.getLast? ≠ some slash) :
    components (p ++ [slash]) ≠ [] := by
  intro hnil
  obtain ⟨q, c, rfl⟩ := (List.eq_nil_or_concat' p).resolve_left hp
  rw [components_eq_nil_iff] at hnil
  exact hlast (by rw [List.getLast?_concat, hnil c (by simp)])

/-- `fix_deleted_char` marks the last component exactly unless the path starts with a slash
and has one component only. -/
theorem fixDeletedChar_marks_iff (hc : components path ≠ []) (hs : ¬ [slash, slash] <:+: path) :
    MarksLast path (fixDeletedChar path) ↔
      ¬ (path.head? = some slash ∧ (components path).length = 1) := by
  rcases strip_cases hc hs with ⟨b, name, hstrip, hns⟩ | ⟨p, b, name, hstrip, hns, hlast⟩
  · -- one relative component
    have hcomp : components path = [b :: name] := by
      rw [← components_stripSlash, hstrip, components,
        tokens_of_ne_slash fun c hb he => hns (he ▸ hb)]
      rfl
    refine iff_of_true ⟨[], b, name, hstrip, hcomp, fixDeletedChar_of_notMem hstrip hns⟩
      fun hroot => ?_
    have hhead : path.head? = some b := head?_of_stripSlash (by rw [hstrip]; rfl)
    rw [hroot.1, Option.some.injEq] at hhead
    exact hns (by simp [hhead])
  have hcomp : components path = components (p ++ [slash]) ++ [b :: name] := by
    rw [← components_stripSlash, hstrip, components_append_slash_cons p hns (by simp)]
  by_cases hp : p = []
  · -- the only slash is the first character
    subst hp
    have hone : components path = [b :: name] := hcomp
    refine iff_of_false ?_ (not_not.mpr ⟨?_, by rw [hone]; rfl⟩)
    · rintro ⟨front, c, name', -, hmarked, hr⟩
      rw [hone] at hmarked
      have hsame := (List.append_inj' (show [] ++ [b :: name] = _ from hmarked) rfl).2
      rw [fixDeletedChar_of_root hstrip hns, Prod.mk.injEq] at hr
      rw [← hr.2, List.cons.injEq, List.cons.injEq] at hsame
      exact hns (by simp [hsame.1.1])
    · exact head?_of_stripSlash (by rw [hstrip]; rfl)
  · -- the slash in front of the last component is found
    refine iff_of_true
      ⟨p ++ [slash], b, name, ?_, hcomp, fixDeletedChar_of_inner hstrip hns hp⟩ fun hroot => ?_
    · rw [hstrip, List.append_assoc, List.singleton_append]
    · have hone := hroot.2
      rw [hcomp, List.length_append, List.length_singleton, Nat.add_eq_right,
        List.length_eq_zero_iff] at hone
      exact components_append_slash_ne hp hlast hone

/-- The name `A` in a directory `D` of the root directory. -/
theorem fixDeletedChar_marks_inner :
    MarksLast [slash, 68, slash, 65] (fixDeletedChar [slash, 68, slash, 65]) :=
  (fixDeletedChar_marks_iff (by decide) (by decide)).mpr (by decide)

/-- The path `/A` becomes `?A`, and the character that is handed back is the slash. -/
theorem fixDeletedChar_root_overwritten : ¬ MarksLast [slash, 65] (fixDeletedChar [slash, 65]) := by
  rintro ⟨front, b, name, -, hc, hr⟩
  have hb : b = slash := (Prod.mk.injEq _ _ _ _ ▸ hr).2.symm
  rw [show components [slash, 65] = [] ++ [[65]] by decide] at hc
  have hname := (List.append_inj' hc rfl).2
  rw [hb, List.cons.injEq, List.cons.injEq] at hname
  exact absurd hname.1.1 (by decide)

end Last

section Parents
variable {x : Text} {xs : List Text}

theorem doubled_suffix_concat_iff {l : Text} :
    [slash, slash] <:+ l ++ [slash] ↔ l.getLast? = some slash := by
  rw [List.suffix_concat_iff, ← List.singleton_suffix_iff_getLast?_eq_some]
  constructor
  · rintro (h | ⟨t, ht, h⟩)
    · simp at h
    · obtain rfl : [slash] = t := (List.append_inj' (show [slash] ++ [slash] = _ from ht) rfl).1
      exact h
  · exact fun h => .inr ⟨[slash], rfl, h⟩

theorem doubled_suffix_iff (hx : slash ∉ x) :
    [slash, slash] <:+ render (xs ++ [x]) ↔ x = [] := by
  rw [render_concat, doubled_suffix_concat_iff]
  constructor
  · intro h
    by_contra hne
    rw [List.getLast?_append_of_ne_nil _ hne] at h
    exact hx (List.mem_of_getLast? h)
  · rintro rfl
    rw [List.append_nil]
    exact getLast?_render xs

theorem doubled_prefix_iff (hx : slash ∉ x) :
    [slash, slash] <+: render (x :: xs) ↔ x = [] := by
  rw [render, joined_cons, List.cons_prefix_cons, List.singleton_prefix_iff_head?_eq_some]
  cases x with
  | nil => simp
  | cons b x =>
      rw [List.mem_cons, not_or] at hx
      simp [Ne.symm hx.1]

theorem components_render_concat (h : Plain (xs ++ [x])) :
    components (render (xs ++ [x])) =
      components (render xs) ++ if x = [] then [] else [x] := by
  have hxs : Plain xs := fun y hy => h y (by simp [hy])
  rw [components_render h, components_render hxs, List.filter_append]
  by_cases hx : x = [] <;> simp [hx]

/-- The parent has all components but the last one, unless the path ends with two slashes
and has a component. -/
theorem components_parent_iff (h : Plain xs) :
    components (getParentPath (render xs)) = (components (render xs)).dropLast ↔
      components (render xs) = [] ∨ ¬ [slash, slash] <:+ render xs := by
  rw [getParentPath_render h]
  cases xs using List.reverseRecOn with
  | nil => exact iff_of_true rfl (.inl rfl)
  | append_singleton ys x =>
      rw [List.dropLast_concat, components_render_concat h, doubled_suffix_iff (h x (by simp))]
      split_ifs with hx
      · simp only [List.append_nil, hx, not_true_eq_false, or_false]
        constructor
        · intro hd
          have hlen := congrArg List.length hd
          rw [List.length_dropLast] at hlen
          exact List.eq_nil_of_length_eq_zero (by omega)
        · intro hn
          rw [hn]
          rfl
      · exact iff_of_true (by rw [List.dropLast_concat]) (.inr hx)

/-- The parent of a path that ends with one slash is `/` where only one component stands
behind a single slash. -/
theorem parent_root_iff (h : Plain xs) (hc : components (render xs) ≠ [])
    (hs : ¬ [slash, slash] <:+ render xs) :
    (getParentPath (render xs) = [slash] ↔ (components (render xs)).dropLast = []) ↔
      ((components (render xs)).length = 1 → ¬ [slash, slash] <+: render xs) := by
  rw [getParentPath_render h, render_eq_root_iff]
  cases xs using List.reverseRecOn with
  | nil => exact absurd rfl hc
  | append_singleton ys x =>
      rw [doubled_suffix_iff (h x (by simp))] at hs
      have hys : Plain ys := fun y hy => h y (by simp [hy])
      rw [components_render_concat h, if_neg hs, List.dropLast_concat, List.dropLast_concat,
        List.length_append, List.length_singleton, Nat.add_eq_right, List.length_eq_zero_iff]
      cases ys with
      | nil =>
          have hone : [slash, slash] <+: render ([] ++ [x]) ↔ x = [] :=
            doubled_prefix_iff (h x (by simp))
          exact iff_of_true (iff_of_true rfl rfl) fun _ hp => hs (hone.mp hp)
      | cons y ys =>
          rw [List.cons_append, doubled_prefix_iff (hys y (by simp)), components_render hys]
          by_cases hy : y = []
          · simp [hy]
          · simp [hy]

end Parents

end TFAT.LastComponents
