import Mathlib.Data.List.Induction
import TFAT.PathText

/-!
# Paths as lists of segments

A text that starts and ends with a slash is a list of segments, the texts between its
slashes. Converting an argument appends the segments of the argument, and two dots in
front of it take the last segment away first. `strtok` sees the segments that are not
empty.
-/
namespace TFAT.PathSegments
open LittleEndianWords PathText

/-- The texts in front of each slash, and behind the last one if there is something. -/
def segments : Text → List Text
  | [] => []
  | b :: t =>
      if b = slash then [] :: segments t
      else match segments t with
        | [] => [[b]]
        | x :: xs => (b :: x) :: xs

def joined (xs : List Text) : Text := xs.flatMap (· ++ [slash])

/-- The path with the given segments. -/
def render (xs : List Text) : Text := slash :: joined xs

/-- A slash that is put behind this text is a segment more. -/
def trail (t : Text) : List Text := if t = [] ∨ t.getLast? = some slash then [[]] else []

def Plain (xs : List Text) : Prop := ∀ x ∈ xs, slash ∉ x

section Segments
variable {t u : Text} {b : UInt8} {xs ys : List Text} {x : Text}

theorem segments_slash (t : Text) : segments (slash :: t) = [] :: segments t := by
  rw [segments, if_pos rfl]

theorem segments_eq_nil_iff : segments t = [] ↔ t = [] := by
  cases t with
  | nil => exact iff_of_true rfl rfl
  | cons b t =>
      refine iff_of_false ?_ (by simp)
      rw [segments]
      split_ifs
      · simp
      · cases segments t <;> simp

theorem segments_cons (hb : b ≠ slash) (h : segments t = x :: xs) :
    segments (b :: t) = (b :: x) :: xs := by
  rw [segments, if_neg hb, h]

theorem joined_cons (x : Text) (xs : List Text) : joined (x :: xs) = x ++ slash :: joined xs := by
  simp [joined]

theorem joined_append (xs ys : List Text) : joined (xs ++ ys) = joined xs ++ joined ys :=
  List.flatMap_append

theorem endSlash_append (t : Text) (hu : u ≠ []) : endSlash (t ++ u) = t ++ endSlash u := by
  unfold endSlash
  rw [List.getLast?_append_of_ne_nil t hu]
  split_ifs
  · rfl
  · rw [List.append_assoc]

theorem joined_segments (ht : t ≠ []) : joined (segments t) = endSlash t := by
  induction t with
  | nil => exact absurd rfl ht
  | cons b t ih =>
      by_cases hb : b = slash
      · rw [hb, segments_slash, joined_cons, List.nil_append]
        cases t with
        | nil => rfl
        | cons c t =>
            rw [ih (by simp)]
            exact (endSlash_append [slash] (by simp)).symm
      · cases ht' : segments t with
        | nil =>
            rw [segments_eq_nil_iff] at ht'
            rw [ht', segments, if_neg hb]
            simp [segments, joined, endSlash, hb]
        | cons x xs =>
            have hne : t ≠ [] := fun hn => by simp [hn, segments] at ht'
            rw [segments_cons hb ht', joined_cons, List.cons_append, ← joined_cons, ← ht', ih hne]
            exact (endSlash_append [b] hne).symm

theorem plain_segments (t : Text) : Plain (segments t) := by
  induction t with
  | nil => simp [Plain, segments]
  | cons b t ih =>
      by_cases hb : b = slash
      · rw [hb, segments_slash]
        simpa [Plain] using ih
      · cases ht : segments t with
        | nil =>
            rw [segments, if_neg hb, ht]
            simpa [Plain] using Ne.symm hb
        | cons x xs =>
            rw [segments_cons hb ht]
            rw [ht] at ih
            simp only [Plain, List.mem_cons, forall_eq_or_imp] at ih ⊢
            exact ⟨by simpa [Ne.symm hb] using ih.1, ih.2⟩

theorem trail_cons (b : UInt8) (ht : t ≠ []) : trail (b :: t) = trail t := by
  rw [trail, trail]
  simp [ht, List.getLast?_cons_of_ne_nil]

theorem segments_append_slash (t u : Text) :
    segments (t ++ slash :: u) = segments t ++ trail t ++ segments u := by
  induction t with
  | nil => exact segments_slash u
  | cons b t ih =>
      rw [List.cons_append]
      by_cases hb : b = slash
      · rw [hb, segments_slash, segments_slash, ih]
        cases t with
        | nil => rfl
        | cons c t => rw [trail_cons slash (by simp)]; rfl
      · cases ht : segments t with
        | nil =>
            rw [segments_eq_nil_iff] at ht
            rw [ht, List.nil_append, segments_cons hb (segments_slash u), segments, if_neg hb]
            simp [segments, trail, hb]
        | cons x xs =>
            have hne : t ≠ [] := fun hn => by simp [hn, segments] at ht
            rw [segments_cons hb ht, trail_cons b hne]
            rw [ht, List.cons_append, List.cons_append] at ih
            rw [segments_cons hb ih]
            rfl

end Segments

section Rendering
variable {xs ys : List Text} {x t acc : Text}

theorem render_append (xs ys : List Text) : render (xs ++ ys) = render xs ++ joined ys := by
  rw [render, joined_append, render, List.cons_append]

theorem render_concat (xs : List Text) (x : Text) :
    render (xs ++ [x]) = render xs ++ x ++ [slash] := by
  rw [render_append, joined_cons, List.append_assoc]
  rfl

theorem getLast?_render (xs : List Text) : (render xs).getLast? = some slash := by
  cases xs using List.reverseRecOn with
  | nil => rfl
  | append_singleton xs x => rw [render_concat, List.getLast?_concat]

theorem endSlash_render (xs : List Text) : endSlash (render xs) = render xs := by
  rw [endSlash, if_pos (getLast?_render xs)]

/-- What is put behind a path with segments adds its own segments. -/
theorem endSlash_render_append (xs : List Text) (t : Text) :
    endSlash (render xs ++ t) = render (xs ++ segments t) := by
  by_cases ht : t = []
  · rw [ht, List.append_nil, endSlash_render, segments, List.append_nil]
  · rw [endSlash_append _ ht, ← joined_segments ht, render_append]

theorem exists_render (hh : t.head? = some slash) (hl : t.getLast? = some slash) :
    ∃ xs, t = render xs ∧ Plain xs := by
  obtain ⟨u, rfl⟩ := List.head?_eq_some_iff.mp hh
  refine ⟨segments u, ?_, plain_segments u⟩
  by_cases hu : u = []
  · rw [hu]
    rfl
  · rw [List.getLast?_cons_of_ne_nil hu] at hl
    rw [render, joined_segments hu, endSlash, if_pos hl]

theorem render_eq_root_iff : render xs = [slash] ↔ xs = [] := by
  cases xs with
  | nil => exact iff_of_true rfl rfl
  | cons x xs => exact iff_of_false (by simp [render, joined]) (by simp)

theorem tokens_append_of_ne_slash (hx : slash ∉ x) : tokens acc (x ++ slash :: t) =
    if acc ++ x = [] then tokens [] t else (acc ++ x) :: tokens [] t := by
  induction x generalizing acc with
  | nil => rw [List.nil_append, tokens, if_pos rfl, List.append_nil]
  | cons b x ih =>
      rw [List.mem_cons, not_or] at hx
      rw [List.cons_append, tokens, if_neg (Ne.symm hx.1), ih hx.2, List.append_assoc]
      rfl

/-- The components of a path are its segments that are not empty. -/
theorem components_render (h : Plain xs) : components (render xs) = xs.filter (· ≠ []) := by
  rw [components, render, tokens, if_pos rfl, if_pos rfl]
  induction xs with
  | nil => rfl
  | cons x xs ih =>
      simp only [Plain, List.mem_cons, forall_eq_or_imp] at h
      rw [joined_cons, tokens_append_of_ne_slash h.1, List.nil_append, ih h.2]
      by_cases hx : x = [] <;> simp [hx]

theorem scanBack_eq {k n : ℕ} (hk : t[k]? = some slash) (hkn : k ≤ n)
    (h : ∀ j, k < j → j ≤ n → t[j]? ≠ some slash) : scanBack t n = k := by
  induction n with
  | zero => exact (Nat.le_zero.mp hkn).symm
  | succ n ih =>
      rw [scanBack]
      rcases Nat.lt_or_eq_of_le hkn with hlt | rfl
      · rw [if_neg (h (n + 1) hlt le_rfl)]
        exact ih (by omega) fun j hj hjn => h j hj (by omega)
      · rw [if_pos hk]

theorem scanBack_append {front x : Text} (hx : slash ∉ x) :
    scanBack (front ++ slash :: x) (front ++ slash :: x).length = front.length := by
  refine scanBack_eq (by simp) (by simp) fun j hj _ => ?_
  rw [List.getElem?_append_right (by omega)]
  obtain ⟨k, hk⟩ : ∃ k, j - front.length = k + 1 := ⟨j - front.length - 1, by omega⟩
  rw [hk, List.getElem?_cons_succ]
  exact fun hs => hx (List.mem_of_getElem? hs)

/-- The parent of a path has all segments but the last one. -/
theorem getParentPath_render (h : Plain xs) : getParentPath (render xs) = render xs.dropLast := by
  cases xs using List.reverseRecOn with
  | nil => rfl
  | append_singleton xs x =>
      have hx : slash ∉ x := h x (by simp)
      obtain ⟨front, hfront⟩ : ∃ front, render xs = front ++ [slash] :=
        List.getLast?_eq_some_iff.mp (getLast?_render xs)
      have hstrip : stripSlash (render (xs ++ [x])) = front ++ slash :: x := by
        rw [stripSlash, if_pos (getLast?_render _), render_concat, List.dropLast_concat, hfront,
          List.append_assoc, List.singleton_append]
      rw [getParentPath]
      simp only [hstrip, scanBack_append hx]
      rw [List.take_left, List.dropLast_concat, hfront]

end Rendering

section Converting
variable {xs : List Text} {p q rest : Text}

theorem convert_dotDot (h : Plain xs) (rest : Text) :
    (addressConvertor (render xs) (some (dot :: dot :: rest))).text =
      render (xs.dropLast ++ segments (behindDots rest)) := by
  rw [addressConvertor_dotDot, getParentPath_render h, endSlash_render_append]

theorem convert_dot (h : rest.head? ≠ some dot) :
    (addressConvertor (render xs) (some (dot :: rest))).text =
      render (xs ++ segments (behindDots rest)) := by
  rw [addressConvertor_dot _ h, endSlash_render_append]

theorem convert_relative (hd : p.head? ≠ some dot) (hs : p.head? ≠ some slash) :
    (addressConvertor (render xs) (some p)).text = render (xs ++ segments p) := by
  rw [addressConvertor_relative _ hd hs, endSlash_render_append]

theorem Plain.append {ys : List Text} (hx : Plain xs) (hy : Plain ys) : Plain (xs ++ ys) := by
  intro x h
  rcases List.mem_append.mp h with h | h
  · exact hx x h
  · exact hy x h

theorem Plain.dropLast (hx : Plain xs) : Plain xs.dropLast :=
  fun x h => hx x (List.dropLast_subset xs h)

def lastSlash (t : Text) : List Text := if t.getLast? = some slash then [[]] else []

theorem trail_eq_lastSlash (hp : p ≠ []) : trail p = lastSlash p := by
  rw [trail, lastSlash]
  simp only [hp, false_or]

theorem lastSlash_cons {b : UInt8} (hb : b ≠ slash) (t : Text) :
    lastSlash (b :: t) = lastSlash t := by
  cases t with
  | nil => simp [lastSlash, hb]
  | cons c t => rw [lastSlash, lastSlash, List.getLast?_cons_of_ne_nil (by simp)]

theorem segments_behindDots_append (rest q : Text) :
    segments (behindDots (rest ++ slash :: q)) =
      segments (behindDots rest) ++ lastSlash rest ++ segments q := by
  cases rest with
  | nil => rfl
  | cons b r =>
      by_cases hb : b = slash
      · subst hb
        have hlast : lastSlash (slash :: r) = trail r := by
          cases r with
          | nil => rfl
          | cons c r =>
              rw [trail_eq_lastSlash (by simp), lastSlash, lastSlash,
                List.getLast?_cons_of_ne_nil (by simp)]
        rw [hlast]
        exact segments_append_slash r q
      · have hr (u : Text) : behindDots (b :: u) = b :: u := if_neg (by simpa using hb)
        rw [List.cons_append, hr, hr, ← List.cons_append, segments_append_slash,
          trail_eq_lastSlash (by simp)]

/-- Converting two relative arguments with a slash between them appends the segments of
the second to what the first is converted to. -/
theorem convert_append (h : Plain xs) (hp : p ≠ []) (hs : p.head? ≠ some slash) :
    ∃ ys, Plain ys ∧ (addressConvertor (render xs) (some p)).text = render ys ∧
      ∀ q, (addressConvertor (render xs) (some (p ++ slash :: q))).text =
        render (ys ++ (lastSlash p ++ segments q)) := by
  rcases argument_cases p with ⟨rest, rfl⟩ | ⟨rest, rfl, hd⟩ | ⟨rest, rfl⟩ | ⟨hd, -⟩
  · refine ⟨_, h.dropLast.append (plain_segments _), convert_dotDot h rest, fun q => ?_⟩
    rw [List.cons_append, List.cons_append, convert_dotDot h, segments_behindDots_append,
      lastSlash_cons (by decide), lastSlash_cons (by decide)]
    simp only [List.append_assoc]
  · have hd' (q : Text) : (rest ++ slash :: q).head? ≠ some dot := by
      cases rest with
      | nil => exact fun h => absurd (Option.some.inj h) (by decide)
      | cons b r => exact hd
    refine ⟨_, h.append (plain_segments _), convert_dot hd, fun q => ?_⟩
    rw [List.cons_append, convert_dot (hd' q), segments_behindDots_append,
      lastSlash_cons (by decide)]
    simp only [List.append_assoc]
  · exact absurd rfl hs
  · have hhead (q : Text) : (p ++ slash :: q).head? = p.head? := by
      rw [List.head?_append, Option.or_of_isSome (by simpa [List.isSome_head?] using hp)]
    refine ⟨_, h.append (plain_segments _), convert_relative hd hs, fun q => ?_⟩
    rw [convert_relative (by rwa [hhead]) (by rwa [hhead]), segments_append_slash,
      trail_eq_lastSlash hp]
    simp only [List.append_assoc]

theorem segments_dot_cons {b : UInt8} (hb : b ≠ slash) (t : Text) :
    ∃ x xs, segments (dot :: b :: t) = (dot :: b :: x) :: xs := by
  obtain ⟨x, xs, hx⟩ : ∃ x xs, segments (b :: t) = (b :: x) :: xs := by
    cases ht : segments t with
    | nil => exact ⟨[], [], by rw [segments, if_neg hb, ht]⟩
    | cons x xs => exact ⟨x, xs, segments_cons hb ht⟩
  exact ⟨x, xs, segments_cons (by decide) hx⟩

theorem segments_dot_append (hb : rest = [] ∨ rest.head? = some slash) :
    segments (dot :: rest) = [dot] :: segments (behindDots rest) := by
  rcases hb with rfl | hb
  · rfl
  · obtain ⟨r, rfl⟩ := List.head?_eq_some_iff.mp hb
    exact segments_cons (by decide) (segments_slash r)

/-- An argument that starts with a dot starts with a segment that is no name, or it comes
to a shorter path than its segments say. -/
theorem convert_dots_cases (h : Plain xs) (hd : q.head? = some dot) :
    (∃ x ys, segments q = x :: ys ∧ x.head? = some dot ∧ x ≠ [dot] ∧ x ≠ [dot, dot]) ∨
      ∃ zs, Plain zs ∧ (addressConvertor (render xs) (some q)).text = render zs ∧
        zs.length < xs.length + (segments q).length := by
  obtain ⟨rest, rfl⟩ := List.head?_eq_some_iff.mp hd
  cases rest with
  | nil =>
      refine .inr ⟨xs, h, ?_, by simp [segments, show dot ≠ slash by decide]⟩
      rw [convert_dot (by simp)]
      simp [behindDots, segments]
  | cons b t =>
      by_cases hdot : b = dot
      · subst hdot
        cases t with
        | nil =>
            refine .inr ⟨xs.dropLast, h.dropLast, ?_, ?_⟩
            · rw [convert_dotDot h]
              simp [behindDots, segments]
            · rw [List.length_dropLast, show segments [dot, dot] = [[dot, dot]] by decide,
                List.length_singleton]
              omega
        | cons c t =>
            by_cases hc : c = slash
            · subst hc
              refine .inr ⟨_, h.dropLast.append (plain_segments _), convert_dotDot h _, ?_⟩
              rw [segments_cons (by decide) (segments_dot_append (.inr rfl))]
              simp only [List.length_append, List.length_dropLast, List.length_cons]
              omega
            · obtain ⟨x, ys, hx⟩ := segments_dot_cons hc t
              exact .inl ⟨_, ys, segments_cons (by decide) hx, rfl, by simp, by simp⟩
      · by_cases hb : b = slash
        · subst hb
          refine .inr ⟨_, h.append (plain_segments _), convert_dot (by simp [hdot]), ?_⟩
          rw [segments_dot_append (.inr rfl)]
          simp only [List.length_append, List.length_cons]
          omega
        · obtain ⟨x, ys, hx⟩ := segments_dot_cons hb t
          exact .inl ⟨_, ys, hx, rfl, by simp, by simp [hdot]⟩

end Converting

end TFAT.PathSegments
