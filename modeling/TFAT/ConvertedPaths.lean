import TFAT.CurrentNames
import TFAT.LastComponents
import TFAT.PathBuffers

/-!
# Where converted paths and their parents lead

A relative argument goes on from the current path, and a first component of one dot or of
two is no name. `address_convertor` tests characters, so it takes the dots away from a name
that starts with them as well, and then a name with one dot may not fit in the block. The
parent of a path loses no component where the path ends with two slashes, and it is not
recognised as the root directory where it has two slashes itself.
-/
namespace TFAT.ConvertedPaths
open ByteRegions LittleEndianWords DiskLayout ClusterTable FileDescriptor DirectoryIO PathText
open EntryNames PathResolution UserCommands DirectoryTree MarkedPlaces PathSegments BlockStrings
open DeleteSafety MarkedTree CurrentNames LastComponents PathBuffers

/-- The components that an argument stands for. -/
def destination (currentPath path : Text) : List Text :=
  if path.head? = some slash then components path
  else match components path with
    | [] => components currentPath
    | first :: rest =>
        if first = [dot] then components currentPath ++ rest
        else if first = [dot, dot] then (components currentPath).dropLast ++ rest
        else components currentPath ++ first :: rest

/-- The path does not end with two slashes, or it has no component. -/
def EndsWell (path : Text) : Prop := components path = [] ∨ ¬ [slash, slash] <:+ path

/-- An argument that starts with a dot starts with the component of one dot, or with that
of two where the current path ends well. -/
def DotsAlone (currentPath path : Text) : Prop :=
  path.head? = some dot → (components path).head? = some [dot] ∨
    (components path).head? = some [dot, dot] ∧ EndsWell currentPath

section Arguments
variable {t p x rest path : Text} {xs : List Text}

theorem components_eq_filter (t : Text) : components t = (segments t).filter (· ≠ []) := by
  rw [← components_render (plain_segments t)]
  cases t with
  | nil => rfl
  | cons b t =>
      rw [render, joined_segments (by simp), components, components]
      conv_rhs => rw [tokens, if_pos rfl, if_pos rfl]
      rw [endSlash]
      split_ifs
      · rfl
      · exact tokens_append_slash.symm

theorem components_render_append (h : Plain xs) (t : Text) :
    components (render (xs ++ segments t)) = components (render xs) ++ components t := by
  rw [components_render (h.append (plain_segments t)), components_render h, List.filter_append,
    components_eq_filter t]

theorem components_append_cases (hp : slash ∉ p) (hne : p ≠ []) (rest : Text) :
    ((rest = [] ∨ rest.head? = some slash) ∧
        components (p ++ rest) = p :: components (behindDots rest)) ∨
      ∃ x ys, x ≠ [] ∧ x.head? = rest.head? ∧ components (behindDots rest) = x :: ys ∧
        components (p ++ rest) = (p ++ x) :: ys := by
  cases rest with
  | nil =>
      refine .inl ⟨.inl rfl, ?_⟩
      rw [List.append_nil, components, tokens_of_ne_slash fun b hb he => hp (he ▸ hb),
        List.nil_append, if_neg hne]
      rfl
  | cons b r =>
      by_cases hb : b = slash
      · subst hb
        refine .inl ⟨.inr rfl, ?_⟩
        rw [components, tokens_append_of_ne_slash hp, List.nil_append, if_neg hne]
        rfl
      · have hbehind : behindDots (b :: r) = b :: r := if_neg (by simpa using hb)
        obtain ⟨x, ys, hx⟩ : ∃ x ys, segments (b :: r) = (b :: x) :: ys := by
          cases hr : segments r with
          | nil => exact ⟨[], [], by rw [segments, if_neg hb, hr]⟩
          | cons x ys => exact ⟨x, ys, segments_cons hb hr⟩
        have hlong (q : Text) (hq : slash ∉ q) :
            segments (q ++ b :: r) = (q ++ b :: x) :: ys := by
          induction q with
          | nil => exact hx
          | cons c q ih =>
              rw [List.mem_cons, not_or] at hq
              exact segments_cons (Ne.symm hq.1) (ih hq.2)
        refine .inr ⟨b :: x, ys.filter (· ≠ []), by simp, rfl, ?_, ?_⟩
        · rw [hbehind, components_eq_filter, hx]
          rfl
        · rw [components_eq_filter, hlong p hp]
          simp

theorem destination_of_head (h : path.head? ≠ some slash) {cur first : Text} {ys : List Text}
    (hc : components path = first :: ys) : destination cur path =
      if first = [dot] then components cur ++ ys
      else if first = [dot, dot] then (components cur).dropLast ++ ys
      else components cur ++ first :: ys := by
  rw [destination, if_neg h, hc]

theorem append_cons_ne {as bs ys : List Text} (hp : p ≠ []) :
    as ++ x :: ys ≠ bs ++ (p ++ x) :: ys := by
  intro h
  have htail := (List.append_inj' h (by simp)).2
  rw [List.cons.injEq] at htail
  have hlen := congrArg List.length htail.1
  have hpos := List.length_pos_iff.mpr hp
  rw [List.length_append] at hlen
  omega

end Arguments

section Conversion
variable {fill : ℕ → UInt8} {cur path rest : Text} {xs : List Text}

theorem endsWell_iff (h : Plain xs) : EndsWell (render xs) ↔
    components (getParentPath (render xs)) = (components (render xs)).dropLast :=
  (components_parent_iff h).symm

theorem not_dotsAlone {first : Text} {ys : List Text} (hd : path.head? = some dot)
    (hc : components path = first :: ys) (h₁ : ¬ first = [dot]) (h₂ : ¬ first = [dot, dot]) :
    ¬ DotsAlone cur path := by
  intro h
  have hd' := h hd
  rw [hc, List.head?_cons, Option.some.injEq, Option.some.injEq] at hd'
  exact hd'.elim h₁ fun htwo => h₂ htwo.1

theorem converted_dot (h : Plain xs) (hd : rest.head? ≠ some dot) :
    components (addressConvertor (render xs) (some (dot :: rest))).text =
        destination (render xs) (dot :: rest) ↔ DotsAlone (render xs) (dot :: rest) := by
  have htext : components (addressConvertor (render xs) (some (dot :: rest))).text =
      components (render xs) ++ components (behindDots rest) := by
    rw [convert_dot hd, components_render_append h]
  have hhead : (dot :: rest).head? ≠ some slash := by simp [dot, slash]
  rw [htext]
  rcases components_append_cases (p := [dot]) (by decide) (by simp) rest with
    ⟨-, hc⟩ | ⟨x, ys, hx, hxh, hb, hc⟩
  · rw [List.singleton_append] at hc
    rw [destination_of_head hhead hc, if_pos rfl]
    exact iff_of_true rfl fun _ => .inl (by rw [hc]; rfl)
  · rw [List.singleton_append] at hc
    have h₁ : ¬ [dot] ++ x = [dot] := by simp [hx]
    have h₂ : ¬ [dot] ++ x = [dot, dot] := by
      rw [List.singleton_append, List.cons.injEq]
      rintro ⟨-, rfl⟩
      exact hd hxh.symm
    rw [destination_of_head hhead hc, if_neg h₁, if_neg h₂, hb]
    exact iff_of_false (append_cons_ne (by simp)) (not_dotsAlone rfl hc h₁ h₂)

/-- Behind two dots. -/
theorem converted_dotDot (h : Plain xs) (rest : Text) :
    components (addressConvertor (render xs) (some (dot :: dot :: rest))).text =
        destination (render xs) (dot :: dot :: rest) ↔
      DotsAlone (render xs) (dot :: dot :: rest) := by
  have htext : components (addressConvertor (render xs) (some (dot :: dot :: rest))).text =
      components (getParentPath (render xs)) ++ components (behindDots rest) := by
    rw [convert_dotDot h, components_render_append h.dropLast, getParentPath_render h]
  have hhead : (dot :: dot :: rest).head? ≠ some slash := by simp [dot, slash]
  rw [htext]
  rcases components_append_cases (p := [dot, dot]) (by decide) (by simp) rest with
    ⟨-, hc⟩ | ⟨x, ys, hx, -, hb, hc⟩
  · have hc' : components (dot :: dot :: rest) = [dot, dot] :: components (behindDots rest) := hc
    rw [destination_of_head hhead hc', if_neg (by decide), if_pos rfl, List.append_left_inj,
      ← endsWell_iff h]
    constructor
    · exact fun hw _ => .inr ⟨by rw [hc']; rfl, hw⟩
    · intro hdots
      rcases hdots rfl with hone | ⟨-, hw⟩
      · rw [hc', List.head?_cons, Option.some.injEq] at hone
        exact absurd hone (by decide)
      · exact hw
  · have hc' : components (dot :: dot :: rest) = ([dot, dot] ++ x) :: ys := hc
    have h₁ : ¬ [dot, dot] ++ x = [dot] := by simp
    have h₂ : ¬ [dot, dot] ++ x = [dot, dot] := by simp [hx]
    rw [destination_of_head hhead hc', if_neg h₁, if_neg h₂, hb]
    exact iff_of_false (append_cons_ne (by simp)) (not_dotsAlone rfl hc' h₁ h₂)

/-- The components of the result are the right ones exactly where dots stand alone. -/
theorem converted_iff (h : Plain xs) (hne : path ≠ []) :
    components (addressConvertor (render xs) (some path)).text = destination (render xs) path ↔
      DotsAlone (render xs) path := by
  rcases argument_cases path with ⟨rest, rfl⟩ | ⟨rest, rfl, hd⟩ | ⟨rest, rfl⟩ | ⟨hd, hs⟩
  · exact converted_dotDot h rest
  · exact converted_dot h hd
  · rw [addressConvertor_absolute, destination, if_pos List.head?_cons]
    refine iff_of_true ?_ fun hdot => absurd hdot (by simp [dot, slash])
    rw [endSlash]
    split_ifs
    · rfl
    · exact tokens_append_slash
  · refine iff_of_true ?_ fun hdot => absurd hdot hd
    obtain ⟨b, r, rfl⟩ := List.exists_cons_of_ne_nil hne
    have hb : slash ∉ [b] := by simpa [eq_comm] using hs
    have hbd : b ≠ dot := by simpa using hd
    obtain ⟨first, ys, hc, hf⟩ : ∃ first ys, components (b :: r) = first :: ys ∧
        first.head? = some b := by
      rcases components_append_cases hb (by simp) r with ⟨-, hc⟩ | ⟨x, ys, -, -, -, hc⟩
      · exact ⟨[b], _, hc, rfl⟩
      · exact ⟨[b] ++ x, ys, hc, rfl⟩
    have hnot (u : Text) : ¬ first = dot :: u := by
      rintro rfl
      exact hbd (Option.some.inj hf).symm
    rw [convert_relative hd hs, components_render_append h, destination_of_head hs hc,
      if_neg (hnot []), if_neg (hnot [dot]), hc]

end Conversion

section Results
variable {fill : ℕ → UInt8} {cur path : Text} {xs : List Text}

/-- The string starts and ends with a slash and has the components of the argument. -/
structure Converts (currentPath path ret : Text) : Prop where
  starts : ret.head? = some slash
  ends : ret.getLast? = some slash
  components : components ret = destination currentPath path

theorem getLast?_endSlash (t : Text) : (endSlash t).getLast? = some slash := by
  unfold endSlash
  split_ifs with h
  · exact h
  · exact List.getLast?_concat

theorem length_endSlash_le (t : Text) : (endSlash t).length ≤ t.length + 1 := by
  unfold endSlash
  split_ifs
  · omega
  · rw [List.length_append, List.length_singleton]

theorem length_behindDots_le (t : Text) : (behindDots t).length ≤ t.length := by
  unfold behindDots
  split_ifs
  · rw [List.length_tail]
    omega
  · exact le_rfl

/-- A converted path starts and ends with a slash, whatever the argument is. -/
theorem converted_ends (h : Plain xs) (path : Text) :
    (addressConvertor (render xs) (some path)).text.head? = some slash ∧
      (addressConvertor (render xs) (some path)).text.getLast? = some slash := by
  rcases argument_cases path with ⟨rest, rfl⟩ | ⟨rest, rfl, hd⟩ | ⟨rest, rfl⟩ | ⟨hd, hs⟩
  · rw [convert_dotDot h]
    exact ⟨rfl, getLast?_render _⟩
  · rw [convert_dot hd]
    exact ⟨rfl, getLast?_render _⟩
  · rw [addressConvertor_absolute]
    refine ⟨?_, getLast?_endSlash _⟩
    rw [endSlash]
    split_ifs <;> rfl
  · rw [convert_relative hd hs]
    exact ⟨rfl, getLast?_render _⟩

/-- Only a name behind a dot that is taken away can be too long for the block. -/
theorem length_lt_room (hl : cur.getLast? = some slash) (hdots : DotsAlone cur path) :
    (addressConvertor cur (some path)).text.length <
      (addressConvertor cur (some path)).room := by
  rcases argument_cases path with ⟨rest, rfl⟩ | ⟨rest, rfl, hd⟩ | ⟨rest, rfl⟩ | ⟨hd, hs⟩
  · have hroom : (addressConvertor cur (some (dot :: dot :: rest))).room =
        (getParentPath cur).length + (rest.length + 2) := by simp [addressConvertor]
    have hle := length_endSlash_le (getParentPath cur ++ behindDots rest)
    have hb := length_behindDots_le rest
    rw [List.length_append] at hle
    rw [hroom, addressConvertor_dotDot]
    omega
  · have hroom : (addressConvertor cur (some (dot :: rest))).room =
        cur.length + (rest.length + 1) := by
      rw [List.head?_eq_getElem?] at hd
      simp [addressConvertor, hd]
    rw [hroom, addressConvertor_dot _ hd]
    have hle := length_endSlash_le (cur ++ behindDots rest)
    rw [List.length_append] at hle
    rcases components_append_cases (p := [dot]) (by decide) (by simp) rest with
      ⟨rfl | hs, -⟩ | ⟨x, ys, hx, hxh, -, hc⟩
    · rw [show behindDots [] = [] from rfl, List.append_nil, endSlash, if_pos hl]
      exact Nat.lt_add_of_pos_right (by simp)
    · obtain ⟨r, rfl⟩ := List.head?_eq_some_iff.mp hs
      rw [show behindDots (slash :: r) = r from rfl] at hle ⊢
      rw [List.length_cons]
      omega
    · refine absurd hdots (not_dotsAlone rfl hc (by simp [hx]) ?_)
      rw [List.singleton_append, List.cons.injEq]
      rintro ⟨-, rfl⟩
      exact hd hxh.symm
  · have hle := length_endSlash_le (slash :: rest)
    have hroom : (addressConvertor cur (some (slash :: rest))).room = rest.length + 1 + 2 := rfl
    rw [List.length_cons] at hle
    rw [hroom, addressConvertor_absolute]
    omega
  · have hle := length_endSlash_le (cur ++ path)
    have hroom : (addressConvertor cur (some path)).room = cur.length + path.length + 2 := by
      rw [List.head?_eq_getElem?] at hd hs
      simp [addressConvertor, hd, hs]
    rw [List.length_append] at hle
    rw [hroom, addressConvertor_relative _ hd hs]
    omega

/-- `address_convertor` stays in its block and converts the argument exactly where dots in
front of it stand alone and the lengths fit in their `int`s. -/
theorem addressConvertor_converts_iff (hh : cur.head? = some slash)
    (hl : cur.getLast? = some slash) (hc₀ : 0 ∉ cur) (hne : path ≠ []) (h₀ : 0 ∉ path) :
    (∃ block, addressConvertorIn fill cur (some path) = .ok block ∧
        Converts cur path (cString block)) ↔
      LengthsFit cur path ∧ DotsAlone cur path := by
  obtain ⟨xs, rfl, hxs⟩ := exists_render hh hl
  rw [addressConvertorIn_eq_ok_iff hc₀ h₀ (by simp [render]) hne (Converts (render xs) path)]
  refine and_congr_right fun _ => ?_
  constructor
  · rintro ⟨-, hconv⟩
    exact (converted_iff hxs hne).mp hconv.components
  · intro hdots
    obtain ⟨hstart, hend⟩ := converted_ends hxs path
    exact ⟨length_lt_room hl hdots, hstart, hend, (converted_iff hxs hne).mpr hdots⟩

/-- The argument `../B` in `/A/`. -/
theorem addressConvertor_converts_sibling :
    ∃ block, addressConvertorIn (fun _ => 0) [slash, 65, slash]
        (some [dot, dot, slash, 66]) = .ok block ∧
      Converts [slash, 65, slash] [dot, dot, slash, 66] (cString block) :=
  (addressConvertor_converts_iff (by decide) (by decide) (by decide) (by decide)
    (by decide)).mpr ⟨by rw [LengthsFit, if_pos (by decide)]; decide,
      fun _ => .inr ⟨by decide, .inr (by decide)⟩⟩

/-- In the root directory `.A` leaves the block. -/
theorem addressConvertor_dot_spills :
    ¬ ∃ block, addressConvertorIn (fun _ => 0) [slash] (some [dot, 65]) = .ok block ∧
      Converts [slash] [dot, 65] (cString block) := by
  rintro ⟨block, hb, -⟩
  rw [show addressConvertorIn (fun _ => 0) [slash] (some [dot, 65]) = .error .wild by decide] at hb
  cases hb

end Results

section Above
variable {fill : ℕ → UInt8} {s : Session} {freshParent : FatDirLayout} {path : Text}
variable {xs : List Text}

/-- The string starts and ends with a slash, has the components of the path but the last one,
and the commands open the directory for it that holds the last one. -/
structure IsParent (fill : ℕ → UInt8) (s : Session) (freshParent : FatDirLayout)
    (path ret : Text) : Prop where
  starts : ret.head? = some slash
  ends : ret.getLast? = some slash
  above : components ret = (components path).dropLast
  opens : components path ≠ [] → ∀ (parent : Option FatDirLayout) (block : Bytes) (n : ℕ),
    LeadsUp fill s.volume s.image (components path).dropLast parent →
      Opens fill s.volume s.image block n parent →
        openParent fill s freshParent ret = .ok (parent, block, n)

/-- No component is lost and none is kept, and the root directory is recognised. -/
def Parted (path : Text) : Prop :=
  components path = [] ∨ ¬ [slash, slash] <:+ path ∧
    ((components path).length = 1 → ¬ [slash, slash] <+: path)

theorem isParent_iff (h : Plain xs) :
    IsParent fill s freshParent (render xs) (getParentPath (render xs)) ↔
      Parted (render xs) := by
  by_cases hnil : components (render xs) = []
  · refine iff_of_true ⟨?_, ?_, (components_parent_iff h).mpr (.inl hnil), absurd hnil⟩
      (.inl hnil)
    · rw [getParentPath_render h]
      rfl
    · rw [getParentPath_render h]
      exact getLast?_render _
  · simp only [Parted, hnil, false_or]
    constructor
    · intro hp
      have hsuf := ((components_parent_iff h).mp hp.above).resolve_left hnil
      refine ⟨hsuf, (parent_root_iff h hnil hsuf).mp ⟨fun hroot => ?_, fun hnames => ?_⟩⟩
      · rw [← hp.above, hroot]
        rfl
      · rcases of_openParent (hp.opens hnil none _ _ hnames ⟨rfl, rfl⟩) with h | ⟨-, d, -, h, -⟩
        · exact h.1
        · cases h
    · rintro ⟨hsuf, hpre⟩
      have habove := (components_parent_iff h).mpr (.inr hsuf)
      refine ⟨?_, ?_, habove, fun _ parent block n hu ho => ?_⟩
      · rw [getParentPath_render h]
        rfl
      · rw [getParentPath_render h]
        exact getLast?_render _
      · cases parent with
        | none =>
            obtain ⟨rfl, rfl⟩ := ho
            rw [openParent, if_pos (((parent_root_iff h hnil hsuf).mpr hpre).mpr hu)]
        | some d => exact openParent_of_leadsTo (habove ▸ hu) ho

/-- `get_parent_path` stays in its block. It gives the parent exactly where the path has no
component, or ends with one slash and has no two slashes in front of its only component. -/
theorem getParentPath_isParent_iff (hh : path.head? = some slash)
    (hl : path.getLast? = some slash) (h₀ : 0 ∉ path) :
    (∃ block, getParentPathIn fill path = .ok block ∧
        IsParent fill s freshParent path (cString block)) ↔
      path.length ≤ 2 ^ 31 ∧ Parted path := by
  have hne : path ≠ [] := by
    rintro rfl
    cases hh
  have hlen : (stripSlash path).length < 2 ^ 31 ↔ path.length ≤ 2 ^ 31 := by
    have hpos := List.length_pos_iff.mpr hne
    rw [stripSlash, if_pos hl, List.length_dropLast]
    omega
  obtain ⟨xs, rfl, hxs⟩ := exists_render hh hl
  rw [← isParent_iff hxs, ← hlen]
  by_cases hint : (stripSlash (render xs)).length < 2 ^ 31
  · obtain ⟨b, hb, -, hheld⟩ := getParentPathIn_of_lt fill h₀ hne hint
    rw [hb, ← hheld.cString_eq]
    constructor
    · rintro ⟨block, hok, hp⟩
      rw [Except.ok.injEq] at hok
      exact ⟨hint, hok ▸ hp⟩
    · rintro ⟨-, hp⟩
      exact ⟨b, rfl, hp⟩
  · refine iff_of_false ?_ fun hp => hint hp.1
    rintro ⟨block, hok, -⟩
    rw [getParentPathIn_of_not_lt fill h₀ hne hint] at hok
    cases hok

/-- The path `/A/B/`. -/
theorem getParentPath_isParent_inner : ∃ block,
    getParentPathIn (fun _ => 0) [slash, 65, slash, 66, slash] = .ok block ∧
      IsParent (fun _ => 0) dotSession dirA [slash, 65, slash, 66, slash] (cString block) :=
  (getParentPath_isParent_iff (by decide) (by decide) (by decide)).mpr
    ⟨by decide, .inr ⟨by decide, by decide⟩⟩

/-- The parent of `/A//` is `/A/`. -/
theorem getParentPath_doubled : ¬ ∃ block,
    getParentPathIn (fun _ => 0) [slash, 65, slash, slash] = .ok block ∧
      IsParent (fun _ => 0) dotSession dirA [slash, 65, slash, slash] (cString block) := by
  rintro ⟨block, hb, hp⟩
  rw [show getParentPathIn (fun _ => 0) [slash, 65, slash, slash] =
    .ok [slash, 65, slash, 0, 0] by decide, Except.ok.injEq] at hb
  have habove := hp.above
  rw [← hb] at habove
  exact absurd habove (by decide)

end Above

end TFAT.ConvertedPaths
