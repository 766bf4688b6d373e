import TFAT.LittleEndianWords

/-!
# Path strings

The functions that take path strings apart and put them together, from fs.c and
user.c. A string is the list of its bytes in front of the terminating zero, so
no byte of a string is zero, and reading at its length reads that zero.
`address_convertor` also says how large a block it builds its string in.
-/
namespace TFAT.PathText
open LittleEndianWords

abbrev Text := Bytes

def slash : UInt8 := 0x2F

def dot : UInt8 := 0x2E

def question : UInt8 := 0x3F

def tokens : Text → Text → List Text
  | acc, [] => if acc = [] then [] else [acc]
  | acc, b :: t =>
      if b = slash then if acc = [] then tokens [] t else acc :: tokens [] t
      else tokens (acc ++ [b]) t

def components (path : Text) : List Text := tokens [] path

/-- `if (ret[strlen(ret) - 1] == '/') ret[strlen(ret) - 1] = 0;` -/
def stripSlash (t : Text) : Text := if t.getLast? = some slash then t.dropLast else t

/-- `while (ret[len] != '/' && len) len--;` -/
def scanBack (t : Text) : ℕ → ℕ
  | 0 => 0
  | len + 1 => if t[len + 1]? = some slash then len + 1 else scanBack t len

def getParentPath (path : Text) : Text :=
  let ret := stripSlash path
  ret.take (scanBack ret ret.length) ++ [slash]

/-- `fix_deleted_char`, with the character it stores in `*c`. -/
def fixDeletedChar (path : Text) : Text × UInt8 :=
  let ret := stripSlash path
  let len := scanBack ret ret.length
  let i := if len = 0 then len else len + 1
  (ret.take i ++ [question] ++ ret.drop (i + 1), ret.getD i 0)

/-- `if (ret[strlen(ret) - 1] != '/')`, append one. -/
def endSlash (t : Text) : Text := if t.getLast? = some slash then t else t ++ [slash]

/-- A string and the size of the block it is built in. -/
structure Built where
  text : Text
  room : ℕ
  deriving DecidableEq

/-- `address_convertor`; a null path is `none`. -/
def addressConvertor (currentPath : Text) : Option Text → Built
  | none => ⟨currentPath, currentPath.length + 1⟩
  | some path =>
      if path[0]? = some dot ∧ path[1]? = some dot then
        let seek := if path[2]? = some slash then 3 else 2
        let parent := getParentPath currentPath
        ⟨endSlash (parent ++ path.drop seek), parent.length + path.length⟩
      else if path[0]? = some dot then
        let seek := if path[1]? = some slash then 2 else 1
        ⟨endSlash (currentPath ++ path.drop seek), currentPath.length + path.length⟩
      else if path[0]? = some slash then ⟨endSlash path, path.length + 2⟩
      else ⟨endSlash (currentPath ++ path), currentPath.length + path.length + 2⟩

theorem tokens_eq_nil_iff {acc t : Text} : tokens acc t = [] ↔ acc = [] ∧ ∀ b ∈ t, b = slash := by
  induction t generalizing acc with
  | nil =>
      rw [tokens]
      split_ifs with h <;> simp [h]
  | cons b t ih =>
      rw [tokens]
      split_ifs with hb ha
      · rw [ih]
        simp [hb, ha]
      · simp [ha]
      · rw [ih]
        simp [hb]

theorem components_eq_nil_iff {path : Text} : components path = [] ↔ ∀ b ∈ path, b = slash := by
  rw [components, tokens_eq_nil_iff]
  simp

theorem scanBack_le (t : Text) (n : ℕ) : scanBack t n ≤ n := by
  induction n with
  | zero => exact le_rfl
  | succ n ih =>
      rw [scanBack]
      split_ifs
      · exact le_rfl
      · omega

theorem ne_slash_of_scanBack_lt {t : Text} {n j : ℕ} (hj : scanBack t n < j) (hn : j ≤ n) :
    t[j]? ≠ some slash := by
  induction n with
  | zero => exact absurd hj (by omega)
  | succ n ih =>
      rw [scanBack] at hj
      split_ifs at hj with h
      · exact absurd hj (by omega)
      · rcases Nat.lt_or_ge n j with hlt | hge
        · rwa [show j = n + 1 by omega]
        · exact ih hj hge

theorem getElem?_scanBack {t : Text} {n : ℕ} (h : scanBack t n ≠ 0) :
    t[scanBack t n]? = some slash := by
  induction n with
  | zero => exact absurd rfl h
  | succ n ih =>
      rw [scanBack] at h ⊢
      split_ifs at h ⊢ with hs
      · exact hs
      · exact ih h

theorem scanBack_of_notMem {t : Text} {n : ℕ} (h : slash ∉ t) : scanBack t n = 0 := by
  induction n with
  | zero => rfl
  | succ n ih =>
      rw [scanBack, if_neg (fun hs => h (List.mem_of_getElem? hs))]
      exact ih

/-- A path of one name without a slash in front of it is marked at its first character. -/
theorem fixDeletedChar_of_notMem {path name : Text} {b : UInt8} (hp : stripSlash path = b :: name)
    (h : slash ∉ b :: name) : fixDeletedChar path = (question :: name, b) := by
  rw [fixDeletedChar, hp]
  simp only [scanBack_of_notMem h, if_true]
  rfl

theorem length_getParentPath_le {path : Text} (h : path ≠ []) :
    (getParentPath path).length ≤ path.length := by
  have hpos := List.length_pos_iff.mpr h
  rw [getParentPath, List.length_append, List.length_singleton, List.length_take]
  have hret : (stripSlash path).length ≤ path.length := by
    unfold stripSlash
    split_ifs
    · exact path.length_dropLast ▸ Nat.sub_le _ _
    · exact le_rfl
  rcases Nat.eq_zero_or_pos (scanBack (stripSlash path) (stripSlash path).length) with h₀ | h₀
  · rw [h₀]
    omega
  · have hslash := getElem?_scanBack h₀.ne'
    have hlt := (List.getElem?_eq_some_iff.mp hslash).choose
    omega

/-- The question mark replaces a character, or the slash that is stripped. -/
theorem length_fixDeletedChar_le {path : Text} (h : path ≠ []) :
    (fixDeletedChar path).1.length ≤ path.length := by
  have hpos := List.length_pos_iff.mpr h
  obtain ⟨ret, hret⟩ : ∃ ret, stripSlash path = ret := ⟨_, rfl⟩
  have hscan : scanBack ret ret.length ≠ 0 → scanBack ret ret.length < ret.length := fun h₀ =>
    (List.getElem?_eq_some_iff.mp (getElem?_scanBack h₀)).choose
  have hlen : ret.length + 1 = path.length ∨
      ret.length = path.length ∧ ret.getLast? ≠ some slash := by
    rw [← hret, stripSlash]
    split_ifs with hlast
    · rw [List.length_dropLast]
      exact .inl (by omega)
    · exact .inr ⟨rfl, hlast⟩
  rw [fixDeletedChar, hret]
  simp only [List.length_append, List.length_take, List.length_drop, List.length_singleton]
  rcases hlen with hlen | ⟨hlen, hlast⟩
  · split_ifs with h₀
    · omega
    · have := hscan h₀
      omega
  · split_ifs with h₀
    · omega
    · have hlt := hscan h₀
      have hne : scanBack ret ret.length ≠ ret.length - 1 := fun he => by
        have hs := getElem?_scanBack h₀
        rw [he, ← List.getLast?_eq_getElem?] at hs
        exact hlast hs
      omega

theorem endSlash_ne_nil (t : Text) : endSlash t ≠ [] := by
  unfold endSlash
  split_ifs with h
  · rintro rfl
    cases h
  · simp

theorem addressConvertor_ne_nil (cur path : Text) :
    (addressConvertor cur (some path)).text ≠ [] := by
  rw [addressConvertor]
  split_ifs <;> exact endSlash_ne_nil _

section Tokens
variable {acc p t : Text}

theorem tokens_slashes_append (h : ∀ b ∈ p, b = slash) : tokens [] (p ++ t) = tokens [] t := by
  induction p with
  | nil => rfl
  | cons b p ih =>
      rw [List.cons_append, tokens, if_pos (h b (by simp)), if_pos rfl]
      exact ih fun c hc => h c (by simp [hc])

theorem tokens_of_ne_slash (h : ∀ b ∈ t, b ≠ slash) :
    tokens acc t = if acc ++ t = [] then [] else [acc ++ t] := by
  induction t generalizing acc with
  | nil => rw [tokens, List.append_nil]
  | cons b t ih =>
      rw [tokens, if_neg (h b (by simp)), ih fun c hc => h c (by simp [hc]), List.append_assoc,
        List.singleton_append]

theorem tokens_append_slash_append :
    tokens acc (p ++ slash :: t) = tokens acc p ++ tokens [] t := by
  induction p generalizing acc with
  | nil =>
      rw [List.nil_append, tokens, tokens, if_pos rfl]
      split_ifs <;> rfl
  | cons b p ih =>
      rw [List.cons_append, tokens, tokens]
      split_ifs
      · exact ih
      · rw [ih, List.cons_append]
      · exact ih

theorem tokens_append_slash : tokens acc (t ++ [slash]) = tokens acc t := by
  rw [tokens_append_slash_append, tokens, if_pos rfl, List.append_nil]

theorem stripSlash_prefix : stripSlash t <+: t := by
  unfold stripSlash
  split_ifs
  · exact List.dropLast_prefix t
  · exact List.prefix_refl t

theorem components_stripSlash : components (stripSlash t) = components t := by
  unfold stripSlash
  split_ifs with h
  · conv_rhs => rw [← List.dropLast_append_getLast? slash h]
    exact tokens_append_slash.symm
  · rfl

end Tokens

theorem exists_components_eq_singleton {path : Text} (hp : components (getParentPath path) = [])
    (hn : components path ≠ []) : ∃ name, components path = [name] := by
  rw [← components_stripSlash] at hn ⊢
  rw [components_eq_nil_iff] at hp
  simp only [getParentPath] at hp
  generalize stripSlash path = ret at *
  have hpos := scanBack_le ret ret.length
  have hne (b : UInt8) (hb : b ∈ ret.drop (scanBack ret ret.length + 1)) : b ≠ slash := by
    obtain ⟨j, hj⟩ := List.mem_iff_getElem?.mp hb
    rw [List.getElem?_drop] at hj
    have hlt := (List.getElem?_eq_some_iff.mp hj).1
    intro hs
    exact ne_slash_of_scanBack_lt (t := ret) (n := ret.length) (by omega) (by omega) (hs ▸ hj)
  generalize scanBack ret ret.length = k at *
  have hcomp : components ret = tokens [] (ret.drop k) := by
    conv_lhs => rw [← List.take_append_drop k ret]
    exact tokens_slashes_append fun b hb => hp b (by simp [hb])
  have hk : k < ret.length := by
    by_contra hcon
    rw [hcomp, List.drop_of_length_le (by omega)] at hn
    exact hn rfl
  rw [List.drop_eq_getElem_cons hk, tokens, if_pos rfl, tokens_of_ne_slash hne,
    tokens_of_ne_slash hne] at hcomp
  rw [hcomp] at hn ⊢
  split_ifs at hn ⊢ <;> first | exact absurd rfl hn | exact ⟨_, rfl⟩

theorem exists_last_slash {path : Text} (h : getParentPath path ≠ [slash]) :
    ∃ p t, stripSlash path = p ++ slash :: t ∧ getParentPath path = p ++ [slash] ∧
      ∀ b ∈ t, b ≠ slash := by
  rw [getParentPath] at h
  rw [getParentPath]
  generalize stripSlash path = ret at *
  have hpos : scanBack ret ret.length ≠ 0 := fun h₀ => h (by rw [h₀]; rfl)
  have hget := getElem?_scanBack hpos
  have hlt := (List.getElem?_eq_some_iff.mp hget).1
  refine ⟨ret.take (scanBack ret ret.length), ret.drop (scanBack ret ret.length + 1), ?_, rfl, ?_⟩
  · conv_lhs => rw [← List.take_append_drop (scanBack ret ret.length) ret]
    rw [List.drop_eq_getElem_cons hlt, (List.getElem?_eq_some_iff.mp hget).2]
  · intro b hb hs
    obtain ⟨j, hj⟩ := List.mem_iff_getElem?.mp hb
    rw [List.getElem?_drop] at hj
    have hjlt := (List.getElem?_eq_some_iff.mp hj).1
    exact ne_slash_of_scanBack_lt (t := ret) (n := ret.length) (by omega) (by omega) (hs ▸ hj)

/-- A path has the components of the path above and one more at most. -/
theorem components_above {path : Text} (h : getParentPath path ≠ [slash]) :
    components path = components (getParentPath path) ∨
      ∃ name, components path = components (getParentPath path) ++ [name] := by
  obtain ⟨p, t, hstrip, hparent, ht⟩ := exists_last_slash h
  have hp : components (getParentPath path) = components p := by
    rw [hparent]
    exact tokens_append_slash
  rw [← components_stripSlash, hstrip, hp, components, components, tokens_append_slash_append,
    tokens_of_ne_slash ht]
  split_ifs
  · exact .inl (List.append_nil _)
  · exact .inr ⟨_, rfl⟩

/-- A path without repeated slashes does not end with a slash once the last one is gone. -/
theorem stripSlash_append_slash {path p : Text} (h : ¬ [slash, slash] <:+: path) :
    stripSlash path ≠ p ++ [slash] := by
  intro hp
  unfold stripSlash at hp
  split_ifs at hp with hlast
  · apply h
    refine ⟨p, [], ?_⟩
    rw [← List.dropLast_append_getLast? slash hlast, hp]
    simp
  · rw [hp] at hlast
    exact hlast List.getLast?_concat

/-- In a path without repeated slashes the path above has all components but the last one,
and it is `/` exactly when there is no other. -/
theorem components_getParentPath {path : Text} {names : List Text} {name : Text}
    (h : ¬ [slash, slash] <:+: path) (hc : components path = names ++ [name]) :
    components (getParentPath path) = names ∧ (getParentPath path = [slash] ↔ names = []) := by
  by_cases hroot : getParentPath path = [slash]
  · have hnil : components (getParentPath path) = [] := by
      rw [hroot]
      rfl
    obtain ⟨x, hx⟩ := exists_components_eq_singleton hnil (by rw [hc]; simp)
    rw [hx] at hc
    have hnames : names = [] := List.eq_nil_of_length_eq_zero (by
      have hlen := congrArg List.length hc
      rw [List.length_append, List.length_singleton, List.length_singleton] at hlen
      omega)
    exact ⟨hnil.trans hnames.symm, iff_of_true hroot hnames⟩
  · obtain ⟨p, t, hstrip, hparent, ht⟩ := exists_last_slash hroot
    have htne : t ≠ [] := by
      rintro rfl
      exact stripSlash_append_slash h hstrip
    have hp : components (getParentPath path) = components p := by
      rw [hparent]
      exact tokens_append_slash
    have hall : names ++ [name] = components p ++ [t] := by
      rw [← hc, ← components_stripSlash, hstrip, components, tokens_append_slash_append,
        tokens_of_ne_slash ht, List.nil_append, if_neg htne, components]
    have hnames : names = components p := (List.append_inj' hall rfl).1
    refine ⟨hp.trans hnames.symm, iff_of_false hroot fun hnil => h ?_⟩
    rw [hnames, components_eq_nil_iff] at hnil
    obtain ⟨q, b, rfl⟩ : ∃ q b, p = q ++ [b] := by
      rcases List.eq_nil_or_concat' p with rfl | hq
      · exact absurd hparent hroot
      · exact hq
    have hinfix : [slash, slash] <:+: stripSlash path := by
      rw [hstrip, hnil b (by simp)]
      exact ⟨q, t, by simp⟩
    exact hinfix.trans stripSlash_prefix.isInfix

section Converted
variable (cur : Text) {path rest : Text}

/-- The rest of an argument without the slash that may follow its dots. -/
def behindDots (rest : Text) : Text := if rest.head? = some slash then rest.tail else rest

theorem addressConvertor_dotDot : (addressConvertor cur (some (dot :: dot :: rest))).text =
    endSlash (getParentPath cur ++ behindDots rest) := by
  cases rest with
  | nil => rfl
  | cons b rest => by_cases hb : b = slash <;> simp [addressConvertor, behindDots, hb]

theorem addressConvertor_dot (h : rest.head? ≠ some dot) :
    (addressConvertor cur (some (dot :: rest))).text = endSlash (cur ++ behindDots rest) := by
  cases rest with
  | nil => rfl
  | cons b rest =>
      have hd : ¬ b = dot := by simpa using h
      by_cases hb : b = slash
      · simp [addressConvertor, behindDots, hb, show ¬ slash = dot by decide]
      · simp [addressConvertor, behindDots, hb, hd]

theorem addressConvertor_absolute :
    (addressConvertor cur (some (slash :: rest))).text = endSlash (slash :: rest) := rfl

theorem addressConvertor_relative (hd : path.head? ≠ some dot) (hs : path.head? ≠ some slash) :
    (addressConvertor cur (some path)).text = endSlash (cur ++ path) := by
  rw [List.head?_eq_getElem?] at hd hs
  simp only [addressConvertor, hd, hs, false_and, if_false]

theorem components_relative {p name : Text} (hd : name.head? ≠ some dot) (hn : name ≠ [])
    (hs : ∀ b ∈ name, b ≠ slash) :
    components (addressConvertor (p ++ [slash]) (some name)).text =
      components (p ++ [slash]) ++ [name] := by
  have hhead : name.head? ≠ some slash := fun h => hs slash (List.mem_of_mem_head? h) rfl
  have hlast : (p ++ [slash] ++ name).getLast? ≠ some slash := by
    rw [List.getLast?_append_of_ne_nil _ hn]
    exact fun h => hs slash (List.mem_of_mem_getLast? h) rfl
  rw [addressConvertor_relative _ hd hhead, endSlash, if_neg hlast, components, components,
    tokens_append_slash, tokens_append_slash, List.append_assoc, List.singleton_append,
    tokens_append_slash_append, tokens_of_ne_slash hs, List.nil_append, if_neg hn]

/-- An argument starts with two dots, with one, with a slash or with none of these. -/
theorem argument_cases (path : Text) : (∃ rest, path = dot :: dot :: rest) ∨
    (∃ rest, path = dot :: rest ∧ rest.head? ≠ some dot) ∨ (∃ rest, path = slash :: rest) ∨
    path.head? ≠ some dot ∧ path.head? ≠ some slash := by
  cases path with
  | nil => exact .inr (.inr (.inr ⟨by simp, by simp⟩))
  | cons b rest =>
      by_cases hd : b = dot
      · by_cases hr : rest.head? = some dot
        · obtain ⟨u, rfl⟩ : ∃ u, rest = dot :: u := List.head?_eq_some_iff.mp hr
          exact .inl ⟨u, by rw [hd]⟩
        · exact .inr (.inl ⟨rest, by rw [hd], hr⟩)
      · by_cases hs : b = slash
        · exact .inr (.inr (.inl ⟨rest, by rw [hs]⟩))
        · exact .inr (.inr (.inr ⟨by simpa using hd, by simpa using hs⟩))

end Converted

example : components [slash, 65, slash, slash, 66, slash] = [[65], [66]] := by decide

example : getParentPath [slash, 65, slash, 66, slash] = [slash, 65, slash] := by decide

example : (addressConvertor [slash] (some [dot, dot, slash, 65])).text = [slash, 65, slash] := by
  decide

end TFAT.PathText
