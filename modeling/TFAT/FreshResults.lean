import Mathlib.Data.Fintype.Card
import Mathlib.Data.Fintype.Prod
import TFAT.Fat16Flush
import TFAT.UserCommands

/-!
# What `find` leaves unset and which commands use it

`find` returns the block it allocated even when the path has no component, and
then nobody has written to the block. The six commands guard differently against
such paths. A command is sound when it uses stored entries only and its outcome
does not depend on what fresh blocks hold. Each is sound exactly when every path
it looks up has a component, as long as the directories on the way lie in the image:
behind its end `parse_dir` gathers what its own block held before. For the converse
it matters that a block may hold anything while the directories of a volume hold less
than `2 ^ 64` entries.
-/
namespace TFAT.FreshResults
open ByteRegions LittleEndianWords LinkedChains DiskLayout ClusterTable FileDescriptor
open DirectoryIO PathText PathResolution LongNames UserCommands VolumeMount Fat16Flush

section Inside
variable (fill : ℕ → UInt8) (v : Volume) (img : Bytes)

/-- The clusters of the directory lie in the image. -/
def LiesInside (d : FatDirLayout) : Prop :=
  ∀ l, v.Chain (v.firstCluster d) l → ∀ c ∈ l, InImage v img c

/-- The entries of the root directory, and of the directories in the image that stored entries
name. -/
inductive Stored : FatDirLayout → Prop
  | root {i : ℕ} {e : FatDirLayout} : i < v.boot.rootEntryCount.toNat →
      entryAt v.rootDir i = .ok e → Stored e
  | sub {d e : FatDirLayout} {entries : Bytes} {n i : ℕ} : Stored d → LiesInside v img d →
      parseDir fill v img d = .ok (some (entries, n)) → i < n → entryAt entries i = .ok e →
      Stored e

/-- The directories lie in the image that the search for the names goes on in. -/
def SearchedInside : Bytes → ℕ → List Text → Prop
  | _, _, [] => True
  | dir, size, token :: rest =>
      rest = [] ∨ ∀ d, search dir token size = .ok (some d) → LiesInside v img d ∧
        ∀ entries n, parseDir fill v img d = .ok (some (entries, n)) →
          SearchedInside entries n rest

/-- The directories lie in the image that the path goes through. -/
def PathInside (path : Text) : Prop :=
  SearchedInside fill v img v.rootDir v.boot.rootEntryCount.toNat (components path)

variable {fill v img}

theorem Stored.searched {e : FatDirLayout} (h : Stored fill v img e) : Searched fill v img e := by
  induction h with
  | root hi he => exact .root hi he
  | sub _ _ hp hi he ih => exact .sub ih hp hi he

theorem stored_of_findLoop {f e : FatDirLayout} {dir : Bytes} {size : ℕ} {tokens : List Text}
    (hs : ∀ i < size, ∀ e, entryAt dir i = .ok e → Stored fill v img e) (hn : tokens ≠ [])
    (hin : SearchedInside fill v img dir size tokens)
    (h : findLoop fill v img f dir size tokens = .ok (some e)) : Stored fill v img e := by
  induction tokens generalizing f dir size with
  | nil => exact absurd rfl hn
  | cons token rest ih =>
      rw [findLoop, bind_eq_ok] at h
      obtain ⟨r, hr, h⟩ := h
      cases r with
      | none => simp at h
      | some tmp =>
          obtain ⟨j, hj, htmp, -⟩ := of_search hr
          have hst := hs j hj tmp htmp
          simp only at h
          split_ifs at h with hrest
          · rw [Except.ok.injEq, Option.some.injEq] at h
            exact h ▸ hst
          · obtain ⟨hlies, hinner⟩ := hin.resolve_left hrest tmp hr
            obtain ⟨p, hp, h⟩ := bind_eq_ok.mp h
            cases p with
            | none => simp at h
            | some p =>
                exact ih (fun i hi e he => .sub hst hlies hp hi he) hrest (hinner _ _ hp) h

/-- A path with a component leads to nothing or to a stored entry. -/
theorem stored_of_find {f e : FatDirLayout} {path : Text} (hn : components path ≠ [])
    (hin : PathInside fill v img path) (h : find fill v img f path = .ok (some e)) :
    Stored fill v img e :=
  stored_of_findLoop (fun _ hi _ he => .root hi he) hn hin h

end Inside

section Counting
variable {fill : ℕ → UInt8} {v : Volume} {img : Bytes}

theorem firstCluster_lt (v : Volume) (e : FatDirLayout) : v.firstCluster e < 2 ^ 32 := by
  have hl := e.firstClusterLow_lt
  have hh := e.firstClusterHigh_lt
  rw [Volume.firstCluster]
  cases v.fatn with
  | fat16 => exact hl.trans (by norm_num)
  | fat32 =>
      refine Nat.or_lt_two_pow ?_ (hl.trans (by norm_num))
      rw [Nat.shiftLeft_eq]
      omega

def gather (fill : ℕ → UInt8) (v : Volume) (img : Bytes) (c : ℕ) : Except Fault Listing :=
  along v.nextCluster 0 .endless (readCluster fill v img) v.fuel c ⟨none, 0, 1⟩

/-- The array with the number `c`: the root directory, or what is gathered from `c` on. -/
def array (fill : ℕ → UInt8) (v : Volume) (img : Bytes) (c : ℕ) : Bytes :=
  if c = 0 then v.rootDir
  else
    match gather fill v img c with
    | .ok s => s.entries.getD []
    | .error _ => []

theorem length_gather {c : ℕ} {s : Listing} (h : gather fill v img c = .ok s) :
    (s.entries.getD []).length < 2 ^ 32 := by
  obtain ⟨l, -, -, hfold⟩ := follows_of_along h
  apply foldlM_partial (I := fun _ s => (s.entries.getD []).length < 2 ^ 32) hfold
  · simp
  · intro p d q s t _ _ ht
    rw [readCluster] at ht
    dsimp only at ht
    split_ifs at ht
    · rw [← Except.ok.inj ht]
      norm_num
    · obtain ⟨block, hblock, ht⟩ := bind_eq_ok.mp ht
      have hlen := length_copyIn hblock
      rw [length_realloc] at hlen
      rw [← Except.ok.inj ht, Option.getD_some, hlen]
      exact Nat.mod_lt _ (by norm_num)

theorem entryAt_lt {block : Bytes} {i : ℕ} {e : FatDirLayout} (h : entryAt block i = .ok e)
    (hb : block.length < 2 ^ 32) : i < 2 ^ 32 := by
  have hi := (entryAt_eq_ok_iff.mp h).1
  rw [entrySize] at hi
  omega

/-- Every entry of an array that is searched is one of a numbered array. -/
theorem exists_array_of_searched {e : FatDirLayout} (h : Searched fill v img e) :
    ∃ c < 2 ^ 32, ∃ i < 2 ^ 32, entryAt (array fill v img c) i = .ok e := by
  cases h with
  | @root i _ hi he =>
      have hlt := v.boot.rootEntryCount.toNat_lt
      exact ⟨0, by norm_num, i, by omega, he⟩
  | @sub d _ entries n i _ hp _ he =>
      rw [parseDir_def] at hp
      split_ifs at hp
      · rw [bind_eq_ok] at hp
        obtain ⟨s, hs, hp⟩ := hp
        have hne : v.firstCluster d ≠ 0 := by
          intro h₀
          rw [h₀, v.along_of_chain .stop] at hs
          rw [← Except.ok.inj hs] at hp
          simp at hp
        have harr : array fill v img (v.firstCluster d) = entries := by
          rw [array, if_neg hne, gather, hs]
          rw [Except.ok.injEq, Option.map_eq_some_iff] at hp
          obtain ⟨b, hb, hbn⟩ := hp
          rw [Prod.mk.injEq] at hbn
          simp only [hb, Option.getD_some, hbn.1]
        have hlen : entries.length < 2 ^ 32 := by
          rw [← harr, array, if_neg hne, gather, hs]
          exact length_gather hs
        exact ⟨_, firstCluster_lt v d, i, entryAt_lt he hlen, harr ▸ he⟩
      · simp at hp

/-- An entry for each number. -/
def numbered (n : ℕ) : FatDirLayout := ⟨encode 32 n, length_encode 32 n⟩

theorem numbered_inj {m n : ℕ} (hm : m < 2 ^ 65) (hn : n < 2 ^ 65)
    (h : numbered m = numbered n) : m = n := by
  have hbig : 2 ^ 65 < 256 ^ 32 := by norm_num
  have hv := congrArg value (congrArg FatDirLayout.bytes h)
  rw [numbered, numbered, value_encode, value_encode, Nat.mod_eq_of_lt (hm.trans hbig),
    Nat.mod_eq_of_lt (hn.trans hbig)] at hv
  exact hv

/-- An entry that no directory of the volume holds. -/
theorem exists_not_stored (fill : ℕ → UInt8) (v : Volume) (img : Bytes) :
    ∃ e, ¬ Stored fill v img e := by
  by_contra hcon
  simp only [not_exists, not_not] at hcon
  choose c hc i hi he using fun n : Fin (2 ^ 65) =>
    exists_array_of_searched (hcon (numbered n)).searched
  let place (n : Fin (2 ^ 65)) : Fin (2 ^ 32) × Fin (2 ^ 32) := (⟨c n, hc n⟩, ⟨i n, hi n⟩)
  have hplace : Function.Injective place := by
    intro m n hmn
    simp only [place, Prod.mk.injEq, Fin.mk.injEq] at hmn
    have hm := he m
    rw [hmn.1, hmn.2, he n, Except.ok.injEq] at hm
    exact Fin.ext (numbered_inj m.isLt n.isLt hm.symm)
  have hcard := Fintype.card_le_of_injective place hplace
  rw [Fintype.card_prod, Fintype.card_fin, Fintype.card_fin] at hcard
  norm_num at hcard

end Counting

/-- The commands that look a path up. -/
inductive Lookup where
  | cd (path : Text)
  | ls (dir : Option Text) (showDeleted : Bool)
  | dump (dir : Text)
  | hdump (dir : Text)
  | delete (dir : Text)
  | undelete (dir : Text)

variable (fill : ℕ → UInt8) (wcstombs : ℕ → Option Text) (s : Session)

def Lookup.path (s : Session) : Lookup → Text
  | .cd path => (addressConvertor s.currentPath (some path)).text
  | .ls dir _ => (addressConvertor s.currentPath dir).text
  | .dump dir => (addressConvertor s.currentPath (some dir)).text
  | .hdump dir => (addressConvertor s.currentPath (some dir)).text
  | .delete dir => (addressConvertor s.currentPath (some dir)).text
  | .undelete dir => (addressConvertor s.currentPath (some (fixDeletedChar dir).1)).text

/-- The command with the contents of its fresh blocks. -/
def Lookup.run (fresh freshParent : FatDirLayout) : Lookup → Except Fault (Session × List Line)
  | .cd path => UserCommands.cd fill s fresh path
  | .ls dir showDeleted => UserCommands.ls fill wcstombs s fresh dir showDeleted
  | .dump dir => UserCommands.dump fill s fresh dir
  | .hdump dir => UserCommands.hdump fill s fresh dir
  | .delete dir => UserCommands.delete fill s fresh freshParent dir
  | .undelete dir => UserCommands.undelete fill s fresh freshParent dir

def usedParent (freshParent : FatDirLayout) (path : Text) : Except Fault (List FatDirLayout) :=
  if getParentPath path = [slash] then .ok []
  else do
    let parent ← find fill s.volume s.image freshParent (getParentPath path)
    .ok parent.toList

def Lookup.used (fresh freshParent : FatDirLayout) (c : Lookup) :
    Except Fault (List FatDirLayout) :=
  let path := c.path s
  match c with
  | .cd _ | .ls _ _ =>
      if path = [slash] then .ok []
      else do
        let file ← find fill s.volume s.image fresh path
        .ok file.toList
  | .dump _ | .hdump _ => do
      let file ← find fill s.volume s.image fresh path
      .ok file.toList
  | .delete _ => do
      let file ← find fill s.volume s.image fresh path
      let parent ← usedParent fill s freshParent path
      .ok (file.toList ++ parent)
  | .undelete _ => do
      match ← find fill s.volume s.image fresh path with
      | none => .ok []
      | some file => do
          let parent ← usedParent fill s freshParent path
          .ok (file :: parent)

/-- The command uses stored entries only, and nothing depends on its fresh blocks. -/
structure Sound (c : Lookup) : Prop where
  stored : ∀ fresh freshParent used, c.used fill s fresh freshParent = .ok used →
    ∀ e ∈ used, Stored fill s.volume s.image e
  independent : ∀ fresh freshParent fresh' freshParent',
    c.run fill wcstombs s fresh freshParent = c.run fill wcstombs s fresh' freshParent'

/-- The path of the parent is that of the root directory or has a component. -/
def ParentNamed (path : Text) : Prop :=
  getParentPath path = [slash] ∨ components (getParentPath path) ≠ []

def InRoot (v : Volume) (name : Text) : Prop := HasName v.rootDir name v.boot.rootEntryCount.toNat

/-- The root directory has as many entries as it is said to have. -/
def RootWhole (v : Volume) : Prop := entrySize * v.boot.rootEntryCount.toNat ≤ v.rootDir.length

/-- Every path that the command looks up has a component. The path of a parent
that has none belongs to a path with a single component, and the parent is looked
up when the search for it in the root directory comes to an end; `undelete` does
so only when it finds the name. -/
def Lookup.Named (c : Lookup) : Prop :=
  let path := c.path s
  match c with
  | .cd _ | .ls _ _ => path = [slash] ∨ components path ≠ []
  | .dump _ | .hdump _ => components path ≠ []
  | .delete _ => components path ≠ [] ∧ (ParentNamed path ∨
      ¬ RootWhole s.volume ∧ ∀ name ∈ components path, ¬ InRoot s.volume name)
  | .undelete _ => components path ≠ [] ∧
      (ParentNamed path ∨ ∀ name ∈ components path, ¬ InRoot s.volume name)

/-- The directories lie in the image that the paths go through which the command looks up. -/
def Lookup.Inside (c : Lookup) : Prop :=
  PathInside fill s.volume s.image (c.path s) ∧
    PathInside fill s.volume s.image (getParentPath (c.path s))

section Named
variable {fill} {wcstombs} {s}

theorem openParent_congr {path : Text} (h : ParentNamed path) (f g : FatDirLayout) :
    openParent fill s f (getParentPath path) = openParent fill s g (getParentPath path) := by
  unfold openParent
  split_ifs with hroot
  · rfl
  · rw [find_congr f g (h.resolve_left hroot)]

theorem stored_of_usedParent {path : Text} (h : ParentNamed path) {f : FatDirLayout}
    {used : List FatDirLayout} (hin : PathInside fill s.volume s.image (getParentPath path))
    (hu : usedParent fill s f path = .ok used) :
    ∀ e ∈ used, Stored fill s.volume s.image e := by
  unfold usedParent at hu
  split_ifs at hu with hroot
  · rw [← Except.ok.inj hu]
    simp
  · rw [bind_eq_ok] at hu
    obtain ⟨parent, hp, hu⟩ := hu
    intro e he
    rw [← Except.ok.inj hu, Option.mem_toList] at he
    exact stored_of_find (h.resolve_left hroot) hin (by rw [hp, he])

variable (fill s) in
theorem find_eq_search {path : Text} (hn : components path ≠ []) (h : ¬ ParentNamed path) :
    ∃ name, components path = [name] ∧ ∀ f, find fill s.volume s.image f path =
      search s.volume.rootDir name s.volume.boot.rootEntryCount.toNat := by
  rw [ParentNamed, not_or, not_not] at h
  obtain ⟨name, hname⟩ := exists_components_eq_singleton h.2 hn
  exact ⟨name, hname, fun f => find_of_components_eq_singleton f hname⟩

theorem parentNamed_of_find {path : Text} (hn : components path ≠ [])
    (h : ParentNamed path ∨ ¬ RootWhole s.volume ∧ ∀ name ∈ components path, ¬ InRoot s.volume name)
    {f : FatDirLayout} {file : Option FatDirLayout}
    (hf : find fill s.volume s.image f path = .ok file) : ParentNamed path := by
  by_contra hp
  obtain ⟨name, hname, hfind⟩ := find_eq_search fill s hn hp
  obtain ⟨hwhole, hroot⟩ := h.resolve_left hp
  rw [hfind] at hf
  rcases search_returns_iff.mp ⟨file, hf⟩ with hin | hle
  · exact hroot name (by simp [hname]) hin
  · exact hwhole hle

theorem parentNamed_of_find_some {path : Text} (hn : components path ≠ [])
    (h : ParentNamed path ∨ ∀ name ∈ components path, ¬ InRoot s.volume name)
    {f e : FatDirLayout} (hf : find fill s.volume s.image f path = .ok (some e)) :
    ParentNamed path := by
  by_contra hp
  obtain ⟨name, hname, hfind⟩ := find_eq_search fill s hn hp
  rw [hfind] at hf
  exact h.resolve_left hp name (by simp [hname]) (search_eq_some_iff.mp ⟨e, hf⟩)

theorem stored_of_lookup {path : Text} (hn : components path ≠ []) {f : FatDirLayout}
    {file : Option FatDirLayout} (hin : PathInside fill s.volume s.image path)
    (h : find fill s.volume s.image f path = .ok file) :
    ∀ e ∈ file.toList, Stored fill s.volume s.image e := by
  intro e he
  rw [Option.mem_toList] at he
  exact stored_of_find hn hin (by rw [h, he])

theorem stored_of_used {path : Text} (hn : components path ≠ []) {f : FatDirLayout}
    {used : List FatDirLayout} (hin : PathInside fill s.volume s.image path)
    (hu : (find fill s.volume s.image f path >>= fun file => .ok file.toList) = .ok used) :
    ∀ e ∈ used, Stored fill s.volume s.image e := by
  obtain ⟨file, hf, hu⟩ := bind_eq_ok.mp hu
  rw [← Except.ok.inj hu]
  exact stored_of_lookup hn hin hf

theorem stored_of_used_unless_root {path : Text} (h : path = [slash] ∨ components path ≠ [])
    {f : FatDirLayout} {used : List FatDirLayout} (hin : PathInside fill s.volume s.image path)
    (hu : (if path = [slash] then .ok []
      else find fill s.volume s.image f path >>= fun file => .ok file.toList) = .ok used) :
    ∀ e ∈ used, Stored fill s.volume s.image e := by
  split_ifs at hu with hroot
  · simp [← Except.ok.inj hu]
  · exact stored_of_used (h.resolve_left hroot) hin hu

theorem sound_cd {path : Text} (h : (Lookup.cd path).Named s)
    (hin : (Lookup.cd path).Inside fill s) : Sound fill wcstombs s (.cd path) := by
  refine ⟨fun f g used hu => stored_of_used_unless_root h hin.1 hu, fun f g f' g' => ?_⟩
  simp only [Lookup.run, UserCommands.cd]
  split_ifs with hroot
  · rfl
  · have hn : components (addressConvertor s.currentPath (some path)).text ≠ [] :=
      h.resolve_left hroot
    rw [find_congr f f' hn]

theorem sound_ls {dir : Option Text} {showDeleted : Bool}
    (h : (Lookup.ls dir showDeleted).Named s) (hin : (Lookup.ls dir showDeleted).Inside fill s) :
    Sound fill wcstombs s (.ls dir showDeleted) := by
  refine ⟨fun f g used hu => stored_of_used_unless_root h hin.1 hu, fun f g f' g' => ?_⟩
  simp only [Lookup.run, UserCommands.ls]
  split_ifs with hroot
  · rfl
  · have hn : components (addressConvertor s.currentPath dir).text ≠ [] :=
      h.resolve_left hroot
    rw [find_congr f f' hn]

theorem dumpWith_congr (format : Bytes → Line) {dir : Text}
    (hn : components (addressConvertor s.currentPath (some dir)).text ≠ []) (f g : FatDirLayout) :
    dumpWith fill s f format dir = dumpWith fill s g format dir := by
  rw [dumpWith, dumpWith, find_congr f g hn]

theorem sound_dump {dir : Text} (h : (Lookup.dump dir).Named s)
    (hin : (Lookup.dump dir).Inside fill s) : Sound fill wcstombs s (.dump dir) :=
  ⟨fun _ _ _ hu => stored_of_used h hin.1 hu, fun f _ f' _ => dumpWith_congr .chars h f f'⟩

theorem sound_hdump {dir : Text} (h : (Lookup.hdump dir).Named s)
    (hin : (Lookup.hdump dir).Inside fill s) : Sound fill wcstombs s (.hdump dir) :=
  ⟨fun _ _ _ hu => stored_of_used h hin.1 hu, fun f _ f' _ => dumpWith_congr .hexes h f f'⟩

theorem sound_delete {dir : Text} (h : (Lookup.delete dir).Named s)
    (hin : (Lookup.delete dir).Inside fill s) : Sound fill wcstombs s (.delete dir) := by
  constructor
  · intro f g used hu
    obtain ⟨file, hf, hu⟩ := bind_eq_ok.mp hu
    obtain ⟨parent, hp, hu⟩ := bind_eq_ok.mp hu
    rw [← Except.ok.inj hu]
    intro e he
    rcases List.mem_append.mp he with he | he
    · exact stored_of_lookup h.1 hin.1 hf e he
    · exact stored_of_usedParent (parentNamed_of_find h.1 h.2 hf) hin.2 hp e he
  · intro f g f' g'
    simp only [Lookup.run, UserCommands.delete]
    generalize hpath : (addressConvertor s.currentPath (some dir)).text = path
    have hn : Lookup.path s (.delete dir) = path := hpath
    simp only [Lookup.Named, hn] at h
    rw [find_congr f f' h.1]
    cases hf : find fill s.volume s.image f' path with
    | error e => simp only [error_bind]
    | ok file => rw [openParent_congr (parentNamed_of_find h.1 h.2 hf) g g']

theorem sound_undelete {dir : Text} (h : (Lookup.undelete dir).Named s)
    (hin : (Lookup.undelete dir).Inside fill s) : Sound fill wcstombs s (.undelete dir) := by
  constructor
  · intro f g used hu
    obtain ⟨file, hf, hu⟩ := bind_eq_ok.mp hu
    cases file with
    | none => simp [← Except.ok.inj hu]
    | some file =>
        obtain ⟨parent, hp, hu⟩ := bind_eq_ok.mp hu
        rw [← Except.ok.inj hu]
        intro e he
        rcases List.mem_cons.mp he with rfl | he
        · exact stored_of_find h.1 hin.1 hf
        · exact stored_of_usedParent (parentNamed_of_find_some h.1 h.2 hf) hin.2 hp e he
  · intro f g f' g'
    simp only [Lookup.run, UserCommands.undelete]
    generalize hpath : (addressConvertor s.currentPath (some (fixDeletedChar dir).1)).text = path
    have hn : Lookup.path s (.undelete dir) = path := hpath
    simp only [Lookup.Named, hn] at h
    rw [find_congr f f' h.1]
    cases hf : find fill s.volume s.image f' path with
    | error e => simp only [error_bind]
    | ok file =>
        cases file with
        | none => simp only [ok_bind]
        | some file => rw [openParent_congr (parentNamed_of_find_some h.1 h.2 hf) g g']

theorem sound_of_named (c : Lookup) (hin : c.Inside fill s) (h : c.Named s) :
    Sound fill wcstombs s c := by
  cases c with
  | cd path => exact sound_cd h hin
  | ls dir showDeleted => exact sound_ls h hin
  | dump dir => exact sound_dump h hin
  | hdump dir => exact sound_hdump h hin
  | delete dir => exact sound_delete h hin
  | undelete dir => exact sound_undelete h hin

end Named

section Unnamed
variable {fill} {wcstombs} {s}

/-- The parent of a path without components has no component either. -/
theorem components_getParentPath {path : Text} (h : components path = []) :
    components (getParentPath path) = [] := by
  rw [components_eq_nil_iff] at h ⊢
  intro b hb
  rcases List.mem_append.mp hb with hb | hb
  · apply h b
    have hstrip := List.mem_of_mem_take hb
    unfold stripSlash at hstrip
    split_ifs at hstrip
    · exact List.mem_of_mem_dropLast hstrip
    · exact hstrip
  · exact List.mem_singleton.mp hb

variable (fill s) in
theorem usedParent_of_components_eq_nil (f : FatDirLayout) {path : Text}
    (h : components (getParentPath path) = []) :
    ∃ used, usedParent fill s f path = .ok used ∧ (getParentPath path = [slash] ∨ f ∈ used) := by
  unfold usedParent
  split_ifs with hroot
  · exact ⟨[], rfl, .inl hroot⟩
  · rw [find_of_components_eq_nil f h]
    exact ⟨[f], rfl, .inr (by simp)⟩

/-- A command that may use any block of its own is not sound. -/
theorem components_ne_nil_of_sound {c : Lookup} (h : Sound fill wcstombs s c)
    (hused : components (c.path s) = [] →
      ∀ f, ∃ used, c.used fill s f f = .ok used ∧ f ∈ used) : components (c.path s) ≠ [] := by
  intro hn
  obtain ⟨f, hf⟩ := exists_not_stored fill s.volume s.image
  obtain ⟨used, hu, hmem⟩ := hused hn f
  exact hf (h.stored f f used hu f hmem)

theorem parentNamed_of_sound {c : Lookup} (h : Sound fill wcstombs s c)
    (hused : components (getParentPath (c.path s)) = [] → getParentPath (c.path s) ≠ [slash] →
      ∀ f, ∃ used, c.used fill s f f = .ok used ∧ f ∈ used) :
    ParentNamed (c.path s) := by
  by_contra hn
  rw [ParentNamed, not_or, not_not] at hn
  obtain ⟨f, hf⟩ := exists_not_stored fill s.volume s.image
  obtain ⟨used, hu, hmem⟩ := hused hn.2 hn.1 f
  exact hf (h.stored f f used hu f hmem)

theorem named_of_sound_delete {dir : Text} (h : Sound fill wcstombs s (.delete dir)) :
    (Lookup.delete dir).Named s := by
  have hne : components ((Lookup.delete dir).path s) ≠ [] := by
    apply components_ne_nil_of_sound h
    intro hn f
    obtain ⟨used, hu, -⟩ := usedParent_of_components_eq_nil fill s f
      (components_getParentPath hn)
    refine ⟨f :: used, ?_, by simp⟩
    simp only [Lookup.used]
    rw [find_of_components_eq_nil f hn, hu]
    rfl
  refine ⟨hne, or_iff_not_imp_left.mpr fun hp => ?_⟩
  obtain ⟨name, hname, hfind⟩ := find_eq_search fill s hne hp
  simp only [hname, List.mem_singleton, forall_eq, ← not_or]
  intro hret
  obtain ⟨file, hfile⟩ := search_returns_iff.mpr hret.symm
  exact hp (parentNamed_of_sound h fun hn hroot f => by
    obtain ⟨used, hu, hmem⟩ := usedParent_of_components_eq_nil fill s f hn
    refine ⟨file.toList ++ used, ?_, by simp [hmem.resolve_left hroot]⟩
    simp only [Lookup.used]
    rw [hfind, hfile, hu]
    rfl)

theorem named_of_sound_undelete {dir : Text} (h : Sound fill wcstombs s (.undelete dir)) :
    (Lookup.undelete dir).Named s := by
  have hne : components ((Lookup.undelete dir).path s) ≠ [] := by
    apply components_ne_nil_of_sound h
    intro hn f
    obtain ⟨used, hu, -⟩ := usedParent_of_components_eq_nil fill s f
      (components_getParentPath hn)
    refine ⟨f :: used, ?_, by simp⟩
    simp only [Lookup.used]
    rw [find_of_components_eq_nil f hn, ok_bind, hu]
    rfl
  refine ⟨hne, or_iff_not_imp_left.mpr fun hp => ?_⟩
  obtain ⟨name, hname, hfind⟩ := find_eq_search fill s hne hp
  intro name' hmem' hroot'
  obtain rfl : name' = name := by simpa [hname] using hmem'
  obtain ⟨file, hfile⟩ := search_eq_some_iff.mpr hroot'
  exact hp (parentNamed_of_sound h fun hn hroot f => by
    obtain ⟨used, hu, hmem⟩ := usedParent_of_components_eq_nil fill s f hn
    refine ⟨file :: used, ?_, by simp [hmem.resolve_left hroot]⟩
    simp only [Lookup.used]
    rw [hfind, hfile, ok_bind, hu]
    rfl)

theorem named_of_sound (c : Lookup) (h : Sound fill wcstombs s c) : c.Named s := by
  cases c with
  | cd path | ls dir showDeleted =>
      refine or_iff_not_imp_left.mpr fun hroot => components_ne_nil_of_sound h fun hn f => ?_
      refine ⟨[f], ?_, by simp⟩
      simp only [Lookup.used]
      rw [if_neg hroot, find_of_components_eq_nil f hn]
      rfl
  | dump dir | hdump dir =>
      refine components_ne_nil_of_sound h fun hn f => ⟨[f], ?_, by simp⟩
      simp only [Lookup.used]
      rw [find_of_components_eq_nil f hn]
      rfl
  | delete dir => exact named_of_sound_delete h
  | undelete dir => exact named_of_sound_undelete h

end Unnamed

end TFAT.FreshResults
