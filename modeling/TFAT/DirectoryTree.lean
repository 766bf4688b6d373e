import TFAT.VolumeTree

/-!
# The directories that paths lead to

A path names an entry by a chain of lookups, each in the array that the entry before
it opens. On a volume whose subdirectories carry standard `.` and `..` entries, an
entry that is found without the spelling of a deleted name and opens an array is an
entry of the tree of live directories, or one that stands for such a directory.
-/
namespace TFAT.DirectoryTree
open ByteRegions LittleEndianWords LinkedChains DiskLayout ClusterTable DirectoryIO PathText
open EntryNames PathResolution VolumeTree

def dotName : Bytes := 0x2E :: List.replicate 10 0x20
def dotDotName : Bytes := 0x2E :: 0x2E :: List.replicate 9 0x20

variable (fill : ℕ → UInt8) (v : Volume) (img : Bytes)

/-- The directories below the root directory, each with the first cluster of the one that
it lies in, where 0 stands for the root directory. -/
inductive Folder : FatDirLayout → ℕ → Prop
  | top {i : ℕ} {e : FatDirLayout} : i < v.boot.rootEntryCount.toNat →
      entryAt v.rootDir i = .ok e → Owner e → isDirectory e.attr → Folder e 0
  | within {i p : ℕ} {d e : FatDirLayout} {l : List ℕ} : Folder d p →
      v.Chain (v.firstCluster d) l → entryAt (contents v img l) i = .ok e → Owner e →
      isDirectory e.attr → Folder e (v.firstCluster d)

/-- A live directory entry with the given name and first cluster. -/
structure DotEntry (name : Bytes) (c : ℕ) (e : FatDirLayout) : Prop where
  live : Live e
  directory : isDirectory e.attr
  name : slice e.bytes 0 11 = name
  cluster : v.firstCluster e = c

/-- The array of a directory that starts at `c` and lies in one that starts at `p`. -/
structure Dotted (block : Bytes) (c p : ℕ) : Prop where
  own : ∃ e, entryAt block 0 = .ok e ∧ DotEntry v dotName c e
  parent : ∃ e, entryAt block 1 = .ok e ∧ DotEntry v dotDotName p e
  rest : ∀ {i : ℕ} {e : FatDirLayout}, 2 ≤ i → entryAt block i = .ok e → Live e →
    isDirectory e.attr → e.nameHead ≠ dot

/-- The subdirectories carry standard dot entries and can be gathered whole, and the root
directory has no dot entries. -/
structure Standard : Prop where
  geometry : Geometry v.boot
  rootWhole : entrySize * v.boot.rootEntryCount.toNat ≤ v.rootDir.length
  rootPlain : ∀ {i : ℕ} {e : FatDirLayout}, i < v.boot.rootEntryCount.toNat →
    entryAt v.rootDir i = .ok e → Live e → isDirectory e.attr → e.nameHead ≠ dot
  whole : ∀ {d : FatDirLayout} {p : ℕ}, Folder v img d p → ∃ l, v.Chain (v.firstCluster d) l ∧
    l ≠ [] ∧ (∀ c ∈ l, InImage v img c) ∧ l.length * clusterBytes v.boot < 2 ^ 32
  dots : ∀ {d : FatDirLayout} {p : ℕ} {l : List ℕ}, Folder v img d p →
    v.Chain (v.firstCluster d) l → Dotted v (contents v img l) (v.firstCluster d) p

/-- The names lead from an array of entries to an entry. -/
inductive Leads (dir : Bytes) (size : ℕ) : List Text → FatDirLayout → Prop
  | found {name : Text} {e : FatDirLayout} : search dir name size = .ok (some e) →
      Leads dir size [name] e
  | inside {names : List Text} {name : Text} {d e : FatDirLayout} {block : Bytes} {n : ℕ} :
      Leads dir size names d → parseDir fill v img d = .ok (some (block, n)) →
      search block name n = .ok (some e) → Leads dir size (names ++ [name]) e

def LeadsTo (names : List Text) (e : FatDirLayout) : Prop :=
  Leads fill v img v.rootDir v.boot.rootEntryCount.toNat names e

/-- An array of entries that is the root directory, or the array of a directory in the tree. -/
def FolderBlock (block : Bytes) (n : ℕ) : Prop :=
  block = v.rootDir ∧ n = v.boot.rootEntryCount.toNat ∨
    ∃ d p l, Folder v img d p ∧ v.Chain (v.firstCluster d) l ∧ block = contents v img l ∧
      n = l.length * (clusterBytes v.boot / entrySize)

section Finding
variable {fill v img} {dir block : Bytes} {size n : ℕ} {name : Text} {names : List Text}
variable {d e f : FatDirLayout}

theorem Leads.ne_nil (h : Leads fill v img dir size names e) : names ≠ [] := by
  cases h <;> simp

/-- The first name leads into the array of the entry that it finds. -/
theorem Leads.cons (hs : search dir name size = .ok (some d))
    (hp : parseDir fill v img d = .ok (some (block, n))) (h : Leads fill v img block n names e) :
    Leads fill v img dir size (name :: names) e := by
  induction h with
  | found he => exact .inside (.found hs) hp he
  | inside _ hb he ih => exact .inside ih hb he

theorem leads_of_findLoop (hn : names ≠ [])
    (h : findLoop fill v img f dir size names = .ok (some e)) :
    Leads fill v img dir size names e := by
  induction names generalizing f dir size with
  | nil => exact absurd rfl hn
  | cons name rest ih =>
      rw [findLoop, bind_eq_ok] at h
      obtain ⟨r, hr, h⟩ := h
      cases r with
      | none => cases h
      | some tmp =>
          simp only at h
          split_ifs at h with hrest
          · rw [Except.ok.injEq, Option.some.injEq] at h
            rw [hrest, ← h]
            exact .found hr
          · obtain ⟨p, hp, h⟩ := bind_eq_ok.mp h
            cases p with
            | none => cases h
            | some p => exact .cons hr hp (ih hrest h)

theorem findLoop_snoc (h : findLoop fill v img f dir size names = .ok (some d)) (hn : names ≠ [])
    (hp : parseDir fill v img d = .ok (some (block, n))) :
    findLoop fill v img f dir size (names ++ [name]) =
      search block name n := by
  induction names generalizing f dir size with
  | nil => exact absurd rfl hn
  | cons first rest ih =>
      rw [findLoop, bind_eq_ok] at h
      obtain ⟨r, hr, h⟩ := h
      cases r with
      | none => cases h
      | some tmp =>
          simp only at h
          rw [List.cons_append, findLoop, hr, ok_bind]
          simp only [List.append_eq_nil_iff, List.cons_ne_nil, and_false, if_false]
          split_ifs at h with hrest
          · rw [Except.ok.injEq, Option.some.injEq] at h
            rw [hrest, h, hp, ok_bind]
            simp only [List.nil_append, findLoop]
            cases search block name n with
            | error e => rfl
            | ok r => cases r <;> rfl
          · obtain ⟨p, hq, h⟩ := bind_eq_ok.mp h
            cases p with
            | none => cases h
            | some p =>
                rw [hq, ok_bind]
                exact ih h hrest

theorem Leads.findLoop_eq (h : Leads fill v img dir size names e) (f : FatDirLayout) :
    findLoop fill v img f dir size names = .ok (some e) := by
  induction h with
  | found he =>
      rw [findLoop, he]
      rfl
  | inside hl hp he ih => rw [findLoop_snoc ih hl.ne_nil hp, he]

/-- The last name is looked up in the array where the names lead that stand in front of it. -/
theorem Leads.last (h : Leads fill v img dir size (names ++ [name]) e) :
    names = [] ∧ search dir name size = .ok (some e) ∨ ∃ d block n,
      Leads fill v img dir size names d ∧ parseDir fill v img d = .ok (some (block, n)) ∧
        search block name n = .ok (some e) := by
  generalize hl : names ++ [name] = l at h
  cases h with
  | @found last _ hs =>
      obtain ⟨rfl, hname⟩ := List.append_inj' (show names ++ [name] = [] ++ [last] from hl) rfl
      rw [List.cons.injEq] at hname
      exact .inl ⟨rfl, hname.1 ▸ hs⟩
  | inside hd hp hs =>
      obtain ⟨rfl, hname⟩ := List.append_inj' hl rfl
      rw [List.cons.injEq] at hname
      exact .inr ⟨_, _, _, hd, hp, hname.1 ▸ hs⟩

/-- `find` returns what the components of the path lead to. -/
theorem find_eq_some_iff {path : Text} (hn : components path ≠ []) :
    find fill v img f path = .ok (some e) ↔ LeadsTo fill v img (components path) e :=
  ⟨leads_of_findLoop hn, fun h => h.findLoop_eq f⟩

end Finding

section Names
variable {e : FatDirLayout} {term : Text} {b : UInt8}

theorem head?_rtrim {t : Text} (hb : b ≠ 0x20) : (rtrim (b :: t)).head? = some b := by
  have hne : rtrim (b :: t) ≠ [] := by
    rw [rtrim, Ne, List.rdropWhile_eq_nil_iff]
    intro h
    exact hb (by simpa using h b (by simp))
  obtain ⟨rest, hrest⟩ := List.rdropWhile_prefix (· == 0x20) (b :: t)
  change rtrim (b :: t) ++ rest = b :: t at hrest
  obtain ⟨c, u, hcu⟩ := List.exists_cons_of_ne_nil hne
  rw [hcu] at hrest ⊢
  rw [List.cons_append, List.cons.injEq] at hrest
  rw [List.head?_cons, hrest.1]

theorem headChar_eq_dot {lower : Bool} (h : headChar b lower = dot) : b = dot := by
  unfold headChar at h
  split_ifs at h with h₁ h₂ h₃
  · exact absurd h (by decide)
  · exact absurd h (by decide)
  · unfold tolower at h
    split_ifs at h with hb
    · have hb₁ := UInt8.le_iff_toNat_le.mp hb.1
      have hb₂ := UInt8.le_iff_toNat_le.mp hb.2
      have hs := congrArg UInt8.toNat h
      rw [UInt8.toNat_add] at hs
      simp only [dot, UInt8.reduceToNat] at hb₁ hb₂ hs
      omega
    · exact h
  · exact h

theorem head?_baseName (hh : e.nameHead ≠ 0)
    (hc : headChar e.nameHead (e.caseInformation &&& 0x08 != 0) = b) (h₀ : b ≠ 0)
    (hb : b ≠ 0x20) : ∃ t, baseName e = some t ∧ t.head? = some b := by
  obtain ⟨bs, hn⟩ := name_eq_cons e
  rw [baseName, hn, getName, if_neg hh, hc, cString, List.takeWhile_cons_of_pos (by simpa using h₀)]
  exact ⟨_, rfl, head?_rtrim hb⟩

theorem head?_of_matchesTerm (h : matchesTerm e term)
    (hc : headChar e.nameHead (e.caseInformation &&& 0x08 != 0) = b) (h₀ : b ≠ 0)
    (hb : b ≠ 0x20) : term.head? = some b := by
  obtain ⟨t, ht, hhead⟩ := head?_baseName (nameHead_ne_zero_of_matchesTerm h) hc h₀ hb
  simp only [matchesTerm, fullName, ht, Option.map_some, Bool.or_eq_true, Bool.and_eq_true,
    beq_iff_eq, Option.some.injEq] at h
  rcases h with ⟨-, rfl⟩ | ⟨-, rfl⟩
  · rw [List.append_assoc, List.head?_append, hhead, Option.some_or]
  · exact hhead

/-- A deleted entry is found only under a name that starts with a question mark. -/
theorem not_deleted_of_matchesTerm (h : matchesTerm e term) (ht : term.head? ≠ some question) :
    isDeleted e = false := by
  by_contra hd
  have hhead : e.nameHead = 0xE5 := by
    rw [isDeleted, Bool.not_eq_false, beq_iff_eq] at hd
    exact hd
  exact ht (head?_of_matchesTerm h (by rw [hhead]; rfl) (by decide) (by decide))

theorem live_of_matchesTerm (h : matchesTerm e term) (ht : term.head? ≠ some question)
    (hdir : isDirectory e.attr) : Live e :=
  ⟨nameHead_ne_zero_of_matchesTerm h, not_deleted_of_matchesTerm h ht, by rw [hdir, Bool.true_or]⟩

theorem head?_of_rtrim {t u : Text} (h : rtrim t = b :: u) : t.head? = some b := by
  obtain ⟨rest, hrest⟩ := List.rdropWhile_prefix (· == 0x20) t
  change rtrim t ++ rest = t at hrest
  rw [← hrest, h]
  rfl

/-- A base name starts with a dot only if the name does. -/
theorem nameHead_of_baseName {t : Text} (h : baseName e = some (dot :: t)) : e.nameHead = dot := by
  obtain ⟨bs, hn⟩ := name_eq_cons e
  have h₀ : e.nameHead ≠ 0 := fun h₀ => by
    rw [baseName, hn, getName, if_pos h₀] at h
    cases h
  rw [baseName, hn, getName, if_neg h₀] at h
  obtain ⟨u, hu⟩ := List.head?_eq_some_iff.mp (head?_of_rtrim (Option.some.inj h))
  obtain ⟨rest, hrest⟩ := List.takeWhile_prefix (· != 0)
    (l := headChar e.nameHead (e.caseInformation &&& 0x08 != 0) ::
      bs.map fun b => if e.caseInformation &&& 0x08 != 0 then tolower b else b)
  rw [cString] at hu
  rw [hu, List.cons_append, List.cons.injEq] at hrest
  exact headChar_eq_dot hrest.1.symm

theorem owner_of_nameHead_ne_dot (hl : Live e) (h : e.nameHead ≠ dot) : Owner e := by
  refine ⟨hl, fun hmem => h ?_⟩
  have hslice : slice e.bytes 0 1 = slice (slice e.bytes 0 11) 0 1 :=
    (slice_slice e.bytes 0 11 0 1 (by norm_num)).symm
  rw [dotNames, List.mem_cons, List.mem_singleton] at hmem
  rcases hmem with hmem | hmem <;> rw [FatDirLayout.nameHead, hslice, hmem] <;> rfl

end Names

section Tree
variable {fill : ℕ → UInt8} {v : Volume} {img block : Bytes} {n p : ℕ} {names : List Text}
variable {d e : FatDirLayout}

/-- The directory that a directory lies in is in the tree, unless it is the root directory. -/
theorem Folder.parent (h : Folder v img d p) (hp : p ≠ 0) :
    ∃ e q, Folder v img e q ∧ v.firstCluster e = p := by
  cases h with
  | top _ _ _ _ => exact absurd rfl hp
  | within hd _ _ _ _ => exact ⟨_, _, hd, rfl⟩

theorem Standard.parseDir_eq (fill : ℕ → UInt8) (hS : Standard v img) (h : Folder v img d p)
    (hdir : isDirectory e.attr) (hc : v.firstCluster e = v.firstCluster d) :
    ∃ l, v.Chain (v.firstCluster d) l ∧ parseDir fill v img e =
      .ok (some (contents v img l, l.length * (clusterBytes v.boot / entrySize))) := by
  obtain ⟨l, hl, hne, hin, hsmall⟩ := hS.whole h
  exact ⟨l, hl, DirectoryIO.parseDir_eq fill hdir (hc ▸ hl) hne hS.geometry.pos
    hS.geometry.entries hin hsmall⟩

theorem opens_of_parseDir (h : parseDir fill v img d = .ok (some (block, n))) :
    isDirectory d.attr ∧ v.firstCluster d ≠ 0 := by
  rw [parseDir_def] at h
  split_ifs at h with hdir
  · refine ⟨hdir, fun h₀ => ?_⟩
    rw [h₀, v.along_of_chain .stop] at h
    cases h
  · cases h

theorem Leads.of_append {dir : Bytes} {size : ℕ} {rest : List Text} (hn : names ≠ [])
    (hdir : isDirectory e.attr) (h : Leads fill v img dir size (names ++ rest) e) :
    ∃ d, Leads fill v img dir size names d ∧ isDirectory d.attr := by
  induction rest using List.reverseRecOn generalizing e with
  | nil => exact ⟨e, by rwa [List.append_nil] at h, hdir⟩
  | append_singleton rest name ih =>
      rw [← List.append_assoc] at h
      rcases h.last with ⟨hnil, -⟩ | ⟨d, block, n, hd, hp, -⟩
      · exact absurd (List.append_eq_nil_iff.mp hnil).1 hn
      · exact ih (opens_of_parseDir hp).1 hd

/-- A directory entry that is found has no first cluster, or that of a directory in the
tree. -/
theorem Standard.folder_of_leadsTo (hS : Standard v img) (h : LeadsTo fill v img names e)
    (hq : ∀ t ∈ names, t.head? ≠ some question) (hdir : isDirectory e.attr)
    (hc : v.firstCluster e ≠ 0) :
    ∃ d p, Folder v img d p ∧ v.firstCluster e = v.firstCluster d := by
  induction h with
  | @found name e hs =>
      obtain ⟨j, hj, he, hm⟩ := of_search hs
      have hl := live_of_matchesTerm hm (hq name (by simp)) hdir
      exact ⟨e, 0, .top hj he (owner_of_nameHead_ne_dot hl (hS.rootPlain hj he hl hdir)) hdir, rfl⟩
  | @inside names name d e block n hd hb hs ih =>
      obtain ⟨hddir, hdc⟩ := opens_of_parseDir hb
      obtain ⟨d', p, hF, hcl⟩ := ih (fun t ht => hq t (by simp [ht])) hddir hdc
      obtain ⟨l, hl, hparse⟩ := hS.parseDir_eq fill hF hddir hcl
      rw [hparse, Except.ok.injEq, Option.some.injEq, Prod.mk.injEq] at hb
      obtain ⟨j, -, he, hm⟩ := of_search hs
      rw [← hb.1] at he
      have hlive := live_of_matchesTerm hm (hq name (by simp)) hdir
      obtain ⟨⟨e₀, he₀, hown⟩, ⟨e₁, he₁, hparent⟩, hrest⟩ := hS.dots hF hl
      rcases j with _ | _ | j
      · rw [he, Except.ok.injEq] at he₀
        exact ⟨d', p, hF, he₀ ▸ hown.cluster⟩
      · rw [he, Except.ok.injEq] at he₁
        have hp : v.firstCluster e = p := he₁ ▸ hparent.cluster
        obtain ⟨f, q, hf, hfc⟩ := hF.parent (hp ▸ hc)
        exact ⟨f, q, hf, hp.trans hfc.symm⟩
      · have hne := hrest (by omega) he hlive hdir
        exact ⟨e, _, .within hF hl he (owner_of_nameHead_ne_dot hlive hne) hdir, rfl⟩

/-- What such an entry opens is the array of a directory in the tree. -/
theorem Standard.folderBlock_of_leadsTo (hS : Standard v img) (h : LeadsTo fill v img names e)
    (hq : ∀ t ∈ names, t.head? ≠ some question) (hdir : isDirectory e.attr)
    (hc : v.firstCluster e ≠ 0) : ∃ block n, parseDir fill v img e = .ok (some (block, n)) ∧
      entrySize * n ≤ block.length ∧ FolderBlock v img block n := by
  obtain ⟨d, p, hF, hcl⟩ := hS.folder_of_leadsTo h hq hdir hc
  obtain ⟨l, hl, hparse⟩ := hS.parseDir_eq fill hF hdir hcl
  refine ⟨_, _, hparse, ?_, .inr ⟨d, p, l, hF, hl, rfl, rfl⟩⟩
  obtain ⟨m, hm, -, hin, -⟩ := hS.whole hF
  rw [hl.unique hm, length_contents hin, Nat.mul_left_comm,
    Nat.mul_div_cancel' hS.geometry.entries]

theorem Standard.dotted_of_leadsTo (hS : Standard v img) (h : LeadsTo fill v img names e)
    (hq : ∀ t ∈ names, t.head? ≠ some question)
    (hp : parseDir fill v img e = .ok (some (block, n))) :
    0 < n ∧ ∃ c c', Dotted v block c c' := by
  obtain ⟨hdir, hc⟩ := opens_of_parseDir hp
  obtain ⟨d, p, hF, hcl⟩ := hS.folder_of_leadsTo h hq hdir hc
  obtain ⟨l, hl, hparse⟩ := hS.parseDir_eq fill hF hdir hcl
  rw [hp, Except.ok.injEq, Option.some.injEq, Prod.mk.injEq] at hparse
  obtain ⟨m, hm, hne, -⟩ := hS.whole hF
  have hlpos : 0 < l.length := List.length_pos_iff.mpr (hl.unique hm ▸ hne)
  have hepos : 0 < clusterBytes v.boot / entrySize :=
    Nat.div_pos (Nat.le_of_dvd hS.geometry.pos hS.geometry.entries) (by decide)
  rw [hparse.1, hparse.2]
  exact ⟨Nat.mul_pos hlpos hepos, _, _, hS.dots hF hl⟩

end Tree

end TFAT.DirectoryTree
