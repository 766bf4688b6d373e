import TFAT.DeleteSafety
import TFAT.Fat32Root
import TFAT.ListedNames

/-!
# What a path should lead to

The reference for `find`: directories are lists of entries, a name leads to the first
entry of a list that answers to it, and a path goes on only behind a directory entry
with clusters, in the entries of those clusters. `find` agrees with it unless a search
runs past the end of `root_dir`, or a directory on the way has so many bytes that 32
bits do not hold their number. With exactly `2 ^ 32` bytes a directory is taken for one
without clusters, and with more `find` does not return.
-/
namespace TFAT.PathLookup
open ByteRegions LittleEndianWords LinkedChains DiskLayout ClusterTable DirectoryIO PathText
open FileDescriptor VolumeMount VolumeLayout Fat32Root EntryNames PathResolution DeleteSafety
open ListedNames (entriesFrom entriesFrom_succ)

/-- The entry answers to the name: a nonempty entry that is no volume label to its name
and extension, a directory to its name alone, and an entry that was never used to none. -/
def Answers (e : FatDirLayout) (name : Text) : Prop :=
  e.nameHead ≠ 0 ∧
    ((e.fileSize ≠ 0 ∧ isSpecial e.attr = false ∧ fullName e = some name) ∨
      (isDirectory e.attr ∧ baseName e = some name))

instance (e : FatDirLayout) (name : Text) : Decidable (Answers e name) :=
  inferInstanceAs (Decidable (_ ∧ _))

/-- The first entry that answers to the name. -/
def lookup (es : List FatDirLayout) (name : Text) : Option FatDirLayout :=
  es.find? (Answers · name)

def insideOf (v : Volume) (img : Bytes) (d : FatDirLayout) : Option (List FatDirLayout) :=
  if isDirectory d.attr then
    match v.clusters (v.firstCluster d) with
    | .ok (c :: l) =>
        let block := contents v img (c :: l)
        some (entriesFrom block 0 (block.length / entrySize))
    | _ => none
  else none

/-- What the names lead to from a list of entries. -/
def resolve (v : Volume) (img : Bytes) : List FatDirLayout → List Text → Option FatDirLayout
  | _, [] => none
  | es, name :: rest =>
      match lookup es name with
      | none => none
      | some d =>
          if rest = [] then some d
          else
            match insideOf v img d with
            | none => none
            | some inner => resolve v img inner rest

/-- The entries behind which the names go on. -/
def passed (v : Volume) (img : Bytes) : List FatDirLayout → List Text → List FatDirLayout
  | _, [] => []
  | es, name :: rest =>
      match lookup es name with
      | none => []
      | some d =>
          if rest = [] then []
          else d :: match insideOf v img d with
            | none => []
            | some inner => passed v img inner rest

def rootEntries (v : Volume) : List FatDirLayout :=
  entriesFrom v.rootDir 0 v.boot.rootEntryCount.toNat

/-- A search for the first of the names ends inside the array. -/
def SearchEnds (block : Bytes) (n : ℕ) (names : List Text) : Prop :=
  entrySize * n ≤ block.length ∨ ∃ name ∈ names.head?, HasName block name n

section Entries
variable {block : Bytes} {n i : ℕ} {name : Text} {e : FatDirLayout}

theorem answers_iff : Answers e name ↔ matchesTerm e name := by
  have h₀ (h : matchesTerm e name) : e.nameHead ≠ 0 := nameHead_ne_zero_of_matchesTerm h
  simp only [matchesTerm, Bool.or_eq_true, Bool.and_eq_true, beq_iff_eq, bne_iff_ne, ne_eq,
    Bool.not_eq_true', and_assoc] at h₀ ⊢
  exact ⟨fun h => h.2, fun h => ⟨h₀ h, h⟩⟩

/-- What a search that comes to its end returns. -/
theorem searchFrom_eq {r : Option FatDirLayout} (h : searchFrom block name n i = .ok r) :
    r = lookup (entriesFrom block i n) name := by
  induction n generalizing i with
  | zero =>
      rw [searchFrom, Except.ok.injEq] at h
      exact h.symm
  | succ n ih =>
      rw [searchFrom, bind_eq_ok] at h
      obtain ⟨e, he, h⟩ := h
      rw [entriesFrom_succ he, lookup]
      split_ifs at h with hm
      · rw [List.find?_cons_of_pos (by simpa using answers_iff.mpr hm), Except.ok.inj h]
      · rw [List.find?_cons_of_neg (by simpa using mt answers_iff.mp hm)]
        exact ih h

theorem search_eq_lookup {r : Option FatDirLayout} (h : search block name n = .ok r) :
    r = lookup (entriesFrom block 0 n) name :=
  searchFrom_eq h

end Entries

/-- 32 bits hold the number of bytes of the directory. -/
def Counted (v : Volume) (d : FatDirLayout) : Prop :=
  isDirectory d.attr → ∀ l, v.Chain (v.firstCluster d) l → l.length * clusterBytes v.boot < 2 ^ 32

/-- The directory has `2 ^ 32` bytes, which 32 bits count as none. -/
def JustOver (v : Volume) (d : FatDirLayout) : Prop :=
  isDirectory d.attr ∧ ∃ l, v.Chain (v.firstCluster d) l ∧ l.length * clusterBytes v.boot = 2 ^ 32

section Opening
variable (fill : ℕ → UInt8) {v : Volume} {img : Bytes} {d : FatDirLayout} {l : List ℕ}

variable {fill} in
theorem lt_of_parseDir {r : Option (Bytes × ℕ)} (hd : entrySize ∣ clusterBytes v.boot)
    (hpos : 0 < clusterBytes v.boot) (hdir : isDirectory d.attr)
    (hl : v.Chain (v.firstCluster d) l) (hin : ∀ c ∈ l, InImage v img c)
    (hr : parseDir fill v img d = .ok r) : l.length * clusterBytes v.boot < 2 ^ 32 ∨
      l.length * clusterBytes v.boot = 2 ^ 32 ∧ r = none := by
  rcases of_parseDir hdir hl hpos hd hin hr with ⟨-, -, hlt⟩ | ⟨rfl, rfl | heq⟩
  · exact .inl hlt
  · rw [List.length_nil, Nat.zero_mul]
    exact .inl (by norm_num)
  · exact .inr ⟨heq, rfl⟩

/-- The array of a directory of `2 ^ 32` bytes is given back at its last cluster. -/
theorem parseDir_of_full (hd : entrySize ∣ clusterBytes v.boot) (hpos : 0 < clusterBytes v.boot)
    (hdir : isDirectory d.attr) (hl : v.Chain (v.firstCluster d) l)
    (hin : ∀ c ∈ l, InImage v img c) (hfull : l.length * clusterBytes v.boot = 2 ^ 32) :
    parseDir fill v img d = .ok none := by
  have hne : l ≠ [] := by
    rintro rfl
    rw [List.length_nil, Nat.zero_mul] at hfull
    norm_num at hfull
  obtain ⟨p, c, rfl⟩ := (List.eq_nil_or_concat' l).resolve_left hne
  rw [List.length_append, List.length_singleton] at hfull
  have hfold : ∃ s, p.foldlM (readCluster fill v img) ⟨none, 0, 1⟩ = .ok s ∧
      s = gathered v img p := by
    apply foldlM_total (I := fun q s => s = gathered v img q)
    · simp [gathered]
    · rintro q x rest s rfl rfl
      refine ⟨_, ?_, rfl⟩
      refine readCluster_gathered fill hpos hd (fun y hy => hin y (by simp [hy]))
        (hin x (by simp)) ?_
      refine lt_of_lt_of_eq (Nat.mul_lt_mul_of_pos_right ?_ hpos) hfull
      simp only [List.length_append, List.length_cons]
      omega
  obtain ⟨s, hs, rfl⟩ := hfold
  rw [parseDir_def, if_pos hdir, v.along_of_chain hl, List.foldlM_append, hs, ok_bind,
    List.foldlM_cons, readCluster_gathered_of_le fill hpos hd (hin c (by simp)) hfull.ge, hfull]
  rfl

theorem insideOf_eq (hd : entrySize ∣ clusterBytes v.boot) (hdir : isDirectory d.attr)
    (hl : v.Chain (v.firstCluster d) l) (hin : ∀ c ∈ l, InImage v img c) :
    insideOf v img d = if l = [] then none else
      some (entriesFrom (contents v img l) 0 (l.length * (clusterBytes v.boot / entrySize))) := by
  rw [insideOf, if_pos hdir, v.clusters_eq_ok_iff.mpr hl]
  cases l with
  | nil => rfl
  | cons c l =>
      simp only [length_contents hin, Nat.mul_div_assoc _ hd, List.cons_ne_nil, if_false]

/-- What a directory opens is what the reference finds inside. -/
theorem parseDir_insideOf (hd : entrySize ∣ clusterBytes v.boot)
    (hpos : 0 < clusterBytes v.boot)
    (hfin : isDirectory d.attr → ∃ l, v.Chain (v.firstCluster d) l ∧ ∀ c ∈ l, InImage v img c)
    (hcount : Counted v d) :
    parseDir fill v img d = .ok none ∧ insideOf v img d = none ∨
      ∃ block n, parseDir fill v img d = .ok (some (block, n)) ∧
        insideOf v img d = some (entriesFrom block 0 n) ∧ entrySize * n ≤ block.length := by
  by_cases hdir : isDirectory d.attr
  · obtain ⟨l, hl, hin⟩ := hfin hdir
    have hinside := insideOf_eq hd hdir hl hin
    by_cases hne : l = []
    · refine .inl ⟨?_, by rw [hinside, if_pos hne]⟩
      subst hne
      rw [parseDir_def, if_pos hdir, v.along_of_chain hl]
      rfl
    · refine .inr ⟨_, _, parseDir_eq fill hdir hl hne hpos hd hin (hcount hdir l hl), ?_, ?_⟩
      · rw [hinside, if_neg hne]
      · rw [length_contents hin, Nat.mul_left_comm, Nat.mul_div_cancel' hd]
  · refine .inl ⟨?_, ?_⟩
    · rw [parseDir_def, if_neg hdir]
    · rw [insideOf, if_neg hdir]

end Opening

section Finding
variable {fill : ℕ → UInt8} {v : Volume} {img block : Bytes} {n : ℕ} {name : Text}
variable {names rest : List Text} {es : List FatDirLayout} {d f : FatDirLayout} {path : Text}

/-- The directories behind which the names go on have finite chains of clusters in the
image. -/
def Finite (v : Volume) (img : Bytes) (es : List FatDirLayout) (names : List Text) : Prop :=
  ∀ d ∈ passed v img es names, isDirectory d.attr →
    ∃ l, v.Chain (v.firstCluster d) l ∧ ∀ c ∈ l, InImage v img c

/-- 32 bits hold the number of bytes of each of these directories. Or the first of which they do
not has `2 ^ 32` bytes, and the names lead nowhere. -/
def Readable (v : Volume) (img : Bytes) (es : List FatDirLayout) (names : List Text) : Prop :=
  (∀ d ∈ passed v img es names, Counted v d) ∨
    resolve v img es names = none ∧ ∃ front d back, passed v img es names = front ++ d :: back ∧
      (∀ e ∈ front, Counted v e) ∧ JustOver v d

theorem resolve_cons (h : lookup es name = some d) (hr : rest ≠ []) :
    resolve v img es (name :: rest) =
      (insideOf v img d).elim none fun inner => resolve v img inner rest := by
  simp only [resolve, h, if_neg hr]
  cases insideOf v img d <;> rfl

theorem passed_cons (h : lookup es name = some d) (hr : rest ≠ []) :
    passed v img es (name :: rest) =
      d :: (insideOf v img d).elim [] fun inner => passed v img inner rest := by
  simp only [passed, h, if_neg hr]
  cases insideOf v img d <;> rfl

theorem passed_eq_nil (h : lookup es name = none ∨ rest = []) :
    passed v img es (name :: rest) = [] := by
  rcases h with h | rfl
  · simp only [passed, h]
  · simp only [passed, if_true]
    cases lookup es name <;> rfl

/-- The search for the first name returns exactly when it ends inside the array. -/
theorem searchEnds_iff : SearchEnds block n (name :: rest) ↔
    ∃ r, search block name n = .ok r := by
  rw [search_returns_iff, SearchEnds, or_comm]
  simp

theorem readable_cons {inner : List FatDirLayout} (h : lookup es name = some d) (hr : rest ≠ [])
    (hin : insideOf v img d = some inner) (hcount : Counted v d) :
    Readable v img es (name :: rest) ↔ Readable v img inner rest := by
  rw [Readable, Readable, passed_cons h hr, resolve_cons h hr, hin]
  simp only [Option.elim, List.forall_mem_cons, hcount, true_and]
  refine or_congr_right (and_congr_right fun _ => ?_)
  constructor
  · rintro ⟨front, e, back, he, hfront, hover⟩
    cases front with
    | nil =>
        obtain ⟨rfl, -⟩ := List.cons.inj he
        obtain ⟨hdir, l, hl, heq⟩ := hover
        exact absurd (hcount hdir l hl) heq.not_lt
    | cons x front =>
        exact ⟨front, e, back, (List.cons.inj he).2, fun y hy => hfront y (by simp [hy]), hover⟩
  · rintro ⟨front, e, back, he, hfront, hover⟩
    refine ⟨d :: front, e, back, by rw [he]; rfl, fun x hx => ?_, hover⟩
    rcases List.mem_cons.mp hx with rfl | hx
    · exact hcount
    · exact hfront x hx

/-- Behind a directory that is too large nothing is found. -/
theorem readable_of_not_counted (h : lookup es name = some d) (hr : rest ≠ [])
    (hcount : ¬ Counted v d) : Readable v img es (name :: rest) ↔
      resolve v img es (name :: rest) = none ∧ JustOver v d := by
  rw [Readable, passed_cons h hr]
  constructor
  · rintro (hall | ⟨hnone, front, e, back, he, hfront, hover⟩)
    · exact absurd (hall d (by simp)) hcount
    · cases front with
      | nil => exact ⟨hnone, (List.cons.inj he).1 ▸ hover⟩
      | cons x front =>
          obtain ⟨rfl, -⟩ := List.cons.inj he
          exact absurd (hfront d (by simp)) hcount
  · rintro ⟨hnone, hover⟩
    exact .inr ⟨hnone, [], d, _, rfl, by simp, hover⟩

/-- The loop of `find` agrees with the reference. -/
theorem findLoop_resolves_iff (hd : entrySize ∣ clusterBytes v.boot)
    (hpos : 0 < clusterBytes v.boot) (hn : names ≠ [])
    (hfin : Finite v img (entriesFrom block 0 n) names) :
    findLoop fill v img f block n names = .ok (resolve v img (entriesFrom block 0 n) names) ↔
      SearchEnds block n names ∧ Readable v img (entriesFrom block 0 n) names := by
  induction names generalizing f block n with
  | nil => exact absurd rfl hn
  | cons name rest ih =>
      by_cases hends : SearchEnds block n (name :: rest)
      swap
      · refine iff_of_false (fun h => hends ?_) fun h => hends h.1
        obtain ⟨r, hr, -⟩ := bind_eq_ok.mp h
        exact searchEnds_iff.mpr ⟨r, hr⟩
      obtain ⟨r, hr⟩ := searchEnds_iff.mp hends
      have hlook := search_eq_lookup hr
      rw [findLoop, hr, ok_bind]
      cases r with
      | none =>
          refine iff_of_true ?_ ⟨hends, .inl ?_⟩
          · rw [resolve, ← hlook]
          · simp [passed_eq_nil (.inl hlook.symm)]
      | some d =>
          by_cases hrest : rest = []
          · refine iff_of_true ?_ ⟨hends, .inl ?_⟩
            · rw [resolve, ← hlook]
              simp only [if_pos hrest]
            · simp [passed_eq_nil (.inr hrest)]
          simp only [if_neg hrest]
          rw [Finite, passed_cons hlook.symm hrest] at hfin
          by_cases hcount : Counted v d
          · rcases parseDir_insideOf fill hd hpos (hfin d (by simp)) hcount with
              ⟨hp, hin⟩ | ⟨inner, m, hp, hin, hle⟩
            · rw [hp, resolve_cons hlook.symm hrest, hin]
              refine iff_of_true rfl ⟨hends, .inl ?_⟩
              rw [passed_cons hlook.symm hrest, hin]
              simpa using hcount
            · rw [hin] at hfin
              have hinner : Finite v img (entriesFrom inner 0 m) rest := fun e he =>
                hfin e (List.mem_cons_of_mem _ he)
              rw [hp, ok_bind, resolve_cons hlook.symm hrest, hin,
                readable_cons hlook.symm hrest hin hcount]
              exact (ih hrest hinner).trans ⟨fun h => ⟨hends, h.2⟩, fun h => ⟨.inl hle, h.2⟩⟩
          · rw [readable_of_not_counted hlook.symm hrest hcount]
            constructor
            · intro h
              refine ⟨hends, ?_⟩
              simp only [Counted, not_forall] at hcount
              obtain ⟨hdir, l, hl, hlt⟩ := hcount
              obtain ⟨l', hl', hin⟩ := hfin d (by simp) hdir
              obtain rfl := hl.unique hl'
              obtain ⟨r, hr, h⟩ := bind_eq_ok.mp h
              obtain ⟨hfull, rfl⟩ := (lt_of_parseDir hd hpos hdir hl hin hr).resolve_left hlt
              exact ⟨(Except.ok.inj h).symm, hdir, l, hl, hfull⟩
            · rintro ⟨-, hnone, hdir, l, hl, hfull⟩
              obtain ⟨l', hl', hin⟩ := hfin d (by simp) hdir
              obtain rfl := hl.unique hl'
              rw [parseDir_of_full fill hd hpos hdir hl hin hfull, hnone]
              rfl

/-- `find` returns what the reference resolver returns, and nothing where that fails,
exactly when the search of `root_dir` ends inside its block and 32 bits hold the number
of bytes of each directory that the path goes through, or the first one of which they do
not has `2 ^ 32` bytes, and is taken for a directory without clusters on a path that leads
nowhere. -/
theorem find_resolves_iff (fill : ℕ → UInt8) (f : FatDirLayout)
    (hd : entrySize ∣ clusterBytes v.boot) (hpos : 0 < clusterBytes v.boot)
    (hn : components path ≠ []) (hfin : Finite v img (rootEntries v) (components path)) :
    find fill v img f path = .ok (resolve v img (rootEntries v) (components path)) ↔
      SearchEnds v.rootDir v.boot.rootEntryCount.toNat (components path) ∧
        Readable v img (rootEntries v) (components path) :=
  findLoop_resolves_iff hd hpos hn hfin

end Finding

section Words
variable {g : ℕ → ℕ} {i n : ℕ}

def tableOf (g : ℕ → ℕ) (n : ℕ) : Bytes := (List.range n).flatMap fun i => encode 4 (g i)

theorem tableOf_succ : tableOf g (n + 1) = tableOf g n ++ encode 4 (g n) := by
  rw [tableOf, List.range_succ, List.flatMap_append, List.flatMap_singleton]
  rfl

theorem length_tableOf : (tableOf g n).length = 4 * n := by
  induction n with
  | zero => rfl
  | succ n ih => rw [tableOf_succ, List.length_append, ih, length_encode, Nat.mul_succ]

theorem cell_tableOf (h : i < n) : cell 4 (tableOf g n) i = g i % 2 ^ 32 := by
  induction n with
  | zero => exact absurd h (Nat.not_lt_zero i)
  | succ n ih =>
      rw [cell, tableOf_succ]
      rcases Nat.lt_succ_iff_lt_or_eq.mp h with hi | rfl
      · rw [slice_append_left (by rw [length_tableOf]; omega)]
        exact ih hi
      · have hs := slice_append_right (tableOf g i) (encode 4 (g i)) 0 4
        have hw := slice_zero_length (encode 4 (g i))
        rw [length_tableOf, Nat.add_zero] at hs
        rw [length_encode] at hw
        rw [hs, hw, value_encode]
        norm_num

end Words

section Wide

/-- Cluster 2 ends a chain, and so does the chain of 131072 clusters from cluster 3 on. -/
def wideLinks (i : ℕ) : ℕ :=
  if i < 3 ∨ i = 131074 then 0x0FFFFFFF else if i < 131074 then i + 1 else 0

def wideTable : Bytes := tableOf wideLinks 131200

def wideSector : Bytes :=
  FatBS.toBytes ⟨512, 64, 1, 2, 0, 0, 0xF8, 0, 8390723⟩ ++
    (encode 4 1025 ++ encode 4 0 ++ encode 4 2 ++ List.replicate 464 0)

def wideRest : ℕ := 131072 * 32768 - 32

def wideSub : Bytes := dirA.bytes ++ List.replicate wideRest 0

def wideData : Bytes := (subDir 3).bytes ++ (List.replicate 32736 0 ++ wideSub)

/-- A FAT32 image with a directory `SUB` of 4 GiB that has an entry `A`. -/
def wideImage : Bytes := wideSector ++ (wideTable ++ (wideTable ++ wideData))

theorem length_wideTable : wideTable.length = 524800 := length_tableOf

theorem length_wideSector : wideSector.length = 512 := by
  simp only [wideSector, List.length_append, FatBS.length_toBytes, FatBS.size, length_encode,
    List.length_replicate]

theorem length_wideSub : wideSub.length = 131072 * 32768 := by
  rw [wideSub, List.length_append, List.length_replicate, FatDirLayout.length_bytes, wideRest,
    entrySize]

theorem length_wideData : wideData.length = 131073 * 32768 := by
  rw [wideData, List.length_append, List.length_append, List.length_replicate, length_wideSub,
    FatDirLayout.length_bytes, entrySize]

theorem length_wideImage : wideImage.length = 512 + (524800 + (524800 + 131073 * 32768)) := by
  rw [wideImage, List.length_append, List.length_append, List.length_append, length_wideSector,
    length_wideTable, length_wideData]

theorem storedBoot_wideImage :
    storedBoot wideImage = ⟨512, 64, 1, 2, 0, 0, 0xF8, 0, 8390723⟩ := by
  rw [storedBoot, wideImage, slice_append_left (by rw [length_wideSector, FatBS.size]; norm_num)]
  decide

theorem storedExt_wideImage : storedExt wideImage = ⟨1025, 2, 0, List.replicate 11 0⟩ := by
  rw [storedExt, wideImage, slice_append_left
    (by rw [length_wideSector, FatBS.size, FatExtBS32.size])]
  decide

theorem tableSpan_wideImage : tableSpan wideImage = 524800 := by
  rw [tableSpan, storedBoot_wideImage, storedExt_wideImage]
  rfl

theorem reservedBytes_wideImage : reservedBytes (storedBoot wideImage) = 512 := by
  rw [storedBoot_wideImage]
  rfl

theorem fatTable_wideImage : (onDisk wideImage).fatTable = wideTable := by
  have h := slice_append_middle wideSector wideTable (wideTable ++ wideData)
  rw [length_wideSector, length_wideTable] at h
  simp only [onDisk, reservedBytes_wideImage, tableSpan_wideImage]
  exact h

theorem fatTable_mounted : (mounted32 wideImage).fatTable = wideTable := by
  rw [mounted32, fatTable_wideImage]

theorem wideImage_image : Fat32Layout wideImage := by
  have hb := storedBoot_wideImage
  have ht := tableSpan_wideImage
  have hr := reservedBytes_wideImage
  constructor
  · rw [hb]
    decide
  · rw [hb]
    decide
  · rw [hb]
  · rw [length_wideImage, FatBS.size, FatExtBS32.size]
    norm_num
  · rw [ht]
    norm_num
  · rw [tablesEnd, hr, ht, hb, length_wideImage]
    change 512 + 2 * 524800 ≤ _
    norm_num
  · rw [hb]
    decide

theorem rootCluster_wideImage : rootCluster wideImage = 2 := by
  rw [rootCluster, storedExt_wideImage]
  rfl

theorem nextCluster_wide {v : Volume} (hn : v.fatn = .fat32) (ht : v.fatTable = wideTable) {c : ℕ}
    (hc : c < 131200) : v.nextCluster c = .ok (Fatn.fat32.link (wideLinks c % 2 ^ 32)) := by
  rw [v.nextCluster_ok_iff, hn, ht]
  change HasCell 4 wideTable c ∧ _ = Fatn.fat32.link (cell 4 wideTable c)
  rw [HasCell, length_wideTable, wideTable, cell_tableOf hc]
  exact ⟨by omega, rfl⟩

theorem wide_chain {v : Volume} (hn : v.fatn = .fat32) (ht : v.fatTable = wideTable) {c m : ℕ}
    (hc : 3 ≤ c) (hm : c + m = 131074) : v.Chain c (List.range' c (m + 1)) := by
  induction m generalizing c with
  | zero =>
      obtain rfl : c = 131074 := hm
      exact .step (by norm_num) (nextCluster_wide hn ht (by norm_num)) .stop
  | succ m ih =>
      have hnext := nextCluster_wide hn ht (show c < 131200 by omega)
      have hlink : wideLinks c = c + 1 := by
        rw [wideLinks, if_neg (by omega), if_pos (by omega)]
      have hmod : Fatn.fat32.link ((c + 1) % 2 ^ 32) = c + 1 := by
        rw [Fatn.link, Nat.mod_eq_of_lt (show c + 1 < 2 ^ 32 by omega),
          Nat.mod_eq_of_lt (show c + 1 < Fatn.fat32.span by rw [Fatn.span]; omega),
          if_neg (by rw [Fatn.limit]; omega)]
      rw [hlink, hmod] at hnext
      exact .step (by omega) hnext (ih (by omega) (by omega))

theorem slice_behind (a b c d : Bytes) (k n : ℕ) :
    slice (a ++ (b ++ (c ++ d))) (a.length + b.length + c.length + k) n = slice d k n := by
  have hs := slice_append_right (a ++ b ++ c) d k n
  rwa [List.length_append, List.length_append, List.append_assoc, List.append_assoc] at hs

theorem entryAt_zero_append (e : FatDirLayout) (rest : Bytes) {n : ℕ} (hn : entrySize ≤ n) :
    entryAt (slice (e.bytes ++ rest) 0 n) 0 = .ok e := by
  have hlen : (slice (e.bytes ++ rest) 0 n).length = min n (e.bytes ++ rest).length := by
    rw [length_slice, Nat.sub_zero]
  rw [entryAt_eq_ok_iff, hlen, Nat.mul_zero, Nat.zero_add, slice_slice _ _ _ _ _ (by omega),
    Nat.zero_add, slice_append_left (by rw [FatDirLayout.length_bytes, Nat.zero_add])]
  refine ⟨le_min hn ?_, ?_⟩
  · rw [List.length_append, FatDirLayout.length_bytes]
    exact Nat.le_add_right _ _
  · rw [← e.length_bytes, slice_zero_length]

theorem readStart_wideImage : readStart wideImage = 1050112 := by
  rw [readStart, reservedBytes_wideImage, tableSpan_wideImage, storedBoot_wideImage]
  rfl

theorem clusterBytes_wideImage : clusterBytes (storedBoot wideImage) = 32768 := by
  rw [storedBoot_wideImage]
  rfl

theorem rootMove_wideImage : rootMove (storedBoot wideImage) (rootCluster wideImage) = 0 := by
  rw [storedBoot_wideImage, rootCluster_wideImage]
  rfl

theorem rootDir_wideImage : (mounted32 wideImage).rootDir = slice wideData 0 32768 := by
  have hs := slice_behind wideSector wideTable wideTable wideData 0 32768
  rw [length_wideSector, length_wideTable, ← wideImage] at hs
  rw [mounted32]
  simp only
  rw [readStart_wideImage, rootMove_wideImage, clusterBytes_wideImage, ← hs]

theorem wideImage_mounted (fill : ℕ → UInt8) :
    initFat fill wideImage = .ok (mounted32 wideImage) := by
  apply wideImage_image.initFat_single
  · have hnext := nextCluster_wide (v := onDisk wideImage) rfl fatTable_wideImage
      (show 2 < 131200 by norm_num)
    rw [rootCluster_wideImage]
    exact .step (by norm_num) hnext .stop
  · rw [readStart_wideImage, rootMove_wideImage, clusterBytes_wideImage, length_wideImage]
    norm_num

theorem wide_search (t : Text) (ht : matchesTerm (subDir 3) t) :
    search (mounted32 wideImage).rootDir t (mounted32 wideImage).boot.rootEntryCount.toNat =
      .ok (some (subDir 3)) := by
  have hcount : (mounted32 wideImage).boot.rootEntryCount.toNat = 1023 + 1 := by
    change (UInt16.ofNat (clusterBytes (storedBoot wideImage) / entrySize)).toNat = _
    rw [clusterBytes_wideImage]
    rfl
  have hfirst : entryAt (slice wideData 0 32768) 0 = .ok (subDir 3) :=
    entryAt_zero_append _ _ (by norm_num [entrySize])
  rw [hcount, rootDir_wideImage, search, searchFrom, hfirst, ok_bind, if_pos ht]

theorem wide_dir_chain : (mounted32 wideImage).Chain
    ((mounted32 wideImage).firstCluster (subDir 3)) (List.range' 3 131072) := by
  have hfirst : (mounted32 wideImage).firstCluster (subDir 3) = 3 := by
    change FatDirLayout.firstClusterHigh _ <<< 16 ||| FatDirLayout.firstClusterLow _ = 3
    decide
  have hchain := wide_chain (v := mounted32 wideImage) (c := 3) (m := 131071) rfl
    fatTable_mounted le_rfl (by norm_num)
  rw [hfirst]
  exact hchain

theorem wide_inImage (c : ℕ) :
    InImage (mounted32 wideImage) wideImage c := by
  have hoff : (mounted32 wideImage).clusterToSector c =
      clusterBytes (storedBoot wideImage) * sub32 c 2 % 2 ^ 32 + readStart wideImage := rfl
  have hmod := Nat.mod_lt (32768 * sub32 c 2) (show 0 < 2 ^ 32 by norm_num)
  rw [clusterBytes_wideImage, readStart_wideImage] at hoff
  change (mounted32 wideImage).clusterToSector c + clusterBytes (storedBoot wideImage) ≤
    wideImage.length
  rw [hoff, clusterBytes_wideImage, length_wideImage]
  omega

theorem wide_first : entryAt (contents (mounted32 wideImage) wideImage (List.range' 3 131072)) 0 =
    .ok dirA := by
  have hoff : (mounted32 wideImage).clusterToSector 3 = 512 + 524800 + 524800 + 32768 := by
    have hmul : clusterBytes (storedBoot wideImage) * sub32 3 2 % 2 ^ 32 + readStart wideImage =
        512 + 524800 + 524800 + 32768 := by
      rw [clusterBytes_wideImage, readStart_wideImage]
      rfl
    exact hmul
  have hcluster : cluster (mounted32 wideImage) wideImage 3 = slice wideSub 0 32768 := by
    have hs := slice_behind wideSector wideTable wideTable wideData 32768 32768
    have hsub := slice_append_right ((subDir 3).bytes ++ List.replicate 32736 0) wideSub 0 32768
    rw [length_wideSector, length_wideTable, ← wideImage, ← hoff] at hs
    rw [List.length_append, List.length_replicate, FatDirLayout.length_bytes,
      List.append_assoc] at hsub
    have hsize : clusterBytes (mounted32 wideImage).boot = 32768 := clusterBytes_wideImage
    rw [cluster, Volume.clusterSpan, hsize, hs, wideData]
    exact hsub
  have hsplit : contents (mounted32 wideImage) wideImage (List.range' 3 131072) =
      cluster (mounted32 wideImage) wideImage 3 ++
        contents (mounted32 wideImage) wideImage (List.range' 4 131071) := by
    rw [contents, contents, List.range'_succ, List.flatMap_cons]
  have hfirst : entryAt (slice wideSub 0 32768) 0 = .ok dirA :=
    entryAt_zero_append _ _ (by norm_num [entrySize])
  obtain ⟨hle, hbytes⟩ := entryAt_eq_ok_iff.mp hfirst
  rw [hsplit, hcluster, entryAt_eq_ok_iff, List.length_append, slice_append_left hle]
  exact ⟨hle.trans (Nat.le_add_right _ _), hbytes⟩

/-- The path `/SUB/A` leads to the entry `A`, but `find` takes the directory of 4 GiB for one
without clusters. -/
theorem find_wide_not_resolved : ∃ v, initFat (fun _ => 0) wideImage = .ok v ∧
    Finite v wideImage (rootEntries v) (components [slash, 0x53, 0x55, 0x42, slash, 0x41]) ∧
    resolve v wideImage (rootEntries v) (components [slash, 0x53, 0x55, 0x42, slash, 0x41]) =
      some dirA ∧
    find (fun _ => 0) v wideImage (subDir 3) [slash, 0x53, 0x55, 0x42, slash, 0x41] =
      .ok none := by
  have hcomp : components [slash, 0x53, 0x55, 0x42, slash, 0x41] =
      [[0x53, 0x55, 0x42], [0x41]] := by decide
  have hsearch := wide_search [0x53, 0x55, 0x42] (by decide)
  have hlook := search_eq_lookup hsearch
  have hsize : clusterBytes (mounted32 wideImage).boot = 32768 := clusterBytes_wideImage
  have hd : entrySize ∣ clusterBytes (mounted32 wideImage).boot := by
    rw [hsize]
    norm_num [entrySize]
  have hdir : isDirectory (subDir 3).attr := by decide
  have hin : ∀ c ∈ List.range' 3 131072, InImage (mounted32 wideImage) wideImage c :=
    fun c _ => wide_inImage c
  have hinside := insideOf_eq hd hdir wide_dir_chain hin
  have hinner : lookup (entriesFrom (contents (mounted32 wideImage) wideImage
      (List.range' 3 131072)) 0 (134217727 + 1)) [0x41] = some dirA := by
    rw [entriesFrom_succ wide_first, lookup, List.find?_cons_of_pos (by decide)]
  rw [if_neg (by simp), List.length_range', hsize,
    show 131072 * (32768 / entrySize) = 134217727 + 1 by norm_num [entrySize]] at hinside
  refine ⟨_, wideImage_mounted _, ?_, ?_, ?_⟩
  · rw [hcomp, Finite, rootEntries, passed_cons hlook.symm (by simp), hinside, Option.elim,
      passed_eq_nil (.inr rfl)]
    intro d hd _
    obtain rfl := List.mem_singleton.mp hd
    exact ⟨_, wide_dir_chain, hin⟩
  · rw [hcomp, rootEntries, resolve_cons hlook.symm (by simp), hinside, Option.elim, resolve]
    simp only [hinner, if_true]
  · rw [find, hcomp, findLoop, hsearch, ok_bind]
    simp only [if_neg (show [[(0x41 : UInt8)]] ≠ [] by simp)]
    have hfull : (List.range' 3 131072).length * clusterBytes (mounted32 wideImage).boot =
        2 ^ 32 := by
      rw [hsize, List.length_range']
      norm_num
    rw [parseDir_of_full _ hd (by rw [hsize]; norm_num) hdir wide_dir_chain hin hfull]
    rfl

end Wide

/-- `find` on `/A/.` gives the entry `.` of the directory `A`. -/
theorem find_dot_resolved :
    find (fun _ => 0) dotVolume dotImage dirA [slash, 0x41, slash, dot] = .ok (some dotOfA) := by
  have h : passed dotVolume dotImage (rootEntries dotVolume) [[0x41], [dot]] = [dirA] ∧
      resolve dotVolume dotImage (rootEntries dotVolume) [[0x41], [dot]] = some dotOfA ∧
      entrySize * dotVolume.boot.rootEntryCount.toNat ≤ dotVolume.rootDir.length ∧
      (dotVolume.clusterSpan 2).off + (dotVolume.clusterSpan 2).len ≤ dotImage.length := by
    decide +kernel
  obtain ⟨hpassed, hresolve, hroot, hin⟩ := h
  have hcomp : components [slash, 0x41, slash, dot] = [[0x41], [dot]] := by decide
  have hfin : Finite dotVolume dotImage (rootEntries dotVolume)
      (components [slash, 0x41, slash, dot]) := by
    rw [hcomp, Finite, hpassed]
    intro d hd _
    rw [List.mem_singleton.mp hd]
    refine ⟨[2], dotVolume_chain, fun c hc => ?_⟩
    rw [List.mem_singleton.mp hc]
    exact hin
  have hresult := (find_resolves_iff (fun _ => 0) dirA
    (show entrySize ∣ clusterBytes dotVolume.boot by decide) (by decide)
    (show components [slash, 0x41, slash, dot] ≠ [] by decide) hfin).mpr ⟨.inl hroot, ?_⟩
  · rw [hresult, hcomp, hresolve]
  · rw [hcomp, Readable, hpassed]
    refine .inl fun d hd _ l hl => ?_
    rw [List.mem_singleton.mp hd] at hl
    rw [hl.unique dotVolume_chain]
    decide

end TFAT.PathLookup
