import TFAT.UndeleteSafety

/-!
# Paths that lead nowhere

`undelete` looks at the result of `find` before it goes on. `delete` first opens the
directory of the path above, and uses what `find` returns for that path without a look
at it. So `delete` reports a missing file only where the path above leads to an entry.
-/
namespace TFAT.UnresolvedPaths
open ByteRegions LittleEndianWords DiskLayout ClusterTable DirectoryIO PathText PathResolution
open UserCommands Fat16Flush MarkedTree DeleteSafety UndeleteSafety

variable {fill : ℕ → UInt8} {s : Session} {fresh freshParent f : FatDirLayout} {dir : Text}

/-- The path above the path of `delete` is that of the root directory or leads to an entry.
A path of several slashes leads to the block that `find` has allocated, and then `parse_dir`
has to return on what that block holds. -/
def ParentFound (fill : ℕ → UInt8) (s : Session) (freshParent : FatDirLayout) (dir : Text) :
    Prop :=
  let pndir := getParentPath (deletePath s dir)
  pndir = [slash] ∨ (∃ p, find fill s.volume s.image freshParent pndir = .ok (some p)) ∧
    (components pndir = [] → ∃ r, parseDir fill s.volume s.image freshParent = .ok r)

section Lookup
variable {v : Volume} {img dir' : Bytes} {size : ℕ} {names : List Text} {name : Text}
variable {p : FatDirLayout}

/-- A search that ends behind some names has opened the array of the entry that they lead
to. -/
theorem exists_parseDir_of_findLoop {r : Option FatDirLayout} (hn : names ≠ [])
    (hp : findLoop fill v img f dir' size names = .ok (some p))
    (h : findLoop fill v img f dir' size (names ++ [name]) = .ok r) :
    ∃ q, parseDir fill v img p = .ok q := by
  induction names generalizing f dir' size with
  | nil => exact absurd rfl hn
  | cons first rest ih =>
      rw [findLoop, bind_eq_ok] at hp
      obtain ⟨found, hfound, hp⟩ := hp
      rw [List.cons_append, findLoop, hfound, ok_bind] at h
      cases found with
      | none => cases hp
      | some tmp =>
          simp only [List.append_eq_nil_iff, List.cons_ne_nil, and_false, if_false] at h
          obtain ⟨q, hq, h⟩ := bind_eq_ok.mp h
          simp only at hp
          split_ifs at hp with hrest
          · rw [Except.ok.injEq, Option.some.injEq] at hp
            exact ⟨q, hp ▸ hq⟩
          · rw [hq, ok_bind] at hp
            cases q with
            | none => cases hp
            | some q => exact ih hrest hp h

end Lookup

/-- Where `find` comes to the end of a path and finds nothing, the entry above opens. -/
theorem exists_parseDir_above {path : Text} {p : FatDirLayout}
    (hn : components (getParentPath path) ≠ []) (hroot : getParentPath path ≠ [slash])
    (hfind : find fill s.volume s.image fresh path = .ok none)
    (hp : find fill s.volume s.image freshParent (getParentPath path) = .ok (some p)) :
    ∃ q, parseDir fill s.volume s.image p = .ok q := by
  rw [find_congr freshParent fresh hn] at hp
  rcases components_above hroot with he | ⟨name, he⟩
  · rw [find, he] at hfind
    rw [find, hfind] at hp
    cases hp
  · rw [find, he] at hfind
    exact exists_parseDir_of_findLoop hn hp hfind

/-- The directory above a path that leads nowhere opens exactly when its path is followed
to an entry. -/
theorem openParent_returns_iff
    (h : find fill s.volume s.image fresh (deletePath s dir) = .ok none) :
    (∃ r, openParent fill s freshParent (getParentPath (deletePath s dir)) = .ok r) ↔
      ParentFound fill s freshParent dir := by
  unfold ParentFound
  constructor
  · rintro ⟨⟨parent, folder, size⟩, ho⟩
    rcases of_openParent ho with ⟨hr, -⟩ | ⟨-, p, hp, -, hq⟩
    · exact .inl hr
    · refine .inr ⟨⟨p, hp⟩, fun hn => ?_⟩
      rw [find_of_components_eq_nil freshParent hn, Except.ok.injEq, Option.some.injEq] at hp
      rw [hp]
      exact hq.elim (fun hq => ⟨_, hq⟩) fun hq => parseDir_returns_iff.mpr ⟨_, hq.1⟩
  · intro hpar
    unfold openParent
    split_ifs with hroot
    · exact ⟨_, rfl⟩
    · obtain ⟨⟨p, hp⟩, hnil⟩ := hpar.resolve_left hroot
      obtain ⟨q, hq⟩ : ∃ q, parseDir fill s.volume s.image p = .ok q := by
        by_cases hn : components (getParentPath (deletePath s dir)) = []
        · rw [find_of_components_eq_nil freshParent hn, Except.ok.injEq,
            Option.some.injEq] at hp
          exact hp ▸ hnil hn
        · exact exists_parseDir_above hn hroot h hp
      obtain ⟨r, hr⟩ := parseDir_returns_iff.mp ⟨q, hq⟩
      rw [hp, ok_bind]
      simp only [hr, ok_bind]
      exact ⟨_, rfl⟩

/-- Where `find` finds nothing, `undelete` reports the file and does nothing else, and
`delete` does so exactly when the path above is followed to an entry. -/
theorem unresolved_reported :
    (find fill s.volume s.image fresh (deletePath s dir) = .ok none →
      (delete fill s fresh freshParent dir = .ok (s, [.fileNotFound dir]) ↔
        ParentFound fill s freshParent dir)) ∧
    (find fill s.volume s.image fresh (undeletePath s dir) = .ok none →
      undelete fill s fresh freshParent dir = .ok (s, [.fileNotFound dir])) := by
  refine ⟨fun h => ?_, fun h => ?_⟩
  · rw [← openParent_returns_iff h]
    unfold delete
    change find fill s.volume s.image fresh (deletePath s dir) >>= _ = _ ↔ _
    rw [h, ok_bind]
    constructor
    · intro hd
      obtain ⟨r, hr, -⟩ := bind_eq_ok.mp hd
      exact ⟨r, hr⟩
    · rintro ⟨r, hr⟩
      exact bind_eq_ok.mpr ⟨r, hr, rfl⟩
  · unfold undelete
    change find fill s.volume s.image fresh (undeletePath s dir) >>= _ = _
    rw [h, ok_bind]

theorem lostSession_missing :
    find (fun _ => 0) lostSession.volume lostSession.image (fileT 0 0 0)
        (deletePath lostSession [0x58, slash, 0x59]) = .ok none ∧
      find (fun _ => 0) lostSession.volume lostSession.image (fileT 0 0 0)
        (getParentPath (deletePath lostSession [0x58, slash, 0x59])) = .ok none ∧
      find (fun _ => 0) lostSession.volume lostSession.image (fileT 0 0 0)
        (deletePath lostSession [0x58]) = .ok none := by
  decide +kernel

/-- `delete X/Y` uses a null pointer where it should report the file. -/
theorem delete_above_missing :
    mounted16 lostSession.image = lostSession.volume ∧
      find (fun _ => 0) lostSession.volume lostSession.image (fileT 0 0 0)
        (deletePath lostSession [0x58, slash, 0x59]) = .ok none ∧
      delete (fun _ => 0) lostSession (fileT 0 0 0) (fileT 0 0 0) [0x58, slash, 0x59] =
        .error .null := by
  obtain ⟨hfind, hparent, -⟩ := lostSession_missing
  refine ⟨lostSession_mounted, hfind, ?_⟩
  unfold delete
  change find _ _ _ _ (deletePath lostSession [0x58, slash, 0x59]) >>= (fun file =>
    openParent _ _ _ (getParentPath (deletePath lostSession [0x58, slash, 0x59])) >>= _) = _
  rw [hfind, ok_bind, openParent, if_neg (by decide), hparent, ok_bind, error_bind]

/-- `delete X` reports the file and leaves the session as it was. -/
theorem delete_missing_reported :
    delete (fun _ => 0) lostSession (fileT 0 0 0) (fileT 0 0 0) [0x58] =
      .ok (lostSession, [.fileNotFound [0x58]]) :=
  (unresolved_reported.1 lostSession_missing.2.2).mpr (.inl (by decide))

end TFAT.UnresolvedPaths
