import TFAT.LongNameParts
import TFAT.TableBlocks

/-!
# Where an access to a table can fail

An access outside the block of a table is a fault of its own. A command comes to it at the
indices of `Uses` only: if each of them has its cell in both tables, then whatever else
stops the command, it is no access to a table. So `Uses` leaves out no index that matters.
-/
namespace TFAT.OutsideFaults
open ByteRegions LittleEndianWords LinkedChains DiskLayout ClusterTable FileDescriptor VolumeMount
open DirectoryIO PathText EntryNames PathResolution LongNames LongNameParts UserCommands
open ShellCommands DeleteSafety UndeleteSafety TableAccesses TableBlocks

section Tables
variable {v w : Volume} {c x : ℕ}

theorem nextCluster_ne_error {e : Fault} (h : HasCells v (v.fatn.index c)) :
    v.nextCluster c ≠ .error e := by
  rw [Volume.nextCluster_eq, if_pos h.1]
  exact ok_ne_error _ _

theorem getCluster_ne_error {e : Fault} (h : HasCells v (v.fatn.index c)) :
    v.getCluster c ≠ .error e := by
  rw [getCluster_eq, fetch_of_hasCell h.1]
  exact ok_ne_error _ _

theorem getClusterBak_ne_error {e : Fault} (h : HasCells v (v.fatn.index c)) :
    v.getClusterBak c ≠ .error e := by
  rw [getClusterBak_eq, fetch_of_hasCell h.2]
  exact ok_ne_error _ _

theorem changeCluster_ne_error {e : Fault} (x : ℕ) (h : HasCells v (v.fatn.index c)) :
    v.changeCluster c x ≠ .error e := by
  rw [v.changeCluster_of_hasCell x h.1 h.2]
  exact ok_ne_error _ _

/-- The walk from the cluster finds a cell at each step. -/
def WalkHasCells (v : Volume) (c : ℕ) : Prop :=
  ∀ x, Reaches v.nextCluster 0 c x → HasCells v (v.fatn.index x)

theorem WalkHasCells.along_ne_outside {σ : Type} {body : σ → ℕ → Except Fault σ} {s : σ} {n : ℕ}
    (h : WalkHasCells v c) (hb : ∀ s c, body s c ≠ .error .outside) :
    along v.nextCluster 0 .endless body n c s ≠ .error .outside :=
  along_ne_error (by decide) hb fun x hx => nextCluster_ne_error (h x hx)

end Tables

section Directories
variable {fill : ℕ → UInt8} {v : Volume} {img : Bytes} {d : FatDirLayout}

theorem parseDirSized_ne_outside (h : isDirectory d.attr → WalkHasCells v (v.firstCluster d)) :
    parseDirSized fill v img d ≠ .error .outside := by
  unfold parseDirSized
  split_ifs with hdir
  · exact bind_ne_error ((h hdir).along_ne_outside (readCluster_ne_error (by decide) _ _ _))
      fun _ _ => ok_ne_error _ _
  · exact ok_ne_error _ _

theorem parseDir_ne_outside (h : isDirectory d.attr → WalkHasCells v (v.firstCluster d)) :
    parseDir fill v img d ≠ .error .outside :=
  bind_ne_error (parseDirSized_ne_outside h) fun _ _ => ok_ne_error _ _

theorem writeDir_ne_outside {entries : Bytes} {n : ℤ}
    (h : isDirectory d.attr → WalkHasCells v (v.firstCluster d)) :
    writeDir v img d entries n ≠ .error .outside := by
  unfold writeDir
  split_ifs with hdir
  · exact bind_ne_error ((h hdir).along_ne_outside (storeCluster_ne_error (by decide) _ _))
      fun _ _ => ok_ne_error _ _
  · exact ok_ne_error _ _

theorem entryAt_ne_outside (block : Bytes) (i : ℕ) : entryAt block i ≠ .error .outside := by
  unfold entryAt
  split_ifs
  · exact ok_ne_error _ _
  · simp

theorem searchFrom_ne_outside (block : Bytes) (term : Text) (n i : ℕ) :
    searchFrom block term n i ≠ .error .outside := by
  induction n generalizing i with
  | zero => exact ok_ne_error _ _
  | succ n ih =>
      refine bind_ne_error (entryAt_ne_outside _ _) fun e _ => ?_
      split_ifs
      · exact ok_ne_error _ _
      · exact ih _

theorem findLoop_ne_outside {fresh : FatDirLayout} {dir : Bytes} {size : ℕ} {tokens : List Text}
    (h : ∀ e ∈ openedFrom fill v img dir size tokens, isDirectory e.attr →
      WalkHasCells v (v.firstCluster e)) :
    findLoop fill v img fresh dir size tokens ≠ .error .outside := by
  induction tokens generalizing fresh dir size with
  | nil => exact ok_ne_error _ _
  | cons token rest ih =>
      rw [findLoop]
      refine bind_ne_error (searchFrom_ne_outside _ _ _ _) fun r hr => ?_
      cases r with
      | none => exact ok_ne_error _ _
      | some tmp =>
          simp only
          split_ifs with hrest
          · exact ok_ne_error _ _
          · simp only [openedFrom, hr, if_neg hrest, List.mem_cons, forall_eq_or_imp] at h
            refine bind_ne_error (parseDir_ne_outside h.1) fun p hp => ?_
            cases p with
            | none => exact ok_ne_error _ _
            | some p => exact ih fun e he => h.2 e (by rw [hp]; exact he)

theorem find_ne_outside {fresh : FatDirLayout} {path : Text}
    (h : ∀ e ∈ opened fill v img path, isDirectory e.attr → WalkHasCells v (v.firstCluster e)) :
    find fill v img fresh path ≠ .error .outside :=
  findLoop_ne_outside h

end Directories

section Listing
variable {fill : ℕ → UInt8} {wcstombs : ℕ → Option Text} {v : Volume}

theorem convertUnits_ne_outside (b : Bytes) (n : ℕ) :
    convertUnits wcstombs b n ≠ .error .outside := by
  fun_induction convertUnits wcstombs b n with
  | case1 => exact ok_ne_error _ _
  | case2 => exact ok_ne_error _ _
  | case3 lo hi rest n hne ih => exact bind_ne_error ih fun _ _ => ok_ne_error _ _
  | case4 => simp

theorem cnvUnicode_ne_outside (u : Option Bytes) (off n : ℕ) :
    cnvUnicode wcstombs u off n ≠ .error .outside := by
  cases u with
  | none => simp [cnvUnicode]
  | some b => exact convertUnits_ne_outside _ _

theorem lfnCheckOrphaned_ne_outside (s : LfnState) :
    lfnCheckOrphaned wcstombs s ≠ .error .outside := by
  unfold lfnCheckOrphaned
  split_ifs
  · exact ok_ne_error _ _
  · exact bind_ne_error (cnvUnicode_ne_outside _ _ _) fun _ _ => ok_ne_error _ _

theorem storePart_ne_outside (s : LfnState) (e : FatDirLayout) (i : ℕ) (lines : List Text) :
    storePart s e i lines ≠ .error .outside := by
  unfold storePart
  by_cases hs : s.slot = -1
  · rw [if_pos hs]
    exact ok_ne_error _ _
  · rw [if_neg hs]
    cases s.unicode with
    | none => simp
    | some u =>
        cases s.offsets with
        | none => simp
        | some o =>
            refine bind_ne_error (copyIn_ne_error (by decide) _ _ _) fun _ _ => ?_
            by_cases hc : HasCell 4 o s.parts
            · simp only [if_pos hc]
              split_ifs
              · exact bind_ne_error (copyIn_ne_error (by decide) _ _ _) fun _ _ => ok_ne_error _ _
              · exact ok_ne_error _ _
            · simp only [if_neg hc]
              split_ifs
              · exact bind_ne_error (copyIn_ne_error (by decide) _ _ _) fun _ _ => by simp
              · simp

theorem lfnAddSlot_ne_outside (s : LfnState) (e : FatDirLayout) (i : ℕ) :
    lfnAddSlot fill wcstombs s e i ≠ .error .outside := by
  rw [lfnAddSlot_bind]
  refine bind_ne_error ?_ fun r _ => ?_
  · split_ifs
    · exact lfnCheckOrphaned_ne_outside s
    · exact ok_ne_error _ _
  · split_ifs
    · simp
    · exact storePart_ne_outside _ _ _ _

theorem lfnGet_ne_outside (s : LfnState) (e : FatDirLayout) :
    lfnGet wcstombs s e ≠ .error .outside := by
  unfold lfnGet
  split_ifs
  · simp
  · exact ok_ne_error _ _
  · cases s.offsets with
    | none => simp
    | some offsets =>
        refine bind_ne_error ?_ fun _ _ =>
          bind_ne_error (cnvUnicode_ne_outside _ _ _) fun _ _ => ok_ne_error _ _
        unfold firstOffset
        split_ifs
        · exact ok_ne_error _ _
        · simp

theorem shortEntry_ne_outside (s : Listed) (e : FatDirLayout) :
    shortEntry wcstombs v s e ≠ .error .outside := by
  unfold shortEntry
  split_ifs
  · cases baseName e with
    | none => exact ok_ne_error _ _
    | some name => exact bind_ne_error (lfnGet_ne_outside _ _) fun _ _ => ok_ne_error _ _
  · exact ok_ne_error _ _

theorem listEntry_ne_outside (block : Bytes) (showDeleted : Bool) (s : Listed) (i : ℕ) :
    listEntry fill wcstombs v block showDeleted s i ≠ .error .outside := by
  rw [listEntry_bind]
  refine bind_ne_error (entryAt_ne_outside _ _) fun e _ => ?_
  split_ifs
  · exact ok_ne_error _ _
  · exact bind_ne_error (lfnAddSlot_ne_outside _ _ _) fun _ _ => shortEntry_ne_outside _ _
  · exact shortEntry_ne_outside _ _

theorem list_ne_outside (lfn : LfnState) (block : Bytes) (size : ℕ) (showDeleted : Bool) :
    list fill wcstombs v lfn block size showDeleted ≠ .error .outside :=
  foldlM_ne_error fun s i _ => listEntry_ne_outside block showDeleted s i

end Listing

section Marking
variable {fill : ℕ → UInt8} {v w : Volume} {s : Session} {parent : Option FatDirLayout}
variable {c : ℕ}

/-- The loop of `delete` fails at no index if each cluster that it comes to has its cells. -/
theorem freeChain_ne_outside {n : ℕ} (h : ∀ x, Frees v c x → HasCells v (v.fatn.index x)) :
    freeChain n v c ≠ .error .outside := by
  induction n generalizing v c with
  | zero => simp [freeChain]
  | succ n ih =>
      rw [freeChain]
      split_ifs with hc
      · exact ok_ne_error _ _
      · have hcells := h c (.here hc)
        refine bind_ne_error (nextCluster_ne_error hcells) fun d hd => ?_
        refine bind_ne_error (changeCluster_ne_error 0 hcells) fun w hw => ?_
        have hE := MarkingEffects.edits_of_changeCluster hw (by rw [Nat.zero_mod, Fatn.link_zero])
        refine bind_ne_error (ih fun x hx => ?_) fun _ _ => ok_ne_error _ _
        rw [hasCells_of_edits hE, hE.fatn]
        exact h x (.later hc hd hw hx)

theorem markEntries_ne_outside {folder : Bytes} {size : ℕ} {f : FatDirLayout} {b : UInt8}
    (h : ∀ p, parent = some p → isDirectory p.attr → WalkHasCells w (w.firstCluster p)) :
    markEntries s w parent folder size f b ≠ .error .outside := by
  refine bind_ne_error (foldlM_ne_error fun m i _ => ?_) fun m _ => ?_
  · refine bind_ne_error (entryAt_ne_outside _ _) fun e _ => ?_
    split_ifs
    · refine bind_ne_error (copyIn_ne_error (by decide) _ _ _) fun _ _ => ?_
      cases parent with
      | none => exact ok_ne_error _ _
      | some p => exact bind_ne_error (writeDir_ne_outside (h p rfl)) fun _ _ => ok_ne_error _ _
    · exact ok_ne_error _ _
  · cases parent <;> exact ok_ne_error _ _

end Marking

section Commands
variable {env : Env} {s : Shell} {i : Input}

theorem testFd_ne_outside {α : Type} {body : Except Fault α}
    (h : s.fd ≠ none → body ≠ .error .outside) : testFd s body ≠ .error .outside := by
  unfold testFd
  split_ifs with hfd
  · simp
  · exact h hfd

theorem testWFd_ne_outside {α : Type} {body : Except Fault α}
    (h : Writing s → body ≠ .error .outside) : testWFd s body ≠ .error .outside := by
  unfold testWFd
  split
  · exact h ⟨_, by assumption⟩
  · simp

theorem enter_ne_outside {body : Session → Except Fault (Session × List Line)}
    (h : body s.session ≠ .error .outside) : enter s body ≠ .error .outside :=
  bind_ne_error h fun _ _ => ok_ne_error _ _

theorem look_ne_outside {α : Type} {body : Except Fault α} (h : body ≠ .error .outside) :
    look s body ≠ .error .outside :=
  bind_ne_error h fun _ _ => ok_ne_error _ _

variable (h : ∀ v k, Uses env s i v k → HasCells v k)
include h

/-- The walks of a command find their cells. -/
theorem walkHasCells {w : Walk} (hw : Walks env s i w) : WalkHasCells w.volume w.first :=
  fun _ hx => h _ _ (.link (.walk hw hx))

theorem find_ne_outside_of_looksUp {path : Text} {fresh : FatDirLayout}
    (hl : LooksUp s i path fresh) :
    find env.fill s.volume s.image fresh path ≠ .error .outside :=
  find_ne_outside fun _ he hdir => walkHasCells h (.search hl he hdir)

theorem cd_ne_outside {path : Text} (hc : i.command = .cd path) :
    UserCommands.cd env.fill s.session i.fresh path ≠ .error .outside := by
  unfold UserCommands.cd
  simp only
  split_ifs with hroot
  · exact ok_ne_error _ _
  · refine bind_ne_error (find_ne_outside_of_looksUp h (.cd hc hroot)) fun r _ => ?_
    cases r with
    | none => exact ok_ne_error _ _
    | some d =>
        simp only
        split_ifs <;> exact ok_ne_error _ _

theorem ls_ne_outside {dir : Option Text} (hl : Lists i dir) (hfd : s.fd ≠ none)
    (showDeleted : Bool) :
    UserCommands.ls env.fill env.wcstombs s.session i.fresh dir showDeleted ≠
      .error .outside := by
  unfold UserCommands.ls
  simp only
  split_ifs with hroot
  · exact bind_ne_error (list_ne_outside _ _ _ _) fun _ _ => ok_ne_error _ _
  · refine bind_ne_error (find_ne_outside_of_looksUp h (.ls hl hfd hroot)) fun r hr => ?_
    cases r with
    | none => exact ok_ne_error _ _
    | some d =>
        refine bind_ne_error (parseDir_ne_outside fun hdir =>
          walkHasCells h (.ls hl hfd hroot hr hdir)) fun p _ => ?_
        cases p with
        | none => exact ok_ne_error _ _
        | some p => exact bind_ne_error (list_ne_outside _ _ _ _) fun _ _ => ok_ne_error _ _

theorem dumpWith_ne_outside {dir : Text} (hd : Dumps i dir) (hfd : s.fd ≠ none)
    (format : Bytes → Line) :
    dumpWith env.fill s.session i.fresh format dir ≠ .error .outside := by
  refine bind_ne_error (find_ne_outside_of_looksUp h (.dump hd hfd)) fun r hr => ?_
  cases r with
  | none => exact ok_ne_error _ _
  | some f =>
      refine bind_ne_error ((walkHasCells h (.dump hd hfd hr)).along_ne_outside fun r c => ?_)
        fun _ _ => ok_ne_error _ _
      unfold dumpCluster
      split_ifs <;> exact ok_ne_error _ _

theorem openParent_ne_outside {path : Text} (hm : MarkPath s i path) :
    openParent env.fill s.session i.freshParent (getParentPath path) ≠ .error .outside := by
  unfold openParent
  split_ifs with hroot
  · exact ok_ne_error _ _
  · refine bind_ne_error (find_ne_outside_of_looksUp h (.parent hm hroot)) fun r hr => ?_
    cases r with
    | none => simp
    | some p =>
        exact bind_ne_error (parseDirSized_ne_outside fun hdir =>
          walkHasCells h (.parent ⟨path, hm, hroot, hr, hdir⟩)) fun _ _ => ok_ne_error _ _

/-- The parent is written back over the table as the command has changed it. -/
theorem walkHasCells_of_openParent {path : Text} {parent : Option FatDirLayout}
    {folder : Bytes} {size : ℕ} {w : Volume} (hm : MarkPath s i path) (hch : Changes env s i w)
    (ho : openParent env.fill s.session i.freshParent (getParentPath path) =
      .ok (parent, folder, size)) (p : FatDirLayout) (hp : parent = some p)
    (hdir : isDirectory p.attr) : WalkHasCells w (w.firstCluster p) := by
  subst hp
  unfold openParent at ho
  split_ifs at ho with hroot
  · cases ho
  · obtain ⟨r, hr, ho⟩ := bind_eq_ok.mp ho
    cases r with
    | none => cases ho
    | some q =>
        obtain ⟨e, -, ho⟩ := bind_eq_ok.mp ho
        obtain rfl : q = p := Option.some.inj (Prod.mk.inj (Except.ok.inj ho)).1
        exact walkHasCells h (.writeBack ⟨path, hm, hroot, hr, hdir⟩ hch)

theorem delete_ne_outside {dir : Text} (hc : i.command = .delete dir) (hw : Writing s) :
    UserCommands.delete env.fill s.session i.fresh i.freshParent dir ≠ .error .outside := by
  have hm : MarkPath s i (deletePath s.session dir) := .delete hc hw
  refine bind_ne_error (find_ne_outside_of_looksUp h (.mark hm)) fun r hr => ?_
  refine bind_ne_error (openParent_ne_outside h hm) fun ⟨parent, folder, size⟩ ho => ?_
  cases r with
  | none => exact ok_ne_error _ _
  | some f =>
      refine bind_ne_error (freeChain_ne_outside fun x hx =>
        h _ _ (.link (.free hc hw hr hx))) fun ⟨w, lines⟩ hw => ?_
      refine bind_ne_error (markEntries_ne_outside ?_) fun _ _ => ok_ne_error _ _
      exact walkHasCells_of_openParent h hm (.delete hc hr hw) ho

theorem undelete_ne_outside {dir : Text} (hc : i.command = .undelete dir) (hw : Writing s) :
    UserCommands.undelete env.fill s.session i.fresh i.freshParent dir ≠ .error .outside := by
  have hm : MarkPath s i (undeletePath s.session dir) := .undelete hc hw
  refine bind_ne_error (find_ne_outside_of_looksUp h (.mark hm)) fun r hr => ?_
  cases r with
  | none => exact ok_ne_error _ _
  | some f =>
      refine bind_ne_error (openParent_ne_outside h hm) fun ⟨parent, folder, size⟩ ho => ?_
      refine bind_ne_error (changeCluster_ne_error _ (h _ _ (.mark hc hw hr))) fun w hw => ?_
      refine bind_ne_error (markEntries_ne_outside ?_) fun _ _ => ok_ne_error _ _
      exact walkHasCells_of_openParent h hm (.undelete hc hr hw) ho

theorem mount_ne_outside {dev : Text} (hc : i.command = .mount dev ∨ i.command = .wmount dev)
    (wflag : Bool) : mount env s dev wflag ≠ .error .outside := by
  unfold mount
  simp only
  split
  · rename_i img hf _
    refine bind_ne_error ?_ fun v _ => ?_
    · unfold initFat
      simp only
      split
      · exact ok_ne_error _ _
      · rename_i hn
        exact bind_ne_error ((walkHasCells h (.loadRoot hc hf hn)).along_ne_outside
          (loadRootCluster_ne_error (by decide) _)) fun _ _ => ok_ne_error _ _
    · split_ifs
      · simp
      · exact ok_ne_error _ _
  · simp

theorem umount_ne_outside (hc : i.command.Flushes) : umount s ≠ .error .outside := by
  unfold umount
  cases hfd : s.fd with
  | none => exact ok_ne_error _ _
  | some fd =>
      obtain ⟨file, writable⟩ := fd
      cases writable with
      | false => exact ok_ne_error _ _
      | true =>
          refine bind_ne_error ?_ fun _ _ => ok_ne_error _ _
          unfold writeFat
          have hbak := memcpy_ne_error (e := .outside) (by decide) s.volume.fatTableBak
            s.volume.fatTable
          have htab := writeTables_ne_error (e := .outside) (by decide) s.volume.fatTable
          split
          · exact bind_ne_error (hbak _) fun _ _ => bind_ne_error (htab _ _ _) fun _ _ =>
              bind_ne_error (copyOut_ne_error (by decide) _ _ _) fun _ _ => ok_ne_error _ _
          · rename_i hn
            refine bind_ne_error (hbak _) fun _ _ => bind_ne_error (htab _ _ _) fun _ _ => ?_
            exact bind_ne_error ((walkHasCells h (.storeRoot hc ⟨file, hfd⟩ hn)).along_ne_outside
              (storeRootCluster_ne_error (by decide) _ _)) fun _ _ => ok_ne_error _ _

/-- The loops over the whole table find a cell in each row. -/
theorem hasCells_of_readsTable (hr : ReadsTable i) (hfd : s.fd ≠ none) {k : ℕ}
    (hk : k < s.volume.tableSize) : HasCells s.volume (s.volume.fatn.index k) :=
  h _ _ (.row hr hfd hk)

theorem fatFrom_ne_outside (hr : ReadsTable i) (hfd : s.fd ≠ none) {n k : ℕ}
    (hk : k + n ≤ s.volume.tableSize) (answers : List Bool) :
    fatFrom s.volume n k answers ≠ .error .outside := by
  induction n generalizing k answers with
  | zero => exact ok_ne_error _ _
  | succ n ih =>
      rw [fatFrom]
      split_ifs
      · exact ok_ne_error _ _
      all_goals
        exact bind_ne_error (getCluster_ne_error (hasCells_of_readsTable h hr hfd (by omega)))
          fun _ _ => bind_ne_error (ih (by omega) _) fun _ _ => ok_ne_error _ _

omit h in
theorem mapM_ne_outside {α β : Type} {f : α → Except Fault β} {l : List α}
    (hf : ∀ a ∈ l, f a ≠ .error .outside) : l.mapM f ≠ .error .outside := by
  induction l with
  | nil => exact ok_ne_error _ _
  | cons a l ih =>
      rw [List.mapM_cons]
      exact bind_ne_error (hf a List.mem_cons_self) fun _ _ =>
        bind_ne_error (ih fun b hb => hf b (List.mem_cons_of_mem _ hb)) fun _ _ =>
          ok_ne_error _ _

/-- If each index of `Uses` has its cell in both tables, the command does not fail at an
access to a table. -/
theorem perform_ne_outside : perform env s i ≠ .error .outside := by
  have hrow {k : ℕ} (hr : ReadsTable i) (hfd : s.fd ≠ none)
      (hk : k ∈ List.range s.volume.tableSize) :=
    hasCells_of_readsTable h hr hfd (List.mem_range.mp hk)
  unfold perform
  cases hc : i.command with
  | quit | umount => exact umount_ne_outside h (by rw [hc]; trivial)
  | mount dev => exact mount_ne_outside h (.inl hc) _
  | wmount dev => exact mount_ne_outside h (.inr hc) _
  | cd path => exact enter_ne_outside (cd_ne_outside h hc)
  | ls dir =>
      exact testFd_ne_outside fun hfd => enter_ne_outside (ls_ne_outside h (.inl hc) hfd _)
  | lsdel dir =>
      exact testFd_ne_outside fun hfd => enter_ne_outside (ls_ne_outside h (.inr hc) hfd _)
  | chain index =>
      refine testFd_ne_outside fun hfd => look_ne_outside (bind_ne_error ?_ fun _ _ =>
        ok_ne_error _ _)
      exact (walkHasCells h (.chain hc hfd)).along_ne_outside fun _ _ => ok_ne_error _ _
  | fat answers =>
      exact testFd_ne_outside fun hfd => look_ne_outside
        (fatFrom_ne_outside h (.inl ⟨answers, hc⟩) hfd (Nat.zero_add _).le answers)
  | dumpFat path =>
      refine testFd_ne_outside fun hfd => ?_
      unfold writeTable
      simp only
      split_ifs
      · refine bind_ne_error (bind_ne_error (mapM_ne_outside fun k hk => ?_) fun _ _ =>
          ok_ne_error _ _) fun _ _ => ok_ne_error _ _
        exact getCluster_ne_error (hrow (.inr (.inl ⟨path, hc⟩)) hfd hk)
      · simp
  | testFat =>
      refine testFd_ne_outside fun hfd => look_ne_outside (bind_ne_error
        (mapM_ne_outside fun k hk => ?_) fun _ _ => ok_ne_error _ _)
      have hcells := hrow (.inr (.inr hc)) hfd hk
      exact bind_ne_error (getCluster_ne_error hcells) fun _ _ =>
        bind_ne_error (getClusterBak_ne_error hcells) fun _ _ => ok_ne_error _ _
  | dump dir =>
      exact testFd_ne_outside fun hfd => enter_ne_outside
        (dumpWith_ne_outside h (.inl hc) hfd _)
  | hdump dir =>
      exact testFd_ne_outside fun hfd => enter_ne_outside
        (dumpWith_ne_outside h (.inr hc) hfd _)
  | delete dir => exact testWFd_ne_outside fun hw => enter_ne_outside (delete_ne_outside h hc hw)
  | undelete dir =>
      exact testWFd_ne_outside fun hw => enter_ne_outside (undelete_ne_outside h hc hw)
  | info | test _ => exact testFd_ne_outside fun _ => ok_ne_error _ _
  | showCommand | other => exact ok_ne_error _ _

end Commands

end TFAT.OutsideFaults
