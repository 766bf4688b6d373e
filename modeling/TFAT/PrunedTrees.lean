import TFAT.ChainOwners

/-!
# Trees with records taken out

Taking records out of their places takes out what hangs below them as well. One store is another
one with records taken out if it holds the same owners in the places that the trees can have, less
those, and has the same links from the owners that remain. Then its tree is the tree of the other
store without those records, and this holds of any sequence of such changes.
-/
namespace TFAT.PrunedTrees
open LinkedChains ChainOwners
variable {α ρ ν ε : Type}

open Classical in
/-- The store without the records `D`. -/
noncomputable def without (D : α → ρ → Prop) (s : Store α ρ ν ε) : Store α ρ ν ε where
  content a := (s.content a).filter fun r => ¬ D a r
  next := s.next

theorem content_without {D : α → ρ → Prop} {s : Store α ρ ν ε} {a : α} {r : ρ} :
    (without D s).content a = some r ↔ s.content a = some r ∧ ¬ D a r := by
  simp [without, Option.filter_eq_some_iff]

/-- The store `t` is `s` with the records `D` taken out. -/
structure Pruned (S : Shape α ρ ν) (near : ν → Prop) (D : α → ρ → Prop) (s t : Store α ρ ν ε) :
    Prop where
  content : ∀ a r, S.Visible near a → S.owner r →
    (t.content a = some r ↔ s.content a = some r ∧ ¬ D a r)
  next : ∀ a r x, S.Listed (without D s) a r → S.owner r → S.Refers s r x → t.next x = s.next x

variable {S : Shape α ρ ν} {near near' sound : ν → Prop} {D E : α → ρ → Prop}
variable {s t u : Store α ρ ν ε} {a : α} {r : ρ} {x : ν} {l : List ν}

theorem listed_of_without (h : S.Listed (without D s) a r) : S.Listed s a r := by
  induction h with
  | top ha hc => exact .top ha (content_without.mp hc).1
  | within _ hod hopen hl hcl ha hc ih =>
      exact .within ih hod hopen hl hcl ha (content_without.mp hc).1

theorem not_removed (h : S.Listed (without D s) a r) : ¬ D a r :=
  (content_without.mp h.content_eq).2

theorem pruned_refl (hD : ∀ a r, ¬ D a r) : Pruned S near D s s :=
  ⟨fun a r _ _ => (and_iff_left (hD a r)).symm, fun _ _ _ _ _ _ => rfl⟩

theorem Pruned.congr (h : Pruned S near D s t) (hDE : ∀ a r, D a r ↔ E a r) :
    Pruned S near E s t := by
  obtain rfl : D = E := funext fun a => funext fun r => propext (hDE a r)
  exact h

section Intact
variable (hI : S.Intact sound s) (hn : ∀ c, sound c → near c)
include hI hn

/-- The places inside the chains of owners are places that the tree can have. -/
theorem visible_of_mem {b : α} {d : ρ} {c : ν} (hd : S.Listed s b d) (ho : S.owner d)
    (hl : Follows s.next S.stop (S.first d) l) (hc : c ∈ l) (ha : S.inside c a) :
    S.Visible near a :=
  .inr ⟨c, hn c (hI.refers_sound hd ho (hl.reaches_iff.mpr hc)), ha⟩

omit hn in
/-- The chains of the owners that remain are as they were. -/
theorem Pruned.follows_iff (h : Pruned S near D s t) (hr : S.Listed (without D s) a r)
    (ho : S.owner r) :
    Follows t.next S.stop (S.first r) l ↔ Follows s.next S.stop (S.first r) l := by
  obtain ⟨m, hm, -⟩ := hI.chain (listed_of_without hr) ho
  have ht : Follows t.next S.stop (S.first r) m :=
    hm.congr fun x hx => h.next a r x hr ho (hm.reaches_iff.mpr hx)
  constructor
  · intro hl
    exact hl.unique ht ▸ hm
  · intro hl
    exact hl.unique hm ▸ ht

omit hn in
theorem Pruned.refers_iff (h : Pruned S near D s t) (hr : S.Listed (without D s) a r)
    (ho : S.owner r) : S.Refers t r x ↔ S.Refers s r x := by
  obtain ⟨m, hm, -⟩ := hI.chain (listed_of_without hr) ho
  exact ((h.follows_iff hI hr ho).mpr hm).reaches_iff.trans hm.reaches_iff.symm

theorem Pruned.listed_iff (h : Pruned S near D s t) (ho : S.owner r) :
    S.Listed t a r ↔ S.Listed (without D s) a r := by
  constructor
  · intro hl
    induction hl with
    | @top a r ha hc => exact .top ha (content_without.mpr ((h.content a r (.inl ha) ho).mp hc))
    | @within a b d r l c _ hod hopen hl hcl ha hc ih =>
        have hd := ih hod
        have hs := (h.follows_iff hI hd hod).mp hl
        have hv := visible_of_mem hI hn (listed_of_without hd) hod hs hcl ha
        exact .within hd hod hopen hs hcl ha (content_without.mpr ((h.content a r hv ho).mp hc))
  · intro hl
    induction hl with
    | @top a r ha hc => exact .top ha ((h.content a r (.inl ha) ho).mpr (content_without.mp hc))
    | @within a b d r l c hd hod hopen hl hcl ha hc ih =>
        have hv := visible_of_mem hI hn (listed_of_without hd) hod hl hcl ha
        exact .within (ih hod) hod hopen ((h.follows_iff hI hd hod).mpr hl) hcl ha
          ((h.content a r hv ho).mpr (content_without.mp hc))

theorem Pruned.listed_both (h : Pruned S near D s t)
    (hl : S.Listed (without (fun a r => D a r ∨ E a r) s) a r) (ho : S.owner r) :
    S.Listed (without D s) a r ∧ S.Listed (without E t) a r := by
  induction hl with
  | @top a r ha hc =>
      obtain ⟨hs, hno⟩ := content_without.mp hc
      obtain ⟨hD, hE⟩ := not_or.mp hno
      have ht := (h.content a r (.inl ha) ho).mpr ⟨hs, hD⟩
      exact ⟨.top ha (content_without.mpr ⟨hs, hD⟩), .top ha (content_without.mpr ⟨ht, hE⟩)⟩
  | @within a b d r l c _ hod hopen hl hcl ha hc ih =>
      obtain ⟨hd, hd'⟩ := ih hod
      obtain ⟨hs, hno⟩ := content_without.mp hc
      obtain ⟨hD, hE⟩ := not_or.mp hno
      have hv := visible_of_mem hI hn (listed_of_without hd) hod hl hcl ha
      have ht := (h.content a r hv ho).mpr ⟨hs, hD⟩
      exact ⟨.within hd hod hopen hl hcl ha (content_without.mpr ⟨hs, hD⟩),
        .within hd' hod hopen ((h.follows_iff hI hd hod).mpr hl) hcl ha
          (content_without.mpr ⟨ht, hE⟩)⟩

/-- Taking out records one time after the other takes out all of them. -/
theorem Pruned.trans (h : Pruned S near D s t) (k : Pruned S near' E t u)
    (hnear : ∀ c, near c → near' c) : Pruned S near (fun a r => D a r ∨ E a r) s u := by
  refine ⟨fun a r hv ho => ?_, fun a r x hl ho hx => ?_⟩
  · have hv' : S.Visible near' a := hv.imp id fun ⟨c, hc, ha⟩ => ⟨c, hnear c hc, ha⟩
    rw [k.content a r hv' ho, h.content a r hv ho, and_assoc, not_or]
  · obtain ⟨hd, ht⟩ := h.listed_both hI hn hl ho
    have hx' : S.Refers t r x := (h.refers_iff hI hd ho).mpr hx
    rw [k.next a r x ht ho hx', h.next a r x hd ho hx]

end Intact

section Removal
variable {Z : ν → Prop} {mark : α → ρ → ρ} {f : ρ} {M : α → Prop}

/-- A change that unlinks a chain, and spares the other owners, takes out the marked records. -/
theorem pruned_of_unlinked (hU : S.Unlinked near Z mark s t) (hS : S.Spared Z f M s)
    (hdead : ∀ a, M a → ¬ S.owner (mark a f)) (hsame : ∀ a r, ¬ (r = f ∧ M a) → mark a r = r) :
    Pruned S near (fun a r => r = f ∧ M a) s t := by
  refine ⟨fun a r hv ho => ?_, fun a r x hl ho hx => ?_⟩
  · rw [hU.content a hv, Option.map_eq_some_iff]
    constructor
    · rintro ⟨q, hq, hmark⟩
      by_cases hm : q = f ∧ M a
      · rw [← hmark, hm.1] at ho
        exact absurd ho (hdead a hm.2)
      · rw [hsame a q hm] at hmark
        exact hmark ▸ ⟨hq, hm⟩
    · rintro ⟨hr, hm⟩
      exact ⟨r, hr, hsame a r hm⟩
  · refine hU.linked x fun hz => not_removed hl ?_
    exact hS a r x (listed_of_without hl) ho hx hz

end Removal

end TFAT.PrunedTrees
