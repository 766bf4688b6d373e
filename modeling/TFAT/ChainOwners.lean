import TFAT.LinkedChains

/-!
# Trees of records that own chains

Places hold records, and a record names the first node of a chain. Some records
own their chains, and some of these can be opened: the places inside the nodes
of their chains are then part of the tree. A change unlinks a set of nodes and
replaces the copies of one record in a set of places. Whether owners still own
what they refer to after such a change is decided in the tree before it.
-/
namespace TFAT.ChainOwners
open LinkedChains
variable {α ρ ν ε : Type}

/-- What places hold and how nodes are linked. -/
structure Store (α ρ ν ε : Type) where
  content : α → Option ρ
  next : ν → Except ε ν

/-- Where a tree starts and what a record means. -/
structure Shape (α ρ ν : Type) where
  top : α → Prop
  inside : ν → α → Prop
  first : ρ → ν
  stop : ν
  owner : ρ → Prop
  opens : ρ → Prop

namespace Shape
variable (S : Shape α ρ ν)

def Refers (s : Store α ρ ν ε) (r : ρ) (x : ν) : Prop := Reaches s.next S.stop (S.first r) x

inductive Listed (s : Store α ρ ν ε) : α → ρ → Prop
  | top {a : α} {r : ρ} : S.top a → s.content a = some r → Listed s a r
  | within {a b : α} {d r : ρ} {l : List ν} {c : ν} : Listed s b d → S.owner d → S.opens d →
      Follows s.next S.stop (S.first d) l → c ∈ l → S.inside c a → s.content a = some r →
      Listed s a r

/-- Every owner has a finite chain of sound nodes, and no node has two owners. -/
structure Intact (sound : ν → Prop) (s : Store α ρ ν ε) : Prop where
  chain : ∀ {a : α} {r : ρ}, S.Listed s a r → S.owner r →
    ∃ l, Follows s.next S.stop (S.first r) l ∧ ∀ c ∈ l, sound c
  disjoint : ∀ {a b : α} {r q : ρ} {x : ν}, S.Listed s a r → S.owner r → S.Listed s b q →
    S.owner q → S.Refers s r x → S.Refers s q x → a = b

/-- A place that the tree can have, whatever records open it. -/
def Visible (near : ν → Prop) (a : α) : Prop := S.top a ∨ ∃ c, near c ∧ S.inside c a

/-- The nodes in `Z` are unlinked, and the places are rewritten by `mark`. -/
structure Unlinked (near : ν → Prop) (Z : ν → Prop) (mark : α → ρ → ρ)
    (s t : Store α ρ ν ε) : Prop where
  unlinked : ∀ x, Z x → t.next x = .ok S.stop
  linked : ∀ x, ¬ Z x → t.next x = s.next x
  content : ∀ a, S.Visible near a → t.content a = (s.content a).map (mark a)

variable {S} {near sound Z : ν → Prop} {mark : α → ρ → ρ} {s t : Store α ρ ν ε} {a : α} {r : ρ}
variable {x : ν}

theorem Listed.content_eq (h : S.Listed s a r) : s.content a = some r := by
  cases h with
  | top _ h => exact h
  | within _ _ _ _ _ _ h => exact h

theorem Intact.refers_sound (hI : S.Intact sound s) (h : S.Listed s a r) (ho : S.owner r)
    (hx : S.Refers s r x) : sound x := by
  obtain ⟨l, hl, hs⟩ := hI.chain h ho
  exact hs x (hl.reaches_iff.mp hx)

theorem Unlinked.follows (hU : S.Unlinked near Z mark s t) {l : List ν}
    (hl : Follows s.next S.stop (S.first r) l) (hz : ∀ x, S.Refers s r x → ¬ Z x) :
    Follows t.next S.stop (S.first r) l :=
  hl.congr fun x hx => hU.linked x (hz x (hl.reaches_iff.mpr hx))

/-- A record that refers to an unlinked node still comes to one. -/
theorem Unlinked.refers (hU : S.Unlinked near Z mark s t) (hx : S.Refers s r x) (hz : Z x) :
    ∃ y, Z y ∧ S.Refers s r y ∧ S.Refers t r y :=
  Reaches.cut hx hz hU.linked

theorem Unlinked.refers_before (hU : S.Unlinked near Z mark s t)
    (hz : ∀ y, S.Refers s r y → ¬ Z y) (hx : S.Refers t r x) : S.Refers s r x :=
  Reaches.of_congr hx fun y hy => hU.linked y (hz y hy)

section Removal
variable {f : ρ} {M : α → Prop}

/-- An owner is the record `f` in a marked place, or refers to no unlinked node. -/
def Spared (S : Shape α ρ ν) (Z : ν → Prop) (f : ρ) (M : α → Prop) (s : Store α ρ ν ε) : Prop :=
  ∀ a r x, S.Listed s a r → S.owner r → S.Refers s r x → Z x → r = f ∧ M a

/-- Unlinking the chain of `f` spares the other owners exactly when `f` is an owner in
a marked place or shares its chain with no owner. -/
theorem Intact.spared_iff (hI : S.Intact sound s)
    (hZ : ∀ a r x, S.Listed s a r → S.owner r → S.Refers s r x → (Z x ↔ S.Refers s f x)) :
    S.Spared Z f M s ↔ (∃ a, S.Listed s a f ∧ S.owner f ∧ M a) ∨
      ∀ a r x, S.Listed s a r → S.owner r → S.Refers s r x → ¬ S.Refers s f x := by
  constructor
  · intro h
    by_cases hf : ∃ a, S.Listed s a f ∧ S.owner f ∧ M a
    · exact .inl hf
    · refine .inr fun a r x hl ho hx hfx => hf ?_
      obtain ⟨rfl, hM⟩ := h a r x hl ho hx ((hZ a r x hl ho hx).mpr hfx)
      exact ⟨a, hl, ho, hM⟩
  · rintro (⟨b, hb, hob, hM⟩ | h) a r x hl ho hx hz
    · obtain rfl := hI.disjoint hl ho hb hob hx ((hZ a r x hl ho hx).mp hz)
      exact ⟨Option.some.inj (hl.content_eq.symm.trans hb.content_eq), hM⟩
    · exact absurd ((hZ a r x hl ho hx).mp hz) (h a r x hl ho hx)

/-- Where the others are spared, every owner of the new tree was one before and is
not marked. -/
theorem Unlinked.listed_before (hU : S.Unlinked near Z mark s t) (hI : S.Intact sound s)
    (hn : ∀ c, sound c → near c) (hS : S.Spared Z f M s) (hdead : ∀ a, M a → ¬ S.owner (mark a f))
    (hsame : ∀ a r, ¬ (r = f ∧ M a) → mark a r = r) (h : S.Listed t a r) (ho : S.owner r) :
    S.Listed s a r ∧ ¬ (r = f ∧ M a) := by
  have step (a : α) (r q : ρ) (hmark : mark a q = r) (ho : S.owner r) :
      q = r ∧ ¬ (r = f ∧ M a) := by
    by_cases hq : q = f ∧ M a
    · rw [← hmark, hq.1] at ho
      exact absurd ho (hdead a hq.2)
    · rw [hsame a q hq] at hmark
      exact ⟨hmark, hmark ▸ hq⟩
  induction h with
  | @top a r ha hc =>
      rw [hU.content a (.inl ha), Option.map_eq_some_iff] at hc
      obtain ⟨q, hq, hmark⟩ := hc
      obtain ⟨rfl, hr⟩ := step a r q hmark ho
      exact ⟨.top ha hq, hr⟩
  | @within a b d r l c _ hod hopen hl hcl ha hc ih =>
      obtain ⟨hd, hdn⟩ := ih hod
      obtain ⟨m, hm, hsound⟩ := hI.chain hd hod
      obtain rfl := hl.unique (hU.follows hm fun x hx hz => hdn (hS b d x hd hod hx hz))
      rw [hU.content a (.inr ⟨c, hn c (hsound c hcl), ha⟩), Option.map_eq_some_iff] at hc
      obtain ⟨q, hq, hmark⟩ := hc
      obtain ⟨rfl, hr⟩ := step a r q hmark ho
      exact ⟨.within hd hod hopen hm hcl ha hq, hr⟩

/-- Where the others are spared, no owner of the new tree refers to an unlinked node. -/
theorem Unlinked.not_refers (hU : S.Unlinked near Z mark s t) (hI : S.Intact sound s)
    (hn : ∀ c, sound c → near c) (hS : S.Spared Z f M s) (hdead : ∀ a, M a → ¬ S.owner (mark a f))
    (hsame : ∀ a r, ¬ (r = f ∧ M a) → mark a r = r) (h : S.Listed t a r) (ho : S.owner r)
    (hx : S.Refers t r x) : ¬ Z x := by
  obtain ⟨hs, hr⟩ := hU.listed_before hI hn hS hdead hsame h ho
  have hz (y : ν) (hy : S.Refers s r y) : ¬ Z y := fun hy' => hr (hS a r y hs ho hy hy')
  exact hz x (hU.refers_before hz hx)

theorem Unlinked.intact_of_spared (hU : S.Unlinked near Z mark s t) (hI : S.Intact sound s)
    (hn : ∀ c, sound c → near c) (hS : S.Spared Z f M s) (hdead : ∀ a, M a → ¬ S.owner (mark a f))
    (hsame : ∀ a r, ¬ (r = f ∧ M a) → mark a r = r) {sound' : ν → Prop}
    (hsound : ∀ x, sound x → ¬ Z x → sound' x) : S.Intact sound' t := by
  have before {a : α} {r : ρ} (h : S.Listed t a r) (ho : S.owner r) :
      S.Listed s a r ∧ ∀ y, S.Refers s r y → ¬ Z y := by
    obtain ⟨hs, hr⟩ := hU.listed_before hI hn hS hdead hsame h ho
    exact ⟨hs, fun y hy hz => hr (hS _ _ y hs ho hy hz)⟩
  constructor
  · intro a r h ho
    obtain ⟨hs, hz⟩ := before h ho
    obtain ⟨l, hl, hl'⟩ := hI.chain hs ho
    exact ⟨l, hU.follows hl hz, fun c hc =>
      hsound c (hl' c hc) (hz c (hl.reaches_iff.mpr hc))⟩
  · intro a b r q x h ho h' ho' hx hx'
    obtain ⟨hs, hz⟩ := before h ho
    obtain ⟨hs', hz'⟩ := before h' ho'
    exact hI.disjoint hs ho hs' ho' (hU.refers_before hz hx) (hU.refers_before hz' hx')

/-- An owner that refers to an unlinked sound node. -/
def Dangling (S : Shape α ρ ν) (sound Z : ν → Prop) (t : Store α ρ ν ε) : Prop :=
  ∃ a r x, S.Listed t a r ∧ S.owner r ∧ S.Refers t r x ∧ Z x ∧ sound x

/-- As long as no owner dangles and no owner is marked, the owners stay. -/
theorem Unlinked.listed_after (hU : S.Unlinked near Z mark s t) (hI : S.Intact sound s)
    (hn : ∀ c, sound c → near c)
    (hno : ¬ ∃ a, S.Listed s a f ∧ S.owner f ∧ M a)
    (hsame : ∀ a r, ¬ (r = f ∧ M a) → mark a r = r) (h : S.Listed s a r) (ho : S.owner r) :
    S.Dangling sound Z t ∨ S.Listed t a r := by
  have keep (a : α) (r : ρ) (hv : S.Visible near a) (hl : S.Listed s a r) (ho : S.owner r) :
      t.content a = some r := by
    have hr : ¬ (r = f ∧ M a) := by
      rintro ⟨rfl, hM⟩
      exact hno ⟨a, hl, ho, hM⟩
    rw [hU.content a hv, hl.content_eq, Option.map_some, hsame a r hr]
  induction h with
  | @top a r ha hc => exact .inr (.top ha (keep a r (.inl ha) (.top ha hc) ho))
  | @within a b d r l c hd hod hopen hl hcl ha hc ih =>
      rcases ih hod with hD | hd'
      · exact .inl hD
      · by_cases hz : ∃ x, S.Refers s d x ∧ Z x
        · obtain ⟨x, hx, hz⟩ := hz
          obtain ⟨y, hy, hys, hyt⟩ := hU.refers hx hz
          exact .inl ⟨b, d, y, hd', hod, hyt, hy, hI.refers_sound hd hod hys⟩
        · have hl' := hU.follows hl fun x hx hzx => hz ⟨x, hx, hzx⟩
          have hsound := hI.refers_sound hd hod (hl.reaches_iff.mpr hcl)
          exact .inr (.within hd' hod hopen hl' hcl ha
            (keep a r (.inr ⟨c, hn c hsound, ha⟩) (.within hd hod hopen hl hcl ha hc) ho))

/-- Where some other owner is not spared, an owner of the new tree dangles. -/
theorem Unlinked.dangling (hU : S.Unlinked near Z mark s t) (hI : S.Intact sound s)
    (hn : ∀ c, sound c → near c)
    (hZ : ∀ a r x, S.Listed s a r → S.owner r → S.Refers s r x → (Z x ↔ S.Refers s f x))
    (hsame : ∀ a r, ¬ (r = f ∧ M a) → mark a r = r) (hS : ¬ S.Spared Z f M s) :
    S.Dangling sound Z t := by
  have hno : ¬ ∃ a, S.Listed s a f ∧ S.owner f ∧ M a := fun h =>
    hS ((hI.spared_iff hZ).mpr (.inl h))
  simp only [Spared, not_forall] at hS
  obtain ⟨a, r, x, hl, ho, hx, hz, -⟩ := hS
  rcases hU.listed_after hI hn hno hsame hl ho with hD | hl'
  · exact hD
  · obtain ⟨y, hy, hys, hyt⟩ := hU.refers hx hz
    exact ⟨a, r, y, hl', ho, hyt, hy, hI.refers_sound hl ho hys⟩

end Removal

section Revival
variable {f g : ρ} {M : α → Prop}

/-- The tree together with the places that a record opens in its first node. -/
def withRoot (S : Shape α ρ ν) (g : ρ) : Shape α ρ ν :=
  { S with top := fun a => S.top a ∨ S.opens g ∧ S.inside (S.first g) a }

theorem Listed.withRoot (h : S.Listed s a r) : (S.withRoot g).Listed s a r := by
  induction h with
  | top ha hc => exact .top (.inl ha) hc
  | within _ hod hopen hl hcl ha hc ih => exact .within ih hod hopen hl hcl ha hc

/-- What has to hold of the tree when copies of `f` in the places `M` become the owner
`g`, and the first node of `g` the end of its chain. -/
structure Revivable (S : Shape α ρ ν) (near sound Z : ν → Prop) (f g : ρ) (M : α → Prop)
    (s : Store α ρ ν ε) : Prop where
  intact : (S.withRoot g).Intact sound s
  unclaimed : ∀ {a : α} {r : ρ} {x : ν}, (S.withRoot g).Listed s a r → S.owner r →
    S.Refers s r x → ¬ Z x
  first : S.first g ≠ S.stop → Z (S.first g) ∧ near (S.first g)
  single : ∀ {a b : α}, (S.withRoot g).Listed s a f → M a → (S.withRoot g).Listed s b f → M b →
    a = b

/-- The owners of the new tree: `g` where it replaces `f`, and owners of the extended
tree as it was. -/
theorem Unlinked.listed_revived (hU : S.Unlinked near Z mark s t) (hn : ∀ c, sound c → near c)
    (hR : S.Revivable near sound Z f g M s) (hmark : ∀ a, M a → mark a f = g)
    (hsame : ∀ a r, ¬ (r = f ∧ M a) → mark a r = r) (h : S.Listed t a r) (ho : S.owner r) :
    (S.withRoot g).Listed s a r ∨ r = g ∧ M a ∧ (S.withRoot g).Listed s a f := by
  have step (a : α) (r q : ρ) (hq : mark a q = r) (hl : (S.withRoot g).Listed s a q) :
      (S.withRoot g).Listed s a r ∨ r = g ∧ M a ∧ (S.withRoot g).Listed s a f := by
    by_cases hqf : q = f ∧ M a
    · obtain ⟨rfl, hM⟩ := hqf
      exact .inr ⟨hq.symm.trans (hmark a hM), hM, hl⟩
    · rw [hsame a q hqf] at hq
      exact .inl (hq ▸ hl)
  induction h with
  | @top a r ha hc =>
      rw [hU.content a (.inl ha), Option.map_eq_some_iff] at hc
      obtain ⟨q, hq, hmq⟩ := hc
      exact step a r q hmq (.top (.inl ha) hq)
  | @within a b d r l c _ hod hopen hl hcl ha hc ih =>
      rcases ih hod with hd | ⟨rfl, -, -⟩
      · obtain ⟨m, hm, hsound⟩ := hR.intact.chain hd hod
        obtain rfl := hl.unique (hU.follows hm fun x hx => hR.unclaimed hd hod hx)
        rw [hU.content a (.inr ⟨c, hn c (hsound c hcl), ha⟩), Option.map_eq_some_iff] at hc
        obtain ⟨q, hq, hmq⟩ := hc
        exact step a r q hmq (.within hd hod hopen hm hcl ha hq)
      · have hfirst : S.first d ≠ S.stop := by
          intro he
          rw [he] at hl
          rw [hl.eq_nil] at hcl
          simp at hcl
        obtain ⟨hz, hnear⟩ := hR.first hfirst
        obtain rfl := hl.unique (.step hfirst (hU.unlinked _ hz) .stop)
        obtain rfl := List.mem_singleton.mp hcl
        rw [hU.content a (.inr ⟨_, hnear, ha⟩), Option.map_eq_some_iff] at hc
        obtain ⟨q, hq, hmq⟩ := hc
        exact step a r q hmq (.top (.inr ⟨hopen, ha⟩) hq)

/-- A revived owner has a chain of one node, or of none. -/
theorem Unlinked.follows_revived (hU : S.Unlinked near Z mark s t)
    (hR : S.Revivable near sound Z f g M s) :
    ∃ l, Follows t.next S.stop (S.first g) l ∧ ∀ x ∈ l, Z x ∧ near x := by
  by_cases hg : S.first g = S.stop
  · exact ⟨[], hg ▸ .stop, by simp⟩
  · obtain ⟨hz, hnear⟩ := hR.first hg
    refine ⟨[S.first g], .step hg (hU.unlinked _ hz) .stop, fun x hx => ?_⟩
    rw [List.mem_singleton.mp hx]
    exact ⟨hz, hnear⟩

theorem Unlinked.intact_revived (hU : S.Unlinked near Z mark s t) (hn : ∀ c, sound c → near c)
    (hR : S.Revivable near sound Z f g M s) (hmark : ∀ a, M a → mark a f = g)
    (hsame : ∀ a r, ¬ (r = f ∧ M a) → mark a r = r) {sound' : ν → Prop}
    (hkept : ∀ x, sound x → ¬ Z x → sound' x) (hlast : ∀ x, near x → Z x → sound' x) :
    S.Intact sound' t := by
  obtain ⟨m, hm, hmz⟩ := hU.follows_revived hR
  have split {a : α} {r : ρ} {x : ν} (h : S.Listed t a r) (ho : S.owner r) (hx : S.Refers t r x) :
      (S.withRoot g).Listed s a r ∧ S.Refers s r x ∧ ¬ Z x ∨
        (M a ∧ (S.withRoot g).Listed s a f) ∧ Z x := by
    rcases hU.listed_revived hn hR hmark hsame h ho with hs | ⟨rfl, hM, hs⟩
    · have hx' := hU.refers_before (fun y hy => hR.unclaimed hs ho hy) hx
      exact .inl ⟨hs, hx', hR.unclaimed hs ho hx'⟩
    · exact .inr ⟨⟨hM, hs⟩, (hmz x (hm.reaches_iff.mp hx)).1⟩
  constructor
  · intro a r h ho
    rcases hU.listed_revived hn hR hmark hsame h ho with hs | ⟨rfl, -, -⟩
    · obtain ⟨l, hl, hl'⟩ := hR.intact.chain hs ho
      have hz (y : ν) (hy : S.Refers s r y) : ¬ Z y := hR.unclaimed hs ho hy
      exact ⟨l, hU.follows hl hz, fun c hc =>
        hkept c (hl' c hc) (hz c (hl.reaches_iff.mpr hc))⟩
    · exact ⟨m, hm, fun c hc => hlast c (hmz c hc).2 (hmz c hc).1⟩
  · intro a b r q x h ho h' ho' hx hx'
    rcases split h ho hx with ⟨hs, hsx, hz⟩ | ⟨⟨hM, hs⟩, hz⟩ <;>
      rcases split h' ho' hx' with ⟨hs', hsx', hz'⟩ | ⟨⟨hM', hs'⟩, hz'⟩
    · exact hR.intact.disjoint hs ho hs' ho' hsx hsx'
    · exact absurd hz' hz
    · exact absurd hz hz'
    · exact hR.single hs hM hs' hM'

end Revival

end Shape

end TFAT.ChainOwners
