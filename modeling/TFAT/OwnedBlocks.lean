import Mathlib.Algebra.Order.Group.Multiset
import TFAT.LinkedChains

/-!
# Computations that allocate blocks

A computation allocates blocks, uses them and frees them. Where it uses or frees one that is not
allocated, or stores behind the end of one, it fails without a fault of its own. `Refines`
compares it with a computation that has no heap: both fail in the same way, or both return and the
results are related, together with the blocks that the computation then owns. A computation may
use the blocks that are lent to it, and what else is allocated stays allocated. There is one rule
for each action, one for calls and one for each kind of loop.
-/
namespace TFAT.OwnedBlocks
open LinkedChains

/-- The blocks that are allocated. The allocator has not given out the next number yet. -/
structure Heap where
  live : Multiset ℕ
  next : ℕ
  nodup : live.Nodup
  below : ∀ p ∈ live, p < next

def Heap.initial : Heap := ⟨0, 0, Multiset.nodup_zero, by simp⟩

def Heap.alloc (h : Heap) : Heap where
  live := {h.next} + h.live
  next := h.next + 1
  nodup := Multiset.nodup_cons.mpr ⟨fun hm => (h.below _ hm).ne rfl, h.nodup⟩
  below p hp := by
    rcases Multiset.mem_cons.mp hp with rfl | hp
    · exact Nat.lt_succ_self _
    · exact (h.below p hp).trans (Nat.lt_succ_self _)

def Heap.release (h : Heap) (p : ℕ) : Heap where
  live := h.live.erase p
  next := h.next
  nodup := h.nodup.erase p
  below q hq := h.below q (Multiset.mem_of_mem_erase hq)

@[simp] theorem Heap.live_alloc (h : Heap) : h.alloc.live = {h.next} + h.live := rfl

@[simp] theorem Heap.live_release (h : Heap) (p : ℕ) : (h.release p).live = h.live.erase p := rfl

abbrev Heaped (ε α : Type) := StateT Heap (Except (Option ε)) α

section Actions
variable {ε α : Type}

/-- A new block. -/
def malloc : Heaped ε ℕ := fun h => .ok (h.next, h.alloc)

/-- An access that is allowed on some heaps only. -/
def check (c : Heap → Prop) [DecidablePred c] : Heaped ε Unit := fun h =>
  if c h then .ok ((), h) else .error none

/-- The block is accessed. -/
def use (p : ℕ) : Heaped ε Unit := check fun h => p ∈ h.live

/-- An access through a pointer. It is `none` where it points to no block of the heap. -/
def useAny : Option ℕ → Heaped ε Unit
  | none => pure ()
  | some p => use p

def free (p : ℕ) : Heaped ε Unit := fun h =>
  if p ∈ h.live then .ok ((), h.release p) else .error none

/-- A null pointer may be freed. -/
def freeAny : Option ℕ → Heaped ε Unit
  | none => pure ()
  | some p => free p

/-- The block has another place afterwards. A null pointer has no block yet. -/
def realloc (p : Option ℕ) : Heaped ε ℕ := do
  freeAny p
  malloc

/-- A store of `n` bytes from the start of a block of `room` bytes. -/
def within (n room : ℕ) : Heaped ε Unit := check fun _ => n ≤ room

def plain : Except ε α → Heaped ε α
  | .error e => fun _ => .error (some e)
  | .ok a => pure a

end Actions

def block : Option ℕ → Multiset ℕ
  | none => 0
  | some p => {p}

@[simp] theorem block_none : block none = 0 := rfl

@[simp] theorem block_some (p : ℕ) : block (some p) = {p} := rfl

section Rules
variable {ε α β γ δ : Type}

/-- With the blocks `o`, and those that are lent to it, the computation does what `r` does, and
then it owns blocks as the relation says. Only where it is not safe may it fail otherwise. -/
def Refines (safe : Prop) (lent : Set ℕ) (o : Multiset ℕ) (x : Heaped ε α) (r : Except ε β)
    (Q : α → β → Multiset ℕ → Prop) : Prop :=
  ∀ (h : Heap) (others : Multiset ℕ), h.live = o + others → (safe → ∀ p ∈ lent, p ∈ others) →
    (x h = .error none ∧ ¬ safe) ∨
      (∀ e, r = .error e → x h = .error (some e)) ∧
        ∀ b, r = .ok b → ∃ a h' o', x h = .ok (a, h') ∧ h'.live = o' + others ∧ Q a b o'

variable {safe : Prop} {lent : Set ℕ} {o u v w : Multiset ℕ} {x : Heaped ε α} {r : Except ε β}
variable {f : α → Heaped ε γ} {g : β → Except ε δ}
variable {P Q : α → β → Multiset ℕ → Prop} {R : γ → δ → Multiset ℕ → Prop}
variable {a : α} {b : β} {p : ℕ} {e : ε}

theorem Refines.mono (h : Refines safe lent o x r P) (hPQ : ∀ a b o', P a b o' → Q a b o') :
    Refines safe lent o x r Q := by
  intro heap others hl hlent
  refine (h heap others hl hlent).imp_right fun ⟨he, hok⟩ => ⟨he, fun b hb => ?_⟩
  obtain ⟨a, heap', o', hx, hl', hP⟩ := hok b hb
  exact ⟨a, heap', o', hx, hl', hPQ a b o' hP⟩

theorem Refines.alone {heap : Heap} {others : Multiset ℕ} (h : Refines safe ∅ o x r Q)
    (hl : heap.live = o + others) : (x heap = .error none ∧ ¬ safe) ∨
      (∀ e, r = .error e → x heap = .error (some e)) ∧
        ∀ b, r = .ok b → ∃ a h' o', x heap = .ok (a, h') ∧ h'.live = o' + others ∧ Q a b o' :=
  h heap others hl fun _ _ hp => hp.elim

theorem refines_pure (h : Q a b o) :
    Refines safe lent o (pure a : Heaped ε α) (.ok b : Except ε β) Q := fun heap others hl _ =>
  .inr ⟨fun e he => (by cases he), fun c hc => ⟨a, heap, o, rfl, hl, Except.ok.inj hc ▸ h⟩⟩

theorem refines_error :
    Refines safe lent o (plain (.error e) : Heaped ε α) (.error e : Except ε β) Q :=
  fun heap others _ _ =>
    .inr ⟨fun d hd => by rw [← Except.error.inj hd]; rfl, fun c hc => by cases hc⟩

theorem refines_plain {Q : β → β → Multiset ℕ → Prop} (h : ∀ b, r = .ok b → Q b b o) :
    Refines safe lent o (plain r) r Q := by
  cases r with
  | error e => exact refines_error
  | ok b => exact refines_pure (h b rfl)

/-- A call on some of the blocks. Of the others some are lent. -/
theorem Refines.lend {o : Multiset ℕ} {lent' : Set ℕ} (hx : Refines safe lent' v x r P)
    (ho : o = v + w) (hl : safe → ∀ p ∈ lent', p ∈ w ∨ p ∈ lent)
    (hf : ∀ a b o', r = .ok b → P a b o' → Refines safe lent (o' + w) (f a) (g b) R) :
    Refines safe lent o (x >>= f) (r >>= g) R := by
  intro heap rest hrest hlent
  have hothers : safe → ∀ p ∈ lent', p ∈ w + rest := fun hs p hp =>
    Multiset.mem_add.mpr ((hl hs p hp).imp_right (hlent hs p))
  rcases hx heap (w + rest) (by rw [hrest, ho, add_assoc]) hothers with ⟨hbad, hs⟩ | ⟨he, hok⟩
  · refine .inl ⟨?_, hs⟩
    change (x heap >>= fun q => f q.1 q.2) = _
    rw [hbad]
    rfl
  cases hr : r with
  | error e =>
      refine .inr ⟨fun d hd => ?_, fun c hc => by cases hc⟩
      change (x heap >>= fun q => f q.1 q.2) = _
      rw [he e hr, ← Except.error.inj hd]
      rfl
  | ok b =>
      obtain ⟨a, heap', o', hx', hl', hP⟩ := hok b hr
      have hrun : (x >>= f) heap = f a heap' := by
        change (x heap >>= fun q => f q.1 q.2) = _
        rw [hx']
        rfl
      rw [hrun]
      exact hf a b o' hr hP heap' rest (by rw [hl', add_assoc]) hlent

theorem Refines.call {o : Multiset ℕ} (hx : Refines safe lent v x r P) (ho : o = v + w)
    (hf : ∀ a b o', r = .ok b → P a b o' → Refines safe lent (o' + w) (f a) (g b) R) :
    Refines safe lent o (x >>= f) (r >>= g) R :=
  hx.lend ho (fun _ _ hp => .inr hp) hf

/-- A call of a computation that has no counterpart. -/
theorem Refines.aside {s : Except ε δ} (hx : Refines safe lent v x (.ok b) P) (ho : o = v + w)
    (hf : ∀ a o', P a b o' → Refines safe lent (o' + w) (f a) s R) :
    Refines safe lent o (x >>= f) s R := by
  refine Refines.call (g := fun _ => s) hx ho fun a c o' hc hP => hf a o' ?_
  rwa [Except.ok.inj hc]

theorem Refines.ended {f : α → Heaped ε γ} {R : γ → β → Multiset ℕ → Prop}
    (hx : Refines safe lent v x r P) (ho : o = v + w)
    (hf : ∀ a b o', r = .ok b → P a b o' → Refines safe lent (o' + w) (f a) (.ok b) R) :
    Refines safe lent o (x >>= f) r R := by
  have h : Refines safe lent o (x >>= f) (r >>= Except.ok) R := hx.call ho hf
  cases r with
  | error e => exact h
  | ok b => exact h

/-- A computation that is called last. -/
theorem Refines.last {x : Heaped ε γ} {r : Except ε δ} {P : γ → δ → Multiset ℕ → Prop}
    (hx : Refines safe lent v x r P) (ho : o = v + w)
    (hR : ∀ c d o', r = .ok d → P c d o' → R c d (o' + w)) : Refines safe lent o x r R := by
  rw [← bind_pure x]
  exact hx.ended ho fun c d o' hd hP => refines_pure (hR c d o' hd hP)

theorem refines_plain_bind {f : β → Heaped ε γ}
    (hf : ∀ b, r = .ok b → Refines safe lent o (f b) (g b) R) :
    Refines safe lent o (plain r >>= f) (r >>= g) R := by
  refine Refines.call (w := o) (v := 0)
    (refines_plain (Q := fun a b o' => a = b ∧ o' = 0) fun b _ => ⟨rfl, rfl⟩)
    (zero_add o).symm fun a b o' hb h => ?_
  obtain ⟨rfl, rfl⟩ := h
  rw [zero_add]
  exact hf a hb

theorem refines_plain_last {f : β → Heaped ε γ} {R : γ → β → Multiset ℕ → Prop}
    (hf : ∀ b, r = .ok b → Refines safe lent o (f b) (.ok b) R) :
    Refines safe lent o (plain r >>= f) r R := by
  have h : Refines safe lent o (plain r >>= f) (r >>= Except.ok) R := refines_plain_bind hf
  cases r with
  | error e => exact h
  | ok b => exact h

section Blocks
variable {f : Unit → Heaped ε γ} {k : ℕ → Heaped ε γ} {s : Except ε δ} {q : Option ℕ} {n m : ℕ}

theorem refines_malloc (h : ∀ p, Refines safe lent ({p} + o) (k p) s R) :
    Refines safe lent o (malloc >>= k) s R := fun heap others hl hlent =>
  h heap.next heap.alloc others (by rw [Heap.live_alloc, hl, add_assoc]) hlent

/-- An access that fails only where it is not safe. -/
theorem refines_check {c : Heap → Prop} [DecidablePred c]
    (hc : ∀ heap others, heap.live = o + others → safe → (∀ p ∈ lent, p ∈ others) → c heap)
    (h : Refines safe lent o (f ()) s R) : Refines safe lent o (check c >>= f) s R := by
  intro heap others hl hlent
  have hrun : (check c >>= f) heap = if c heap then f () heap else .error none := by
    change ((if c heap then Except.ok ((), heap) else .error none) >>= fun q => f q.1 q.2) = _
    split_ifs <;> rfl
  rw [hrun]
  split_ifs with hcase
  · exact h heap others hl hlent
  · exact .inl ⟨rfl, fun hs => hcase (hc heap others hl hs (hlent hs))⟩

theorem refines_use_of (hp : safe → p ∈ o ∨ p ∈ lent) (h : Refines safe lent o (f ()) s R) :
    Refines safe lent o (use p >>= f) s R := by
  refine refines_check (fun heap others hl hs hlent => ?_) h
  rw [hl, Multiset.mem_add]
  exact (hp hs).imp_right (hlent p)

theorem refines_use (ho : o = {p} + u) (h : Refines safe lent o (f ()) s R) :
    Refines safe lent o (use p >>= f) s R :=
  refines_use_of (fun _ => .inl (by simp [ho])) h

theorem refines_useAny (ho : o = block q + u) (h : Refines safe lent o (f ()) s R) :
    Refines safe lent o (useAny q >>= f) s R := by
  cases q with
  | none => exact h
  | some p => exact refines_use ho h

theorem refines_useAny_of (hq : safe → ∀ p ∈ q, p ∈ o ∨ p ∈ lent)
    (h : Refines safe lent o (f ()) s R) : Refines safe lent o (useAny q >>= f) s R := by
  cases q with
  | none => exact h
  | some p => exact refines_use_of (fun hs => hq hs p rfl) h

theorem refines_within (hn : safe → n ≤ m) (h : Refines safe lent o (f ()) s R) :
    Refines safe lent o (within n m >>= f) s R :=
  refines_check (fun _ _ _ hs _ => hn hs) h

theorem refines_free (ho : o = {p} + u) (h : Refines safe lent u (f ()) s R) :
    Refines safe lent o (free p >>= f) s R := by
  intro heap others hl hlent
  have hm : p ∈ heap.live := by
    rw [hl, ho]
    simp
  have hrun : (free p >>= f) heap = f () (heap.release p) := by
    change ((if p ∈ heap.live then Except.ok ((), heap.release p) else .error none) >>=
      fun q => f q.1 q.2) = _
    rw [if_pos hm]
    rfl
  rw [hrun]
  refine h (heap.release p) others ?_ hlent
  rw [Heap.live_release, hl, ho, add_assoc, Multiset.singleton_add, Multiset.erase_cons_head]

theorem refines_freeAny (ho : o = block q + u) (h : Refines safe lent u (f ()) s R) :
    Refines safe lent o (freeAny q >>= f) s R := by
  cases q with
  | none =>
      rw [block_none, zero_add] at ho
      rw [ho]
      exact h
  | some p => exact refines_free ho h

theorem refines_realloc (ho : o = block q + u)
    (h : ∀ p, Refines safe lent ({p} + u) (k p) s R) :
    Refines safe lent o (realloc q >>= k) s R := by
  rw [realloc, bind_assoc]
  exact refines_freeAny ho (refines_malloc h)

end Blocks

section Loops
variable {σ τ ι : Type} {I : σ → τ → Multiset ℕ → Prop} {s : σ} {t : τ}

def counted (step : τ → ι → Except ε τ) (cost : τ → ι → ℕ) (r : τ × ℕ) (i : ι) :
    Except ε (τ × ℕ) := (step r.1 i).map fun t => (t, r.2 + cost r.1 i)

theorem foldlM_counted (step : τ → ι → Except ε τ) (cost : τ → ι → ℕ) (l : List ι) (t : τ)
    (n : ℕ) : (l.foldlM (counted step cost) (t, n)).map Prod.fst = l.foldlM step t := by
  induction l generalizing t n with
  | nil => rfl
  | cons i l ih =>
      rw [List.foldlM_cons, List.foldlM_cons, counted]
      cases step t i with
      | error e => rfl
      | ok t' => exact ih t' _

def alongHeap {κ : Type} [DecidableEq κ] (next : κ → Heaped ε κ) (stop : κ) (endless : ε)
    (body : σ → κ → Heaped ε σ) : ℕ → κ → σ → Heaped ε σ
  | 0, _, _ => plain (.error endless)
  | fuel + 1, c, s =>
      if c = stop then pure s
      else do
        let s ← body s c
        let d ← next c
        alongHeap next stop endless body fuel d s

/-- A loop along a chain, whose rounds keep an invariant. -/
theorem refines_along {κ : Type} [DecidableEq κ] {next : κ → Except ε κ} {stop : κ} {endless : ε}
    {nextHeap : κ → Heaped ε κ} {body : σ → κ → Heaped ε σ} {step : τ → κ → Except ε τ}
    (hnext : ∀ c, Refines safe lent 0 (nextHeap c) (next c) fun d e o => d = e ∧ o = 0)
    (h : ∀ s t o c, I s t o → Refines safe lent o (body s c) (step t c) I) (fuel : ℕ) (c : κ)
    (hI : I s t o) : Refines safe lent o (alongHeap nextHeap stop endless body fuel c s)
      (along next stop endless step fuel c t) I := by
  induction fuel generalizing c s t o with
  | zero => exact refines_error
  | succ fuel ih =>
      rw [alongHeap, along]
      split_ifs
      · exact refines_pure hI
      · refine (h s t o c hI).call (w := 0) (add_zero o).symm fun s' t' o' _ hI' => ?_
        rw [add_zero]
        refine (hnext c).call (zero_add _).symm ?_
        rintro d e o'' - ⟨rfl, rfl⟩
        rw [zero_add]
        exact ih d hI'

end Loops

end Rules

end TFAT.OwnedBlocks
