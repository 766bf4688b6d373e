import Mathlib.Data.Set.Basic
import Mathlib.Logic.Function.Basic
import Mathlib.Order.Interval.Set.Defs

/-!
# Computations that leave a trace of their accesses

A computation that may fail is run together with the list of the accesses that it makes
to named blocks of memory. A trace is sound when every access lies in the block that was
allocated last under its name, and every load reads positions that have been stored since.
`Safe` is the total correctness of a computation from a memory: its trace is sound, it
returns, and its result and the memory it leaves satisfy a postcondition. There is one
rule for each action, one for sequences and one for runs.
-/
namespace TFAT.BlockTraces

/-- An access to a block, or a change of the block that has the name. -/
inductive Event (κ : Type) where
  | alloc (k : κ) (size : ℕ)
  | free (k : κ)
  | store (k : κ) (off len : ℕ)
  | load (k : κ) (off len : ℕ)
  deriving DecidableEq

/-- A block, with the positions that have been stored since it was allocated. -/
structure Block where
  size : ℕ
  stored : Set ℕ

abbrev Memory (κ : Type) := κ → Option Block

def Block.put (b : Block) (off len : ℕ) : Block :=
  ⟨b.size, b.stored ∪ Set.Ico off (off + len)⟩

section Traces
variable {κ : Type} [DecidableEq κ]

/-- The memory behind an event. -/
def after (m : Memory κ) : Event κ → Memory κ
  | .alloc k size => Function.update m k (some ⟨size, ∅⟩)
  | .free k => Function.update m k none
  | .store k off len => Function.update m k ((m k).map (·.put off len))
  | .load _ _ _ => m

/-- What is freed is allocated, an access lies in the block, and a load reads what has
been stored. -/
def Allowed (m : Memory κ) : Event κ → Prop
  | .alloc _ _ => True
  | .free k => ∃ b, m k = some b
  | .store k off len => ∃ b, m k = some b ∧ off + len ≤ b.size
  | .load k off len => ∃ b, m k = some b ∧ off + len ≤ b.size ∧
      Set.Ico off (off + len) ⊆ b.stored

def Sound : Memory κ → List (Event κ) → Prop
  | _, [] => True
  | m, e :: t => Allowed m e ∧ Sound (after m e) t

def afterAll (m : Memory κ) (t : List (Event κ)) : Memory κ := t.foldl after m

theorem afterAll_append (m : Memory κ) (s t : List (Event κ)) :
    afterAll m (s ++ t) = afterAll (afterAll m s) t :=
  List.foldl_append

theorem sound_append {m : Memory κ} {s t : List (Event κ)} :
    Sound m (s ++ t) ↔ Sound m s ∧ Sound (afterAll m s) t := by
  induction s generalizing m with
  | nil => simp [Sound, afterAll]
  | cons e s ih =>
      rw [List.cons_append, Sound, Sound, ih, and_assoc]
      rfl

end Traces

/-- A computation that may fail, with the events that it causes. -/
structure Traced (κ ε α : Type) where
  result : Except ε α
  events : List (Event κ)

namespace Traced
variable {κ ε α β σ ι : Type}

/-- Behind a failure nothing more happens. -/
def andThen (x : Traced κ ε α) (f : α → Traced κ ε β) : Traced κ ε β :=
  match x.result with
  | .ok a => ⟨(f a).result, x.events ++ (f a).events⟩
  | .error e => ⟨.error e, x.events⟩

instance : Monad (Traced κ ε) where
  pure a := ⟨.ok a, []⟩
  bind := andThen

def fail (e : ε) : Traced κ ε α := ⟨.error e, []⟩

/-- A computation that accesses none of the blocks. -/
def lift (x : Except ε α) : Traced κ ε α := ⟨x, []⟩

def emit (e : Event κ) : Traced κ ε Unit := ⟨.ok (), [e]⟩

@[simp] theorem result_pure (a : α) : (pure a : Traced κ ε α).result = .ok a := rfl

@[simp] theorem result_fail (e : ε) : (fail e : Traced κ ε α).result = .error e := rfl

@[simp] theorem result_lift (x : Except ε α) : (lift x : Traced κ ε α).result = x := rfl

@[simp] theorem result_emit (e : Event κ) : (emit e : Traced κ ε Unit).result = .ok () := rfl

@[simp] theorem result_bind (x : Traced κ ε α) (f : α → Traced κ ε β) :
    (x >>= f).result = x.result >>= fun a => (f a).result := by
  change (andThen x f).result = _
  unfold andThen
  cases x.result <;> rfl

@[simp] theorem result_ite (p : Prop) [Decidable p] (x y : Traced κ ε α) :
    (if p then x else y).result = if p then x.result else y.result := by
  split_ifs <;> rfl

section Rules
variable [DecidableEq κ] {m : Memory κ} {x : Traced κ ε α} {f : α → Traced κ ε β}
variable {P Q : α → Memory κ → Prop} {R : β → Memory κ → Prop} {a : α} {b : Block} {k : κ}
variable {off len : ℕ}

/-- The trace of the computation is sound and it returns as the postcondition says. -/
def Safe (m : Memory κ) (x : Traced κ ε α) (Q : α → Memory κ → Prop) : Prop :=
  Sound m x.events ∧ ∃ a, x.result = .ok a ∧ Q a (afterAll m x.events)

theorem safe_pure (h : Q a m) : Safe m (pure a : Traced κ ε α) Q := ⟨trivial, a, rfl, h⟩

theorem safe_lift {r : Except ε α} (hr : r = .ok a) (h : Q a m) :
    Safe m (lift r : Traced κ ε α) Q :=
  ⟨trivial, a, hr, h⟩

theorem safe_alloc {U : Unit → Memory κ → Prop} {size : ℕ}
    (h : U () (Function.update m k (some ⟨size, ∅⟩))) :
    Safe m (emit (.alloc k size) : Traced κ ε Unit) U :=
  ⟨⟨trivial, trivial⟩, (), rfl, h⟩

theorem safe_free {U : Unit → Memory κ → Prop} (hb : m k = some b)
    (h : U () (Function.update m k none)) : Safe m (emit (.free k) : Traced κ ε Unit) U :=
  ⟨⟨⟨b, hb⟩, trivial⟩, (), rfl, h⟩

theorem safe_store {U : Unit → Memory κ → Prop} (hb : m k = some b) (hle : off + len ≤ b.size)
    (h : U () (Function.update m k (some (b.put off len)))) :
    Safe m (emit (.store k off len) : Traced κ ε Unit) U := by
  refine ⟨⟨⟨b, hb, hle⟩, trivial⟩, (), rfl, ?_⟩
  change U () (Function.update m k ((m k).map _))
  rw [hb]
  exact h

theorem safe_load {U : Unit → Memory κ → Prop} (hb : m k = some b) (hle : off + len ≤ b.size)
    (hs : Set.Ico off (off + len) ⊆ b.stored) (h : U () m) :
    Safe m (emit (.load k off len) : Traced κ ε Unit) U :=
  ⟨⟨⟨b, hb, hle, hs⟩, trivial⟩, (), rfl, h⟩

theorem Safe.mono (h : Safe m x P) (hPQ : ∀ a m', P a m' → Q a m') : Safe m x Q := by
  obtain ⟨hs, a, ha, hP⟩ := h
  exact ⟨hs, a, ha, hPQ a _ hP⟩

theorem Safe.with_result (h : Safe m x Q) (ha : x.result = .ok a) :
    Safe m x fun c m' => c = a ∧ Q c m' := by
  obtain ⟨hs, c, hc, hQ⟩ := h
  exact ⟨hs, c, hc, Except.ok.inj (hc.symm.trans ha), hQ⟩

theorem Safe.bind (hx : Safe m x P) (hf : ∀ a m', P a m' → Safe m' (f a) R) :
    Safe m (x >>= f) R := by
  obtain ⟨hs, a, ha, hP⟩ := hx
  obtain ⟨hs', c, hc, hR⟩ := hf a _ hP
  have hev : (x >>= f).events = x.events ++ (f a).events := by
    change (andThen x f).events = _
    rw [andThen, ha]
  refine ⟨?_, c, ?_, ?_⟩
  · rw [hev, sound_append]
    exact ⟨hs, hs'⟩
  · rw [result_bind, ha]
    exact hc
  · rw [hev, afterAll_append]
    exact hR

/-- The calls of a list, one behind the other. -/
def run (step : σ → ι → Traced κ ε σ) : σ → List ι → Traced κ ε σ
  | s, [] => pure s
  | s, i :: l => step s i >>= fun s => run step s l

/-- An invariant that each call keeps safely is kept by every run. -/
theorem safe_run {step : σ → ι → Traced κ ε σ} {I : σ → Memory κ → Prop}
    (hstep : ∀ s m i, I s m → Safe m (step s i) I) (l : List ι) {s : σ} {m : Memory κ}
    (h : I s m) : Safe m (run step s l) I := by
  induction l generalizing s m with
  | nil => exact safe_pure h
  | cons i l ih => exact (hstep s m i h).bind fun _ _ h' => ih h'

end Rules

end Traced

end TFAT.BlockTraces
