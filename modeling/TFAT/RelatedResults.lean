import TFAT.LinkedChains

/-!
# Computations in lockstep

Two computations are related when both fail in the same way, or both return and what they
return is related. There is one rule for sequences and one for each kind of loop.
-/
namespace TFAT.RelatedResults
open LinkedChains

section Rules
variable {ε α β γ δ σ τ ι : Type} {R : α → β → Prop} {Q : γ → δ → Prop}

/-- Both fail in the same way, or both return and the results are related. -/
inductive Related (R : α → β → Prop) : Except ε α → Except ε β → Prop
  | error (e : ε) : Related R (.error e) (.error e)
  | ok {a : α} {b : β} : R a b → Related R (.ok a) (.ok b)

variable {x : Except ε α} {y : Except ε β}

theorem Related.mono {S : α → β → Prop} (h : Related R x y) (hs : ∀ a b, R a b → S a b) :
    Related S x y := by
  cases h with
  | error e => exact .error e
  | ok h => exact .ok (hs _ _ h)

theorem Related.bind {f : α → Except ε γ} {g : β → Except ε δ} (h : Related R x y)
    (hf : ∀ a b, x = .ok a → y = .ok b → R a b → Related Q (f a) (g b)) :
    Related Q (x >>= f) (y >>= g) := by
  cases h with
  | error e => exact .error e
  | ok h => exact hf _ _ rfl rfl h

theorem related_bind {f : α → Except ε γ} {g : α → Except ε δ}
    (hf : ∀ a, x = .ok a → Related Q (f a) (g a)) : Related Q (x >>= f) (x >>= g) := by
  cases x with
  | error e => exact .error e
  | ok a => exact hf a rfl

section Loops
variable {I : σ → τ → Prop} {s : σ} {t : τ}

/-- Two loops over the same list, whose rounds keep the relation. -/
theorem related_foldlM {body : σ → ι → Except ε σ} {step : τ → ι → Except ε τ}
    (h : ∀ s t i, I s t → Related I (body s i) (step t i)) (l : List ι) (hI : I s t) :
    Related I (l.foldlM body s) (l.foldlM step t) := by
  induction l generalizing s t with
  | nil => exact .ok hI
  | cons i l ih =>
      rw [List.foldlM_cons, List.foldlM_cons]
      exact (h s t i hI).bind fun s' t' _ _ hI' => ih hI'

theorem related_along {κ : Type} [DecidableEq κ] {next : κ → Except ε κ} {stop : κ} {endless : ε}
    {body : σ → κ → Except ε σ} {step : τ → κ → Except ε τ}
    (h : ∀ s t c, I s t → Related I (body s c) (step t c)) (fuel : ℕ) (c : κ) (hI : I s t) :
    Related I (along next stop endless body fuel c s) (along next stop endless step fuel c t) := by
  induction fuel generalizing c s t with
  | zero => exact .error endless
  | succ fuel ih =>
      rw [along, along]
      split_ifs
      · exact .ok hI
      · exact (h s t c hI).bind fun s' t' _ _ hI' => related_bind fun d _ => ih d hI'

end Loops

end Rules

end TFAT.RelatedResults
