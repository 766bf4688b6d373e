import Mathlib.Data.Set.Basic

/-!
# Stores that are written back

Some places of a store are held in a buffer and reach the disk when the store
is left. The others are written at once. When the buffer is written back, every
step is shown. When it is dropped, a step is shown wholly or not at all if it
stayed on one side, and it is torn if it did not.
-/
namespace TFAT.WriteBack
variable {ι α : Type*}

/-- A store some of whose places are held in a buffer. -/
structure Buffered (ι α : Type*) where
  disk : ι → α
  buffer : ι → α

variable (area : Set ι)

open Classical in
/-- The disk behind a write of the buffer. -/
noncomputable def writtenBack (s : Buffered ι α) (i : ι) : α :=
  if i ∈ area then s.buffer i else s.disk i

/-- Wherever the step from `s` to `t` changed something, `out` has what is there at last. -/
structure Wholly (s t last : Buffered ι α) (out : ι → α) : Prop where
  buffered : ∀ i ∈ area, s.buffer i ≠ t.buffer i → out i = last.buffer i
  written : ∀ i, s.disk i ≠ t.disk i → out i = last.disk i

/-- Wherever the step from `s` to `t` changed something, `out` has what was there at first. -/
structure NotAtAll (s t : Buffered ι α) (first out : ι → α) : Prop where
  buffered : ∀ i ∈ area, s.buffer i ≠ t.buffer i → out i = first i
  written : ∀ i, s.disk i ≠ t.disk i → out i = first i

/-- No place that is held in the buffer is written on the disk. -/
def Direct (s t : Buffered ι α) : Prop := ∀ i ∈ area, t.disk i = s.disk i

/-- The disk is as it was at first in the places that are held in the buffer. -/
def Held (first : ι → α) (s : Buffered ι α) : Prop := ∀ i ∈ area, s.disk i = first i

variable {area} {s t last : Buffered ι α} {first out : ι → α} {i j : ι}

theorem writtenBack_of_mem (h : i ∈ area) : writtenBack area s i = s.buffer i := if_pos h

theorem writtenBack_of_notMem (h : i ∉ area) : writtenBack area s i = s.disk i := if_neg h

theorem Held.step (h : Held area first s) (hd : Direct area s t) : Held area first t :=
  fun i hi => (hd i hi).trans (h i hi)

theorem Direct.notMem (h : Direct area s t) (hi : s.disk i ≠ t.disk i) : i ∉ area :=
  fun hm => hi (h i hm).symm

/-- Writing the buffer back shows every direct step wholly. -/
theorem Direct.wholly (h : Direct area s t) (hout : ∀ i, out i = writtenBack area last i) :
    Wholly area s t last out :=
  ⟨fun i hi _ => (hout i).trans (writtenBack_of_mem hi),
    fun i hi => (hout i).trans (writtenBack_of_notMem (h.notMem hi))⟩

theorem wholly_of_dropped (h : ∀ i ∈ area, t.buffer i = s.buffer i) :
    Wholly area s t last last.disk :=
  ⟨fun i hi hc => absurd (h i hi).symm hc, fun _ _ => rfl⟩

theorem notAtAll_of_dropped (h : t.disk = s.disk) (hl : Held area first last) :
    NotAtAll area s t first last.disk :=
  ⟨fun i hi _ => hl i hi, fun i hi => absurd (congrFun h i).symm hi⟩

/-- Dropping the buffer right behind a step of both sides shows neither. -/
theorem torn (hi : i ∈ area) (hb : s.buffer i ≠ t.buffer i) (hw : s.disk j ≠ t.disk j)
    (hl : Held area first t) (hsi : first i = s.buffer i) (hsj : first j = s.disk j) :
    ¬ Wholly area s t t t.disk ∧ ¬ NotAtAll area s t first t.disk := by
  constructor
  · intro h
    exact hb (hsi.symm.trans ((hl i hi).symm.trans (h.buffered i hi hb)))
  · intro h
    exact hw (hsj.symm.trans (h.written j hw).symm)

end TFAT.WriteBack
