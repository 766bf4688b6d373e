import Mathlib.Data.Finset.Card
import Mathlib.Data.Finset.Range
import Mathlib.Data.List.Nodup
import Mathlib.Data.List.Perm.Subperm
import Mathlib.Data.List.Range

/-!
# Chains of a partial successor

Nodes are linked by a successor that may fail, and one distinguished node ends
a chain. `Follows` says that the walk from a node ends and names every node it
visits. `along` is the loop that runs a body at each visited node and then
moves on; its step budget stands for a loop without one, and a chain whose
length is below the budget is walked to its end. Chains are determined by
their first node, never repeat one, and only depend on the links they use.
-/
namespace TFAT.LinkedChains
variable {α ε σ : Type}

/-- Following `next` from a node visits exactly the listed nodes, then `stop`. -/
inductive Follows (next : α → Except ε α) (stop : α) : α → List α → Prop
  | stop : Follows next stop stop []
  | step {c d : α} {l : List α} : c ≠ stop → next c = .ok d →
      Follows next stop d l → Follows next stop c (c :: l)

/-- A node the walk from another one comes to. -/
inductive Reaches (next : α → Except ε α) (stop : α) : α → α → Prop
  | here {c : α} : c ≠ stop → Reaches next stop c c
  | later {c d x : α} : c ≠ stop → next c = .ok d → Reaches next stop d x →
      Reaches next stop c x

variable {next next' : α → Except ε α} {stop c x : α} {l m : List α}

theorem Follows.unique (h : Follows next stop c l) (k : Follows next stop c m) : l = m := by
  induction h generalizing m with
  | stop =>
      cases k with
      | stop => rfl
      | step hc _ _ => exact absurd rfl hc
  | step hc hd _ ih =>
      cases k with
      | stop => exact absurd rfl hc
      | step _ hd' k =>
          rw [hd, Except.ok.injEq] at hd'
          subst hd'
          rw [ih k]

theorem Follows.eq_nil (h : Follows next stop stop l) : l = [] :=
  h.unique .stop

theorem Follows.eq_stop (h : Follows next stop c []) : c = stop := by
  cases h
  rfl

theorem Follows.cons (h : Follows next stop c l) (hc : c ≠ stop) :
    ∃ d m, l = c :: m ∧ next c = .ok d ∧ Follows next stop d m := by
  cases h with
  | stop => exact absurd rfl hc
  | step _ hd h => exact ⟨_, _, rfl, hd, h⟩

theorem Follows.exists_eq_cons (h : Follows next stop c l) (hl : l ≠ []) :
    ∃ m, l = c :: m := by
  cases h with
  | stop => exact absurd rfl hl
  | step _ _ _ => exact ⟨_, rfl⟩

theorem Follows.ne_stop (h : Follows next stop c l) (hx : x ∈ l) : x ≠ stop := by
  induction h with
  | stop => simp at hx
  | step hc _ _ ih =>
      rcases List.mem_cons.mp hx with rfl | hx
      · exact hc
      · exact ih hx

theorem Follows.next_ok (h : Follows next stop c l) (hx : x ∈ l) : ∃ d, next x = .ok d := by
  induction h with
  | stop => simp at hx
  | step _ hd _ ih =>
      rcases List.mem_cons.mp hx with rfl | hx
      · exact ⟨_, hd⟩
      · exact ih hx

/-- The walk from a visited node is the rest of the chain from that node. -/
theorem Follows.suffix (h : Follows next stop c l) (hx : x ∈ l) :
    ∃ p s, l = p ++ x :: s ∧ Follows next stop x (x :: s) := by
  induction h with
  | stop => simp at hx
  | step hc hd h ih =>
      rcases List.mem_cons.mp hx with rfl | hx
      · exact ⟨[], _, rfl, .step hc hd h⟩
      · obtain ⟨p, s, hl, hs⟩ := ih hx
        exact ⟨_ :: p, s, by rw [hl, List.cons_append], hs⟩

theorem Follows.nodup (h : Follows next stop c l) : l.Nodup := by
  induction h with
  | stop => exact List.nodup_nil
  | @step c d l hc hd h ih =>
      refine List.nodup_cons.mpr ⟨fun hm => ?_, ih⟩
      obtain ⟨p, s, hl, hs⟩ := h.suffix hm
      have he := congrArg List.length (hs.unique (.step hc hd h))
      rw [hl] at he
      simp only [List.length_cons, List.length_append] at he
      omega

theorem Follows.congr (h : Follows next stop c l) (hn : ∀ x ∈ l, next' x = next x) :
    Follows next' stop c l := by
  induction h with
  | stop => exact .stop
  | @step c d l hc hd _ ih =>
      exact .step hc ((hn c (by simp)).trans hd) (ih fun x hx => hn x (by simp [hx]))

theorem Follows.reaches_iff (h : Follows next stop c l) : Reaches next stop c x ↔ x ∈ l := by
  induction h with
  | stop =>
      refine ⟨fun hr => ?_, fun hx => by simp at hx⟩
      cases hr with
      | here hc => exact absurd rfl hc
      | later hc _ _ => exact absurd rfl hc
  | @step c d l hc hd _ ih =>
      rw [List.mem_cons, ← ih]
      constructor
      · intro hr
        cases hr with
        | here _ => exact .inl rfl
        | later _ hd' hr =>
            rw [hd, Except.ok.injEq] at hd'
            exact .inr (hd' ▸ hr)
      · rintro (rfl | hr)
        · exact .here hc
        · exact .later hc hd hr

theorem Reaches.ne_stop (h : Reaches next stop c x) : c ≠ stop := by
  cases h with
  | here hc => exact hc
  | later hc _ _ => exact hc

theorem Reaches.last_ne_stop (h : Reaches next stop c x) : x ≠ stop := by
  induction h with
  | here hc => exact hc
  | later _ _ _ ih => exact ih

theorem Reaches.trans {y : α} (h : Reaches next stop c x) (k : Reaches next stop x y) :
    Reaches next stop c y := by
  induction h with
  | here _ => exact k
  | later hc hd _ ih => exact .later hc hd (ih k)

/-- A walk stays in a set that the links do not leave. -/
theorem Reaches.closed {S : α → Prop} (h : Reaches next stop c x) (hc : S c)
    (hS : ∀ y d, S y → next y = .ok d → d ≠ stop → S d) : S x := by
  induction h with
  | here _ => exact hc
  | later _ hd hr ih => exact ih (hS _ _ hc hd hr.ne_stop)

/-- Where the links of some reached node were cut, both walks come to a cut node. -/
theorem Reaches.cut {C : α → Prop} (h : Reaches next stop c x) (hx : C x)
    (hn : ∀ y, ¬ C y → next' y = next y) :
    ∃ y, C y ∧ Reaches next stop c y ∧ Reaches next' stop c y := by
  induction h with
  | @here c hc => exact ⟨c, hx, .here hc, .here hc⟩
  | @later c d x hc hd _ ih =>
      by_cases hC : C c
      · exact ⟨c, hC, .here hc, .here hc⟩
      · obtain ⟨y, hy, hr, hr'⟩ := ih hx
        exact ⟨y, hy, .later hc hd hr, .later hc ((hn c hC).trans hd) hr'⟩

theorem Reaches.of_congr (h : Reaches next' stop c x)
    (hn : ∀ y, Reaches next stop c y → next' y = next y) : Reaches next stop c x := by
  induction h with
  | here hc => exact .here hc
  | @later c d x hc hd _ ih =>
      have hd' : next c = .ok d := (hn c (.here hc)).symm.trans hd
      exact .later hc hd' (ih fun y hy => hn y (.later hc hd' hy))

/-- Where the link of one class of nodes is cut, the walk behind them comes to the same nodes. -/
theorem Reaches.around_cut {d : α} {C : α → Prop} (hC : ∀ y, C y → next y = .ok d)
    (hn : ∀ y, ¬ C y → next' y = next y) (h : Reaches next stop c x) :
    C x ∨ Reaches next' stop c x ∨ Reaches next' stop d x := by
  induction h with
  | here hc => exact .inr (.inl (.here hc))
  | @later c d' x hc hd _ ih =>
      rcases ih with hx | hr | hr
      · exact .inl hx
      · by_cases hcC : C c
        · rw [hC c hcC, Except.ok.injEq] at hd
          exact .inr (.inr (hd ▸ hr))
        · exact .inr (.inl (.later hc ((hn c hcC).trans hd) hr))
      · exact .inr (.inr hr)

theorem Reaches.before_cut {C : α → Prop} (hC : ∀ y, C y → next' y = .ok stop)
    (hn : ∀ y, ¬ C y → next' y = next y) (h : Reaches next' stop c x) :
    Reaches next stop c x := by
  induction h with
  | here hc => exact .here hc
  | @later c d x hc hd hr ih =>
      by_cases hcC : C c
      · rw [hC c hcC, Except.ok.injEq] at hd
        exact absurd hd.symm hr.ne_stop
      · exact .later hc ((hn c hcC).symm.trans hd) ih

/-- Where the links of a set that they do not leave were cut, the walk still comes to every
other node. -/
theorem Reaches.or_of_cut {C : α → Prop} (hC : ∀ y d, C y → next y = .ok d → d ≠ stop → C d)
    (hn : ∀ y, ¬ C y → next' y = next y) (h : Reaches next stop c x) :
    C x ∨ Reaches next' stop c x := by
  induction h with
  | here hc => exact .inr (.here hc)
  | @later c d x hc hd hr ih =>
      by_cases hcC : C c
      · exact .inl (hr.closed (hC c d hcC hd hr.ne_stop) hC)
      · exact ih.imp_right (.later hc ((hn c hcC).trans hd))

/-- Where links were cut, a chain ends behind its first node with a cut link. -/
theorem Follows.cut {C : α → Prop} (hC : ∀ y, C y → next' y = .ok stop)
    (hn : ∀ y, ¬ C y → next' y = next y) (h : Follows next stop c l) :
    ∃ m rest, l = m ++ rest ∧ Follows next' stop c m ∧ (∀ x ∈ m.dropLast, ¬ C x) ∧
      (rest ≠ [] → ∃ x, m.getLast? = some x ∧ C x) := by
  induction h with
  | stop => exact ⟨[], [], rfl, .stop, by simp, fun h => absurd rfl h⟩
  | @step c d l hc hd _ ih =>
      by_cases hcC : C c
      · exact ⟨[c], l, rfl, .step hc (hC c hcC) .stop, by simp, fun _ => ⟨c, rfl, hcC⟩⟩
      obtain ⟨m, rest, rfl, hm, hkept, hlast⟩ := ih
      refine ⟨c :: m, rest, rfl, .step hc ((hn c hcC).trans hd) hm, fun x hx => ?_, fun hr => ?_⟩
      · cases m with
        | nil => simp at hx
        | cons y m =>
            rw [List.dropLast_cons_of_ne_nil (List.cons_ne_nil y m), List.mem_cons] at hx
            rcases hx with rfl | hx
            · exact hcC
            · exact hkept x hx
      · obtain ⟨x, hx, hxC⟩ := hlast hr
        exact ⟨x, by rw [List.getLast?_cons, hx, Option.getD_some], hxC⟩

theorem Follows.length_le_of_cut (h : Follows next' stop c m) (k : Follows next stop c l)
    (hn : ∀ y, next' y = next y ∨ next' y = .ok stop) : m.length ≤ l.length := by
  induction h generalizing l with
  | stop => exact Nat.zero_le _
  | @step c d m hc hd h ih =>
      obtain ⟨d', l, rfl, hd', k⟩ := k.cons hc
      rcases hn c with he | he
      · rw [he, hd', Except.ok.injEq] at hd
        exact Nat.succ_le_succ (ih (hd ▸ k))
      · rw [he, Except.ok.injEq] at hd
        rw [← hd] at h
        simp [h.eq_nil]

theorem Follows.length_le {next : ℕ → Except ε ℕ} {stop c N : ℕ} {l : List ℕ}
    (h : Follows next stop c l) (hN : ∀ x ∈ l, x < N) : l.length ≤ N := by
  have hs := (h.nodup.subperm fun x hx => List.mem_range.mpr (hN x hx)).length_le
  simpa only [List.length_range] using hs

/-- Distinct numbers from `m` on reach as far as there are numbers. -/
theorem exists_add_length_le {l : List ℕ} {m : ℕ} (hn : l.Nodup) (hm : ∀ x ∈ l, m ≤ x)
    (hl : l ≠ []) : ∃ x ∈ l, m + l.length ≤ x + 1 := by
  by_contra hcon
  simp only [not_exists, not_and, not_le] at hcon
  have hpos := List.length_pos_of_ne_nil hl
  have hr : ∀ x ∈ l, x ∈ List.range' m (l.length - 1) := by
    intro x hx
    have hlow := hm x hx
    have hup := hcon x hx
    rw [List.mem_range'_1]
    omega
  have hs := (hn.subperm hr).length_le
  rw [List.length_range'] at hs
  omega

/-- The walk from `c` comes to some node twice. -/
def ComesBack (next : α → Except ε α) (stop c : α) : Prop :=
  ∃ x d, Reaches next stop c x ∧ next x = .ok d ∧ Reaches next stop d x

theorem Follows.not_comesBack (h : Follows next stop c l) : ¬ ComesBack next stop c := by
  rintro ⟨x, d, hx, hd, hr⟩
  obtain ⟨p, s, rfl, hs⟩ := h.suffix (h.reaches_iff.mp hx)
  obtain ⟨d', m, hm, hd', hf⟩ := hs.cons (h.ne_stop (h.reaches_iff.mp hx))
  rw [hd, Except.ok.injEq] at hd'
  subst hd'
  rw [List.cons.injEq] at hm
  have hnodup := hs.nodup
  rw [List.nodup_cons, hm.2] at hnodup
  exact hnodup.1 (hf.reaches_iff.mp hr)

open Classical in
/-- A walk among finitely many nodes that comes to none of them twice has an end. -/
theorem exists_follows {next : ℕ → Except ε ℕ} {stop c N : ℕ}
    (hN : ∀ x, Reaches next stop c x → x < N ∧ ∃ d, next x = .ok d)
    (hc : ¬ ComesBack next stop c) : ∃ l, Follows next stop c l := by
  induction hn : ((Finset.range N).filter (Reaches next stop c)).card using Nat.strong_induction_on
    generalizing c with
  | _ n ih =>
      by_cases hstop : c = stop
      · exact ⟨[], hstop ▸ .stop⟩
      · obtain ⟨hlt, d, hd⟩ := hN c (.here hstop)
        have hlater {x : ℕ} (hx : Reaches next stop d x) : Reaches next stop c x :=
          .later hstop hd hx
        have hsub : (Finset.range N).filter (Reaches next stop d) ⊂
            (Finset.range N).filter (Reaches next stop c) := by
          refine Finset.ssubset_iff_of_subset (fun x hx => ?_) |>.mpr ⟨c, ?_, ?_⟩
          · rw [Finset.mem_filter] at hx ⊢
            exact ⟨hx.1, hlater hx.2⟩
          · exact Finset.mem_filter.mpr ⟨Finset.mem_range.mpr hlt, .here hstop⟩
          · intro hm
            exact hc ⟨c, d, .here hstop, hd, (Finset.mem_filter.mp hm).2⟩
        have hcd : ¬ ComesBack next stop d := by
          rintro ⟨x, e, hx, he, hr⟩
          exact hc ⟨x, e, hlater hx, he, hr⟩
        obtain ⟨l, hl⟩ := ih _ (hn ▸ Finset.card_lt_card hsub) (fun x hx => hN x (hlater hx))
          hcd rfl
        exact ⟨c :: l, .step hstop hd hl⟩

theorem foldlM_snoc (l s : List α) :
    l.foldlM (fun s c => (.ok (s ++ [c]) : Except ε (List α))) s = .ok (s ++ l) := by
  induction l generalizing s with
  | nil => simp [pure, Except.pure]
  | cons c l ih =>
      rw [List.foldlM_cons]
      change l.foldlM _ (s ++ [c]) = _
      rw [ih, List.append_assoc, List.singleton_append]

/-- A loop whose every round succeeds and keeps an invariant of the nodes it has
passed ends in the invariant of all of them. -/
theorem foldlM_total {body : σ → α → Except ε σ} {I : List α → σ → Prop} {s : σ} (h₀ : I [] s)
    (hs : ∀ p c q s, l = p ++ c :: q → I p s → ∃ s', body s c = .ok s' ∧ I (p ++ [c]) s') :
    ∃ s', l.foldlM body s = .ok s' ∧ I l s' := by
  suffices H : ∀ r p s, l = p ++ r → I p s → ∃ s', r.foldlM body s = .ok s' ∧ I l s' from
    H l [] s rfl h₀
  intro r
  induction r with
  | nil =>
      intro p s hl hp
      rw [List.append_nil] at hl
      exact ⟨s, rfl, hl ▸ hp⟩
  | cons c r ih =>
      intro p s hl hp
      obtain ⟨t, ht, hI⟩ := hs p c r s hl hp
      obtain ⟨s', hs', hl'⟩ := ih (p ++ [c]) t (by simp [hl]) hI
      refine ⟨s', ?_, hl'⟩
      rw [List.foldlM_cons, ht]
      exact hs'

/-- A loop that succeeds ends in the invariant its rounds keep. -/
theorem foldlM_partial {body : σ → α → Except ε σ} {I : List α → σ → Prop} {s s' : σ}
    (h : l.foldlM body s = .ok s') (h₀ : I [] s)
    (hs : ∀ p c q s t, l = p ++ c :: q → I p s → body s c = .ok t → I (p ++ [c]) t) : I l s' := by
  suffices H : ∀ r p s, l = p ++ r → I p s → r.foldlM body s = .ok s' → I l s' from
    H l [] s rfl h₀ h
  intro r
  induction r with
  | nil =>
      intro p s hl hp hr
      rw [List.append_nil] at hl
      exact Except.ok.inj hr ▸ hl ▸ hp
  | cons c r ih =>
      intro p s hl hp hr
      rw [List.foldlM_cons] at hr
      cases hb : body s c with
      | error e => simp [hb, bind, Except.bind] at hr
      | ok t =>
          rw [hb] at hr
          exact ih (p ++ [c]) t (by simp [hl]) (hs p c r s t hl hp hb) hr

theorem foldlM_range_partial {body : σ → ℕ → Except ε σ} {I : ℕ → σ → Prop} {s s' : σ} {n : ℕ}
    (h : (List.range n).foldlM body s = .ok s') (h₀ : I 0 s)
    (hs : ∀ k s t, k < n → I k s → body s k = .ok t → I (k + 1) t) : I n s' := by
  have hI := foldlM_partial (I := fun p s => I p.length s) h h₀ (by
    intro p k q s t hl hp ht
    have hlen := congrArg List.length hl
    have hk : k = p.length := by
      have hget := congrArg (fun l => l[p.length]?) hl
      simp only [List.length_range, List.length_append, List.length_cons] at hlen
      simp only [List.getElem?_append_right le_rfl, Nat.sub_self, List.getElem?_cons_zero,
        List.getElem?_range (show p.length < n by omega), Option.some.injEq] at hget
      exact hget.symm
    simp only [List.length_range, List.length_append, List.length_cons] at hlen
    subst hk
    rw [List.length_append, List.length_singleton]
    exact hs p.length s t (by omega) hp ht)
  simpa using hI

theorem foldlM_ne_error {body : σ → α → Except ε σ} {s : σ} {e : ε}
    (hb : ∀ s, ∀ c ∈ l, body s c ≠ .error e) : l.foldlM body s ≠ .error e := by
  induction l generalizing s with
  | nil => exact fun h => by cases h
  | cons c l ih =>
      rw [List.foldlM_cons]
      cases hc : body s c with
      | error f => exact fun h => hb s c (by simp) (hc.trans h)
      | ok t => exact ih fun s x hx => hb s x (by simp [hx])

variable [DecidableEq α]

/-- The loop that runs a body at each node of the walk and then moves on. -/
def along (next : α → Except ε α) (stop : α) (endless : ε) (body : σ → α → Except ε σ) :
    ℕ → α → σ → Except ε σ
  | 0, _, _ => .error endless
  | fuel + 1, c, s =>
      if c = stop then .ok s
      else do
        let s ← body s c
        let d ← next c
        along next stop endless body fuel d s

variable {endless : ε} {body : σ → α → Except ε σ} {s s' : σ} {fuel : ℕ}

/-- On a chain shorter than the budget the loop is the fold of its body. -/
theorem along_of_follows (h : Follows next stop c l) (hf : l.length < fuel) :
    along next stop endless body fuel c s = l.foldlM body s := by
  induction h generalizing fuel s with
  | stop =>
      cases fuel with
      | zero => simp at hf
      | succ fuel =>
          rw [along, if_pos rfl]
          rfl
  | step hc hd _ ih =>
      cases fuel with
      | zero => simp at hf
      | succ fuel =>
          rw [along, if_neg hc, List.foldlM_cons, hd]
          congr 1
          funext s
          exact ih (by simpa using hf)

/-- A loop that ends has walked a finite chain. -/
theorem follows_of_along (h : along next stop endless body fuel c s = .ok s') :
    ∃ l, Follows next stop c l ∧ l.length < fuel ∧ l.foldlM body s = .ok s' := by
  induction fuel generalizing c s with
  | zero => simp [along] at h
  | succ fuel ih =>
      rw [along] at h
      split_ifs at h with hc
      · exact ⟨[], hc ▸ .stop, Nat.succ_pos _, h⟩
      · cases hb : body s c with
        | error e => simp [hb, bind, Except.bind] at h
        | ok t =>
            cases hd : next c with
            | error e => simp [hb, hd, bind, Except.bind] at h
            | ok d =>
                simp only [hb, hd, bind, Except.bind] at h
                obtain ⟨l, hl, hlen, hfold⟩ := ih h
                refine ⟨c :: l, .step hc hd hl, by simpa using hlen, ?_⟩
                rw [List.foldlM_cons, hb]
                exact hfold

/-- Where the body never uses up the budget, a finite chain below it does not either. -/
theorem along_ne_endless (h : Follows next stop c l) (hf : l.length < fuel)
    (hb : ∀ s c, body s c ≠ .error endless) :
    along next stop endless body fuel c s ≠ .error endless := by
  rw [along_of_follows h hf]
  exact foldlM_ne_error fun s c _ => hb s c

theorem along_ne_error {e : ε} (he : endless ≠ e) (hb : ∀ s c, body s c ≠ .error e)
    (hn : ∀ x, Reaches next stop c x → next x ≠ .error e) :
    along next stop endless body fuel c s ≠ .error e := by
  induction fuel generalizing c s with
  | zero => exact fun h => he (Except.error.inj h)
  | succ fuel ih =>
      rw [along]
      split_ifs with hc
      · exact fun h => by cases h
      · cases ht : body s c with
        | error f => exact fun h => hb s c (ht.trans h)
        | ok t =>
            cases hd : next c with
            | error f =>
                refine fun h => hn c (.here hc) ?_
                rw [hd]
                exact congrArg _ (Except.error.inj h)
            | ok d => exact ih fun x hx => hn x (.later hc hd hx)

theorem along_ne_ok (h : ComesBack next stop c) : along next stop endless body fuel c s ≠ .ok s' :=
  fun ha => (follows_of_along ha).elim fun _ hl => hl.1.not_comesBack h

/-- The nodes of the walk, in the order of the walk. -/
def trail (next : α → Except ε α) (stop : α) (endless : ε) (fuel : ℕ) (c : α) :
    Except ε (List α) :=
  along next stop endless (fun s c => .ok (s ++ [c])) fuel c []

theorem trail_of_follows (h : Follows next stop c l) (hf : l.length < fuel) :
    trail next stop endless fuel c = .ok l := by
  rw [trail, along_of_follows h hf, foldlM_snoc, List.nil_append]

theorem follows_of_trail (h : trail next stop endless fuel c = .ok l) :
    Follows next stop c l := by
  obtain ⟨m, hm, -, hfold⟩ := follows_of_along h
  rw [foldlM_snoc, List.nil_append, Except.ok.injEq] at hfold
  exact hfold ▸ hm

end TFAT.LinkedChains
