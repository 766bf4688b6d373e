import TFAT.FileDescriptor

/-!
# Writing into a block from a position on

A writer takes a block and a position in it, and returns the block with bytes stored and the
position behind them. `Appends` says that a writer stores a string behind what is there and
touches at most one byte behind it. There is a rule for one string, one for a sequence of
writers and one for a writer that fills a block and closes it with a zero.
-/
namespace TFAT.BlockWriters
open ByteRegions LittleEndianWords DiskLayout FileDescriptor

abbrev Writer := Bytes → ℕ → Except Fault (Bytes × ℕ)

def Writer.seq (f g : Writer) : Writer := fun block cp => do
  let r ← f block cp
  g r.1 r.2

/-- The writer appends the string where the block has a byte more than that, and where it
returns it has passed the string in a block of the same size. -/
structure Appends (f : Writer) (t : Bytes) : Prop where
  fits : ∀ block front, front <+: block → front.length + t.length < block.length →
    ∃ b, f block front.length = .ok (b, front.length + t.length) ∧ b.length = block.length ∧
      front ++ t <+: b
  moves : ∀ block cp r, f block cp = .ok r → r.1.length = block.length ∧ r.2 = cp + t.length

section Blocks
variable {block front t b : Bytes} {n : ℕ}

theorem copyIn_middle {l m r d : Bytes} (h : d.length = m.length) :
    copyIn (l ++ (m ++ r)) l.length d = .ok (l ++ (d ++ r)) := by
  rw [copyIn_of_le, splice_append_middle h]
  rw [List.length_append, List.length_append, h]
  omega

theorem copyIn_inner {l u m r d : Bytes} (h : d.length = m.length) :
    copyIn (l ++ (u ++ (m ++ r))) (l.length + u.length) d = .ok (l ++ (u ++ (d ++ r))) := by
  have hmiddle := copyIn_middle (l := l ++ u) (r := r) h
  rwa [List.length_append, List.append_assoc, List.append_assoc] at hmiddle

theorem prefix_copyIn (hf : front <+: block) (h : front.length + t.length ≤ block.length) :
    ∃ b, copyIn block front.length t = .ok b ∧ b.length = block.length ∧ front ++ t <+: b := by
  obtain ⟨rest, rfl⟩ := hf
  rw [List.length_append] at h
  have hlen : t.length = (rest.take t.length).length := by
    rw [List.length_take]
    omega
  refine ⟨_, copyIn_of_le (by rw [List.length_append]; omega),
    length_splice_of_le (by rw [List.length_append]; omega), ?_⟩
  rw [← List.take_append_drop t.length rest, splice_append_middle hlen, ← List.append_assoc]
  exact List.prefix_append _ _

theorem length_of_copyIn (h : copyIn block n t = .ok b) : b.length = block.length := by
  unfold copyIn at h
  split_ifs at h with hin
  rw [Except.ok.injEq] at h
  subst h
  rcases hin with h₀ | hle
  · rw [List.eq_nil_of_length_eq_zero h₀, splice_nil]
  · exact length_splice_of_le hle

theorem lt_of_copyIn {x : UInt8} (h : copyIn block n [x] = .ok b) : n < block.length := by
  by_contra hcon
  rw [copyIn_of_lt (by simp) (by rw [List.length_singleton]; omega)] at h
  cases h

end Blocks

section Rules
variable {f g : Writer} {t u : Bytes}

theorem appends_nil : Appends (fun block cp => .ok (block, cp)) [] where
  fits block front hf _ := ⟨block, rfl, rfl, by rwa [List.append_nil]⟩
  moves block cp r h := by
    rw [Except.ok.injEq] at h
    subst h
    exact ⟨rfl, rfl⟩

theorem Appends.seq (hf : Appends f t) (hg : Appends g u) : Appends (f.seq g) (t ++ u) where
  fits block front hfront hroom := by
    rw [List.length_append] at hroom
    obtain ⟨b, hb, hlen, hpre⟩ := hf.fits block front hfront (by omega)
    have hnext := hg.fits b (front ++ t) hpre (by rw [List.length_append]; omega)
    rw [List.length_append] at hnext
    obtain ⟨c, hc, hlen', hpre'⟩ := hnext
    refine ⟨c, ?_, hlen'.trans hlen, by rwa [← List.append_assoc]⟩
    rw [Writer.seq, hb, ok_bind, hc, List.length_append, Nat.add_assoc]
  moves block cp r h := by
    obtain ⟨q, hq, hr⟩ := bind_eq_ok.mp h
    obtain ⟨hlen, hpos⟩ := hf.moves block cp q hq
    obtain ⟨hlen', hpos'⟩ := hg.moves q.1 q.2 r hr
    rw [List.length_append]
    exact ⟨hlen'.trans hlen, by omega⟩

theorem appends_bytes (t : Bytes) :
    Appends (fun block cp => copyIn block cp t >>= fun b => .ok (b, cp + t.length)) t where
  fits block front hfront hroom := by
    obtain ⟨b, hb, hlen, hpre⟩ := prefix_copyIn hfront hroom.le
    exact ⟨b, by rw [hb, ok_bind], hlen, hpre⟩
  moves block cp r h := by
    obtain ⟨b, hb, hr⟩ := bind_eq_ok.mp h
    rw [Except.ok.injEq] at hr
    subst hr
    exact ⟨length_of_copyIn hb, rfl⟩

theorem appends_string (t : Bytes) : Appends (fun block cp =>
    copyIn block cp (t ++ [0]) >>= fun b => .ok (b, cp + t.length)) t where
  fits block front hfront hroom := by
    obtain ⟨b, hb, hlen, hpre⟩ := prefix_copyIn (t := t ++ [0]) hfront (by
      rw [List.length_append, List.length_singleton]
      omega)
    refine ⟨b, by rw [hb, ok_bind], hlen, (List.prefix_append (front ++ t) [0]).trans ?_⟩
    rwa [List.append_assoc]
  moves block cp r h := by
    obtain ⟨b, hb, hr⟩ := bind_eq_ok.mp h
    rw [Except.ok.injEq] at hr
    subst hr
    exact ⟨length_of_copyIn hb, rfl⟩

/-- Four bytes are stored, the first one and then the others from the last one on. -/
theorem appends_backwards (x₀ x₁ x₂ x₃ : UInt8) : Appends (fun block cp =>
    copyIn block cp [x₀] >>= fun b => copyIn b (cp + 3) [x₃] >>= fun b =>
      copyIn b (cp + 2) [x₂] >>= fun b => copyIn b (cp + 1) [x₁] >>= fun b =>
        .ok (b, cp + 4)) [x₀, x₁, x₂, x₃] where
  fits block front hfront hroom := by
    obtain ⟨back, rfl⟩ := hfront
    rw [List.length_append] at hroom
    change front.length + 4 < front.length + back.length at hroom
    obtain ⟨y₀, back, rfl⟩ := List.exists_cons_of_length_pos (show 0 < back.length by omega)
    rw [List.length_cons] at hroom
    obtain ⟨y₁, back, rfl⟩ := List.exists_cons_of_length_pos (show 0 < back.length by omega)
    rw [List.length_cons] at hroom
    obtain ⟨y₂, back, rfl⟩ := List.exists_cons_of_length_pos (show 0 < back.length by omega)
    rw [List.length_cons] at hroom
    obtain ⟨y₃, back, rfl⟩ := List.exists_cons_of_length_pos (show 0 < back.length by omega)
    have h₀ : copyIn (front ++ y₀ :: y₁ :: y₂ :: y₃ :: back) front.length [x₀] =
        .ok (front ++ x₀ :: y₁ :: y₂ :: y₃ :: back) := copyIn_middle (m := [y₀]) rfl
    have h₃ : copyIn (front ++ x₀ :: y₁ :: y₂ :: y₃ :: back) (front.length + 3) [x₃] =
        .ok (front ++ x₀ :: y₁ :: y₂ :: x₃ :: back) :=
      copyIn_inner (u := [x₀, y₁, y₂]) (m := [y₃]) rfl
    have h₂ : copyIn (front ++ x₀ :: y₁ :: y₂ :: x₃ :: back) (front.length + 2) [x₂] =
        .ok (front ++ x₀ :: y₁ :: x₂ :: x₃ :: back) :=
      copyIn_inner (u := [x₀, y₁]) (m := [y₂]) rfl
    have h₁ : copyIn (front ++ x₀ :: y₁ :: x₂ :: x₃ :: back) (front.length + 1) [x₁] =
        .ok (front ++ x₀ :: x₁ :: x₂ :: x₃ :: back) := copyIn_inner (u := [x₀]) (m := [y₁]) rfl
    refine ⟨front ++ x₀ :: x₁ :: x₂ :: x₃ :: back, ?_, by simp, ⟨back, by simp⟩⟩
    rw [h₀, ok_bind, h₃, ok_bind, h₂, ok_bind, h₁, ok_bind]
    rfl
  moves block cp r hr := by
    obtain ⟨b₁, h₁, hr⟩ := bind_eq_ok.mp hr
    obtain ⟨b₂, h₂, hr⟩ := bind_eq_ok.mp hr
    obtain ⟨b₃, h₃, hr⟩ := bind_eq_ok.mp hr
    obtain ⟨b₄, h₄, hr⟩ := bind_eq_ok.mp hr
    rw [Except.ok.injEq] at hr
    subst hr
    exact ⟨by rw [length_of_copyIn h₄, length_of_copyIn h₃, length_of_copyIn h₂,
      length_of_copyIn h₁], rfl⟩

theorem Appends.again (h : Appends f t) :
    Appends (fun block cp => f block cp >>= fun r => f r.1 cp) t where
  fits block front hfront hroom := by
    obtain ⟨b, hb, hlen, hpre⟩ := h.fits block front hfront hroom
    obtain ⟨c, hc, hlen', hpre'⟩ :=
      h.fits b front ((List.prefix_append front t).trans hpre) (by omega)
    exact ⟨c, by rw [hb, ok_bind, hc], hlen'.trans hlen, hpre'⟩
  moves block cp r hr := by
    obtain ⟨q, hq, hr⟩ := bind_eq_ok.mp hr
    obtain ⟨hlen, hpos⟩ := h.moves q.1 cp r hr
    exact ⟨hlen.trans (h.moves block cp q hq).1, hpos⟩

/-- A block of the right size is filled and closed. -/
theorem Appends.close (h : Appends f t) {block : Bytes} (hlen : block.length = t.length + 1) :
    (f block 0 >>= fun r => copyIn r.1 r.2 [0] >>= fun b => .ok (b, r.2)) =
      .ok (t ++ [0], t.length) := by
  obtain ⟨b, hb, hbl, hpre⟩ := h.fits block [] List.nil_prefix (by rw [List.length_nil]; omega)
  rw [List.length_nil, Nat.zero_add] at hb
  obtain ⟨rest, rfl⟩ := hpre
  rw [List.nil_append, List.length_append] at hbl
  have hrest : ([0] : Bytes).length = rest.length := by
    rw [List.length_singleton]
    omega
  have hlast := copyIn_middle (l := t) (r := []) hrest
  rw [List.append_nil, List.append_nil] at hlast
  rw [hb, ok_bind, List.nil_append, hlast, ok_bind]

/-- A block that has been closed has a byte more than the string. -/
theorem Appends.lt_of_close (h : Appends f t) {block : Bytes} {r : Bytes × ℕ}
    (hr : (f block 0 >>= fun r => copyIn r.1 r.2 [0] >>= fun b => .ok (b, r.2)) = .ok r) :
    t.length < block.length := by
  obtain ⟨q, hq, hr⟩ := bind_eq_ok.mp hr
  obtain ⟨b, hb, -⟩ := bind_eq_ok.mp hr
  obtain ⟨hlen, hpos⟩ := h.moves block 0 q hq
  have hlt := lt_of_copyIn hb
  omega

end Rules

end TFAT.BlockWriters
