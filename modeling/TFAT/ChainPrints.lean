import TFAT.PathLookup
import TFAT.ShellCommands

/-!
# What `chain` prints

The number that follows `chain` reaches the walk through a parameter of 16 bits, and the
walk prints its clusters with `%hu`. So every number of the chain comes out modulo 2 to the
16, and the walk may start at another cluster than the one that was typed. What is printed
can be read back: the digits of a number end at the arrow or at the end of the line.
-/
namespace TFAT.ChainPrints
open LittleEndianWords LinkedChains DiskLayout ClusterTable VolumeMount Fat32Root PathText
open ShellCommands DeleteSafety PathLookup

/-- The decimal digits of a number. -/
def decimal (n : ℕ) : Text := (Nat.toDigits 10 n).map fun c => UInt8.ofNat c.toNat

/-- `%hu`. -/
def hu (n : ℕ) : Text := decimal (n % 2 ^ 16)

def arrow : Text := [0x20, 0x2D, 0x3E, 0x20]

def newline : Text := [0x0A]

/-- One round of the loop of `chain`, behind the text `s`. -/
def chainRound (v : Volume) (s : Text) (cluster : ℕ) : Except Fault Text := do
  let next ← v.nextCluster cluster
  .ok (s ++ if next ≠ 0 then hu cluster ++ arrow else hu cluster ++ newline)

def chainText (v : Volume) (cluster : ℕ) : Except Fault Text :=
  along v.nextCluster 0 .endless (chainRound v) v.fuel cluster []

/-- `chain_command`, whose parameter has 16 bits. -/
def chainCommand (v : Volume) (index : ℕ) : Except Fault Text := chainText v (index % 2 ^ 16)

/-- Numbers in full, with an arrow between two of them and a newline behind the last. -/
def numbersText : List ℕ → Text
  | [] => []
  | [n] => decimal n ++ newline
  | n :: m :: l => decimal n ++ arrow ++ numbersText (m :: l)

section Digits
variable {a b : ℕ} {s t : Text} {x y : UInt8}

/-- A byte that is the code of a decimal digit. -/
def IsDigit (x : UInt8) : Prop := 48 ≤ x.toNat ∧ x.toNat ≤ 57

instance : DecidablePred IsDigit :=
  fun x => inferInstanceAs (Decidable (48 ≤ x.toNat ∧ x.toNat ≤ 57))

theorem toNat_of_isDigit {c : Char} (h : c.isDigit) : 48 ≤ c.toNat ∧ c.toNat ≤ 57 := by
  rw [Char.isDigit, Bool.and_eq_true, decide_eq_true_iff, decide_eq_true_iff] at h
  exact ⟨UInt32.le_iff_toNat_le.mp h.1, UInt32.le_iff_toNat_le.mp h.2⟩

theorem isDigit_of_mem_decimal (h : x ∈ decimal a) : IsDigit x := by
  obtain ⟨c, hc, rfl⟩ := List.mem_map.mp h
  have hd := toNat_of_isDigit (Nat.isDigit_of_mem_toDigits (by norm_num) (by norm_num) hc)
  rw [IsDigit, UInt8.toNat_ofNat']
  omega

theorem decimal_injective (h : decimal a = decimal b) : a = b := by
  have hback (n : ℕ) : (decimal n).map (fun x => Char.ofNat x.toNat) = Nat.toDigits 10 n := by
    rw [decimal, List.map_map]
    conv_rhs => rw [← List.map_id (Nat.toDigits 10 n)]
    refine List.map_congr_left fun c hc => ?_
    have hd := toNat_of_isDigit (Nat.isDigit_of_mem_toDigits (by norm_num) (by norm_num) hc)
    rw [Function.comp_apply, UInt8.toNat_ofNat', Nat.mod_eq_of_lt (by omega), Char.ofNat_toNat]
    rfl
  rw [← Nat.ofDigitChars_ten_toDigits (n := a), ← hback, h, hback, Nat.ofDigitChars_ten_toDigits]

theorem decimal_append_inj (h : decimal a ++ x :: s = decimal b ++ y :: t) (hx : ¬ IsDigit x)
    (hy : ¬ IsDigit y) : a = b ∧ x = y ∧ s = t := by
  have hspan (n : ℕ) (z : UInt8) (u : Text) (hz : ¬ IsDigit z) :
      (decimal n ++ z :: u).takeWhile (fun c => decide (IsDigit c)) = decimal n := by
    rw [List.takeWhile_append_of_pos fun c hc => decide_eq_true (isDigit_of_mem_decimal hc),
      List.takeWhile_cons_of_neg (by simpa using hz), List.append_nil]
  have hdec := hspan a x s hx
  rw [h, hspan b y t hy] at hdec
  rw [hdec, List.append_cancel_left_eq, List.cons.injEq] at h
  exact ⟨(decimal_injective hdec).symm, h⟩

theorem decimal_ne_nil (n : ℕ) : decimal n ≠ [] := by
  rw [decimal, Ne, List.map_eq_nil_iff]
  exact Nat.toDigits_ne_nil

theorem numbersText_cons (n : ℕ) (l : List ℕ) : numbersText (n :: l) =
    decimal n ++ if l = [] then newline else arrow ++ numbersText l := by
  cases l with
  | nil => rfl
  | cons m l => rw [numbersText, if_neg (by simp), List.append_assoc]

theorem numbersText_injective {l m : List ℕ} (h : numbersText l = numbersText m) : l = m := by
  have hspace : ¬ IsDigit 0x20 := by decide
  have hline : ¬ IsDigit 0x0A := by decide
  induction l generalizing m with
  | nil =>
      cases m with
      | nil => rfl
      | cons k m =>
          rw [numbersText_cons] at h
          exact absurd (List.append_eq_nil_iff.mp h.symm).1 (decimal_ne_nil k)
  | cons n l ih =>
      cases m with
      | nil =>
          rw [numbersText_cons] at h
          exact absurd (List.append_eq_nil_iff.mp h).1 (decimal_ne_nil n)
      | cons k m =>
          rw [numbersText_cons, numbersText_cons] at h
          split_ifs at h with hl hm hm
          · rw [(decimal_append_inj h hline hline).1, hl, hm]
          · exact absurd (decimal_append_inj h hline hspace).2.1 (by decide)
          · exact absurd (decimal_append_inj h hspace hline).2.1 (by decide)
          · obtain ⟨rfl, -, hrest⟩ := decimal_append_inj h hspace hspace
            rw [ih (List.append_cancel_left hrest)]

end Digits

section Walk
variable {v : Volume} {c : ℕ} {l : List ℕ} {s : Text}

/-- The rounds of the loop print the numbers of the chain modulo 2 to the 16. -/
theorem foldlM_chainRound (h : v.Chain c l) (s : Text) :
    l.foldlM (chainRound v) s = .ok (s ++ numbersText (l.map (· % 2 ^ 16))) := by
  induction h generalizing s with
  | stop => simp [numbersText, pure, Except.pure]
  | @step c d l hc hd hl ih =>
      have hend : d = 0 ↔ l.map (· % 2 ^ 16) = [] := by
        rw [List.map_eq_nil_iff]
        exact ⟨fun hz => (hz ▸ hl).eq_nil, fun hn => (hn ▸ hl).eq_stop⟩
      rw [List.foldlM_cons, chainRound, hd]
      simp only [ok_bind]
      rw [ih, List.map_cons, numbersText_cons, List.append_assoc]
      by_cases hz : d = 0
      · rw [if_neg (not_not.mpr hz), if_pos (hend.mp hz), hend.mp hz]
        simp [numbersText, hu]
      · rw [if_pos hz, if_neg (mt hend.mpr hz), List.append_assoc, hu]

theorem chainText_eq (v : Volume) (c : ℕ) (t : Text) : chainText v c = .ok t ↔
    ∃ l, chain v c = .ok l ∧ t = numbersText l := by
  simp only [chain, bind_eq_ok, v.clusters_eq_ok_iff, Except.ok.injEq]
  constructor
  · intro h
    obtain ⟨l, hl, -, hfold⟩ := follows_of_along h
    rw [foldlM_chainRound hl, List.nil_append, Except.ok.injEq] at hfold
    exact ⟨_, ⟨l, hl, rfl⟩, hfold.symm⟩
  · rintro ⟨_, ⟨l, hl, rfl⟩, rfl⟩
    rw [chainText, v.along_of_chain hl, foldlM_chainRound hl, List.nil_append]

/-- Only numbers of 16 bits are printed in full. -/
theorem lt_of_chainText (h : chainText v c = .ok (numbersText l)) : ∀ n ∈ l, n < 2 ^ 16 := by
  obtain ⟨m, hm, ht⟩ := (chainText_eq v c _).mp h
  obtain ⟨k, -, hk⟩ := bind_eq_ok.mp hm
  rw [Except.ok.injEq] at hk
  intro n hn
  rw [numbersText_injective ht, ← hk] at hn
  obtain ⟨q, -, rfl⟩ := List.mem_map.mp hn
  exact Nat.mod_lt q (by norm_num)

/-- The command prints the whole chain exactly where each of its numbers has 16 bits. -/
theorem chainCommand_prints_iff (h : v.Chain c l) :
    chainCommand v c = .ok (numbersText l) ↔ ∀ n ∈ l, n < 2 ^ 16 := by
  refine ⟨lt_of_chainText, fun hl => ?_⟩
  have hc : c % 2 ^ 16 = c := by
    cases h with
    | stop => rfl
    | step _ _ _ => exact Nat.mod_eq_of_lt (hl c (by simp))
  have hmap : l.map (· % 2 ^ 16) = l := by
    conv_rhs => rw [← List.map_id l]
    exact List.map_congr_left fun n hn => Nat.mod_eq_of_lt (hl n hn)
  rw [chainCommand, hc, chainText_eq]
  refine ⟨l, ?_, rfl⟩
  rw [chain, v.clusters_eq_ok_iff.mpr h, ok_bind, hmap]

/-- The chain of cluster 2 alone. -/
theorem chainCommand_prints_two :
    chainCommand dotVolume (dotVolume.firstCluster dirA) = .ok (numbersText [2]) :=
  (chainCommand_prints_iff dotVolume_chain).mpr (by decide)

/-- On a mounted FAT32 volume `chain 131074` does not print this number. -/
theorem chainCommand_narrowed : ∃ v, initFat (fun _ => 0) wideImage = .ok v ∧
    v.Chain 131074 [131074] ∧ chainCommand v 131074 ≠ .ok (numbersText [131074]) :=
  ⟨_, wideImage_mounted _, wide_chain rfl fatTable_mounted (m := 0) (by norm_num) rfl,
    fun h => absurd (lt_of_chainText h 131074 (by simp)) (by norm_num)⟩

end Walk

end TFAT.ChainPrints
