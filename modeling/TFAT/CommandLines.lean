import TFAT.ChainPrints
import TFAT.ScannedWords

/-!
# From a line to a command

`command_dispatcher` reads the first word of a line, compares it with the verbs one after the
other and scans the line once more for the argument of the verb. The words go into buffers
without a bound in the format, so a word that is too long is stored outside. What the lines
mean is said by a table of the verbs: the dispatcher runs a command exactly where the words of
the line spell it.
-/
namespace TFAT.CommandLines
open LittleEndianWords DiskLayout ClusterTable PathText ShellCommands ChainPrints ScannedWords

def ascii (s : String) : Text := s.toList.map fun c => UInt8.ofNat c.toNat

/-- `isspace` in the C locale. -/
def isSpace (b : UInt8) : Bool := b == 0x20 || (0x09 ≤ b && b ≤ 0x0D)

def verbRoom : ℕ := 10

def maxBuff : ℕ := 1000 * 1000

/-- A word and its zero are stored into a buffer of `room` bytes. -/
def storeWord (room : ℕ) (w : Text) : Except Fault Text :=
  if w.length < room then .ok w else .error .wild

/-- `%s`, into a buffer of `MAX_BUFF` bytes. -/
def scanString (t : Text) : Except Fault (Option Text) :=
  match scanWord isSpace t with
  | none => .ok none
  | some (w, _) => do
      let w ← storeWord maxBuff w
      .ok (some w)

/-- The value of decimal digits. -/
def digitsValue (t : Text) : ℕ := t.foldl (fun n b => 10 * n + (b.toNat - 48)) 0

def signs : Text := ascii "+-"

def leadingDigits (t : Text) : Text :=
  (if t.head?.any (· ∈ signs) then t.tail else t).takeWhile fun b => IsDigit b

/-- `strtoul`, on a machine whose `unsigned long` has 64 bits: a larger number is cut to the
largest one, and a minus sign in front of a smaller one negates it. -/
def strtoul (t : Text) : ℕ :=
  let n := digitsValue (leadingDigits t)
  if 2 ^ 64 ≤ n then 2 ^ 64 - 1
  else if t.head? = some 0x2D then (2 ^ 64 - n) % 2 ^ 64
  else n

/-- `%u`, behind the blanks. The low 32 bits of the number are stored. -/
def scanUnsigned (t : Text) : Except Fault (Option ℕ) :=
  if leadingDigits t = [] then .ok none else .ok (some (strtoul t % 2 ^ 32))

/-- `%c`. -/
def scanChar (t : Text) : Except Fault (Option UInt8) := .ok t.head?

/-- `sscanf(command, "%s _", verb, _)`, with the conversion of what follows the verb. -/
def scanBehind {β : Type} (conv : Text → Except Fault (Option β)) (command : Text) :
    Except Fault (Option β) :=
  match scanWord isSpace command with
  | none => .ok none
  | some (verb, rest) => do
      let _ ← storeWord verbRoom verb
      conv (rest.dropWhile isSpace)

/-- What a line makes the dispatcher do. -/
inductive Dispatched where
  | silent
  | printed (message : Text)
  | ran (command : Command)
  deriving DecidableEq

/-- Scan the argument of a verb and run its handler on it. -/
def withArgument {β : Type} (conv : Text → Except Fault (Option β)) (command : Text)
    (missing : Dispatched) (handler : β → Command) : Except Fault Dispatched := do
  match ← scanBehind conv command with
  | none => .ok missing
  | some x => .ok (.ran (handler x))

/-- The comparisons of `command_dispatcher`, with the line once more. -/
def dispatchVerb (answers : List Bool) (command verb : Text) : Except Fault Dispatched :=
  if verb = ascii "quit" then .ok (.ran .quit)
  else if verb = ascii "mount" then
    withArgument scanString command (.printed (ascii "mount mount-device\n")) .mount
  else if verb = ascii "wmount" then
    withArgument scanString command (.printed (ascii "wmount mount-device\n")) .wmount
  else if verb = ascii "umount" then .ok (.ran .umount)
  else if verb = ascii "cd" then withArgument scanString command .silent .cd
  else if verb = ascii "ls" then
    withArgument scanString command (.ran (.ls none)) fun dir => .ls (some dir)
  else if verb = ascii "lsdel" then
    withArgument scanString command (.ran (.lsdel none)) fun dir => .lsdel (some dir)
  else if verb = ascii "chain" then
    withArgument scanUnsigned command (.printed (ascii "chain cluster-number\n")) .chain
  else if verb = ascii "fat" then .ok (.ran (.fat answers))
  else if verb = ascii "dump_fat" then
    withArgument scanString command (.printed (ascii "dump_fat file-path\n")) .dumpFat
  else if verb = ascii "dump" then
    withArgument scanString command (.printed (ascii "dump file-name")) .dump
  else if verb = ascii "hdump" then
    withArgument scanString command (.printed (ascii "hdump file-name")) .hdump
  else if verb = ascii "delete" then
    withArgument scanString command (.printed (ascii "delete file-name")) .delete
  else if verb = ascii "undelete" then
    withArgument scanString command (.printed (ascii "undelete file-name")) .undelete
  else if verb = ascii "info" then .ok (.ran .info)
  else if verb = ascii "show" then
    withArgument scanChar command (.printed (ascii "show w|c\n")) fun _ => .showCommand
  else if verb = ascii "test_fat" then .ok (.ran .testFat)
  else if verb = ascii "test" then
    withArgument scanUnsigned command (.printed (ascii "test cluster-number\n")) .test
  else .ok (.printed (ascii "404 Not Found\n"))

/-- `command_dispatcher`, where `answers` are what the user types for `fat`. -/
def commandDispatcher (answers : List Bool) : Option Text → Except Fault Dispatched
  | none => .error .null
  | some command =>
      match scanWord isSpace command with
      | none => .ok .silent
      | some (word, _) => do
          let verb ← storeWord verbRoom word
          dispatchVerb answers command verb

/-- What stands behind a verb. -/
inductive Shape where
  | bare (command : Command)
  | path (missing : Dispatched) (handler : Text → Command)
  | number (missing : Dispatched) (handler : ℕ → Command)
  | letter (missing : Dispatched) (command : Command)

def verbs (answers : List Bool) : List (Text × Shape) :=
  [(ascii "quit", .bare .quit),
    (ascii "mount", .path (.printed (ascii "mount mount-device\n")) .mount),
    (ascii "wmount", .path (.printed (ascii "wmount mount-device\n")) .wmount),
    (ascii "umount", .bare .umount),
    (ascii "cd", .path .silent .cd),
    (ascii "ls", .path (.ran (.ls none)) fun dir => .ls (some dir)),
    (ascii "lsdel", .path (.ran (.lsdel none)) fun dir => .lsdel (some dir)),
    (ascii "chain", .number (.printed (ascii "chain cluster-number\n")) .chain),
    (ascii "fat", .bare (.fat answers)),
    (ascii "dump_fat", .path (.printed (ascii "dump_fat file-path\n")) .dumpFat),
    (ascii "dump", .path (.printed (ascii "dump file-name")) .dump),
    (ascii "hdump", .path (.printed (ascii "hdump file-name")) .hdump),
    (ascii "delete", .path (.printed (ascii "delete file-name")) .delete),
    (ascii "undelete", .path (.printed (ascii "undelete file-name")) .undelete),
    (ascii "info", .bare .info),
    (ascii "show", .letter (.printed (ascii "show w|c\n")) .showCommand),
    (ascii "test_fat", .bare .testFat),
    (ascii "test", .number (.printed (ascii "test cluster-number\n")) .test)]

/-- The scan of a line whose verb has this shape. -/
def Shape.scan (command : Text) : Shape → Except Fault Dispatched
  | bare c => .ok (.ran c)
  | path missing handler => withArgument scanString command missing handler
  | number missing handler => withArgument scanUnsigned command missing handler
  | letter missing c => withArgument scanChar command missing fun _ => c

theorem elim_lookup_cons {β γ : Type} (verb k : Text) (x : β) (l : List (Text × β)) (d : γ)
    (f : β → γ) : (((k, x) :: l).lookup verb).elim d f =
      if verb = k then f x else (l.lookup verb).elim d f := by
  rw [List.lookup_cons]
  by_cases h : verb = k
  · rw [if_pos h, h, beq_self_eq_true]
    rfl
  · rw [if_neg h, beq_false_of_ne h]

theorem dispatchVerb_eq (answers : List Bool) (command verb : Text) :
    dispatchVerb answers command verb = ((verbs answers).lookup verb).elim
      (.ok (.printed (ascii "404 Not Found\n"))) (Shape.scan command) := by
  simp only [verbs, elim_lookup_cons]
  rfl

def Shape.read : Shape → Option Text → Except Fault Dispatched
  | bare c, _ => .ok (.ran c)
  | path missing _, none => .ok missing
  | path _ handler, some w => do
      let w ← storeWord maxBuff w
      .ok (.ran (handler w))
  | number missing _, none => .ok missing
  | number missing handler, some w => do
      match ← scanUnsigned w with
      | none => .ok missing
      | some n => .ok (.ran (handler n))
  | letter missing _, none => .ok missing
  | letter _ c, some _ => .ok (.ran c)

def interpret (answers : List Bool) : List Text → Except Fault Dispatched
  | [] => .ok .silent
  | verb :: rest => do
      let verb ← storeWord verbRoom verb
      ((verbs answers).lookup verb).elim (.ok (.printed (ascii "404 Not Found\n")))
        fun shape => shape.read rest.head?

section Words
variable {t w rest : Text} {verb : Text} {answers : List Bool}

theorem storeWord_eq_ok_iff {room : ℕ} : storeWord room t = .ok w ↔ t.length < room ∧ w = t := by
  unfold storeWord
  split_ifs with h <;> simp [h, eq_comm]

theorem not_isDigit_of_isSpace {b : UInt8} (h : isSpace b) : ¬ IsDigit b := by
  unfold isSpace at h
  rw [Bool.or_eq_true, beq_iff_eq, Bool.and_eq_true, decide_eq_true_iff, decide_eq_true_iff] at h
  unfold IsDigit
  rcases h with rfl | ⟨-, h⟩
  · decide
  · have hle := UInt8.le_iff_toNat_le.mp h
    change b.toNat ≤ 13 at hle
    omega

theorem leadingDigits_append (hw : w ≠ []) (ht : ∀ b, t.head? = some b → isSpace b) :
    leadingDigits (w ++ t) = leadingDigits w := by
  have hstop (u : Text) : (u ++ t).takeWhile (fun b => decide (IsDigit b)) =
      u.takeWhile fun b => decide (IsDigit b) := by
    cases t with
    | nil => rw [List.append_nil]
    | cons b t =>
        have hb : ¬ IsDigit b := not_isDigit_of_isSpace (ht b rfl)
        induction u with
        | nil => rw [List.nil_append, List.takeWhile_cons_of_neg (by simpa using hb)]; rfl
        | cons a u ih => rw [List.cons_append, List.takeWhile_cons, List.takeWhile_cons, ih]
  obtain ⟨a, u, rfl⟩ := List.exists_cons_of_ne_nil hw
  unfold leadingDigits
  rw [List.cons_append, List.head?_cons, List.tail_cons, List.head?_cons, List.tail_cons]
  split_ifs
  · exact hstop u
  · exact hstop (a :: u)

theorem scanUnsigned_append (hw : w ≠ []) (ht : ∀ b, t.head? = some b → isSpace b) :
    scanUnsigned (w ++ t) = scanUnsigned w := by
  rw [scanUnsigned, scanUnsigned, strtoul, strtoul, leadingDigits_append hw ht,
    List.head?_append_of_ne_nil _ hw]

/-- Behind its verb a line is scanned as its words say. -/
theorem Shape.scan_eq (shape : Shape) (h : scanWord isSpace t = some (verb, rest))
    (hverb : verb.length < verbRoom) :
    shape.scan t = shape.read (words isSpace rest).head? := by
  have hbehind {β : Type} (conv : Text → Except Fault (Option β)) :
      scanBehind conv t = conv (rest.dropWhile isSpace) := by
    rw [scanBehind, h]
    simp only [storeWord, if_pos hverb, ok_bind]
  have hscan := scanWord_dropWhile (p := isSpace) rest
  rw [words_eq]
  cases shape with
  | bare c => rfl
  | path missing handler =>
      rw [scan, withArgument, hbehind, scanString, hscan]
      cases hw : scanWord isSpace rest with
      | none => rfl
      | some r =>
          simp only [List.head?_cons, Shape.read]
          cases storeWord maxBuff r.1 <;> rfl
  | number missing handler =>
      rw [scan, withArgument, hbehind]
      cases hw : scanWord isSpace rest with
      | none => rw [scanWord_eq_none_iff.mp hw]; rfl
      | some r =>
          obtain ⟨hdrop, hword, hend⟩ := scanWord_spec hw
          rw [hdrop, scanUnsigned_append hword.ne_nil hend]
          simp only [List.head?_cons, Shape.read]
          cases scanUnsigned r.1 with
          | error e => rfl
          | ok n => cases n <;> rfl
  | letter missing c =>
      rw [scan, withArgument, hbehind, scanChar]
      cases hw : scanWord isSpace rest with
      | none => rw [scanWord_eq_none_iff.mp hw]; rfl
      | some r =>
          obtain ⟨hdrop, hword, hend⟩ := scanWord_spec hw
          obtain ⟨a, u, hr⟩ := List.exists_cons_of_ne_nil hword.ne_nil
          rw [hdrop, hr]
          rfl

theorem commandDispatcher_eq (answers : List Bool) (t : Text) :
    commandDispatcher answers (some t) = interpret answers (words isSpace t) := by
  rw [words_eq, commandDispatcher]
  cases h : scanWord isSpace t with
  | none => rfl
  | some r =>
      simp only [interpret]
      by_cases hverb : r.1.length < verbRoom
      · rw [storeWord, if_pos hverb, ok_bind, ok_bind, dispatchVerb_eq]
        cases (verbs answers).lookup r.1 with
        | none => rfl
        | some shape => exact shape.scan_eq h hverb
      · rw [storeWord, if_neg hverb, error_bind, error_bind]

end Words

structure Argument (w : Text) : Prop extends IsWord isSpace w where
  string : 0 ∉ w
  fits : w.length < maxBuff

/-- The arguments of the command are such as a line can have. -/
def Typeable : Command → Prop
  | .mount w | .wmount w | .cd w | .dumpFat w | .dump w | .hdump w | .delete w | .undelete w =>
      Argument w
  | .ls dir | .lsdel dir => ∀ w, dir = some w → Argument w
  | .chain n | .test n => n < 2 ^ 32
  | .quit | .umount | .fat _ | .testFat | .info | .showCommand | .other => True

/-- The words that a command is typed with. -/
def spell : Command → List Text
  | .quit => [ascii "quit"]
  | .mount dev => [ascii "mount", dev]
  | .wmount dev => [ascii "wmount", dev]
  | .umount => [ascii "umount"]
  | .cd path => [ascii "cd", path]
  | .ls dir => ascii "ls" :: dir.toList
  | .lsdel dir => ascii "lsdel" :: dir.toList
  | .chain index => [ascii "chain", decimal index]
  | .fat _ => [ascii "fat"]
  | .dumpFat path => [ascii "dump_fat", path]
  | .testFat => [ascii "test_fat"]
  | .dump dir => [ascii "dump", dir]
  | .hdump dir => [ascii "hdump", dir]
  | .delete dir => [ascii "delete", dir]
  | .undelete dir => [ascii "undelete", dir]
  | .info => [ascii "info"]
  | .showCommand => [ascii "show", ascii "w"]
  | .test cluster => [ascii "test", decimal cluster]
  | .other => []

/-- What is answered to the questions of a command. -/
def answersTo : Command → List Bool
  | .fat answers => answers
  | _ => []

/-- The command behind a line; a line without one changes nothing. -/
def Dispatched.command : Dispatched → Command
  | silent | printed _ => .other
  | ran c => c

section Numbers

theorem digitsValue_decimal (n : ℕ) : digitsValue (decimal n) = n := by
  have hdigit (c : Char) (hc : c ∈ Nat.toDigits 10 n) : (UInt8.ofNat c.toNat).toNat = c.toNat := by
    have hd := toNat_of_isDigit (Nat.isDigit_of_mem_toDigits (by norm_num) (by norm_num) hc)
    rw [UInt8.toNat_ofNat']
    omega
  conv_rhs => rw [← Nat.ofDigitChars_ten_toDigits (n := n)]
  rw [digitsValue, decimal, List.foldl_map, Nat.ofDigitChars]
  exact List.foldl_ext _ _ 0 fun k c hc => by rw [hdigit c hc]; rfl

theorem leadingDigits_decimal (n : ℕ) : leadingDigits (decimal n) = decimal n := by
  have hall : ∀ b ∈ decimal n, IsDigit b := fun b hb => isDigit_of_mem_decimal hb
  have hsign : ¬ (decimal n).head?.any (· ∈ signs) := by
    cases hd : decimal n with
    | nil => simp
    | cons b t =>
        have hb := hall b (by simp [hd])
        have hnone : signs.all (¬ IsDigit ·) = true := by decide
        simpa using fun hs => of_decide_eq_true (List.all_eq_true.mp hnone b hs) hb
  rw [leadingDigits, if_neg hsign, List.takeWhile_eq_self_iff]
  simpa using hall

theorem scanUnsigned_decimal {n : ℕ} (h : n < 2 ^ 32) :
    scanUnsigned (decimal n) = .ok (some n) := by
  have hminus : (decimal n).head? ≠ some 0x2D := fun hm => by
    have hd : IsDigit 0x2D := isDigit_of_mem_decimal (List.mem_of_mem_head? hm)
    exact absurd hd (by decide)
  have hvalue : strtoul (decimal n) = n := by
    rw [strtoul, leadingDigits_decimal, digitsValue_decimal]
    rw [if_neg (by omega), if_neg hminus]
  rw [scanUnsigned, leadingDigits_decimal, if_neg (decimal_ne_nil n), hvalue, Nat.mod_eq_of_lt h]

theorem isWord_decimal (n : ℕ) : IsWord isSpace (decimal n) := by
  refine ⟨decimal_ne_nil n, fun b hb => ?_⟩
  cases hs : isSpace b with
  | false => rfl
  | true => exact absurd (isDigit_of_mem_decimal hb) (not_isDigit_of_isSpace hs)

end Numbers

section Language
variable {t w rest : Text} {verb : Text} {answers : List Bool} {c : Command} {d : Dispatched}
variable {shape : Shape}

/-- What the scan of the number of a word can give has 32 bits. -/
theorem lt_of_scanUnsigned {n : ℕ} (h : scanUnsigned w = .ok (some n)) : n < 2 ^ 32 := by
  unfold scanUnsigned at h
  split_ifs at h
  · cases h
  · rw [← Option.some.inj (Except.ok.inj h)]
    exact Nat.mod_lt _ (by norm_num)

def Shape.Sound : Shape → Prop
  | bare c => Typeable c
  | path missing handler => Typeable missing.command ∧ ∀ w, Argument w → Typeable (handler w)
  | number missing handler => Typeable missing.command ∧ ∀ n < 2 ^ 32, Typeable (handler n)
  | letter missing c => Typeable missing.command ∧ Typeable c

theorem mem_of_lookup (h : (verbs answers).lookup verb = some shape) :
    (verb, shape) ∈ verbs answers := by
  obtain ⟨front, back, hl, -⟩ := List.lookup_eq_some_iff.mp h
  rw [hl]
  simp

theorem sound_of_lookup (h : (verbs answers).lookup verb = some shape) : shape.Sound := by
  have hall : ∀ x ∈ verbs answers, x.2.Sound := by
    simp [verbs, Shape.Sound, Typeable, Dispatched.command]
  exact hall _ (mem_of_lookup h)

theorem typeable_of_read {second : Option Text} (hs : shape.Sound)
    (hw : ∀ w, second = some w → IsWord isSpace w ∧ 0 ∉ w) (h : shape.read second = .ok d) :
    Typeable d.command := by
  cases shape with
  | bare c =>
      rw [← Except.ok.inj h]
      exact hs
  | path missing handler =>
      cases second with
      | none =>
          rw [← Except.ok.inj h]
          exact hs.1
      | some w =>
          obtain ⟨u, hu, hd⟩ := bind_eq_ok.mp h
          obtain ⟨hlt, hu⟩ := storeWord_eq_ok_iff.mp hu
          rw [← Except.ok.inj hd, hu]
          exact hs.2 w ⟨(hw w rfl).1, (hw w rfl).2, hlt⟩
  | number missing handler =>
      cases second with
      | none =>
          rw [← Except.ok.inj h]
          exact hs.1
      | some w =>
          obtain ⟨n, hn, h⟩ := bind_eq_ok.mp h
          cases n with
          | none =>
              rw [← Except.ok.inj h]
              exact hs.1
          | some n =>
              rw [← Except.ok.inj h]
              exact hs.2 n (lt_of_scanUnsigned hn)
  | letter missing c =>
      cases second with
      | none =>
          rw [← Except.ok.inj h]
          exact hs.1
      | some w =>
          rw [← Except.ok.inj h]
          exact hs.2

theorem typeable_of_dispatched (ht : 0 ∉ t) (h : commandDispatcher answers (some t) = .ok d) :
    Typeable d.command := by
  rw [commandDispatcher_eq] at h
  cases hw : words isSpace t with
  | nil =>
      rw [hw] at h
      rw [← Except.ok.inj h]
      trivial
  | cons verb rest =>
      rw [hw] at h
      obtain ⟨u, -, h⟩ := bind_eq_ok.mp h
      cases hl : (verbs answers).lookup u with
      | none =>
          rw [hl] at h
          rw [← Except.ok.inj h]
          trivial
      | some shape =>
          rw [hl] at h
          refine typeable_of_read (sound_of_lookup hl) (fun w hs => ?_) h
          have hmem : w ∈ words isSpace t := by
            rw [hw]
            exact List.mem_cons_of_mem _ (List.mem_of_mem_head? hs)
          exact ⟨isWord_of_mem_words hmem, fun h₀ => ht ((infix_of_mem_words hmem).subset h₀)⟩

def argument : Command → Option Text
  | .mount w | .wmount w | .cd w | .dumpFat w | .dump w | .hdump w | .delete w | .undelete w =>
      some w
  | .ls dir | .lsdel dir => dir
  | _ => none

/-- The argument of the commands of a verb is the word behind it. -/
def Shape.Hands : Shape → Prop
  | bare c => argument c = none
  | path missing handler => argument missing.command = none ∧ ∀ w, argument (handler w) = some w
  | number missing handler => argument missing.command = none ∧ ∀ n, argument (handler n) = none
  | letter missing c => argument missing.command = none ∧ argument c = none

theorem argument_of_read {second : Option Text} (hs : shape.Hands)
    (h : shape.read second = .ok d) : argument d.command = none ∨ argument d.command = second := by
  cases shape with
  | bare c =>
      rw [← Except.ok.inj h]
      exact .inl hs
  | path missing handler =>
      cases second with
      | none =>
          rw [← Except.ok.inj h]
          exact .inl hs.1
      | some w =>
          obtain ⟨u, hu, hd⟩ := bind_eq_ok.mp h
          rw [← Except.ok.inj hd, (storeWord_eq_ok_iff.mp hu).2]
          exact .inr (hs.2 w)
  | number missing handler =>
      cases second with
      | none =>
          rw [← Except.ok.inj h]
          exact .inl hs.1
      | some w =>
          obtain ⟨n, -, h⟩ := bind_eq_ok.mp h
          cases n with
          | none =>
              rw [← Except.ok.inj h]
              exact .inl hs.1
          | some n =>
              rw [← Except.ok.inj h]
              exact .inl (hs.2 n)
  | letter missing c =>
      cases second with
      | none =>
          rw [← Except.ok.inj h]
          exact .inl hs.1
      | some w =>
          rw [← Except.ok.inj h]
          exact .inl hs.2

/-- The argument of the command is the second word of the line. -/
theorem argument_of_dispatched (h : commandDispatcher answers (some t) = .ok d)
    (hw : argument d.command = some w) : ∃ verb rest, words isSpace t = verb :: w :: rest := by
  rw [commandDispatcher_eq] at h
  cases hl : words isSpace t with
  | nil =>
      rw [hl] at h
      rw [← Except.ok.inj h] at hw
      cases hw
  | cons verb rest =>
      rw [hl] at h
      obtain ⟨u, -, h⟩ := bind_eq_ok.mp h
      cases hs : (verbs answers).lookup u with
      | none =>
          rw [hs] at h
          rw [← Except.ok.inj h] at hw
          cases hw
      | some shape =>
          rw [hs] at h
          have hall : ∀ x ∈ verbs answers, x.2.Hands := by
            simp [verbs, Shape.Hands, argument, Dispatched.command]
          rcases argument_of_read (hall _ (mem_of_lookup hs)) h with hn | hn
          · rw [hw] at hn
            cases hn
          · rw [hw] at hn
            obtain ⟨r, hr⟩ := List.head?_eq_some_iff.mp hn.symm
            exact ⟨verb, r, by rw [hr]⟩

theorem interpret_cons (hverb : verb.length < verbRoom)
    (h : (verbs answers).lookup verb = some shape) (rest : List Text) :
    interpret answers (verb :: rest) = shape.read rest.head? := by
  rw [interpret, storeWord, if_pos hverb, ok_bind, h]
  rfl

theorem read_path {missing : Dispatched} {handler : Text → Command} (h : Argument w) :
    (Shape.path missing handler).read (some w) = .ok (.ran (handler w)) := by
  rw [Shape.read, storeWord, if_pos h.fits, ok_bind]

theorem read_number {missing : Dispatched} {handler : ℕ → Command} {n : ℕ} (h : n < 2 ^ 32) :
    (Shape.number missing handler).read (some (decimal n)) = .ok (.ran (handler n)) := by
  rw [Shape.read, scanUnsigned_decimal h, ok_bind]

theorem interpret_spell (h : Typeable c) :
    ∃ d, interpret (answersTo c) (spell c) = .ok d ∧ d.command = c := by
  cases c with
  | quit | umount | testFat | info | fat answers | showCommand =>
      refine ⟨.ran _, ?_, rfl⟩
      exact (interpret_cons (by decide) rfl _).trans rfl
  | mount w | wmount w | cd w | dumpFat w | dump w | hdump w | delete w | undelete w =>
      refine ⟨.ran _, ?_, rfl⟩
      exact (interpret_cons (by decide) rfl _).trans (read_path h)
  | ls dir | lsdel dir =>
      refine ⟨.ran _, ?_, rfl⟩
      cases dir with
      | none => exact (interpret_cons (by decide) rfl _).trans rfl
      | some w => exact (interpret_cons (by decide) rfl _).trans (read_path (h w rfl))
  | chain n | test n =>
      refine ⟨.ran _, ?_, rfl⟩
      exact (interpret_cons (by decide) rfl _).trans (read_number h)
  | other => exact ⟨.silent, rfl, rfl⟩

def lineOf (c : Command) : Text := (spell c).flatMap (· ++ [0x20])

def StringWord (w : Text) : Prop := IsWord isSpace w ∧ 0 ∉ w

theorem stringWord_of_mem_verbs (answers : List Bool) {v : Text}
    (h : v ∈ (verbs answers).map Prod.fst) : StringWord v := by
  have hall : ∀ v ∈ (verbs []).map Prod.fst,
      v ≠ [] ∧ v.all (!isSpace ·) = true ∧ 0 ∉ v := by decide
  obtain ⟨hn, hl, h₀⟩ := hall v h
  exact ⟨.of_all hn hl, h₀⟩

theorem Argument.stringWord (h : Argument w) : StringWord w := ⟨h.toIsWord, h.string⟩

theorem stringWord_of_mem_spell (h : Typeable c) : ∀ w ∈ spell c, StringWord w := by
  intro v hv
  cases c with
  | quit | umount | testFat | info | fat answers =>
      rw [List.mem_singleton.mp hv]
      exact stringWord_of_mem_verbs [] (by simp [verbs])
  | mount w | wmount w | cd w | dumpFat w | dump w | hdump w | delete w | undelete w =>
      rcases List.mem_pair.mp hv with rfl | rfl
      · exact stringWord_of_mem_verbs [] (by simp [verbs])
      · exact h.stringWord
  | ls dir | lsdel dir =>
      rcases List.mem_cons.mp hv with rfl | hv
      · exact stringWord_of_mem_verbs [] (by simp [verbs])
      · exact (h v (Option.mem_toList.mp hv)).stringWord
  | chain n | test n =>
      rcases List.mem_pair.mp hv with rfl | rfl
      · exact stringWord_of_mem_verbs [] (by simp [verbs])
      · exact ⟨isWord_decimal n, fun h₀ => absurd (isDigit_of_mem_decimal h₀) (by decide)⟩
  | showCommand =>
      rcases List.mem_pair.mp hv with rfl | rfl
      · exact stringWord_of_mem_verbs [] (by simp [verbs])
      · exact ⟨.of_all (by decide) (by decide), by decide⟩
  | other => cases hv

theorem words_lineOf (h : Typeable c) : words isSpace (lineOf c) = spell c :=
  words_flatMap (by decide) fun w hw => (stringWord_of_mem_spell h w hw).1

theorem lineOf_string (h : Typeable c) : 0 ∉ lineOf c := by
  intro h₀
  obtain ⟨w, hw, h₀⟩ := List.mem_flatMap.mp h₀
  rcases List.mem_append.mp h₀ with h₀ | h₀
  · exact (stringWord_of_mem_spell h w hw).2 h₀
  · exact absurd h₀ (by decide)

/-- A line with the words of a command is dispatched to the command, whatever blanks it has. -/
theorem commandDispatcher_spell (h : Typeable c) (hw : words isSpace t = spell c) :
    ∃ d, commandDispatcher (answersTo c) (some t) = .ok d ∧ d.command = c := by
  rw [commandDispatcher_eq, hw]
  exact interpret_spell h

/-- The commands that strings can be dispatched to are those that can be typed. -/
theorem dispatched_iff (c : Command) :
    (∃ answers line d, 0 ∉ line ∧ commandDispatcher answers (some line) = .ok d ∧
      d.command = c) ↔ Typeable c := by
  constructor
  · rintro ⟨answers, line, d, hline, hd, rfl⟩
    exact typeable_of_dispatched hline hd
  · intro h
    obtain ⟨d, hd, hc⟩ := commandDispatcher_spell h (words_lineOf h)
    exact ⟨_, _, d, lineOf_string h, hd, hc⟩

end Language

section Buffers
variable {t w : Text} {answers : List Bool} {shape : Shape}

/-- The word behind a verb of this shape fits where it is stored. -/
def Shape.Takes : Shape → Text → Prop
  | path _ _, w => w.length < maxBuff
  | _, _ => True

theorem scanUnsigned_returns (w : Text) : ∃ n, scanUnsigned w = .ok n := by
  unfold scanUnsigned
  split_ifs
  · exact ⟨_, rfl⟩
  · exact ⟨_, rfl⟩

theorem read_returns_iff (second : Option Text) :
    (∃ d, shape.read second = .ok d) ↔ ∀ w, second = some w → shape.Takes w := by
  cases second with
  | none => cases shape <;> exact iff_of_true ⟨_, rfl⟩ (by simp)
  | some w =>
      simp only [Option.some.injEq, forall_eq']
      cases shape with
      | bare c => exact iff_of_true ⟨_, rfl⟩ trivial
      | path missing handler =>
          rw [Shape.read, storeWord, Shape.Takes]
          split_ifs with h
          · exact iff_of_true ⟨_, rfl⟩ h
          · exact iff_of_false (by simp) h
      | number missing handler =>
          obtain ⟨n, hn⟩ := scanUnsigned_returns w
          rw [Shape.read, hn, ok_bind]
          refine iff_of_true ?_ trivial
          cases n <;> exact ⟨_, rfl⟩
      | letter missing c => exact iff_of_true ⟨_, rfl⟩ trivial

/-- The first word has less than ten characters, and the second one fits what the verb scans
for. -/
def WordsFit (answers : List Bool) : List Text → Prop
  | [] => True
  | verb :: rest => verb.length < verbRoom ∧ ∀ shape w,
      (verbs answers).lookup verb = some shape → rest.head? = some w → shape.Takes w

/-- The dispatcher stays in its buffers exactly where the words of the line fit them. -/
theorem commandDispatcher_returns_iff :
    (∃ d, commandDispatcher answers (some t) = .ok d) ↔ WordsFit answers (words isSpace t) := by
  rw [commandDispatcher_eq]
  cases words isSpace t with
  | nil => exact iff_of_true ⟨_, rfl⟩ trivial
  | cons verb rest =>
      rw [interpret, storeWord, WordsFit]
      split_ifs with hverb
      · rw [ok_bind]
        cases (verbs answers).lookup verb with
        | none => exact iff_of_true ⟨_, rfl⟩ ⟨hverb, by simp⟩
        | some shape =>
            refine (read_returns_iff rest.head?).trans ⟨fun h => ⟨hverb, ?_⟩, fun h w hw => ?_⟩
            · intro s w hs hw
              rw [← Option.some.inj hs]
              exact h w hw
            · exact h.2 shape w rfl hw
      · exact iff_of_false (by simp) fun h => hverb h.1

end Buffers

end TFAT.CommandLines
