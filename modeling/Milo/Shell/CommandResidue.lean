import Milo.Foundation.TextBuffer
import Milo.Shell.CommandString

/-! # What is left of a command string

`parse_command_string` works in place. Each `;` becomes a NUL, `strtok` stores
one in the blank behind each word, and `parse_command` cuts the colon of a first
word such as `sda1:`, with which the device is changed. Reading the string again
gives what stands before the first of these NULs.
-/

namespace Milo.Shell

open Foundation

def colon : UInt8 := 0x3a

/-- A command as `strtok` leaves it; `inWord` says that the character before is
one of a word. -/
def cutWords (inWord : Bool) : List UInt8 → List UInt8
  | [] => []
  | c :: string =>
      if isBlank c then (if inWord then 0 else c) :: cutWords false string
      else c :: cutWords true string

/-- `parse_command` takes the word for a device: its first colon is its last
character. -/
def namesDevice (word : List UInt8) : Bool :=
  word.findIdx (· == colon) + 1 == word.length

/-- A command as `parse_command` leaves it. -/
def cutCommand (string : List UInt8) : List UInt8 :=
  match words string with
  | [] => cutWords false string
  | word :: _ =>
      if namesDevice word then
        (cutWords false string).set ((string.takeWhile isBlank).length + word.length - 1) 0
      else cutWords false string

/-- The string as `parse_command_string` leaves it. -/
def cutCommands (string : List UInt8) : List UInt8 :=
  [0].intercalate ((string.splitOn semicolon).map cutCommand)

/-- The commands that are run, as their words; `parse_command` does nothing
without a word. -/
def commandsRun (string : List UInt8) : List (List (List UInt8)) :=
  ((string.splitOn semicolon).map words).filter fun command => !command.isEmpty

/-- `parse_command_string` of the string at `p`. -/
def parseCommandAt (buf : List UInt8) (p : Nat) : List UInt8 :=
  overwrite buf p (cutCommands (stringIn buf p))

/-- What the string reads like the next time. -/
def residue (string : List UInt8) : List UInt8 := (cutCommands string).takeWhile (· != 0)

/-- One word at most, which is no device, and nothing to run behind a `;`. -/
structure RunsAgain (string : List UInt8) : Prop where
  last : ∀ later ∈ (string.splitOn semicolon).tail, words later = []
  single : ∀ first ∈ (string.splitOn semicolon).head?, (words first).length ≤ 1
  plain : ∀ first ∈ (string.splitOn semicolon).head?, ∀ word ∈ words first,
    namesDevice word = false

/-! ## Lengths -/

theorem cutWords_length (inWord : Bool) (string : List UInt8) :
    (cutWords inWord string).length = string.length := by
  induction string generalizing inWord with
  | nil => rfl
  | cons c string ih =>
      unfold cutWords
      split
      · rw [List.length_cons, ih, List.length_cons]
      · rw [List.length_cons, ih, List.length_cons]

theorem cutCommand_length (string : List UInt8) : (cutCommand string).length = string.length := by
  unfold cutCommand
  split
  · exact cutWords_length false string
  · split
    · rw [List.length_set, cutWords_length]
    · exact cutWords_length false string

theorem cutCommands_length (string : List UInt8) :
    (cutCommands string).length = string.length := by
  have hparts : ∀ parts : List (List UInt8),
      ([0].intercalate (parts.map cutCommand)).length = ([semicolon].intercalate parts).length := by
    intro parts
    induction parts with
    | nil => rfl
    | cons part parts ih =>
        cases parts with
        | nil => simp [cutCommand_length]
        | cons part' parts =>
            rw [List.map_cons, List.map_cons, List.intercalate_cons_cons,
              List.intercalate_cons_cons, List.length_append, List.length_append, ← List.map_cons,
              ih, List.length_append, List.length_append, cutCommand_length]
            rfl
  unfold cutCommands
  rw [hparts, List.intercalate_splitOn]

theorem parseCommandAt_length (buf : List UInt8) (p : Nat) :
    (parseCommandAt buf p).length = buf.length :=
  overwrite_length (by
    rw [cutCommands_length]
    exact stringIn_length_le buf p)

/-! ## Words -/

theorem words_cons_blank {c : UInt8} (h : isBlank c = true) (string : List UInt8) :
    words (c :: string) = words string := by
  unfold words
  rw [List.splitOnP_cons_eq_if_modifyHead, if_pos h]
  rfl

theorem words_blanks {lead : List UInt8} (h : ∀ c ∈ lead, isBlank c = true)
    (string : List UInt8) : words (lead ++ string) = words string := by
  induction lead with
  | nil => rfl
  | cons c lead ih =>
      rw [List.cons_append, words_cons_blank (h c List.mem_cons_self)]
      exact ih fun d hd => h d (List.mem_cons_of_mem c hd)

theorem words_word {word : List UInt8} (h : ∀ c ∈ word, isBlank c = false) (hne : word ≠ []) :
    words word = [word] := by
  unfold words
  rw [List.splitOnP_eq_singleton h]
  simp [hne]

theorem words_word_blank {word : List UInt8} (h : ∀ c ∈ word, isBlank c = false)
    (hne : word ≠ []) {c : UInt8} (hc : isBlank c = true) (string : List UInt8) :
    words (word ++ c :: string) = word :: words string := by
  unfold words
  rw [List.splitOnP_append_cons_of_forall_mem h c hc]
  simp [hne]

theorem words_first {lead word rest : List UInt8} (hlead : ∀ c ∈ lead, isBlank c = true)
    (hne : word ≠ []) (hword : ∀ c ∈ word, isBlank c = false)
    (hrest : ∀ c ∈ rest.head?, isBlank c = true) :
    words (lead ++ (word ++ rest)) = word :: words rest := by
  rw [words_blanks hlead]
  cases rest with
  | nil =>
      rw [List.append_nil]
      exact words_word hword hne
  | cons c rest =>
      have hc := hrest c rfl
      rw [words_word_blank hword hne hc, words_cons_blank hc]

/-- A command starts with blanks, and its first word ends with it or at a blank. -/
theorem command_shape (string : List UInt8) :
    (∀ c ∈ string, isBlank c = true) ∨
      ∃ lead word rest, string = lead ++ (word ++ rest) ∧ (∀ c ∈ lead, isBlank c = true) ∧
        word ≠ [] ∧ (∀ c ∈ word, isBlank c = false) ∧ ∀ c ∈ rest.head?, isBlank c = true := by
  by_cases hall : ∀ c ∈ string, isBlank c = true
  · exact Or.inl hall
  · right
    have hsplit := (@List.takeWhile_append_dropWhile _ isBlank string).symm
    have hne : string.dropWhile isBlank ≠ [] := by
      rw [ne_eq, List.dropWhile_eq_nil_iff]
      exact hall
    have hhead := List.head?_dropWhile_not isBlank string
    generalize string.dropWhile isBlank = rest at hsplit hne hhead
    have hword := (@List.takeWhile_append_dropWhile _ (fun c => !isBlank c) rest).symm
    refine ⟨_, rest.takeWhile fun c => !isBlank c, rest.dropWhile fun c => !isBlank c,
      hword ▸ hsplit, fun c hc => List.mem_takeWhile_imp hc, ?_, ?_, ?_⟩
    · cases rest with
      | nil => exact absurd rfl hne
      | cons c rest =>
          have hc : isBlank c = false := by simpa using hhead
          simp [hc]
    · intro c hc
      simpa using List.mem_takeWhile_imp hc
    · intro c hc
      have hstop := List.head?_dropWhile_not (fun c => !isBlank c) rest
      rw [hc] at hstop
      simpa using hstop

/-! ## The first command -/

theorem cutWords_blanks {lead : List UInt8} (h : ∀ c ∈ lead, isBlank c = true)
    (string : List UInt8) : cutWords false (lead ++ string) = lead ++ cutWords false string := by
  induction lead with
  | nil => rfl
  | cons c lead ih =>
      rw [List.cons_append, cutWords, if_pos (h c List.mem_cons_self), if_neg Bool.false_ne_true,
        ih fun d hd => h d (List.mem_cons_of_mem c hd), List.cons_append]

theorem cutWords_word {word : List UInt8} (h : ∀ c ∈ word, isBlank c = false) (hne : word ≠ [])
    (inWord : Bool) (string : List UInt8) :
    cutWords inWord (word ++ string) = word ++ cutWords true string := by
  induction word generalizing inWord with
  | nil => exact absurd rfl hne
  | cons c word ih =>
      have hc : ¬ isBlank c = true := by simp [h c List.mem_cons_self]
      rw [List.cons_append, cutWords, if_neg hc, List.cons_append]
      cases word with
      | nil => rfl
      | cons d word => rw [ih (fun e he => h e (List.mem_cons_of_mem c he)) (by simp)]

/-- Only the first command is left to read. -/
theorem residue_eq {string first : List UInt8} {rest : List (List UInt8)}
    (h : string.splitOn semicolon = first :: rest) :
    residue string = (cutCommand first).takeWhile (· != 0) := by
  unfold residue cutCommands
  rw [h, List.map_cons]
  cases rest with
  | nil => rw [List.map_nil, List.intercalate_singleton]
  | cons second rest =>
      rw [List.map_cons, List.intercalate_cons_cons, List.append_assoc]
      exact takeWhile_append_nul _ _

theorem cutCommand_blanks {first : List UInt8} (h : ∀ c ∈ first, isBlank c = true) :
    cutCommand first = first := by
  have hwords : words first = [] := by
    have hblanks := words_blanks h []
    rwa [List.append_nil] at hblanks
  have hcut := cutWords_blanks h []
  rw [List.append_nil] at hcut
  unfold cutCommand
  rw [hwords]
  simp only
  rw [hcut, cutWords, List.append_nil]

/-- What can be read of a command with a word. -/
theorem cutCommand_word {lead word rest : List UInt8} (hlead : ∀ c ∈ lead, isBlank c = true)
    (hne : word ≠ []) (hword : ∀ c ∈ word, isBlank c = false)
    (hrest : ∀ c ∈ rest.head?, isBlank c = true) (hnul : 0 ∉ lead ++ word) :
    (cutCommand (lead ++ (word ++ rest))).takeWhile (· != 0) =
      lead ++ if namesDevice word then word.dropLast else word := by
  have hcut : ∃ tail, cutWords false (lead ++ (word ++ rest)) = lead ++ (word ++ tail) ∧
      tail.takeWhile (· != 0) = [] := by
    refine ⟨cutWords true rest, ?_, ?_⟩
    · rw [cutWords_blanks hlead, cutWords_word hword hne]
    · cases rest with
      | nil => rfl
      | cons c rest =>
          rw [cutWords, if_pos (hrest c rfl)]
          rfl
  have hindent : (lead ++ (word ++ rest)).takeWhile isBlank = lead := by
    have hstop : (word ++ rest).takeWhile isBlank = [] := by
      cases word with
      | nil => exact absurd rfl hne
      | cons c word => rw [List.cons_append, List.takeWhile_cons_of_neg (by simp [hword c])]
    rw [List.takeWhile_append_of_pos hlead, hstop, List.append_nil]
  obtain ⟨tail, hcut, htail⟩ := hcut
  unfold cutCommand
  rw [words_first hlead hne hword hrest, hcut, hindent]
  simp only
  split
  · have hset : (lead ++ (word ++ tail)).set (lead.length + word.length - 1) 0 =
        (lead ++ word.dropLast) ++ 0 :: tail := by
      obtain ⟨init, last, rfl⟩ := (List.eq_nil_or_concat' word).resolve_left hne
      rw [List.length_append, List.length_singleton, ← Nat.add_assoc, Nat.add_sub_cancel,
        List.set_append_right _ _ (Nat.le_add_right _ _), Nat.add_sub_cancel_left,
        List.append_assoc, List.set_append_right _ _ (Nat.le_refl _), Nat.sub_self,
        List.dropLast_concat, List.append_assoc]
      rfl
    have hkept : 0 ∉ lead ++ word.dropLast := by
      intro h
      apply hnul
      rw [List.mem_append] at h ⊢
      exact h.imp_right (List.dropLast_subset word ·)
    rw [hset, takeWhile_append_nul, takeWhile_of_no_nul hkept]
  · rw [← List.append_assoc, List.takeWhile_append_of_pos, htail, List.append_nil]
    intro c hc
    rw [bne_iff_ne]
    exact fun heq => hnul (heq ▸ hc)

/-! ## Running it again -/

theorem commandsRun_single {string : List UInt8} (h : semicolon ∉ string) :
    commandsRun string = [words string].filter fun command => !command.isEmpty := by
  unfold commandsRun
  rw [List.splitOn_eq_singleton h]
  rfl

theorem first_command (string : List UInt8) : ∃ first rest,
    string.splitOn semicolon = first :: rest ∧ semicolon ∉ first ∧ first ⊆ string := by
  by_cases h : semicolon ∈ string
  · obtain ⟨first, rest, rfl, hfirst⟩ := List.eq_append_cons_of_mem h
    exact ⟨first, rest.splitOn semicolon,
      List.splitOn_append_cons_self_of_not_mem hfirst rest, hfirst, List.subset_append_left _ _⟩
  · exact ⟨string, [], List.splitOn_eq_singleton h, h, fun _ hc => hc⟩

theorem filter_command_cons {command : List (List UInt8)} (h : command ≠ [])
    (rest : List (List (List UInt8))) :
    ((command :: rest).filter fun command => !command.isEmpty) =
      command :: rest.filter fun command => !command.isEmpty :=
  List.filter_cons_of_pos (by simp [h])

theorem filter_words_eq_nil_iff {commands : List (List UInt8)} :
    ((commands.map words).filter fun command => !command.isEmpty) = [] ↔
      ∀ command ∈ commands, words command = [] := by
  simp

theorem dropLast_ne {word : List UInt8} (h : word ≠ []) : word.dropLast ≠ word := by
  intro heq
  have hlength := congrArg List.length heq
  have hpos := List.length_pos_of_ne_nil h
  rw [List.length_dropLast] at hlength
  omega

/-- The commands of what is left: those of the first one's first word. -/
theorem commandsRun_residue {string first : List UInt8} {rest : List (List UInt8)} (hnul : 0 ∉ string)
    (hsplit : string.splitOn semicolon = first :: rest) (hfirst : semicolon ∉ first)
    (hsubset : first ⊆ string) :
    (words first = [] ∧ commandsRun (residue string) = []) ∨
      ∃ word more, words first = word :: more ∧ word ≠ [] ∧ (∀ c ∈ word, isBlank c = false) ∧
        commandsRun (residue string) =
          [words (if namesDevice word then word.dropLast else word)].filter
            fun command => !command.isEmpty := by
  rw [residue_eq hsplit]
  rcases command_shape first with hblank | ⟨lead, word, behind, rfl, hlead, hne, hword, hbehind⟩
  · -- no word: nothing is run, and nothing is cut
    have hwords : words first = [] := by
      have hblanks := words_blanks hblank []
      rwa [List.append_nil] at hblanks
    refine Or.inl ⟨hwords, ?_⟩
    rw [cutCommand_blanks hblank, takeWhile_of_no_nul fun h => hnul (hsubset h),
      commandsRun_single hfirst, hwords]
    rfl
  · have hclean : 0 ∉ lead ++ word := by
      intro h
      apply hnul
      apply hsubset
      rw [← List.append_assoc]
      exact List.mem_append_left _ h
    have hnosemi : semicolon ∉ lead ++ if namesDevice word then word.dropLast else word := by
      intro h
      apply hfirst
      rw [List.mem_append] at h
      rw [← List.append_assoc, List.mem_append, List.mem_append]
      refine Or.inl (h.imp_right fun h => ?_)
      split at h
      · exact List.dropLast_subset word h
      · exact h
    refine Or.inr ⟨word, _, words_first hlead hne hword hbehind, hne, hword, ?_⟩
    rw [cutCommand_word hlead hne hword hbehind hclean, commandsRun_single hnosemi,
      words_blanks hlead]

theorem commandsRun_eq {string first : List UInt8} {rest : List (List UInt8)}
    (hsplit : string.splitOn semicolon = first :: rest) :
    commandsRun string = (words first :: rest.map words).filter fun command =>
      !command.isEmpty := by
  unfold commandsRun
  rw [hsplit, List.map_cons]

/-- A command string at most loses commands. -/
theorem commandsRun_residue_length {string : List UInt8} (hnul : 0 ∉ string) :
    (commandsRun (residue string)).length ≤ (commandsRun string).length := by
  obtain ⟨first, rest, hsplit, hfirst, hsubset⟩ := first_command string
  rcases commandsRun_residue hnul hsplit hfirst hsubset with ⟨_, hrun⟩ | ⟨word, more, hwords, _, _, hrun⟩
  · rw [hrun]
    exact Nat.zero_le _
  · rw [hrun, commandsRun_eq hsplit, hwords, filter_command_cons (List.cons_ne_nil word more),
      List.length_cons]
    exact Nat.le_trans (List.length_filter_le _ _) (Nat.le_add_left 1 _)

theorem runsAgain_iff {string first : List UInt8} {rest : List (List UInt8)}
    (hsplit : string.splitOn semicolon = first :: rest) :
    RunsAgain string ↔ (∀ later ∈ rest, words later = []) ∧ (words first).length ≤ 1 ∧
      ∀ word ∈ words first, namesDevice word = false := by
  constructor
  · intro h
    have hlast := h.last
    have hsingle := h.single
    have hplain := h.plain
    rw [hsplit] at hlast hsingle hplain
    exact ⟨hlast, hsingle first rfl, hplain first rfl⟩
  · intro ⟨hlast, hsingle, hplain⟩
    constructor
    · rw [hsplit]
      exact hlast
    · rw [hsplit]
      exact fun _ h => Option.some.inj h ▸ hsingle
    · rw [hsplit]
      exact fun _ h => Option.some.inj h ▸ hplain

/-- Reading what is left runs the same commands exactly for these strings. -/
theorem commandsRun_residue_iff {string : List UInt8} (hnul : 0 ∉ string) :
    commandsRun (residue string) = commandsRun string ↔ RunsAgain string := by
  obtain ⟨first, rest, hsplit, hfirst, hsubset⟩ := first_command string
  rw [runsAgain_iff hsplit, commandsRun_eq hsplit]
  rcases commandsRun_residue hnul hsplit hfirst hsubset with
    ⟨hwords, hrun⟩ | ⟨word, more, hwords, hne, hword, hrun⟩
  · rw [hrun, hwords, List.filter_cons_of_neg (by simp), eq_comm, filter_words_eq_nil_iff]
    simp
  · rw [hrun, hwords, filter_command_cons (List.cons_ne_nil word more)]
    by_cases hdevice : namesDevice word = true
    · -- the colon is gone, so the word is another one or none
      rw [if_pos hdevice]
      constructor
      · intro heq
        have hmem : word :: more ∈ [words word.dropLast] :=
          List.mem_of_mem_filter (heq ▸ List.mem_cons_self)
        rw [List.mem_singleton] at hmem
        by_cases hnil : word.dropLast = []
        · rw [hnil] at hmem
          cases hmem
        · rw [words_word (fun c hc => hword c (List.dropLast_subset word hc)) hnil] at hmem
          exact absurd (List.cons.inj hmem).1.symm (dropLast_ne hne)
      · intro ⟨_, _, hplain⟩
        rw [hplain word List.mem_cons_self] at hdevice
        cases hdevice
    · rw [if_neg hdevice, words_word hword hne, filter_command_cons (List.cons_ne_nil word _),
        List.filter_nil, List.cons.injEq, List.cons.injEq, @eq_comm _ [], @eq_comm _ [],
        filter_words_eq_nil_iff]
      constructor
      · intro ⟨⟨_, hmore⟩, hrest⟩
        rw [hmore]
        refine ⟨hrest, Nat.le_refl 1, fun w hw => ?_⟩
        rw [List.mem_singleton.mp hw]
        exact Bool.eq_false_iff.mpr hdevice
      · intro ⟨hrest, hsingle, _⟩
        exact ⟨⟨rfl, List.eq_nil_of_length_eq_zero (by simpa using hsingle)⟩, hrest⟩

/-! ## In the buffer -/

theorem parseCommandAt_edits (buf : List UInt8) (p : Nat) :
    Edits buf (parseCommandAt buf p) [p] := by
  have hlength := cutCommands_length (stringIn buf p)
  apply edits_of_inside
  intro i hi
  apply overwrite_outside
  · rw [hlength]
    exact stringIn_length_le buf p
  · rwa [hlength]

theorem stringIn_parseCommandAt {buf : List UInt8} {p : Nat} (h : 0 ∈ buf.drop p) :
    stringIn (parseCommandAt buf p) p = residue (stringIn buf p) :=
  stringIn_overwrite h (cutCommands_length _)

end Milo.Shell
