import Milo.Foundation.CString
import Milo.Shell.CommandResidue

/-! # Strings that are put together in the scratch buffer

The words behind the path of a `boot` command, and those of the value of
`BOOT_STRING`, are put together again in the second half of the command buffer, with
a blank behind each. Nothing looks at how many bytes they are.
-/

namespace Milo.Shell

open Foundation

/-! ## Commands -/

/-- What a command does with the scratch buffer. -/
inductive Action where
  | boot
  | setenv
  | other

/-- How MILO was built: with `MINI_NVRAM`, for a board with `bootopt`, and with
`DEBUG_MILO`. -/
structure Build where
  nvram : Bool
  bootopt : Bool
  debug : Bool

/-- The names in `commands`: `ls`, `cd`, `boot`, `read`, `run`, `show`, `sleep`, `pci`,
then those for environment variables, `bootopt`, `reboot` and `help`. -/
def commands (build : Build) : List (List UInt8 × Action) :=
  [([0x6c, 0x73], .other),
    ([0x63, 0x64], .other),
    ([0x62, 0x6f, 0x6f, 0x74], .boot),
    ([0x72, 0x65, 0x61, 0x64], .other),
    ([0x72, 0x75, 0x6e], .other),
    ([0x73, 0x68, 0x6f, 0x77], .other),
    ([0x73, 0x6c, 0x65, 0x65, 0x70], .other),
    ([0x70, 0x63, 0x69], .other)] ++
  (if build.nvram then
    -- `setenv`, `unsetenv` and `resetenv`
    [([0x73, 0x65, 0x74, 0x65, 0x6e, 0x76], .setenv),
      ([0x75, 0x6e, 0x73, 0x65, 0x74, 0x65, 0x6e, 0x76], .other),
      ([0x72, 0x65, 0x73, 0x65, 0x74, 0x65, 0x6e, 0x76], .other)]
  else
    -- `unset` and `set`
    [([0x75, 0x6e, 0x73, 0x65, 0x74], .other), ([0x73, 0x65, 0x74], .setenv)]) ++
  (if build.bootopt then [([0x62, 0x6f, 0x6f, 0x74, 0x6f, 0x70, 0x74], .other)] else []) ++
  (if build.debug then [([0x72, 0x65, 0x62, 0x6f, 0x6f, 0x74], .other)] else []) ++
  [([0x68, 0x65, 0x6c, 0x70], .other)]

def tolower (c : UInt8) : UInt8 := if 0x41 ≤ c ∧ c ≤ 0x5a then c + 0x20 else c

/-- `compare` -/
def compare (token command : List UInt8) : Bool := token.map tolower == command.map tolower

/-- `partial_compare` -/
def partialCompare (token command : List UInt8) : Bool :=
  decide (token.length ≤ command.length) &&
    token.map tolower == (command.take token.length).map tolower

/-- The command that a word stands for: the one with this name, or else the only one
whose name starts with it. -/
def findAction (build : Build) (token : List UInt8) : Option Action :=
  match (commands build).find? fun command => compare token command.1 with
  | some command => some command.2
  | none =>
      match (commands build).filter fun command => partialCompare token command.1 with
      | [command] => some command.2
      | _ => none

/-- `|` and `more` at the end of a command are not for it. -/
def stripMore (tokens : List (List UInt8)) : List (List UInt8) :=
  if 2 < tokens.length ∧ tokens.drop (tokens.length - 2) = [[0x7c], [0x6d, 0x6f, 0x72, 0x65]] then
    tokens.take (tokens.length - 2)
  else tokens

/-- `"BOOT_STRING"` -/
def bootStringName : List UInt8 :=
  [0x42, 0x4f, 0x4f, 0x54, 0x5f, 0x53, 0x54, 0x52, 0x49, 0x4e, 0x47]

/-- What a command puts together in the scratch buffer, and in which way. -/
inductive Assembled where
  | nothing
  | bootString (words : List (List UInt8))
  | bootStringValue (words : List (List UInt8))

/-- `parse_command`, as far as the scratch buffer is concerned: a `boot` command with
words behind its path, or `BOOT_STRING` with its value. -/
def parseCommand (build : Build) (tokens : List (List UInt8)) : Assembled :=
  match stripMore tokens with
  | [] => .nothing
  | token :: tokens =>
      if namesDevice token then .nothing
      else
        match findAction build token with
        | some .boot =>
            match tokens with
            | _ :: word :: rest => .bootString (word :: rest)
            | _ => .nothing
        | some .setenv =>
            match tokens with
            | name :: value :: rest =>
                if name = bootStringName then .bootStringValue (value :: rest) else .nothing
            | _ => .nothing
        | _ => .nothing

/-! ## The scratch buffer -/

/-- The size of each half of the command buffer. -/
def scratchSize : Nat := 256

/-- The loop of `boot_parse` with its `stpcpy`s. -/
def bootStores (tmp : Nat) : List (List UInt8) → List ByteStore
  | [] => []
  | token :: rest =>
      storesAt tmp (token ++ [0]) ++ storesAt (tmp + token.length) [0x20, 0] ++
        bootStores (tmp + token.length + 1) rest

/-- The loop of `setenv_parse` with its `strcat`s. -/
def setenvStores (mem : ByteMemory) (scratch : Nat) : List (List UInt8) → List ByteStore
  | [] => []
  | token :: rest =>
      let first := storesAt (scratch + strlen mem scratch) (token ++ [0])
      let mem := store mem first
      let second := storesAt (scratch + strlen mem scratch) [0x20, 0]
      first ++ second ++ setenvStores (store mem second) scratch rest

/-- What a command stores in and behind the scratch buffer, which is cleared first. -/
def scratchStores (mem : ByteMemory) (scratch : Nat) : Assembled → List ByteStore
  | .nothing => []
  | .bootString words =>
      storesAt scratch (List.replicate scratchSize 0) ++ bootStores scratch words
  | .bootStringValue words =>
      let cleared := storesAt scratch (List.replicate scratchSize 0)
      cleared ++ setenvStores (store mem cleared) scratch words

/-- What the commands of a string store, from command `i` on. The memory is as each of
them finds it, and some may not return. -/
def commandStores (build : Build) (mem : Nat → ByteMemory) (scratch : Nat) (returns : Nat → Bool)
    (i : Nat) : List (List UInt8) → List ByteStore
  | [] => []
  | command :: rest =>
      scratchStores (mem i) scratch (parseCommand build (words command)) ++
        if returns i then commandStores build mem scratch returns (i + 1) rest else []

/-! ## What fits -/

/-- The words that are put together. -/
def Assembled.words : Assembled → List (List UInt8)
  | .nothing => []
  | .bootString words => words
  | .bootStringValue words => words

/-- The length of words with a blank behind each. -/
def blankedLength (words : List (List UInt8)) : Nat := (words.map fun word => word.length + 1).sum

theorem blankedLength_cons (word : List UInt8) (rest : List (List UInt8)) :
    blankedLength (word :: rest) = word.length + 1 + blankedLength rest :=
  List.sum_cons

/-- All stores are in the scratch buffer. -/
def InScratch (scratch : Nat) (stores : List ByteStore) : Prop :=
  ∀ s ∈ stores, s.1 ∈ (⟨scratch, scratchSize⟩ : Span)

theorem inScratch_append {scratch : Nat} {stores more : List ByteStore} :
    InScratch scratch (stores ++ more) ↔ InScratch scratch stores ∧ InScratch scratch more :=
  List.forall_mem_append

theorem inScratch_storesAt (scratch k : Nat) (bytes : List UInt8) :
    InScratch scratch (storesAt (scratch + k) bytes) ↔
      bytes = [] ∨ k + bytes.length ≤ scratchSize := by
  have hall : InScratch scratch (storesAt (scratch + k) bytes) ↔
      ∀ x ∈ (⟨scratch + k, bytes.length⟩ : Span), x ∈ (⟨scratch, scratchSize⟩ : Span) := by
    constructor
    · intro h x hx
      obtain ⟨b, hb⟩ := mem_storesAt.mpr hx
      exact h (x, b) hb
    · intro h s hs
      exact h s.1 (mem_storesAt.mp ⟨s.2, hs⟩)
  rw [hall, ← Span.Within, Span.within_iff, ← List.length_eq_zero_iff]
  dsimp only
  omega

theorem bootStores_inScratch_iff (scratch k : Nat) (words : List (List UInt8)) :
    InScratch scratch (bootStores (scratch + k) words) ↔
      words = [] ∨ k + blankedLength words + 1 ≤ scratchSize := by
  induction words generalizing k with
  | nil => simp [bootStores, InScratch]
  | cons word rest ih =>
      have hrest := ih (k + word.length + 1)
      have haddr : scratch + (k + word.length + 1) = scratch + k + word.length + 1 := by omega
      have hsecond := inScratch_storesAt scratch (k + word.length) [0x20, 0]
      rw [← Nat.add_assoc] at hsecond
      rw [haddr] at hrest
      rw [bootStores, inScratch_append, inScratch_append, inScratch_storesAt, hsecond, hrest,
        blankedLength_cons]
      simp only [List.append_eq_nil_iff, List.cons_ne_nil, and_false, false_or, List.length_append,
        List.length_cons, List.length_nil]
      cases rest with
      | nil =>
          simp only [true_or, and_true, blankedLength, List.map_nil, List.sum_nil]
          omega
      | cons word' rest =>
          simp only [List.cons_ne_nil, false_or]
          omega

/-- `strcat` appends where `stpcpy` goes on. -/
theorem setenvStores_eq {mem : ByteMemory} (scratch : Nat) {text : List UInt8}
    {words : List (List UInt8)} (hholds : HoldsBytes mem scratch (text ++ [0])) (hnul : 0 ∉ text)
    (hwords : ∀ word ∈ words, 0 ∉ word) (hfits : text.length + blankedLength words < 2 ^ 64) :
    setenvStores mem scratch words = bootStores (scratch + text.length) words := by
  induction words generalizing mem text with
  | nil => rfl
  | cons word rest ih =>
      rw [blankedLength_cons] at hfits
      have hword : 0 ∉ text ++ word := by
        rw [List.mem_append, not_or]
        exact ⟨hnul, hwords word List.mem_cons_self⟩
      have happend : ∀ {mem : ByteMemory} {old new : List UInt8}, HoldsBytes mem scratch (old ++ [0]) →
          HoldsBytes (store mem (storesAt (scratch + old.length) (new ++ [0]))) scratch
            (old ++ new ++ [0]) := by
        intro mem old new hold
        rw [List.append_assoc, HoldsBytes.append]
        refine ⟨(HoldsBytes.append.mp hold).1.congr fun x hx => ?_, store_holds _ _ _⟩
        apply store_outside
        rw [Span.mem_mk] at hx ⊢
        omega
      have hfirst := @happend mem text word hholds
      have hsecond := @happend _ (text ++ word) [0x20] hfirst
      have hlen := strlen_eq hnul (by omega) hholds
      have hlen' := strlen_eq hword (by rw [List.length_append]; omega) hfirst
      have hrest := ih hsecond (by
          rw [List.mem_append, not_or]
          exact ⟨hword, by decide⟩) (fun w hw => hwords w (List.mem_cons_of_mem word hw)) (by
          simp only [List.length_append, List.length_singleton]
          omega)
      rw [setenvStores, bootStores]
      simp only [hlen, hlen', List.length_append, List.length_singleton, ← Nat.add_assoc] at hrest ⊢
      rw [← hrest]
      rfl

/-- A command stores inside of the scratch buffer exactly if its words, with a blank
behind each, are at most 255 bytes long. -/
theorem scratchStores_inScratch_iff (mem : ByteMemory) (scratch : Nat) {assembled : Assembled}
    (hwords : ∀ word ∈ assembled.words, 0 ∉ word) (hfits : blankedLength assembled.words < 2 ^ 64) :
    InScratch scratch (scratchStores mem scratch assembled) ↔
      blankedLength assembled.words < scratchSize := by
  have hcleared : InScratch scratch (storesAt scratch (List.replicate scratchSize 0)) := by
    have h := inScratch_storesAt scratch 0 (List.replicate scratchSize 0)
    rw [Nat.add_zero, List.length_replicate, Nat.zero_add] at h
    exact h.mpr (Or.inr (Nat.le_refl _))
  have hboot : ∀ words, InScratch scratch (bootStores scratch words) ↔
      blankedLength words < scratchSize := by
    intro words
    have h := bootStores_inScratch_iff scratch 0 words
    rw [Nat.add_zero, Nat.zero_add] at h
    rw [h]
    cases words with
    | nil => simp [blankedLength, scratchSize]
    | cons word rest => simp only [List.cons_ne_nil, false_or]; exact Iff.rfl
  cases assembled with
  | nothing =>
      refine iff_of_true (fun s hs => absurd hs List.not_mem_nil) ?_
      simp [Assembled.words, blankedLength, scratchSize]
  | bootString words =>
      rw [scratchStores, inScratch_append, hboot]
      exact and_iff_right hcleared
  | bootStringValue words =>
      have hempty : HoldsBytes (store mem (storesAt scratch (List.replicate scratchSize 0))) scratch
          ([] ++ [0]) := by
        have hzeros := store_holds mem scratch (List.replicate scratchSize 0)
        exact (HoldsBytes.append.mp (show HoldsBytes _ scratch ([0] ++ List.replicate 255 0) from
          hzeros)).1
      have heq : setenvStores (store mem (storesAt scratch (List.replicate scratchSize 0))) scratch
          words = bootStores scratch words := setenvStores_eq scratch hempty List.not_mem_nil hwords
        (by rwa [List.length_nil, Nat.zero_add])
      rw [scratchStores, inScratch_append, heq, hboot]
      exact and_iff_right hcleared

/-! ## Words of a string -/

theorem splitOnP_total (p : UInt8 → Bool) (string : List UInt8) :
    blankedLength (string.splitOnP p) = string.length + 1 := by
  induction string with
  | nil => rfl
  | cons c string ih =>
      rw [List.splitOnP_cons_eq_if_modifyHead]
      split
      · rw [blankedLength_cons, ih, List.length_nil, List.length_cons]
        omega
      · obtain ⟨first, rest, hsplit⟩ := List.exists_cons_of_ne_nil (List.splitOnP_ne_nil p string)
        rw [hsplit] at ih ⊢
        rw [blankedLength_cons] at ih
        rw [List.modifyHead_cons, blankedLength_cons, List.length_cons, List.length_cons]
        omega

theorem blankedLength_sublist {words words' : List (List UInt8)} (h : words.Sublist words') :
    blankedLength words ≤ blankedLength words' := by
  induction h with
  | slnil => exact Nat.le_refl _
  | cons word _ ih =>
      rw [blankedLength_cons]
      omega
  | cons_cons word _ ih =>
      rw [blankedLength_cons, blankedLength_cons]
      omega

theorem words_total_le (string : List UInt8) : blankedLength (words string) ≤ string.length + 1 := by
  have hsub := blankedLength_sublist (List.filter_sublist (p := fun word => !word.isEmpty)
    (l := string.splitOnP isBlank))
  rw [splitOnP_total] at hsub
  exact hsub

theorem splitOnP_subset (p : UInt8 → Bool) {string word : List UInt8}
    (h : word ∈ string.splitOnP p) : word ⊆ string := by
  induction string generalizing word with
  | nil =>
      cases List.mem_singleton.mp h
      exact List.Subset.refl _
  | cons c string ih =>
      rw [List.splitOnP_cons_eq_if_modifyHead] at h
      split at h
      · rcases List.mem_cons.mp h with rfl | h
        · exact List.nil_subset _
        · exact List.subset_cons_of_subset c (ih h)
      · obtain ⟨first, rest, hsplit⟩ := List.exists_cons_of_ne_nil (List.splitOnP_ne_nil p string)
        rw [hsplit] at h ih
        rw [List.modifyHead_cons] at h
        rcases List.mem_cons.mp h with rfl | h
        · exact List.cons_subset_cons c (ih List.mem_cons_self)
        · exact List.subset_cons_of_subset c (ih (List.mem_cons_of_mem first h))

theorem words_subset {string word : List UInt8} (h : word ∈ words string) : word ⊆ string :=
  splitOnP_subset isBlank (List.mem_of_mem_filter h)

theorem stripMore_sublist (tokens : List (List UInt8)) : (stripMore tokens).Sublist tokens := by
  unfold stripMore
  split
  · exact List.take_sublist _ _
  · exact List.Sublist.refl _

/-- What is put together are words behind the first two. -/
theorem parseCommand_words (build : Build) (tokens : List (List UInt8)) :
    (parseCommand build tokens).words = [] ∨
      ∃ first second, (first :: second :: (parseCommand build tokens).words).Sublist tokens := by
  have hstrip := stripMore_sublist tokens
  unfold parseCommand
  split
  · exact Or.inl rfl
  · rename_i token rest heq
    rw [heq] at hstrip
    split
    · exact Or.inl rfl
    · split
      · split
        · exact Or.inr ⟨_, _, hstrip⟩
        · exact Or.inl rfl
      · split
        · split
          · exact Or.inr ⟨_, _, hstrip⟩
          · exact Or.inl rfl
        · exact Or.inl rfl
      · exact Or.inl rfl

theorem parseCommand_words_sublist (build : Build) (tokens : List (List UInt8)) :
    (parseCommand build tokens).words.Sublist tokens := by
  rcases parseCommand_words build tokens with h | ⟨first, second, h⟩
  · rw [h]
    exact List.nil_sublist _
  · exact (List.sublist_cons_of_sublist first (List.sublist_cons_self second _)).trans h

/-! ## Command strings -/

/-- All that the commands of a string put together lies in the scratch buffer exactly if
each command that is run has at most 255 bytes of words to put together, with a blank
behind each. -/
theorem commandStores_inScratch_iff (build : Build) (mem : Nat → ByteMemory) (scratch : Nat)
    (returns : Nat → Bool) (i : Nat) {commands : List (List UInt8)}
    (hnul : ∀ command ∈ commands, 0 ∉ command)
    (hfits : ∀ command ∈ commands, command.length + 1 < 2 ^ 64) :
    InScratch scratch (commandStores build mem scratch returns i commands) ↔
      ∀ k command, commands[k]? = some command → (∀ j < k, returns (i + j) = true) →
        blankedLength (parseCommand build (words command)).words < scratchSize := by
  induction commands generalizing i with
  | nil => simp [commandStores, InScratch]
  | cons command rest ih =>
      have hfirst := @scratchStores_inScratch_iff (mem i) scratch
        (parseCommand build (words command))
        (fun word hword hzero => hnul command List.mem_cons_self
          (words_subset ((parseCommand_words_sublist build _).subset hword) hzero))
        (Nat.lt_of_le_of_lt (Nat.le_trans (blankedLength_sublist (parseCommand_words_sublist build _))
          (words_total_le command)) (hfits command List.mem_cons_self))
      have hrest := ih (i + 1) (fun c hc => hnul c (List.mem_cons_of_mem command hc))
        fun c hc => hfits c (List.mem_cons_of_mem command hc)
      rw [commandStores, inScratch_append, hfirst]
      constructor
      · rintro ⟨hcommand, hmore⟩ k c hk hreturns
        cases k with
        | zero =>
            cases hk
            exact hcommand
        | succ k =>
            have hthis := hreturns 0 (Nat.succ_pos k)
            rw [Nat.add_zero] at hthis
            rw [if_pos hthis] at hmore
            refine hrest.mp hmore k c hk fun j hj => ?_
            rw [Nat.add_assoc, Nat.add_comm 1 j]
            exact hreturns (j + 1) (Nat.succ_lt_succ hj)
      · intro hall
        refine ⟨hall 0 command rfl fun j hj => absurd hj (Nat.not_lt_zero j), ?_⟩
        split
        · rename_i hthis
          refine hrest.mpr fun k c hk hreturns => hall (k + 1) c hk fun j hj => ?_
          cases j with
          | zero => exact hthis
          | succ j =>
              have hlater := hreturns j (Nat.lt_of_succ_lt_succ hj)
              rwa [Nat.add_assoc, Nat.add_comm 1 j] at hlater
        · exact fun s hs => absurd hs List.not_mem_nil

theorem splitOn_command {string command : List UInt8} (h : command ∈ string.splitOn semicolon) :
    command ⊆ string ∧ command.length ≤ string.length := by
  rw [List.splitOn_eq_splitOnP] at h
  refine ⟨splitOnP_subset _ h, ?_⟩
  have htotal := blankedLength_sublist (List.singleton_sublist.mpr h)
  rw [splitOnP_total, blankedLength_cons] at htotal
  omega

/-- For every command string, whichever of its commands return. -/
theorem commandString_inScratch_iff (build : Build) (mem : Nat → ByteMemory) (scratch : Nat)
    (returns : Nat → Bool) (string : CString) :
    InScratch scratch
        (commandStores build mem scratch returns 0 (string.chars.splitOn semicolon)) ↔
      ∀ k command, (string.chars.splitOn semicolon)[k]? = some command →
        (∀ j < k, returns j = true) →
          blankedLength (parseCommand build (words command)).words < scratchSize := by
  have hlength := string.fits
  have hall := commandStores_inScratch_iff build mem scratch returns 0
    (fun command hcommand hzero => string.noNul ((splitOn_command hcommand).1 hzero))
    (fun command hcommand => by
      have hle := (splitOn_command hcommand).2
      omega)
  simpa only [Nat.zero_add] using hall

/-- A line that is typed, of at most 255 characters, always fits. -/
theorem typed_inScratch (build : Build) (mem : Nat → ByteMemory) (scratch : Nat)
    (returns : Nat → Bool) {string : CString} (htyped : string.chars.length < scratchSize) :
    InScratch scratch
      (commandStores build mem scratch returns 0 (string.chars.splitOn semicolon)) := by
  have hlength := string.fits
  refine (commandStores_inScratch_iff build mem scratch returns 0
    (fun command hcommand hzero => string.noNul ((splitOn_command hcommand).1 hzero))
    (fun command hcommand => by
      have hle := (splitOn_command hcommand).2
      omega)).mpr fun k command hk _ => ?_
  have hle := (splitOn_command (List.mem_of_getElem? hk)).2
  have htotal := words_total_le command
  rcases parseCommand_words build (words command) with hnone | ⟨first, second, hsub⟩
  · rw [hnone]
    exact (by decide : blankedLength [] < scratchSize)
  · have hbehind := blankedLength_sublist hsub
    rw [blankedLength_cons, blankedLength_cons] at hbehind
    omega

/-- `boot a` and 256 characters -/
def longBootLine : List UInt8 :=
  [0x62, 0x6f, 0x6f, 0x74, 0x20, 0x61, 0x20] ++ List.replicate 256 0x78

/-- `setenv BOOT_STRING` and 256 characters -/
def longSetenvLine : List UInt8 :=
  [0x73, 0x65, 0x74, 0x65, 0x6e, 0x76, 0x20] ++ bootStringName ++ [0x20] ++ List.replicate 256 0x78

/-- The only command of a line, with too many characters to put together. -/
theorem overruns_of_long {build : Build} {mem : Nat → ByteMemory} {scratch : Nat}
    {returns : Nat → Bool} {line : List UInt8} (hsplit : line.splitOn semicolon = [line])
    (hnul : 0 ∉ line) (hfits : line.length + 1 < 2 ^ 64)
    (hlong : scratchSize ≤ blankedLength (parseCommand build (words line)).words) :
    ¬ InScratch scratch (commandStores build mem scratch returns 0 (line.splitOn semicolon)) := by
  rw [hsplit, commandStores_inScratch_iff _ _ _ _ _ (List.forall_mem_singleton.mpr hnul)
    (List.forall_mem_singleton.mpr hfits)]
  intro hall
  have hshort := hall 0 line rfl fun j hj => absurd hj (Nat.not_lt_zero j)
  exact absurd hlong (Nat.not_le.mpr hshort)

/-- The blank or the NUL behind the characters is stored behind the buffer, though there
are only a few words. -/
theorem long_words_overrun :
    ((words longBootLine).length ≤ maxTokens ∧
        ¬ InScratch 0x1100 (commandStores ⟨true, false, false⟩ (fun _ _ => 0) 0x1100 (fun _ => true) 0
          (longBootLine.splitOn semicolon))) ∧
      (words longSetenvLine).length ≤ maxTokens ∧
        ¬ InScratch 0x1100 (commandStores ⟨true, false, false⟩ (fun _ _ => 0) 0x1100 (fun _ => true) 0
          (longSetenvLine.splitOn semicolon)) := by
  refine ⟨⟨by decide +kernel, overruns_of_long ?_ ?_ ?_ ?_⟩, by decide +kernel,
    overruns_of_long ?_ ?_ ?_ ?_⟩
  all_goals decide +kernel

end Milo.Shell
