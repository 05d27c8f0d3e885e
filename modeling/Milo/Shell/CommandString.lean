import Mathlib.Data.List.Basic
import Mathlib.Logic.Function.Basic

/-! # Splitting command strings

`parse_command_string` puts the words of each command into the array `tokens` and
runs the command; the flash utility has its own copy. Neither looks at the size
of the array, so every index at which a pointer is stored is recorded.
-/

namespace Milo.Shell

/-- `MAX_TOKENS` -/
def maxTokens : Nat := 10

def semicolon : UInt8 := 0x3b

/-- The delimiters of `strtok(string, " \t")`. -/
def isBlank (c : UInt8) : Bool := c == 0x20 || c == 0x09

/-- The words that `strtok` hands out. -/
def words (string : List UInt8) : List (List UInt8) :=
  (string.splitOnP isBlank).filter fun word => !word.isEmpty

/-- The variables `tokens` and `ntokens`. -/
structure Tokens where
  tokens : Nat → List UInt8
  ntokens : Nat

/-- `__ADD` -/
def add (t : Tokens) (value : List UInt8) : Tokens :=
  ⟨Function.update t.tokens t.ntokens value, t.ntokens + 1⟩

/-- The words of a command one after the other, with the indices of the stores. -/
def addAll (t : Tokens) : List (List UInt8) → Tokens × List Nat
  | [] => (t, [])
  | word :: rest =>
      let (t', stores) := addAll (add t word) rest
      (t', t.ntokens :: stores)

/-- The loop of `parse_command_string`; `command` is `parse_command`. -/
def parseCommands (command : Tokens → Tokens) (t : Tokens) :
    List (List UInt8) → Tokens × List Nat
  | [] => (t, [])
  | string :: rest =>
      let (t, stores) := addAll { t with ntokens := 0 } (words string)
      let (t, more) := parseCommands command (command t) rest
      (t, stores ++ more)

/-- `parse_command_string` -/
def parseCommandString (command : Tokens → Tokens) (t : Tokens) (string : List UInt8) :
    Tokens × List Nat :=
  parseCommands command t (string.splitOn semicolon)

/-- The loop of the flash utility, in which a token `;` ends a command. -/
def parseFlashTokens (command : Tokens → Tokens) (t : Tokens) :
    List (List UInt8) → Tokens × List Nat
  | [] => (command t, [])
  | token :: rest =>
      if token == [semicolon] then parseFlashTokens command { command t with ntokens := 0 } rest
      else
        let (t', stores) := parseFlashTokens command (add t token) rest
        (t', t.ntokens :: stores)

/-- `parse_command_string` of the flash utility -/
def parseFlashString (command : Tokens → Tokens) (t : Tokens) (string : List UInt8) :
    Tokens × List Nat :=
  parseFlashTokens command { t with ntokens := 0 } (words string)

/-! ## Stores -/

/-- All stores are in the array. A store at index `i` makes `i + 1` tokens. -/
def Within (stores : List Nat) : Prop := ∀ i ∈ stores, i < maxTokens

theorem within_nil : Within [] := fun _ hi => nomatch hi

theorem within_cons {i : Nat} {stores : List Nat} :
    Within (i :: stores) ↔ i < maxTokens ∧ Within stores := by
  unfold Within
  simp

theorem within_append {stores more : List Nat} :
    Within (stores ++ more) ↔ Within stores ∧ Within more := by
  unfold Within
  simp [or_imp, forall_and]

/-- The words fit behind those that are there already. -/
theorem addAll_within_iff (t : Tokens) (h : t.ntokens ≤ maxTokens) (words : List (List UInt8)) :
    Within (addAll t words).2 ↔ t.ntokens + words.length ≤ maxTokens := by
  induction words generalizing t with
  | nil => exact ⟨fun _ => h, fun _ => within_nil⟩
  | cons word rest ih =>
      rw [addAll, within_cons, List.length_cons]
      by_cases hfull : t.ntokens < maxTokens
      · have hrest := ih (add t word) hfull
        rw [hrest]
        unfold add
        simp only
        omega
      · omega

/-- Each command starts with an empty array, whatever the one before it has done. -/
theorem parseCommands_within_iff (command : Tokens → Tokens) (t : Tokens)
    (strings : List (List UInt8)) :
    Within (parseCommands command t strings).2 ↔
      ∀ string ∈ strings, (words string).length ≤ maxTokens := by
  induction strings generalizing t with
  | nil => simp [parseCommands, within_nil]
  | cons string rest ih =>
      have hfirst := addAll_within_iff { t with ntokens := 0 } (Nat.zero_le _) (words string)
      rw [Nat.zero_add] at hfirst
      rw [parseCommands, within_append, hfirst, ih]
      simp

/-- So does each group of tokens of the flash utility; `seen` are those of the
group so far. -/
theorem parseFlashTokens_within_iff (command : Tokens → Tokens) (t : Tokens)
    (tokens seen : List (List UInt8)) (hseen : seen.length = t.ntokens) :
    seen.length ≤ maxTokens ∧ Within (parseFlashTokens command t tokens).2 ↔
      ∀ group ∈ tokens.splitOnPPrepend (· == [semicolon]) seen, group.length ≤ maxTokens := by
  induction tokens generalizing t seen with
  | nil => simp [parseFlashTokens, within_nil]
  | cons token rest ih =>
      rw [List.splitOnPPrepend_cons_eq_if, parseFlashTokens]
      split
      · have hrest := ih { command t with ntokens := 0 } [] rfl
        rw [List.splitOnPPrepend_nil_right] at hrest
        rw [List.forall_mem_cons, ← hrest, List.length_reverse]
        simp
      · have hrest := ih (add t token) (token :: seen) (by rw [List.length_cons, hseen]; rfl)
        rw [← hrest, within_cons, List.length_cons, ← hseen]
        constructor
        · intro ⟨_, hi, hmore⟩
          exact ⟨hi, hmore⟩
        · intro ⟨hi, hmore⟩
          exact ⟨Nat.le_of_lt hi, hi, hmore⟩

/-- No pointer is stored outside of the array exactly where each command has at
most ten words. -/
theorem parseCommandString_within_iff (command flashCommand : Tokens → Tokens) (t : Tokens)
    (string : List UInt8) :
    (Within (parseCommandString command t string).2 ↔
        ∀ s ∈ string.splitOn semicolon, (words s).length ≤ maxTokens) ∧
      (Within (parseFlashString flashCommand t string).2 ↔
        ∀ group ∈ (words string).splitOn [semicolon], group.length ≤ maxTokens) := by
  refine ⟨parseCommands_within_iff command t _, ?_⟩
  have hflash := parseFlashTokens_within_iff flashCommand { t with ntokens := 0 } (words string) [] rfl
  rw [List.splitOnPPrepend_nil_right, ← List.splitOn_eq_splitOnP] at hflash
  rw [← hflash]
  exact ⟨fun h => ⟨Nat.zero_le _, h⟩, fun h => h.2⟩

/-- Eleven words are stored, the last of them behind the array. -/
theorem eleven_words_overrun :
    (parseCommandString id ⟨fun _ => [], 0⟩
        ((List.replicate 11 ([0x61, 0x20] : List UInt8)).flatten)).2 = List.range 11 ∧
      ¬ Within (parseCommandString id ⟨fun _ => [], 0⟩
        ((List.replicate 11 ([0x61, 0x20] : List UInt8)).flatten)).2 ∧
      ¬ Within (parseFlashString id ⟨fun _ => [], 0⟩
        ((List.replicate 11 ([0x61, 0x20] : List UInt8)).flatten)).2 := by
  have hstores : (parseCommandString id ⟨fun _ => [], 0⟩
      ((List.replicate 11 ([0x61, 0x20] : List UInt8)).flatten)).2 = List.range 11 := by
    decide +kernel
  have hflash : (parseFlashString id ⟨fun _ => [], 0⟩
      ((List.replicate 11 ([0x61, 0x20] : List UInt8)).flatten)).2 = List.range 11 := by
    decide +kernel
  rw [hstores, hflash]
  exact ⟨rfl, fun h => absurd (h 10 (by decide)) (by decide),
    fun h => absurd (h 10 (by decide)) (by decide)⟩

end Milo.Shell
