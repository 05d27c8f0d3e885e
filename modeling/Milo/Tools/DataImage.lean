import Milo.Foundation.CInt
import Milo.Foundation.QuadText

/-! # A binary file as assembler data

`data` writes a file as `.quad` directives of four words. The length of the
file goes through an `int`.
-/

namespace Milo.Tools

open Foundation QuadText

/-- `getc`, as an `unsigned char` keeps it: 0xff behind the end of the file. -/
def getc : List UInt8 → UInt8 × List UInt8
  | [] => (0xff, [])
  | ch :: rest => (ch, rest)

/-- The `fprintf` for a word, by the number of its last byte. -/
def printWord (n q : Nat) : List Char :=
  if n % 32 = 7 then "\n\t.quad ".toList ++ hexWord q else ',' :: hexWord q

/-- The rest of `output_image` with `size` bytes to go, the last partial word
included. -/
def outputBytes (ifile : List UInt8) (n q : Nat) (ofile : List Char) : Nat → List Char
  | 0 => if n % 8 ≠ 0 then ofile ++ printWord n q else ofile
  | size + 1 =>
      let byte := n % 8
      let (ch, ifile) := getc ifile
      let q := q ||| ch.toNat <<< (8 * byte)
      if byte = 7 then outputBytes ifile (n + 1) 0 (ofile ++ printWord n q) size
      else outputBytes ifile (n + 1) q ofile size

/-- `output_image`. A negative `size` is counted down past the least `int`. -/
def outputImage (ifile : List UInt8) : Int → Option (List Char)
  | .ofNat size => some (outputBytes ifile 0 0 [] size)
  | .negSucc _ => none

/-- What `main` has `output_image` write: the `unsigned long` of `fsize` is
passed on as an `int`. -/
def dataText (ifile : List UInt8) : Option (List Char) :=
  outputImage ifile (toInt ifile.length)

/-- The file with zero bytes up to the next multiple of 8. -/
def padded (bytes : List UInt8) : List UInt8 :=
  bytes ++ List.replicate ((8 - bytes.length % 8) % 8) 0

/-- The text assembles to the padded file. -/
def DataRoundTrips (ifile : List UInt8) : Prop :=
  (dataText ifile).bind assemble = some (padded ifile)

instance (ifile : List UInt8) : Decidable (DataRoundTrips ifile) :=
  inferInstanceAs (Decidable (_ = _))

/-! ## The loop -/

/-- The bytes that `getc` gives. -/
def bytesRead (ifile : List UInt8) : Nat → List UInt8
  | 0 => []
  | size + 1 => (getc ifile).1 :: bytesRead (getc ifile).2 size

theorem bytesRead_length (ifile : List UInt8) (size : Nat) :
    (bytesRead ifile size).length = size := by
  induction size generalizing ifile with
  | zero => rfl
  | succ size ih => simp [bytesRead, ih]

theorem bytesRead_all (ifile : List UInt8) : bytesRead ifile ifile.length = ifile := by
  induction ifile with
  | nil => rfl
  | cons ch rest ih => simp [bytesRead, getc, ih]

/-- The state between two bytes: the words that are complete are listed, and
`part` is what has been read of the next one. -/
structure Emitted (n q : Nat) (ofile : List Char) (words : List Nat) (part : List UInt8) :
    Prop where
  listed : Lists ofile words
  count : n = 8 * words.length + part.length
  partial_lt : part.length < 8
  value : q = leValue part

theorem Emitted.or_byte {n q : Nat} {ofile : List Char} {words : List Nat} {part : List UInt8}
    (h : Emitted n q ofile words part) (ch : UInt8) :
    q ||| ch.toNat <<< (8 * (n % 8)) = leValue (part ++ [ch]) := by
  have hbyte : n % 8 = part.length := by
    have := h.count
    have := h.partial_lt
    omega
  have hpow : 2 ^ (8 * part.length) = 256 ^ part.length := by rw [Nat.pow_mul]
  have hlt : leValue part < 2 ^ (8 * part.length) := by
    rw [hpow]
    exact leValue_lt part
  rw [hbyte, h.value, Nat.or_comm, ← Nat.shiftLeft_add_eq_or_of_lt hlt, Nat.shiftLeft_eq, hpow,
    leValue_concat, Nat.mul_comm, Nat.add_comm]

/-- A word is printed on a new line or behind the words before it. -/
theorem Emitted.printWord {n q : Nat} {ofile : List Char} {words : List Nat} {part : List UInt8}
    (h : Emitted n q ofile words part) {last w : Nat} (hw : w < 2 ^ 64)
    (hstart : words = [] → last % 32 = 7) :
    Lists (ofile ++ printWord last w) (words ++ [w]) := by
  unfold Tools.printWord
  split
  · rw [← List.append_assoc]
    exact h.listed.newLine hw
  · rename_i hline
    exact h.listed.nextWord (fun hnil => hline (hstart hnil)) hw

theorem leValue_lt_word {bytes : List UInt8} (h : bytes.length ≤ 8) : leValue bytes < 2 ^ 64 :=
  Nat.lt_of_lt_of_le (leValue_lt bytes) (Nat.pow_le_pow_right (by decide) h)

/-- The text between two bytes, with what is missing of the last word. -/
theorem Emitted.finish {n q : Nat} {ofile : List Char} {words : List Nat} {part : List UInt8}
    (ifile : List UInt8) (h : Emitted n q ofile words part) (hn : n = 0 ∨ 7 ≤ n) :
    assemble (outputBytes ifile n q ofile 0) =
      some (padded (words.flatMap (leBytes 8) ++ part)) := by
  have hcount := h.count
  have hpart := h.partial_lt
  have hlen : (words.flatMap (leBytes 8) ++ part).length % 8 = part.length := by
    rw [List.length_append, flatMap_leBytes_length]
    omega
  rw [outputBytes, padded, hlen]
  by_cases hempty : n % 8 = 0
  · have hnil : part = [] := List.eq_nil_of_length_eq_zero (by omega)
    rw [if_neg (by omega), h.listed.assemble]
    simp [hnil]
  · have hstart : words = [] → n % 32 = 7 := by
      rintro rfl
      rw [List.length_nil] at hcount
      omega
    have hw : q < 2 ^ 64 := by
      rw [h.value]
      exact leValue_lt_word (by omega)
    have hpad : (8 - part.length) % 8 = 8 - part.length := by omega
    rw [if_pos hempty, (h.printWord hw hstart).assemble, hpad, List.flatMap_append,
      List.flatMap_singleton, h.value, leBytes_leValue (by omega), List.append_assoc]

theorem Emitted.step {n q : Nat} {ofile : List Char} {words : List Nat} {part : List UInt8}
    (h : Emitted n q ofile words part) (ch : UInt8) :
    let q := q ||| ch.toNat <<< (8 * (n % 8))
    if n % 8 = 7 then
      Emitted (n + 1) 0 (ofile ++ Tools.printWord n q) (words ++ [leValue (part ++ [ch])]) []
    else Emitted (n + 1) q ofile words (part ++ [ch]) := by
  have hcount := h.count
  have hpart := h.partial_lt
  simp only [h.or_byte ch]
  split
  · rename_i hlast
    have hstart : words = [] → n % 32 = 7 := by
      rintro rfl
      rw [List.length_nil] at hcount
      omega
    have hw : leValue (part ++ [ch]) < 2 ^ 64 := by
      apply leValue_lt_word
      rw [List.length_append, List.length_singleton]
      omega
    exact {
      listed := h.printWord hw hstart
      count := by
        rw [List.length_append, List.length_singleton, List.length_nil]
        omega
      partial_lt := by decide
      value := rfl }
  · exact {
      listed := h.listed
      count := by
        rw [List.length_append, List.length_singleton]
        omega
      partial_lt := by
        rw [List.length_append, List.length_singleton]
        omega
      value := rfl }

/-- The words of the text are the bytes read, unless there are too few for a
first word and not one less than that. -/
theorem Emitted.run {n q : Nat} {ofile : List Char} {words : List Nat} {part : List UInt8}
    (ifile : List UInt8) (size : Nat) (h : Emitted n q ofile words part)
    (hsize : n + size = 0 ∨ 7 ≤ n + size) :
    assemble (outputBytes ifile n q ofile size) =
      some (padded (words.flatMap (leBytes 8) ++ part ++ bytesRead ifile size)) := by
  induction size generalizing n q ofile words part ifile with
  | zero =>
      rw [bytesRead, List.append_nil]
      exact h.finish ifile hsize
  | succ size ih =>
      have hstep := h.step (getc ifile).1
      have hcount := h.count
      have hpart := h.partial_lt
      simp only [outputBytes, bytesRead]
      split at hstep
      · rename_i hlast
        have hword : leBytes 8 (leValue (part ++ [(getc ifile).1])) =
            part ++ [(getc ifile).1] := by
          have hfull : (part ++ [(getc ifile).1]).length = 8 := by
            rw [List.length_append, List.length_singleton]
            omega
          rw [leBytes_leValue (by omega), hfull]
          simp
        rw [if_pos hlast, ih (getc ifile).2 hstep (by omega), List.flatMap_append,
          List.flatMap_singleton, hword]
        simp
      · rename_i hlast
        rw [if_neg hlast, ih (getc ifile).2 hstep (by omega)]
        simp

/-- One to six bytes give a word without a directive. -/
theorem outputBytes_short (ifile : List UInt8) {n size : Nat} (q : Nat) (hpos : 0 < n + size)
    (hsmall : n + size < 7) :
    ∃ w, outputBytes ifile n q [] size = ',' :: hexWord w := by
  induction size generalizing n q ifile with
  | zero =>
      have hpartial : n % 8 ≠ 0 := by omega
      have hline : ¬ n % 32 = 7 := by omega
      exact ⟨q, by simp [outputBytes, hpartial, Tools.printWord, hline]⟩
  | succ size ih =>
      have hlast : ¬ n % 8 = 7 := by omega
      simp only [outputBytes, if_neg hlast]
      exact ih (getc ifile).2 _ (by omega) (by omega)

theorem assemble_comma (text : List Char) : assemble (',' :: text) = none := by
  have hne : ¬ (',' == '\n') = true := by decide
  rw [assemble, assembleWords, List.splitOn_cons_eq_if_modifyHead, if_neg hne]
  cases hsplit : text.splitOn '\n' with
  | nil => rfl
  | cons l lines => rfl

theorem assemble_outputBytes (ifile : List UInt8) (size : Nat) :
    assemble (outputBytes ifile 0 0 [] size) =
      if 1 ≤ size ∧ size ≤ 6 then none else some (padded (bytesRead ifile size)) := by
  split
  · have hshort : ∃ w, outputBytes ifile 0 0 [] size = ',' :: hexWord w :=
      outputBytes_short ifile 0 (by omega) (by omega)
    obtain ⟨w, hw⟩ := hshort
    rw [hw, assemble_comma]
  · have hinit : Emitted 0 0 [] [] [] := ⟨lists_nil, rfl, by decide, rfl⟩
    simpa using hinit.run ifile size (by omega)

theorem padded_length (bytes : List UInt8) :
    (padded bytes).length = (bytes.length + 7) / 8 * 8 := by
  rw [padded, List.length_append, List.length_replicate]
  omega

/-- The text assembles to the padded file exactly if the file has no bytes or at
least seven, and its length fits into an `int`. -/
theorem dataRoundTrips_iff (ifile : List UInt8) :
    DataRoundTrips ifile ↔ ifile.length < 2 ^ 31 ∧ ¬ (1 ≤ ifile.length ∧ ifile.length ≤ 6) := by
  unfold DataRoundTrips dataText
  by_cases hint : ifile.length < 2 ^ 31
  · have hsize : toInt ifile.length = .ofNat ifile.length :=
      toInt_of_inInt (inInt_iff.mpr (by omega))
    rw [hsize, outputImage, Option.bind_some, assemble_outputBytes, bytesRead_all]
    by_cases hshort : 1 ≤ ifile.length ∧ ifile.length ≤ 6
    · rw [if_pos hshort]
      exact iff_of_false (by simp) fun h => h.2 hshort
    · rw [if_neg hshort]
      exact iff_of_true rfl ⟨hint, hshort⟩
  · have hrange : -2 ^ 31 ≤ toInt ifile.length ∧ toInt ifile.length < 2 ^ 31 := by
      unfold toInt
      rw [Int.bmod_def]
      omega
    simp only [hint, false_and, iff_false]
    cases hsize : toInt ifile.length with
    | negSucc k => simp [outputImage]
    | ofNat size =>
        -- only `size` bytes are read, fewer than the file has
        rw [outputImage, Option.bind_some, assemble_outputBytes]
        split
        · simp
        · intro heq
          have hlen := congrArg List.length (Option.some.inj heq)
          rw [padded_length, padded_length, bytesRead_length] at hlen
          rw [hsize] at hrange
          unfold toInt at hsize
          rw [Int.bmod_def] at hsize
          simp only [Int.ofNat_eq_natCast] at hsize hrange
          omega

/-- The only directive has no `.quad` in front of its word. -/
theorem one_byte_without_directive : ¬ DataRoundTrips [65] := by
  decide

end Milo.Tools
