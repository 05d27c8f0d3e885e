import Milo.Foundation.CString

/-! # The environment area

Variables are kept as `name=value` strings in chunks of fixed size. Chunk 0
holds the identification, and a chunk whose first byte is NUL is free. The area
is a byte memory that starts at address 0; what lies behind its `nvars` chunks
is whatever follows the array. The area is taken to be initialized, and what
`nvram_copyin` reads back is a parameter.
-/

namespace Milo.Env

open Foundation

/-- `ENVIRON_CHUNK_SIZE` -/
def chunkSize : Nat := 128

def chunkAt (i : Nat) : Nat := i * chunkSize

/-- The character `=`. -/
def equalSign : UInt8 := 0x3d

/-- The string `"="`. -/
def equalString : CString := ⟨[equalSign], by decide, by decide⟩

/-- The test for the chunk of a variable. -/
def holdsVar (environ : ByteMemory) (i : Nat) (var : CString) : Bool :=
  strncmp environ (chunkAt i) var.chars var.chars.length == 0 &&
    environ (chunkAt i + var.chars.length) == equalSign

/-- The search of `getenv` and `unsetenv`, over `n` chunks from chunk `i` on. -/
def findVar (environ : ByteMemory) (var : CString) (i : Nat) : Nat → Option Nat
  | 0 => none
  | n + 1 => if holdsVar environ i var then some i else findVar environ var (i + 1) n

/-- The search of `setenv`: the chunk of the variable, or else `firstfree`. -/
def chooseChunk (environ : ByteMemory) (var : CString) (i : Nat) (firstfree : Option Nat) :
    Nat → Option Nat
  | 0 => firstfree
  | n + 1 =>
      let firstfree :=
        if firstfree.isNone && environ (chunkAt i) == 0 then some i else firstfree
      if holdsVar environ i var then some i
      else chooseChunk environ var (i + 1) firstfree n

/-- The three copies that put a variable into a chunk. -/
def copyVar (environ : ByteMemory) (cp : Nat) (var value : CString) : List ByteStore :=
  let copied := strcpy cp var
  let joined := copied ++ strcat (store environ copied) cp equalString
  joined ++ strcat (store environ joined) cp value

section
variable (nvars : Nat)

/-- The chunk that `setenv` writes to. -/
def setenvChunk (environ : ByteMemory) (var : CString) : Option Nat :=
  chooseChunk environ var 1 none (nvars - 1)

/-- The bytes that `setenv` stores, in their order. -/
def setenvStores (environ : ByteMemory) (var value : CString) : List ByteStore :=
  match setenvChunk nvars environ var with
  | some i => copyVar environ (chunkAt i) var value
  | none => []

/-- `setenv` -/
def setenv (environ : ByteMemory) (var value : CString) : ByteMemory :=
  store environ (setenvStores nvars environ var value)

/-- `unsetenv` -/
def unsetenv (environ : ByteMemory) (var : CString) : ByteMemory :=
  match findVar environ var 1 (nvars - 1) with
  | some i => Function.update environ (chunkAt i) 0
  | none => environ

/-- `getenv`, with NULL as `none`. -/
def getenv (environ : ByteMemory) (var : CString) : Option Nat :=
  (findVar environ var 1 (nvars - 1)).map fun i => chunkAt i + var.chars.length + 1

/-- `test_nvram`: the area is overwritten with a pattern, saved and read back. -/
def testNvram (nvram : ByteMemory → ByteMemory) (environ : ByteMemory) : ByteMemory :=
  let inArea i := decide (i < nvars * chunkSize)
  let pattern := fun i => if inArea i then UInt8.ofNat (i >>> 8 ^^^ i) else environ i
  fun i => if inArea i then nvram pattern i else environ i

/-- `ENVIRON_ID`, the string `"MILO Environment"`. -/
def environId : CString where
  chars := [0x4d, 0x49, 0x4c, 0x4f, 0x20, 0x45, 0x6e, 0x76, 0x69, 0x72, 0x6f, 0x6e, 0x6d, 0x65,
    0x6e, 0x74]
  noNul := by decide
  fits := by decide

/-- The loop that marks chunks free. -/
def freeChunks (environ : ByteMemory) (i : Nat) : Nat → ByteMemory
  | 0 => environ
  | n + 1 => freeChunks (Function.update environ (chunkAt i) 0) (i + 1) n

/-- `resetenv` -/
def resetenv (nvram : ByteMemory → ByteMemory) (environ : ByteMemory) : ByteMemory :=
  freeChunks (store (testNvram nvars nvram environ) (strcpy 0 environId)) 1 (nvars - 1)

end

/-! ## The searches -/

theorem holdsVar_iff {environ : ByteMemory} {i : Nat} {var : CString} :
    holdsVar environ i var = true ↔
      HoldsBytes environ (chunkAt i) (var.chars ++ [equalSign]) := by
  rw [holdsVar, Bool.and_eq_true, beq_iff_eq, beq_iff_eq, strncmp_eq_zero_iff var.noNul,
    HoldsBytes.append]
  simp [HoldsBytes, List.getElem?_singleton]

theorem findVar_eq_some {environ : ByteMemory} {var : CString} {i n k : Nat}
    (h : findVar environ var i n = some k) :
    i ≤ k ∧ k < i + n ∧ holdsVar environ k var = true := by
  induction n generalizing i with
  | zero => cases h
  | succ n ih =>
      rw [findVar] at h
      split at h
      · cases h
        exact ⟨Nat.le_refl _, by omega, by assumption⟩
      · obtain ⟨hlo, hhi, hholds⟩ := ih h
        exact ⟨by omega, by omega, hholds⟩

theorem findVar_eq_none {environ : ByteMemory} {var : CString} {i n : Nat} :
    findVar environ var i n = none ↔
      ∀ k, i ≤ k → k < i + n → holdsVar environ k var = false := by
  induction n generalizing i with
  | zero => simp [findVar]; omega
  | succ n ih =>
      rw [findVar]
      split
      · rename_i hholds
        simp only [reduceCtorEq, false_iff, not_forall]
        exact ⟨i, Nat.le_refl _, by omega, by simp [hholds]⟩
      · rename_i hother
        rw [ih]
        constructor
        · intro h k hlo hhi
          by_cases hk : k = i
          · rw [hk]
            simpa using hother
          · exact h k (by omega) (by omega)
        · exact fun h k hlo hhi => h k (by omega) (by omega)

/-- The chunk chosen is the variable's own, or a free one if it has none. -/
theorem chooseChunk_eq_some {environ : ByteMemory} {var : CString} {i n k : Nat}
    {firstfree : Option Nat} (h : chooseChunk environ var i firstfree n = some k) :
    (i ≤ k ∧ k < i + n ∧ holdsVar environ k var = true) ∨
      (findVar environ var i n = none ∧
        (firstfree = some k ∨ (i ≤ k ∧ k < i + n ∧ environ (chunkAt k) = 0))) := by
  induction n generalizing i firstfree with
  | zero => exact Or.inr ⟨rfl, Or.inl h⟩
  | succ n ih =>
      rw [chooseChunk] at h
      split at h
      · cases h
        exact Or.inl ⟨Nat.le_refl _, by omega, by assumption⟩
      · rename_i hother
        rw [findVar, if_neg hother]
        rcases ih h with ⟨hlo, hhi, hholds⟩ | ⟨hnone, hfree⟩
        · exact Or.inl ⟨by omega, by omega, hholds⟩
        · refine Or.inr ⟨hnone, ?_⟩
          rcases hfree with hfirst | ⟨hlo, hhi, hzero⟩
          · split at hfirst
            · rename_i hnew
              obtain rfl := Option.some.inj hfirst
              simp only [Bool.and_eq_true, beq_iff_eq] at hnew
              exact Or.inr ⟨Nat.le_refl _, by omega, hnew.2⟩
            · exact Or.inl hfirst
          · exact Or.inr ⟨by omega, by omega, hzero⟩

theorem chooseChunk_eq_none {environ : ByteMemory} {var : CString} {i n : Nat}
    {firstfree : Option Nat} :
    chooseChunk environ var i firstfree n = none ↔
      firstfree = none ∧ findVar environ var i n = none ∧
        ∀ k, i ≤ k → k < i + n → environ (chunkAt k) ≠ 0 := by
  induction n generalizing i firstfree with
  | zero =>
      simp only [chooseChunk, findVar, true_and]
      constructor
      · exact fun h => ⟨h, fun k hlo hhi => by omega⟩
      · exact fun h => h.1
  | succ n ih =>
      rw [chooseChunk, findVar]
      by_cases hholds : holdsVar environ i var = true
      · simp [hholds]
      · rw [if_neg hholds, if_neg hholds, ih]
        constructor
        · rintro ⟨hfirst, hnone, hused⟩
          have hi : firstfree = none ∧ environ (chunkAt i) ≠ 0 := by
            cases firstfree with
            | none => simpa using hfirst
            | some f => simp at hfirst
          refine ⟨hi.1, hnone, fun k hlo hhi => ?_⟩
          by_cases hk : k = i
          · rw [hk]
            exact hi.2
          · exact hused k (by omega) (by omega)
        · rintro ⟨rfl, hnone, hused⟩
          have hi := hused i (Nat.le_refl _) (by omega)
          exact ⟨by simp [hi], hnone, fun k hlo hhi => hused k (by omega) (by omega)⟩

/-! ## The copies -/

/-- What a chunk holds for a variable. -/
def entryBytes (var value : CString) : List UInt8 := var.chars ++ [equalSign] ++ value.bytes

theorem entryBytes_length (var value : CString) :
    (entryBytes var value).length = var.chars.length + value.chars.length + 2 := by
  simp [entryBytes, CString.bytes]
  omega

theorem copyVar_eq (environ : ByteMemory) (cp : Nat) (var value : CString) :
    copyVar environ cp var value =
        storesAt cp var.bytes ++ storesAt (cp + var.chars.length) equalString.bytes ++
          storesAt (cp + (var.chars.length + 1)) value.bytes ∧
      HoldsBytes (store environ (copyVar environ cp var value)) cp (entryBytes var value) := by
  have hfits := var.fits
  have hcopied : HoldsBytes (store environ (strcpy cp var)) cp (var.chars ++ [0]) :=
    store_holds _ _ _
  have hjoin := strcat_eq equalString var.noNul (by omega) hcopied
  have hjoined := strcat_holds equalString var.noNul (by omega) hcopied
  rw [← store_append, show equalString.bytes = [equalSign] ++ [0] from rfl,
    ← List.append_assoc] at hjoined
  have hnul : 0 ∉ var.chars ++ [equalSign] := by
    rw [List.mem_append, not_or]
    exact ⟨var.noNul, by decide⟩
  have hlen : (var.chars ++ [equalSign]).length < 2 ^ 64 := by
    rw [List.length_append, List.length_singleton]
    omega
  have hlast := strcat_eq value hnul hlen hjoined
  have hdone := strcat_holds value hnul hlen hjoined
  rw [← store_append] at hdone
  rw [List.length_append, List.length_singleton] at hlast
  exact ⟨by rw [copyVar, hlast, hjoin]; rfl, hdone⟩

/-- The copies write the entry with its NUL, whatever the chunk held. -/
theorem mem_copyVar (environ : ByteMemory) (cp : Nat) (var value : CString) {x : Nat} :
    (∃ b, (x, b) ∈ copyVar environ cp var value) ↔
      x ∈ (⟨cp, (entryBytes var value).length⟩ : Span) := by
  have hvar : var.bytes.length = var.chars.length + 1 := by simp [CString.bytes]
  have hvalue : value.bytes.length = value.chars.length + 1 := by simp [CString.bytes]
  have hequal : equalString.bytes.length = 2 := rfl
  rw [(copyVar_eq environ cp var value).1, entryBytes_length]
  simp only [List.mem_append, exists_or, mem_storesAt, Span.mem_mk, hvar, hvalue, hequal]
  omega

/-! ## The chunk that is written -/

theorem setenv_of_chunk {nvars i : Nat} {environ : ByteMemory} {var : CString} (value : CString)
    (h : setenvChunk nvars environ var = some i) :
    HoldsBytes (setenv nvars environ var value) (chunkAt i) (entryBytes var value) ∧
      ∀ x ∉ (⟨chunkAt i, (entryBytes var value).length⟩ : Span),
        setenv nvars environ var value x = environ x := by
  rw [setenv, setenvStores, h]
  refine ⟨(copyVar_eq environ _ var value).2, fun x hx => ?_⟩
  exact store_unwritten environ fun b hb => hx ((mem_copyVar environ _ var value).mp ⟨b, hb⟩)

theorem setenv_of_no_chunk {nvars : Nat} {environ : ByteMemory} {var value : CString}
    (h : setenvChunk nvars environ var = none) : setenv nvars environ var value = environ := by
  rw [setenv, setenvStores, h]
  rfl

/-- The variable has no chunk, and no chunk is free. -/
def NoRoom (nvars : Nat) (environ : ByteMemory) (var : CString) : Prop :=
  findVar environ var 1 (nvars - 1) = none ∧
    ∀ k, 1 ≤ k → k < 1 + (nvars - 1) → environ (chunkAt k) ≠ 0

theorem setenvChunk_eq_none {nvars : Nat} {environ : ByteMemory} {var : CString} :
    setenvChunk nvars environ var = none ↔ NoRoom nvars environ var := by
  rw [setenvChunk, chooseChunk_eq_none, NoRoom]
  simp

/-- The stores stay in the chunk that was chosen, and the pair is stored
completely or nothing is changed. -/
structure SetenvContained (nvars : Nat) (environ : ByteMemory) (var value : CString) : Prop where
  inside : ∀ x b, (x, b) ∈ setenvStores nvars environ var value →
    ∃ i, setenvChunk nvars environ var = some i ∧ x ∈ (⟨chunkAt i, chunkSize⟩ : Span)
  complete : setenv nvars environ var value = environ ∨
    ∃ i, setenvChunk nvars environ var = some i ∧
      HoldsBytes (setenv nvars environ var value) (chunkAt i) (entryBytes var value)

/-- A call stays in its chunk exactly if it finds none or the pair fits. -/
theorem setenv_contained_iff_fits (nvars : Nat) (environ : ByteMemory) (var value : CString) :
    SetenvContained nvars environ var value ↔
      NoRoom nvars environ var ∨ var.chars.length + value.chars.length ≤ 126 := by
  have hlen := entryBytes_length var value
  cases hchunk : setenvChunk nvars environ var with
  | none =>
      have hroom : NoRoom nvars environ var := setenvChunk_eq_none.mp hchunk
      simp only [hroom, true_or, iff_true]
      refine ⟨fun x b hb => ?_, Or.inl (setenv_of_no_chunk hchunk)⟩
      rw [setenvStores, hchunk] at hb
      cases hb
  | some i =>
      have hroom : ¬ NoRoom nvars environ var := by
        rw [← setenvChunk_eq_none, hchunk]
        simp
      simp only [hroom, false_or]
      have hstores : setenvStores nvars environ var value =
          copyVar environ (chunkAt i) var value := by rw [setenvStores, hchunk]
      constructor
      · intro hcontained
        -- the terminating NUL of the pair is the last byte that is written
        have hlast : chunkAt i + ((entryBytes var value).length - 1) ∈
            (⟨chunkAt i, (entryBytes var value).length⟩ : Span) := Span.mem_mk.mpr (by omega)
        obtain ⟨b, hb⟩ := (mem_copyVar environ _ var value).mpr hlast
        obtain ⟨j, hj, hin⟩ := hcontained.inside _ b (hstores ▸ hb)
        obtain rfl : i = j := by rw [hchunk] at hj; exact Option.some.inj hj
        rw [Span.mem_mk, chunkSize] at hin
        omega
      · intro hfits
        refine ⟨fun x b hb => ⟨i, hchunk, ?_⟩, Or.inr ⟨i, hchunk, (setenv_of_chunk value hchunk).1⟩⟩
        have hin := (mem_copyVar environ _ var value).mp ⟨b, hstores ▸ hb⟩
        rw [Span.mem_mk] at hin ⊢
        rw [chunkSize]
        omega

/-- A name and a value that are one character too long together. -/
def nameA : CString := ⟨[0x41], by decide, by decide⟩

def longValue : CString where
  chars := List.replicate 126 0x78
  noNul := by simp
  fits := by simp

theorem setenv_overruns_chunk :
    (∃ b, (chunkAt 2, b) ∈ setenvStores 16 (fun _ => 0) nameA longValue) ∧
      ¬ SetenvContained 16 (fun _ => 0) nameA longValue := by
  have hchunk : setenvChunk 16 (fun _ => 0) nameA = some 1 := by decide
  have hstores : setenvStores 16 (fun _ => 0) nameA longValue =
      copyVar (fun _ => 0) (chunkAt 1) nameA longValue := by rw [setenvStores, hchunk]
  have hnext : chunkAt 2 ∈ (⟨chunkAt 1, (entryBytes nameA longValue).length⟩ : Span) := by
    rw [entryBytes_length, Span.mem_mk]
    simp [nameA, longValue, chunkAt, chunkSize]
  obtain ⟨b, hb⟩ := (mem_copyVar (fun _ => 0) _ nameA longValue).mpr hnext
  refine ⟨⟨b, hstores ▸ hb⟩, fun hcontained => ?_⟩
  obtain ⟨i, hi, hin⟩ := hcontained.inside _ b (hstores ▸ hb)
  obtain rfl : 1 = i := by rw [hchunk] at hi; exact Option.some.inj hi
  revert hin
  decide

end Milo.Env
