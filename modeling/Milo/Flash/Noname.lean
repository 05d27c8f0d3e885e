import Milo.Flash.Eb

/-! # The flash of the NoName board

Two parts of 256K stand behind one port, each byte in a quadword of its own. Before the
parts are programmed, `verify` tells whether they hold one byte all over: 0xff when they
are erased, 0 when they are ready to be.
-/

namespace Milo.Flash.Noname

open Foundation

/-- `FLASHBASE` -/
def flashBase : Nat := 0xfffffc0038000000

/-- `FLASH_SIZE_256K` -/
def flashSize256K : Nat := 0x40000

/-- `FLASH_SIZE_512K` -/
def flashSize512K : Nat := 0x80000

/-- `READ_CMD` -/
def readCmd : Nat := 0x00

/-- Where the flash parts answer. The products are those of `unsigned int`s. -/
def flashAddress (romPort offset : Nat) : Nat :=
  u64 (flashBase + u32 (romPort * (flashSize256K * 8)) + u32 (offset * 8))

/-- `flash_read`; the parts fill `space` with quadwords. -/
def flashRead (space : Nat → Nat) (romPort offset : Nat) : Nat :=
  space (flashAddress romPort offset) &&& 0xff

/-- The part and the location in it of an address behind a port. -/
def partOf (romPort address : Nat) : Nat × Nat :=
  if flashSize256K ≤ address then (u32 (romPort + 1), address - flashSize256K)
  else (romPort, address)

/-- `value &= 0xff`, where `value` is a `char` -/
def maskChar (value : Int) : Int := (value % 256).bmod 256

/-- `(unsigned int) value` -/
def asUnsigned (value : Int) : Nat := (value % 2 ^ 32).toNat

/-- `verify` -/
def verify (space : Nat → Nat) (romPort : Nat) (value : Int) : Bool :=
  let value := maskChar value
  (List.range flashSize512K).all fun address =>
    let place := partOf romPort address
    flashRead space place.1 place.2 &&& 0xff == asUnsigned value

/-! ## Programming -/

/-- What `flash_program` does to the parts and tells the user. -/
inductive ProgramStep
  | reset (romPort : Nat)
  | writeCommand (romPort offset cmd : Nat)
  | wait (ticks : Nat)
  | print (text : String)
  | prep (romPort : Nat)
  | erase (romPort : Nat)
  | update (romPort : Nat)
  | compare (romPort : Nat)
  | deactivateVpp
deriving DecidableEq

/-- The steps when the parts are erased. -/
def blast (romPort : Nat) : List ProgramStep :=
  [.print "\nblasting\n", .update romPort, .print "\nverifying\n", .compare romPort,
    .print "\n done !\n", .deactivateVpp]

/-- The steps that erase the parts. -/
def clear (eraseFails : Bool) (space : Nat → Nat) (romPort : Nat) : List ProgramStep :=
  .print "\nzeroing\n" ::
    (if verify space romPort (toChar 0) then [] else [.prep romPort]) ++
    [.print "\nerasing\n", .erase romPort] ++
    if eraseFails then [.print "unable to erase ROM\n"] else blast romPort

/-- `flash_program`; `vpp` and `eraseFails` are what `activate_vpp` and `flash_erase` give, and
`space` is what the parts hold when they are set up for reads. -/
def flashProgram (vpp eraseFails : Bool) (space : Nat → Nat) (romPort : Nat) :
    List ProgramStep :=
  if vpp = false then []
  else
    [.reset romPort, .writeCommand romPort 0 readCmd, .wait 10000] ++
    if verify space romPort (toChar 0xff) then blast romPort else clear eraseFails space romPort

/-! ## What `verify` compares -/

/-- Both parts hold one byte at every location. -/
def HoldsOnly (space : Nat → Nat) (romPort : Nat) (v : UInt8) : Prop :=
  ∀ location < flashSize256K,
    flashRead space romPort location = v.toNat ∧
    flashRead space (u32 (romPort + 1)) location = v.toNat

theorem flashRead_lt (space : Nat → Nat) (romPort offset : Nat) :
    flashRead space romPort offset < 256 := by
  rw [flashRead, Nat.and_two_pow_sub_one_eq_mod _ 8]
  exact Nat.mod_lt _ (by decide)

theorem flashRead_and (space : Nat → Nat) (romPort offset : Nat) :
    flashRead space romPort offset &&& 0xff = flashRead space romPort offset := by
  rw [flashRead, Nat.and_assoc, Nat.and_self]

/-- The addresses go through all locations of both parts. -/
theorem forall_partOf_iff (romPort : Nat) (P : Nat × Nat → Prop) :
    (∀ address < flashSize512K, P (partOf romPort address)) ↔
      ∀ location < flashSize256K, P (romPort, location) ∧ P (u32 (romPort + 1), location) := by
  constructor
  · intro h location hlocation
    have hfirst := h location (Nat.lt_trans hlocation (by decide))
    have hsecond := h (flashSize256K + location) (Nat.add_lt_add_left hlocation flashSize256K)
    rw [partOf, if_neg (Nat.not_le.mpr hlocation)] at hfirst
    rw [partOf, if_pos (Nat.le_add_right _ _), Nat.add_sub_cancel_left] at hsecond
    exact ⟨hfirst, hsecond⟩
  · intro h address haddress
    rw [partOf]
    split
    case isTrue hle =>
      have hlocation : address - flashSize256K < flashSize256K :=
        (Nat.sub_lt_iff_lt_add hle).mpr haddress
      exact (h _ hlocation).2
    case isFalse hlt => exact (h address (Nat.not_le.mp hlt)).1

theorem verify_iff (space : Nat → Nat) (romPort : Nat) (value : Int) :
    verify space romPort value = true ↔ ∀ location < flashSize256K,
      flashRead space romPort location = asUnsigned (maskChar value) ∧
      flashRead space (u32 (romPort + 1)) location = asUnsigned (maskChar value) := by
  rw [verify, List.all_eq_true]
  simp only [List.mem_range, beq_iff_eq, flashRead_and]
  exact forall_partOf_iff romPort
    (fun place => flashRead space place.1 place.2 = asUnsigned (maskChar value))

/-! ## Bytes in a `char` -/

theorem maskChar_toChar (v : UInt8) : maskChar (toChar v) = toChar v := by
  unfold maskChar toChar
  exact (Int.emod_bmod _ 256).trans Int.bmod_bmod

theorem asUnsigned_toChar_of_lt {v : UInt8} (hv : v < 0x80) :
    asUnsigned (toChar v) = v.toNat := by
  have hlt : v.toNat < 0x80 := UInt8.lt_iff_toNat_lt.mp hv
  unfold asUnsigned toChar
  rw [Int.bmod_def]
  omega

/-- With the top bit set, the sign is extended: the mask went back into the `char`. -/
theorem asUnsigned_toChar_of_le {v : UInt8} (hv : ¬ v < 0x80) :
    256 ≤ asUnsigned (toChar v) := by
  have hle : 0x80 ≤ v.toNat := Nat.not_lt.mp fun h => hv (UInt8.lt_iff_toNat_lt.mpr h)
  have hlt := v.toNat_lt
  unfold asUnsigned toChar
  rw [Int.bmod_def]
  omega

theorem verify_small_iff (space : Nat → Nat) (romPort : Nat) {v : UInt8} (hv : v < 0x80) :
    verify space romPort (toChar v) = true ↔ HoldsOnly space romPort v := by
  rw [verify_iff, maskChar_toChar, asUnsigned_toChar_of_lt hv]
  exact Iff.rfl

theorem verify_large (space : Nat → Nat) (romPort : Nat) {v : UInt8} (hv : ¬ v < 0x80) :
    verify space romPort (toChar v) = false := by
  rw [← Bool.not_eq_true, verify_iff, maskChar_toChar]
  intro h
  have hread := (h 0 (by decide)).1
  have hbyte := flashRead_lt space romPort 0
  have hlarge := asUnsigned_toChar_of_le hv
  omega

theorem verify_right_iff (space : Nat → Nat) (romPort : Nat) (v : UInt8) :
    (verify space romPort (toChar v) = true ↔ HoldsOnly space romPort v) ↔
      (0x80 ≤ v → ¬ HoldsOnly space romPort v) := by
  by_cases hv : v < 0x80
  · have hnot : ¬ 0x80 ≤ v := UInt8.not_le.mpr hv
    exact iff_of_true (verify_small_iff space romPort hv) (fun h => absurd h hnot)
  · have hle : 0x80 ≤ v := UInt8.not_lt.mp hv
    rw [verify_large space romPort hv]
    simp [hle]

/-! ## What `flash_program` does -/

/-- Nothing is left out: parts that are erased are zeroed and erased again. -/
theorem flashProgram_steps (eraseFails : Bool) (space : Nat → Nat) (romPort : Nat) :
    flashProgram true eraseFails space romPort =
      [.reset romPort, .writeCommand romPort 0 readCmd, .wait 10000] ++
        clear eraseFails space romPort := by
  rw [flashProgram, if_neg (by decide), verify_large space romPort (by decide)]
  rfl

theorem prep_mem_clear_iff (eraseFails : Bool) (space : Nat → Nat) (romPort : Nat) :
    .prep romPort ∈ clear eraseFails space romPort ↔ ¬ HoldsOnly space romPort 0 := by
  rw [← verify_small_iff space romPort (by decide), clear]
  cases verify space romPort (toChar 0) <;> cases eraseFails <;> simp [blast]

theorem erase_mem_clear (eraseFails : Bool) (space : Nat → Nat) (romPort : Nat) :
    .erase romPort ∈ clear eraseFails space romPort := by
  rw [clear]
  cases verify space romPort (toChar 0) <;> cases eraseFails <;> simp

theorem prep_mem_flashProgram_iff (eraseFails : Bool) (space : Nat → Nat) (romPort : Nat) :
    .prep romPort ∈ flashProgram true eraseFails space romPort ↔
      ¬ HoldsOnly space romPort 0 := by
  rw [flashProgram_steps, ← prep_mem_clear_iff eraseFails]
  simp

theorem erase_mem_flashProgram (eraseFails : Bool) (space : Nat → Nat) (romPort : Nat) :
    .erase romPort ∈ flashProgram true eraseFails space romPort := by
  rw [flashProgram_steps]
  exact List.mem_append_right _ (erase_mem_clear eraseFails space romPort)

/-- `verify` tells whether the parts hold only `v`, and of parts that are not erased those
that are not all 0 are zeroed and all are erased. -/
structure TestsRight (eraseFails : Bool) (space : Nat → Nat) (romPort : Nat) (v : UInt8) :
    Prop where
  verified : verify space romPort (toChar v) = true ↔ HoldsOnly space romPort v
  zeroed : .prep romPort ∈ flashProgram true eraseFails space romPort ↔
    ¬ HoldsOnly space romPort 0xff ∧ ¬ HoldsOnly space romPort 0
  erased : .erase romPort ∈ flashProgram true eraseFails space romPort ↔
    ¬ HoldsOnly space romPort 0xff

theorem testsRight_iff (eraseFails : Bool) (space : Nat → Nat) (romPort : Nat) (v : UInt8) :
    TestsRight eraseFails space romPort v ↔
      (0x80 ≤ v → ¬ HoldsOnly space romPort v) ∧ ¬ HoldsOnly space romPort 0xff := by
  constructor
  · intro h
    have herase := erase_mem_flashProgram eraseFails space romPort
    exact ⟨(verify_right_iff space romPort v).mp h.verified, h.erased.mp herase⟩
  · rintro ⟨hv, herased⟩
    have hprep := prep_mem_flashProgram_iff eraseFails space romPort
    have herase := erase_mem_flashProgram eraseFails space romPort
    exact ⟨(verify_right_iff space romPort v).mpr hv,
      hprep.trans (iff_and_self.mpr fun _ => herased), iff_of_true herase herased⟩

theorem erased_not_testsRight : ¬ TestsRight false (fun _ => 0xff) 2 0xff := by
  have hread : ∀ part location, flashRead (fun _ => 0xff) part location = 0xff := by
    intro part location
    exact Nat.and_self 0xff
  have herased : HoldsOnly (fun _ => 0xff) 2 0xff := fun location _ =>
    ⟨hread 2 location, hread _ location⟩
  intro h
  exact h.erased.mp (erase_mem_flashProgram false _ 2) herased

end Milo.Flash.Noname
