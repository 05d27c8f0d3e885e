import Milo.Boot.Elf
import Milo.Foundation.CString

/-! # The page of the kernel arguments

`boot_cmd` clears the page at ZERO_PGE, puts the command line at its start and then
stores the place and the size of the ramdisk at fixed offsets in it, also where the
line goes on so far. Addresses count from ZERO_PGE.
-/

namespace Milo.Boot

open Foundation Milo.Memory

/-- Where the address of the ramdisk is stored. -/
def rdStartAt : Nat := 0x100

/-- Where its size is stored. -/
def rdSizeAt : Nat := 0x108

/-- A store through an `unsigned long` pointer. -/
def storeLong (mem : ByteMemory) (a w : Nat) : ByteMemory := fill mem a (leByte w) 8

/-! ## The command line -/

/-- `"bootdevice="` -/
def bootdeviceText : CString :=
  ⟨[0x62, 0x6f, 0x6f, 0x74, 0x64, 0x65, 0x76, 0x69, 0x63, 0x65, 0x3d], by decide, by decide⟩

/-- `" bootfile="` -/
def bootfileText : CString :=
  ⟨[0x20, 0x62, 0x6f, 0x6f, 0x74, 0x66, 0x69, 0x6c, 0x65, 0x3d], by decide, by decide⟩

/-- `" "` -/
def blankText : CString := ⟨[0x20], by decide, by decide⟩

/-- What `boot_cmd` puts together. -/
def lineParts (devname filename : CString) (bootString : Option CString) : List CString :=
  [bootdeviceText, devname, bootfileText, filename] ++
    bootString.elim [] fun bootString => [blankText, bootString]

def commandLine (devname filename : CString) (bootString : Option CString) : List UInt8 :=
  (lineParts devname filename bootString).flatMap CString.chars

/-- One `strcat` for each part. -/
def catParts (mem : ByteMemory) (parts : List CString) : ByteMemory :=
  parts.foldl (fun mem part => store mem (strcat mem 0 part)) mem

/-- The page as `boot_cmd` prepares it; `found` is the page as it was left by
`load_ramdisk_from_device`. -/
def kernelArguments (found mem : ByteMemory) (devname filename : CString)
    (bootString : Option CString) : ByteMemory :=
  let rdStart := readLe found rdStartAt 8
  let rdSize := readLe found rdSizeAt 8
  let cleared := fill mem 0 (fun _ => 0) pageSize
  let page := catParts cleared (lineParts devname filename bootString)
  storeLong (storeLong page rdStartAt rdStart) rdSizeAt rdSize

/-- The line and both words can be read. -/
structure Prepared (found page : ByteMemory) (line : List UInt8) : Prop where
  text : HoldsBytes page 0 (line ++ [0])
  rdStart : readLe page rdStartAt 8 = readLe found rdStartAt 8
  rdSize : readLe page rdSizeAt 8 = readLe found rdSizeAt 8

/-! ## Stores of words -/

/-- The bytes of a word that was read. -/
theorem leByte_readLe (mem : ByteMemory) {a n i : Nat} (ha : a + n < 2 ^ 64) (hi : i < n) :
    leByte (readLe mem a n) i = mem (a + i) := by
  induction n generalizing a i with
  | zero => exact absurd hi (Nat.not_lt_zero i)
  | succ n ih =>
      have hbyte := (mem a).toNat_lt
      rw [readLe, u64_of_lt (by omega)]
      cases i with
      | zero =>
          change leByte _ 0 = mem a
          apply UInt8.toNat.inj
          rw [leByte, UInt8.toNat_ofNat', Nat.pow_zero, Nat.div_one]
          omega
      | succ i =>
          have hrest := @ih (a + 1) i (by omega) (by omega)
          rw [show a + 1 + i = a + (i + 1) by omega] at hrest
          rw [← hrest]
          unfold leByte
          rw [Nat.pow_succ', ← Nat.div_div_eq_div_mul]
          congr 2
          omega

/-- Storing a word that was read somewhere puts its bytes there. -/
theorem storeLong_readLe (found mem : ByteMemory) {a i : Nat} (ha : a + 8 < 2 ^ 64) (hi : i < 8) :
    storeLong mem a (readLe found a 8) (a + i) = found (a + i) := by
  unfold storeLong
  rw [fill_inside hi, leByte_readLe found ha hi]

theorem storeLong_outside {mem : ByteMemory} {a w x : Nat} (h : x ∉ (⟨a, 8⟩ : Span)) :
    storeLong mem a w x = mem x := fill_outside h

/-- Both words have their own bytes, and the rest of the page is as before. -/
theorem storeWords (found page : ByteMemory) (i : Nat) :
    storeLong (storeLong page rdStartAt (readLe found rdStartAt 8)) rdSizeAt
        (readLe found rdSizeAt 8) i =
      if rdStartAt ≤ i ∧ i < rdStartAt + 16 then found i else page i := by
  by_cases hsecond : rdSizeAt ≤ i ∧ i < rdSizeAt + 8
  · obtain ⟨j, rfl⟩ := Nat.exists_eq_add_of_le hsecond.1
    rw [storeLong_readLe found _ (by decide) (by omega), if_pos]
    simp only [rdStartAt, rdSizeAt] at hsecond ⊢
    omega
  · rw [storeLong_outside (by rwa [Span.mem_mk])]
    by_cases hfirst : rdStartAt ≤ i ∧ i < rdStartAt + 8
    · obtain ⟨j, rfl⟩ := Nat.exists_eq_add_of_le hfirst.1
      rw [storeLong_readLe found _ (by decide) (by omega), if_pos (by omega)]
    · rw [storeLong_outside (by rwa [Span.mem_mk]), if_neg]
      simp only [rdStartAt, rdSizeAt] at hfirst hsecond ⊢
      omega

/-! ## The line in the page -/

theorem catParts_holds {mem : ByteMemory} {text : List UInt8} {parts : List CString}
    (h : HoldsBytes mem 0 (text ++ [0])) (hnul : 0 ∉ text)
    (hfits : (text ++ parts.flatMap CString.chars).length < 2 ^ 64) :
    HoldsBytes (catParts mem parts) 0 (text ++ parts.flatMap CString.chars ++ [0]) := by
  induction parts generalizing mem text with
  | nil =>
      rw [List.flatMap_nil, List.append_nil]
      exact h
  | cons part parts ih =>
      have hnext := strcat_holds part hnul (by
        rw [List.length_append] at hfits
        omega) h
      have hclean : 0 ∉ text ++ part.chars := by
        rw [List.mem_append, not_or]
        exact ⟨hnul, part.noNul⟩
      rw [List.flatMap_cons, ← List.append_assoc] at hfits ⊢
      rw [CString.bytes, ← List.append_assoc] at hnext
      exact ih hnext hclean hfits

theorem commandLine_noNul (devname filename : CString) (bootString : Option CString) :
    0 ∉ commandLine devname filename bootString := by
  unfold commandLine
  rw [List.mem_flatMap]
  rintro ⟨part, _, hnul⟩
  exact part.noNul hnul

/-- Before the words are stored the whole line can be read. -/
theorem catParts_line {mem : ByteMemory} {devname filename : CString} {bootString : Option CString}
    (hfits : (commandLine devname filename bootString).length < 2 ^ 64) :
    HoldsBytes (catParts (fill mem 0 (fun _ => 0) pageSize) (lineParts devname filename bootString)) 0
      (commandLine devname filename bootString ++ [0]) := by
  have hcleared : HoldsBytes (fill mem 0 (fun _ => 0) pageSize) 0 ([] ++ [0]) := by
    intro i b hb
    obtain ⟨hi, rfl⟩ := List.getElem?_eq_some_iff.mp hb
    obtain rfl : i = 0 := Nat.lt_one_iff.mp hi
    exact fill_start mem _ (by decide)
  unfold commandLine at hfits ⊢
  generalize lineParts devname filename bootString = parts at hfits ⊢
  have hparts := @catParts_holds _ [] parts hcleared List.not_mem_nil
  rw [List.nil_append] at hparts
  exact hparts hfits

/-- For every device name, file name and boot string whose line fits in the page. -/
theorem kernelArguments_prepared_iff (found mem : ByteMemory) (devname filename : CString)
    (bootString : Option CString)
    (hfits : (commandLine devname filename bootString).length + 1 ≤ pageSize) :
    Prepared found (kernelArguments found mem devname filename bootString)
        (commandLine devname filename bootString) ↔
      ∀ i < 16, ∀ b ∈ (commandLine devname filename bootString ++ [0])[rdStartAt + i]?,
        found (rdStartAt + i) = b := by
  have hline := @catParts_line mem devname filename bootString
    (Nat.lt_of_succ_le (Nat.le_trans hfits (by decide)))
  have hpage : ∀ i, kernelArguments found mem devname filename bootString i =
      if rdStartAt ≤ i ∧ i < rdStartAt + 16 then found i
      else catParts (fill mem 0 (fun _ => 0) pageSize) (lineParts devname filename bootString) i :=
    storeWords found _
  have hword : ∀ i, rdStartAt ≤ i → i < rdStartAt + 16 →
      kernelArguments found mem devname filename bootString i = found i := by
    intro i hlo hhi
    rw [hpage, if_pos ⟨hlo, hhi⟩]
  constructor
  · intro h i hi b hb
    have hread := h.text (rdStartAt + i) b hb
    rw [Nat.zero_add, hword _ (by omega) (by omega)] at hread
    exact hread
  · intro h
    refine ⟨fun i b hb => ?_, ?_, ?_⟩
    · rw [Nat.zero_add, hpage]
      split
      · rename_i hinside
        obtain ⟨j, rfl⟩ := Nat.exists_eq_add_of_le hinside.1
        exact h j (by omega) b hb
      · have hread := hline i b hb
        rwa [Nat.zero_add] at hread
    · refine readLe_congr 8 (by decide) (by decide) fun i hi => hword _ ?_ ?_
      · simp only [rdStartAt]
        omega
      · simp only [rdStartAt]
        omega
    · refine readLe_congr 8 (by decide) (by decide) fun i hi => hword _ ?_ ?_
      · simp only [rdStartAt, rdSizeAt]
        omega
      · simp only [rdStartAt, rdSizeAt]
        omega

/-- What is read as a string at the start of the page. -/
theorem Prepared.stringAt {found page : ByteMemory} {devname filename : CString}
    {bootString : Option CString}
    (h : Prepared found page (commandLine devname filename bootString))
    (hfits : (commandLine devname filename bootString).length + 1 ≤ pageSize) :
    Foundation.stringAt page 0 = commandLine devname filename bootString :=
  stringAt_eq (commandLine_noNul devname filename bootString)
    (Nat.lt_of_succ_le (Nat.le_trans hfits (by decide))) h.text

/-- A line of at most 255 characters ends in front of the words. -/
theorem kernelArguments_short (found mem : ByteMemory) {devname filename : CString}
    {bootString : Option CString}
    (hshort : (commandLine devname filename bootString).length < rdStartAt) :
    Prepared found (kernelArguments found mem devname filename bootString)
      (commandLine devname filename bootString) := by
  refine (kernelArguments_prepared_iff found mem devname filename bootString
    (Nat.le_trans hshort (by decide))).mpr fun i _ b hb => ?_
  have hi := (List.getElem?_eq_some_iff.mp hb).1
  rw [List.length_append, List.length_singleton] at hi
  omega

/-- `sda1` -/
def sda1 : CString := ⟨[0x73, 0x64, 0x61, 0x31], by decide, by decide⟩

/-- `x`, 256 times -/
def longName : CString :=
  ⟨List.replicate 256 0x78, fun h => absurd (List.eq_of_mem_replicate h) (by decide),
    by rw [List.length_replicate]; decide⟩

/-- The line `bootdevice=sda1 bootfile=sda1`, whatever the page held. -/
theorem kernelArguments_prepared_sda1 :
    Prepared (fun _ => 7) (kernelArguments (fun _ => 7) (fun _ => 1) sda1 sda1 none)
      (commandLine sda1 sda1 none) :=
  (kernelArguments_prepared_iff _ _ _ _ _ (by decide)).mpr fun i _ b hb =>
    absurd (List.getElem?_eq_some_iff.mp hb).1 (Nat.not_lt.mpr
      (Nat.le_trans (by decide : _ ≤ rdStartAt) (Nat.le_add_right _ i)))

/-- Without a ramdisk the words are zero and cut a line that goes on so far. -/
theorem long_file_name_cut :
    ¬ Prepared (fun _ => 0) (kernelArguments (fun _ => 0) (fun _ => 0) sda1 longName none)
      (commandLine sda1 longName none) := by
  rw [kernelArguments_prepared_iff _ _ _ _ _ (by decide +kernel)]
  intro h
  have hcut := h 0 (by decide) 0x78 (by decide +kernel)
  exact absurd hcut (by decide)

end Milo.Boot
