import Milo.Tools.Cstrip

/-! # The text section

Without `-a`, `cstrip` writes the `.text` section alone. The loop over the section
headers counts every header that it reads, but goes on to the next one only behind
a header with contents.
-/

namespace Milo.Tools

open Foundation

/-- ".text" -/
def textName : List UInt8 := [46, 116, 101, 120, 116]

/-- `strcmp(shdr.s_name, ".text") == 0` -/
def SectionHeader.isText (h : SectionHeader) : Bool := h.name.take 6 == textName ++ [0]

/-- The loop of `write_text_section`, with its count and the number of the header at
`used`. -/
def findText (file : List UInt8) (used : Nat) (headers : List SectionHeader) :
    Nat → Nat → Option (List UInt8 × Nat)
  | 0, _ => some ([], 0)
  | n + 1, k =>
      (headers[k]?).bind fun h =>
        if h.hasContents then
          if h.isText then
            (writeASection file ⟨h, used + 64 * (k + 1)⟩).map fun bytes => (bytes, u32 h.size.toNat)
          else findText file used headers n (k + 1)
        else findText file used headers n k

/-- `write_text_section`, with what it writes and the result as an `unsigned int`. -/
def writeTextSection (file : List UInt8) (used : Nat) (headers : List SectionHeader) :
    Option (List UInt8 × Nat) :=
  findText file used headers headers.length 0

/-- Behind the sections `before` comes the first one named `.text` that is not empty. -/
structure FirstText (headers before : List SectionHeader) (h : SectionHeader)
    (after : List SectionHeader) : Prop where
  place : headers = before ++ h :: after
  named : h.isText = true
  size_ne : h.size ≠ 0
  first : ∀ b ∈ before, b.isText = true → b.size = 0

/-- Where `copy_to_file` starts to read, and that it copies the whole section from
there: an `int` holds the size, and it holds the file position too, or the file has
the same bytes where the reading starts. -/
def SectionHeader.Copied (h : SectionHeader) (file : List UInt8) (behind : Nat) : Prop :=
  let start := if 0 ≤ toInt h.scnptr.toNat then (toInt h.scnptr.toNat).toNat else behind
  h.size.toNat < 2 ^ 31 ∧
    (start = h.scnptr.toNat ∨
      (file.drop start).take h.size.toNat = (file.drop h.scnptr.toNat).take h.size.toNat)

section
variable {file : List UInt8} {used n k : Nat} {headers : List SectionHeader} {h : SectionHeader}

/-! ## Rounds of the loop -/

/-- A header without contents is read again in every round that is left. -/
theorem findText_stuck (hk : headers[k]? = some h) (hempty : h.hasContents = false) (n : Nat) :
    findText file used headers n k = some ([], 0) := by
  induction n with
  | zero => rfl
  | succ n ih => rw [findText, hk, Option.bind_some, hempty, if_neg Bool.false_ne_true, ih]

theorem findText_next (hk : headers[k]? = some h) (hcontents : h.hasContents = true)
    (hother : h.isText = false) :
    findText file used headers (n + 1) k = findText file used headers n (k + 1) := by
  rw [findText, hk, Option.bind_some, if_pos hcontents, hother, if_neg Bool.false_ne_true]

/-- Headers with contents are passed over one by one. -/
theorem findText_pass (file : List UInt8) (used n : Nat) {before rest : List SectionHeader}
    (hcontents : ∀ b ∈ before, b.hasContents = true) (hother : ∀ b ∈ before, b.isText = false)
    {pre : List SectionHeader} (hheaders : headers = pre ++ before ++ rest) :
    findText file used headers (n + before.length) pre.length =
      findText file used headers n (pre.length + before.length) := by
  induction before generalizing pre with
  | nil => rfl
  | cons b before ih =>
      have hk : headers[pre.length]? = some b := by
        rw [hheaders]
        simp
      rw [List.length_cons, ← Nat.add_assoc,
        findText_next hk (hcontents b List.mem_cons_self) (hother b List.mem_cons_self)]
      have hsplit : headers = pre ++ [b] ++ before ++ rest := by
        simp [hheaders]
      have hrest := ih (fun c hc => hcontents c (List.mem_cons_of_mem b hc))
        (fun c hc => hother c (List.mem_cons_of_mem b hc)) hsplit
      rw [List.length_append, List.length_singleton] at hrest
      rw [hrest, Nat.add_right_comm, Nat.add_assoc]

/-- The loop comes to the first header that is not passed over. -/
theorem writeTextSection_reaches (file : List UInt8) (used : Nat) {pre post : List SectionHeader}
    (hheaders : headers = pre ++ h :: post) (hcontents : ∀ b ∈ pre, b.hasContents = true)
    (hother : ∀ b ∈ pre, b.isText = false) :
    headers[pre.length]? = some h ∧
      writeTextSection file used headers =
        findText file used headers (post.length + 1) pre.length := by
  have hlength : headers.length = post.length + 1 + pre.length := by
    rw [hheaders, List.length_append, List.length_cons]
    omega
  have hsplit : headers = [] ++ pre ++ h :: post := hheaders
  have hpass := findText_pass file used (post.length + 1) hcontents hother hsplit
  rw [List.length_nil, Nat.zero_add] at hpass
  refine ⟨by rw [hheaders]; simp, ?_⟩
  rw [writeTextSection, hlength]
  exact hpass

theorem writeTextSection_stuck {pre post : List SectionHeader} (hheaders : headers = pre ++ h :: post)
    (hcontents : ∀ b ∈ pre, b.hasContents = true) (hother : ∀ b ∈ pre, b.isText = false)
    (hempty : h.hasContents = false) : writeTextSection file used headers = some ([], 0) := by
  obtain ⟨hk, hreach⟩ := writeTextSection_reaches file used hheaders hcontents hother
  rw [hreach, findText_stuck hk hempty]

/-! ## The text section -/

theorem hasContents_iff : h.hasContents = true ↔ h.size ≠ 0 ∧ h.scnptr ≠ 0 := by
  unfold SectionHeader.hasContents
  rw [Bool.and_eq_true, bne_iff_ne, bne_iff_ne]

/-- In front of the first text section no header with contents is taken for it. -/
theorem FirstText.other {before after : List SectionHeader} (hfirst : FirstText headers before h after)
    {b : SectionHeader} (hb : b ∈ before) (hcontents : b.hasContents = true) : b.isText = false :=
  Bool.eq_false_iff.mpr fun htext => (hasContents_iff.mp hcontents).1 (hfirst.first b hb htext)

/-- The section is copied as it should be exactly if the `int`s do no harm. -/
theorem copied_iff (behind : Nat) (hin : h.scnptr.toNat + h.size.toNat ≤ file.length)
    (hsize : h.size ≠ 0) :
    ((writeASection file ⟨h, behind⟩).map fun bytes => (bytes, u32 h.size.toNat)) =
        some ((h.piece file).data, h.size.toNat) ↔ h.Copied file behind := by
  have hpos : 0 < h.size.toNat := Nat.pos_of_ne_zero fun h0 => hsize (UInt64.toNat.inj h0)
  have hlength : (h.piece file).data.length = h.size.toNat := by
    simp only [SectionHeader.piece, List.length_take, List.length_drop]
    omega
  unfold writeASection copyToFile SectionHeader.Copied Section.scnptr Section.size
  simp only
  generalize (if 0 ≤ toInt h.scnptr.toNat then (toInt h.scnptr.toNat).toNat else behind) = start
  constructor
  · intro hcopy
    rw [Option.map_eq_some_iff] at hcopy
    obtain ⟨bytes, hbytes, heq⟩ := hcopy
    obtain ⟨rfl, hword⟩ := Prod.mk.inj heq
    split at hbytes
    · rename_i hfits
      have hdata := Option.some.inj hbytes
      have hlen := congrArg List.length hdata
      rw [List.length_take, List.length_drop, hlength] at hlen
      have hint : toInt h.size.toNat = h.size.toNat := by omega
      have hrange := Int.bmod_lt (x := h.size.toNat) (m := 2 ^ 32) (by decide)
      rw [hint, Int.toNat_natCast] at hdata
      unfold toInt at hint
      exact ⟨by omega, Or.inr hdata⟩
    · cases hbytes
  · rintro ⟨hlt, hstart⟩
    have hint : toInt h.size.toNat = h.size.toNat := toInt_of_inInt (inInt_iff.mpr (by omega))
    have hdata : (file.drop start).take h.size.toNat = (h.piece file).data := by
      rcases hstart with rfl | hsame
      · rfl
      · exact hsame
    have hlen := congrArg List.length hdata
    rw [List.length_take, List.length_drop, hlength] at hlen
    rw [hint, Int.toNat_natCast, if_pos (by omega), Option.map_some, hdata, u32_of_lt (by omega)]

/-- The first text section is written, and its size returned, exactly if no header up
to it lacks contents and the `int`s do no harm. -/
theorem writeTextSection_iff {before after : List SectionHeader}
    (hfirst : FirstText headers before h after)
    (hin : h.scnptr.toNat + h.size.toNat ≤ file.length) :
    writeTextSection file used headers = some ((h.piece file).data, h.size.toNat) ↔
      (∀ b ∈ before, b.size ≠ 0 ∧ b.scnptr ≠ 0) ∧ h.scnptr ≠ 0 ∧
        h.Copied file (used + 64 * (before.length + 1)) := by
  have hpos : h.size.toNat ≠ 0 := fun h0 => hfirst.size_ne (UInt64.toNat.inj h0)
  by_cases hbefore : ∀ b ∈ before, b.hasContents = true
  · have hother : ∀ b ∈ before, b.isText = false := fun b hb => hfirst.other hb (hbefore b hb)
    cases hcontents : h.hasContents with
    | false =>
        have hscnptr : h.scnptr = 0 := by
          by_contra hne
          exact Bool.false_ne_true (hcontents.symm.trans (hasContents_iff.mpr ⟨hfirst.size_ne, hne⟩))
        rw [writeTextSection_stuck hfirst.place hbefore hother hcontents]
        constructor
        · intro heq
          exact absurd (Prod.mk.inj (Option.some.inj heq)).2.symm hpos
        · intro hgood
          exact absurd hscnptr hgood.2.1
    | true =>
        obtain ⟨hk, hreach⟩ := writeTextSection_reaches file used hfirst.place hbefore hother
        rw [hreach, findText, hk, Option.bind_some, if_pos hcontents, if_pos hfirst.named,
          copied_iff _ hin hfirst.size_ne]
        have hall : ∀ b ∈ before, b.size ≠ 0 ∧ b.scnptr ≠ 0 := fun b hb =>
          hasContents_iff.mp (hbefore b hb)
        exact ⟨fun hcopied => ⟨hall, (hasContents_iff.mp hcontents).2, hcopied⟩, fun h => h.2.2⟩
  · -- the first header without contents is read over and over
    obtain ⟨b, hb⟩ : ∃ b, before.find? (fun c => !c.hasContents) = some b := by
      rw [← Option.isSome_iff_exists, List.find?_isSome]
      simpa using hbefore
    obtain ⟨hempty, pre, post, hsplit, hpre⟩ := List.find?_eq_some_iff_append.mp hb
    rw [Bool.not_eq_true'] at hempty
    have hmem : b ∈ before := List.mem_of_find?_eq_some hb
    have hcontents : ∀ c ∈ pre, c.hasContents = true := fun c hc => by simpa using hpre c hc
    have hother : ∀ c ∈ pre, c.isText = false := fun c hc =>
      hfirst.other (hsplit ▸ List.mem_append_left _ hc) (hcontents c hc)
    have hheaders : headers = pre ++ b :: (post ++ h :: after) := by
      rw [hfirst.place, hsplit, List.append_assoc, List.cons_append]
    rw [writeTextSection_stuck hheaders hcontents hother hempty]
    constructor
    · intro heq
      exact absurd (Prod.mk.inj (Option.some.inj heq)).2.symm hpos
    · intro hgood
      have hhas := hasContents_iff.mpr (hgood.1 b hmem)
      rw [hempty] at hhas
      cases hhas

end

/-- A text section of one byte at the start of the table. -/
theorem oneSection_written :
    writeTextSection [0, 7] 64 [oneSection] = some ([7], 1) ↔
      (∀ b ∈ ([] : List SectionHeader), b.size ≠ 0 ∧ b.scnptr ≠ 0) ∧ oneSection.scnptr ≠ 0 ∧
        oneSection.Copied [0, 7] (64 + 64 * (0 + 1)) := by
  have hfirst : FirstText [oneSection] [] oneSection [] :=
    ⟨rfl, by decide, by decide, fun b hb => nomatch hb⟩
  exact writeTextSection_iff hfirst (by decide)

/-- A `.bss` section, which has no contents. -/
def bssSection : SectionHeader := ⟨[46, 98, 115, 115, 0, 0, 0, 0], 0x1000, 0, 0, rfl⟩

/-- Behind it the text section is not found. -/
theorem text_behind_bss :
    FirstText [bssSection, oneSection] [bssSection] oneSection [] ∧
      writeTextSection [0, 7] 64 [bssSection, oneSection] = some ([], 0) := by
  refine ⟨⟨rfl, by decide, by decide, fun b hb => ?_⟩, by decide⟩
  rw [List.mem_singleton.mp hb]
  exact fun _ => rfl

end Milo.Tools
