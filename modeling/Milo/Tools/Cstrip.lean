import Mathlib.Data.List.Pairwise
import Milo.Foundation.CInt
import Milo.Foundation.FlatImage
import Milo.Foundation.QuadText

/-! # Flat images from coff files

`cstrip -a` writes the sections of a coff file in order of their physical
addresses, with padding between them. The section headers are taken as they are
read from the file.
-/

namespace Milo.Tools

open Foundation

/-- `struct scnhdr`, the fields that are read. -/
structure SectionHeader where
  name : List UInt8
  paddr : UInt64
  size : UInt64
  scnptr : UInt64
  name_length : name.length = 8

/-- `section_t`: the header, which is read again from the file, and where it
ends there. -/
structure Section where
  header : SectionHeader
  behind : Nat

namespace Section

def physical (s : Section) : Nat := s.header.paddr.toNat

def size (s : Section) : Nat := s.header.size.toNat

def scnptr (s : Section) : Nat := s.header.scnptr.toNat

end Section

/-- A header needs a section pointer and some size. -/
def SectionHeader.hasContents (h : SectionHeader) : Bool := h.size != 0 && h.scnptr != 0

/-- ".comment" -/
def commentName : List UInt8 := [46, 99, 111, 109, 109, 101, 110, 116]

/-- `strncmp(shdr.s_name, ".comment", sizeof(".comment")) == 0`. The name has no
terminator, so the ninth byte compared is the first one of the address. -/
def SectionHeader.isComment (h : SectionHeader) : Bool :=
  (h.name ++ QuadText.leBytes 8 h.paddr.toNat).take 9 == commentName ++ [0]

/-- `InsertSection` -/
def insertSection (new : Section) : List Section → List Section
  | [] => [new]
  | s :: rest =>
      if new.physical < s.physical then new :: s :: rest else s :: insertSection new rest

/-- The first loop of `write_sections`. The headers lie behind each other from
`used` on, and each has 64 bytes. -/
def collectSections (used : Nat) (list : List Section) : List SectionHeader → List Section
  | [] => list
  | h :: headers =>
      if h.hasContents && !h.isComment then
        collectSections (used + 64) (insertSection ⟨h, used + 64⟩ list) headers
      else collectSections (used + 64) list headers

/-- `copy_to_file`, with the position in the file before it. A negative offset
is refused by `fseek`; at the end of the file, which a negative size runs into,
the program ends. -/
def copyToFile (file : List UInt8) (position : Nat) (offset size : Int) : Option (List UInt8) :=
  let start := if 0 ≤ offset then offset.toNat else position
  if 0 ≤ size ∧ start + size.toNat ≤ file.length then some ((file.drop start).take size.toNat)
  else none

/-- `write_a_section` -/
def writeASection (file : List UInt8) (s : Section) : Option (List UInt8) :=
  copyToFile file s.behind (toInt s.scnptr) (toInt s.size)

/-- The second loop of `write_sections`: what is written and the final `size`.
The fill count is one less than zero after it was counted down, and as such it
is added. -/
def writeList (file : List UInt8) (first : Bool) (physical size : Nat) :
    List Section → Option (List UInt8 × Nat)
  | [] => some ([], size)
  | s :: rest =>
      let gap := !first && decide (physical < s.physical)
      let fill := if gap then u32 (s.physical - physical) else 0
      let size := if gap then u64 (size + (2 ^ 32 - 1)) else size
      (writeASection file s).bind fun bytes =>
        (writeList file false (u64 (s.physical + s.size)) (u64 (size + u32 s.size)) rest).map
          fun (out, size) => (List.replicate fill 48 ++ bytes ++ out, size)

/-- `write_sections`, with the result as an `unsigned int`. -/
def writeSections (file : List UInt8) (used : Nat) (headers : List SectionHeader) :
    Option (List UInt8 × Nat) :=
  (writeList file true 0 0 (collectSections used [] headers)).map fun (out, size) => (out, u32 size)

/-- `write_file` with `-a`, and with `-r` if `round`. -/
def writeFile (file : List UInt8) (used : Nat) (headers : List SectionHeader) (round : Bool) :
    Option (List UInt8) :=
  (writeSections file used headers).map fun (out, size) =>
    if size &&& 7 ≠ 0 ∧ round then out ++ List.replicate (8 - (size &&& 7)) 0 else out

/-! ## What is asked for -/

/-- The contents of a section, at its physical address. -/
def SectionHeader.piece (file : List UInt8) (h : SectionHeader) : Piece UInt8 :=
  ⟨h.paddr.toNat, (file.drop h.scnptr.toNat).take h.size.toNat⟩

/-- The sections with contents, and of these all but `.comment`. -/
def withContents (headers : List SectionHeader) : List SectionHeader :=
  headers.filter SectionHeader.hasContents

def wanted (headers : List SectionHeader) : List SectionHeader :=
  (withContents headers).filter fun h => h.name ≠ commentName

/-- The sections that are written. -/
def written (headers : List SectionHeader) : List SectionHeader :=
  (withContents headers).filter fun h => !h.isComment

/-- The contents of the sections lie in the file, within the range of an `int`,
and the sections do not overlap in memory. -/
structure SectionsPlaced (file : List UInt8) (headers : List SectionHeader) : Prop where
  inFile : ∀ h ∈ withContents headers, h.scnptr.toNat + h.size.toNat ≤ file.length
  inInt : ∀ h ∈ withContents headers, h.scnptr.toNat + h.size.toNat ≤ 2 ^ 31
  inMemory : ∀ h ∈ withContents headers, h.paddr.toNat + h.size.toNat ≤ 2 ^ 64
  apart : (withContents headers).Pairwise fun h h' =>
    (h.piece file).span.Disjoint (h'.piece file).span

/-- The output is the flat image of the wanted sections, its length is returned,
and with `-r` it is filled up with zeros to a multiple of 8. -/
def MakesFlatImage (file : List UInt8) (used : Nat) (headers : List SectionHeader) : Prop :=
  let pieces := (wanted headers).map (SectionHeader.piece file)
  ∃ out rounded, writeSections file used headers = some (out, out.length) ∧
    Piece.Flat 0 pieces out ∧ writeFile file used headers false = some out ∧
    writeFile file used headers true = some rounded ∧
    Piece.LaidOut 0 (Piece.lowest pieces) pieces rounded ∧
    rounded.length = (Piece.highest pieces - Piece.lowest pieces + 7) / 8 * 8

/-- No gap between the sections that are written, a size that an `unsigned int`
can hold, and no bytes but zeros between the wanted sections from a `.comment`
section whose address does not end in a zero byte. -/
structure WritesFlat (file : List UInt8) (headers : List SectionHeader) : Prop where
  noGap : Piece.NoGap ((written headers).map (SectionHeader.piece file))
  size_lt : (((written headers).map fun h => h.size.toNat).sum) < 2 ^ 32
  comments : ∀ h ∈ written headers, h.name = commentName →
    let pieces := (wanted headers).map (SectionHeader.piece file)
    (∀ b ∈ (h.piece file).data, b = 0) ∧ Piece.lowest pieces ≤ h.paddr.toNat ∧
      h.paddr.toNat + h.size.toNat ≤ Piece.highest pieces

/-! ## The list -/

theorem insertSection_perm (new : Section) (list : List Section) :
    (insertSection new list).Perm (new :: list) := by
  induction list with
  | nil => exact .refl _
  | cons s rest ih =>
      rw [insertSection]
      split
      · exact .refl _
      · exact (ih.cons s).trans (.swap new s rest)

/-- In order of the addresses. -/
def Sorted (list : List Section) : Prop := list.Pairwise fun s t => s.physical ≤ t.physical

theorem insertSection_sorted {list : List Section} (new : Section) (h : Sorted list) :
    Sorted (insertSection new list) := by
  induction list with
  | nil => exact List.pairwise_singleton _ _
  | cons s rest ih =>
      obtain ⟨hs, hrest⟩ := List.pairwise_cons.mp h
      rw [insertSection]
      split
      · rename_i hlt
        refine List.pairwise_cons.mpr ⟨fun t ht => ?_, h⟩
        rcases List.mem_cons.mp ht with rfl | ht
        · exact Nat.le_of_lt hlt
        · exact Nat.le_trans (Nat.le_of_lt hlt) (hs t ht)
      · rename_i hle
        refine List.pairwise_cons.mpr ⟨fun t ht => ?_, ih hrest⟩
        rcases List.mem_cons.mp ((insertSection_perm new rest).mem_iff.mp ht) with rfl | ht
        · exact Nat.le_of_not_lt hle
        · exact hs t ht

theorem collectSections_spec (used : Nat) {list : List Section} (headers : List SectionHeader)
    (h : Sorted list) :
    Sorted (collectSections used list headers) ∧
      ((collectSections used list headers).map Section.header).Perm
        (list.map Section.header ++ written headers) := by
  induction headers generalizing used list with
  | nil => exact ⟨h, by simp [collectSections, written, withContents]⟩
  | cons hd headers ih =>
      rw [collectSections]
      by_cases hkeep : hd.hasContents && !hd.isComment
      · rw [if_pos hkeep]
        obtain ⟨hsorted, hperm⟩ := ih (used + 64)
          (insertSection_sorted ⟨hd, used + 64⟩ h)
        refine ⟨hsorted, hperm.trans ?_⟩
        have hwritten : written (hd :: headers) = hd :: written headers := by
          simp only [Bool.and_eq_true] at hkeep
          simp [written, withContents, hkeep]
        rw [hwritten]
        refine (((insertSection_perm _ list).map _).append_right _).trans ?_
        exact List.perm_middle.symm
      · rw [if_neg hkeep]
        obtain ⟨hsorted, hperm⟩ := ih (used + 64) h
        have hwritten : written (hd :: headers) = written headers := by
          rw [written, withContents, List.filter_filter, List.filter_cons_of_neg, written,
            withContents, List.filter_filter]
          simpa [and_comm] using hkeep
        rw [hwritten]
        exact ⟨hsorted, hperm⟩

/-! ## The output -/

/-- What a section has whose contents are in the file. -/
structure Section.Placed (file : List UInt8) (s : Section) : Prop where
  written : writeASection file s = some (s.header.piece file).data
  length_eq : (s.header.piece file).data.length = s.size
  size_pos : 0 < s.size
  size_lt : s.size < 2 ^ 31
  physical_lt : s.physical < 2 ^ 64

theorem SectionsPlaced.section_placed {file : List UInt8} {headers : List SectionHeader}
    (h : SectionsPlaced file headers) {s : Section} (hs : s.header ∈ written headers) :
    s.Placed file := by
  have hin : s.header ∈ withContents headers := (List.mem_filter.mp hs).1
  have hcontents := (List.mem_filter.mp hin).2
  simp only [SectionHeader.hasContents, Bool.and_eq_true, bne_iff_ne, ne_eq] at hcontents
  have hsize : 0 < s.size := Nat.pos_of_ne_zero fun h0 => hcontents.1 (UInt64.toNat.inj h0)
  have hscnptr : 0 < s.scnptr := Nat.pos_of_ne_zero fun h0 => hcontents.2 (UInt64.toNat.inj h0)
  have hfile : s.scnptr + s.size ≤ file.length := h.inFile _ hin
  have hint : s.scnptr + s.size ≤ 2 ^ 31 := h.inInt _ hin
  have hoffset : toInt s.scnptr = s.scnptr := toInt_of_inInt (inInt_iff.mpr (by omega))
  have hcount : toInt s.size = s.size := toInt_of_inInt (inInt_iff.mpr (by omega))
  refine ⟨?_, ?_, hsize, by omega, s.header.paddr.toNat_lt⟩
  · rw [writeASection, hoffset, hcount, copyToFile, if_pos (Int.natCast_nonneg _), Int.toNat_natCast,
      Int.toNat_natCast, if_pos ⟨Int.natCast_nonneg _, hfile⟩]
    rfl
  · simp only [SectionHeader.piece, List.length_take, List.length_drop]
    unfold Section.scnptr Section.size at hfile
    unfold Section.size
    omega

/-- The bytes of the sections. -/
def totalSize (list : List Section) : Nat := (list.map Section.size).sum

def pieces (file : List UInt8) (list : List Section) : List (Piece UInt8) :=
  list.map fun s => s.header.piece file

/-- Behind the first section: `fills` bytes of padding are written in `gaps`
places, and each of these puts the size off. -/
theorem writeList_behind {file : List UInt8} {list : List Section} {physical start : Nat}
    (size : Nat) (hplaced : ∀ s ∈ list, s.Placed file) (hstart : list ≠ [] → physical = start)
    (hascend : Piece.Ascending start (pieces file list)) :
    ∃ out total fills gaps, writeList file false physical size list = some (out, total) ∧
      out.length = totalSize list + fills ∧
      u32 total = u32 (size + totalSize list + (2 ^ 32 - 1) * gaps) ∧
      gaps ≤ totalSize list ∧
      (Piece.Contiguous start (pieces file list) → gaps = 0) ∧
      (gaps = 0 → Piece.Contiguous start (pieces file list) ∧
        out = (pieces file list).flatMap Piece.data) := by
  induction list generalizing physical start size with
  | nil => exact ⟨[], size, 0, 0, rfl, rfl, by simp [totalSize], Nat.le_refl _, fun _ => rfl,
      fun _ => ⟨trivial, rfl⟩⟩
  | cons s rest ih =>
      have hs := hplaced s List.mem_cons_self
      obtain rfl := hstart (List.cons_ne_nil s rest)
      obtain ⟨hfirst, hrest⟩ := hascend
      have hlt := hs.size_lt
      have hpos := hs.size_pos
      have hlength := hs.length_eq
      have haddr : (s.header.piece file).address = s.physical := rfl
      rw [haddr] at hfirst
      rw [haddr, hlength] at hrest
      have hwrap : rest ≠ [] → u64 (s.physical + s.size) = s.physical + s.size := by
        intro hne
        obtain ⟨t, tail, rfl⟩ := List.exists_cons_of_ne_nil hne
        have hle : s.physical + s.size ≤ t.physical := hrest.1
        have htop := (hplaced t (by simp)).physical_lt
        exact u64_of_lt (by omega)
      have htotal : totalSize (s :: rest) = s.size + totalSize rest := by simp [totalSize]
      have hbytes : (pieces file (s :: rest)).flatMap Piece.data =
          (s.header.piece file).data ++ (pieces file rest).flatMap Piece.data := rfl
      by_cases hgap : physical < s.physical
      · obtain ⟨out, total, fills, gaps, hrun, hlen, hsum, hle, -, -⟩ :=
          ih (u64 (u64 (size + (2 ^ 32 - 1)) + u32 s.size))
            (fun t ht => hplaced t (List.mem_cons_of_mem s ht)) hwrap hrest
        refine ⟨List.replicate (u32 (s.physical - physical)) 48 ++ (s.header.piece file).data ++ out,
          total, u32 (s.physical - physical) + fills, gaps + 1, ?_, ?_, ?_, by omega,
          fun hcontiguous => ?_, fun hnone => absurd hnone (Nat.succ_ne_zero gaps)⟩
        · simp [-Nat.reducePow, -Nat.reduceSub, writeList, hgap, hs.written, hrun]
        · simp only [List.length_append, List.length_replicate, hlength, hlen, htotal]
          omega
        · rw [hsum, htotal]
          simp only [u32, u64]
          omega
        · exact absurd hcontiguous.1 (by rw [haddr]; omega)
      · obtain ⟨out, total, fills, gaps, hrun, hlen, hsum, hle, hnogap, hnone⟩ :=
          ih (u64 (size + u32 s.size))
            (fun t ht => hplaced t (List.mem_cons_of_mem s ht)) hwrap hrest
        have heq : s.physical = physical := by omega
        refine ⟨(s.header.piece file).data ++ out, total, fills, gaps, ?_, ?_, ?_, by omega,
          fun hcontiguous => ?_, fun hzero => ?_⟩
        · simp [-Nat.reducePow, -Nat.reduceSub, writeList, hgap, hs.written, hrun]
        · rw [List.length_append, hlength, hlen, htotal]
          omega
        · rw [hsum, htotal]
          simp only [u32, u64]
          omega
        · have htail := hcontiguous.2
          rw [Piece.last, haddr, hlength] at htail
          exact hnogap htail
        · obtain ⟨htail, rfl⟩ := hnone hzero
          refine ⟨⟨heq, ?_⟩, hbytes.symm⟩
          rw [Piece.last, haddr, hlength]
          exact htail

section
variable {file : List UInt8} {headers : List SectionHeader}

/-- The list that is written, with the pieces of the sections. -/
theorem collected (h : SectionsPlaced file headers) (used : Nat) :
    let list := collectSections used [] headers
    (∀ s ∈ list, s.Placed file) ∧
      (pieces file list).Pairwise (fun p q => p.last ≤ q.address) ∧
      (pieces file list).Perm ((written headers).map (SectionHeader.piece file)) := by
  obtain ⟨hsorted, hperm⟩ := collectSections_spec used headers List.Pairwise.nil
  rw [List.map_nil, List.nil_append] at hperm
  intro list
  have hplaced : ∀ s ∈ list, s.Placed file := fun s hs =>
    h.section_placed (hperm.mem_iff.mp (List.mem_map_of_mem hs))
  have hpieces : (pieces file list).Perm ((written headers).map (SectionHeader.piece file)) := by
    have hmap := hperm.map (SectionHeader.piece file)
    rwa [List.map_map] at hmap
  refine ⟨hplaced, ?_, hpieces⟩
  have hapart : (written headers).Pairwise fun h h' =>
      (h.piece file).span.Disjoint (h'.piece file).span := h.apart.filter _
  have hheaders : (list.map Section.header).Pairwise fun h h' =>
      (h.piece file).span.Disjoint (h'.piece file).span :=
    (hperm.pairwise_iff fun hd => hd.symm).mpr hapart
  have hlist := List.pairwise_map.mp hheaders
  refine List.pairwise_map.mpr ((hsorted.and hlist).imp_of_mem fun {s t} hs ht hst => ?_)
  have hslen := (hplaced s hs).length_eq
  have htlen := (hplaced t ht).length_eq
  have hspos := (hplaced s hs).size_pos
  have htpos := (hplaced t ht).size_pos
  obtain ⟨hle, hdisjoint⟩ := hst
  rw [Span.disjoint_iff] at hdisjoint
  simp only [Piece.span, hslen, htlen] at hdisjoint
  change s.physical + (s.header.piece file).data.length ≤ t.physical
  simp only [SectionHeader.piece] at hdisjoint
  unfold Section.physical at hle ⊢
  omega

theorem joined_length {list : List Section} (hplaced : ∀ s ∈ list, s.Placed file) :
    ((pieces file list).flatMap Piece.data).length = totalSize list := by
  induction list with
  | nil => rfl
  | cons s rest ih =>
      have hrest := ih fun t ht => hplaced t (List.mem_cons_of_mem s ht)
      have hs := (hplaced s List.mem_cons_self).length_eq
      unfold pieces totalSize at hrest ⊢
      rw [List.map_cons, List.flatMap_cons, List.length_append, hrest, hs, List.map_cons,
        List.sum_cons]

/-- The returned size is the length of the output exactly if there is no gap and
the size fits. -/
theorem writeSections_spec (h : SectionsPlaced file headers) (used : Nat) :
    ∃ out size, writeSections file used headers = some (out, size) ∧
      (size = out.length ↔ Piece.NoGap ((written headers).map (SectionHeader.piece file)) ∧
        ((written headers).map fun h => h.size.toNat).sum < 2 ^ 32) ∧
      (Piece.NoGap ((written headers).map (SectionHeader.piece file)) →
        Piece.Flat 0 ((written headers).map (SectionHeader.piece file)) out) := by
  obtain ⟨hplaced, hpairwise, hperm⟩ := collected h used
  have hgap := Piece.NoGap.of_mem_iff fun p => hperm.mem_iff (a := p)
  have hsum : ((written headers).map fun h => h.size.toNat).sum =
      totalSize (collectSections used [] headers) := by
    have hheaders := (collectSections_spec used headers List.Pairwise.nil).2
    have hsizes := hheaders.map fun h => h.size.toNat
    rw [List.map_nil, List.nil_append, List.map_map] at hsizes
    exact hsizes.sum_nat.symm
  rw [← hgap, hsum, writeSections]
  cases hlist : collectSections used [] headers with
  | nil =>
      rw [hlist] at hperm
      refine ⟨[], 0, rfl, ?_, fun _ => ?_⟩
      · simp [pieces, totalSize, Piece.NoGap]
      · rw [List.nil_perm.mp hperm]
        exact ⟨⟨by simp, by simp⟩, rfl⟩
  | cons s rest =>
      rw [hlist] at hplaced hpairwise hperm
      have hs := hplaced s List.mem_cons_self
      have hrest : ∀ t ∈ rest, t.Placed file := fun t ht => hplaced t (List.mem_cons_of_mem s ht)
      have hlast : (s.header.piece file).last = s.physical + s.size := by
        rw [Piece.last, hs.length_eq]
        rfl
      have hpos : ∀ p ∈ pieces file (s :: rest), p.data ≠ [] := by
        intro p hp
        obtain ⟨t, ht, rfl⟩ := List.mem_map.mp hp
        have hlen := (hplaced t ht).length_eq
        have hsize := (hplaced t ht).size_pos
        exact List.ne_nil_of_length_pos (by omega)
      obtain ⟨hfirst, htail⟩ := List.pairwise_cons.mp hpairwise
      have hascend := Piece.Ascending.of_pairwise htail hfirst
      have hwrap : rest ≠ [] → u64 (s.physical + s.size) = (s.header.piece file).last := by
        intro hne
        obtain ⟨t, tail, rfl⟩ := List.exists_cons_of_ne_nil hne
        have hle : (s.header.piece file).last ≤ t.physical := hascend.1
        have htop := (hrest t (by simp)).physical_lt
        rw [hlast] at hle ⊢
        exact u64_of_lt (by omega)
      obtain ⟨out, total, fills, gaps, hrun, hlen, hsize, hgaps, hnogap, hnone⟩ :=
        writeList_behind (u64 (0 + u32 s.size)) hrest hwrap hascend
      have hcontiguous : Piece.NoGap (pieces file (s :: rest)) ↔ gaps = 0 :=
        ⟨fun h => hnogap (Piece.NoGap.contiguous h hascend hpos),
          fun h => Piece.Contiguous.noGap
            (show Piece.Contiguous s.physical (pieces file (s :: rest)) from ⟨rfl, (hnone h).1⟩)⟩
      have htotal : totalSize (s :: rest) = s.size + totalSize rest := by simp [totalSize]
      have hslt := hs.size_lt
      have hspos := hs.size_pos
      refine ⟨(s.header.piece file).data ++ out, u32 total, ?_, ?_, fun h => ?_⟩
      · rw [Nat.zero_add] at hrun
        simp [writeList, hs.written, hrun]
      · rw [hcontiguous, htotal, hsize, List.length_append, hs.length_eq, hlen]
        have hfills : gaps = 0 → fills = 0 := by
          intro h
          have hjoined := joined_length hrest
          rw [← (hnone h).2, hlen] at hjoined
          omega
        simp only [u32, u64] at hsize ⊢
        constructor
        · intro heq
          omega
        · rintro ⟨rfl, hlt⟩
          have := hfills rfl
          omega
      · obtain ⟨htail, rfl⟩ := hnone (hcontiguous.mp h)
        have hjoined : Piece.Contiguous s.physical (pieces file (s :: rest)) := ⟨rfl, htail⟩
        exact (hjoined.flat hpos).of_mem_iff fun p => hperm.mem_iff

theorem SectionsPlaced.disjoint (h : SectionsPlaced file headers) {hd hd' : SectionHeader}
    (hin : hd ∈ withContents headers) (hin' : hd' ∈ withContents headers) (hne : hd ≠ hd') :
    (hd.piece file).span.Disjoint (hd'.piece file).span := by
  have hsymm : Std.Symm fun a b : SectionHeader =>
      (a.piece file).span.Disjoint (b.piece file).span := ⟨fun _ _ hab => hab.symm⟩
  exact h.apart.forall hin hin' hne

theorem SectionsPlaced.data_ne_nil (h : SectionsPlaced file headers) {hd : SectionHeader}
    (hin : hd ∈ written headers) : (hd.piece file).data ≠ [] := by
  have hplaced := h.section_placed (s := ⟨hd, 0⟩) hin
  have hlen : (hd.piece file).data.length = hd.size.toNat := hplaced.length_eq
  have hpos : 0 < hd.size.toNat := hplaced.size_pos
  exact List.ne_nil_of_length_pos (hlen ▸ hpos)

/-- The piece of a header is wanted if the header is, and only then. -/
theorem piece_mem_wanted (h : SectionsPlaced file headers) {hd : SectionHeader}
    (hin : hd ∈ written headers) :
    hd.piece file ∈ (wanted headers).map (SectionHeader.piece file) ↔ hd.name ≠ commentName := by
  have hcontents := (List.mem_filter.mp hin).1
  constructor
  · intro hmem hname
    obtain ⟨other, hother, heq⟩ := List.mem_map.mp hmem
    obtain ⟨hother', hnamed⟩ := List.mem_filter.mp hother
    have hne : other ≠ hd := by
      rintro rfl
      simp [hname] at hnamed
    have hapart := h.disjoint hother' hcontents hne
    rw [heq] at hapart
    have hlast := Piece.address_lt_last (h.data_ne_nil hin)
    have hfirst : (hd.piece file).address ∈ (hd.piece file).span :=
      Span.mem_def.mpr ⟨Nat.le_refl _, hlast⟩
    exact hapart _ hfirst hfirst
  · intro hname
    exact List.mem_map_of_mem (List.mem_filter.mpr ⟨hcontents, by simpa using hname⟩)

theorem wanted_subset_written : ∀ p ∈ (wanted headers).map (SectionHeader.piece file),
    p ∈ (written headers).map (SectionHeader.piece file) := by
  intro p hp
  obtain ⟨hd, hin, rfl⟩ := List.mem_map.mp hp
  obtain ⟨hcontents, hname⟩ := List.mem_filter.mp hin
  refine List.mem_map_of_mem (List.mem_filter.mpr ⟨hcontents, ?_⟩)
  have hne : hd.name ≠ commentName := by simpa using hname
  -- a name of eight bytes is compared as a whole
  have hprefix : (hd.name ++ QuadText.leBytes 8 hd.paddr.toNat).take 9 ≠ commentName ++ [0] := by
    intro heq
    have hshort := congrArg (List.take 8) heq
    rw [List.take_take, List.take_append_of_le_length (by rw [hd.name_length]; decide),
      List.take_of_length_le (by rw [hd.name_length]; decide)] at hshort
    exact hne hshort
  simpa [SectionHeader.isComment] using hprefix

/-- Rounding with the right length. -/
theorem roundUp (n : Nat) :
    n + (if n &&& 7 ≠ 0 then 8 - (n &&& 7) else 0) = (n + 7) / 8 * 8 := by
  have hmask : n &&& 7 = n % 8 := Nat.and_two_pow_sub_one_eq_mod n 3
  rw [hmask]
  split <;> omega

/-- For sections whose contents lie within the range of an `int`, the output is
the flat image with the right size exactly if there is no gap, the size fits, and
the `.comment` sections that are not recognised do no harm. -/
theorem makesFlatImage_iff (h : SectionsPlaced file headers) (used : Nat) :
    MakesFlatImage file used headers ↔ WritesFlat file headers := by
  obtain ⟨out, size, hrun, hsize, hflat⟩ := writeSections_spec h used
  have hpos : ∀ p ∈ (written headers).map (SectionHeader.piece file), p.data ≠ [] := by
    intro p hp
    obtain ⟨hd, hin, rfl⟩ := List.mem_map.mp hp
    exact h.data_ne_nil hin
  have hapart : ∀ p ∈ (written headers).map (SectionHeader.piece file),
      ∀ q ∈ (written headers).map (SectionHeader.piece file), p ≠ q → p.span.Disjoint q.span := by
    intro p hp q hq hne
    obtain ⟨hd, hin, rfl⟩ := List.mem_map.mp hp
    obtain ⟨hd', hin', rfl⟩ := List.mem_map.mp hq
    exact h.disjoint (List.mem_filter.mp hin).1 (List.mem_filter.mp hin').1 fun heq =>
      hne (heq ▸ rfl)
  have hcomments : Piece.NoGap ((written headers).map (SectionHeader.piece file)) →
      (Piece.Flat 0 ((wanted headers).map (SectionHeader.piece file)) out ↔
        ∀ hd ∈ written headers, hd.name = commentName →
          let pieces := (wanted headers).map (SectionHeader.piece file)
          (∀ b ∈ (hd.piece file).data, b = 0) ∧ Piece.lowest pieces ≤ hd.paddr.toNat ∧
            hd.paddr.toNat + hd.size.toNat ≤ Piece.highest pieces) := by
    intro hgap
    rw [(hflat hgap).sub_iff wanted_subset_written hpos hapart, List.forall_mem_map]
    refine forall₂_congr fun hd hin => ?_
    rw [piece_mem_wanted h hin, not_not]
    have hlast : (hd.piece file).last = hd.paddr.toNat + hd.size.toNat := by
      have hplaced := h.section_placed (s := ⟨hd, 0⟩) hin
      have hlen : (hd.piece file).data.length = hd.size.toNat := hplaced.length_eq
      rw [Piece.last, hlen]
      rfl
    rw [hlast]
    rfl
  constructor
  · rintro ⟨out', rounded, hout, himage, -⟩
    obtain ⟨rfl, rfl⟩ : out = out' ∧ size = out.length := by
      have heq := Option.some.inj (hrun.symm.trans hout)
      obtain ⟨rfl, rfl⟩ := Prod.mk.inj heq
      exact ⟨rfl, rfl⟩
    obtain ⟨hgap, hlt⟩ := hsize.mp rfl
    exact ⟨hgap, hlt, (hcomments hgap).mp himage⟩
  · rintro ⟨hgap, hlt, hothers⟩
    obtain rfl := hsize.mpr ⟨hgap, hlt⟩
    have himage := (hcomments hgap).mpr hothers
    have hround := roundUp out.length
    rw [himage.length_eq] at hround
    refine ⟨out, out ++ List.replicate (if out.length &&& 7 ≠ 0 then 8 - (out.length &&& 7) else 0) 0,
      hrun, himage, by simp [writeFile, hrun], ?_, himage.laidOut.append_blanks _, ?_⟩
    · rw [writeFile, hrun]
      by_cases haligned : out.length &&& 7 ≠ 0
      · simp [haligned]
      · simp [haligned]
    · rw [List.length_append, List.length_replicate, himage.length_eq]
      exact hround

/-- One section of one byte. -/
def oneSection : SectionHeader := ⟨[46, 116, 101, 120, 116, 0, 0, 0], 0x2000, 1, 1, rfl⟩

theorem oneSection_makesFlatImage :
    MakesFlatImage [0, 7] 64 [oneSection] ↔ WritesFlat [0, 7] [oneSection] :=
  makesFlatImage_iff
    ⟨by decide, by decide, by decide, by decide⟩ 64

/-- The gap of one byte between two sections is filled with a digit. -/
theorem gap_filled_with_digit :
    ¬ MakesFlatImage [0, 7, 8] 64
      [oneSection, ⟨[46, 100, 97, 116, 97, 0, 0, 0], 0x2002, 1, 2, rfl⟩] := by
  rintro ⟨out, rounded, hout, -⟩
  have hrun : writeSections [0, 7, 8] 64
      [oneSection, ⟨[46, 100, 97, 116, 97, 0, 0, 0], 0x2002, 1, 2, rfl⟩] =
      some ([7, 48, 8], 1) := by decide
  rw [hrun] at hout
  obtain ⟨rfl, hlen⟩ := Prod.mk.inj (Option.some.inj hout)
  simp at hlen

end

end Milo.Tools
