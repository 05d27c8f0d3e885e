import Milo.Fs.IsoTurn

/-! # Scanning an iso9660 directory

The loop of `isofs_find_entry` goes through the records of a directory in the
order in which they lie there, and what it finds is the first one that is visible
and has the name.
-/

namespace Milo.Fs.Isofs

open Foundation

/-! ## Blocks and records -/

theorem readBlock_spec {r : Reader} (hreads : AllReads r.drive) (block : Nat)
    (hblock : block < 2 ^ 32) : BlockRead r block (readBlock r block) :=
  readBlock_read hblock (hreads r.t (block * blocksize) blocksize)

/-- On the identifiers that a disc should have. -/
theorem recTaken_readable (sb : IsofsSb) {contents : ByteMemory} (name : List UInt8) {a : Nat}
    (hreadable : Readable (recIdentifier contents a)) :
    recTaken sb contents name a = recHits sb contents name a := by
  unfold recTaken recHits
  rw [nameMatches_readable name hreadable]

/-- What the check of a record gives, and what it leaves of the two buffers. -/
structure CheckedRecord (r : Reader) (itp : InodeEntry) (place : Place) (contents : ByteMemory) (a : Nat)
    (name : List UInt8) (result : Check × Reader) : Prop where
  check : result.1 =
    if recHits r.sb contents name a = true then
      .found (entryOf (foundAs r.sb itp a (recIdentifier contents a)))
    else .next
  left : CheckKeeps r place contents a result.2

theorem checkRecord_spec {r : Reader} {place : Place} {contents : ByteMemory} {a : Nat}
    (itp : InodeEntry) (name : List UInt8) (hagree : Agrees contents a (r.buffer place.big) place.de)
    (hreadable : Readable (recIdentifier contents a)) :
    CheckedRecord r itp place contents a name (checkRecord r itp place a name) := by
  obtain ⟨r', hcheck, hleft⟩ := checkRecord_eq itp a name hagree
  rw [hcheck, recTaken_readable r.sb name hreadable]
  exact ⟨rfl, hleft⟩

/-! ## The records of a directory -/

/-- The records of a directory from byte `a` on, up to its end. -/
inductive Records (contents : ByteMemory) (stop : Nat) : Nat → List Nat → Prop where
  | done : Records contents stop stop []
  | skip (a : Nat) (recs : List Nat) (hinside : a < stop) (hzero : contents a = 0)
      (hrest : Records contents stop (nextSector a) recs) : Records contents stop a recs
  | record (a : Nat) (recs : List Nat)
      (hname : recName + (contents (a + recNameLen)).toNat ≤ recLength contents a)
      (hinside : a < stop)
      (hrest : Records contents stop (a + recLength contents a) recs) :
      Records contents stop a (a :: recs)

theorem nextSector_of_le {lo a : Nat} (hlo : nextSector lo = lo + isofsBlockSize) (hle : lo ≤ a)
    (hlt : a < lo + isofsBlockSize) : nextSector a = lo + isofsBlockSize := by
  unfold nextSector at hlo ⊢
  have hpos : 0 < isofsBlockSize := by decide
  have hlow : lo / isofsBlockSize * isofsBlockSize = lo := by omega
  have hsame : a / isofsBlockSize = lo / isofsBlockSize := by
    rw [Nat.div_eq_iff hpos]
    omega
  rw [hsame, hlow]

theorem SectorRecords.records {contents : ByteMemory} {stop a finish : Nat}
    {recs follow : List Nat} (lo : Nat) (h : SectorRecords contents stop a recs) (hstop : stop = nextSector lo)
    (hlo : nextSector lo = lo + isofsBlockSize) (ha : lo ≤ a) (hfinish : stop ≤ finish)
    (hfollow : Records contents finish stop follow) :
    Records contents finish a (recs ++ follow) := by
  induction h with
  | full => exact hfollow
  | zero a hinside hzero =>
      have hnext := nextSector_of_le hlo ha (by omega)
      rw [hstop, hlo, ← hnext] at hfollow
      exact .skip a follow (by omega) hzero hfollow
  | record a rest hname hfits hrest ih =>
      have hlength : recName ≤ recLength contents a := by omega
      unfold recName at hlength
      exact .record a (rest ++ follow) hname (by omega) (ih (by omega))

theorem HoldsRecords.records {contents : ByteMemory} {base size : Nat} {records : List (List Nat)}
    (h : HoldsRecords contents base size records) :
    Records contents (base + size) base records.flatten := by
  have hsize := h.size
  have haligned := h.aligned
  unfold isofsBlockSize at hsize haligned
  have hfrom : ∀ left k, left + k = records.length →
      Records contents (base + size) (base + isofsBlockSize * k) (records.drop k).flatten := by
    intro left
    induction left with
    | zero =>
        intro k hk
        rw [List.drop_eq_nil_of_le (by omega), List.flatten_nil]
        have hstop : base + isofsBlockSize * k = base + size := by
          unfold isofsBlockSize
          omega
        rw [hstop]
        exact .done
    | succ left ih =>
        intro k hk
        have hlt : k < records.length := by omega
        have hsector := h.sectors k records[k] (List.getElem?_eq_getElem hlt)
        have hrest := ih (k + 1) (by omega)
        rw [List.drop_eq_getElem_cons hlt, List.flatten_cons]
        refine hsector.records (base + isofsBlockSize * k) ?_ ?_ (Nat.le_refl _) ?_ hrest
        · unfold nextSector isofsBlockSize
          omega
        · unfold nextSector isofsBlockSize
          omega
        · unfold isofsBlockSize
          omega
  have hall := hfrom records.length 0 (by omega)
  rwa [List.drop_zero, Nat.mul_zero, Nat.add_zero] at hall

theorem Records.le {contents : ByteMemory} {stop a : Nat} {recs : List Nat}
    (h : Records contents stop a recs) : a ≤ stop := by
  cases h with
  | done => exact Nat.le_refl _
  | skip _ _ hinside => exact Nat.le_of_lt hinside
  | record _ _ _ hinside => exact Nat.le_of_lt hinside

theorem lt_nextSector (a : Nat) : a < nextSector a := by
  unfold nextSector
  have hpos : 0 < isofsBlockSize := by decide
  have hmod := Nat.mod_lt a hpos
  have hdiv := Nat.div_add_mod' a isofsBlockSize
  omega

/-- The records from a byte on lie behind it. -/
theorem Records.ge {contents : ByteMemory} {stop a b : Nat} {recs : List Nat}
    (h : Records contents stop a recs) (hb : b ∈ recs) : a ≤ b := by
  induction h with
  | done => cases hb
  | skip a recs _ _ _ ih => exact Nat.le_trans (Nat.le_of_lt (lt_nextSector a)) (ih hb)
  | record a recs _ _ _ ih =>
      rcases List.mem_cons.mp hb with rfl | hb
      · exact Nat.le_refl _
      · exact Nat.le_trans (Nat.le_add_right a (recLength contents a)) (ih hb)

/-- A record of a directory lies inside of it. -/
theorem Records.inside {contents : ByteMemory} {stop a b : Nat} {recs : List Nat}
    (h : Records contents stop a recs) (hb : b ∈ recs) : b < stop := by
  induction h with
  | done => cases hb
  | skip a recs _ _ _ ih => exact ih hb
  | record a recs _ hinside _ ih =>
      rcases List.mem_cons.mp hb with rfl | hb
      · exact hinside
      · exact ih hb

/-! ## The scan -/

/-- What a scan of the records from byte `p` on gives. -/
structure Scanned (r : Reader) (itp : InodeEntry) (name : List UInt8) (p : Nat) (recs : List Nat)
    (result : Option (Nat × Nat) × Reader) : Prop where
  entry : result.1 = (recs.find? (recHits r.sb r.drive.contents name)).bind fun a =>
    entryOf (foundAs r.sb itp a (recIdentifier r.drive.contents a))
  keeps : Keeps r result.2
  header : ∀ a, recs.find? (recHits r.sb r.drive.contents name) = some a →
    Crosses r.drive.contents a → ∀ j < recName, result.2.bigDataBlock j = r.drive.contents (a + j)
  -- A record in the block of `p` is found without `big_data_block`.
  still : ∀ a, recs.find? (recHits r.sb r.drive.contents name) = some a →
    (a + recLength r.drive.contents a) / blocksize = p / blocksize →
      result.2.bigDataBlock = r.bigDataBlock

/-- A scan goes on behind a record that it does not stop at, or in the next sector. -/
theorem Scanned.of_rest {r r' : Reader} {itp : InodeEntry} {name : List UInt8}
    {p p' stop : Nat} {recs recs' : List Nat} {result : Option (Nat × Nat) × Reader}
    (hkeeps : Keeps r r')
    (hfind : recs.find? (recHits r.sb r.drive.contents name) =
      recs'.find? (recHits r.sb r.drive.contents name))
    (hle : p ≤ p') (hbig : p' / blocksize = p / blocksize → r'.bigDataBlock = r.bigDataBlock)
    (hrest : Records r.drive.contents stop p' recs')
    (h : Scanned r' itp name p' recs' result) : Scanned r itp name p recs result := by
  have hentry := h.entry
  have hheader := h.header
  have hstill := h.still
  rw [hkeeps.sb, hkeeps.drive, ← hfind] at hentry hheader hstill
  refine ⟨hentry, hkeeps.trans h.keeps, hheader, ?_⟩
  intro a hfound hblock
  have hmem := List.mem_of_find?_eq_some (hfind ▸ hfound)
  have hge := hrest.ge hmem
  have hlow : p / blocksize ≤ p' / blocksize := Nat.div_le_div_right hle
  have hhigh : p' / blocksize ≤ (a + recLength r.drive.contents a) / blocksize :=
    Nat.div_le_div_right (Nat.le_trans hge (Nat.le_add_right a _))
  rw [hstill a hfound (by omega), hbig (by omega)]

/-- A scan stops at a record that it finds. -/
theorem Scanned.of_hit {r r' : Reader} {itp : InodeEntry} {name : List UInt8} {a : Nat}
    {recs : List Nat} (hkeeps : Keeps r r') (hhit : recHits r.sb r.drive.contents name a = true)
    (hheader : Crosses r.drive.contents a → ∀ j < recName,
      r'.bigDataBlock j = r.drive.contents (a + j))
    (hstill : ¬ Crosses r.drive.contents a → r'.bigDataBlock = r.bigDataBlock) :
    Scanned r itp name a (a :: recs)
      (entryOf (foundAs r.sb itp a (recIdentifier r.drive.contents a)), r') := by
  have hfind : (a :: recs).find? (recHits r.sb r.drive.contents name) = some a := by
    rw [List.find?_cons_of_pos hhit]
  refine ⟨by rw [hfind, Option.bind_some], hkeeps, ?_, ?_⟩
  · intro b hb
    rw [hfind] at hb
    cases hb
    exact hheader
  · intro b hb hblock
    rw [hfind] at hb
    cases hb
    exact hstill (not_crosses hblock)

/-- What the loop does after the check of a record. -/
def proceed (next : Reader → Option (Nat × Nat) × Reader) :
    Check × Reader → Option (Nat × Nat) × Reader
  | (.next, r) => next r
  | (.found entry, r) => (entry, r)

theorem CheckedRecord.scanned {r r₀ : Reader} {itp : InodeEntry} {place : Place} {name : List UInt8}
    {a stop : Nat} {recs : List Nat} {result : Check × Reader}
    (hchecked : CheckedRecord r itp place r₀.drive.contents a name result) (hkeeps : Keeps r₀ r)
    (hheader : Crosses r₀.drive.contents a → ∀ j < recName,
      result.2.bigDataBlock j = r₀.drive.contents (a + j))
    (hstill : ¬ Crosses r₀.drive.contents a → result.2.bigDataBlock = r₀.bigDataBlock)
    (hrest : Records r₀.drive.contents stop (a + recLength r₀.drive.contents a) recs)
    (next : Reader → Option (Nat × Nat) × Reader)
    (hnext : Scanned result.2 itp name (a + recLength r₀.drive.contents a) recs (next result.2)) :
    Scanned r₀ itp name a (a :: recs) (proceed next result) := by
  have hcheck := hchecked.check
  have hall := hkeeps.trans hchecked.left.keeps
  rw [hkeeps.sb] at hcheck
  obtain ⟨check, r'⟩ := result
  by_cases hhit : recHits r₀.sb r₀.drive.contents name a = true
  · rw [if_pos hhit] at hcheck
    simp only at hcheck
    subst hcheck
    exact .of_hit hall hhit hheader hstill
  · rw [if_neg hhit] at hcheck
    simp only at hcheck
    subst hcheck
    refine .of_rest hall (List.find?_cons_of_neg hhit) (Nat.le_add_right a _) ?_ hrest hnext
    exact fun hblock => hstill (not_crosses hblock)

/-- A byte of zero: the scan goes on in the next sector. -/
theorem findLoop_skip {r : Reader} {itp : InodeEntry} {base size fPos offset block : Nat}
    (name : List UInt8) (inoBack n : Nat) (hdir : DirAt itp base size)
    (hreads : AllReads r.drive) (hat : ScanAt r (base + fPos) offset block) (hlt : fPos < size)
    (hzero : r.drive.contents (base + fPos) = 0) :
    ∃ r' block', findLoop r itp name inoBack fPos offset block (n + 1) =
        findLoop r' itp name inoBack (nextSector fPos) 0 block' n ∧
      Keeps r r' ∧ r'.bigDataBlock = r.bigDataBlock ∧
      ScanAt r' (base + nextSector fPos) 0 block' := by
  have hnear := nextSector_near fPos
  have hread := readBlock_spec hreads _ (hdir.on.block_lt (show nextSector fPos ≤ _ by omega))
  refine ⟨_, _, ?_, hread.keeps, hread.big, scanAt_nextSector hdir.on hread⟩
  rw [findLoop_succ, findTurn_skip name inoBack hdir.on hat hlt hzero, if_pos hread.ok]

theorem findLoop_record {r : Reader} {itp : InodeEntry} {base size fPos offset block p : Nat}
    (name : List UInt8) (inoBack n : Nat) (hdir : DirAt itp base size)
    (hreads : AllReads r.drive) (hp : p = base + fPos) (hat : ScanAt r p offset block)
    (hlong : recName ≤ recLength r.drive.contents p)
    (hlast : p + recLength r.drive.contents p ≤ base + size) :
    ∃ r' place offset' block', findLoop r itp name inoBack fPos offset block (n + 1) =
        proceed (fun s =>
            findLoop s itp name inoBack (fPos + recLength r.drive.contents p) offset' block' n)
          (checkRecord r' itp place p name) ∧
      Turn r r' p place offset' block' := by
  have hinside := hdir.inside
  unfold recName at hlong
  obtain ⟨r', place, offset', block', hfound, hturn⟩ := findTurn_record name inoBack hdir.on hp hat
    (by omega) (by omega) (fun _ => hreads r.t ((block + 1) * blocksize) blocksize)
  rw [u32_of_lt (show p < 2 ^ 32 by omega)] at hfound
  refine ⟨r', place, offset', block', ?_, hturn⟩
  rw [findLoop_succ, hfound]
  generalize checkRecord r' itp place p name = checked
  obtain ⟨check, s⟩ := checked
  cases check <;> rfl

/-- The loop finds the first record from its place on that has the name. -/
theorem findLoop_spec {contents : ByteMemory} {itp : InodeEntry} {name : List UInt8}
    {base size inoBack p : Nat} {recs : List Nat} (hdir : DirAt itp base size)
    (hrecs : Records contents (base + size) p recs)
    (hreadable : ∀ a ∈ recs, Readable (recIdentifier contents a)) {r : Reader}
    (hreads : AllReads r.drive) (hcontents : r.drive.contents = contents)
    {fPos offset block n : Nat} (hp : p = base + fPos) (hat : ScanAt r p offset block)
    (hfuel : size - fPos < n) :
    Scanned r itp name p recs (findLoop r itp name inoBack fPos offset block n) := by
  have hsize := hdir.size_eq
  induction hrecs generalizing r fPos offset block n with
  | done =>
      obtain ⟨n, rfl⟩ : ∃ m, n = m + 1 := ⟨n - 1, by omega⟩
      unfold findLoop
      rw [if_pos (by omega)]
      exact ⟨rfl, Keeps.refl r, fun a ha => absurd ha.symm (Option.some_ne_none a),
        fun a ha => absurd ha.symm (Option.some_ne_none a)⟩
  | skip p recs hlt hzero hrest ih =>
      obtain ⟨n, rfl⟩ : ∃ m, n = m + 1 := ⟨n - 1, by omega⟩
      subst hp
      have hmore := lt_nextSector fPos
      have hnext := hdir.nextSector fPos
      obtain ⟨r', block', hturn, hkeeps, hbig, hscan⟩ := findLoop_skip name inoBack n hdir
        hreads hat (by omega) (by rw [hcontents, hzero])
      rw [← hnext] at hrest ih
      rw [hturn]
      refine .of_rest hkeeps rfl (by omega) (fun _ => hbig) (hcontents ▸ hrest) ?_
      exact ih hreadable (hkeeps.drive ▸ hreads) (hkeeps.drive ▸ hcontents) rfl hscan (by omega)
  | record p recs hname hlt hrest ih =>
      obtain ⟨n, rfl⟩ : ∃ m, n = m + 1 := ⟨n - 1, by omega⟩
      subst hcontents
      have hlong : recName ≤ recLength r.drive.contents p := by omega
      obtain ⟨r', place, offset', block', hturns, hturn⟩ := findLoop_record name inoBack n
        hdir hreads hp hat hlong hrest.le
      have hkeeps := hturn.keeps
      have hagree : Agrees r.drive.contents p (r'.buffer place.big) place.de :=
        fun j hj => hturn.agrees j (by omega)
      have hchecked := checkRecord_spec itp name hagree (hreadable p List.mem_cons_self)
      have hall := hkeeps.trans hchecked.left.keeps
      have hrest' := ih (fun a ha => hreadable a (List.mem_cons_of_mem p ha))
        (hall.drive ▸ hreads) (congrArg Drive.contents hall.drive)
        (show p + recLength r.drive.contents p = base + (fPos + recLength r.drive.contents p) by omega)
        (hturn.scanAt_checked hname hchecked.left)
        (show size - (fPos + recLength r.drive.contents p) < n by unfold recName at hlong; omega)
      rw [hturns]
      refine hchecked.scanned hkeeps (fun hcross j hj => ?_) (fun hstays => ?_) hrest
        (fun s => findLoop s itp name inoBack (fPos + recLength r.drive.contents p) offset' block' n)
        hrest'
      · have hheader := hchecked.left.header j hj
        rw [hagree j (by omega)] at hheader
        cases hturn.crossing hcross
        rw [Nat.zero_add] at hheader
        exact hheader
      · have hinside := hturn.inside hstays
        have hother := hchecked.left.other
        cases hinside.2.1
        rw [hinside.1] at hother
        exact hother

/-- A directory is scanned from its first record on. -/
theorem isofsFindEntry_spec {r : Reader} {dir base size inoBack : Nat} {name : List UInt8}
    {records : List (List Nat)} (hdir : DirAt (r.table dir) base size) (hreads : AllReads r.drive)
    (hholds : HoldsRecords r.drive.contents base size records)
    (hreadable : ∀ a ∈ records.flatten, Readable (recIdentifier r.drive.contents a)) :
    Scanned r (r.table dir) name base records.flatten (isofsFindEntry r dir name inoBack) := by
  have hpositive := hdir.positive
  have hinside := hdir.inside
  have hmap : isofsBmap (r.table dir) 0 = base / blocksize := hdir.on.bmap 0 (Nat.zero_le _)
  have hblock : base / blocksize ≠ 0 := hdir.on.block_pos 0
  have hread := readBlock_spec hreads (base / blocksize)
    (by have hle := Nat.div_le_self base blocksize
        omega)
  have hstart : base % blocksize = 0 := by
    have haligned := hdir.aligned
    unfold isofsBlockSize at haligned
    unfold blocksize
    omega
  have hscan := hread.scanAt (p := base) rfl
  rw [hstart] at hscan
  unfold isofsFindEntry
  simp only
  rw [if_neg (by rw [hdir.base_eq]; omega), hmap, if_neg hblock, if_pos hread.ok]
  have hrecords := hholds.records
  have hfuel : size - 0 < (r.table dir).size.toNat + 1 := by
    rw [hdir.size_eq]
    omega
  refine .of_rest hread.keeps rfl (Nat.le_refl base) (fun _ => hread.big) hrecords ?_
  exact findLoop_spec hdir hrecords hreadable (hread.keeps.drive ▸ hreads)
    (congrArg Drive.contents hread.keeps.drive) (Nat.add_zero base).symm hscan hfuel

end Milo.Fs.Isofs
