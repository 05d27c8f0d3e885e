import Milo.Fs.IsoScan

/-! # What a search of an iso9660 directory comes to

A search is told here from the disc alone: which blocks are read, which records are
examined, and how it ends. `isofs_find_entry` searches so as long as each record that
it examines holds its own name.
-/

namespace Milo.Fs.Isofs

open Foundation

/-! ## Searches -/

/-- A record is as long as its fields and its name. -/
def WholeRecord (contents : ByteMemory) (a : Nat) : Prop :=
  recName + (contents (a + recNameLen)).toNat ≤ recLength contents a

theorem WholeRecord.length {contents : ByteMemory} {a : Nat} (h : WholeRecord contents a) :
    recName ≤ recLength contents a :=
  Nat.le_trans (Nat.le_add_right recName _) h

theorem recLength_eq_zero {contents : ByteMemory} {a : Nat} :
    recLength contents a = 0 ↔ contents a = 0 :=
  UInt8.toNat_inj (b := 0)

theorem Crosses.nonzero {contents : ByteMemory} {a : Nat} (h : Crosses contents a) :
    recLength contents a ≠ 0 := by
  have hmod := Nat.mod_lt a (show 0 < blocksize by decide)
  unfold Crosses at h
  omega

/-- How a search ends: with a record, without one, or at a block that cannot be read,
which may be the second block of a record. -/
inductive Outcome where
  | absent
  | found (a : Nat)
  | failed (second : Bool)

/-- What `isofs_find_entry` returns. -/
def Outcome.entry (sb : IsofsSb) (itp : InodeEntry) (contents : ByteMemory) (inoBack : Nat) :
    Outcome → Option (Nat × Nat)
  | .absent => none
  | .found a => entryOf (foundAs sb itp (u32 a) (recIdentifier contents a))
  | .failed second => if second then some (0, inoBack) else none

section
variable (drive : Drive) (taken : Nat → Bool) (base size : Nat)

/-- How many reads a record takes in addition. -/
def secondReads (a : Nat) : Nat := if Crosses drive.contents a then 1 else 0

/-- All of a record is read. -/
def RecordRead (t a : Nat) : Prop :=
  Crosses drive.contents a → ReadsBlock (drive.device t) (a / blocksize + 1)

/-- A search from byte `f` of a directory on after `t` reads of the drive. -/
inductive Scans : Nat → Nat → List ScanEvent → Outcome → Prop where
  | done (t f : Nat) (hend : size ≤ f) : Scans t f [] .absent
  | stops (t f : Nat) (hlt : f < size) (hzero : drive.contents (base + f) = 0)
      (hfail : ¬ ReadsBlock (drive.device t) ((base + nextSector f) / blocksize)) :
      Scans t f [.read ((base + nextSector f) / blocksize) false] (.failed false)
  | skip (t f : Nat) (events : List ScanEvent) (outcome : Outcome) (hlt : f < size)
      (hzero : drive.contents (base + f) = 0)
      (hread : ReadsBlock (drive.device t) ((base + nextSector f) / blocksize))
      (hrest : Scans (t + 1) (nextSector f) events outcome) :
      Scans t f (.read ((base + nextSector f) / blocksize) true :: events) outcome
  | cut (t f : Nat) (hlt : f < size) (hcut : ¬ RecordRead drive t (base + f)) :
      Scans t f [.read ((base + f) / blocksize + 1) false] (.failed true)
  | hit (t f : Nat) (hlt : f < size) (hwhole : WholeRecord drive.contents (base + f))
      (hread : RecordRead drive t (base + f)) (htaken : taken (base + f) = true) :
      Scans t f (secondRead drive.contents (base + f) ++ [.examined (u32 (base + f))])
        (.found (base + f))
  | miss (t f : Nat) (events : List ScanEvent) (outcome : Outcome) (hlt : f < size)
      (hwhole : WholeRecord drive.contents (base + f))
      (hread : RecordRead drive t (base + f)) (hmiss : taken (base + f) = false)
      (hrest : Scans (t + secondReads drive (base + f))
        (f + recLength drive.contents (base + f)) events outcome) :
      Scans t f (secondRead drive.contents (base + f) ++ [.examined (u32 (base + f))] ++ events)
        outcome

/-- A search of a directory after `t` reads of the drive. -/
inductive Searches (t : Nat) : List ScanEvent → Outcome → Prop where
  | unread (hfail : ¬ ReadsBlock (drive.device t) (base / blocksize)) :
      Searches t [.read (base / blocksize) false] (.failed false)
  | read (events : List ScanEvent) (outcome : Outcome)
      (hread : ReadsBlock (drive.device t) (base / blocksize))
      (hscan : Scans drive taken base size (t + 1) 0 events outcome) :
      Searches t (.read (base / blocksize) true :: events) outcome

end

/-! ## The reader searches so -/

section
variable {r s : Reader} {itp : InodeEntry} {name : List UInt8}
  {inoBack fPos offset block fPos' offset' block' : Nat} {events : List ScanEvent}

/-- The loop ends with the record that was checked. -/
theorem findRun_found {entry : Option (Nat × Nat)} (n : Nat)
    (h : findTurn r itp name inoBack fPos offset block =
      (afterCheck fPos' offset' block' (.found entry, s), events)) :
    findRun r itp name inoBack fPos offset block (n + 1) = ((entry, s), events) := by
  rw [findRun, h]
  rfl

/-- The loop goes on behind the record that was checked. -/
theorem findRun_next (n : Nat)
    (h : findTurn r itp name inoBack fPos offset block =
      (afterCheck fPos' offset' block' (.next, s), events)) :
    findRun r itp name inoBack fPos offset block (n + 1) =
      ((findRun s itp name inoBack fPos' offset' block' n).1,
        events ++ (findRun s itp name inoBack fPos' offset' block' n).2) := by
  rw [findRun, h]
  rfl

end

/-- A turn at a record that is whole checks the record, and whether it is taken is
decided by the image alone. -/
theorem findTurn_whole {r : Reader} {itp : InodeEntry} {base size f offset block : Nat}
    (name : List UInt8) (inoBack : Nat) (hdir : DirOn itp base size)
    (hat : ScanAt r (base + f) offset block) (hlt : f < size)
    (hwhole : WholeRecord r.drive.contents (base + f)) (hread : RecordRead r.drive r.t (base + f)) :
    ∃ r' s place offset' block', findTurn r itp name inoBack f offset block =
        (afterCheck (f + recLength r.drive.contents (base + f)) offset' block'
            (if recTaken r.sb r.drive.contents name (base + f) = true then
                .found (entryOf (foundAs r.sb itp (u32 (base + f))
                  (recIdentifier r.drive.contents (base + f))))
              else .next, s),
          secondRead r.drive.contents (base + f) ++ [.examined (u32 (base + f))]) ∧
      Turn r r' (base + f) place offset' block' ∧
      CheckKeeps r' place r.drive.contents (base + f) s := by
  have hlong := hwhole.length
  unfold recName at hlong
  obtain ⟨r', place, offset', block', hturn, hstate⟩ := findTurn_record name inoBack hdir rfl
    hat hlt (by omega) (by rw [hat.block_eq]; exact hread)
  have hagrees : Agrees r.drive.contents (base + f) (r'.buffer place.big) place.de :=
    fun j hj => hstate.agrees j (Nat.lt_of_lt_of_le hj hwhole)
  obtain ⟨s, hcheck, hkeeps⟩ := checkRecord_eq itp (u32 (base + f)) name hagrees
  rw [hstate.keeps.sb] at hcheck
  rw [hcheck] at hturn
  exact ⟨r', s, place, offset', block', hturn, hstate, hkeeps⟩

theorem findRun_scans {drive : Drive} {sb : IsofsSb} {itp : InodeEntry} {name : List UInt8}
    {base size t f : Nat} {events : List ScanEvent} {outcome : Outcome} (inoBack : Nat)
    (hdir : DirOn itp base size)
    (h : Scans drive (recTaken sb drive.contents name) base size t f events outcome)
    {r : Reader} {offset block n : Nat} (hdrive : r.drive = drive) (hsb : r.sb = sb)
    (ht : r.t = t) (hat : ScanAt r (base + f) offset block) (hfuel : size - f < n) :
    (findRun r itp name inoBack f offset block n).1.1 =
        outcome.entry sb itp drive.contents inoBack ∧
      (findRun r itp name inoBack f offset block n).2 = events := by
  induction h generalizing r offset block n with
  | done t f hend =>
      obtain ⟨n, rfl⟩ : ∃ m, n = m + 1 := ⟨n - 1, by omega⟩
      rw [findRun, findTurn_end name inoBack hdir hend]
      exact ⟨rfl, rfl⟩
  | stops t f hlt hzero hfail =>
      obtain ⟨n, rfl⟩ : ∃ m, n = m + 1 := ⟨n - 1, by omega⟩
      subst hdrive ht
      have hnear := nextSector_near f
      have hno := readBlock_fails (hdir.block_lt (show nextSector f ≤ _ by omega)) hfail
      rw [findRun, findTurn_skip name inoBack hdir hat hlt hzero, hno]
      exact ⟨rfl, rfl⟩
  | skip t f events outcome hlt hzero hread hrest ih =>
      obtain ⟨n, rfl⟩ : ∃ m, n = m + 1 := ⟨n - 1, by omega⟩
      subst hdrive ht
      have hnear := nextSector_near f
      have hmore := lt_nextSector f
      have hyes := readBlock_read (hdir.block_lt (show nextSector f ≤ _ by omega)) hread
      have hnext := ih hyes.keeps.drive (hyes.keeps.sb.trans hsb) rfl
        (scanAt_nextSector hdir hyes) (show size - nextSector f < n by omega)
      rw [findRun, findTurn_skip name inoBack hdir hat hlt hzero, hyes.ok]
      exact ⟨hnext.1, congrArg _ hnext.2⟩
  | cut t f hlt hcut =>
      obtain ⟨n, rfl⟩ : ∃ m, n = m + 1 := ⟨n - 1, by omega⟩
      subst hdrive ht
      obtain ⟨hcross, hfail⟩ := Classical.not_imp.mp hcut
      rw [← hat.block_eq] at hfail ⊢
      rw [findRun, findTurn_fails name inoBack hdir hat hlt hcross.nonzero hcross hfail]
      exact ⟨rfl, rfl⟩
  | hit t f hlt hwhole hread htaken =>
      obtain ⟨n, rfl⟩ : ∃ m, n = m + 1 := ⟨n - 1, by omega⟩
      subst hdrive ht hsb
      obtain ⟨r', s, place, offset', block', hturn, -, -⟩ :=
        findTurn_whole name inoBack hdir hat hlt hwhole hread
      rw [if_pos htaken] at hturn
      rw [findRun_found n hturn]
      exact ⟨rfl, rfl⟩
  | miss t f events outcome hlt hwhole hread hmiss hrest ih =>
      obtain ⟨n, rfl⟩ : ∃ m, n = m + 1 := ⟨n - 1, by omega⟩
      subst hdrive ht hsb
      have hlong := hwhole.length
      unfold recName at hlong
      obtain ⟨r', s, place, offset', block', hturn, hstate, hkeeps⟩ :=
        findTurn_whole name inoBack hdir hat hlt hwhole hread
      have hall := hstate.keeps.trans hkeeps.keeps
      rw [hmiss, if_neg Bool.false_ne_true] at hturn
      have hnext := ih hall.drive hall.sb (hkeeps.reads.trans hstate.reads)
        (by rw [← Nat.add_assoc]; exact hstate.scanAt_checked hwhole hkeeps)
        (show size - (f + recLength r.drive.contents (base + f)) < n by omega)
      rw [findRun_next n hturn]
      exact ⟨hnext.1, congrArg _ hnext.2⟩

theorem isofsFindEntryRun_searches {r : Reader} {dir base size : Nat} {name : List UInt8}
    {events : List ScanEvent} {outcome : Outcome} (inoBack : Nat)
    (hdir : DirOn (r.table dir) base size)
    (h : Searches r.drive (recTaken r.sb r.drive.contents name) base size r.t events outcome) :
    (isofsFindEntryRun r dir name inoBack).1.1 =
        outcome.entry r.sb (r.table dir) r.drive.contents inoBack ∧
      (isofsFindEntryRun r dir name inoBack).2 = events := by
  have hpositive := hdir.positive
  have hmap : isofsBmap (r.table dir) 0 = base / blocksize := hdir.bmap 0 (Nat.zero_le _)
  have hblock : base / blocksize ≠ 0 := hdir.block_pos 0
  have hlimit : base / blocksize < 2 ^ 32 := hdir.block_lt (Nat.zero_le _)
  unfold isofsFindEntryRun
  simp only
  rw [if_neg (by rw [hdir.base_eq]; omega), hmap, if_neg hblock]
  cases h with
  | unread hfail =>
      rw [readBlock_fails hlimit hfail]
      exact ⟨rfl, rfl⟩
  | read events outcome hread hscan =>
      have hyes := readBlock_read hlimit hread
      have hat := hyes.scanAt (p := base) rfl
      rw [show base % blocksize = 0 from hdir.aligned] at hat
      have hrun := findRun_scans inoBack hdir hscan hyes.keeps.drive hyes.keeps.sb rfl hat
        (show size - 0 < (r.table dir).size.toNat + 1 by rw [hdir.size_eq]; omega)
      rw [hyes.ok]
      exact ⟨hrun.1, congrArg _ hrun.2⟩

/-! ## A directory that is all read -/

/-- The number of a record that is examined. -/
def ScanEvent.number? : ScanEvent → Option Nat
  | .examined number => some number
  | .read _ _ => none

/-- The records up to the first that is taken. -/
def upToFirst (taken : Nat → Bool) (recs : List Nat) : List Nat :=
  (recs.takeWhile fun a => !taken a) ++ (recs.find? taken).toList

/-- The first record that is taken, if there is one. -/
def firstOutcome (taken : Nat → Bool) (recs : List Nat) : Outcome :=
  match recs.find? taken with
  | some a => .found a
  | none => .absent

theorem secondRead_numbers (contents : ByteMemory) (p : Nat) :
    (secondRead contents p).filterMap ScanEvent.number? = [] := by
  unfold secondRead
  split <;> rfl

theorem Records.scans {drive : Drive} (taken : Nat → Bool) {base size p : Nat} {recs : List Nat}
    (hreads : AllReads drive) (haligned : base % isofsBlockSize = 0)
    (h : Records drive.contents (base + size) p recs) {f : Nat} (hp : p = base + f) (t : Nat) :
    ∃ events, Scans drive taken base size t f events (firstOutcome taken recs) ∧
      events.filterMap ScanEvent.number? = (upToFirst taken recs).map u32 := by
  have hread : ∀ t block, ReadsBlock (drive.device t) block :=
    fun t block => hreads t (block * blocksize) blocksize
  induction h generalizing f t with
  | done => exact ⟨[], .done t f (by omega), rfl⟩
  | skip p recs hlt hzero hrest ih =>
      subst hp
      have hnext : Isofs.nextSector (base + f) = base + nextSector f := by
        unfold Isofs.nextSector
        unfold isofsBlockSize at haligned ⊢
        omega
      obtain ⟨events, hscans, hnumbers⟩ := ih hnext (t + 1)
      exact ⟨_, .skip t f events _ (by omega) hzero (hread t _) hscans, hnumbers⟩
  | record p recs hname hlt hrest ih =>
      subst hp
      have hall : RecordRead drive t (base + f) := fun _ => hread t _
      by_cases htaken : taken (base + f) = true
      · have hfirst : firstOutcome taken ((base + f) :: recs) = .found (base + f) := by
          unfold firstOutcome
          rw [List.find?_cons_of_pos htaken]
        rw [hfirst]
        refine ⟨_, .hit t f (by omega) hname hall htaken, ?_⟩
        rw [List.filterMap_append, secondRead_numbers]
        simp [upToFirst, htaken, ScanEvent.number?]
      · obtain ⟨events, hscans, hnumbers⟩ := ih (Nat.add_assoc base f _)
          (t + secondReads drive (base + f))
        have hfirst : firstOutcome taken ((base + f) :: recs) = firstOutcome taken recs := by
          unfold firstOutcome
          rw [List.find?_cons_of_neg htaken]
        rw [hfirst]
        refine ⟨_, .miss t f events _ (by omega) hname hall (Bool.eq_false_iff.mpr htaken) hscans,
          ?_⟩
        rw [List.filterMap_append, List.filterMap_append, secondRead_numbers, hnumbers]
        simp [upToFirst, htaken, ScanEvent.number?]

/-- A record of a directory starts before the last bytes of its sector. -/
theorem SectorRecords.mem_place {contents : ByteMemory} {stop a b : Nat} {recs : List Nat}
    (h : SectorRecords contents stop a recs) (hb : b ∈ recs) : a ≤ b ∧ b + recName ≤ stop := by
  induction h with
  | full => cases hb
  | zero => cases hb
  | record a rest hname hfits hrest ih =>
      rcases List.mem_cons.mp hb with rfl | hb
      · omega
      · have hrest := ih hb
        omega

theorem HoldsRecords.number_ne {contents : ByteMemory} {base size : Nat}
    {records : List (List Nat)} (h : HoldsRecords contents base size records) {a : Nat}
    (ha : a ∈ records.flatten) : u32 a ≠ 0xffffffff := by
  have haligned := h.aligned
  obtain ⟨recs, hrecs, ha⟩ := List.mem_flatten.mp ha
  obtain ⟨k, hk⟩ := List.getElem?_of_mem hrecs
  have hplace := (h.sectors k recs hk).mem_place ha
  unfold isofsBlockSize at haligned hplace
  unfold recName at hplace
  unfold u32
  omega

/-- The first record with the name is found by the byte at which it starts, which is
kept in 32 bits, and the records up to it are examined in order and once each. -/
theorem isofsFindEntry_first_record {r : Reader} {dir base size : Nat} {name : List UInt8}
    {records : List (List Nat)} (inoBack : Nat) (hdir : DirOn (r.table dir) base size)
    (hself : (r.table dir).inumber ≠ 0xffffffff) (hreads : AllReads r.drive)
    (hholds : HoldsRecords r.drive.contents base size records) (hname : name ≠ [])
    (hparent : name ≠ dotdot) :
    (isofsFindEntry r dir name inoBack).1 =
        (records.flatten.find? fun a => recVisible r.sb r.drive.contents a &&
          hasName name (recIdentifier r.drive.contents a)).map (fun a =>
            if recIdentifier r.drive.contents a = [0] then ((r.table dir).inumber, 0)
            else (u32 a, (r.table dir).inumber)) ∧
      (isofsFindEntryRun r dir name inoBack).2.filterMap ScanEvent.number? =
        (upToFirst (fun a => recVisible r.sb r.drive.contents a &&
          hasName name (recIdentifier r.drive.contents a)) records.flatten).map u32 := by
  have htaken : (fun a => recVisible r.sb r.drive.contents a &&
      hasName name (recIdentifier r.drive.contents a)) =
        recTaken r.sb r.drive.contents name := by
    funext a
    unfold recTaken
    rw [nameMatches_eq _ hname hparent]
  obtain ⟨events, hscans, hnumbers⟩ := hholds.records.scans
    (recTaken r.sb r.drive.contents name) hreads hholds.aligned (Nat.add_zero base).symm (r.t + 1)
  have hsearch : Searches r.drive (recTaken r.sb r.drive.contents name) base size r.t _ _ :=
    .read events _ (hreads r.t _ _) hscans
  obtain ⟨hresult, hevents⟩ := isofsFindEntryRun_searches inoBack hdir hsearch
  rw [← isofsFindEntryRun_fst, htaken, hresult, hevents]
  refine ⟨?_, hnumbers⟩
  unfold firstOutcome
  cases hfind : records.flatten.find? (recTaken r.sb r.drive.contents name) with
  | none => rfl
  | some a =>
      have hnumber := hholds.number_ne (List.mem_of_find?_eq_some hfind)
      have hplain : recIdentifier r.drive.contents a ≠ [1] := by
        intro hone
        have hhit := List.find?_some hfind
        unfold recTaken at hhit
        rw [hone, Bool.and_eq_true] at hhit
        exact hparent (beq_iff_eq.mp hhit.2)
      show entryOf (foundAs r.sb (r.table dir) (u32 a) (recIdentifier r.drive.contents a)) = _
      unfold foundAs entryOf
      rw [if_neg hplain, Option.map_some]
      by_cases hdot : recIdentifier r.drive.contents a = [0]
      · rw [if_pos hdot, if_neg hself]
      · rw [if_neg hdot, if_neg hnumber]

/-- A reader that has a directory open. -/
def searchReader (drive : Drive) (base size : Nat) : Reader where
  sb := ⟨false, 11, false, 0⟩
  dataBlock := fun _ => 0
  bigDataBlock := fun _ => 0
  table := fun _ => ⟨base, 0xffffffff, 2048, size, 0o040555, false⟩
  drive := drive
  t := 0

/-- Five records; the last one starts in block 2 and ends in block 3. -/
def crossingContents : ByteMemory :=
  image [(2048, 250), (2080, 1), (2081, 0x42), (2298, 250), (2330, 1), (2331, 0x42),
    (2548, 250), (2580, 1), (2581, 0x42), (2798, 250), (2830, 1), (2831, 0x42),
    (3048, 36), (3080, 3), (3081, 0x41), (3082, 0x3b), (3083, 0x31)]

theorem crossing_record_found :
    Crosses crossingContents 3048 ∧
      (isofsFindEntry (searchReader (Device.sound crossingContents).drive 2048 2048) 0 [0x61]
        0).1 = some (3048, 2048) := by
  have hholds : HoldsRecords crossingContents 2048 2048 [[2048, 2298, 2548, 2798, 3048]] :=
    .of_checks (by decide +kernel) (by decide) (by decide) (by decide)
  have hfirst := @isofsFindEntry_first_record
    (searchReader (Device.sound crossingContents).drive 2048 2048) 0 2048 2048 [0x61] _ 0
    ⟨rfl, rfl, by decide, by decide, by decide, by decide⟩ (by decide)
    (fun t => Device.sound_succeeds crossingContents) hholds (by decide) (by decide)
  refine ⟨by decide +kernel, hfirst.1.trans ?_⟩
  decide +kernel

/-- A name of the byte 1 is not found, nor any name in a directory at byte 0, and the
number of a record behind the first 4 GB is cut to 32 bits. -/
theorem unusual_directories_searched :
    (HoldsRecords (image [(2048, 36), (2080, 3), (2081, 1), (2082, 0x3b), (2083, 0x31)]) 2048 2048
        [[2048]] ∧
      NameOf [1] (recIdentifier
        (image [(2048, 36), (2080, 3), (2081, 1), (2082, 0x3b), (2083, 0x31)]) 2048) ∧
      (isofsFindEntry (searchReader (Device.sound (image [(2048, 36), (2080, 3), (2081, 1),
        (2082, 0x3b), (2083, 0x31)])).drive 2048 2048) 0 [1] 0).1 = none) ∧
    (SectorRecords (image [(0, 34), (32, 1), (33, 0x41)]) 2048 0 [0] ∧
      (isofsFindEntry (searchReader (Device.sound (image [(0, 34), (32, 1), (33, 0x41)])).drive
        0 2048) 0 [0x61] 0).1 = none) ∧
    (HoldsRecords (image [(2 ^ 32, 34), (2 ^ 32 + 32, 1), (2 ^ 32 + 33, 0x41)]) (2 ^ 32 - 2048) 4096
        [[], [2 ^ 32]] ∧
      (isofsFindEntry (searchReader (Device.sound (image [(2 ^ 32, 34), (2 ^ 32 + 32, 1),
        (2 ^ 32 + 33, 0x41)])).drive (2 ^ 32 - 2048) 4096) 0 [0x61] 0).1 = some (0, 2048)) := by
  refine ⟨⟨.of_checks (by decide +kernel) (by decide) (by decide) (by decide), by decide +kernel,
    by decide +kernel⟩, ⟨.of_check (by decide +kernel), by decide +kernel⟩,
    .of_checks (by decide +kernel) (by decide) (by decide) (by decide), by decide +kernel⟩

/-! ## Blocks that cannot be read -/

/-- The bytes of a directory that its records lead to. -/
inductive Position (contents : ByteMemory) (base size : Nat) : Nat → Prop where
  | first : Position contents base size 0
  | skip (f : Nat) (h : Position contents base size f) (hlt : f < size)
      (hzero : contents (base + f) = 0) : Position contents base size (nextSector f)
  | next (f : Nat) (h : Position contents base size f) (hlt : f < size)
      (hnonzero : contents (base + f) ≠ 0) :
      Position contents base size (f + recLength contents (base + f))

/-- A record of a directory. -/
structure RecordAt (contents : ByteMemory) (base size f : Nat) : Prop where
  position : Position contents base size f
  inside : f < size
  nonzero : contents (base + f) ≠ 0

/-- The bytes of a directory that a search comes to, each with the number of reads
before it. -/
inductive Reaches (drive : Drive) (taken : Nat → Bool) (base size t₀ : Nat) : Nat → Nat → Prop where
  | start (hread : ReadsBlock (drive.device t₀) (base / blocksize)) :
      Reaches drive taken base size t₀ (t₀ + 1) 0
  | skip (t f : Nat) (h : Reaches drive taken base size t₀ t f) (hlt : f < size)
      (hzero : drive.contents (base + f) = 0)
      (hread : ReadsBlock (drive.device t) ((base + nextSector f) / blocksize)) :
      Reaches drive taken base size t₀ (t + 1) (nextSector f)
  | next (t f : Nat) (h : Reaches drive taken base size t₀ t f) (hlt : f < size)
      (hnonzero : drive.contents (base + f) ≠ 0) (hread : RecordRead drive t (base + f))
      (hmiss : taken (base + f) = false) :
      Reaches drive taken base size t₀ (t + secondReads drive (base + f))
        (f + recLength drive.contents (base + f))

section
variable {drive : Drive} {taken : Nat → Bool} {base size t₀ : Nat}

theorem WholeRecord.nonzero {contents : ByteMemory} {a : Nat} (h : WholeRecord contents a) :
    contents a ≠ 0 := by
  have hlong := h.length
  unfold recName at hlong
  rw [Ne, ← recLength_eq_zero]
  omega

theorem Reaches.position {t f : Nat} (h : Reaches drive taken base size t₀ t f) :
    Position drive.contents base size f := by
  induction h with
  | start => exact .first
  | skip t f _ hlt hzero _ ih => exact .skip f ih hlt hzero
  | next t f _ hlt hnonzero _ _ ih => exact .next f ih hlt hnonzero

/-- Where a search comes to, it goes on from there. -/
theorem Reaches.scans {t f : Nat} {events : List ScanEvent} {outcome : Outcome}
    (h : Reaches drive taken base size t₀ t f)
    (hsearch : Searches drive taken base size t₀ events outcome) :
    ∃ rest, Scans drive taken base size t f rest outcome := by
  induction h with
  | start hread =>
      cases hsearch with
      | unread hfail => exact absurd hread hfail
      | read events outcome _ hscan => exact ⟨events, hscan⟩
  | skip t f _ hlt hzero hread ih =>
      obtain ⟨rest, hscan⟩ := ih
      cases hscan with
      | done _ _ hend => omega
      | stops _ _ _ _ hfail => exact absurd hread hfail
      | skip _ _ events _ _ _ _ hrest => exact ⟨events, hrest⟩
      | cut _ _ _ hcut =>
          exact absurd hzero (mt recLength_eq_zero.mpr (Classical.not_imp.mp hcut).1.nonzero)
      | hit _ _ _ hwhole => exact absurd hzero hwhole.nonzero
      | miss _ _ _ _ _ hwhole => exact absurd hzero hwhole.nonzero
  | next t f _ hlt hnonzero hread hmiss ih =>
      obtain ⟨rest, hscan⟩ := ih
      cases hscan with
      | done _ _ hend => omega
      | stops _ _ _ hzero => exact absurd hzero hnonzero
      | skip _ _ _ _ _ hzero => exact absurd hzero hnonzero
      | cut _ _ _ hcut => exact absurd hread hcut
      | hit _ _ _ _ _ htaken =>
          rw [hmiss] at htaken
          cases htaken
      | miss _ _ events _ _ _ _ _ hrest => exact ⟨events, hrest⟩

theorem Scans.found {t f a : Nat} {events : List ScanEvent} {outcome : Outcome}
    (h : Scans drive taken base size t f events outcome) (hfound : outcome = .found a)
    (hposition : Position drive.contents base size f) :
    ∃ g, RecordAt drive.contents base size g ∧ taken (base + g) = true ∧ a = base + g := by
  induction h with
  | done => cases hfound
  | stops => cases hfound
  | cut => cases hfound
  | skip t f _ _ hlt hzero _ _ ih => exact ih hfound (.skip f hposition hlt hzero)
  | hit t f hlt hwhole _ htaken =>
      cases hfound
      exact ⟨f, ⟨hposition, hlt, hwhole.nonzero⟩, htaken, rfl⟩
  | miss t f _ _ hlt hwhole _ _ _ ih => exact ih hfound (.next f hposition hlt hwhole.nonzero)

theorem Reaches.cut {t f : Nat} {events : List ScanEvent} {outcome : Outcome}
    (h : Reaches drive taken base size t₀ t f) (hlt : f < size)
    (hcut : ¬ RecordRead drive t (base + f))
    (hsearch : Searches drive taken base size t₀ events outcome) : outcome = .failed true := by
  have hnonzero : drive.contents (base + f) ≠ 0 :=
    mt recLength_eq_zero.mpr (Classical.not_imp.mp hcut).1.nonzero
  obtain ⟨rest, hscan⟩ := h.scans hsearch
  cases hscan with
  | done _ _ hend => omega
  | stops _ _ _ hzero => exact absurd hzero hnonzero
  | skip _ _ _ _ _ hzero => exact absurd hzero hnonzero
  | cut => rfl
  | hit _ _ _ _ hread => exact absurd hread hcut
  | miss _ _ _ _ _ _ hread => exact absurd hread hcut

end

/-- What the caller may rely on: an entry is a record of the directory with the name,
and there is none if a block could not be read. -/
structure Reports (r : Reader) (dir : Nat) (name : List UInt8) (inoBack base size : Nat) : Prop where
  found : ∀ entry, (isofsFindEntry r dir name inoBack).1 = some entry →
    ∃ f, RecordAt r.drive.contents base size f ∧
      recTaken r.sb r.drive.contents name (base + f) = true ∧
      entry = foundAs r.sb (r.table dir) (u32 (base + f)) (recIdentifier r.drive.contents (base + f))
  failed : (∃ block, .read block false ∈ (isofsFindEntryRun r dir name inoBack).2) →
    (isofsFindEntry r dir name inoBack).1 = none

end Milo.Fs.Isofs
