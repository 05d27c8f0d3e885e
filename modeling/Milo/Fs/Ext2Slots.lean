import Milo.Foundation.Transition
import Milo.Fs.Ext2Caches

/-! # The inode table of the ext2 reader

A lookup holds at most two slots: the directory and the inode found in it. When
a link is followed both are given back while the directory is still needed, and
the next inode that is read takes the first free slot. As long as that is the
link's own slot and not the directory's, the two stay apart, and a lookup ends
with the slot of its result and no other.
-/

namespace Milo.Fs.Ext2

open Foundation

/-! ## Slots -/

def Reader.Taken (r : Reader) (i : Nat) : Prop := Foundation.Taken Slot.free r.slots i

/-- The slots in use. -/
def Reader.inUse (r : Reader) : List Nat := Foundation.inUse Slot.free r.slots maxOpenFiles

theorem Reader.taken_congr {r r' : Reader} (h : r'.slots = r.slots) (i : Nat) :
    r'.Taken i ↔ r.Taken i := by
  unfold Reader.Taken
  rw [h]

theorem Reader.inode_congr {r r' : Reader} (h : r'.slots = r.slots) (i : Nat) :
    r'.inode i = r.inode i := by
  unfold Reader.inode
  rw [h]

theorem ext2Iput_taken (r : Reader) (i j : Nat) :
    (ext2Iput r i).Taken j ↔ r.Taken j ∧ j ≠ i := freesSlot_update rfl j

theorem ext2Iput_inode (r : Reader) (i j : Nat) : (ext2Iput r i).inode j = r.inode j := by
  unfold Reader.inode ext2Iput
  by_cases hj : j = i
  · subst hj
    simp
  · simp [Function.update_of_ne hj]

theorem putIfAny_taken (r : Reader) (dir : Option Nat) (j : Nat) :
    (putIfAny r dir).Taken j ↔ r.Taken j ∧ dir ≠ some j := by
  cases dir with
  | none => simp [putIfAny]
  | some i =>
      rw [putIfAny, ext2Iput_taken]
      simp [eq_comm]

theorem putIfAny_inode (r : Reader) (dir : Option Nat) (j : Nat) :
    (putIfAny r dir).inode j = r.inode j := by
  cases dir with
  | none => rfl
  | some i => exact ext2Iput_inode r i j

/-- A slot that `ext2_iget` returns was the first free one. -/
theorem ext2Iget_some {r : Reader} {ino i : Nat} (h : (ext2Iget r ino).1 = some i) :
    i < maxOpenFiles ∧ ¬ r.Taken i ∧ (∀ j < i, r.Taken j) ∧
      (∀ j, (ext2Iget r ino).2.Taken j ↔ r.Taken j ∨ j = i) ∧
      ∀ j, j ≠ i → (ext2Iget r ino).2.inode j = r.inode j := by
  unfold ext2Iget at h ⊢
  cases hfree : firstFree Slot.free r.slots 0 maxOpenFiles with
  | none =>
      rw [hfree] at h
      cases h
  | some k =>
      rw [hfree] at h
      simp only at h ⊢
      split at h
      · rename_i hok
        obtain rfl := Option.some.inj h
        have hspec := firstFree_some hfree
        refine ⟨by omega, hspec.2.2.1, fun j hj => hspec.2.2.2 j (Nat.zero_le j) hj, ?_, ?_⟩
        · intro j
          unfold Reader.Taken Taken
          by_cases hj : j = k
          · subst hj
            simp [hok]
          · simp [hj]
        · intro j hj
          unfold Reader.inode
          simp [Function.update_of_ne hj]
      · cases h

theorem ext2Iget_none {r : Reader} {ino : Nat} (h : (ext2Iget r ino).1 = none) (j : Nat) :
    (ext2Iget r ino).2.Taken j ↔ r.Taken j := by
  unfold ext2Iget at h ⊢
  cases hfree : firstFree Slot.free r.slots 0 maxOpenFiles with
  | none => rfl
  | some k =>
      rw [hfree] at h
      simp only at h ⊢
      split at h
      · cases h
      · rename_i hfailed
        have hspec := firstFree_some hfree
        unfold Reader.Taken Taken at hspec ⊢
        by_cases hj : j = k
        · subst hj
          simp_all
        · simp [Function.update_of_ne hj]

theorem scanBlocks_slots {r r' : Reader} {dir blk n : Nat} {component : List UInt8}
    {found : Option Nat} (h : scanBlocks r dir component blk n = some (found, r')) :
    r'.slots = r.slots := by
  induction n generalizing r blk with
  | zero =>
      obtain ⟨_, rfl⟩ := Prod.mk.inj (Option.some.inj h)
      rfl
  | succ n ih =>
      unfold scanBlocks at h
      simp only at h
      split at h
      · cases h
      · obtain ⟨_, rfl⟩ := Prod.mk.inj (Option.some.inj h)
        rfl
      · have hrest := ih h
        exact hrest

theorem searchDir_slots {r r' : Reader} {dir : Nat} {component : List UInt8} {found : Option Nat}
    (h : searchDir r dir component = some (found, r')) : r'.slots = r.slots := by
  unfold searchDir at h
  split at h
  · cases h
  · exact scanBlocks_slots h

theorem loadLink_slots (r : Reader) (file : Nat) : (loadLink r file).1.slots = r.slots := by
  unfold loadLink
  split <;> rfl

theorem loadLastLink_slots {r r' : Reader} {w : Walk} {file : Nat} {text : List UInt8}
    (h : loadLastLink r w file = some (r', text)) : r'.slots = r.slots := by
  unfold loadLastLink at h
  split at h
  · obtain ⟨dir, _, hread⟩ := Option.map_eq_some_iff.mp h
    obtain ⟨rfl, _⟩ := Prod.mk.inj hread
    rfl
  · obtain ⟨rfl, _⟩ := Prod.mk.inj (Option.some.inj h)
    rfl

/-! ## Steps that end -/

/-- Every step leaves less to do: a component, or one of the links. -/
def Walk.left (w : Walk) : Nat := (11 - w.links) * (namebufSize + 1) + w.todo.length

/-- The call has less to do than `n`, if it goes on. -/
def Progress.LeftBelow (n : Nat) : Progress → Prop
  | running w _ => w.left < n
  | _ => True

theorem Progress.LeftBelow.mono {m n : Nat} {p : Progress} (h : p.LeftBelow m) (hle : m ≤ n) :
    p.LeftBelow n := by
  cases p with
  | running w r => exact Nat.lt_of_lt_of_le h hle
  | returned result r => trivial
  | undefined => trivial

theorem rel_left {r : Reader} {dir file : Option Nat} {path : List UInt8} {links n : Nat}
    (hpath : path.length < namebufSize)
    (hn : (11 - links) * (namebufSize + 1) + (namebufSize + 1) ≤ n) :
    (rel r dir file path links).LeftBelow n := by
  unfold rel
  split
  · trivial
  · have hlength := componentsFrom_length_le [] path
    have hcomponents : (components path).length ≤ path.length + 1 := hlength
    unfold Progress.LeftBelow Walk.left
    simp only
    omega

theorem follow_left (links n : Nat) (hlinks : links + 1 ≤ 10) :
    (11 - (links + 1)) * (namebufSize + 1) + (namebufSize + 1) ≤
      (11 - links) * (namebufSize + 1) + n := by
  unfold namebufSize
  omega

theorem descend_left (r : Reader) (w : Walk) (file : Nat) (component : List UInt8)
    (rest : List (List UInt8)) :
    (descend r w file component rest).LeftBelow
      ((11 - w.links) * (namebufSize + 1) + (component :: rest).length) := by
  unfold descend
  simp only
  split
  · trivial
  · split
    · trivial
    · trivial
    · simp [Progress.LeftBelow, Walk.left]

theorem walkStep_left (w : Walk) (r : Reader) : (walkStep w r).LeftBelow w.left := by
  obtain ⟨dir, file, todo, links⟩ := w
  unfold walkStep
  cases file with
  | none => cases todo <;> trivial
  | some file =>
      cases todo with
      | nil =>
          simp only
          split
          · split
            · trivial
            · rename_i hlinks
              unfold followLast
              split
              · trivial
              · split
                · trivial
                · rename_i hshort
                  have hpath := Nat.lt_of_not_le hshort
                  have hfew := follow_left links 0 (by omega)
                  simp only
                  split
                  · split
                    · trivial
                    · exact rel_left (by unfold namebufSize at *; omega) hfew
                  · exact rel_left (by unfold namebufSize at *; omega) hfew
          · trivial
      | cons component rest =>
          simp only
          split
          · split
            · apply (descend_left r ⟨dir, some file, component :: rest, links + 1⟩ file component
                rest).mono
              exact Nat.add_le_add_right (Nat.mul_le_mul_right _ (by simp only; omega)) _
            · rename_i hlinks
              have hfew := follow_left links (component :: rest).length (by omega)
              unfold followOnWay
              simp only
              split
              · trivial
              · rename_i hshort
                have hpath := Nat.lt_of_not_le hshort
                split
                · exact rel_left hpath hfew
                · exact rel_left hpath hfew
          · exact descend_left r ⟨dir, some file, component :: rest, links⟩ file component rest

theorem walkFrom_ends {n : Nat} {p : Progress} (h : p.LeftBelow n) (w : Walk) (r : Reader) :
    walkFrom n p ≠ .running w r := by
  induction n generalizing p with
  | zero =>
      cases p with
      | running w' r' => cases h
      | returned result r' => simp [walkFrom]
      | undefined => simp [walkFrom]
  | succ n ih =>
      cases p with
      | running w' r' =>
          exact ih ((walkStep_left w' r').mono (Nat.lt_succ_iff.mp h))
      | returned result r' => simp [walkFrom]
      | undefined => simp [walkFrom]

theorem startWalk_left (r : Reader) (name : List UInt8) :
    (startWalk r name).LeftBelow walkLimit := by
  unfold startWalk
  split
  · trivial
  · rename_i hshort
    exact rel_left (Nat.lt_of_not_le hshort) (by decide)

/-- Every lookup ends. -/
theorem ext2Namei_ends (r : Reader) (name : List UInt8) (w : Walk) (r' : Reader) :
    ext2Namei r name ≠ .running w r' :=
  walkFrom_ends (startWalk_left r name) w r'

/-! ## What a lookup holds -/

/-- A slot of the table that was free at the start. -/
def Fresh (base : Reader) (i : Nat) : Prop := i < maxOpenFiles ∧ ¬ base.Taken i

/-- The slots a walk holds over those that were in use at its start: the inode
it has come to, and perhaps its directory; after a relative link the directory
alone, with a free slot before it; or nothing but the directory, when the inode
could not be read. -/
inductive HoldsSlots (base : Reader) (w : Walk) (r : Reader) : Prop where
  | apart (file : Nat) (hfile : w.file = some file) (hfresh : Fresh base file)
      (hdir : ∀ dir, w.dir = some dir →
        Fresh base dir ∧ dir ≠ file ∧ isDir (r.inode dir).mode = true)
      (hheld : ∀ j, w.dir ≠ some j → (r.Taken j ↔ base.Taken j ∨ j = file))
  | atDir (dir : Nat) (hfile : w.file = some dir) (hdir : w.dir = some dir)
      (hfresh : Fresh base dir) (hmode : isDir (r.inode dir).mode = true)
      (hbefore : ∃ i < dir, ¬ r.Taken i) (htodo : w.todo ≠ [])
      (hheld : ∀ j, j ≠ dir → (r.Taken j ↔ base.Taken j))
  | gone (hfile : w.file = none) (hdir : ∀ dir, w.dir = some dir → Fresh base dir)
      (hheld : ∀ j, w.dir ≠ some j → (r.Taken j ↔ base.Taken j))

structure WalkInv (base : Reader) (w : Walk) (r : Reader) : Prop where
  names : ∀ name ∈ w.todo, IsComponent name
  slots : HoldsSlots base w r

/-- A call that returned an inode holds its slot and no other, and one that
returned NULL holds none. -/
def Progress.Exact (base : Reader) : Progress → Prop
  | returned (some i) r => Fresh base i ∧ ∀ j, r.Taken j ↔ base.Taken j ∨ j = i
  | returned none r => ∀ j, r.Taken j ↔ base.Taken j
  | _ => False

def Progress.Keeps (base : Reader) : Progress → Prop
  | running w r => WalkInv base w r
  | returned result r => (returned result r).Exact base
  | undefined => True

/-- The walk follows the link that it has come to. -/
def Walk.Follows (w : Walk) (r : Reader) (file : Nat) : Prop :=
  isLink (r.inode file).mode = true ∧ w.links + 1 ≤ if w.todo = [] then 5 else 10

/-- A link that is followed lies in a slot before that of its directory. No inode
is missing before the end of the path, no scan comes to an entry of length zero,
and the text of a link fits; at the end of the path it is not empty either. -/
structure StepSound (w : Walk) (r : Reader) : Prop where
  ordered : ∀ file dir, w.file = some file → w.dir = some dir → w.Follows r file → file < dir
  read : w.todo ≠ [] → w.file ≠ none
  scanned : ∀ file component rest, w.file = some file → w.todo = component :: rest →
    isDir (r.inode file).mode = true → searchDir (putIfAny r w.dir) file component ≠ none
  fits : ∀ file, w.file = some file → w.todo ≠ [] → w.Follows r file →
    (extendPath (loadLink r file).2 w.todo).length < namebufSize
  last : ∀ file, w.file = some file → w.todo = [] → w.Follows r file →
    ∃ r' text, loadLastLink r w file = some (r', text) ∧ text ≠ [] ∧
      text.length < namebufSize - 1 ∧ (text.head? = some slash → w.dir ≠ none)

theorem isLink_of_isDir {mode : Nat} (h : isDir mode = true) : isLink mode = false := by
  unfold isDir at h
  unfold isLink
  rw [beq_iff_eq] at h
  rw [h]
  decide

theorem abs_keeps {base r : Reader} {dir : Option Nat} {path : List UInt8} {links : Nat}
    (hdir : ∀ d, dir = some d →
      Fresh base d ∧ (∃ file < d, Fresh base file) ∧ isDir (r.inode d).mode = true)
    (hheld : ∀ j, r.Taken j ↔ base.Taken j) : (abs r dir path links).Keeps base := by
  unfold abs
  simp only
  cases higet : (ext2Iget r rootIno).1 with
  | none =>
      intro j
      rw [ext2Iget_none higet, hheld]
  | some root =>
      have hspec := ext2Iget_some higet
      refine ⟨fun name hname => components_isComponent hname, ?_⟩
      refine HoldsSlots.apart root rfl ⟨hspec.1, fun ht => hspec.2.1 ((hheld root).mpr ht)⟩ ?_ ?_
      · intro d hd
        obtain ⟨hfresh, ⟨file, hfile, hfree⟩, hmode⟩ := hdir d hd
        have hne : d ≠ root := by
          rintro rfl
          exact hfree.2 ((hheld file).mp (hspec.2.2.1 file hfile))
        refine ⟨hfresh, hne, ?_⟩
        rw [hspec.2.2.2.2 d hne]
        exact hmode
      · intro j _
        rw [hspec.2.2.2.1, hheld]

theorem rel_keeps {base r : Reader} {dir : Option Nat} {path : List UInt8} {links file : Nat}
    (hfree : ¬ r.Taken file) (hpath : components path ≠ [])
    (hdir : ∀ d, dir = some d → Fresh base d ∧ file < d ∧ isDir (r.inode d).mode = true)
    (hheld : ∀ j, dir ≠ some j → (r.Taken j ↔ base.Taken j)) :
    (rel r dir dir path links).Keeps base := by
  cases dir with
  | none => exact fun j => hheld j (by simp)
  | some d =>
      have hspecd := hdir d rfl
      refine ⟨fun name hname => components_isComponent hname, ?_⟩
      refine HoldsSlots.atDir d rfl rfl hspecd.1 hspecd.2.2 ⟨file, hspecd.2.1, hfree⟩ hpath ?_
      intro j hj
      exact hheld j (by simpa using Ne.symm hj)

/-- Once the old directory is given back only the inode is held, and the next
slot to be taken is another one. -/
theorem HoldsSlots.put {base r : Reader} {w : Walk} {file : Nat} (hinv : HoldsSlots base w r)
    (hfile : w.file = some file) :
    Fresh base file ∧ (∀ j, j ≠ file → ((putIfAny r w.dir).Taken j ↔ base.Taken j)) ∧
      ((putIfAny r w.dir).Taken file ∨ ∃ i < file, ¬ (putIfAny r w.dir).Taken i) := by
  simp only [putIfAny_taken]
  cases hinv with
  | apart f hf hfresh hdir hheld =>
      obtain rfl : file = f := Option.some.inj (hfile.symm.trans hf)
      have hother : w.dir ≠ some file := fun h => (hdir file h).2.1 rfl
      refine ⟨hfresh, ?_, Or.inl ⟨(hheld file hother).mpr (Or.inr rfl), hother⟩⟩
      intro j hj
      by_cases hjd : w.dir = some j
      · have hnot := (hdir j hjd).1.2
        simp [hjd, hnot]
      · rw [hheld j hjd]
        simp [hj, hjd]
  | atDir d hf hd hfresh hmode hbefore htodo hheld =>
      obtain rfl : file = d := Option.some.inj (hfile.symm.trans hf)
      refine ⟨hfresh, ?_, Or.inr ?_⟩
      · intro j hj
        rw [hheld j hj, hd]
        simp [Ne.symm hj]
      · obtain ⟨i, hi, hnot⟩ := hbefore
        exact ⟨i, hi, fun h => hnot h.1⟩
  | gone hf hdir hheld =>
      rw [hf] at hfile
      cases hfile

theorem descend_keeps {base r : Reader} {w : Walk} {file : Nat} {component : List UInt8}
    {rest : List (List UInt8)} (hinv : HoldsSlots base w r) (hfile : w.file = some file)
    (hrest : ∀ name ∈ rest, IsComponent name) :
    (descend r w file component rest).Keeps base := by
  obtain ⟨hfresh, hheld, hnext⟩ := hinv.put hfile
  -- Giving the inode back as well leaves what was in use at the start.
  have hnull : ∀ s : Reader, s.slots = (putIfAny r w.dir).slots →
      (Progress.returned none (ext2Iput s file)).Exact base := by
    intro s hs j
    rw [ext2Iput_taken]
    by_cases hj : j = file
    · subst hj
      simp [hfresh.2]
    · rw [Reader.taken_congr hs, hheld j hj]
      simp [hj]
  unfold descend
  simp only
  split
  · exact hnull _ rfl
  · rename_i hmode
    split
    · trivial
    · rename_i hsearch
      exact hnull _ (searchDir_slots hsearch)
    · rename_i ino s hsearch
      have hslots := searchDir_slots hsearch
      have hsame := Reader.taken_congr hslots
      have hinode := Reader.inode_congr hslots file
      refine ⟨hrest, ?_⟩
      cases higet : (ext2Iget s ino).1 with
      | none =>
          refine HoldsSlots.gone rfl ?_ ?_
          · intro d hd
            exact Option.some.inj hd ▸ hfresh
          · intro j hj
            rw [ext2Iget_none higet, hsame, hheld j (by simpa using Ne.symm hj)]
      | some next =>
          have hspec := ext2Iget_some higet
          have hne : file ≠ next := by
            rintro rfl
            rcases hnext with htaken | ⟨i, hi, hfree⟩
            · exact hspec.2.1 ((hsame file).mpr htaken)
            · exact hfree ((hsame i).mp (hspec.2.2.1 i hi))
          have hfreshnext : Fresh base next := by
            refine ⟨hspec.1, fun htaken => hspec.2.1 ?_⟩
            rw [hsame, hheld next (Ne.symm hne)]
            exact htaken
          refine HoldsSlots.apart next rfl hfreshnext ?_ ?_
          · intro d hd
            obtain rfl := Option.some.inj hd
            refine ⟨hfresh, hne, ?_⟩
            rw [hspec.2.2.2.2 file hne, hinode]
            simpa using hmode
          · intro j hj
            rw [hspec.2.2.2.1, hsame, hheld j (by simpa using Ne.symm hj)]

/-- A link is followed from an inode and a directory that are apart. -/
theorem HoldsSlots.of_link {base r : Reader} {w : Walk} {file : Nat} (hinv : HoldsSlots base w r)
    (hfile : w.file = some file) (hlink : isLink (r.inode file).mode = true) :
    Fresh base file ∧
      (∀ dir, w.dir = some dir →
        Fresh base dir ∧ dir ≠ file ∧ isDir (r.inode dir).mode = true) ∧
      ∀ j, w.dir ≠ some j → (r.Taken j ↔ base.Taken j ∨ j = file) := by
  cases hinv with
  | apart f hf hfresh hdir hheld =>
      obtain rfl : file = f := Option.some.inj (hfile.symm.trans hf)
      exact ⟨hfresh, hdir, hheld⟩
  | atDir d hf hd hfresh hmode hbefore htodo hheld =>
      obtain rfl : file = d := Option.some.inj (hfile.symm.trans hf)
      rw [isLink_of_isDir hmode] at hlink
      cases hlink
  | gone hf hdir hheld =>
      rw [hf] at hfile
      cases hfile

/-- The two ways to go on after a link whose text has been read. -/
theorem follow_keeps {base r s : Reader} {w : Walk} {file : Nat} (links : Nat) (path : List UInt8)
    (hinv : HoldsSlots base w r) (hfile : w.file = some file) (hfollows : w.Follows r file)
    (hsound : StepSound w r) (hslots : s.slots = r.slots) :
    (∀ s', (∀ j, s'.Taken j ↔ s.Taken j ∧ j ≠ file ∧ w.dir ≠ some j) →
        (∀ j, s'.inode j = s.inode j) → (abs s' w.dir path links).Keeps base) ∧
      (components path ≠ [] → (rel (ext2Iput s file) w.dir w.dir path links).Keeps base) := by
  obtain ⟨hfresh, hdir, hheld⟩ := hinv.of_link hfile hfollows.1
  have hsame := Reader.taken_congr hslots
  have hinode := Reader.inode_congr hslots
  have hbase : ∀ j, s.Taken j ∧ j ≠ file ∧ w.dir ≠ some j ↔ base.Taken j := by
    intro j
    rw [hsame]
    by_cases hjd : w.dir = some j
    · simp [hjd, (hdir j hjd).1.2]
    · rw [hheld j hjd]
      constructor
      · intro ⟨htaken, hj, _⟩
        exact htaken.resolve_right hj
      · intro htaken
        exact ⟨Or.inl htaken, fun hj => hfresh.2 (hj ▸ htaken), hjd⟩
  have hspecd : ∀ s' : Reader, (∀ j, s'.inode j = s.inode j) → ∀ d, w.dir = some d →
      Fresh base d ∧ file < d ∧ isDir (s'.inode d).mode = true := by
    intro s' hinode' d hd
    refine ⟨(hdir d hd).1, hsound.ordered file d hfile hd hfollows, ?_⟩
    rw [hinode', hinode]
    exact (hdir d hd).2.2
  constructor
  · intro s' htaken hinode'
    refine abs_keeps ?_ fun j => (htaken j).trans (hbase j)
    intro d hd
    have hd' := hspecd s' hinode' d hd
    exact ⟨hd'.1, ⟨file, hd'.2.1, hfresh⟩, hd'.2.2⟩
  · intro hpath
    refine rel_keeps ?_ hpath (hspecd _ (ext2Iput_inode s file)) ?_
    · rw [ext2Iput_taken]
      exact fun h => h.2 rfl
    · intro j hj
      rw [ext2Iput_taken, ← hbase j]
      simp [hj]

theorem followOnWay_keeps {base r : Reader} {w : Walk} {file : Nat} (hinv : WalkInv base w r)
    (hfile : w.file = some file) (hfollows : w.Follows r file) (htodo : w.todo ≠ [])
    (hsound : StepSound w r) : (followOnWay r w file w.todo).Keeps base := by
  have hslots := loadLink_slots r file
  unfold followOnWay
  simp only
  split
  · trivial
  · have hkeeps := follow_keeps (w.links + 1) (extendPath (loadLink r file).2 w.todo)
      (s := { (loadLink r file).1 with
        blkbuf := store (loadLink r file).1.blkbuf
          (storesAt 0 (extendPath (loadLink r file).2 w.todo ++ [0])) })
      hinv.slots hfile hfollows hsound hslots
    split
    · apply hkeeps.1
      · intro j
        rw [ext2Iput_taken, putIfAny_taken, and_assoc, and_comm (a := w.dir ≠ some j)]
      · intro j
        rw [ext2Iput_inode, putIfAny_inode]
    · apply hkeeps.2
      rw [components_extendPath _ hinv.names]
      simp [htodo]

theorem followLast_keeps {base r : Reader} {w : Walk} {file : Nat} (hinv : WalkInv base w r)
    (hfile : w.file = some file) (hfollows : w.Follows r file) (htodo : w.todo = [])
    (hsound : StepSound w r) : (followLast r w file).Keeps base := by
  unfold followLast
  split
  · trivial
  · rename_i s text hload
    have hkeeps := follow_keeps (w.links + 1) text hinv.slots hfile hfollows
      hsound (loadLastLink_slots hload)
    split
    · trivial
    · simp only
      split
      · split
        · trivial
        · rename_i dir hdir
          apply hkeeps.1
          · intro j
            rw [ext2Iput_taken, ext2Iput_taken, and_assoc, hdir]
            simp [eq_comm]
          · intro j
            rw [ext2Iput_inode, ext2Iput_inode]
      · rename_i hrel
        obtain ⟨_, _, hlast, hnamed, _⟩ := hsound.last file hfile htodo hfollows
        obtain ⟨_, rfl⟩ := Prod.mk.inj (Option.some.inj (hlast.symm.trans hload))
        exact hkeeps.2 (components_ne_nil hnamed hrel)

/-! ## Whole lookups -/

/-- The end of the path: the directory is given back and the inode stays. -/
theorem HoldsSlots.finish {base r : Reader} {w : Walk} {file : Nat} (hinv : HoldsSlots base w r)
    (hfile : w.file = some file) (htodo : w.todo = []) :
    (Progress.returned (some file) (putIfAny r w.dir)).Exact base := by
  obtain ⟨hfresh, hheld, _⟩ := hinv.put hfile
  refine ⟨hfresh, fun j => ?_⟩
  by_cases hj : j = file
  · subst hj
    cases hinv with
    | apart f hf _ hdir hheld =>
        obtain rfl : j = f := Option.some.inj (hfile.symm.trans hf)
        have hother : w.dir ≠ some j := fun h => (hdir j h).2.1 rfl
        simp [putIfAny_taken, hother, hheld j hother]
    | atDir d _ _ _ _ _ hleft _ => exact absurd htodo hleft
    | gone hf _ _ =>
        rw [hf] at hfile
        cases hfile
  · rw [hheld j hj]
    simp [hj]

/-- An inode that could not be read: NULL is returned. -/
theorem HoldsSlots.fail {base r : Reader} {w : Walk} (hinv : HoldsSlots base w r)
    (hfile : w.file = none) : (Progress.returned none (putIfAny r w.dir)).Exact base := by
  cases hinv with
  | apart f hf _ _ _ =>
      rw [hfile] at hf
      cases hf
  | atDir d hf _ _ _ _ _ _ =>
      rw [hfile] at hf
      cases hf
  | gone _ hdir hheld =>
      intro j
      rw [putIfAny_taken]
      by_cases hj : w.dir = some j
      · simp [hj, (hdir j hj).2]
      · simp [hj, hheld j hj]

/-- One step of a walk keeps what the walk holds. -/
theorem walkStep_keeps {base r : Reader} {w : Walk} (hinv : WalkInv base w r)
    (hsound : StepSound w r) : (walkStep w r).Keeps base := by
  obtain ⟨dir, file, todo, links⟩ := w
  unfold walkStep
  cases file with
  | none =>
      cases todo with
      | nil => exact hinv.slots.fail rfl
      | cons component rest => trivial
  | some file =>
      cases todo with
      | nil =>
          simp only
          split
          · rename_i hlink
            split
            · exact hinv.slots.finish rfl rfl
            · rename_i hlinks
              exact followLast_keeps hinv rfl ⟨hlink, by simp only [if_true]; omega⟩ rfl hsound
          · exact hinv.slots.finish rfl rfl
      | cons component rest =>
          have hrest : ∀ name ∈ rest, IsComponent name :=
            fun name hname => hinv.names name (List.mem_cons_of_mem component hname)
          simp only
          split
          · rename_i hlink
            split
            · have hslots : HoldsSlots base
                  { dir := dir, file := some file, todo := component :: rest, links := links + 1 } r := by
                cases hinv.slots with
                | apart f hf hfresh hdir hheld => exact .apart f hf hfresh hdir hheld
                | atDir d hf hd hfresh hmode hbefore htodo hheld =>
                    exact .atDir d hf hd hfresh hmode hbefore htodo hheld
                | gone hf hdir hheld => exact .gone hf hdir hheld
              exact descend_keeps hslots rfl hrest
            · rename_i hlinks
              exact followOnWay_keeps hinv rfl ⟨hlink, by simp only [reduceCtorEq, if_false]; omega⟩
                (by simp) hsound
          · exact descend_keeps hinv.slots rfl hrest

theorem rel_defined (r : Reader) (dir file : Option Nat) (path : List UInt8) (links : Nat) :
    rel r dir file path links ≠ .undefined := by
  unfold rel
  split <;> simp

theorem descend_defined {r : Reader} {w : Walk} {file : Nat} {component : List UInt8}
    {rest : List (List UInt8)}
    (hscanned : isDir (r.inode file).mode = true →
      searchDir (putIfAny r w.dir) file component ≠ none) :
    descend r w file component rest ≠ .undefined := by
  unfold descend
  simp only [putIfAny_inode]
  split
  · simp
  · rename_i hmode
    split
    · rename_i hsearch
      exact absurd hsearch (hscanned (by simpa using hmode))
    · simp
    · simp

theorem followOnWay_defined {r : Reader} {w : Walk} {file : Nat} {todo : List (List UInt8)}
    (hfits : (extendPath (loadLink r file).2 todo).length < namebufSize) :
    followOnWay r w file todo ≠ .undefined := by
  unfold followOnWay
  simp only
  rw [if_neg (Nat.not_le_of_lt hfits)]
  split <;> exact rel_defined _ _ _ _ _

theorem followLast_defined {r r' : Reader} {w : Walk} {file : Nat} {text : List UInt8}
    (hload : loadLastLink r w file = some (r', text)) (hfits : text.length < namebufSize - 1)
    (hdir : text.head? = some slash → w.dir ≠ none) : followLast r w file ≠ .undefined := by
  unfold followLast
  rw [hload]
  simp only
  rw [if_neg (Nat.not_le_of_lt hfits)]
  split
  · rename_i habs
    split
    · rename_i hnone
      exact absurd hnone (hdir habs)
    · exact rel_defined _ _ _ _ _
  · exact rel_defined _ _ _ _ _

theorem StepSound.defined {w : Walk} {r : Reader} (h : StepSound w r) :
    walkStep w r ≠ .undefined := by
  obtain ⟨dir, file, todo, links⟩ := w
  unfold walkStep
  cases file with
  | none =>
      cases todo with
      | nil => simp
      | cons component rest => exact absurd rfl (h.read (by simp))
  | some file =>
      cases todo with
      | nil =>
          simp only
          split
          · rename_i hlink
            split
            · simp
            · rename_i hlinks
              obtain ⟨_, _, hload, _, hfits, hdir⟩ :=
                h.last file rfl rfl ⟨hlink, by simp only [if_true]; omega⟩
              exact followLast_defined hload hfits hdir
          · simp
      | cons component rest =>
          have hscanned := h.scanned file component rest rfl rfl
          simp only
          split
          · rename_i hlink
            split
            · exact descend_defined hscanned
            · rename_i hlinks
              exact followOnWay_defined
                (h.fits file rfl (by simp) ⟨hlink, by simp only [reduceCtorEq, if_false]; omega⟩)
          · exact descend_defined hscanned

theorem walkFrom_keeps {base : Reader} {p : Progress} (n : Nat) (h : p.Keeps base)
    (hdefined : p ≠ .undefined)
    (hsound : ∀ m w r, walkFrom m p = .running w r → StepSound w r) :
    (walkFrom n p).Keeps base ∧ walkFrom n p ≠ .undefined := by
  induction n generalizing p with
  | zero => exact ⟨h, hdefined⟩
  | succ n ih =>
      cases p with
      | running w r =>
          have hstep := hsound 0 w r rfl
          exact ih (walkStep_keeps h hstep) hstep.defined fun m => hsound (m + 1)
      | returned result r => exact ⟨h, hdefined⟩
      | undefined => exact absurd rfl hdefined

/-- The path fits its buffer, and every step of its lookup is sound. -/
structure LookupSound (r : Reader) (name : List UInt8) : Prop where
  fits : name.length < namebufSize
  steps : ∀ n w r', walkFrom n (startWalk r name) = .running w r' → StepSound w r'

/-- A sound lookup returns, and holds the slot of what it returns. -/
theorem ext2Namei_exact {r : Reader} {name : List UInt8} (h : LookupSound r name) :
    (ext2Namei r name).Exact r := by
  have hstart : startWalk r name = abs r none name 0 := if_neg (Nat.not_le_of_lt h.fits)
  have hkeeps : (startWalk r name).Keeps r := by
    rw [hstart]
    exact abs_keeps (fun d hd => nomatch hd) fun j => Iff.rfl
  have hdefined : startWalk r name ≠ .undefined := by
    rw [hstart]
    unfold abs rel
    simp only
    split <;> simp
  have hend := walkFrom_keeps walkLimit hkeeps hdefined h.steps
  have hstops := ext2Namei_ends r name
  unfold ext2Namei at *
  revert hend hstops
  cases walkFrom walkLimit (startWalk r name) with
  | running w r' => exact fun _ hstops => absurd rfl (hstops w r')
  | returned result r' => exact fun hend _ => hend.1
  | undefined => exact fun hend _ => absurd rfl hend.2

/-! ## Opening and closing -/

/-- The reader with the files that are open. -/
structure Session where
  reader : Reader
  opens : List Nat

inductive FileCall where
  | open (name : List UInt8)
  | close (fd : Nat)

/-- `ext2_open` returns the slot of the inode. -/
def fileStep (s : Session) : FileCall → Option Session
  | .open name =>
      match ext2Namei s.reader name with
      | .returned (some fd) reader => some ⟨reader, fd :: s.opens⟩
      | .returned none reader => some ⟨reader, s.opens⟩
      | _ => none
  | .close fd => some ⟨ext2Close s.reader fd, s.opens.erase fd⟩

/-- Lookups are sound, and only open files are closed. -/
def FileSound (s : Session) : FileCall → Prop
  | .open name => LookupSound s.reader name
  | .close fd => fd ∈ s.opens

/-- The slots in use are those of the open files. -/
def Session.Balanced (s : Session) : Prop := s.reader.inUse.Perm s.opens

theorem Progress.Exact.opened {base r : Reader} {fd : Nat}
    (h : (Progress.returned (some fd) r).Exact base) : r.inUse.Perm (fd :: base.inUse) :=
  TakesSlot.inUse ⟨h.1.1, h.1.2, h.2⟩

theorem Progress.Exact.failed {base r : Reader} (h : (Progress.returned none r).Exact base) :
    r.inUse = base.inUse :=
  inUse_congr fun j _ => h j

theorem fileStep_balanced {s : Session} {call : FileCall} (h : s.Balanced)
    (hsound : FileSound s call) : ∃ s', fileStep s call = some s' ∧ s'.Balanced := by
  cases call with
  | «open» name =>
      have hexact := ext2Namei_exact hsound
      unfold fileStep
      simp only
      cases hnamei : ext2Namei s.reader name with
      | running w r =>
          rw [hnamei] at hexact
          cases hexact
      | undefined =>
          rw [hnamei] at hexact
          cases hexact
      | returned result r =>
          rw [hnamei] at hexact
          cases result with
          | none =>
              refine ⟨_, rfl, ?_⟩
              unfold Session.Balanced
              rw [hexact.failed]
              exact h
          | some fd => exact ⟨_, rfl, hexact.opened.trans (h.cons fd)⟩
  | close fd =>
      refine ⟨_, rfl, ?_⟩
      have hreleased : (ext2Close s.reader fd).inUse.Perm (s.reader.inUse.erase fd) :=
        FreesSlot.inUse (ext2Iput_taken s.reader fd)
      exact hreleased.trans (h.erase fd)

/-! ## Runs -/

/-- What a lookup does to the number of slots in use: one more, which is that of
its result, or none. -/
def Progress.Accounts (base : Reader) : Progress → Prop
  | returned (some i) r => r.Taken i ∧ r.inUse.length = base.inUse.length + 1
  | returned none r => r.inUse.length = base.inUse.length
  | _ => False

theorem Progress.Exact.accounts {base : Reader} {p : Progress} (h : p.Exact base) :
    p.Accounts base := by
  cases p with
  | running w r => cases h
  | undefined => cases h
  | returned result r =>
      cases result with
      | none => exact congrArg List.length h.failed
      | some fd =>
          have hlength := h.opened.length_eq
          rw [List.length_cons] at hlength
          exact ⟨(h.2 fd).mpr (Or.inr rfl), hlength⟩

/-- Sound calls keep the table balanced, in whatever order they come, and every
sound lookup after them accounts for its slots. -/
theorem ext2Run_balanced (s : Session) (calls : List FileCall) (h : s.Balanced)
    (hsound : StepsMeet fileStep FileSound s calls) :
    ∃ s', run fileStep s calls = some s' ∧ s'.Balanced ∧
      ∀ name, LookupSound s'.reader name →
        (ext2Namei s'.reader name).Accounts s'.reader := by
  obtain ⟨s', hrun, hbalanced⟩ := run_total (fun _ _ => fileStep_balanced) h hsound
  exact ⟨s', hrun, hbalanced, fun name hname => (ext2Namei_exact hname).accounts⟩

/-! ## Checking a lookup -/

instance (w : Walk) (r : Reader) (file : Nat) : Decidable (w.Follows r file) :=
  inferInstanceAs (Decidable (_ ∧ _))

instance (r : Reader) (i : Nat) : Decidable (r.Taken i) :=
  inferInstanceAs (Decidable (Slot.free (r.slots i) = false))

/-- The conditions on a step, as they can be checked. -/
def stepSound (w : Walk) (r : Reader) : Bool :=
  match w.file with
  | none => w.todo == []
  | some file =>
      if w.Follows r file then
        (w.dir.all fun dir => file < dir) &&
          if w.todo = [] then
            (loadLastLink r w file).any fun (_, text) =>
              text != [] && decide (text.length < namebufSize - 1) &&
                (text.head? != some slash || w.dir.isSome)
          else decide ((extendPath (loadLink r file).2 w.todo).length < namebufSize)
      else
        match w.todo with
        | [] => true
        | component :: _ =>
            !isDir (r.inode file).mode || (searchDir (putIfAny r w.dir) file component).isSome

theorem StepSound.of_check {w : Walk} {r : Reader} (h : stepSound w r = true) : StepSound w r := by
  unfold stepSound at h
  constructor
  · intro file dir hfile hdir hfollows
    simp only [hfile, hdir, if_pos hfollows, Option.all_some, Bool.and_eq_true,
      decide_eq_true_eq] at h
    exact h.1
  · intro htodo hfile
    simp [hfile, htodo] at h
  · intro file component rest hfile htodo hmode
    have hfollows : ¬ w.Follows r file := by
      intro hfollows
      rw [Walk.Follows, isLink_of_isDir hmode] at hfollows
      exact absurd hfollows.1 (by decide)
    simp only [hfile, if_neg hfollows, htodo, hmode] at h
    intro hnone
    simp [hnone] at h
  · intro file hfile htodo hfollows
    simp only [hfile, if_pos hfollows, if_neg htodo, Bool.and_eq_true, decide_eq_true_eq] at h
    exact h.2
  · intro file hfile htodo hfollows
    simp only [hfile, if_pos hfollows, if_pos htodo, Bool.and_eq_true, Option.any_eq_true] at h
    obtain ⟨_, ⟨r', text⟩, hload, hcheck⟩ := h
    simp only [bne_iff_ne, decide_eq_true_eq, Bool.or_eq_true, Option.isSome_iff_ne_none]
      at hcheck
    exact ⟨r', text, hload, hcheck.1.1, hcheck.1.2, fun habs => hcheck.2.resolve_left (by simp [habs])⟩

/-- The check along a whole walk. -/
def walkSound : Nat → Progress → Bool
  | n + 1, .running w r => stepSound w r && walkSound n (walkStep w r)
  | _, _ => true

theorem walkSound_step {n m : Nat} {p : Progress} {w : Walk} {r : Reader}
    (h : walkSound n p = true) (hm : m < n) (hat : walkFrom m p = .running w r) :
    StepSound w r := by
  induction m generalizing n p with
  | zero =>
      cases n with
      | zero => cases hm
      | succ n =>
          unfold walkFrom at hat
          subst hat
          unfold walkSound at h
          rw [Bool.and_eq_true] at h
          exact StepSound.of_check h.1
  | succ m ih =>
      cases n with
      | zero => cases hm
      | succ n =>
          cases p with
          | running w' r' =>
              unfold walkSound at h
              rw [Bool.and_eq_true] at h
              exact ih h.2 (Nat.lt_of_succ_lt_succ hm) hat
          | returned result r' => cases hat
          | undefined => cases hat

theorem LookupSound.of_check {r : Reader} {name : List UInt8} (hfits : name.length < namebufSize)
    (h : walkSound walkLimit (startWalk r name) = true) : LookupSound r name := by
  refine ⟨hfits, ?_⟩
  intro n w r' hat
  by_cases hn : n < walkLimit
  · exact walkSound_step h hn hat
  · have hleft := (startWalk_left r name).mono (Nat.le_of_not_lt hn)
    exact absurd hat (walkFrom_ends hleft w r')

/-! ## A volume with a link -/

/-- A root directory with a directory `d`, that holds a link `l` to the file
`f` beside it, and a second link to it, `l` in the root. -/
def linkImage : ByteMemory :=
  image
    -- the inodes of the root, of the link, of the file and of the directory
    [(5249, 0x40), (5253, 4), (5288, 6), (5377, 0xa0), (5416, 0x66), (5505, 0x80),
      (5633, 0x40), (5637, 4), (5672, 7),
      -- the root directory
      (6144, 3), (6148, 12), (6150, 1), (6152, 0x6c), (6156, 4), (6160, 12), (6162, 1),
      (6164, 0x66), (6168, 5), (6172, 0xe8), (6173, 3), (6174, 1), (6176, 0x64),
      -- the directory d
      (7168, 3), (7172, 12), (7174, 1), (7176, 0x6c), (7180, 4), (7184, 0xf4), (7185, 3),
      (7186, 1), (7188, 0x66)]

/-- The reader after the volume has been mounted. -/
def linkReader : Reader where
  drive := (Device.sound linkImage).drive
  t := 0
  vol := smallVolume
  slots := fun _ => ⟨fun _ => 0, true⟩
  caches := ⟨⟨noBlock, fun _ => 0⟩, ⟨noBlock, fun _ => 0⟩⟩
  blkbuf := fun _ => 0

/-- A link after an even number of components: its slot is before that of its
directory, and the file can be opened and closed. -/
theorem ext2Run_balanced_even :
    ∃ s', run fileStep ⟨linkReader, []⟩ [.open [0x64, 0x2f, 0x6c], .close 0] = some s' ∧
      s'.Balanced ∧ ∀ name, LookupSound s'.reader name →
        (ext2Namei s'.reader name).Accounts s'.reader := by
  refine ext2Run_balanced ⟨linkReader, []⟩ _ (List.Perm.refl _) ⟨?_, ?_⟩
  · exact LookupSound.of_check (by decide) (by decide +kernel)
  · intro s' hs
    have hopens : (fileStep ⟨linkReader, []⟩ (.open [0x64, 0x2f, 0x6c])).map Session.opens =
        some [0] := by decide +kernel
    rw [hs] at hopens
    refine ⟨?_, fun _ _ => trivial⟩
    unfold FileSound
    rw [Option.some.inj hopens]
    exact List.mem_singleton.mpr rfl

/-- A link in the root directory: the slot of the file is given back before
it is returned. -/
theorem link_slot_released :
    ∃ r, ext2Namei linkReader [0x6c] = .returned (some 0) r ∧ ¬ r.Taken 0 ∧
      ¬ (ext2Namei linkReader [0x6c]).Accounts linkReader := by
  have hfreed : (match ext2Namei linkReader [0x6c] with
      | .returned result r => decide (result = some 0 ∧ ¬ r.Taken 0)
      | .running _ _ => false
      | .undefined => false) = true := by decide +kernel
  split at hfreed
  · rename_i result r hr
    obtain ⟨rfl, hfree⟩ := of_decide_eq_true hfreed
    refine ⟨r, hr, hfree, ?_⟩
    rw [hr]
    exact fun h => hfree h.1
  · cases hfreed
  · cases hfreed

end Milo.Fs.Ext2
