import Milo.Fs.Ext2Search

/-! # The steps of a lookup on an ext2 volume

A lookup has its inode and its directory in the two lowest free slots of the table,
by turns. A link gives one of them back, and what is left decides whether a later
link still finds the directory it was found in.
-/

namespace Milo.Fs.Ext2

open Foundation Foundation.LinkTree

/-! ## Two slots -/

/-- How a lookup stands in its two slots: its inode is in the first one, or in the
second, or the inode and its directory share the first. -/
inductive Standing where
  | even
  | odd
  | shared
  deriving DecidableEq

namespace Standing

/-- After a component has been found. -/
def lookup : Standing → Standing
  | even => odd
  | odd => even
  | shared => shared

/-- After the link that has been found is followed. A relative one that shares its
slot with the directory is lost. -/
def follow (absolute : Bool) : Standing → Option Standing
  | even => some (if absolute then even else odd)
  | odd => some shared
  | shared => if absolute then some shared else none

/-- The slot of the inode, of the two slots `i` and `k`. -/
def fileSlot (i k : Nat) : Standing → Nat
  | even => i
  | odd => k
  | shared => i

/-- The slots of a walk. -/
def Slots (i k : Nat) (dir : Option Nat) (r : Reader) : Standing → Prop
  | even => r.Taken i ∧ (dir = some k ∨ dir = none ∧ ¬ r.Taken k)
  | odd => dir = some i ∨ dir = some k ∧ ¬ r.Taken i
  | shared => dir = some i

theorem fileSlot_cases (s : Standing) (i k : Nat) : s.fileSlot i k = i ∨ s.fileSlot i k = k := by
  cases s with
  | even => exact Or.inl rfl
  | odd => exact Or.inr rfl
  | shared => exact Or.inl rfl

end Standing

/-- The two lowest free slots. -/
structure LowestFree (base : Reader) (i k : Nat) : Prop where
  lt : i < k
  inside : k < maxOpenFiles
  first : ¬ base.Taken i
  second : ¬ base.Taken k
  before : ∀ j < k, j ≠ i → base.Taken j

/-- The last expansion of a link that is lost, after `left` more of them. -/
def lastExpansion (text : List UInt8) (left : Nat) (rest : List (List UInt8)) : List UInt8 :=
  extendPath text ((List.replicate left (components text)).flatten ++ rest)

theorem lastExpansion_succ (text : List UInt8) (left : Nat) (rest : List (List UInt8)) :
    lastExpansion text (left + 1) rest = lastExpansion text left (components text ++ rest) := by
  unfold lastExpansion
  rw [List.replicate_succ', List.flatten_append, List.flatten_singleton, List.append_assoc]

theorem length_le_lastExpansion (text : List UInt8) (left : Nat) (rest : List (List UInt8)) :
    (extendPath text rest).length ≤ (lastExpansion text left rest).length := by
  unfold lastExpansion extendPath
  rw [List.flatMap_append]
  simp only [List.length_append]
  omega

/-- The walk ends with NULL if the path fits the buffer, and runs over its end otherwise. -/
def EndsLost (path : List UInt8) (p : Progress) : Prop :=
  ∃ steps, (path.length < namebufSize → ∃ r, walkFrom steps p = .returned none r) ∧
    (namebufSize ≤ path.length → walkFrom steps p = .undefined)

theorem EndsLost.step {path : List UInt8} {w : Walk} {r : Reader} {p : Progress}
    (hstep : walkStep w r = p) (h : EndsLost path p) : EndsLost path (.running w r) := by
  obtain ⟨steps, hnull, hover⟩ := h
  subst hstep
  exact ⟨steps + 1, hnull, hover⟩

namespace LinkVolume

variable {ν : Type _} {volume : LinkVolume ν} {base r : Reader} {i k : Nat} {s : Standing}
  {n m : ν} {w : Walk} {r₁ : Reader}

/-- The walk is at a node. -/
structure Stands (volume : LinkVolume ν) (base : Reader) (i k : Nat) (s : Standing) (n : ν)
    (w : Walk) (r : Reader) : Prop where
  mounted : volume.MountedIn r
  others : ∀ j, j ≠ i → j ≠ k → (r.Taken j ↔ base.Taken j)
  slots : s.Slots i k w.dir r
  file : w.file = some (s.fileSlot i k)
  inode : volume.Holds r (s.fileSlot i k) n

/-- The walk has found a node in a directory, whose inode it still has unless the two
share a slot. -/
structure Found (volume : LinkVolume ν) (base : Reader) (i k : Nat) (s : Standing) (n m : ν)
    (w : Walk) (r : Reader) : Prop where
  stands : volume.Stands base i k s.lookup m w r
  dir : w.dir = some (s.fileSlot i k)
  inode : s ≠ .shared → volume.Holds r (s.fileSlot i k) n

theorem Stands.dir_cases (h : volume.Stands base i k s n w r) :
    w.dir = none ∨ w.dir = some i ∨ w.dir = some k := by
  have hslots := h.slots
  cases s with
  | even => exact hslots.2.elim (fun hk => Or.inr (Or.inr hk)) fun hnone => Or.inl hnone.1
  | odd => exact Or.inr (hslots.imp id And.left)
  | shared => exact Or.inr (Or.inl hslots)

/-- Once the directory is given back, the next inode goes to the slot that the
standing has for it. -/
theorem Stands.put (h : volume.Stands base i k s n w r) (hfree : LowestFree base i k) :
    ¬ (putIfAny r w.dir).Taken (s.lookup.fileSlot i k) ∧
      ∀ j < s.lookup.fileSlot i k, (putIfAny r w.dir).Taken j := by
  have hlt := hfree.lt
  have hslots := h.slots
  have hdirs := h.dir_cases
  have hothers : ∀ j < k, j ≠ i → (putIfAny r w.dir).Taken j := by
    intro j hj hne
    rw [putIfAny_taken, h.others j hne (by omega)]
    refine ⟨hfree.before j hj hne, fun hdir => ?_⟩
    rw [hdir] at hdirs
    simp only [reduceCtorEq, Option.some.injEq, false_or] at hdirs
    omega
  cases s with
  | even =>
      simp only [Standing.lookup, Standing.fileSlot, putIfAny_taken]
      refine ⟨?_, fun j hj => ?_⟩
      · rcases hslots.2 with hdir | ⟨_, hnot⟩
        · exact fun h => h.2 hdir
        · exact fun h => hnot h.1
      · by_cases hji : j = i
        · subst hji
          refine ⟨hslots.1, ?_⟩
          rcases hslots.2 with hdir | ⟨hdir, _⟩
          · rw [hdir]
            simp only [ne_eq, Option.some.injEq]
            omega
          · rw [hdir]
            simp
        · exact (putIfAny_taken r w.dir j).mp (hothers j hj hji)
  | odd =>
      refine ⟨?_, fun j hj => hothers j (Nat.lt_trans hj hlt) (Nat.ne_of_lt hj)⟩
      rw [putIfAny_taken]
      rcases hslots with hdir | ⟨_, hnot⟩
      · exact fun h => h.2 hdir
      · exact fun h => hnot h.1
  | shared =>
      refine ⟨?_, fun j hj => hothers j (Nat.lt_trans hj hlt) (Nat.ne_of_lt hj)⟩
      rw [putIfAny_taken]
      exact fun h => h.2 hslots

/-! ## Results -/

/-- The call returns the inode of the node, or NULL if there is none. -/
def Returns (volume : LinkVolume ν) : Option ν → Progress → Prop
  | some n, .returned (some i) r => volume.Holds r i n
  | none, .returned none _ => True
  | _, _ => False

/-- The walk comes to an end, which is right exactly if a condition holds. -/
def Settles (volume : LinkVolume ν) (result : Option ν) (right : Bool) (p : Progress) : Prop :=
  ∃ steps, (∀ w r, walkFrom steps p ≠ .running w r) ∧
    (volume.Returns result (walkFrom steps p) ↔ right = true)

theorem Settles.step {result : Option ν} {right : Bool} {p : Progress} (hstep : walkStep w r = p)
    (h : volume.Settles result right p) : volume.Settles result right (.running w r) := by
  obtain ⟨steps, hends, hright⟩ := h
  subst hstep
  exact ⟨steps + 1, hends, hright⟩

theorem isDir_inode {slot : Nat} (h : volume.Holds r slot n) :
    isDir (r.inode slot).mode = volume.tree.isDir n := by
  rw [h.mode]
  exact volume.holds.dir n

theorem isLink_inode {slot : Nat} (h : volume.Holds r slot n) :
    isLink (r.inode slot).mode = (volume.tree.text n).isSome := by
  rw [h.mode]
  exact volume.holds.link n

/-! ## One component -/

/-- The search for a component, with the reader that the directory has been given
back to. -/
theorem Stands.search {name : List UInt8} (h : volume.Stands base i k s n w r)
    (hdir : volume.tree.isDir n = true) (hname : IsToken name)
    (hsearch : volume.Searchable n name) :
    volume.Holds (putIfAny r w.dir) (s.fileSlot i k) n ∧
      ∃ r', searchDir (putIfAny r w.dir) (s.fileSlot i k) name =
          some ((volume.tree.step n name).map volume.number, r') ∧
        volume.MountedIn r' ∧ r'.slots = (putIfAny r w.dir).slots := by
  have hinode : volume.Holds (putIfAny r w.dir) (s.fileSlot i k) n :=
    h.inode.congr (putIfAny_inode r w.dir _)
  exact ⟨hinode, searchDir_eq hdir hname hsearch (h.mounted.congr (putIfAny_cacheState r w.dir))
    hinode⟩

/-- The root is read again once the slots of the link and of its directory are free. -/
theorem abs_eq {path : List UInt8} {links : Nat} {s' : Standing} (hlocated : volume.Located)
    (hr : volume.MountedIn r) (hfree : LowestFree base i k)
    (hfollow : s.lookup.follow true = some s')
    (hfirst : ¬ r.Taken i) (hothers : ∀ j, j ≠ i → j ≠ k → (r.Taken j ↔ base.Taken j)) :
    ∃ w' r', abs r (some (s.fileSlot i k)) path links = .running w' r' ∧
      w'.todo = components path ∧ w'.links = links ∧
      volume.Stands base i k s' volume.tree.root w' r' := by
  have hlt := hfree.lt
  have hin := hfree.inside
  obtain ⟨r₁, higet, hmounted, hholds, htaken, _⟩ := ext2Iget_eq hlocated hr (by omega) hfirst
    (fun j hj => (hothers j (by omega) (by omega)).mpr (hfree.before j (by omega) (by omega)))
    volume.tree.root
  have hslots : s'.fileSlot i k = i ∧ s'.Slots i k (some (s.fileSlot i k)) r₁ := by
    cases s with
    | even =>
        obtain rfl := Option.some.inj hfollow
        exact ⟨rfl, rfl⟩
    | odd =>
        obtain rfl := Option.some.inj hfollow
        exact ⟨rfl, (htaken i).mpr (Or.inr rfl), Or.inl rfl⟩
    | shared =>
        obtain rfl := Option.some.inj hfollow
        exact ⟨rfl, rfl⟩
  rw [volume.holds.root] at higet
  unfold abs
  simp only [higet]
  refine ⟨_, r₁, rfl, rfl, rfl, hmounted, ?_, hslots.2, ?_, ?_⟩
  · intro j hji hjk
    rw [htaken, hothers j hji hjk]
    simp [hji]
  · rw [hslots.1]
  · rw [hslots.1]
    exact hholds

/-- The directory of the link becomes the inode as well. -/
theorem rel_eq {path : List UInt8} {links : Nat} {s' : Standing}
    (h : volume.Found base i k s n m w r) (hr : volume.MountedIn r₁)
    (hfollow : s.lookup.follow false = some s') (hinode : ∀ j, r₁.inode j = r.inode j)
    (htaken : ∀ j, r₁.Taken j ↔ r.Taken j ∧ j ≠ s.lookup.fileSlot i k) :
    ∃ w' r', rel r₁ (some (s.fileSlot i k)) (some (s.fileSlot i k)) path links = .running w' r' ∧
      w'.todo = components path ∧ w'.links = links ∧ volume.Stands base i k s' n w' r' := by
  have hslots : s'.fileSlot i k = s.fileSlot i k ∧ s ≠ .shared ∧
      s'.Slots i k (some (s.fileSlot i k)) r₁ := by
    cases s with
    | even =>
        obtain rfl := Option.some.inj hfollow
        exact ⟨rfl, by decide, rfl⟩
    | odd =>
        obtain rfl := Option.some.inj hfollow
        exact ⟨rfl, by decide, Or.inr ⟨rfl, fun ht => ((htaken i).mp ht).2 rfl⟩⟩
    | shared => cases hfollow
  refine ⟨_, r₁, rfl, rfl, rfl, hr, ?_, hslots.2.2, ?_, ?_⟩
  · intro j hji hjk
    have hfile : j ≠ s.lookup.fileSlot i k := by
      rcases s.lookup.fileSlot_cases i k with heq | heq <;> omega
    rw [htaken, h.stands.others j hji hjk]
    simp [hfile]
  · rw [hslots.1]
  · rw [hslots.1]
    exact (h.inode hslots.2.1).congr (hinode _)

/-- What is taken once the slots of the link and of its directory are given back. -/
theorem Found.released (h : volume.Found base i k s n m w r)
    (htaken : ∀ j, r₁.Taken j ↔ r.Taken j ∧ j ≠ s.lookup.fileSlot i k ∧ w.dir ≠ some j) :
    ¬ r₁.Taken i ∧ ∀ j, j ≠ i → j ≠ k → (r₁.Taken j ↔ base.Taken j) := by
  constructor
  · rw [htaken, h.dir]
    cases s with
    | even => exact fun ht => ht.2.2 rfl
    | odd => exact fun ht => ht.2.1 rfl
    | shared => exact fun ht => ht.2.1 rfl
  · intro j hji hjk
    have hfile : j ≠ s.lookup.fileSlot i k := by
      rcases s.lookup.fileSlot_cases i k with heq | heq <;> omega
    have hdir : s.fileSlot i k ≠ j := by
      rcases s.fileSlot_cases i k with heq | heq <;> omega
    rw [htaken, h.stands.others j hji hjk, h.dir]
    simp [hfile, hdir]

theorem Found.isLink {text : List UInt8} (h : volume.Found base i k s n m w r)
    (htext : volume.tree.text m = some text) :
    isLink (r.inode (s.lookup.fileSlot i k)).mode = true := by
  rw [isLink_inode h.stands.inode, htext]
  rfl

/-- The text of a link that has been found, with what is still behind it, is the new
path. -/
theorem Found.walkStep_link {text : List UInt8} (h : volume.Found base i k s n m w r)
    (htext : volume.tree.text m = some text)
    (hlinks : w.links + 1 ≤ if w.todo = [] then 5 else 10)
    (hnames : ∀ name ∈ w.todo, IsToken name)
    (hfits : (extendPath text w.todo).length < namebufSize)
    (hread : if w.todo = [] then (volume.inode m).blocks = 0 else volume.LinkRead m) :
    ∃ path rabs rrel, components path = components text ++ w.todo ∧
      walkStep w r =
        (if isAbsolute text = true then abs rabs (some (s.fileSlot i k)) path (w.links + 1)
          else rel rrel (some (s.fileSlot i k)) (some (s.fileSlot i k)) path (w.links + 1)) ∧
      volume.MountedIn rabs ∧ volume.MountedIn rrel ∧
      (∀ j, rabs.Taken j ↔ r.Taken j ∧ j ≠ s.lookup.fileSlot i k ∧ w.dir ≠ some j) ∧
      (∀ j, rrel.Taken j ↔ r.Taken j ∧ j ≠ s.lookup.fileSlot i k) ∧
      ∀ j, rrel.inode j = r.inode j := by
  have hne := (volume.holds.named m text htext).1
  have hlink := h.isLink htext
  unfold walkStep
  rw [h.stands.file]
  cases htodo : w.todo with
  | nil =>
      rw [if_pos htodo] at hread hlinks
      obtain ⟨hstring, hshort⟩ := stringAt_inode h.stands.inode htext hread
      have hload : loadLastLink r w (s.lookup.fileSlot i k) = some (r, text) := by
        unfold loadLastLink
        rw [if_neg (by rw [h.stands.inode.blocks]; exact not_not.mpr hread), hstring]
      have hput : volume.MountedIn (ext2Iput r (s.lookup.fileSlot i k)) :=
        h.stands.mounted.congr rfl
      have htakens : ∀ j, (ext2Iput (ext2Iput r (s.lookup.fileSlot i k)) (s.fileSlot i k)).Taken j ↔
          r.Taken j ∧ j ≠ s.lookup.fileSlot i k ∧ w.dir ≠ some j := by
        intro j
        rw [ext2Iput_taken, ext2Iput_taken, and_assoc, h.dir]
        simp [eq_comm]
      refine ⟨text, ext2Iput (ext2Iput r (s.lookup.fileSlot i k)) (s.fileSlot i k),
        ext2Iput r (s.lookup.fileSlot i k), (List.append_nil _).symm, ?_, hput.congr rfl, hput,
        htakens, ext2Iput_taken r _, ext2Iput_inode r _⟩
      simp only
      rw [if_pos hlink, if_neg (by omega)]
      unfold followLast
      rw [hload]
      simp only
      rw [if_neg (by unfold namebufSize; omega), h.dir]
      simp [isAbsolute]
  | cons component rest =>
      have hmore : w.todo ≠ [] := by
        rw [htodo]
        exact List.cons_ne_nil _ _
      rw [if_neg hmore] at hread hlinks
      obtain ⟨hload, hmounted, hslots⟩ := loadLink_eq h.stands.mounted h.stands.inode htext hread
      have hpath : components (extendPath text w.todo) = components text ++ w.todo :=
        components_extendPath text fun name hname => (hnames name hname).component
      have hhead : (extendPath text w.todo).head? = text.head? := by
        obtain ⟨c, text, rfl⟩ := List.exists_cons_of_ne_nil hne
        rfl
      simp only
      rw [if_pos hlink, if_neg (by omega)]
      unfold followOnWay
      simp only
      rw [hload, ← htodo, if_neg (by omega), hhead, h.dir]
      generalize (loadLink r (s.lookup.fileSlot i k)).1 = r₁ at hmounted hslots ⊢
      generalize store r₁.blkbuf (storesAt 0 (extendPath text w.todo ++ [0])) = buf
      have hsame : ∀ j, ({ r₁ with blkbuf := buf } : Reader).Taken j ↔ r.Taken j :=
        Reader.taken_congr hslots
      have hinodes : ∀ j, ({ r₁ with blkbuf := buf } : Reader).inode j = r.inode j :=
        Reader.inode_congr hslots
      refine ⟨extendPath text w.todo,
        ext2Iput (putIfAny { r₁ with blkbuf := buf } (some (s.fileSlot i k)))
          (s.lookup.fileSlot i k),
        ext2Iput { r₁ with blkbuf := buf } (s.lookup.fileSlot i k), hpath, ?_, hmounted.congr rfl,
        hmounted.congr rfl, fun j => ?_, fun j => ?_, fun j => ?_⟩
      · simp [isAbsolute]
      · rw [ext2Iput_taken, putIfAny_taken, hsame, and_assoc,
          and_comm (a := some (s.fileSlot i k) ≠ some j)]
      · rw [ext2Iput_taken, hsame]
      · rw [ext2Iput_inode, hinodes]

/-- A link that has been found is followed. -/
theorem Found.follow {text : List UInt8} {s' : Standing} (h : volume.Found base i k s n m w r)
    (hlocated : volume.Located) (hfree : LowestFree base i k)
    (htext : volume.tree.text m = some text)
    (hfollow : s.lookup.follow (isAbsolute text) = some s')
    (hlinks : w.links + 1 ≤ if w.todo = [] then 5 else 10)
    (hnames : ∀ name ∈ w.todo, IsToken name)
    (hfits : (extendPath text w.todo).length < namebufSize)
    (hread : if w.todo = [] then (volume.inode m).blocks = 0 else volume.LinkRead m) :
    ∃ w' r', walkStep w r = .running w' r' ∧ w'.todo = components text ++ w.todo ∧
      w'.links = w.links + 1 ∧ volume.Stands base i k s' (volume.tree.origin n text) w' r' := by
  obtain ⟨path, rabs, rrel, hpath, hstep, habs, hrel, htakenAbs, htakenRel, hinode⟩ :=
    h.walkStep_link htext hlinks hnames hfits hread
  rw [hstep, ← hpath]
  unfold LinkTree.origin
  cases htext : isAbsolute text with
  | true =>
      rw [htext] at hfollow
      have hreleased := h.released htakenAbs
      exact abs_eq hlocated habs hfree hfollow hreleased.1 hreleased.2
  | false =>
      rw [htext] at hfollow
      exact rel_eq h hrel hfollow hinode htakenRel

/-! ## A link that is lost -/

/-- A relative link that shares its slot with its directory is found again in itself. -/
theorem Found.lost_step {text : List UInt8} (h : volume.Found base i k .shared n m w r)
    (htext : volume.tree.text m = some text) (hrelative : isAbsolute text = false)
    (hlinks : w.links + 1 ≤ if w.todo = [] then 5 else 10)
    (hnames : ∀ name ∈ w.todo, IsToken name)
    (hfits : (extendPath text w.todo).length < namebufSize)
    (hread : if w.todo = [] then (volume.inode m).blocks = 0 else volume.LinkRead m) :
    ∃ w' r', walkStep w r = .running w' r' ∧ w'.todo = components text ++ w.todo ∧
      w'.links = w.links + 1 ∧ w'.todo ≠ [] ∧ (∀ name ∈ w'.todo, IsToken name) ∧
      volume.Found base i k .shared n m w' r' := by
  obtain ⟨path, rabs, rrel, hpath, hstep, -, hrel, -, htaken, hinode⟩ :=
    h.walkStep_link htext hlinks hnames hfits hread
  obtain ⟨hne, hnul⟩ := volume.holds.named m text htext
  have hmore : components path ≠ [] := by
    rw [hpath]
    refine List.append_ne_nil_of_left_ne_nil (components_ne_nil hne fun hslash => ?_) _
    rw [isAbsolute, hslash] at hrelative
    cases hrelative
  have htokens : ∀ name ∈ components path, IsToken name := by
    intro name hname
    rw [hpath, List.mem_append] at hname
    exact hname.elim (components_isToken hnul) (hnames name)
  rw [hstep, hrelative, if_neg Bool.false_ne_true]
  refine ⟨_, rrel, rfl, hpath, rfl, hmore, htokens, ⟨hrel, fun j hji hjk => ?_, rfl, rfl, ?_⟩, rfl,
    fun hne => absurd rfl hne⟩
  · rw [htaken, h.stands.others j hji hjk]
    simp [Standing.lookup, Standing.fileSlot, hji]
  · exact h.stands.inode.congr (hinode _)

/-- Once there were ten links the link is taken for a directory. -/
theorem Found.lost_end {text : List UInt8} (h : volume.Found base i k .shared n m w r)
    (htext : volume.tree.text m = some text) (hlinks : w.links = 10) (htodo : w.todo ≠ []) :
    ∃ r', walkStep w r = .returned none r' := by
  have hdir : volume.tree.isDir m = false := by
    by_contra hdir
    rw [volume.tree.text_dir m (by simpa using hdir)] at htext
    cases htext
  have hlink := h.isLink htext
  obtain ⟨component, rest, htodo⟩ := List.exists_cons_of_ne_nil htodo
  unfold walkStep
  rw [h.stands.file, htodo]
  simp only
  rw [if_pos hlink, if_pos (by omega)]
  exact ⟨_, if_pos (by rw [isDir_inode (h.stands.inode.congr (putIfAny_inode r w.dir _)), hdir])⟩

/-- An expansion that is too long is written over the end of the buffer. -/
theorem Found.lost_long {text : List UInt8} (left : Nat)
    (h : volume.Found base i k .shared n m w r) (htext : volume.tree.text m = some text)
    (hlinks : w.links + 1 ≤ 10) (htodo : w.todo ≠ []) (hread : volume.LinkRead m)
    (hlong : namebufSize ≤ (extendPath text w.todo).length) :
    EndsLost (lastExpansion text left w.todo) (.running w r) := by
  have hload := (loadLink_eq h.stands.mounted h.stands.inode htext hread).1
  have hlink := h.isLink htext
  have hover : walkStep w r = .undefined := by
    obtain ⟨component, rest, htodo⟩ := List.exists_cons_of_ne_nil htodo
    unfold walkStep
    rw [h.stands.file, htodo]
    rw [htodo] at hlong
    simp only
    rw [if_pos hlink, if_neg (by omega)]
    unfold followOnWay
    simp only
    rw [hload, if_pos hlong]
  have hle := length_le_lastExpansion text left w.todo
  refine EndsLost.step hover ⟨0, fun hshort => ?_, fun _ => rfl⟩
  omega

/-- A link that is lost is expanded until there were ten links. -/
theorem Found.lost {text : List UInt8} (left : Nat) (h : volume.Found base i k .shared n m w r)
    (htext : volume.tree.text m = some text) (hrelative : isAbsolute text = false)
    (hlinks : w.links + left = 9) (htodo : w.todo ≠ []) (hnames : ∀ name ∈ w.todo, IsToken name)
    (hread : volume.LinkRead m) : EndsLost (lastExpansion text left w.todo) (.running w r) := by
  induction left generalizing w r with
  | zero =>
      by_cases hfits : (extendPath text w.todo).length < namebufSize
      · obtain ⟨w', r', hstep, _, hlinks', hmore, _, hnext⟩ := h.lost_step htext hrelative
          (by rw [if_neg htodo]; omega) hnames hfits (by rw [if_neg htodo]; exact hread)
        obtain ⟨r'', hnull⟩ := hnext.lost_end htext (by omega) hmore
        refine EndsLost.step hstep ⟨1, fun _ => ⟨r'', hnull⟩, fun hlong => ?_⟩
        exact absurd hfits (Nat.not_lt_of_le hlong)
      · exact h.lost_long 0 htext (by omega) htodo hread (Nat.le_of_not_lt hfits)
  | succ left ih =>
      by_cases hfits : (extendPath text w.todo).length < namebufSize
      · obtain ⟨w', r', hstep, htodo', hlinks', hmore, hnames', hnext⟩ := h.lost_step htext
          hrelative (by rw [if_neg htodo]; omega) hnames hfits (by rw [if_neg htodo]; exact hread)
        rw [lastExpansion_succ, ← htodo']
        exact EndsLost.step hstep (ih hnext (by omega) hmore hnames')
      · exact h.lost_long (left + 1) htext (by omega) htodo hread (Nat.le_of_not_lt hfits)

end LinkVolume

end Milo.Fs.Ext2
