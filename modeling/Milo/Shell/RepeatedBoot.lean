import Mathlib.Algebra.Order.BigOperators.Group.List
import Mathlib.Algebra.Order.Group.Nat
import Mathlib.Data.List.Find
import Milo.Shell.ConfigPrompt
import Milo.Shell.OptionText

/-! # Booting the same image again

A boot attempt leaves its cuts in the strings of the entry. The next attempt with
the same label reads what is left of the command strings and of the image string,
and every other string as it was.
-/

namespace Milo.Shell

open Foundation

/-- The device of an entry, or else the one the file is on. -/
def defaultDevice (buf : List UInt8) (image : Image Nat) (devname : List UInt8) : List UInt8 :=
  (image.device.map (stringIn buf)).getD devname

/-- The device and the file that an image string names. -/
def splitImage (defdev string : List UInt8) : List UInt8 × List UInt8 :=
  let chptr := string.findIdx (· == colon)
  if chptr < string.length then (string.take chptr, string.drop (chptr + 1)) else (defdev, string)

/-- The strings that an attempt cuts read the same to the next one. -/
structure Repeatable (reuse : Bool) (buf : List UInt8) (image : Image Nat)
    (devname args : List UInt8) : Prop where
  commands : ∀ p ∈ image.cmdlist, RunsAgain (stringIn buf p)
  file : ∀ start ∈ image.image, colon ∉ stringIn buf start ∨
    colon ∉ defaultDevice buf image devname ∧
      stringIn buf start =
        defaultDevice buf image devname ++ colon :: defaultDevice buf image devname
  options : reuse = true → EndsBlank args

/-! ## The commands -/

/-- Each command is run as it was stored. -/
theorem runCommands_ran {buf : List UInt8} {ps : List Nat} (h : ps.Pairwise (Apart buf)) :
    (runCommands buf ps).1 = ps.flatMap fun p => commandsRun (stringIn buf p) := by
  induction ps generalizing buf with
  | nil => rfl
  | cons p ps ih =>
      rw [List.pairwise_cons] at h
      have hedits := parseCommandAt_edits buf p
      have hrest := ih (h.2.imp fun hapart => hapart.mono hedits.nuls)
      unfold runCommands
      simp only
      rw [hrest, List.flatMap_cons]
      congr 1
      apply List.flatMap_congr
      intro q hq
      rw [hedits.others q fun _ hp => List.mem_singleton.mp hp ▸ h.1 q hq]

theorem runCommands_edits (buf : List UInt8) (ps : List Nat) :
    Edits buf (runCommands buf ps).2 ps := by
  induction ps generalizing buf with
  | nil => exact Edits.refl buf
  | cons p ps ih => exact (parseCommandAt_edits buf p).trans (ih (parseCommandAt buf p))

/-- What is left of each command. -/
theorem runCommands_residue {buf : List UInt8} {ps : List Nat} (h : ps.Pairwise (Apart buf))
    (hended : ∀ p ∈ ps, 0 ∈ buf.drop p) :
    ∀ p ∈ ps, stringIn (runCommands buf ps).2 p = residue (stringIn buf p) := by
  induction ps generalizing buf with
  | nil => exact fun _ hp => nomatch hp
  | cons p ps ih =>
      rw [List.pairwise_cons] at h
      have hedits := parseCommandAt_edits buf p
      have hlater := runCommands_edits (parseCommandAt buf p) ps
      intro q hq
      rcases List.mem_cons.mp hq with rfl | hq
      · have hkept := hlater.others q fun r hr => (h.1 r hr).symm.mono hedits.nuls
        exact hkept.trans (stringIn_parseCommandAt (hended q List.mem_cons_self))
      · have hrest := ih (h.2.imp fun hapart => hapart.mono hedits.nuls)
          (fun r hr => hedits.ended (hended r (List.mem_cons_of_mem p hr))) q hq
        rw [hedits.others q fun _ hp => List.mem_singleton.mp hp ▸ h.1 q hq] at hrest
        exact hrest

/-- A list that is put together from shorter pieces is the same only if each piece
is. -/
theorem flatMap_eq_iff {α β : Type} {f g : α → List β} {l : List α}
    (h : ∀ a ∈ l, (f a).length ≤ (g a).length) :
    l.flatMap f = l.flatMap g ↔ ∀ a ∈ l, f a = g a := by
  constructor
  · intro heq
    induction l with
    | nil => exact fun _ ha => nomatch ha
    | cons a l ih =>
        have hrest : ∀ b ∈ l, (f b).length ≤ (g b).length :=
          fun b hb => h b (List.mem_cons_of_mem a hb)
        have htotal : (l.flatMap f).length ≤ (l.flatMap g).length := by
          rw [List.length_flatMap, List.length_flatMap]
          exact List.sum_le_sum hrest
        rw [List.flatMap_cons, List.flatMap_cons] at heq
        have hlength := congrArg List.length heq
        rw [List.length_append, List.length_append] at hlength
        have hfirst := h a List.mem_cons_self
        obtain ⟨hsame, hothers⟩ := List.append_inj heq (by omega)
        exact List.forall_mem_cons.mpr ⟨hsame, ih hrest hothers⟩
  · exact fun heq => List.flatMap_congr heq

/-! ## One attempt -/

/-- The strings of an entry that are only read. -/
def Image.kept {α : Type} (i : Image α) : List α :=
  i.device.toList ++ (i.root.toList ++ (i.label.toList ++ i.append.toList))

section
variable {buf : List UInt8} {image : Image Nat} {start : Nat}

theorem Image.pointers_eq (hstart : image.image = some start) :
    image.pointers = start :: (image.kept ++ image.cmdlist) := by
  unfold pointers kept
  rw [hstart]
  simp

theorem mem_pointers_of_cut (hstart : image.image = some start) {p : Nat}
    (hp : p ∈ image.cmdlist ++ [start]) : p ∈ image.pointers := by
  rw [Image.pointers_eq hstart]
  rcases List.mem_append.mp hp with hcommand | hfirst
  · exact List.mem_cons_of_mem _ (List.mem_append_right _ hcommand)
  · rw [List.mem_singleton.mp hfirst]
    exact List.mem_cons_self

/-- The commands and the image string are apart from each other and from the rest of
the entry. -/
theorem own_apart (h : image.pointers.Pairwise (Apart buf)) (hstart : image.image = some start) :
    image.cmdlist.Pairwise (Apart buf) ∧ (∀ p ∈ image.cmdlist, Apart buf p start) ∧
      ∀ q ∈ image.kept, ∀ p ∈ image.cmdlist ++ [start], Apart buf p q := by
  rw [Image.pointers_eq hstart, List.pairwise_cons, List.pairwise_append] at h
  obtain ⟨hfirst, _, hcommands, hkept⟩ := h
  refine ⟨hcommands, fun p hp => (hfirst p (List.mem_append_right _ hp)).symm, fun q hq p hp => ?_⟩
  rcases List.mem_append.mp hp with hp | hp
  · exact (hkept q hq p hp).symm
  · rw [List.mem_singleton.mp hp]
    exact hfirst q (List.mem_append_left _ hq)

/-- An attempt works on the strings as they are before it. -/
theorem bootConfig_attempt (h : image.pointers.Pairwise (Apart buf))
    (hstart : image.image = some start) (devname : List UInt8) (optionstr : Option (List UInt8))
    (stale : List UInt8) :
    (bootConfig buf image devname optionstr stale).1 =
      { commands := image.cmdlist.flatMap fun p => commandsRun (stringIn buf p)
        device := (splitImage (defaultDevice buf image devname) (stringIn buf start)).1
        file := (splitImage (defaultDevice buf image devname) (stringIn buf start)).2
        options := bootOptions (image.root.map (stringIn buf)) (image.append.map (stringIn buf))
          optionstr stale } := by
  obtain ⟨hcommands, hcuts, hkept⟩ := own_apart h hstart
  have hedits := runCommands_edits buf image.cmdlist
  have hread : ∀ q ∈ image.kept, stringIn (runCommands buf image.cmdlist).2 q = stringIn buf q :=
    fun q hq => hedits.others q fun p hp => hkept q hq p (List.mem_append_left _ hp)
  have hfield : ∀ field : Option Nat, (∀ q ∈ field, q ∈ image.kept) →
      field.map (stringIn (runCommands buf image.cmdlist).2) = field.map (stringIn buf) := by
    intro field hsubset
    cases field with
    | none => rfl
    | some q => exact congrArg some (hread q (hsubset q rfl))
  have himage := hedits.others start hcuts
  unfold bootConfig
  simp only [hstart, Option.getD_some]
  rw [hfield image.root (by simp +contextual [Image.kept]),
    hfield image.append (by simp +contextual [Image.kept]),
    hfield image.device (by simp +contextual [Image.kept]), runCommands_ran hcommands, himage]
  unfold splitImage
  simp only
  split
  · rename_i hcolon
    rw [← himage] at hcolon
    rw [← himage, stringIn_set hcolon, stringIn_set_right hcolon]
  · rfl

theorem bootConfig_edits (hstart : image.image = some start) (devname : List UInt8)
    (optionstr : Option (List UInt8)) (stale : List UInt8) :
    Edits buf (bootConfig buf image devname optionstr stale).2 (image.cmdlist ++ [start]) := by
  apply (runCommands_edits buf image.cmdlist).trans
  unfold bootConfig
  simp only [hstart, Option.getD_some]
  split
  · rename_i hcolon
    exact edits_set hcolon
  · exact ⟨fun _ hi => hi, fun _ _ => rfl⟩

/-- What an attempt leaves of the strings it cuts. -/
theorem bootConfig_left (h : image.pointers.Pairwise (Apart buf))
    (hended : ∀ p ∈ image.cmdlist, 0 ∈ buf.drop p) (hstart : image.image = some start)
    (devname : List UInt8) (optionstr : Option (List UInt8)) (stale : List UInt8) :
    (∀ p ∈ image.cmdlist, stringIn (bootConfig buf image devname optionstr stale).2 p =
        residue (stringIn buf p)) ∧
      stringIn (bootConfig buf image devname optionstr stale).2 start =
        (stringIn buf start).takeWhile (· != colon) := by
  obtain ⟨hcommands, hcuts, _⟩ := own_apart h hstart
  have hedits := runCommands_edits buf image.cmdlist
  have hresidue := runCommands_residue hcommands hended
  have himage := hedits.others start hcuts
  have htake : (stringIn buf start).takeWhile (· != colon) =
      (stringIn buf start).take ((stringIn buf start).findIdx (· == colon)) := by
    rw [List.takeWhile_eq_take_findIdx_not]
    simp [bne]
  unfold bootConfig
  simp only [hstart, Option.getD_some]
  rw [himage]
  split
  · rename_i hcolon
    have hinside := hcolon
    rw [← himage] at hinside
    have hset := edits_set hinside
    constructor
    · intro p hp
      rw [← himage, hset.others p fun q hq => by
        rw [List.mem_singleton.mp hq]
        exact ((hcuts p hp).mono hedits.nuls).symm]
      exact hresidue p hp
    · rw [htake, ← himage, stringIn_set hinside]
  · rename_i hcolon
    refine ⟨hresidue, himage.trans ?_⟩
    rw [htake, List.take_of_length_le (Nat.le_of_not_lt hcolon)]

/-! ## The next attempt -/

theorem not_findIdx_lt {string : List UInt8} (h : colon ∉ string) :
    ¬ string.findIdx (· == colon) < string.length := by
  rw [List.findIdx_lt_length]
  rintro ⟨c, hc, heq⟩
  exact h (beq_iff_eq.mp heq ▸ hc)

theorem splitImage_of_not_mem {string : List UInt8} (h : colon ∉ string) (defdev : List UInt8) :
    splitImage defdev string = (defdev, string) := if_neg (not_findIdx_lt h)

theorem splitImage_append {device : List UInt8} (h : colon ∉ device) (defdev file : List UInt8) :
    splitImage defdev (device ++ colon :: file) = (device, file) := by
  have hindex : (device ++ colon :: file).findIdx (· == colon) = device.length := by
    rw [List.findIdx_append, if_neg (not_findIdx_lt h), List.findIdx_cons]
    simp
  unfold splitImage
  simp only
  rw [hindex, if_pos (by simp), List.take_left, List.drop_append,
    List.drop_eq_nil_of_le (Nat.le_succ _), Nat.add_sub_cancel_left]
  rfl

/-- The device is read off again only if it is the default one and the file has its
name. -/
theorem splitImage_again_iff (defdev string : List UInt8) :
    splitImage defdev (string.takeWhile (· != colon)) = splitImage defdev string ↔
      colon ∉ string ∨ colon ∉ defdev ∧ string = defdev ++ colon :: defdev := by
  by_cases hcolon : colon ∈ string
  · obtain ⟨device, file, rfl, hdevice⟩ := List.eq_append_cons_of_mem hcolon
    have hfront : (device ++ colon :: file).takeWhile (· != colon) = device := by
      rw [takeWhile_append_stop _ (by simp), List.takeWhile_eq_self_iff]
      intro c hc
      rw [bne_iff_ne]
      exact fun heq => hdevice (heq ▸ hc)
    rw [hfront, splitImage_of_not_mem hdevice, splitImage_append hdevice, Prod.mk.injEq]
    constructor
    · rintro ⟨rfl, rfl⟩
      exact Or.inr ⟨hdevice, rfl⟩
    · intro h
      obtain ⟨hdefdev, heq⟩ := h.resolve_left fun hnot => hnot hcolon
      obtain ⟨hfirst, _, hsecond⟩ :=
        (List.append_cons_inj_of_notMem hdefdev hdefdev).mp heq.symm
      exact ⟨hfirst, hfirst ▸ hsecond⟩
  · have hwhole : string.takeWhile (· != colon) = string := by
      rw [List.takeWhile_eq_self_iff]
      intro c hc
      rw [bne_iff_ne]
      exact fun heq => hcolon (heq ▸ hc)
    rw [hwhole]
    exact ⟨fun _ => Or.inl hcolon, fun _ => rfl⟩

/-- The second attempt is the first one again exactly if the entry is repeatable. -/
theorem bootConfig_again_iff {reuse : Bool} (h : image.pointers.Pairwise (Apart buf))
    (hended : ∀ p ∈ image.cmdlist, 0 ∈ buf.drop p) (hstart : image.image = some start)
    (devname : List UInt8) {args : List UInt8} (hargs : 0 ∉ args) :
    (∀ stale stale', BlockRest reuse stale → BlockRest reuse stale' →
        (bootConfig (bootConfig buf image devname (some args) stale).2 image devname (some args)
            stale').1 =
          (bootConfig buf image devname (some args) stale).1) ↔
      Repeatable reuse buf image devname args := by
  have hsecond : ∀ stale stale',
      (bootConfig (bootConfig buf image devname (some args) stale).2 image devname (some args)
          stale').1 =
        { commands := image.cmdlist.flatMap fun p => commandsRun (residue (stringIn buf p))
          device := (splitImage (defaultDevice buf image devname)
            ((stringIn buf start).takeWhile (· != colon))).1
          file := (splitImage (defaultDevice buf image devname)
            ((stringIn buf start).takeWhile (· != colon))).2
          options := bootOptions (image.root.map (stringIn buf))
            (image.append.map (stringIn buf)) (some args) stale' } := by
    intro stale stale'
    obtain ⟨_, _, hkept⟩ := own_apart h hstart
    have hedits := @bootConfig_edits buf image start hstart devname (some args) stale
    obtain ⟨hcommands, hfile⟩ := bootConfig_left h hended hstart devname (some args) stale
    have hfield : ∀ field : Option Nat, (∀ q ∈ field, q ∈ image.kept) →
        field.map (stringIn (bootConfig buf image devname (some args) stale).2) =
          field.map (stringIn buf) := by
      intro field hsubset
      cases field with
      | none => rfl
      | some q => exact congrArg some (hedits.others q (hkept q (hsubset q rfl)))
    rw [bootConfig_attempt (h.imp fun hapart => hapart.mono hedits.nuls) hstart, hfile]
    unfold defaultDevice
    rw [hfield image.root (by simp +contextual [Image.kept]),
      hfield image.append (by simp +contextual [Image.kept]),
      hfield image.device (by simp +contextual [Image.kept]),
      List.flatMap_congr fun p hp => congrArg commandsRun (hcommands p hp)]
  have hclean : 0 ∉ fullOptions (image.root.map (stringIn buf)) (image.append.map (stringIn buf))
      (some args) := by
    have hstring : ∀ field : Option Nat, ∀ s ∈ field.map (stringIn buf), 0 ∉ s := by
      intro field s hs
      obtain ⟨p, _, rfl⟩ := Option.map_eq_some_iff.mp hs
      exact nul_not_mem_stringIn buf p
    exact nul_not_mem_fullOptions (hstring _) (hstring _) hargs
  have hruns := flatMap_eq_iff (f := fun p => commandsRun (residue (stringIn buf p)))
    (g := fun p => commandsRun (stringIn buf p)) (l := image.cmdlist)
    fun p _ => commandsRun_residue_length (nul_not_mem_stringIn buf p)
  have hsplit := splitImage_again_iff (defaultDevice buf image devname) (stringIn buf start)
  have hoptions := @bootOptions_stale_iff reuse _ _ _ hclean
  simp only [hsecond, bootConfig_attempt h hstart, Attempt.mk.injEq]
  constructor
  · intro hsame
    obtain ⟨hcommands, hdevice, hfile, _⟩ := hsame [] [] nofun nofun
    constructor
    · intro p hp
      exact (commandsRun_residue_iff (nul_not_mem_stringIn buf p)).mp (hruns.mp hcommands p hp)
    · intro q hq
      obtain rfl : start = q := Option.some.inj (hstart.symm.trans hq)
      exact hsplit.mp (Prod.ext hdevice hfile)
    · exact hoptions.mp fun stale stale' hstale hstale' =>
        (hsame stale' stale hstale' hstale).2.2.2
  · intro hrepeat stale stale' hstale hstale'
    have hfile := hsplit.mpr (hrepeat.file start hstart)
    refine ⟨hruns.mpr fun p hp => ?_, congrArg Prod.fst hfile, congrArg Prod.snd hfile,
      hoptions.mpr hrepeat.options stale' stale hstale' hstale⟩
    exact (commandsRun_residue_iff (nul_not_mem_stringIn buf p)).mpr (hrepeat.commands p hp)

end

/-! ## At the prompt -/

/-- What the buffer can be at the prompt. -/
inductive PromptBuf (s : ConfigRun) (devname : List UInt8) : List UInt8 → Prop
  | parsed : PromptBuf s devname s.buf
  | fed {interrupted : Bool} {p : Nat} (h : fedLabel s interrupted = some p) :
      PromptBuf s devname (cutFed s.buf p)
  | round {buf : List UInt8} (line stale : List UInt8) (h : PromptBuf s devname buf) :
      PromptBuf s devname (promptRound s.images devname buf line stale).buf

/-- The same line typed again leads to the same attempt, and no attempt changes
another entry. -/
structure Repeats (reuse : Bool) (s : ConfigRun) (devname buf line : List UInt8)
    (image : Image Nat) : Prop where
  same : ∀ stale stale', BlockRest reuse stale → BlockRest reuse stale' →
    (promptRound s.images devname (promptRound s.images devname buf line stale).buf line
        stale').attempt =
      (promptRound s.images devname buf line stale).attempt
  others : ∀ stale, ∀ other ∈ s.images, other ≠ image →
    other.map (stringIn (promptRound s.images devname buf line stale).buf) =
      other.map (stringIn buf)

theorem parseConfig_settled (text : List UInt8) :
    Settled (parseConfig text).images (parseConfig text).buf := by
  obtain ⟨done, rest, hfollows⟩ := parseConfig_follows text
  rw [hfollows.buf]
  exact hfollows.settled.extend rest

theorem parseConfig_image (text : List UInt8) :
    ∀ i ∈ (parseConfig text).images, ∃ start, i.image = some start := by
  intro i hi
  have hentry : i.map (stringIn (parseConfig text).buf) ∈
      (sections (fileOptions text)).map sectionEntry := by
    rw [← (parseConfig_table text).2.1]
    exact List.mem_map_of_mem hi
  obtain ⟨part, hpart, heq⟩ := List.mem_map.mp hentry
  have himage := congrArg Image.image heq
  cases hstart : i.image with
  | some start => exact ⟨start, rfl⟩
  | none =>
      unfold Image.map at himage
      rw [hstart] at himage
      exact absurd himage (sections_image _ part hpart)

section
variable {images : List (Image Nat)} {buf line word args : List UInt8} {image : Image Nat}

theorem cutFed_edits (buf : List UInt8) (p : Nat) : Edits buf (cutFed buf p) [p] := by
  unfold cutFed
  simp only
  split
  · rename_i hstop
    exact edits_set hstop
  · exact ⟨fun _ hi => hi, fun _ _ => rfl⟩

theorem promptRound_chosen (hline : splitLine line = some (word, args)) (hword : word ≠ haltWord)
    (himage : images.find? (Image.isNamed buf word) = some image) (devname stale : List UInt8) :
    promptRound images devname buf line stale =
      ⟨comparedLabels buf word images, some (bootConfig buf image devname (some args) stale).1,
        false, (bootConfig buf image devname (some args) stale).2⟩ := by
  unfold promptRound
  rw [hline]
  simp only
  rw [if_neg hword, himage]

/-- A line that is typed edits strings of the table at most. -/
theorem promptRound_edits (himages : ∀ i ∈ images, ∃ start, i.image = some start)
    (devname buf line stale : List UInt8) :
    ∃ ps, Edits buf (promptRound images devname buf line stale).buf ps := by
  unfold promptRound
  split
  · exact ⟨[], Edits.refl buf⟩
  · split
    · exact ⟨[], Edits.refl buf⟩
    · split
      · exact ⟨[], Edits.refl buf⟩
      · rename_i image hfind
        obtain ⟨start, hstart⟩ := himages image (List.mem_of_find?_eq_some hfind)
        exact ⟨_, bootConfig_edits hstart devname _ stale⟩

/-- The table stays settled however often images have been booted. -/
theorem promptBuf_settled {s : ConfigRun} {devname : List UInt8} (hs : Settled s.images s.buf)
    (himages : ∀ i ∈ s.images, ∃ start, i.image = some start) (h : PromptBuf s devname buf) :
    Settled s.images buf := by
  induction h with
  | parsed => exact hs
  | fed _ => exact hs.edits (cutFed_edits _ _)
  | round line stale _ ih =>
      obtain ⟨ps, hedits⟩ := promptRound_edits himages devname _ line stale
      exact ih.edits hedits

/-- The strings of one entry are apart from those of another. -/
theorem Settled.cross (h : Settled images buf) (himage : image ∈ images) {other : Image Nat}
    (hother : other ∈ images) (hne : other ≠ image) :
    ∀ p ∈ image.pointers, ∀ q ∈ other.pointers, Apart buf p q := by
  have hpairs := (List.pairwise_flatMap.mp h.apart).2
  have hsymm : Std.Symm fun i j : Image Nat =>
      ∀ p ∈ i.pointers, ∀ q ∈ j.pointers, Apart buf p q :=
    ⟨fun i j hij p hp q hq => (hij q hq p hp).symm⟩
  exact hpairs.forall himage hother hne.symm

theorem Settled.own (h : Settled images buf) (himage : image ∈ images) :
    image.pointers.Pairwise (Apart buf) ∧ ∀ p ∈ image.pointers, 0 ∈ buf.drop p :=
  ⟨(List.pairwise_flatMap.mp h.apart).1 image himage,
    fun p hp => h.ended p (List.mem_flatMap.mpr ⟨image, himage, hp⟩)⟩

theorem splitLine_args (hline : splitLine line = some (word, args)) : args ⊆ line := by
  unfold splitLine at hline
  simp only at hline
  split at hline
  · cases hline
  · obtain ⟨_, rfl⟩ := Prod.mk.inj (Option.some.inj hline)
    intro c hc
    exact (List.dropWhile_sublist _).subset ((List.dropWhile_sublist _).subset
      ((List.dropWhile_sublist _).subset hc))

/-- The cut strings of an entry are apart from all labels, and from all strings of
other entries. -/
theorem Settled.labels (h : Settled images buf) (himage : image ∈ images) {start : Nat}
    (hstart : image.image = some start) {other : Image Nat} (hother : other ∈ images) :
    ∀ q ∈ other.label, ∀ p ∈ image.cmdlist ++ [start], Apart buf p q := by
  intro q hq p hp
  have hlabel : q ∈ other.pointers := by
    rw [Option.mem_def] at hq
    simp [Image.pointers, hq]
  by_cases hsame : other = image
  · rw [hsame] at hq
    refine (own_apart (h.own himage).1 hstart).2.2 q ?_ p hp
    rw [Option.mem_def] at hq
    simp [Image.kept, hq]
  · exact h.cross himage hother hsame p (mem_pointers_of_cut hstart hp) q hlabel

end

/-- Booting again does the same exactly for a repeatable entry of a settled table. -/
theorem repeats_iff_of_settled {reuse : Bool} {s : ConfigRun} {devname buf line word args : List UInt8}
    {image : Image Nat} (hsettled : Settled s.images buf)
    (himages : ∀ i ∈ s.images, ∃ start, i.image = some start) (hnul : 0 ∉ line)
    (hline : splitLine line = some (word, args)) (hword : word ≠ haltWord)
    (himage : s.images.find? (Image.isNamed buf word) = some image) :
    Repeats reuse s devname buf line image ↔ Repeatable reuse buf image devname args := by
  have hmem := List.mem_of_find?_eq_some himage
  obtain ⟨start, hstart⟩ := himages image hmem
  obtain ⟨hown, hended⟩ := hsettled.own hmem
  have hargs : 0 ∉ args := fun h => hnul (splitLine_args hline h)
  have hcommands : ∀ p ∈ image.cmdlist, 0 ∈ buf.drop p := fun p hp =>
    hended p (mem_pointers_of_cut hstart (List.mem_append_left _ hp))
  have hedits := fun stale => @bootConfig_edits buf image start hstart devname (some args) stale
  -- the labels read the same, so the same entry is found
  have hfound : ∀ stale, s.images.find?
      (Image.isNamed (bootConfig buf image devname (some args) stale).2 word) = some image := by
    intro stale
    rw [← himage]
    apply List.find?_congr
    intro other hother
    unfold Image.isNamed
    cases hlabel : other.label with
    | none => rfl
    | some q =>
        have hq := hsettled.labels hmem hstart hother q hlabel
        rw [Option.map_some, Option.map_some, (hedits stale).others q hq]
  have hround := fun stale => promptRound_chosen hline hword himage devname stale
  have hagain := fun stale stale' =>
    promptRound_chosen hline hword (hfound stale) devname stale'
  rw [← bootConfig_again_iff hown hcommands hstart devname hargs]
  constructor
  · intro h stale stale' hstale hstale'
    have hsame := h.same stale stale' hstale hstale'
    rw [hround stale, hagain stale stale'] at hsame
    exact Option.some.inj hsame
  · intro h
    refine ⟨fun stale stale' hstale hstale' => ?_, fun stale other hother hne => ?_⟩
    · rw [hround stale, hagain stale stale', h stale stale' hstale hstale']
    · rw [hround stale]
      apply Image.map_congr
      intro q hq
      apply (hedits stale).others
      intro p hp
      exact hsettled.cross hmem hother hne p (mem_pointers_of_cut hstart hp) q hq

/-- The entry that is found describes the first section with the label. -/
theorem find?_entry (text word : List UInt8) :
    ((parseConfig text).images.find? (Image.isNamed (parseConfig text).buf word)).map
        (Image.map (stringIn (parseConfig text).buf)) =
      ((sections (fileOptions text)).map sectionEntry).find? fun entry =>
        entry.label == some word := by
  rw [← (parseConfig_table text).2.1, List.find?_map]
  rfl

/-- For each file, however often its images have been booted: choosing a label again
does the same exactly if its entry is repeatable. -/
theorem promptRound_repeats_iff (reuse : Bool) (text devname : List UInt8)
    {buf line word args : List UInt8} {image : Image Nat}
    (hbuf : PromptBuf (parseConfig text) devname buf) (hnul : 0 ∉ line)
    (hline : splitLine line = some (word, args)) (hword : word ≠ haltWord)
    (himage : (parseConfig text).images.find? (Image.isNamed buf word) = some image) :
    Repeats reuse (parseConfig text) devname buf line image ↔
      Repeatable reuse buf image devname args :=
  repeats_iff_of_settled
    (promptBuf_settled (parseConfig_settled text) (parseConfig_image text) hbuf)
    (parseConfig_image text) hnul hline hword himage

/-- `image=` with this image, and `label=c`. -/
def bootFile (image : List UInt8) : List UInt8 :=
  imageOption ++ equalsSign :: (image ++ newline :: (labelOption ++ [equalsSign, 0x63]))

/-- The entry for a file that has no other option. -/
theorem bootFile_entry {string : List UInt8}
    (h : ((sections (fileOptions (bootFile string))).map sectionEntry).find?
        (fun entry => entry.label == some [0x63]) =
      some ⟨some string, none, none, some [0x63], none, []⟩) :
    ∃ image, (parseConfig (bootFile string)).images.find?
        (Image.isNamed (parseConfig (bootFile string)).buf [0x63]) = some image ∧
      image.cmdlist = [] ∧ image.device = none ∧
      image.image.map (stringIn (parseConfig (bootFile string)).buf) = some string := by
  have hentry := (find?_entry (bootFile string) [0x63]).trans h
  obtain ⟨image, himage, hstrings⟩ := Option.map_eq_some_iff.mp hentry
  refine ⟨image, himage, ?_, ?_, congrArg Image.image hstrings⟩
  · exact List.map_eq_nil_iff.mp (congrArg Image.cmdlist hstrings)
  · exact Option.map_eq_none_iff.mp (congrArg Image.device hstrings)

/-- An image without a colon, booted with the line `c x ` that ends with a space. -/
theorem repeats_plain_image :
    ∃ image, Repeats true (parseConfig (bootFile [0x62])) [0x64]
      (parseConfig (bootFile [0x62])).buf [0x63, 0x20, 0x78, 0x20] image := by
  obtain ⟨image, himage, hcommands, _, hfile⟩ := @bootFile_entry [0x62] (by decide)
  refine ⟨image, (promptRound_repeats_iff true _ _ .parsed (by decide) rfl (by decide) himage).mpr
    ⟨?_, ?_, ?_⟩⟩
  · rw [hcommands]
    exact fun _ hp => nomatch hp
  · intro start hstart
    rw [Option.mem_def.mp hstart] at hfile
    left
    rw [Option.some.inj hfile]
    decide
  · exact fun _ => forall_of_all (by decide)

/-- With `image=a:b` the device is lost: the next attempt takes `a` for the file. -/
theorem device_image_not_repeated :
    ∃ image, (parseConfig (bootFile [0x61, 0x3a, 0x62])).images.find?
        (Image.isNamed (parseConfig (bootFile [0x61, 0x3a, 0x62])).buf [0x63]) = some image ∧
      ¬ Repeats false (parseConfig (bootFile [0x61, 0x3a, 0x62])) [0x64]
        (parseConfig (bootFile [0x61, 0x3a, 0x62])).buf [0x63] image := by
  obtain ⟨image, himage, _, hdevice, hfile⟩ := @bootFile_entry [0x61, 0x3a, 0x62] (by decide)
  refine ⟨image, himage, fun hrepeats => ?_⟩
  have hrepeat := (repeats_iff_of_settled (parseConfig_settled _) (parseConfig_image _)
    (by decide) rfl (by decide) himage).mp hrepeats
  obtain ⟨start, hstart, hstring⟩ := Option.map_eq_some_iff.mp hfile
  have hcolon := hrepeat.file start hstart
  unfold defaultDevice at hcolon
  rw [hstring, hdevice] at hcolon
  revert hcolon
  decide

end Milo.Shell
