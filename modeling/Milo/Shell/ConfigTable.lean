import Mathlib.Data.List.Perm.Subperm
import Milo.Shell.ConfigFile

/-! # The table a configuration file describes

Reading the lines one after the other, without a buffer, gives a table of
strings. The loop of `boot_via_config` computes that table: a pointer that it has
stored is followed by a NUL before the next line, so no later line changes what
is read there, and no two pointers share a string.
-/

namespace Milo.Shell

open Foundation Milo.Boot

/-! ## Tables of strings -/

section
variable {α β : Type}

/-- An option of the image that is being described. -/
def Image.put (i : Image α) (option : List UInt8) (value : α) : Image α :=
  if option = deviceOption then { i with device := some value }
  else if option = rootOption then { i with root := some value }
  else if option = labelOption then { i with label := some value }
  else if option = appendOption then { i with append := some value }
  else if option = commandOption then { i with cmdlist := i.cmdlist ++ [value] }
  else i

/-- The table after an option. -/
def addOption (images : List (Image α)) (option : List UInt8) (value : α) : List (Image α) :=
  if option = imageOption then images ++ [{ Image.blank with image := some value }]
  else images.modify (images.length - 1) fun i => i.put option value

theorem addOption_image (images : List (Image α)) {option : List UInt8} (h : option = imageOption)
    (value : α) :
    addOption images option value = images ++ [{ Image.blank with image := some value }] := if_pos h

theorem addOption_other (images : List (Image α)) {option : List UInt8} (h : option ≠ imageOption)
    (value : α) : addOption images option value =
      images.modify (images.length - 1) fun i => i.put option value := if_neg h

/-- All that an entry holds. -/
def Image.pointers (i : Image α) : List α :=
  i.image.toList ++ (i.device.toList ++ (i.root.toList ++ (i.label.toList ++
    (i.append.toList ++ i.cmdlist))))

theorem Image.map_put (f : α → β) (i : Image α) (option : List UInt8) (value : α) :
    (i.put option value).map f = (i.map f).put option (f value) := by
  unfold Image.put
  repeat' split
  all_goals simp [Image.map]

/-- What the table is made of does not matter. -/
theorem addOption_map (f : α → β) (images : List (Image α)) (option : List UInt8) (value : α) :
    (addOption images option value).map (Image.map f) =
      addOption (images.map (Image.map f)) option (f value) := by
  unfold addOption
  split
  · rw [List.map_append]
    rfl
  · apply List.ext_getElem?
    intro j
    rw [List.getElem?_map, List.getElem?_modify, List.getElem?_modify, List.getElem?_map,
      List.length_map]
    cases images[j]? with
    | none => rfl
    | some i =>
        simp only [Option.map_eq_map, Option.map_some]
        split
        · rw [Image.map_put]
        · rfl

theorem Image.mem_pointers {i : Image α} {p : α} :
    p ∈ i.pointers ↔ p ∈ i.image ∨ p ∈ i.device ∨ p ∈ i.root ∨ p ∈ i.label ∨ p ∈ i.append ∨
      p ∈ i.cmdlist := by
  simp only [pointers, List.mem_append, Option.mem_toList, Option.mem_def]

theorem Image.map_congr {f g : α → β} {i : Image α} (h : ∀ p ∈ i.pointers, f p = g p) :
    i.map f = i.map g := by
  have hfield : ∀ field : Option α, (∀ p ∈ field, p ∈ i.pointers) → field.map f = field.map g := by
    intro field hsubset
    cases field with
    | none => rfl
    | some p => exact congrArg some (h p (hsubset p rfl))
  unfold Image.map
  rw [hfield i.image fun p hp => mem_pointers.mpr (.inl hp),
    hfield i.device fun p hp => mem_pointers.mpr (.inr (.inl hp)),
    hfield i.root fun p hp => mem_pointers.mpr (.inr (.inr (.inl hp))),
    hfield i.label fun p hp => mem_pointers.mpr (.inr (.inr (.inr (.inl hp)))),
    hfield i.append fun p hp => mem_pointers.mpr (.inr (.inr (.inr (.inr (.inl hp))))),
    List.map_congr_left fun p hp =>
      h p (mem_pointers.mpr (.inr (.inr (.inr (.inr (.inr hp))))))]

/-- An option adds its value to what an entry holds, or replaces one. -/
theorem Image.pointers_put [DecidableEq α] (i : Image α) (option : List UInt8) (value : α) :
    List.Subperm (i.put option value).pointers (value :: i.pointers) := by
  rw [List.subperm_ext_iff]
  intro p _
  unfold Image.put
  repeat' split
  all_goals
    simp only [pointers, List.count_append, List.count_cons, Option.toList_some, List.count_nil]
    omega

theorem modify_last (f : α → α) (init : List α) (last : α) :
    (init ++ [last]).modify ((init ++ [last]).length - 1) f = init ++ [f last] := by
  rw [List.length_append, List.length_singleton, Nat.add_sub_cancel]
  induction init with
  | nil => rfl
  | cons a init ih => rw [List.cons_append, List.length_cons, List.modify_succ_cons, ih]; rfl

theorem addOption_pointers [DecidableEq α] (images : List (Image α)) (option : List UInt8)
    (value : α) : List.Subperm ((addOption images option value).flatMap Image.pointers)
      (value :: images.flatMap Image.pointers) := by
  unfold addOption
  split
  · rw [List.flatMap_append]
    exact (List.perm_append_singleton value _).subperm
  · rcases List.eq_nil_or_concat' images with rfl | ⟨init, last, rfl⟩
    · exact List.nil_subperm
    · rw [modify_last, List.flatMap_append, List.flatMap_append, List.flatMap_singleton,
        List.flatMap_singleton]
      have hput := (last.pointers_put option value)
      have hmove : List.Perm (init.flatMap Image.pointers ++ value :: last.pointers)
          (value :: (init.flatMap Image.pointers ++ last.pointers)) := List.perm_middle
      exact ((List.subperm_append_left _).mpr hput).trans hmove.subperm

end

/-- What is read of the file: the time-out and the table, and whether there was an
error. -/
structure ConfigTable where
  timeout : Int
  images : List (Image (List UInt8))
  failed : Bool

def readLine (t : ConfigTable) : LineMeaning → ConfigTable
  | .malformed => { t with failed := true }
  | .nothing => t
  | .assign option value =>
      { t with
        timeout := if option = timeoutOption then readTimeout value else t.timeout
        images := addOption t.images option value }

/-- The lines up to an error. -/
def readLines (t : ConfigTable) : List LineMeaning → ConfigTable
  | [] => t
  | line :: lines =>
      if (readLine t line).failed then readLine t line else readLines (readLine t line) lines

/-- The lines of a text up to one that starts with a NUL, each up to its first NUL. -/
def configLines (text : List UInt8) : List (List UInt8) :=
  ((text.splitOn newline).takeWhile fun line => line.head? != some 0).map
    fun line => line.takeWhile (· != 0)

def configTable (text : List UInt8) : ConfigTable :=
  readLines ⟨-1, [], false⟩ ((configLines text).map lineMeaning)

/-- What the loop's variables stand for. -/
def ConfigRun.table (s : ConfigRun) : ConfigTable :=
  ⟨s.timeout, s.images.map (Image.map (stringIn s.buf)), s.failed⟩

/-! ## One line -/

/-- Every pointer of the table is to a string that ends in what has been read, and
no two are to one string. -/
structure Settled (images : List (Image Nat)) (done : List UInt8) : Prop where
  ended : ∀ p ∈ images.flatMap Image.pointers, 0 ∈ done.drop p
  apart : (images.flatMap Image.pointers).Pairwise (Apart done)

theorem Settled.nil (done : List UInt8) : Settled [] done :=
  ⟨(fun _ hp => nomatch hp), List.Pairwise.nil⟩

/-- The next line leaves the table as it is. -/
theorem Settled.extend {images : List (Image Nat)} {done : List UInt8} (h : Settled images done)
    (cell : List UInt8) : Settled images (done ++ cell) := by
  constructor
  · intro p hp
    have hmem := h.ended p hp
    rw [List.drop_append]
    exact List.mem_append_left _ hmem
  · apply h.apart.imp
    intro p q hapart
    apply hapart.mono
    intro i hi
    rw [List.getElem?_append_left (List.getElem?_eq_some_iff.mp hi).1, hi]

/-- What has been read reads the same whatever comes next. -/
theorem Settled.map_eq {images : List (Image Nat)} {done : List UInt8} (h : Settled images done)
    (rest rest' : List UInt8) :
    images.map (Image.map (stringIn (done ++ rest))) =
      images.map (Image.map (stringIn (done ++ rest'))) := by
  apply List.map_congr_left
  intro i hi
  apply Image.map_congr
  intro p hp
  have hended := h.ended p (List.mem_flatMap.mpr ⟨i, hi, hp⟩)
  rw [stringIn_append hended, stringIn_append hended]

/-- A value of the next line is stored. -/
theorem Settled.store {images : List (Image Nat)} {done cell : List UInt8}
    (h : Settled images done) {v : Nat} (hv : 0 ∈ cell.drop v) (option : List UInt8) :
    Settled (addOption images option (done.length + v)) (done ++ cell) := by
  have hsub := addOption_pointers images option (done.length + v)
  have hext := h.extend cell
  have hended : 0 ∈ (done ++ cell).drop (done.length + v) := by
    rw [List.drop_length_add_append]
    exact hv
  constructor
  · intro p hp
    rcases List.mem_cons.mp (hsub.subset hp) with rfl | hold
    · exact hended
    · exact hext.ended p hold
  · obtain ⟨pointers, hperm, hsublist⟩ := hsub
    have hall : ((done.length + v) :: images.flatMap Image.pointers).Pairwise
        (Apart (done ++ cell)) := by
      rw [List.pairwise_cons]
      exact ⟨fun p hp => (apart_of_ended (h.ended p hp) (Nat.le_add_right _ _)).symm, hext.apart⟩
    exact (hperm.pairwise_iff Apart.symm).mp (hall.sublist hsublist)

/-- The strings stay apart when some of them are edited. -/
theorem Settled.edits {images : List (Image Nat)} {buf buf' : List UInt8} {ps : List Nat}
    (h : Settled images buf) (hedits : Edits buf buf' ps) : Settled images buf' :=
  ⟨fun p hp => hedits.ended (h.ended p hp), h.apart.imp fun hapart => hapart.mono hedits.nuls⟩

theorem Image.put_of_ne {i : Image Nat} {option : List UInt8} {value : Nat}
    (h : option ∉ [deviceOption, rootOption, labelOption, appendOption, commandOption]) :
    i.put option value = i := by
  simp only [List.mem_cons, List.not_mem_nil, or_false, not_or] at h
  unfold Image.put
  rw [if_neg h.1, if_neg h.2.1, if_neg h.2.2.1, if_neg h.2.2.2.1, if_neg h.2.2.2.2]

theorem setOption_images (s : ConfigRun) (option : List UInt8) (value : Nat) :
    (setOption s option value).images = addOption s.images option value := by
  by_cases htimeout : option = timeoutOption
  · have hput : (fun i : Image Nat => i.put option value) = id := by
      funext i
      exact Image.put_of_ne (by rw [htimeout]; decide)
    unfold setOption addOption
    rw [if_pos htimeout, if_neg (by rw [htimeout]; decide), hput, List.modify_id]
  · by_cases himage : option = imageOption
    · unfold setOption addOption
      rw [if_neg htimeout, if_pos himage, if_pos himage]
      rfl
    · unfold addOption Image.put
      rw [if_neg himage]
      unfold setOption
      rw [if_neg htimeout, if_neg himage]
      by_cases hnone : s.images = []
      · simp only [hnone, ne_eq, not_true, false_and, if_false, if_true]
        split
        · rfl
        · exact hnone
      · simp only [hnone, ne_eq, not_false_iff, true_and, if_false]
        repeat' split
        all_goals first | rfl | exact (List.modify_id _ _).symm

theorem setOption_timeout (s : ConfigRun) (option : List UInt8) (value : Nat) :
    (setOption s option value).timeout =
      if option = timeoutOption then readTimeout (stringIn s.buf value) else s.timeout := by
  unfold setOption
  split
  · rfl
  · repeat' split
    all_goals rfl

theorem setOption_failed (s : ConfigRun) (option : List UInt8) (value : Nat) :
    (setOption s option value).failed = s.failed := by
  unfold setOption
  repeat' split
  all_goals rfl

/-- The buffer is cut by a command before the first image only. -/
theorem setOption_buf (s : ConfigRun) (option : List UInt8) (value : Nat) :
    (setOption s option value).buf = s.buf ∨
      ((setOption s option value).images = [] ∧
        (setOption s option value).buf = parseCommandAt s.buf value) := by
  by_cases hnone : s.images = []
  · unfold setOption
    repeat' split
    all_goals first | exact Or.inl rfl | exact Or.inr ⟨hnone, rfl⟩
  · left
    unfold setOption
    repeat' split
    all_goals rfl

/-- Stores go into entries that are in use, the last one of them included. -/
structure Stored (s : ConfigRun) : Prop where
  within : ∀ i ∈ s.stores, i < s.images.length
  last : s.images ≠ [] → s.images.length - 1 ∈ s.stores

theorem Stored.store {s : ConfigRun} (h : Stored s) {images : List (Image Nat)}
    (hgrow : s.images.length ≤ images.length) (hne : images ≠ []) : Stored (s.store images) := by
  have hpos := List.length_pos_of_ne_nil hne
  constructor
  · intro i hi
    unfold ConfigRun.store at hi ⊢
    rw [List.mem_append, List.mem_singleton] at hi
    rcases hi with hold | rfl
    · exact Nat.lt_of_lt_of_le (h.within i hold) hgrow
    · exact Nat.sub_lt hpos Nat.one_pos
  · intro _
    exact List.mem_append_right _ List.mem_cons_self

theorem Stored.storeLast {s : ConfigRun} (h : Stored s) (hne : s.images ≠ [])
    (f : Image Nat → Image Nat) : Stored (s.storeLast f) := by
  apply h.store
  · rw [List.length_modify]
  · rwa [ne_eq, List.modify_eq_nil_iff]

theorem Stored.setOption {s : ConfigRun} (h : Stored s) (option : List UInt8) (value : Nat) :
    Stored (setOption s option value) := by
  by_cases hne : s.images = []
  · have hnone : ¬ s.images ≠ [] := fun h => h hne
    simp only [Milo.Shell.setOption, hnone, false_and, if_false, if_pos hne]
    split_ifs
    · exact ⟨h.within, h.last⟩
    · exact h.store (by simp) (by simp)
    · exact ⟨h.within, h.last⟩
    · exact h
  · simp only [Milo.Shell.setOption, ne_eq, hne, not_false_eq_true, true_and, if_false]
    split_ifs
    · exact ⟨h.within, h.last⟩
    · exact h.store (by simp) (by simp)
    · exact h.storeLast hne _
    · exact h.storeLast hne _
    · exact h.storeLast hne _
    · exact h.storeLast hne _
    · exact h.storeLast hne _
    · exact h

/-- What holds of the loop's variables between two lines: `done` has been read,
and the table of strings is `t`. -/
structure Follows (s : ConfigRun) (done rest : List UInt8) (t : ConfigTable) : Prop where
  buf : s.buf = done ++ rest
  settled : Settled s.images done
  stored : Stored s
  table : s.table = t

/-- An option of the line that has been cut is handled. -/
theorem setOption_follows {s : ConfigRun} {done cell rest : List UInt8} {t : ConfigTable}
    (h : Follows s (done ++ cell) rest t) (hold : Settled s.images done) {v : Nat}
    (hv : 0 ∈ cell.drop v) (option : List UInt8) :
    ∃ cell', cell'.length = cell.length ∧
      Follows (setOption s option (done.length + v)) (done ++ cell') rest
        (readLine t (.assign option (stringIn cell v))) := by
  have hbuf : s.buf = done ++ (cell ++ rest) := by rw [h.buf, List.append_assoc]
  have hvalue : stringIn s.buf (done.length + v) = stringIn cell v := by
    rw [hbuf, stringIn_append_right, stringIn_append hv]
  have htable : readLine t (.assign option (stringIn cell v)) =
      ⟨(setOption s option (done.length + v)).timeout,
        (setOption s option (done.length + v)).images.map (Image.map (stringIn s.buf)),
        (setOption s option (done.length + v)).failed⟩ := by
    rw [setOption_timeout, setOption_images, setOption_failed, addOption_map, hvalue, ← h.table]
    rfl
  rcases setOption_buf s option (done.length + v) with hsame | ⟨hnone, hcommand⟩
  · refine ⟨cell, rfl, ?_⟩
    constructor
    · rw [hsame, h.buf]
    · rw [setOption_images]
      exact hold.store hv option
    · exact h.stored.setOption option _
    · unfold ConfigRun.table
      rw [htable, hsame]
  · have hlength := stringIn_length_le cell v
    have hinside : v < cell.length := by
      obtain ⟨i, hlo, hhi, _⟩ := exists_nul_of_mem_drop hv
      exact Nat.lt_of_le_of_lt hlo hhi
    refine ⟨overwrite cell v (cutCommands (stringIn cell v)), ?_, ?_⟩
    · apply overwrite_length
      rwa [cutCommands_length]
    · constructor
      · rw [hcommand]
        unfold parseCommandAt
        rw [hvalue, hbuf, overwrite_append, List.append_assoc]
        rw [cutCommands_length]
        omega
      · rw [hnone]
        exact Settled.nil _
      · exact h.stored.setOption option _
      · unfold ConfigRun.table
        rw [htable, hnone]
        rfl

/-- A line in the buffer, its string and what is behind a NUL in it. -/
theorem line_split (line : List UInt8) : ∃ tail,
    line ++ [0] = (line.takeWhile (· != 0) ++ [0]) ++ tail := by
  have hsplit := (@List.takeWhile_append_dropWhile _ (· != 0) line).symm
  cases hrest : line.dropWhile (· != 0) with
  | nil =>
      rw [hrest, List.append_nil] at hsplit
      exact ⟨[], by rw [← hsplit, List.append_nil]⟩
  | cons c behind =>
      have hstop := List.head?_dropWhile_not (· != (0 : UInt8)) line
      rw [hrest] at hstop
      have hc : c = 0 := by simpa using hstop
      rw [hrest, hc] at hsplit
      refine ⟨behind ++ [0], ?_⟩
      conv_lhs => rw [hsplit]
      simp

/-- One pass of the loop reads one line. -/
theorem parseLine_follows {s : ConfigRun} {done line rest : List UInt8} {t : ConfigTable}
    (h : Follows s done (line ++ newline :: rest) t) :
    ∃ cell, cell.length = line.length + 1 ∧
      Follows (parseLine s done.length (done.length + line.length)) (done ++ cell) rest
        (readLine t (lineMeaning (line.takeWhile (· != 0)))) := by
  obtain ⟨tail, htail⟩ := line_split line
  have hnul : 0 ∉ line.takeWhile (· != 0) := nul_not_mem_stringIn line 0
  generalize line.takeWhile (· != 0) = string at htail hnul ⊢
  have hbuf : s.buf.set (done.length + line.length) 0 =
      done ++ ((string ++ [0]) ++ (tail ++ rest)) := by
    rw [h.buf, List.set_append_right _ _ (Nat.le_add_right _ _), Nat.add_sub_cancel_left,
      List.set_append_right _ _ (Nat.le_refl _), Nat.sub_self, List.set_cons_zero]
    have hcell : line ++ 0 :: rest = (line ++ [0]) ++ rest := by simp
    rw [hcell, htail, List.append_assoc]
  have hstring : stringIn (s.buf.set (done.length + line.length) 0) done.length = string := by
    rw [hbuf, List.append_assoc]
    exact stringIn_eq hnul done _
  have hbounded := parseConfigLine_bounded string
  have hcut : cutAt (s.buf.set (done.length + line.length) 0) done.length
      (parseConfigLine string).cuts = done ++ (cutLine string ++ (tail ++ rest)) := by
    rw [hbuf]
    apply cutAt_append
    intro c hc
    rw [List.length_append, List.length_singleton]
    exact Nat.lt_succ_of_le (hbounded.cuts c hc)
  have hlength : (cutLine string ++ tail).length = line.length + 1 := by
    have hlengths := congrArg List.length htail
    rw [List.length_append, List.length_append, List.length_append] at hlengths
    rw [List.length_append, cutLine_length]
    exact hlengths.symm
  -- the line has been cut; nothing has been stored in the table yet
  have hcutted : Follows { s with buf := done ++ (cutLine string ++ (tail ++ rest)) }
      (done ++ (cutLine string ++ tail)) rest t := by
    constructor
    · simp
    · exact h.settled.extend _
    · exact ⟨h.stored.within, h.stored.last⟩
    · rw [← h.table]
      unfold ConfigRun.table
      rw [h.buf, h.settled.map_eq (line ++ newline :: rest) (cutLine string ++ (tail ++ rest))]
  unfold parseLine
  simp only
  rw [hstring, hcut]
  by_cases hfailed : (parseConfigLine string).failed = true
  · refine ⟨cutLine string ++ tail, hlength, ?_⟩
    rw [if_pos (Or.inl hfailed)]
    unfold lineMeaning
    rw [if_pos hfailed]
    refine ⟨hcutted.buf, hcutted.settled, ⟨hcutted.stored.within, hcutted.stored.last⟩, ?_⟩
    rw [← hcutted.table]
    rfl
  · have hpaired := hbounded.paired (Bool.eq_false_iff.mpr hfailed)
    cases hoption : (parseConfigLine string).option with
    | none =>
        refine ⟨cutLine string ++ tail, hlength, ?_⟩
        rw [if_neg (by simp [hfailed])]
        unfold lineMeaning
        rw [if_neg hfailed, hoption]
        exact hcutted
    | some o =>
        rw [hoption, Option.isSome_some] at hpaired
        obtain ⟨v, hvalue⟩ := Option.isSome_iff_exists.mp hpaired.symm
        have ho : 0 ∈ (cutLine string).drop o := nul_mem_cutLine string (hbounded.option o hoption)
        have hv : 0 ∈ (cutLine string).drop v := nul_mem_cutLine string (hbounded.value v hvalue)
        rw [if_neg (by simp [hfailed, hvalue])]
        unfold lineMeaning
        rw [if_neg hfailed, hoption, hvalue]
        simp only
        rw [stringIn_append_right, stringIn_append ho, ← stringIn_append hv tail]
        obtain ⟨cell, hcell, hfollows⟩ := setOption_follows hcutted h.settled
          (by rw [List.drop_append]; exact List.mem_append_left _ hv) (stringIn (cutLine string) o)
        exact ⟨cell, hcell.trans hlength, hfollows⟩

/-! ## The file -/

theorem not_mem_of_mem_splitOn {sep : UInt8} {text line : List UInt8}
    (h : line ∈ text.splitOn sep) : sep ∉ line := by
  induction text generalizing line with
  | nil =>
      rw [List.splitOn_nil, List.mem_singleton] at h
      simp [h]
  | cons c text ih =>
      rw [List.splitOn_cons_eq_if_modifyHead] at h
      split at h
      · rcases List.mem_cons.mp h with rfl | hrest
        · simp
        · exact ih hrest
      · rename_i hc
        obtain ⟨first, rest, hsplit⟩ :=
          List.exists_cons_of_ne_nil (List.splitOn_ne_nil sep text)
        rw [hsplit] at h ih
        rcases List.mem_cons.mp h with rfl | hrest
        · intro hmem
          rcases List.mem_cons.mp hmem with hhead | htail
          · exact hc (beq_iff_eq.mpr hhead.symm)
          · exact ih List.mem_cons_self htail
        · exact ih (List.mem_cons_of_mem _ hrest)

theorem intercalate_newline {lines : List (List UInt8)} (h : lines ≠ []) (rest : List UInt8) :
    [newline].intercalate lines ++ newline :: rest =
      lines.flatMap (· ++ [newline]) ++ rest := by
  induction lines with
  | nil => exact absurd rfl h
  | cons line lines ih =>
      cases lines with
      | nil => simp
      | cons next lines =>
          rw [List.intercalate_cons_cons, List.append_assoc, ih (List.cons_ne_nil _ _)]
          simp

theorem parseLines_eq (s : ConfigRun) (start : Nat) :
    parseLines s start =
      if s.buf[start]?.getD 0 = 0 then s
      else if (parseLine s start (scan (· != newline) s.buf start)).failed then
        parseLine s start (scan (· != newline) s.buf start)
      else parseLines (parseLine s start (scan (· != newline) s.buf start))
        (scan (· != newline) s.buf start + 1) := by
  rw [parseLines]

/-- The loop reads the lines one after the other. -/
theorem parseLines_follows {lines : List (List UInt8)} (hlines : ∀ line ∈ lines, newline ∉ line)
    {s : ConfigRun} {done : List UInt8} {t : ConfigTable}
    (h : Follows s done (lines.flatMap (· ++ [newline]) ++ [0]) t) :
    ∃ done' rest', Follows (parseLines s done.length) done' rest'
      (readLines t (((lines.takeWhile fun line => line.head? != some 0).map
        fun line => line.takeWhile (· != 0)).map lineMeaning)) := by
  induction lines generalizing s done t with
  | nil =>
      have hend : s.buf[done.length]?.getD 0 = 0 := by
        rw [h.buf]
        simp
      rw [parseLines_eq, if_pos hend]
      exact ⟨_, _, h⟩
  | cons line lines ih =>
      have hrest : (line :: lines).flatMap (· ++ [newline]) ++ [0] =
          line ++ newline :: (lines.flatMap (· ++ [newline]) ++ [0]) := by
        simp
      rw [hrest] at h
      have hhead : s.buf[done.length]? = (line ++ [newline]).head? := by
        rw [h.buf, List.getElem?_append_right (Nat.le_refl _), Nat.sub_self,
          ← List.head?_eq_getElem?]
        cases line with
        | nil => rfl
        | cons c line => rfl
      by_cases hnul : line.head? = some 0
      · -- a NUL in front of a line is taken for the end
        have hend : s.buf[done.length]?.getD 0 = 0 := by
          rw [hhead, List.head?_append, hnul]
          rfl
        rw [parseLines_eq, if_pos hend, List.takeWhile_cons_of_neg (by simp [hnul])]
        exact ⟨_, _, h⟩
      · have hgo : ¬ s.buf[done.length]?.getD 0 = 0 := by
          rw [hhead]
          cases line with
          | nil => decide
          | cons c line => simpa using hnul
        have hstop : scan (· != newline) s.buf done.length = done.length + line.length := by
          rw [h.buf]
          apply scan_append
          · intro c hc
            rw [bne_iff_ne]
            exact fun heq => hlines line List.mem_cons_self (heq ▸ hc)
          · intro c hc
            obtain rfl := Option.some.inj hc
            rfl
        obtain ⟨cell, hcell, hfollows⟩ := parseLine_follows h
        rw [parseLines_eq, if_neg hgo, hstop, List.takeWhile_cons_of_pos (by simp [hnul]),
          List.map_cons, List.map_cons, readLines]
        have hfailed := congrArg ConfigTable.failed hfollows.table
        simp only [ConfigRun.table] at hfailed
        rw [hfailed]
        split
        · exact ⟨_, _, hfollows⟩
        · have hnext : done.length + line.length + 1 = (done ++ cell).length := by
            rw [List.length_append, hcell, Nat.add_assoc]
          rw [hnext]
          exact ih (fun l hl => hlines l (List.mem_cons_of_mem line hl)) hfollows

/-- Whatever the text is, the loop computes the table it describes. -/
theorem parseConfig_follows (text : List UInt8) :
    ∃ done rest, Follows (parseConfig text) done rest (configTable text) := by
  have htext : text ++ [newline, 0] = (text.splitOn newline).flatMap (· ++ [newline]) ++ [0] := by
    rw [← intercalate_newline (List.splitOn_ne_nil newline text), List.intercalate_splitOn]
  unfold parseConfig configTable configLines
  rw [htext]
  apply @parseLines_follows _ (fun line hline => not_mem_of_mem_splitOn hline) _ []
  exact ⟨rfl, Settled.nil _, ⟨(fun _ hi => nomatch hi), fun h => absurd rfl h⟩, rfl⟩

end Milo.Shell
