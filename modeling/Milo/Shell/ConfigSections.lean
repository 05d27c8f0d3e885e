import Milo.Shell.ConfigTable

/-! # Sections of a configuration file

A file of well-formed lines is a common part and one section for each image line.
The table has an entry for each section, with the last value of each option.
-/

namespace Milo.Shell

open Foundation

/-- An option and its value. -/
abbrev Assignment := List UInt8 × List UInt8

/-- The options before the first image line, and those of each image with its
image line in front. -/
def splitSections : List Assignment → List Assignment × List (List Assignment)
  | [] => ([], [])
  | a :: rest =>
      let (front, later) := splitSections rest
      if a.1 = imageOption then ([], (a :: front) :: later) else (a :: front, later)

/-- The image sections of a file. -/
def sections (options : List Assignment) : List (List Assignment) := (splitSections options).2

/-- The values of an option in file order. -/
def valuesOf (option : List UInt8) (part : List Assignment) : List (List UInt8) :=
  (part.filter fun a => a.1 = option).map Prod.snd

/-- The last line of an option counts. -/
def lastValue (option : List UInt8) (part : List Assignment) : Option (List UInt8) :=
  (valuesOf option part).getLast?

/-- The entry a section describes. -/
def sectionEntry (part : List Assignment) : Image (List UInt8) where
  image := lastValue imageOption part
  device := lastValue deviceOption part
  root := lastValue rootOption part
  label := lastValue labelOption part
  append := lastValue appendOption part
  cmdlist := valuesOf commandOption part

def LineMeaning.assignment? : LineMeaning → Option Assignment
  | .assign option value => some (option, value)
  | _ => none

/-- The options before the first malformed line. -/
def obeyed (lines : List LineMeaning) : List Assignment :=
  (lines.takeWhile (· != .malformed)).filterMap LineMeaning.assignment?

def fileOptions (text : List UInt8) : List Assignment :=
  obeyed ((configLines text).map lineMeaning)

/-- Some line of the file has no option, no value or only one quote. -/
def Malformed (text : List UInt8) : Prop := .malformed ∈ (configLines text).map lineMeaning

/-- The time-out of the file, in seconds. -/
def fileTimeout (text : List UInt8) : Int :=
  ((lastValue timeoutOption (fileOptions text)).map readTimeout).getD (-1)

/-! ## The table of the sections -/

theorem valuesOf_cons (option : List UInt8) (a : Assignment) (rest : List Assignment) :
    valuesOf option (a :: rest) =
      (if a.1 = option then [a.2] else []) ++ valuesOf option rest := by
  unfold valuesOf
  rw [List.filter_cons]
  simp only [decide_eq_true_eq]
  split
  · rfl
  · rfl

theorem lastValue_cons (option : List UInt8) (a : Assignment) (rest : List Assignment) :
    lastValue option (a :: rest) =
      (lastValue option rest).or (if a.1 = option then some a.2 else none) := by
  unfold lastValue
  rw [valuesOf_cons, List.getLast?_append]
  split
  · rfl
  · rfl

/-- No two options go into one field. -/
theorem Image.put_eq {α : Type} (i : Image α) (option : List UInt8) (value : α) :
    i.put option value =
      { image := i.image
        device := if option = deviceOption then some value else i.device
        root := if option = rootOption then some value else i.root
        label := if option = labelOption then some value else i.label
        append := if option = appendOption then some value else i.append
        cmdlist := i.cmdlist ++ if option = commandOption then [value] else [] } := by
  by_cases hdevice : option = deviceOption
  · subst hdevice
    simp [put, deviceOption, rootOption, labelOption, appendOption, commandOption]
  · by_cases hroot : option = rootOption
    · subst hroot
      simp [put, deviceOption, rootOption, labelOption, appendOption, commandOption]
    · by_cases hlabel : option = labelOption
      · subst hlabel
        simp [put, deviceOption, rootOption, labelOption, appendOption, commandOption]
      · by_cases happend : option = appendOption
        · subst happend
          simp [put, deviceOption, rootOption, labelOption, appendOption, commandOption]
        · unfold put
          rw [if_neg hdevice, if_neg hroot, if_neg hlabel, if_neg happend, if_neg hdevice,
            if_neg hroot, if_neg hlabel, if_neg happend]
          split
          · rfl
          · rw [List.append_nil]

/-- The options of a section one after the other. -/
theorem foldl_put (entry : Image (List UInt8)) (rest : List Assignment) :
    rest.foldl (fun i a => i.put a.1 a.2) entry =
      { image := entry.image
        device := (lastValue deviceOption rest).or entry.device
        root := (lastValue rootOption rest).or entry.root
        label := (lastValue labelOption rest).or entry.label
        append := (lastValue appendOption rest).or entry.append
        cmdlist := entry.cmdlist ++ valuesOf commandOption rest } := by
  have hfield : ∀ (p : Prop) [Decidable p] (v : List UInt8) (field : Option (List UInt8)),
      (if p then some v else none).or field = if p then some v else field := by
    intro p _ v field
    split
    · rfl
    · rfl
  induction rest generalizing entry with
  | nil => simp [lastValue, valuesOf]
  | cons a rest ih =>
      rw [List.foldl_cons, ih, Image.put_eq]
      simp only [lastValue_cons, valuesOf_cons, Option.or_assoc, hfield, List.append_assoc]

theorem splitSections_image {a : Assignment} (h : a.1 = imageOption) (rest : List Assignment) :
    splitSections (a :: rest) =
      ([], (a :: (splitSections rest).1) :: (splitSections rest).2) := if_pos h

theorem splitSections_other {a : Assignment} (h : a.1 ≠ imageOption) (rest : List Assignment) :
    splitSections (a :: rest) = (a :: (splitSections rest).1, (splitSections rest).2) := if_neg h

/-- Before an image line no option names an image. -/
theorem splitSections_front (options : List Assignment) :
    ∀ a ∈ (splitSections options).1, a.1 ≠ imageOption := by
  induction options with
  | nil => exact fun _ ha => nomatch ha
  | cons a options ih =>
      intro b hb
      by_cases himage : a.1 = imageOption
      · rw [splitSections_image himage] at hb
        cases hb
      · rw [splitSections_other himage] at hb
        rcases List.mem_cons.mp hb with rfl | hrest
        · exact himage
        · exact ih b hrest

/-- A section has an image line in front. -/
theorem sections_image (options : List Assignment) :
    ∀ part ∈ sections options, lastValue imageOption part ≠ none := by
  unfold sections
  induction options with
  | nil => exact fun _ hpart => nomatch hpart
  | cons a options ih =>
      intro part hpart
      by_cases himage : a.1 = imageOption
      · rw [splitSections_image himage] at hpart
        rcases List.mem_cons.mp hpart with rfl | hrest
        · rw [lastValue_cons, if_pos himage]
          cases lastValue imageOption (splitSections options).1 with
          | none => exact Option.some_ne_none _
          | some v => exact Option.some_ne_none _
        · exact ih part hrest
      · rw [splitSections_other himage] at hpart
        exact ih part hpart

/-- An image line and the options behind it make one entry. -/
theorem foldl_section {a : Assignment} {rest : List Assignment} (ha : a.1 = imageOption)
    (hrest : ∀ b ∈ rest, b.1 ≠ imageOption) :
    rest.foldl (fun i a => i.put a.1 a.2) { Image.blank with image := some a.2 } =
      sectionEntry (a :: rest) := by
  have hothers : valuesOf imageOption rest = [] := by
    unfold valuesOf
    rw [List.filter_eq_nil_iff.mpr fun b hb => by simpa using hrest b hb, List.map_nil]
  have hne : ∀ option ∈ [deviceOption, rootOption, labelOption, appendOption, commandOption],
      a.1 ≠ option := by
    rw [ha]
    decide
  have hlast : lastValue imageOption rest = none := by
    unfold lastValue
    rw [hothers, List.getLast?_nil]
  rw [foldl_put]
  unfold sectionEntry
  simp only [lastValue_cons, valuesOf_cons, hlast, if_pos ha, if_neg (hne deviceOption (by decide)),
    if_neg (hne rootOption (by decide)), if_neg (hne labelOption (by decide)),
    if_neg (hne appendOption (by decide)), if_neg (hne commandOption (by decide))]
  rfl

/-- From the first image line on there is always an entry to put options in. -/
theorem foldl_addOption (before : List (Image (List UInt8))) (entry : Image (List UInt8))
    (options : List Assignment) :
    options.foldl (fun images a => addOption images a.1 a.2) (before ++ [entry]) =
      before ++ (splitSections options).1.foldl (fun i a => i.put a.1 a.2) entry ::
        (sections options).map sectionEntry := by
  induction options generalizing before entry with
  | nil => rfl
  | cons a options ih =>
      unfold sections
      rw [List.foldl_cons]
      by_cases himage : a.1 = imageOption
      · rw [addOption_image _ himage, splitSections_image himage, ih (before ++ [entry]),
          List.foldl_nil, List.map_cons, foldl_section himage (splitSections_front options),
          List.append_assoc]
        rfl
      · rw [addOption_other _ himage, splitSections_other himage, modify_last, ih before]
        rfl

/-- The table has an entry for each section. -/
theorem foldl_addOption_nil (options : List Assignment) :
    options.foldl (fun images a => addOption images a.1 a.2) [] =
      (sections options).map sectionEntry := by
  induction options with
  | nil => rfl
  | cons a options ih =>
      unfold sections
      rw [List.foldl_cons]
      by_cases himage : a.1 = imageOption
      · rw [addOption_image _ himage, splitSections_image himage, foldl_addOption [], List.map_cons,
          foldl_section himage (splitSections_front options)]
        rfl
      · rw [addOption_other _ himage, splitSections_other himage]
        exact ih

/-! ## The table of a file -/

theorem readLines_eq (lines : List LineMeaning) {t : ConfigTable} (h : t.failed = false) :
    readLines t lines =
      { timeout := ((lastValue timeoutOption (obeyed lines)).map readTimeout).getD t.timeout
        images := (obeyed lines).foldl (fun images a => addOption images a.1 a.2) t.images
        failed := decide (.malformed ∈ lines) } := by
  induction lines generalizing t with
  | nil =>
      rw [readLines]
      cases t
      cases h
      rfl
  | cons line lines ih =>
      cases line with
      | malformed =>
          have hobeyed : obeyed (.malformed :: lines) = [] := rfl
          have hstop : (readLine t .malformed).failed = true := rfl
          rw [readLines, if_pos hstop, hobeyed, decide_eq_true List.mem_cons_self]
          rfl
      | nothing =>
          have hobeyed : obeyed (.nothing :: lines) = obeyed lines := rfl
          have hmem : (.malformed ∈ LineMeaning.nothing :: lines) ↔ .malformed ∈ lines := by simp
          have hkeep : readLine t .nothing = t := rfl
          rw [readLines, hkeep, if_neg (by rw [h]; decide), ih h, hobeyed]
          simp only [hmem]
      | assign option value =>
          have hobeyed : obeyed (.assign option value :: lines) =
              (option, value) :: obeyed lines := rfl
          have hmem : (.malformed ∈ LineMeaning.assign option value :: lines) ↔
              .malformed ∈ lines := by simp
          have hkeep : (readLine t (.assign option value)).failed = false := h
          rw [readLines, if_neg (by rw [hkeep]; decide), ih hkeep, hobeyed, lastValue_cons]
          simp only [hmem, List.foldl_cons, readLine]
          congr 1
          cases lastValue timeoutOption (obeyed lines) with
          | some v => rfl
          | none =>
              simp only [Option.none_or, Option.map_none, Option.getD_none]
              split
              · rfl
              · rfl

/-- The table of any file. -/
theorem configTable_eq (text : List UInt8) :
    configTable text =
      ⟨fileTimeout text, (sections (fileOptions text)).map sectionEntry,
        decide (.malformed ∈ (configLines text).map lineMeaning)⟩ := by
  unfold configTable
  rw [readLines_eq _ rfl, foldl_addOption_nil]
  rfl

/-- What the loop computes for any file. -/
theorem parseConfig_table (text : List UInt8) :
    (parseConfig text).timeout = fileTimeout text ∧
      (parseConfig text).images.map (Image.map (stringIn (parseConfig text).buf)) =
        (sections (fileOptions text)).map sectionEntry ∧
      ((parseConfig text).failed = true ↔ Malformed text) := by
  obtain ⟨done, rest, hfollows⟩ := parseConfig_follows text
  have htable := hfollows.table
  rw [configTable_eq] at htable
  refine ⟨congrArg ConfigTable.timeout htable, congrArg ConfigTable.images htable, ?_⟩
  have hfailed := congrArg ConfigTable.failed htable
  simp only [ConfigRun.table] at hfailed
  rw [hfailed, decide_eq_true_eq]
  rfl

/-! ## Files of well-formed lines -/

theorem configLines_render {text : List UInt8} {lines : List ConfigLine}
    (h : text.splitOn newline = lines.map ConfigLine.render) :
    configLines text = lines.map ConfigLine.render := by
  unfold configLines
  rw [h, List.takeWhile_eq_self_iff.mpr, List.map_map]
  · apply List.map_congr_left
    intro line _
    exact takeWhile_of_no_nul line.nul_not_mem_render
  · intro string hstring
    obtain ⟨line, _, rfl⟩ := List.mem_map.mp hstring
    rw [bne_iff_ne]
    exact fun hhead => line.nul_not_mem_render (List.mem_of_mem_head? hhead)

theorem fileOptions_render {text : List UInt8} {lines : List ConfigLine}
    (h : text.splitOn newline = lines.map ConfigLine.render) :
    ¬ Malformed text ∧ fileOptions text = lines.filterMap ConfigLine.assignment? := by
  have hmeaning : ∀ line : ConfigLine, lineMeaning line.render ≠ .malformed ∧
      (lineMeaning line.render).assignment? = line.assignment? := by
    intro line
    rw [lineMeaning_render]
    cases line.assignment? with
    | none => exact ⟨by simp, rfl⟩
    | some a => exact ⟨by simp, rfl⟩
  have hall : ∀ m ∈ (lines.map ConfigLine.render).map lineMeaning, m ≠ .malformed := by
    intro m hm
    rw [List.map_map] at hm
    obtain ⟨line, _, rfl⟩ := List.mem_map.mp hm
    exact (hmeaning line).1
  unfold Malformed fileOptions obeyed
  rw [configLines_render h]
  refine ⟨fun hmem => hall _ hmem rfl, ?_⟩
  rw [List.takeWhile_eq_self_iff.mpr fun m hm => bne_iff_ne.mpr (hall m hm), List.map_map,
    List.filterMap_map]
  exact congrArg (List.filterMap · lines) (funext fun line => (hmeaning line).2)

theorem count_newline {lines : List (List UInt8)} (h : ∀ line ∈ lines, newline ∉ line) :
    (lines.flatMap (· ++ [newline])).count newline = lines.length := by
  induction lines with
  | nil => rfl
  | cons line lines ih =>
      have hline := List.count_eq_zero.mpr (h line List.mem_cons_self)
      rw [List.flatMap_cons, List.count_append, List.count_append, hline,
        ih fun l hl => h l (List.mem_cons_of_mem line hl), List.length_cons, List.count_singleton_self,
        Nat.zero_add, Nat.add_comm]

theorem text_newline (text : List UInt8) :
    text ++ [newline] = (text.splitOn newline).flatMap (· ++ [newline]) := by
  have hlines := intercalate_newline (List.splitOn_ne_nil newline text) []
  rwa [List.intercalate_splitOn, List.append_nil] at hlines

/-- Without a NUL all newlines are counted. -/
theorem tableSize_eq {text : List UInt8} (h : 0 ∉ text) :
    tableSize text = (text.splitOn newline).length / 2 := by
  have hstring : stringIn (text ++ [newline, 0]) 0 = text ++ [newline] := by
    have hclean : 0 ∉ text ++ [newline] := by
      rw [List.mem_append]
      exact fun hmem => hmem.elim h (by decide)
    have happend : text ++ [newline, 0] = [] ++ ((text ++ [newline]) ++ [0]) := by simp
    rw [happend]
    exact stringIn_eq hclean [] []
  unfold tableSize countNewlines
  rw [hstring, text_newline, count_newline fun line hline => not_mem_of_mem_splitOn hline]

/-- Every option is in the common part or in one section. -/
theorem splitSections_length (options : List Assignment) :
    (splitSections options).1.length + ((sections options).map List.length).sum =
      options.length := by
  unfold sections
  induction options with
  | nil => rfl
  | cons a options ih =>
      by_cases himage : a.1 = imageOption
      · rw [splitSections_image himage]
        simp only [List.length_nil, List.map_cons, List.sum_cons, List.length_cons]
        omega
      · rw [splitSections_other himage]
        simp only [List.length_cons]
        omega

theorem two_mul_length_le {parts : List (List Assignment)} (h : ∀ part ∈ parts, 2 ≤ part.length) :
    2 * parts.length ≤ (parts.map List.length).sum := by
  induction parts with
  | nil => exact Nat.le_refl 0
  | cons part parts ih =>
      have hpart := h part List.mem_cons_self
      have hrest := ih fun p hp => h p (List.mem_cons_of_mem part hp)
      rw [List.map_cons, List.sum_cons, List.length_cons]
      omega

/-- The table that is built is the one the sections describe, and it is big enough
when no image line is followed by another one. -/
theorem parseConfig_sections (text : List UInt8) (lines : List ConfigLine)
    (htext : text.splitOn newline = lines.map ConfigLine.render)
    (hfollowed : ∀ part ∈ sections (lines.filterMap ConfigLine.assignment?), 2 ≤ part.length) :
    (parseConfig text).failed = false ∧
      (∀ i ∈ (parseConfig text).stores, i < tableSize text) ∧
      (parseConfig text).images.map (Image.map (stringIn (parseConfig text).buf)) =
        (sections (lines.filterMap ConfigLine.assignment?)).map sectionEntry := by
  obtain ⟨hformed, hoptions⟩ := fileOptions_render htext
  obtain ⟨_, himages, hfailed⟩ := parseConfig_table text
  obtain ⟨done, rest, hfollows⟩ := parseConfig_follows text
  rw [hoptions] at himages
  refine ⟨Bool.eq_false_iff.mpr fun h => hformed (hfailed.mp h), fun i hi => ?_, himages⟩
  have hnul : 0 ∉ text := by
    intro h
    have hmem : 0 ∈ text ++ [newline] := List.mem_append_left _ h
    rw [text_newline, htext] at hmem
    obtain ⟨string, hstring, hzero⟩ := List.mem_flatMap.mp hmem
    obtain ⟨line, _, rfl⟩ := List.mem_map.mp hstring
    rw [List.mem_append] at hzero
    exact hzero.elim line.nul_not_mem_render (by decide)
  have hcount := congrArg List.length himages
  have hsections := splitSections_length (lines.filterMap ConfigLine.assignment?)
  have htwo := two_mul_length_le hfollowed
  have hlines := List.length_filterMap_le ConfigLine.assignment? lines
  have hwithin := hfollows.stored.within i hi
  rw [tableSize_eq hnul, htext, List.length_map]
  simp only [List.length_map] at hcount
  omega

/-- `image = a` and `label="b c"`, the second line without a newline. -/
theorem parseConfig_sections_two_lines :
    (parseConfig [0x69, 0x6d, 0x61, 0x67, 0x65, 0x20, 0x3d, 0x20, 0x61, 0x0a, 0x6c, 0x61, 0x62,
        0x65, 0x6c, 0x3d, 0x22, 0x62, 0x20, 0x63, 0x22]).images.map (Image.map (stringIn
          (parseConfig [0x69, 0x6d, 0x61, 0x67, 0x65, 0x20, 0x3d, 0x20, 0x61, 0x0a, 0x6c, 0x61,
            0x62, 0x65, 0x6c, 0x3d, 0x22, 0x62, 0x20, 0x63, 0x22]).buf)) =
      [{ Image.blank with image := some [0x61], label := some [0x62, 0x20, 0x63] }] :=
  (parseConfig_sections _
    [.option ⟨[], imageOption, [0x20], [0x20], false, [0x61], [], forall_of_all (by decide),
        by decide, forall_of_all (by decide), by decide, forall_of_all (by decide), by decide⟩,
      .option ⟨[], labelOption, [], [], true, [0x62, 0x20, 0x63], [], forall_of_all (by decide),
        by decide, forall_of_all (by decide), by decide, forall_of_all (by decide), by decide⟩]
    (by decide +kernel) (by decide)).2.2.trans (by decide)

end Milo.Shell
