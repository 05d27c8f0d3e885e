import Milo.Foundation.CString
import Milo.Foundation.LastEntries
import Milo.Shell.CommandResidue
import Milo.Shell.OptionText

/-! # Which options are left

An option is to replace an earlier one with the same name. `boot_config` compares the
name with as many characters of the earlier options, so it also finds an option whose
name goes on.
-/

namespace Milo.Shell

open Foundation

def tab : UInt8 := 0x09

/-- The options of a text, separated by one or more spaces. -/
def optionWords (text : List UInt8) : List (List UInt8) :=
  (text.splitOn space).filter fun option => !option.isEmpty

/-- What the scan takes for the options; it also steps over tabs in front of one. -/
def scannedOptions (text : List UInt8) : List (List UInt8) :=
  ((text.splitOn space).map (List.dropWhile isBlank)).filter fun option => !option.isEmpty

/-- For each name its last option, followed by a space. -/
def mergedOptions (text : List UInt8) : List UInt8 :=
  (lastEntries optionName (optionWords text)).flatMap (· ++ [space])

/-! ## The scan as a run over the options -/

theorem mergeOptions_lead (options : List (List UInt8)) {lead : List UInt8}
    (h : ∀ c ∈ lead, isBlank c = true) (rest : List UInt8) :
    mergeOptions options (lead ++ rest) = mergeOptions options rest := by
  by_cases hrest : rest.head?.getD 0 = 0
  · rw [mergeOptions_blanks options h hrest]
    exact (@mergeOptions_blanks options [] (by simp) rest hrest).symm
  · have hfirst : (lead ++ rest).head?.getD 0 ≠ 0 := by
      cases lead with
      | nil => exact hrest
      | cons b lead =>
          intro hnul
          have hb := h b List.mem_cons_self
          rw [show b = 0 from hnul] at hb
          cases hb
    rw [mergeOptions_eq, mergeOptions_eq options rest, if_neg hfirst, if_neg hrest,
      List.dropWhile_append_of_pos h]

/-- A name has no equals sign, so it is compared with the name of the other option. -/
theorem isPrefixOf_optionName (option other : List UInt8) :
    (optionName option).isPrefixOf other = (optionName option).isPrefixOf (optionName other) := by
  have hname : ∀ c ∈ optionName option, c ≠ equalsSign := by
    intro c hc
    have hpass := List.mem_takeWhile_imp (p := (· != equalsSign)) hc
    exact bne_iff_ne.mp hpass
  generalize optionName option = name at hname
  unfold optionName
  induction name generalizing other with
  | nil => rfl
  | cons c name ih =>
      cases other with
      | nil => rfl
      | cons d other =>
          by_cases hd : d = equalsSign
          · have hne : (c == d) = false := by
              rw [hd]
              exact beq_eq_false_iff_ne.mpr (hname c List.mem_cons_self)
            rw [List.takeWhile_cons_of_neg (by simp [hd])]
            simp [List.isPrefixOf, hne]
          · rw [List.takeWhile_cons_of_pos (by simp [hd])]
            simp only [List.isPrefixOf]
            rw [ih other fun e he => hname e (List.mem_cons_of_mem c he)]

/-- Putting an option among those that are left. -/
def putOption (options : List (List UInt8)) (option : List UInt8) : List (List UInt8) :=
  putEntry (fun other => (optionName option).isPrefixOf (optionName other)) option options

theorem mergeOption_eq (options : List (List UInt8)) (option : List UInt8) :
    mergeOption options (optionName option) option = putOption options option := by
  have htest : (fun other => (optionName option).isPrefixOf other) =
      fun other => (optionName option).isPrefixOf (optionName other) :=
    funext (isPrefixOf_optionName option)
  unfold putOption putEntry
  rw [← htest]
  rfl

theorem scannedOptions_single {piece : List UInt8} (h : space ∉ piece) :
    scannedOptions piece = [piece.dropWhile isBlank].filter fun option => !option.isEmpty := by
  unfold scannedOptions
  rw [List.splitOn_eq_singleton h]
  rfl

theorem scannedOptions_append {piece : List UInt8} (h : space ∉ piece) (rest : List UInt8) :
    scannedOptions (piece ++ space :: rest) = scannedOptions piece ++ scannedOptions rest := by
  rw [scannedOptions_single h]
  unfold scannedOptions
  rw [List.splitOn_append_cons_self_of_not_mem h, List.map_cons, ← List.filter_append]
  rfl

/-- What stands up to the next space is one option at most. -/
theorem mergeOptions_piece (options : List (List UInt8)) {piece rest : List UInt8}
    (hspace : space ∉ piece) (hnul : 0 ∉ piece) (hrest : ∀ c ∈ rest.head?, c = space) :
    mergeOptions options (piece ++ rest) =
      mergeOptions ((scannedOptions piece).foldl putOption options) (rest.drop 1) := by
  have hsplit := (@List.takeWhile_append_dropWhile _ isBlank piece).symm
  have hlead : ∀ c ∈ piece.takeWhile isBlank, isBlank c = true :=
    fun c hc => List.mem_takeWhile_imp hc
  have hhead := List.head?_dropWhile_not isBlank piece
  have hsub : piece.dropWhile isBlank ⊆ piece := (List.dropWhile_sublist isBlank).subset
  rw [scannedOptions_single hspace]
  generalize piece.takeWhile isBlank = lead at hsplit hlead
  generalize piece.dropWhile isBlank = option at hsplit hhead hsub
  rw [hsplit, List.append_assoc]
  cases option with
  | nil =>
      -- only tabs, and then a space or the end
      rw [List.nil_append, mergeOptions_lead options hlead]
      cases rest with
      | nil => rfl
      | cons c rest =>
          have hc : c = space := hrest c rfl
          rw [hc]
          exact @mergeOptions_lead options [space] (List.forall_mem_singleton.mpr rfl) rest
  | cons c tail =>
      have hoption : IsOption (c :: tail) := by
        refine ⟨⟨c, rfl, by simpa using hhead⟩, fun d hd => ⟨?_, ?_⟩⟩
        · exact fun h => hnul (h ▸ hsub hd)
        · exact fun h => hspace (h ▸ hsub hd)
      rw [mergeOptions_option options hlead hoption fun d hd => Or.inr (hrest d hd),
        mergeOption_eq]
      rfl

/-- The whole scan of a text. -/
theorem mergeOptions_scanned (options : List (List UInt8)) {text : List UInt8} (hnul : 0 ∉ text) :
    mergeOptions options text = (scannedOptions text).foldl putOption options := by
  induction hn : text.length using Nat.strongRecOn generalizing text options with
  | ind n ih =>
      by_cases hspace : space ∈ text
      · obtain ⟨piece, rest, rfl, hpiece⟩ := List.eq_append_cons_of_mem hspace
        rw [List.mem_append, List.mem_cons, not_or, not_or] at hnul
        have hshort : rest.length < n := by
          rw [← hn, List.length_append, List.length_cons]
          omega
        have hstep := @mergeOptions_piece options piece (space :: rest) hpiece hnul.1
          fun c hc => (Option.some.inj hc).symm
        rw [hstep, scannedOptions_append hpiece, List.foldl_append]
        exact ih rest.length hshort _ hnul.2.2 rfl
      · have hlast := @mergeOptions_piece options text [] hspace hnul (by simp)
        rwa [List.append_nil, List.drop_nil, mergeOptions_nil] at hlast

/-! ## The options and their text -/

theorem optionWords_mem {text option : List UInt8} (h : option ∈ optionWords text) :
    option ≠ [] ∧ space ∉ option := by
  obtain ⟨hpiece, hne⟩ := List.mem_filter.mp h
  exact ⟨by simpa using hne, not_mem_of_mem_splitOn hpiece⟩

theorem scannedOptions_mem {text option : List UInt8} (h : option ∈ scannedOptions text) :
    space ∉ option ∧ ∀ c ∈ option.head?, isBlank c = false := by
  obtain ⟨hmap, _⟩ := List.mem_filter.mp h
  obtain ⟨piece, hpiece, rfl⟩ := List.mem_map.mp hmap
  refine ⟨fun hspace => not_mem_of_mem_splitOn hpiece ((List.dropWhile_sublist _).subset hspace),
    fun c hc => ?_⟩
  have hhead := List.head?_dropWhile_not isBlank piece
  rw [Option.mem_def.mp hc] at hhead
  simpa using hhead

/-- Without tabs in front the scan takes the options as they are. -/
theorem scannedOptions_eq {text : List UInt8}
    (h : ∀ option ∈ optionWords text, option.head? ≠ some tab) :
    scannedOptions text = optionWords text := by
  have hpieces : (text.splitOn space).map (List.dropWhile isBlank) = text.splitOn space := by
    refine (List.map_congr_left fun piece hpiece => ?_).trans (List.map_id _)
    cases piece with
    | nil => rfl
    | cons c piece =>
        have htab := h (c :: piece) (List.mem_filter.mpr ⟨hpiece, rfl⟩)
        have hspace := not_mem_of_mem_splitOn hpiece
        have hc : isBlank c = false := by
          rw [List.mem_cons, not_or] at hspace
          simp only [List.head?_cons, ne_eq, Option.some.injEq] at htab
          unfold isBlank
          simp only [Bool.or_eq_false_iff, beq_eq_false_iff_ne]
          exact ⟨fun heq => hspace.1 heq.symm, htab⟩
        rw [List.dropWhile_cons_of_neg (by simp [hc])]
        rfl
  unfold scannedOptions optionWords
  rw [hpieces]

theorem putOptions_mem {option : List UInt8} {options words : List (List UInt8)}
    (h : option ∈ words.foldl putOption options) : option ∈ options ∨ option ∈ words := by
  induction words generalizing options with
  | nil => exact Or.inl h
  | cons word words ih =>
      rcases ih h with hput | hword
      · rcases mem_putEntry hput with rfl | hold
        · exact Or.inr List.mem_cons_self
        · exact Or.inl hold
      · exact Or.inr (List.mem_cons_of_mem word hword)

/-- Options without spaces can be read off the string that is put together. -/
theorem flatMap_space_inj {options options' : List (List UInt8)} (h : ∀ o ∈ options, space ∉ o)
    (h' : ∀ o ∈ options', space ∉ o) :
    options.flatMap (· ++ [space]) = options'.flatMap (· ++ [space]) ↔ options = options' := by
  refine ⟨fun heq => ?_, fun heq => heq ▸ rfl⟩
  induction options generalizing options' with
  | nil =>
      cases options' with
      | nil => rfl
      | cons o' options' => simp at heq
  | cons o options ih =>
      cases options' with
      | nil => simp at heq
      | cons o' options' =>
          rw [List.flatMap_cons, List.flatMap_cons, List.append_assoc, List.append_assoc,
            List.singleton_append, List.singleton_append] at heq
          have hsplit := congrArg (List.splitOn space) heq
          rw [List.splitOn_append_cons_self_of_not_mem (h o List.mem_cons_self),
            List.splitOn_append_cons_self_of_not_mem (h' o' List.mem_cons_self)] at hsplit
          obtain ⟨rfl, -⟩ := List.cons.inj hsplit
          have hrest := (List.cons.inj (List.append_cancel_left heq)).2
          rw [ih (fun p hp => h p (List.mem_cons_of_mem o hp))
            (fun p hp => h' p (List.mem_cons_of_mem o hp)) hrest]

/-! ## The string for `boot_cmd` -/

/-- No name is found where it only starts another one. -/
def NamesApart (text : List UInt8) : Prop :=
  FindsOwn optionName List.isPrefixOf (optionWords text)

theorem isPrefixOf_rank (name other : List UInt8) (h : name.isPrefixOf other = true) :
    other = name ∨ name.length < other.length := by
  obtain ⟨rest, rfl⟩ := List.isPrefixOf_iff_prefix.mp h
  cases rest with
  | nil => exact Or.inl (List.append_nil name)
  | cons c rest =>
      right
      rw [List.length_append, List.length_cons]
      omega

theorem optionName_tab (option : List UInt8) :
    (optionName option).head? = some tab ↔ option.head? = some tab := by
  cases option with
  | nil => rfl
  | cons c option =>
      unfold optionName
      by_cases hc : c = equalsSign
      · rw [List.takeWhile_cons_of_neg (by simp [hc]), hc]
        exact ⟨nofun, fun h => absurd (Option.some.inj h) (by decide)⟩
      · rw [List.takeWhile_cons_of_pos (by simp [hc])]
        rfl

/-- The scan leaves the last option of each name exactly if none has a tab in front, and
the names are kept apart. -/
theorem mergeOptions_lastEntries_iff {text : List UInt8} (hnul : 0 ∉ text) :
    mergeOptions [] text = lastEntries optionName (optionWords text) ↔
      (∀ option ∈ optionWords text, option.head? ≠ some tab) ∧ NamesApart text := by
  have hrun : putEntries optionName List.isPrefixOf (optionWords text) =
      lastEntries optionName (optionWords text) ↔ NamesApart text :=
    putEntries_eq_iff isPrefixOf_rank
      (fun name => List.isPrefixOf_iff_prefix.mpr List.prefix_rfl) (optionWords text)
  rw [mergeOptions_scanned [] hnul]
  constructor
  · intro heq
    have htabs : ∀ option ∈ optionWords text, option.head? ≠ some tab := by
      intro option hoption htab
      -- the last option with this name also has the tab, but no scanned one does
      obtain ⟨last, hmem, hname⟩ := exists_lastEntries optionName hoption
      have hfirst : last.head? = some tab := by
        rw [← optionName_tab, hname, optionName_tab]
        exact htab
      rw [← heq] at hmem
      have hscanned := (putOptions_mem hmem).resolve_left List.not_mem_nil
      have hblank := (scannedOptions_mem hscanned).2 tab hfirst
      cases hblank
    rw [scannedOptions_eq htabs] at heq
    exact ⟨htabs, hrun.mp heq⟩
  · rintro ⟨htabs, hnames⟩
    rw [scannedOptions_eq htabs]
    exact hrun.mpr hnames

theorem bootOptions_text (root append : Option (List UInt8)) (args stale : List UInt8) :
    (bootOptions root append (some args) stale).getD [] =
      (mergeOptions [] (fullOptions root append (some args) ++ 0 :: stale)).flatMap
        (· ++ [space]) := by
  unfold bootOptions
  split
  · rename_i hnone
    unfold noOptions at hnone
    rw [Bool.and_eq_true, Bool.and_eq_true, Option.isNone_iff_eq_none, List.isEmpty_iff,
      List.isEmpty_iff] at hnone
    obtain ⟨⟨rfl, happend⟩, hargs⟩ := hnone
    have hblank : ∀ c ∈ fullOptions none append (some args), isBlank c = true := by
      cases append with
      | none => simp_all [fullOptions]
      | some append => simp_all [fullOptions, isBlank, space]
    rw [mergeOptions_blanks [] hblank rfl]
    rfl
  · rfl

section
variable {reuse : Bool} {root append : Option (List UInt8)} {args : List UInt8}
  (hnul : 0 ∉ fullOptions root append (some args))
include hnul

/-- Where the rest of the block does not count, the string is right exactly if the scan
of the text is. -/
theorem bootOptions_eq_iff (hends : reuse = true → EndsBlank args) {stale : List UInt8}
    (hstale : BlockRest reuse stale) :
    (bootOptions root append (some args) stale).getD [] =
        mergedOptions (fullOptions root append (some args)) ↔
      mergeOptions [] (fullOptions root append (some args)) =
        lastEntries optionName (optionWords (fullOptions root append (some args))) := by
  rw [← fullOptions_ends root append] at hends
  rw [bootOptions_text, mergeOptions_rest hnul hends hstale]
  apply flatMap_space_inj
  · intro option hoption
    rw [mergeOptions_scanned [] hnul] at hoption
    exact (scannedOptions_mem ((putOptions_mem hoption).resolve_left List.not_mem_nil)).1
  · exact fun option hoption => (optionWords_mem (mem_lastEntries optionName hoption)).2

theorem bootOptions_merged_iff :
    (∀ stale, BlockRest reuse stale →
        (bootOptions root append (some args) stale).getD [] =
          mergedOptions (fullOptions root append (some args))) ↔
      (reuse = true → EndsBlank args) ∧
        (∀ option ∈ optionWords (fullOptions root append (some args)), option.head? ≠ some tab) ∧
          NamesApart (fullOptions root append (some args)) := by
  rw [← mergeOptions_lastEntries_iff hnul]
  constructor
  · intro h
    have hends : reuse = true → EndsBlank args := by
      refine (bootOptions_stale_iff hnul).mp fun stale stale' hstale hstale' => ?_
      have hsame := (h stale hstale).trans (h stale' hstale').symm
      unfold bootOptions at hsame ⊢
      split
      · rfl
      · rename_i hsome
        rw [if_neg hsome, if_neg hsome] at hsame
        exact congrArg some hsame
    have hnone : BlockRest reuse [] := fun _ _ hc => absurd hc List.not_mem_nil
    exact ⟨hends, (bootOptions_eq_iff hnul hends hnone).mp (h [] hnone)⟩
  · intro h stale hstale
    exact (bootOptions_eq_iff hnul h.1 hstale).mpr h.2

end

/-- For every root, append and typed string. -/
theorem bootOptions_merges_iff (reuse : Bool) (root append : Option CString) (args : CString) :
    let text := fullOptions (root.map CString.chars) (append.map CString.chars) (some args.chars)
    (∀ stale, BlockRest reuse stale →
        (bootOptions (root.map CString.chars) (append.map CString.chars) (some args.chars)
          stale).getD [] = mergedOptions text) ↔
      (reuse = true → EndsBlank args.chars) ∧
        (∀ option ∈ optionWords text, option.head? ≠ some tab) ∧ NamesApart text := by
  have hstring : ∀ field : Option CString, ∀ s ∈ field.map CString.chars, 0 ∉ s := by
    intro field s hs
    obtain ⟨string, _, rfl⟩ := Option.map_eq_some_iff.mp hs
    exact string.noNul
  exact bootOptions_merged_iff
    (nul_not_mem_fullOptions (hstring root) (hstring append) args.noNul)

/-- The option `ro` is taken for the `root=` that is found in front of it. -/
theorem ro_replaces_root :
    ¬ ∀ stale, BlockRest false stale →
      (bootOptions (some [0x2f, 0x61]) none (some [0x72, 0x6f, 0x20]) stale).getD [] =
        mergedOptions (fullOptions (some [0x2f, 0x61]) none (some [0x72, 0x6f, 0x20])) := by
  intro h
  have hnul : 0 ∉ fullOptions (some [0x2f, 0x61]) none (some [0x72, 0x6f, 0x20]) := by decide
  have hnone : BlockRest false [] := fun _ _ hc => absurd hc List.not_mem_nil
  have hclear := h [] hnone
  rw [bootOptions_text, mergeOptions_rest hnul (fun h => absurd h Bool.false_ne_true) hnone,
    mergeOptions_scanned [] hnul] at hclear
  revert hclear
  decide

end Milo.Shell
