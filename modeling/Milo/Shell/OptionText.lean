import Milo.Shell.BootConfig

/-! # Where the option scan ends

The scan of `boot_config` steps over the character behind each option. When that
is the NUL of the string, it goes on in the rest of the block. `kmalloc` clears a
block, but with REUSE_MEMORY one that was freed comes back as it is, and then the
option string depends on the heap unless the text ends with a space.
-/

namespace Milo.Shell

open Foundation

/-- Only tabs stand behind the last space. -/
def EndsBlank (text : List UInt8) : Prop :=
  ∀ c ∈ text.reverse.takeWhile (· != space), isBlank c = true

/-- What a block can hold behind its string; `reuse` is REUSE_MEMORY. -/
def BlockRest (reuse : Bool) (stale : List UInt8) : Prop := reuse = false → ∀ c ∈ stale, c = 0

/-- The name of an option. -/
def optionName (option : List UInt8) : List UInt8 := option.takeWhile (· != equalsSign)

/-- What can be an option: no blank in front, and no space or NUL in it. -/
structure IsOption (option : List UInt8) : Prop where
  head : ∃ c ∈ option.head?, isBlank c = false
  chars : ∀ c ∈ option, c ≠ 0 ∧ c ≠ space

/-! ## One step of the scan -/

theorem mergeOptions_eq (options : List (List UInt8)) (start : List UInt8) :
    mergeOptions options start =
      if start.head?.getD 0 = 0 then options
      else if (start.dropWhile isBlank).head?.getD 0 = 0 then options
      else
        mergeOptions (mergeOption options
            ((start.dropWhile isBlank).takeWhile fun c => c != 0 && c != equalsSign && c != space)
            ((start.dropWhile isBlank).takeWhile fun c => c != 0 && c != space))
          ((start.dropWhile isBlank).drop
            (((start.dropWhile isBlank).takeWhile fun c => c != 0 && c != space).length + 1)) := by
  rw [mergeOptions]

/-- Blanks alone hold no option. -/
theorem mergeOptions_blanks (options : List (List UInt8)) {lead : List UInt8}
    (h : ∀ c ∈ lead, isBlank c = true) {rest : List UInt8} (hrest : rest.head?.getD 0 = 0) :
    mergeOptions options (lead ++ rest) = options := by
  have hstop : rest.dropWhile isBlank = rest := by
    cases rest with
    | nil => rfl
    | cons c rest =>
        have hc : c = 0 := hrest
        rw [hc, List.dropWhile_cons_of_neg (by decide)]
  rw [mergeOptions_eq, List.dropWhile_append_of_pos h, hstop, if_pos hrest]
  split
  · rfl
  · rfl

theorem takeWhile_stop {pred : UInt8 → Bool} (hnul : pred 0 = false) (hspace : pred space = false)
    {rest : List UInt8} (hrest : ∀ c ∈ rest.head?, c = 0 ∨ c = space) :
    rest.takeWhile pred = [] := by
  cases rest with
  | nil => rfl
  | cons c rest =>
      rcases hrest c rfl with rfl | rfl
      · rw [List.takeWhile_cons_of_neg (by rw [hnul]; decide)]
      · rw [List.takeWhile_cons_of_neg (by rw [hspace]; decide)]

/-- The name ends at the equals sign or with the option. -/
theorem takeWhile_name {option rest : List UInt8} (hoption : ∀ c ∈ option, c ≠ 0 ∧ c ≠ space)
    (hrest : ∀ c ∈ rest.head?, c = 0 ∨ c = space) :
    (option ++ rest).takeWhile (fun c => c != 0 && c != equalsSign && c != space) =
      optionName option := by
  unfold optionName
  induction option with
  | nil => exact takeWhile_stop rfl rfl hrest
  | cons c option ih =>
      have hc := hoption c List.mem_cons_self
      have htail := ih fun d hd => hoption d (List.mem_cons_of_mem c hd)
      simp only [List.cons_append, List.takeWhile_cons, htail]
      simp [hc.1, hc.2]

/-- An option is taken up to its end, whatever the character there is. -/
theorem mergeOptions_option (options : List (List UInt8)) {lead option : List UInt8}
    (hlead : ∀ c ∈ lead, isBlank c = true) (hoption : IsOption option) {rest : List UInt8}
    (hrest : ∀ c ∈ rest.head?, c = 0 ∨ c = space) :
    mergeOptions options (lead ++ (option ++ rest)) =
      mergeOptions (mergeOption options (optionName option) option) (rest.drop 1) := by
  obtain ⟨c, hc, hblank⟩ := hoption.head
  obtain ⟨tail, rfl⟩ : ∃ tail, option = c :: tail := by
    cases option with
    | nil => cases hc
    | cons d tail => exact ⟨tail, by rw [Option.some.inj hc]⟩
  have hchar := hoption.chars c List.mem_cons_self
  have hfirst : (lead ++ (c :: tail ++ rest)).head?.getD 0 ≠ 0 := by
    cases lead with
    | nil => exact hchar.1
    | cons b lead =>
        intro h
        have hb := hlead b List.mem_cons_self
        rw [show b = 0 from h] at hb
        cases hb
  have hword : (lead ++ (c :: tail ++ rest)).dropWhile isBlank = c :: tail ++ rest := by
    rw [List.dropWhile_append_of_pos hlead, List.cons_append,
      List.dropWhile_cons_of_neg (by rw [hblank]; decide)]
  have htaken : (c :: tail ++ rest).takeWhile (fun c => c != 0 && c != space) = c :: tail := by
    rw [List.takeWhile_append_of_pos, takeWhile_stop rfl rfl hrest, List.append_nil]
    intro d hd
    have hd := hoption.chars d hd
    simp [hd.1, hd.2]
  have hnonempty : (c :: tail ++ rest).head?.getD 0 ≠ 0 := hchar.1
  rw [mergeOptions_eq, if_neg hfirst, hword, if_neg hnonempty, htaken,
    takeWhile_name hoption.chars hrest, List.drop_append, List.drop_eq_nil_of_le (Nat.le_succ _),
    Nat.add_sub_cancel_left, List.nil_append]

theorem mergeOptions_nil (options : List (List UInt8)) : mergeOptions options [] = options := by
  have hend : ([] : List UInt8).head?.getD 0 = 0 := rfl
  rw [mergeOptions_eq, if_pos hend]

theorem mergeOption_ne_nil (options : List (List UInt8)) (name option : List UInt8) :
    mergeOption options name option ≠ [] := by
  unfold mergeOption
  split
  · rename_i i hi
    intro hnil
    rw [List.set_eq_nil_iff] at hnil
    rw [hnil] at hi
    cases hi
  · simp

/-! ## The whole text -/

theorem text_shape {text : List UInt8} (hnul : 0 ∉ text) :
    (∀ c ∈ text, isBlank c = true) ∨
      ∃ lead option rest, text = lead ++ (option ++ rest) ∧ (∀ c ∈ lead, isBlank c = true) ∧
        IsOption option ∧ ∀ c ∈ rest.head?, c = space := by
  by_cases hall : ∀ c ∈ text, isBlank c = true
  · exact Or.inl hall
  · right
    have hsplit := (@List.takeWhile_append_dropWhile _ isBlank text).symm
    have hne : text.dropWhile isBlank ≠ [] := by
      rw [ne_eq, List.dropWhile_eq_nil_iff]
      exact hall
    have hhead := List.head?_dropWhile_not isBlank text
    have hsub : text.dropWhile isBlank ⊆ text := (List.dropWhile_sublist isBlank).subset
    generalize text.dropWhile isBlank = word at hsplit hne hhead hsub
    have hword := (@List.takeWhile_append_dropWhile _ (· != space) word).symm
    refine ⟨_, word.takeWhile (· != space), word.dropWhile (· != space), hword ▸ hsplit,
      fun c hc => List.mem_takeWhile_imp hc, ⟨?_, ?_⟩, ?_⟩
    · cases word with
      | nil => exact absurd rfl hne
      | cons c word =>
          have hc : isBlank c = false := by simpa using hhead
          have hspace : (c != space) = true := by
            rw [bne_iff_ne]
            rintro rfl
            cases hc
          exact ⟨c, by rw [List.takeWhile_cons, if_pos hspace]; rfl, hc⟩
    · intro c hc
      have hmem := hsub ((List.takeWhile_sublist (· != space)).subset hc)
      have hne := List.mem_takeWhile_imp hc
      exact ⟨fun h => hnul (h ▸ hmem), bne_iff_ne.mp hne⟩
    · intro c hc
      have hstop := List.head?_dropWhile_not (· != space) word
      rw [hc] at hstop
      simpa using hstop

theorem endsBlank_append_space (before text : List UInt8) :
    EndsBlank (before ++ space :: text) ↔ EndsBlank text := by
  unfold EndsBlank
  rw [List.reverse_append, List.reverse_cons, List.append_assoc, List.singleton_append,
    takeWhile_append_stop _ rfl]

theorem not_endsBlank_option {lead option : List UInt8} (h : IsOption option) :
    ¬ EndsBlank (lead ++ option) := by
  obtain ⟨c, hc, hblank⟩ := h.head
  intro hends
  have hmem : c ∈ (lead ++ option).reverse.takeWhile (· != space) := by
    rw [List.reverse_append, List.takeWhile_append_of_pos]
    · exact List.mem_append_left _ (List.mem_reverse.mpr (List.mem_of_mem_head? hc))
    · intro d hd
      exact bne_iff_ne.mpr (h.chars d (List.mem_reverse.mp hd)).2
  rw [hends c hmem] at hblank
  cases hblank

/-- The scan goes on behind the NUL exactly if the text does not end with a space. -/
theorem mergeOptions_stale {text : List UInt8} (hnul : 0 ∉ text) (options : List (List UInt8)) :
    (EndsBlank text → ∀ stale,
        mergeOptions options (text ++ 0 :: stale) = mergeOptions options text) ∧
      (¬ EndsBlank text → mergeOptions options text ≠ [] ∧ ∀ stale,
        mergeOptions options (text ++ 0 :: stale) =
          mergeOptions (mergeOptions options text) stale) := by
  induction hn : text.length using Nat.strongRecOn generalizing text options with
  | ind n ih =>
      rcases text_shape hnul with hblank | ⟨lead, option, rest, rfl, hlead, hoption, hrest⟩
      · have hends : EndsBlank text := fun c hc =>
          hblank c (List.mem_reverse.mp ((List.takeWhile_sublist _).subset hc))
        have hnone := @mergeOptions_blanks options text hblank [] rfl
        rw [List.append_nil] at hnone
        refine ⟨fun _ stale => ?_, fun h => absurd hends h⟩
        rw [hnone, mergeOptions_blanks options hblank rfl]
      · cases rest with
        | nil =>
            -- the last option ends at the NUL
            have hlast := @mergeOptions_option options lead option hlead hoption [] (by simp)
            rw [List.drop_nil, mergeOptions_nil] at hlast
            rw [List.append_nil] at hlast ⊢
            refine ⟨fun h => absurd h (not_endsBlank_option hoption), fun _ => ⟨?_, fun stale => ?_⟩⟩
            · rw [hlast]
              exact mergeOption_ne_nil _ _ _
            · rw [hlast, List.append_assoc,
                @mergeOptions_option options lead option hlead hoption (0 :: stale)
                  (fun c hc => Or.inl (Option.some.inj hc).symm)]
              rfl
        | cons c rest =>
            have hc := hrest c rfl
            rw [hc] at hnul hn ⊢
            have hstep : ∀ rest', mergeOptions options (lead ++ (option ++ space :: rest')) =
                mergeOptions (mergeOption options (optionName option) option) rest' := by
              intro rest'
              rw [@mergeOptions_option options lead option hlead hoption (space :: rest')
                (fun c hc => Or.inr (Option.some.inj hc).symm)]
              rfl
            have hshort : rest.length < n := by
              rw [← hn]
              simp only [List.length_append, List.length_cons]
              omega
            have hclean : 0 ∉ rest := by
              intro h
              apply hnul
              simp [h]
            have hbehind := ih rest.length hshort hclean
              (mergeOption options (optionName option) option) rfl
            have hends : EndsBlank (lead ++ (option ++ space :: rest)) ↔ EndsBlank rest := by
              rw [← List.append_assoc]
              exact endsBlank_append_space _ _
            have hassoc : ∀ stale, lead ++ (option ++ space :: rest) ++ 0 :: stale =
                lead ++ (option ++ space :: (rest ++ 0 :: stale)) := by
              intro stale
              simp
            rw [hends, hstep rest]
            simp only [hassoc, hstep]
            exact hbehind

/-! ## The option string -/

theorem fullOptions_ends (root append : Option (List UInt8)) (args : List UInt8) :
    EndsBlank (fullOptions root append (some args)) ↔ EndsBlank args := by
  unfold fullOptions
  cases append with
  | some append =>
      simp only [Option.elim_some, Option.getD_some, List.append_assoc]
      rw [← List.append_assoc, List.singleton_append]
      exact endsBlank_append_space _ _
  | none =>
      cases root with
      | none => rfl
      | some root =>
          simp only [Option.elim_some, Option.elim_none, Option.getD_some, List.nil_append,
            List.append_assoc]
          rw [← List.append_assoc, List.singleton_append]
          exact endsBlank_append_space _ _

/-- A name of no characters is found in front of the first option. -/
theorem mergeOptions_equals {first : List UInt8} {options : List (List UInt8)} {option : List UInt8}
    (h : IsOption option) (hname : optionName option = []) :
    mergeOptions (first :: options) option = option :: options := by
  have hstep := @mergeOptions_option (first :: options) [] option (by simp) h [] (by simp)
  rw [List.nil_append, List.append_nil, List.drop_nil, mergeOptions_nil, hname] at hstep
  rw [hstep]
  rfl

/-- Where the scan stops at the NUL, or the block is clear behind it, only the text
counts. -/
theorem mergeOptions_rest {reuse : Bool} {text stale : List UInt8} (hnul : 0 ∉ text)
    (hends : reuse = true → EndsBlank text) (hstale : BlockRest reuse stale)
    (options : List (List UInt8)) :
    mergeOptions options (text ++ 0 :: stale) = mergeOptions options text := by
  obtain ⟨hsame, hbehind⟩ := mergeOptions_stale hnul options
  by_cases hblank : EndsBlank text
  · exact hsame hblank stale
  · have hclear := hstale (Bool.eq_false_iff.mpr fun htrue => hblank (hends htrue))
    have hhead : stale.head?.getD 0 = 0 := by
      cases stale with
      | nil => rfl
      | cons c stale => exact hclear c List.mem_cons_self
    rw [(hbehind hblank).2 stale]
    exact @mergeOptions_blanks (mergeOptions options text) [] (by simp) stale hhead

/-- The option string does not depend on the heap exactly if the typed options end
with a space, or there are none, or no block comes back as it is. -/
theorem bootOptions_stale_iff {reuse : Bool} {root append : Option (List UInt8)} {args : List UInt8}
    (hnul : 0 ∉ fullOptions root append (some args)) :
    (∀ stale stale', BlockRest reuse stale → BlockRest reuse stale' →
        bootOptions root append (some args) stale = bootOptions root append (some args) stale') ↔
      (reuse = true → EndsBlank args) := by
  obtain ⟨_, hbehind⟩ := mergeOptions_stale hnul []
  rw [fullOptions_ends] at hbehind
  constructor
  · rintro h rfl
    by_contra hends
    obtain ⟨hne, hgoes⟩ := hbehind hends
    have hargs : noOptions root append (some args) = false := by
      have hne : args ≠ [] := by
        rintro rfl
        exact hends fun c hc => nomatch hc
      unfold noOptions
      rw [Option.getD_some, List.isEmpty_eq_false_iff.mpr hne, Bool.and_false]
    obtain ⟨first, options, hoptions⟩ := List.exists_cons_of_ne_nil hne
    -- two options with an empty name, of different lengths
    have hone : IsOption [equalsSign] := ⟨⟨equalsSign, rfl, rfl⟩, forall_of_all (by decide)⟩
    have htwo : IsOption [equalsSign, equalsSign] :=
      ⟨⟨equalsSign, rfl, rfl⟩, forall_of_all (by decide)⟩
    have heq := h [equalsSign] [equalsSign, equalsSign] nofun nofun
    unfold bootOptions at heq
    rw [hargs, if_neg Bool.false_ne_true, if_neg Bool.false_ne_true, hgoes, hgoes, hoptions,
      mergeOptions_equals hone rfl, mergeOptions_equals htwo rfl] at heq
    have hlength := congrArg List.length (Option.some.inj heq)
    simp only [List.flatMap_cons, List.length_append, List.length_cons, List.length_nil] at hlength
    omega
  · intro hends stale stale' hstale hstale'
    rw [← fullOptions_ends root append] at hends
    unfold bootOptions
    rw [mergeOptions_rest hnul hends hstale, mergeOptions_rest hnul hends hstale']

theorem nul_not_mem_fullOptions {root append : Option (List UInt8)} {args : List UInt8}
    (hroot : ∀ s ∈ root, 0 ∉ s) (happend : ∀ s ∈ append, 0 ∉ s) (hargs : 0 ∉ args) :
    0 ∉ fullOptions root append (some args) := by
  have hfront : 0 ∉ rootArgument := by decide
  have hspace : 0 ≠ space := by decide
  unfold fullOptions
  cases root with
  | none =>
      cases append with
      | none => simpa using hargs
      | some append => simp [happend append rfl, hargs, hspace]
  | some root =>
      cases append with
      | none => simp [hroot root rfl, hargs, hspace, hfront]
      | some append => simp [hroot root rfl, happend append rfl, hargs, hspace, hfront]

end Milo.Shell
