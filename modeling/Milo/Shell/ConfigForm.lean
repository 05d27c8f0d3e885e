import Milo.Shell.ConfigLine

/-! # The form of a line

A line of the documented form is read as it is meant. Of the other lines
`parse_config_line` accepts three kinds as well.
-/

namespace Milo.Shell

open Foundation

/-- A name without blanks and equals signs that does not start a comment. -/
structure OptionName (name : List UInt8) : Prop where
  ne : name ≠ []
  chars : ∀ c ∈ name, isOptionChar c = true
  head : name.head? ≠ some hash

/-- A value that needs no quotes. -/
structure BareValue (value : List UInt8) : Prop where
  head : ∃ c ∈ value.head?, isBlank c = false ∧ c ≠ quote
  last : ∃ c ∈ value.getLast?, isBlank c = false

def quotedText (value : List UInt8) : List UInt8 := quote :: (value ++ [quote])

/-- What may stand behind the equals sign. -/
def ValueText (text : List UInt8) : Prop := BareValue text ∨ ∃ value, text = quotedText value

def lineOf (indent name gap gap' text trail : List UInt8) : List UInt8 :=
  indent ++ name ++ gap ++ [equalsSign] ++ gap' ++ text ++ trail

/-- The documented form of a line. -/
def Documented (line : List UInt8) : Prop :=
  ∃ indent name gap gap' text trail : List UInt8,
    (∀ c ∈ indent ++ gap ++ gap' ++ trail, isBlank c = true) ∧ OptionName name ∧ ValueText text ∧
      line = lineOf indent name gap gap' text trail

/-- An empty line or a comment. -/
def Skipped (line : List UInt8) : Prop :=
  ∃ indent : List UInt8, (∀ c ∈ indent, isBlank c = true) ∧
    (line = indent ∨ ∃ text, line = indent ++ hash :: text)

/-! ## Lines of the documented form -/

theorem ValueText.ends {text : List UInt8} (h : ValueText text) :
    (∃ c ∈ text.head?, isBlank c = false) ∧ ∃ c ∈ text.getLast?, isBlank c = false := by
  rcases h with hbare | ⟨value, rfl⟩
  · obtain ⟨c, hc, hblank, _⟩ := hbare.head
    exact ⟨⟨c, hc, hblank⟩, hbare.last⟩
  · exact ⟨⟨quote, rfl, by decide⟩, quote, getLast?_quoted value, by decide⟩

section
variable {indent name gap gap' text trail : List UInt8}

/-- The line with its parts. -/
theorem exists_assignLine (hblanks : ∀ c ∈ indent ++ gap ++ gap' ++ trail, isBlank c = true)
    (hname : OptionName name) (htext : ValueText text) :
    ∃ a : AssignLine, a.render = lineOf indent name gap gap' text trail ∧ a.name = name ∧
      a.between = gap ∧ a.text = text := by
  refine ⟨⟨indent, name, gap, gap', text, trail, ?_, hname.chars, hname.head, ?_, ?_, htext.ends.1,
    htext.ends.2⟩, ?_, rfl, rfl, rfl⟩
  · intro c hc
    apply hblanks c
    simp only [List.mem_append] at hc ⊢
    tauto
  · exact fun c hc => ⟨hname.ne, hblanks c (by simp [List.mem_of_mem_head? hc])⟩
  · intro c hc
    have hblank := hblanks c (by simp [hc])
    rintro rfl
    exact absurd hblank (by decide)
  · unfold AssignLine.render AssignLine.assignment lineOf
    simp

theorem bareValue_head (h : BareValue text) : text.head? ≠ some quote := by
  obtain ⟨c, hc, _, hne⟩ := h.head
  intro heq
  exact hne (Option.some.inj ((Option.mem_def.mp hc).symm.trans heq))

/-- For every name and value, with any blanks around them: a value in quotes is
reported as it is, and a value that needs none without quotes too. -/
theorem parseConfigLine_roundTrip {value : List UInt8}
    (hblanks : ∀ c ∈ indent ++ gap ++ gap' ++ trail, isBlank c = true) (hname : OptionName name)
    (hnul : 0 ∉ name) (hvalue : 0 ∉ value) :
    Reports (lineOf indent name gap gap' (quotedText value) trail) name value ∧
      (BareValue value → Reports (lineOf indent name gap gap' value trail) name value) := by
  constructor
  · obtain ⟨a, hrender, rfl, -, htext⟩ :=
      exists_assignLine hblanks hname (Or.inr ⟨value, rfl⟩ : ValueText (quotedText value))
    rw [← hrender]
    exact a.reports_quoted hnul hvalue htext
  · intro hbare
    obtain ⟨a, hrender, rfl, -, rfl⟩ := exists_assignLine hblanks hname (Or.inl hbare)
    rw [← hrender]
    exact a.reports_bare hnul hvalue (bareValue_head hbare)

end

/-- `a = "b c"`, and `a = b`. -/
theorem roundTrip_short :
    Reports (lineOf [] [0x61] [0x20] [0x20] (quotedText [0x62, 0x20, 0x63]) []) [0x61]
        [0x62, 0x20, 0x63] ∧
      (BareValue [0x62, 0x20, 0x63] →
        Reports (lineOf [] [0x61] [0x20] [0x20] [0x62, 0x20, 0x63] []) [0x61]
          [0x62, 0x20, 0x63]) :=
  parseConfigLine_roundTrip (forall_of_all (by decide))
    ⟨by decide, forall_of_all (by decide), by decide⟩ (by decide) (by decide)

/-! ## Lines that are accepted -/

/-- A line is made of its parts in one way only. -/
theorem AssignLine.parts_eq {a b : AssignLine} (h : a.render = b.render) :
    a.name = b.name ∧ a.between = b.between ∧ a.text = b.text := by
  have hindent := a.scan_indent
  have hname := a.scan_name
  have hequals := a.scan_equals
  have htext := a.scan_text
  have hend := a.trailing
  rw [h, b.scan_indent] at hindent
  rw [h, ← hindent, b.scan_name] at hname
  rw [h, ← hname, b.scan_equals] at hequals
  have hbetween : b.between.length = a.between.length := by omega
  rw [h, ← hname, ← hbetween, b.scan_text] at htext
  rw [h, b.trailing] at hend
  have hgap : a.gap.length = b.gap.length := by
    unfold textStart at htext
    omega
  unfold nameEnd at hname
  unfold textEnd at hend
  unfold render assignment at h
  obtain ⟨-, h⟩ := List.append_inj h hindent.symm
  obtain ⟨hnames, h⟩ := List.append_inj h (by omega)
  obtain ⟨hbetweens, h⟩ := List.append_inj h hbetween.symm
  obtain ⟨-, h⟩ := List.append_inj (List.cons.inj h).2 hgap
  exact ⟨hnames, hbetweens, (List.append_inj h (by omega)).1⟩

/-- The text ends with a quote if it starts with one. -/
def Closed (text : List UInt8) : Prop := text.head? = some quote → text.getLast? = some quote

instance (text : List UInt8) : Decidable (Closed text) :=
  inferInstanceAs (Decidable (text.head? = some quote → text.getLast? = some quote))

theorem AssignLine.accepted_iff (a : AssignLine) :
    (parseConfigLine a.render).failed = false ↔ Closed a.text := by
  rw [a.parseConfigLine_render]
  unfold Closed
  split
  · rename_i hhead
    split
    · rename_i hlast
      exact ⟨(fun h => nomatch h), fun h => absurd (h hhead) hlast⟩
    · rename_i hlast
      exact ⟨fun _ _ => Decidable.not_not.mp hlast, fun _ => rfl⟩
  · rename_i hhead
    exact ⟨fun _ h => absurd h hhead, fun _ => rfl⟩

theorem parseConfigLine_skipped {line : List UInt8} (h : Skipped line) :
    parseConfigLine line = ⟨none, none, [], false⟩ := by
  obtain ⟨indent, hblanks, rfl | ⟨text, rfl⟩⟩ := h
  · exact parseConfigLine_blank hblanks
  · exact parseConfigLine_comment text hblanks

/-- A list is what a predicate runs over, and the rest. -/
theorem takeWhile_dropWhile (pred : UInt8 → Bool) (list : List UInt8) :
    ∃ run rest, list = run ++ rest ∧ (∀ c ∈ run, pred c = true) ∧
      ∀ c ∈ rest.head?, pred c = false := by
  refine ⟨list.takeWhile pred, list.dropWhile pred, List.takeWhile_append_dropWhile.symm,
    fun c hc => List.mem_takeWhile_imp hc, fun c hc => ?_⟩
  have hhead := List.head?_dropWhile_not pred list
  rw [Option.mem_def.mp hc] at hhead
  exact hhead

/-- A text that does not start with a blank, and the blanks behind it. -/
theorem exists_text {body : List UInt8} (hne : body ≠ [])
    (hhead : ∀ c ∈ body.head?, isBlank c = false) :
    ∃ text trail, body = text ++ trail ∧ (∀ c ∈ trail, isBlank c = true) ∧
      (∃ c ∈ text.head?, isBlank c = false) ∧ ∃ c ∈ text.getLast?, isBlank c = false := by
  obtain ⟨trail, text, hbody, htrail, hlast⟩ := takeWhile_dropWhile isBlank body.reverse
  have hsplit : body = text.reverse ++ trail.reverse := by
    rw [← List.reverse_append, ← hbody, List.reverse_reverse]
  have htext : text ≠ [] := by
    rintro rfl
    rw [List.reverse_nil, List.nil_append] at hsplit
    obtain ⟨c, rest, hcons⟩ := List.exists_cons_of_ne_nil hne
    have hblank := htrail c (by rw [← List.mem_reverse, ← hsplit, hcons]; exact List.mem_cons_self)
    rw [hhead c (by rw [hcons]; rfl)] at hblank
    cases hblank
  have hrev : text.reverse ≠ [] := by simpa using htext
  refine ⟨text.reverse, trail.reverse, hsplit,
    fun c hc => htrail c (List.mem_reverse.mp hc), ?_, ?_⟩
  · rw [hsplit, List.head?_append_of_ne_nil _ hrev, List.head?_eq_some_head hrev] at hhead
    exact ⟨_, List.head?_eq_some_head hrev, hhead _ rfl⟩
  · rw [List.getLast?_reverse]
    exact ⟨_, List.head?_eq_some_head htext, hlast _ (List.head?_eq_some_head htext)⟩

/-- A line that is not skipped has something behind its indentation. -/
theorem exists_indent {line : List UInt8} (hskip : ¬ Skipped line) :
    ∃ indent rest, line = indent ++ rest ∧ (∀ c ∈ indent, isBlank c = true) ∧
      (∀ c ∈ rest.head?, isBlank c = false) ∧ rest.head? ≠ some hash ∧ rest ≠ [] := by
  obtain ⟨indent, rest, rfl, hindent, hrest⟩ := takeWhile_dropWhile isBlank line
  refine ⟨indent, rest, rfl, hindent, hrest, fun hhead => ?_, ?_⟩
  · obtain ⟨text, rfl⟩ := List.head?_eq_some_iff.mp hhead
    exact hskip ⟨indent, hindent, Or.inr ⟨text, rfl⟩⟩
  · rintro rfl
    exact hskip ⟨indent, hindent, Or.inl (List.append_nil _)⟩

/-- What stands in front of the equals sign starts with a blank, and so behind a name. -/
theorem between_blank {name between rest : List UInt8}
    (hhead : ∀ c ∈ (name ++ (between ++ rest)).head?, isBlank c = false)
    (hstop : ∀ c ∈ (between ++ rest).head?, isOptionChar c = false)
    (hbetween : ∀ c ∈ between, (c != equalsSign) = true) :
    ∀ c ∈ between.head?, name ≠ [] ∧ isBlank c = true := by
  intro d hd
  have hnil : between ≠ [] := by
    rintro rfl
    cases hd
  have hfirst : d ∈ (between ++ rest).head? := by
    rw [List.head?_append_of_ne_nil _ hnil]
    exact hd
  have hblank : isBlank d = true := by
    have hstopped := hstop d hfirst
    unfold isOptionChar at hstopped
    rw [hbetween d (List.mem_of_mem_head? hd), Bool.and_true, Bool.not_eq_false'] at hstopped
    exact hstopped
  refine ⟨?_, hblank⟩
  rintro rfl
  rw [hhead d hfirst] at hblank
  cases hblank

/-- A line that is neither skipped nor refused has a text behind an equals sign. -/
theorem exists_render {line : List UInt8} (hskip : ¬ Skipped line)
    (haccept : (parseConfigLine line).failed = false) : ∃ a : AssignLine, a.render = line := by
  obtain ⟨indent, rest, rfl, hindent, hrest, hhash, hne⟩ := exists_indent hskip
  have hstart : scan isBlank (indent ++ rest) 0 = indent.length := by
    simpa using scan_append [] rest hindent hrest
  have hfirst : ¬ ((indent ++ rest)[indent.length]? = some hash ∨
      indent.length = (indent ++ rest).length) := by
    have hpos := List.length_pos_of_ne_nil hne
    rw [← List.head?_drop, List.drop_left, List.length_append]
    exact not_or.mpr ⟨hhash, by omega⟩
  unfold parseConfigLine at haccept
  simp only at haccept
  rw [hstart, if_neg hfirst] at haccept
  obtain ⟨name, after, rfl, hname, hafter⟩ := takeWhile_dropWhile isOptionChar rest
  obtain ⟨between, assign, rfl, hbetween, hassign⟩ :=
    takeWhile_dropWhile (· != equalsSign) after
  have hend := scan_append indent (between ++ assign) hname hafter
  have hequals := scan_append (indent ++ name) assign hbetween hassign
  rw [List.length_append, List.append_assoc] at hequals
  rw [hend, hequals] at haccept
  have hassign_ne : assign ≠ [] := by
    rintro rfl
    rw [if_pos (Or.inr (by simp only [List.length_append, List.length_nil]; omega))] at haccept
    cases haccept
  obtain ⟨c, tail, rfl⟩ := List.exists_cons_of_ne_nil hassign_ne
  obtain rfl : c = equalsSign := by simpa using hassign c rfl
  obtain ⟨gap, body, rfl, hgap, hbody⟩ := takeWhile_dropWhile isBlank tail
  have htext := scan_append (indent ++ (name ++ (between ++ [equalsSign]))) body hgap hbody
  have hline : indent ++ (name ++ (between ++ [equalsSign])) ++ (gap ++ body) =
      indent ++ (name ++ (between ++ equalsSign :: (gap ++ body))) := by simp
  have hplace : (indent ++ (name ++ (between ++ [equalsSign]))).length =
      indent.length + name.length + between.length + 1 := by
    simp only [List.length_append, List.length_singleton]
    omega
  have hlength : (indent ++ (name ++ (between ++ equalsSign :: (gap ++ body)))).length =
      indent.length + name.length + between.length + 1 + gap.length + body.length := by
    simp only [List.length_append, List.length_cons]
    omega
  rw [hline, hplace] at htext
  rw [if_neg (by rw [hlength]; omega), htext] at haccept
  have hbody_ne : body ≠ [] := by
    intro hnil
    rw [if_pos (by rw [hlength, hnil]; rfl)] at haccept
    cases haccept
  obtain ⟨text, trail, rfl, htrail, hhead, hlast⟩ := exists_text hbody_ne hbody
  refine ⟨⟨indent, name, between, gap, text, trail, ?_, hname, ?_, ?_, ?_, hhead, hlast⟩, ?_⟩
  · intro d hd
    rcases List.mem_append.mp hd with hd | hd
    · exact hindent d hd
    · exact (List.mem_append.mp hd).elim (hgap d) (htrail d)
  · intro hstarts
    have hnil : name ≠ [] := by
      rintro rfl
      cases hstarts
    exact hhash (by rw [List.head?_append_of_ne_nil _ hnil]; exact hstarts)
  · exact between_blank hrest hafter hbetween
  · exact fun d hd => bne_iff_ne.mp (hbetween d hd)
  · unfold AssignLine.render AssignLine.assignment
    rfl

/-! ## What is accepted -/

/-- The line has the documented form if a name is there, nothing but blanks comes behind
it, and the text is a value. -/
theorem documented_iff (a : AssignLine) : Documented a.render ↔
    a.name ≠ [] ∧ (∀ c ∈ a.between, isBlank c = true) ∧ ValueText a.text := by
  constructor
  · rintro ⟨indent, name, gap, gap', text, trail, hblanks, hname, htext, hline⟩
    obtain ⟨b, hrender, rfl, rfl, rfl⟩ := exists_assignLine hblanks hname htext
    obtain ⟨hnames, hbetween, htexts⟩ := AssignLine.parts_eq (hline.trans hrender.symm)
    rw [hnames, hbetween, htexts]
    exact ⟨hname.ne, fun c hc => hblanks c (by simp [hc]), htext⟩
  · rintro ⟨hne, hbetween, htext⟩
    refine ⟨a.indent, a.name, a.between, a.gap, a.text, a.trail, ?_,
      ⟨hne, a.name_chars, a.name_head⟩, htext, ?_⟩
    · intro c hc
      have hblanks := a.blanks c
      simp only [List.mem_append] at hc hblanks
      have hmid := hbetween c
      tauto
    · unfold AssignLine.render AssignLine.assignment lineOf
      simp

/-- A text that is closed is a value, or a quote alone. -/
theorem closed_iff (a : AssignLine) : Closed a.text ↔ ValueText a.text ∨ a.text = [quote] := by
  obtain ⟨c, hc, hblank⟩ := a.text_head
  constructor
  · intro hclosed
    by_cases hquote : c = quote
    · subst hquote
      have hlast := hclosed hc
      obtain ⟨rest, hrest⟩ := List.head?_eq_some_iff.mp hc
      rw [hrest] at hlast ⊢
      cases rest with
      | nil => exact Or.inr rfl
      | cons d rest =>
          rw [List.getLast?_cons_cons] at hlast
          obtain ⟨value, hvalue⟩ := List.getLast?_eq_some_iff.mp hlast
          exact Or.inl (Or.inr ⟨value, by rw [hvalue]; rfl⟩)
    · exact Or.inl (Or.inl ⟨⟨c, hc, hblank, hquote⟩, a.text_last⟩)
  · rintro ((hbare | ⟨value, hvalue⟩) | hquote)
    · exact fun hhead => absurd hhead (bareValue_head hbare)
    · rw [hvalue]
      exact fun _ => getLast?_quoted value
    · rw [hquote]
      exact fun _ => rfl

/-- The lines that are accepted though they have not the documented form: something
stands between the name and the equals sign, no name stands there, or the value is a
single quote. -/
def NearMiss (line : List UInt8) : Prop :=
  ∃ a : AssignLine, a.render = line ∧ Closed a.text ∧
    (a.name = [] ∨ (∃ c ∈ a.between, isBlank c = false) ∨ a.text = [quote])

/-- The line is accepted only if it has the documented form; empty lines and comments
have no option; every other line is refused. -/
structure SoundOn (line : List UInt8) : Prop where
  reported : (parseConfigLine line).failed = false → (parseConfigLine line).option ≠ none →
    Documented line
  skipped : Skipped line →
    (parseConfigLine line).failed = false ∧ (parseConfigLine line).option = none
  others : ¬ Skipped line → ¬ Documented line → (parseConfigLine line).failed = true

/-- A line with a text behind an equals sign is neither empty nor a comment. -/
theorem AssignLine.option_ne_none (a : AssignLine) : (parseConfigLine a.render).option ≠ none := by
  rw [a.parseConfigLine_render]
  split
  · split <;> exact Option.some_ne_none _
  · exact Option.some_ne_none _

theorem NearMiss.not_soundOn {line : List UInt8} (h : NearMiss line) : ¬ SoundOn line := by
  obtain ⟨a, rfl, hclosed, hmiss⟩ := h
  intro hsound
  obtain ⟨hname, hbetween, htext⟩ := (documented_iff a).mp
    (hsound.reported (a.accepted_iff.mpr hclosed) a.option_ne_none)
  rcases hmiss with hnil | ⟨c, hc, hblank⟩ | hquote
  · exact hname hnil
  · rw [hbetween c hc] at hblank
    cases hblank
  · rw [hquote] at htext
    rcases htext with hbare | ⟨value, hvalue⟩
    · exact bareValue_head hbare rfl
    · have hlength := congrArg List.length hvalue
      unfold quotedText at hlength
      simp at hlength

/-- For every line. -/
theorem soundOn_iff (line : List UInt8) : SoundOn line ↔ ¬ NearMiss line := by
  constructor
  · exact fun hsound hmiss => hmiss.not_soundOn hsound
  · intro hgood
    have hform : ¬ Skipped line → (parseConfigLine line).failed = false → Documented line := by
      intro hskip haccept
      obtain ⟨a, rfl⟩ := exists_render hskip haccept
      have hclosed := a.accepted_iff.mp haccept
      have hmiss : ¬ (a.name = [] ∨ (∃ c ∈ a.between, isBlank c = false) ∨ a.text = [quote]) :=
        fun h => hgood ⟨a, rfl, hclosed, h⟩
      rw [not_or, not_or] at hmiss
      obtain ⟨hname, hbetween, hquote⟩ := hmiss
      refine (documented_iff a).mpr ⟨hname, fun c hc => ?_, ((closed_iff a).mp hclosed).resolve_right
        hquote⟩
      by_contra hblank
      exact hbetween ⟨c, hc, Bool.eq_false_iff.mpr hblank⟩
    refine ⟨fun haccept hoption => ?_, fun hskip => ?_, fun hskip hother => ?_⟩
    · by_cases hskip : Skipped line
      · rw [parseConfigLine_skipped hskip] at hoption
        exact absurd rfl hoption
      · exact hform hskip haccept
    · rw [parseConfigLine_skipped hskip]
      exact ⟨rfl, rfl⟩
    · by_contra haccept
      exact hother (hform hskip (Bool.eq_false_iff.mpr haccept))

/-- `a b=c` -/
def wordsLine : AssignLine where
  indent := []
  name := [0x61]
  between := [0x20, 0x62]
  gap := []
  text := [0x63]
  trail := []
  blanks := nofun
  name_chars := forall_of_all (by decide)
  name_head := by decide
  between_head := fun _ hc => Option.some.inj hc ▸ ⟨by decide, by decide⟩
  between_chars := forall_of_all (by decide)
  text_head := ⟨0x63, rfl, by decide⟩
  text_last := ⟨0x63, rfl, by decide⟩

/-- `=c` -/
def namelessLine : AssignLine where
  indent := []
  name := []
  between := []
  gap := []
  text := [0x63]
  trail := []
  blanks := nofun
  name_chars := nofun
  name_head := nofun
  between_head := nofun
  between_chars := nofun
  text_head := ⟨0x63, rfl, by decide⟩
  text_last := ⟨0x63, rfl, by decide⟩

/-- `a="` -/
def openLine : AssignLine where
  indent := []
  name := [0x61]
  between := []
  gap := []
  text := [quote]
  trail := []
  blanks := nofun
  name_chars := forall_of_all (by decide)
  name_head := by decide
  between_head := nofun
  between_chars := nofun
  text_head := ⟨quote, rfl, by decide⟩
  text_last := ⟨quote, rfl, by decide⟩

theorem near_misses_accepted :
    ¬ SoundOn [0x61, 0x20, 0x62, 0x3d, 0x63] ∧ ¬ SoundOn [0x3d, 0x63] ∧
      ¬ SoundOn [0x61, 0x3d, 0x22] := by
  refine ⟨NearMiss.not_soundOn ?_, NearMiss.not_soundOn ?_, NearMiss.not_soundOn ?_⟩
  · exact ⟨wordsLine, rfl, by decide, .inr (.inl ⟨0x62, by decide, by decide⟩)⟩
  · exact ⟨namelessLine, rfl, by decide, .inl rfl⟩
  · exact ⟨openLine, rfl, by decide, .inr (.inr rfl)⟩

end Milo.Shell
