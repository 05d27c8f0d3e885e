import Milo.Foundation.TextBuffer
import Milo.Shell.CommandString

/-! # Lines of the configuration file

`parse_config_line` cuts a line in place: it stores a NUL behind the option and
one behind the value and returns where the two start. A line is followed through
the offsets it looks at.
-/

namespace Milo.Shell

open Foundation

def newline : UInt8 := 0x0a
def equalsSign : UInt8 := 0x3d
def hash : UInt8 := 0x23
def quote : UInt8 := 0x22

/-- What `parse_config_line` leaves: the two pointers, the offsets at which it
has stored a NUL, and whether it returns 1. -/
structure LineParse where
  option : Option Nat
  value : Option Nat
  cuts : List Nat
  failed : Bool
  deriving DecidableEq

/-- The characters that the option runs over. -/
def isOptionChar (c : UInt8) : Bool := !isBlank c && c != equalsSign

/-- `parse_config_line`, for the characters of a line. The scan for trailing
blanks never gets behind the start of the value or the quote before it, which
are not blank. -/
def parseConfigLine (chars : List UInt8) : LineParse :=
  let start := scan isBlank chars 0
  if chars[start]? = some hash ∨ start = chars.length then ⟨none, none, [], false⟩
  else
    let optionEnd := scan isOptionChar chars start
    let equals := scan (· != equalsSign) chars optionEnd
    if optionEnd = chars.length ∨ equals = chars.length then ⟨some start, none, [], true⟩
    else
      let text := scan isBlank chars (equals + 1)
      if text = chars.length then ⟨some start, none, [optionEnd], true⟩
      else
        let stop := chars.length - (chars.reverse.takeWhile isBlank).length
        if chars[text]? = some quote then
          if chars[stop - 1]? ≠ some quote then ⟨some start, none, [optionEnd], true⟩
          else ⟨some start, some (text + 1), [optionEnd, stop - 1], false⟩
        else ⟨some start, some text, [optionEnd, stop], false⟩

/-- The line with its NUL after the cuts. -/
def cutLine (line : List UInt8) : List UInt8 :=
  cutAt (line ++ [0]) 0 (parseConfigLine line).cuts

/-! ## Any line -/

/-- The pointers and the cuts are in the line or at its NUL, and an option that is
returned comes with a value. -/
structure LineParse.Bounded (line : List UInt8) (r : LineParse) : Prop where
  option : ∀ o ∈ r.option, o ≤ line.length
  value : ∀ v ∈ r.value, v ≤ line.length
  paired : r.failed = false → r.option.isSome = r.value.isSome
  cuts : ∀ c ∈ r.cuts, c ≤ line.length

theorem parseConfigLine_bounded (line : List UInt8) : (parseConfigLine line).Bounded line := by
  have hstart : scan isBlank line 0 ≤ line.length := scan_le (Nat.zero_le _)
  have hend : scan isOptionChar line (scan isBlank line 0) ≤ line.length := scan_le hstart
  have hnone : ∀ o ∈ (none : Option Nat), o ≤ line.length := fun o ho =>
    absurd ho (Option.not_mem_none o)
  unfold parseConfigLine
  simp only
  split
  · exact ⟨hnone, hnone, fun _ => rfl, List.forall_mem_nil _⟩
  · generalize scan isBlank line 0 = start at hstart hend ⊢
    generalize scan isOptionChar line start = optionEnd at hend ⊢
    have hequals : scan (· != equalsSign) line optionEnd ≤ line.length := scan_le hend
    generalize scan (· != equalsSign) line optionEnd = equals at hequals ⊢
    split
    · exact ⟨fun o h => Option.some.inj h ▸ hstart, hnone, fun h => absurd h Bool.true_eq_false.mp,
        List.forall_mem_nil _⟩
    · rename_i hfound
      have htext : scan isBlank line (equals + 1) ≤ line.length := scan_le (by omega)
      generalize scan isBlank line (equals + 1) = text at htext ⊢
      have hcut : ∀ c ∈ [optionEnd], c ≤ line.length := by
        intro c hc
        rw [List.mem_singleton.mp hc]
        exact hend
      have hcuts : ∀ stop ≤ line.length, ∀ c ∈ [optionEnd, stop], c ≤ line.length := by
        intro stop hstop c hc
        simp only [List.mem_cons, List.not_mem_nil, or_false] at hc
        rcases hc with rfl | rfl
        · exact hend
        · exact hstop
      have hoption : ∀ o ∈ some start, o ≤ line.length := fun o h => Option.some.inj h ▸ hstart
      split
      · exact ⟨hoption, hnone, fun h => absurd h Bool.true_eq_false.mp, hcut⟩
      · split
        · rename_i hquote
          have hlt := (List.getElem?_eq_some_iff.mp hquote).1
          split
          · exact ⟨hoption, hnone, fun h => absurd h Bool.true_eq_false.mp, hcut⟩
          · exact ⟨hoption, fun v h => Option.some.inj h ▸ hlt, fun _ => rfl,
              hcuts _ (Nat.le_trans (Nat.sub_le _ _) (Nat.sub_le _ _))⟩
        · exact ⟨hoption, fun v h => Option.some.inj h ▸ htext, fun _ => rfl,
            hcuts _ (Nat.sub_le _ _)⟩

theorem cutLine_length (line : List UInt8) : (cutLine line).length = line.length + 1 := by
  unfold cutLine
  rw [cutAt_length, List.length_append]
  rfl

/-- The last byte of a cut line is its NUL. -/
theorem nul_mem_cutLine (line : List UInt8) {p : Nat} (h : p ≤ line.length) :
    0 ∈ (cutLine line).drop p := by
  apply nul_mem_cutAt
  rw [List.drop_append_of_le_length h]
  exact List.mem_append_right _ List.mem_cons_self

/-- What the loop over the file makes of a line. -/
inductive LineMeaning where
  | malformed
  | nothing
  | assign (option value : List UInt8)
  deriving DecidableEq

def lineMeaning (line : List UInt8) : LineMeaning :=
  if (parseConfigLine line).failed then .malformed
  else
    match (parseConfigLine line).option, (parseConfigLine line).value with
    | some option, some value =>
        .assign (stringIn (cutLine line) option) (stringIn (cutLine line) value)
    | some _, none => .malformed
    | none, _ => .nothing

/-! ## Lines with an equals sign -/

/-- A line that has a text behind the equals sign. What stands between the name and the
equals sign need not be blank. -/
structure AssignLine where
  indent : List UInt8
  name : List UInt8
  between : List UInt8
  gap : List UInt8
  text : List UInt8
  trail : List UInt8
  blanks : ∀ c ∈ indent ++ (gap ++ trail), isBlank c = true
  name_chars : ∀ c ∈ name, isOptionChar c = true
  name_head : name.head? ≠ some hash
  between_head : ∀ c ∈ between.head?, name ≠ [] ∧ isBlank c = true
  between_chars : ∀ c ∈ between, c ≠ equalsSign
  text_head : ∃ c ∈ text.head?, isBlank c = false
  text_last : ∃ c ∈ text.getLast?, isBlank c = false

namespace AssignLine

variable (a : AssignLine)

/-- What stands behind the name. -/
def assignment : List UInt8 := a.between ++ equalsSign :: (a.gap ++ (a.text ++ a.trail))

def render : List UInt8 := a.indent ++ (a.name ++ a.assignment)

/-- Where the name ends, where the text starts and where it ends. -/
def nameEnd : Nat := a.indent.length + a.name.length
def textStart : Nat := a.nameEnd + a.between.length + 1 + a.gap.length
def textEnd : Nat := a.textStart + a.text.length

theorem text_ne : a.text ≠ [] := by
  obtain ⟨c, hc, _⟩ := a.text_head
  intro hnil
  rw [hnil] at hc
  cases hc

theorem isBlank_of_mem {part : List UInt8} (h : part ⊆ a.indent ++ (a.gap ++ a.trail)) :
    ∀ c ∈ part, isBlank c = true := fun c hc => a.blanks c (h hc)

/-- Behind the name comes a blank or the equals sign. -/
theorem assignment_head : ∀ c ∈ a.assignment.head?, isOptionChar c = false := by
  intro c hc
  unfold assignment at hc
  cases hbetween : a.between with
  | nil =>
      rw [hbetween] at hc
      obtain rfl := Option.some.inj hc
      decide
  | cons b between =>
      rw [hbetween] at hc
      obtain rfl := Option.some.inj hc
      have hblank := (a.between_head b (by rw [hbetween]; rfl)).2
      unfold isOptionChar
      rw [hblank]
      rfl

/-- The first character that is not indented. -/
theorem name_head_spec : ∃ c, (a.name ++ a.assignment).head? = some c ∧ isBlank c = false ∧
    c ≠ hash := by
  cases hname : a.name with
  | nil =>
      have hbetween : a.between = [] := by
        by_contra hne
        obtain ⟨b, between, hcons⟩ := List.exists_cons_of_ne_nil hne
        exact (a.between_head b (by rw [hcons]; rfl)).1 hname
      refine ⟨equalsSign, ?_, by decide, by decide⟩
      unfold assignment
      rw [hbetween]
      rfl
  | cons c name =>
      have hchar := a.name_chars c (by rw [hname]; exact List.mem_cons_self)
      unfold isOptionChar at hchar
      simp only [Bool.and_eq_true, Bool.not_eq_true'] at hchar
      refine ⟨c, rfl, hchar.1, ?_⟩
      rintro rfl
      exact a.name_head (by rw [hname]; rfl)

theorem scan_indent : scan isBlank a.render 0 = a.indent.length := by
  obtain ⟨c, hc, hblank, _⟩ := a.name_head_spec
  have hscan := scan_append [] (a.name ++ a.assignment)
    (a.isBlank_of_mem (List.subset_append_left _ _))
    (fun d hd => Option.some.inj (hc.symm.trans hd) ▸ hblank)
  rwa [List.nil_append, List.length_nil, Nat.zero_add] at hscan

theorem scan_name : scan isOptionChar a.render a.indent.length = a.nameEnd :=
  scan_append a.indent a.assignment a.name_chars a.assignment_head

theorem scan_equals : scan (· != equalsSign) a.render a.nameEnd = a.nameEnd + a.between.length := by
  have hscan := @scan_append (· != equalsSign) (a.indent ++ a.name) a.between
    (equalsSign :: (a.gap ++ (a.text ++ a.trail)))
    (fun c hc => bne_iff_ne.mpr (a.between_chars c hc)) (by simp)
  rw [List.length_append, List.append_assoc] at hscan
  exact hscan

theorem render_eq : a.render =
    (a.indent ++ a.name ++ a.between ++ [equalsSign]) ++ (a.gap ++ (a.text ++ a.trail)) := by
  unfold render assignment
  simp

theorem scan_text : scan isBlank a.render (a.nameEnd + a.between.length + 1) = a.textStart := by
  obtain ⟨c, hc, hblank⟩ := a.text_head
  have hhead : (a.text ++ a.trail).head? = some c := by
    rw [List.head?_append_of_ne_nil _ a.text_ne]
    exact hc
  have hscan := scan_append (a.indent ++ a.name ++ a.between ++ [equalsSign]) (a.text ++ a.trail)
    (a.isBlank_of_mem (fun d hd => by simp [hd]) : ∀ d ∈ a.gap, isBlank d = true)
    (fun d hd => Option.some.inj (hhead.symm.trans hd) ▸ hblank)
  have hlength : (a.indent ++ a.name ++ a.between ++ [equalsSign]).length =
      a.nameEnd + a.between.length + 1 := by
    simp only [List.length_append, List.length_singleton, nameEnd]
  rw [← render_eq, hlength] at hscan
  exact hscan

/-- What the line ends with but its blanks. -/
theorem trailing : a.render.length - (a.render.reverse.takeWhile isBlank).length = a.textEnd := by
  obtain ⟨c, hc, hblank⟩ := a.text_last
  obtain ⟨before, hbefore⟩ := List.getLast?_eq_some_iff.mp hc
  have hrender : a.render =
      (a.indent ++ a.name ++ a.between ++ [equalsSign] ++ a.gap ++ before ++ [c]) ++ a.trail := by
    rw [render_eq, hbefore]
    simp
  have htrail : ∀ d ∈ a.trail.reverse, isBlank d = true := by
    intro d hd
    exact a.blanks d (by simp [List.mem_reverse.mp hd])
  have hlengths := congrArg List.length hbefore
  rw [List.length_append, List.length_singleton] at hlengths
  rw [hrender, List.reverse_append, List.takeWhile_append_of_pos htrail, List.reverse_append,
    List.reverse_singleton, List.singleton_append,
    List.takeWhile_cons_of_neg (by rw [hblank]; decide), List.append_nil, List.length_reverse,
    List.length_append, Nat.add_sub_cancel]
  simp only [List.length_append, List.length_singleton, textEnd, textStart, nameEnd]
  omega

theorem render_length : a.render.length = a.textEnd + a.trail.length := by
  rw [render_eq]
  simp only [List.length_append, List.length_singleton, textEnd, textStart, nameEnd]
  omega

/-- The bytes from the option on. -/
theorem drop_indent : a.render.drop a.indent.length = a.name ++ a.assignment := List.drop_left

/-- The bytes from the text on. -/
theorem drop_text : a.render.drop a.textStart = a.text ++ a.trail := by
  have hlength : (a.indent ++ a.name ++ a.between ++ [equalsSign] ++ a.gap).length = a.textStart := by
    simp only [List.length_append, List.length_singleton, textStart, nameEnd]
  rw [render_eq, ← List.append_assoc, ← hlength, List.drop_left]

theorem getElem?_last : a.render[a.textEnd - 1]? = a.text.getLast? := by
  have hpos := List.length_pos_of_ne_nil a.text_ne
  have hplace : a.textEnd - 1 = a.textStart + (a.text.length - 1) := by
    unfold textEnd
    omega
  rw [hplace, ← List.getElem?_drop, drop_text, List.getElem?_append_left (by omega),
    List.getLast?_eq_getElem?]

/-- The pointers and the cuts are where the parts of the line are. -/
theorem parseConfigLine_render : parseConfigLine a.render =
    if a.text.head? = some quote then
      if a.text.getLast? ≠ some quote then ⟨some a.indent.length, none, [a.nameEnd], true⟩
      else
        ⟨some a.indent.length, some (a.textStart + 1), [a.nameEnd, a.textEnd - 1], false⟩
    else ⟨some a.indent.length, some a.textStart, [a.nameEnd, a.textEnd], false⟩ := by
  have hlength := a.render_length
  have hparts : a.indent.length ≤ a.nameEnd ∧ a.nameEnd + a.between.length < a.textStart ∧
      a.textStart < a.textEnd := by
    have htext := List.length_pos_of_ne_nil a.text_ne
    simp only [textEnd, textStart, nameEnd]
    omega
  obtain ⟨c, hc, _, hne⟩ := a.name_head_spec
  have hhash : a.render[a.indent.length]? ≠ some hash := by
    rw [← List.head?_drop, drop_indent, hc]
    exact fun heq => hne (Option.some.inj heq)
  have htext : a.render[a.textStart]? = a.text.head? := by
    rw [← List.head?_drop, drop_text, List.head?_append_of_ne_nil _ a.text_ne]
  unfold parseConfigLine
  simp only
  rw [scan_indent, if_neg (by rintro (h | h); exacts [hhash h, by omega]), scan_name, scan_equals,
    if_neg (by omega), scan_text, if_neg (by omega), htext, trailing, getElem?_last]

end AssignLine

theorem getLast?_quoted (value : List UInt8) :
    (quote :: (value ++ [quote])).getLast? = some quote := by
  rw [← List.cons_append, List.getLast?_append_of_ne_nil _ (by simp)]
  rfl

/-- The line gives the option a value. -/
structure Reports (line option value : List UInt8) : Prop where
  accepted : (parseConfigLine line).failed = false
  option : ∃ o ∈ (parseConfigLine line).option, stringIn (cutLine line) o = option
  value : ∃ v ∈ (parseConfigLine line).value, stringIn (cutLine line) v = value

theorem Reports.lineMeaning {line option value : List UInt8} (h : Reports line option value) :
    lineMeaning line = .assign option value := by
  obtain ⟨o, ho, hoption⟩ := h.option
  obtain ⟨v, hv, hvalue⟩ := h.value
  unfold Shell.lineMeaning
  rw [h.accepted, if_neg Bool.false_ne_true, Option.mem_def.mp ho, Option.mem_def.mp hv]
  simp only [hoption, hvalue]

namespace AssignLine

variable (a : AssignLine)

/-- The pointer to the option reads the name. -/
theorem stringIn_name (hname : 0 ∉ a.name) {cuts : List Nat} (hcut : a.nameEnd ∈ cuts)
    (hcuts : ∀ c ∈ cuts, a.nameEnd ≤ c) :
    stringIn (cutAt (a.render ++ [0]) 0 cuts) a.indent.length = a.name := by
  have hlength := a.render_length
  apply stringIn_cutAt hname
  · rw [List.drop_append_of_le_length (by simp [render]), drop_indent, List.append_assoc,
      List.take_left]
  · simp only [List.length_append, List.length_singleton, textEnd, textStart, nameEnd] at hlength ⊢
    omega
  · exact hcut
  · exact fun c hc => Or.inr (hcuts c hc)

/-- A part of the text that is cut off behind reads as it is. -/
theorem stringIn_text {before value after : List UInt8} (hvalue : 0 ∉ value)
    (htext : a.text = before ++ (value ++ after)) {start : Nat}
    (hstart : start = a.textStart + before.length) :
    stringIn (cutAt (a.render ++ [0]) 0 [a.nameEnd, start + value.length]) start = value := by
  have hlength := a.render_length
  have hparts := congrArg List.length htext
  rw [List.length_append, List.length_append] at hparts
  have hname : a.nameEnd < start := by
    unfold textStart at hstart
    omega
  have hend : start + value.length ≤ a.textEnd := by
    unfold textEnd
    omega
  apply stringIn_cutAt hvalue
  · rw [List.drop_append_of_le_length (by omega), hstart, ← List.drop_drop, drop_text, htext,
      List.append_assoc, List.drop_left, List.append_assoc, List.append_assoc, List.take_left]
  · rw [List.length_append, List.length_singleton]
    omega
  · exact List.mem_cons_of_mem _ List.mem_cons_self
  · intro c hc
    simp only [List.mem_cons, List.not_mem_nil, or_false] at hc
    omega

/-- A value without quotes is reported as it is. -/
theorem reports_bare (hname : 0 ∉ a.name) (htext : 0 ∉ a.text) (hbare : a.text.head? ≠ some quote) :
    Reports a.render a.name a.text := by
  have hparse := a.parseConfigLine_render
  rw [if_neg hbare] at hparse
  refine ⟨by rw [hparse], ⟨a.indent.length, by rw [hparse]; rfl, ?_⟩,
    ⟨a.textStart, by rw [hparse]; rfl, ?_⟩⟩
  · unfold cutLine
    rw [hparse]
    apply a.stringIn_name hname List.mem_cons_self
    intro c hc
    simp only [List.mem_cons, List.not_mem_nil, or_false] at hc
    simp only [textEnd, textStart] at hc
    omega
  · unfold cutLine
    rw [hparse]
    have hwhole : a.text = [] ++ (a.text ++ []) := (List.append_nil _).symm
    exact a.stringIn_text htext hwhole rfl

/-- A value in quotes is reported without them. -/
theorem reports_quoted {value : List UInt8} (hname : 0 ∉ a.name) (hvalue : 0 ∉ value)
    (htext : a.text = quote :: (value ++ [quote])) : Reports a.render a.name value := by
  have hparse := a.parseConfigLine_render
  have hlast : a.text.getLast? = some quote := by
    rw [htext]
    exact getLast?_quoted value
  have hend : a.textEnd - 1 = a.textStart + 1 + value.length := by
    unfold textEnd
    rw [htext]
    simp only [List.length_cons, List.length_append, List.length_nil]
    omega
  rw [if_pos (by rw [htext]; rfl), if_neg (by rw [hlast]; simp), hend] at hparse
  refine ⟨by rw [hparse], ⟨a.indent.length, by rw [hparse]; rfl, ?_⟩,
    ⟨a.textStart + 1, by rw [hparse]; rfl, ?_⟩⟩
  · unfold cutLine
    rw [hparse]
    apply a.stringIn_name hname List.mem_cons_self
    intro c hc
    simp only [List.mem_cons, List.not_mem_nil, or_false] at hc
    unfold textStart at hc
    omega
  · unfold cutLine
    rw [hparse]
    have hquotes : a.text = [quote] ++ (value ++ [quote]) := htext
    exact a.stringIn_text hvalue hquotes rfl

end AssignLine

/-! ## Well-formed lines -/

/-- A line that gives an option a value, with all its blanks. -/
structure OptionLine where
  indent : List UInt8
  name : List UInt8
  gap : List UInt8
  gap' : List UInt8
  quoted : Bool
  value : List UInt8
  trail : List UInt8
  blanks : ∀ c ∈ indent ++ (gap ++ (gap' ++ trail)), isBlank c = true
  name_ne : name ≠ []
  name_chars : ∀ c ∈ name, isOptionChar c = true ∧ c ≠ 0 ∧ c ≠ newline
  name_head : name.head? ≠ some hash
  value_chars : ∀ c ∈ value, c ≠ 0 ∧ c ≠ newline
  plain : quoted = false → ∃ c ∈ value.head?, isBlank c = false ∧ c ≠ quote ∧
    ∃ c ∈ value.getLast?, isBlank c = false

namespace OptionLine

/-- The quotes around the value. -/
def quotes (l : OptionLine) : List UInt8 := if l.quoted then [quote] else []

/-- What stands behind the name. -/
def assignment (l : OptionLine) : List UInt8 :=
  l.gap ++ equalsSign :: (l.gap' ++ (l.quotes ++ (l.value ++ (l.quotes ++ l.trail))))

def render (l : OptionLine) : List UInt8 := l.indent ++ (l.name ++ l.assignment)

end OptionLine

/-- A line that `parse_config_line` is made for. -/
inductive ConfigLine where
  | blank (indent : List UInt8) (blanks : ∀ c ∈ indent, isBlank c = true)
  | comment (indent text : List UInt8) (blanks : ∀ c ∈ indent, isBlank c = true)
      (chars : ∀ c ∈ text, c ≠ 0 ∧ c ≠ newline)
  | option (line : OptionLine)

def ConfigLine.render : ConfigLine → List UInt8
  | blank indent _ => indent
  | comment indent text _ _ => indent ++ hash :: text
  | option line => line.render

/-- The option and the value of a line. -/
def ConfigLine.assignment? : ConfigLine → Option (List UInt8 × List UInt8)
  | option line => some (line.name, line.value)
  | _ => none

/-! ## How they are read -/

theorem parseConfigLine_blank {indent : List UInt8} (h : ∀ c ∈ indent, isBlank c = true) :
    parseConfigLine indent = ⟨none, none, [], false⟩ := by
  have hstart : scan isBlank indent 0 = indent.length := by
    simpa using scan_append [] [] h (by simp)
  unfold parseConfigLine
  simp only
  rw [if_pos (Or.inr hstart)]

theorem parseConfigLine_comment {indent : List UInt8} (text : List UInt8)
    (h : ∀ c ∈ indent, isBlank c = true) :
    parseConfigLine (indent ++ hash :: text) = ⟨none, none, [], false⟩ := by
  have hstart : scan isBlank (indent ++ hash :: text) 0 = indent.length := by
    simpa using scan_append [] (hash :: text) h (by simp [isBlank, hash])
  have hhash : (indent ++ hash :: text)[indent.length]? = some hash := by simp
  unfold parseConfigLine
  simp only
  rw [hstart, if_pos (Or.inl hhash)]

namespace OptionLine

variable (l : OptionLine)

/-- Where the option ends, where the value starts and where it ends. -/
def nameEnd : Nat := l.indent.length + l.name.length
def textStart : Nat := l.nameEnd + l.gap.length + 1 + l.gap'.length
def valueStart : Nat := l.textStart + l.quotes.length
def valueEnd : Nat := l.valueStart + l.value.length

/-- The value with its quotes neither starts nor ends with a blank, and starts with a
quote only if it has quotes. -/
theorem text_spec : (∃ c ∈ (l.quotes ++ (l.value ++ l.quotes)).head?, isBlank c = false ∧
      (c = quote ↔ l.quoted = true)) ∧
    ∃ c ∈ (l.quotes ++ (l.value ++ l.quotes)).getLast?, isBlank c = false := by
  unfold quotes
  cases hquoted : l.quoted with
  | true =>
      exact ⟨⟨quote, rfl, by decide, by simp⟩, quote, getLast?_quoted l.value, by decide⟩
  | false =>
      obtain ⟨c, hc, hblank, hquote, d, hd, hlast⟩ := l.plain hquoted
      rw [if_neg Bool.false_ne_true, List.nil_append, List.append_nil]
      exact ⟨⟨c, hc, hblank, by simp [hquote]⟩, d, hd, hlast⟩

/-- The line as one that has a text behind the equals sign. -/
def toAssignLine : AssignLine where
  indent := l.indent
  name := l.name
  between := l.gap
  gap := l.gap'
  text := l.quotes ++ (l.value ++ l.quotes)
  trail := l.trail
  blanks := by
    intro c hc
    apply l.blanks c
    simp only [List.mem_append] at hc ⊢
    exact hc.imp_right Or.inr
  name_chars c hc := (l.name_chars c hc).1
  name_head := l.name_head
  between_head c hc := ⟨l.name_ne, l.blanks c (by simp [List.mem_of_mem_head? hc])⟩
  between_chars c hc := by
    have hblank := l.blanks c (by simp [hc])
    rintro rfl
    exact absurd hblank (by decide)
  text_head := by
    obtain ⟨⟨c, hc, hblank, _⟩, _⟩ := l.text_spec
    exact ⟨c, hc, hblank⟩
  text_last := l.text_spec.2

theorem render_toAssignLine : l.toAssignLine.render = l.render := by
  unfold AssignLine.render AssignLine.assignment render assignment toAssignLine
  simp

theorem text_quoted (h : l.quoted = true) :
    l.toAssignLine.text = quote :: (l.value ++ [quote]) := by
  have hquotes : l.quotes = [quote] := if_pos h
  show l.quotes ++ (l.value ++ l.quotes) = _
  rw [hquotes]
  rfl

theorem text_bare (h : l.quoted = false) : l.toAssignLine.text = l.value := by
  have hquotes : l.quotes = [] := if_neg (Bool.eq_false_iff.mp h)
  show l.quotes ++ (l.value ++ l.quotes) = _
  rw [hquotes, List.append_nil]
  rfl

theorem text_head_bare (h : l.quoted = false) : l.toAssignLine.text.head? ≠ some quote := by
  obtain ⟨⟨c, hc, _, hquote⟩, _⟩ := l.text_spec
  rw [h] at hquote
  intro heq
  exact Bool.false_ne_true (hquote.mp (Option.some.inj (hc.symm.trans heq)))

/-- The pointers and the cuts are where the parts of the line are. -/
theorem parseConfigLine_render : parseConfigLine l.render =
    ⟨some l.indent.length, some l.valueStart, [l.nameEnd, l.valueEnd], false⟩ := by
  have hparse := l.toAssignLine.parseConfigLine_render
  rw [render_toAssignLine] at hparse
  have hend : l.toAssignLine.textEnd = l.textStart + l.toAssignLine.text.length := rfl
  cases hquoted : l.quoted with
  | true =>
      have hquotes : l.quotes = [quote] := if_pos hquoted
      have hstop : l.textStart + (quote :: (l.value ++ [quote])).length - 1 =
          l.textStart + 1 + l.value.length := by
        simp only [List.length_cons, List.length_append, List.length_nil]
        omega
      rw [l.text_quoted hquoted] at hparse hend
      rw [List.head?_cons, if_pos rfl, if_neg (by rw [getLast?_quoted]; simp), hend, hstop] at hparse
      rw [hparse]
      unfold valueEnd valueStart
      rw [hquotes]
      rfl
  | false =>
      have hquotes : l.quotes = [] := if_neg (Bool.eq_false_iff.mp hquoted)
      rw [if_neg (l.text_head_bare hquoted), hend, l.text_bare hquoted] at hparse
      rw [hparse]
      unfold valueEnd valueStart
      rw [hquotes]
      rfl

theorem nul_not_mem_name : 0 ∉ l.name := fun h => (l.name_chars 0 h).2.1 rfl

theorem nul_not_mem_value : 0 ∉ l.value := fun h => (l.value_chars 0 h).1 rfl

/-- The pointers read the name and the value. -/
theorem reports_render : Reports l.render l.name l.value := by
  rw [← render_toAssignLine]
  cases hquoted : l.quoted with
  | true =>
      exact l.toAssignLine.reports_quoted l.nul_not_mem_name l.nul_not_mem_value
        (l.text_quoted hquoted)
  | false =>
      have hreports := l.toAssignLine.reports_bare l.nul_not_mem_name
        (by rw [l.text_bare hquoted]; exact l.nul_not_mem_value) (l.text_head_bare hquoted)
      rw [l.text_bare hquoted] at hreports
      exact hreports

end OptionLine

theorem blank_ne_nul {c : UInt8} (h : isBlank c = true) : c ≠ 0 := by
  rintro rfl
  cases h

/-- A well-formed line has no NUL. -/
theorem ConfigLine.nul_not_mem_render (line : ConfigLine) : 0 ∉ line.render := by
  cases line with
  | blank indent blanks => exact fun h => blank_ne_nul (blanks 0 h) rfl
  | comment indent text blanks chars =>
      intro h
      rcases List.mem_append.mp h with hindent | hrest
      · exact blank_ne_nul (blanks 0 hindent) rfl
      · rcases List.mem_cons.mp hrest with hhash | htext
        · cases hhash
        · exact (chars 0 htext).1 rfl
  | option line =>
      have hblank : 0 ∉ line.indent ++ (line.gap ++ (line.gap' ++ line.trail)) :=
        fun h => blank_ne_nul (line.blanks 0 h) rfl
      have hquotes : 0 ∉ line.quotes := by
        unfold OptionLine.quotes
        split
        · decide
        · simp
      unfold render OptionLine.render OptionLine.assignment
      simp only [List.mem_append, List.mem_cons, not_or] at hblank ⊢
      exact ⟨hblank.1, line.nul_not_mem_name, hblank.2.1, by decide, hblank.2.2.1, hquotes,
        line.nul_not_mem_value, hquotes, hblank.2.2.2⟩

/-- Every line that `parse_config_line` is made for is read as it is meant. -/
theorem lineMeaning_render (line : ConfigLine) : lineMeaning line.render =
    match line.assignment? with
    | some (option, value) => .assign option value
    | none => .nothing := by
  cases line with
  | blank indent blanks =>
      unfold lineMeaning ConfigLine.render
      rw [parseConfigLine_blank blanks]
      rfl
  | comment indent text blanks _ =>
      unfold lineMeaning ConfigLine.render
      rw [parseConfigLine_comment text blanks]
      rfl
  | option line =>
      exact line.reports_render.lineMeaning

end Milo.Shell
