import Mathlib.Data.List.TakeWhile
import Milo.Console.LineEditor
import Milo.Foundation.CInt
import Milo.Foundation.Concat

/-! # The pager

While the output of a command is paged, `printk` counts the rows of the screen in an `int`,
the prompts among them, and waits for a key after each 25th. Every text is cut at its newlines
and put out line by line.
-/

namespace Milo.Console

open Foundation

/-- The size of `print_buf`. -/
def printBufSize : Nat := 4096

/-- A call of `printk` by its formatted text, and whether it comes while
`milo_suppress_printk` is set. -/
structure PrintkCall where
  text : CString
  suppressed : Bool
  fits : text.chars.length < printBufSize

/-- What goes to the console: a text, or the prompt with a key behind it and its erasure. -/
inductive ConsoleOp where
  | puts (text : List UInt8)
  | more
deriving DecidableEq

/-- `printk_rows`, and what has been put on the console. -/
structure Pager where
  rows : Int
  ops : List ConsoleOp

namespace Pager

def puts (text : List UInt8) (s : Pager) : Pager := { s with ops := s.ops ++ [.puts text] }

/-- `printk_rows++` -/
def nextRow (s : Pager) : Pager := { s with rows := toInt (s.rows + 1) }

/-- The prompt, at the bottom of the page. -/
def ask (s : Pager) : Pager :=
  if s.rows.tmod 25 = 0 then nextRow { s with ops := s.ops ++ [.more] } else s

/-- The loop of `printk` over the rest of its text. -/
def putLines (s : Pager) (cur : List UInt8) : Pager :=
  if cur = [] then s
  else
    match _h : cur.dropWhile (· != lf) with
    | [] => (ask s).puts cur
    | _ :: rest => putLines (nextRow (((ask s).puts (cur.takeWhile (· != lf))).puts [lf])) rest
termination_by cur.length
decreasing_by
  have hle := (List.dropWhile_sublist (· != lf) (l := cur)).length_le
  rw [_h, List.length_cons] at hle
  omega

/-- `printk`, with `MILO_PAGER` -/
def printk (s : Pager) (call : PrintkCall) : Pager :=
  if call.suppressed then s
  else if s.rows = 0 then s.puts call.text.chars
  else putLines s call.text.chars

/-- Calls made in a command whose output is paged. -/
def printks (calls : List PrintkCall) : Pager := calls.foldl printk ⟨1, []⟩

end Pager

/-! ## Characters and newlines -/

/-- The characters of a text; those of the prompt and of its erasure are left out. -/
def ConsoleOp.text : ConsoleOp → List UInt8
  | .puts text => text
  | .more => []

def textOf (ops : List ConsoleOp) : List UInt8 := ops.flatMap ConsoleOp.text

/-- The texts of the calls that are not suppressed. -/
def shownText (calls : List PrintkCall) : List UInt8 :=
  calls.flatMap fun call => if call.suppressed then [] else call.text.chars

def newlines (text : List UInt8) : Nat := text.count lf

/-- Between two prompts, and before the first and behind the last one, there are at most 24
newlines. -/
def ShortPages (ops : List ConsoleOp) : Prop :=
  ∀ before page after, ops = before ++ page ++ after → .more ∉ page →
    newlines (textOf page) ≤ 24

theorem textOf_append (ops ops' : List ConsoleOp) :
    textOf (ops ++ ops') = textOf ops ++ textOf ops' := List.flatMap_append

theorem newlines_append (text text' : List UInt8) :
    newlines (text ++ text') = newlines text + newlines text' := List.count_append

/-! ## Lines -/

theorem dropWhile_line {line : List UInt8} (hline : lf ∉ line) (rest : List UInt8) :
    (line ++ lf :: rest).dropWhile (· != lf) = lf :: rest ∧
      (line ++ lf :: rest).takeWhile (· != lf) = line := by
  have hall : ∀ c ∈ line, (c != lf) = true := fun c hc =>
    bne_iff_ne.mpr fun h => hline (h ▸ hc)
  rw [List.dropWhile_append_of_pos hall, List.takeWhile_append_of_pos hall]
  exact ⟨rfl, List.append_nil line⟩

/-- A text is empty, a line without a newline, or a line with a newline and a rest. -/
theorem lines_induction {P : List UInt8 → Prop} (nil : P [])
    (last : ∀ line, line ≠ [] → lf ∉ line → P line)
    (line : ∀ line rest, lf ∉ line → P rest → P (line ++ lf :: rest)) (cur : List UInt8) :
    P cur := by
  induction hn : cur.length using Nat.strongRecOn generalizing cur with
  | ind n ih =>
    by_cases hmem : lf ∈ cur
    · obtain ⟨before, rest, rfl, hbefore⟩ := List.eq_append_cons_of_mem hmem
      have hlt : rest.length < n := by
        rw [List.length_append, List.length_cons] at hn
        omega
      exact line before rest hbefore (ih rest.length hlt rest rfl)
    · by_cases hempty : cur = []
      · rw [hempty]
        exact nil
      · exact last cur hempty hmem

namespace Pager

theorem putLines_nil (s : Pager) : putLines s [] = s := by
  rw [putLines, if_pos rfl]

theorem putLines_last (s : Pager) {cur : List UInt8} (hcur : cur ≠ []) (hline : lf ∉ cur) :
    putLines s cur = (ask s).puts cur := by
  have hnone : cur.dropWhile (· != lf) = [] := by
    rw [List.dropWhile_eq_nil_iff]
    exact fun c hc => bne_iff_ne.mpr fun h => hline (h ▸ hc)
  rw [putLines, if_neg hcur]
  split
  · rfl
  · rename_i h
    rw [hnone] at h
    cases h

theorem putLines_line (s : Pager) {line : List UInt8} (hline : lf ∉ line) (rest : List UInt8) :
    putLines s (line ++ lf :: rest) =
      putLines (nextRow (((ask s).puts line).puts [lf])) rest := by
  obtain ⟨hdrop, htake⟩ := dropWhile_line hline rest
  rw [putLines, if_neg (by simp)]
  split
  · rename_i h
    rw [hdrop] at h
    cases h
  · rename_i h
    rw [hdrop] at h
    rw [htake, (List.cons.inj h).2]

/-! ## One row -/

/-- The text is put out as it is, whatever the rows. -/
theorem ask_text (s : Pager) : textOf (ask s).ops = textOf s.ops := by
  rw [ask]
  split
  · simp [nextRow, textOf, ConsoleOp.text]
  · rfl

theorem puts_text (s : Pager) (text : List UInt8) :
    textOf (s.puts text).ops = textOf s.ops ++ text := by
  simp [puts, textOf, ConsoleOp.text]

theorem putLines_text (s : Pager) (cur : List UInt8) :
    textOf (putLines s cur).ops = textOf s.ops ++ cur := by
  induction cur using lines_induction generalizing s with
  | nil => rw [putLines_nil, List.append_nil]
  | last cur hcur hline => rw [putLines_last s hcur hline, puts_text, ask_text]
  | line line rest hline ih =>
      rw [putLines_line s hline, ih]
      show textOf (((ask s).puts line).puts [lf]).ops ++ rest = _
      rw [puts_text, puts_text, ask_text, List.append_assoc, List.append_assoc]
      rfl

theorem printk_text (s : Pager) (call : PrintkCall) :
    textOf (printk s call).ops = textOf s.ops ++ shownText [call] := by
  rw [printk, shownText, List.flatMap_singleton]
  split
  · exact (List.append_nil _).symm
  · split
    · exact puts_text s call.text.chars
    · exact putLines_text s call.text.chars

theorem foldl_printk_text (s : Pager) (calls : List PrintkCall) :
    textOf (calls.foldl printk s).ops = textOf s.ops ++ shownText calls := by
  induction calls generalizing s with
  | nil => exact (List.append_nil _).symm
  | cons call calls ih =>
      rw [List.foldl_cons, ih, printk_text, List.append_assoc]
      simp [shownText]

/-! ## Pages -/

/-- So many full pages have been put out, and so many newlines of the next one. -/
structure Paged (s : Pager) (pages lines : Nat) : Prop where
  rows : s.rows = 25 * pages + lines + 1
  lines_le : lines ≤ 24
  total : newlines (textOf s.ops) = 24 * pages + lines
  short : ShortPages s.ops
  page : ∃ before page, s.ops = before ++ page ∧ .more ∉ page ∧
    newlines (textOf page) = lines
  page_le : ∀ before page, s.ops = before ++ page → .more ∉ page →
    newlines (textOf page) ≤ lines

theorem paged_start : Paged ⟨1, []⟩ 0 0 where
  rows := rfl
  lines_le := Nat.zero_le _
  total := rfl
  short := by
    intro before page after hsplit _
    obtain ⟨hsplit, _⟩ := List.append_eq_nil_iff.mp hsplit.symm
    rw [(List.append_eq_nil_iff.mp hsplit).2]
    exact Nat.zero_le _
  page := ⟨[], [], rfl, nofun, rfl⟩
  page_le := by
    intro before page hsplit _
    rw [(List.append_eq_nil_iff.mp hsplit.symm).2]
    exact Nat.zero_le _

theorem shortPages_concat {ops : List ConsoleOp} {op : ConsoleOp} (h : ShortPages ops)
    (hend : ∀ before page, ops ++ [op] = before ++ page → .more ∉ page →
      newlines (textOf page) ≤ 24) : ShortPages (ops ++ [op]) := by
  intro before page after hsplit hpage
  rcases concat_eq_append hsplit with rfl | ⟨after', _, hops⟩
  · exact hend before page (by rw [hsplit, List.append_nil]) hpage
  · exact h before page after' hops hpage

theorem Paged.puts {s : Pager} {pages lines : Nat} (h : Paged s pages lines) (text : List UInt8)
    (hroom : lines + newlines text ≤ 24) :
    Paged { (s.puts text) with rows := s.rows + newlines text } pages (lines + newlines text) := by
  have hend : ∀ before page, s.ops ++ [.puts text] = before ++ page → .more ∉ page →
      newlines (textOf page) ≤ lines + newlines text := by
    intro before page hsplit hpage
    rcases concat_eq_append hsplit with rfl | ⟨page', rfl, hops⟩
    · exact Nat.zero_le _
    · rw [textOf_append, newlines_append]
      have hle := h.page_le before page' hops fun hmem => hpage (List.mem_append_left _ hmem)
      exact Nat.add_le_add hle (Nat.le_of_eq (by simp [textOf, ConsoleOp.text]))
  have hrows := h.rows
  refine ⟨?_, hroom, ?_, ?_, ?_, hend⟩
  · simp only
    omega
  · show newlines (textOf (s.puts text).ops) = _
    rw [puts_text, newlines_append, h.total, Nat.add_assoc]
  · exact shortPages_concat h.short fun before page hsplit hpage =>
      Nat.le_trans (hend before page hsplit hpage) hroom
  · obtain ⟨before, page, hops, hpage, hlines⟩ := h.page
    refine ⟨before, page ++ [.puts text], ?_, ?_, ?_⟩
    · rw [← List.append_assoc, ← hops]
      rfl
    · simp [hpage]
    · rw [textOf_append, newlines_append, hlines]
      simp [textOf, ConsoleOp.text]

theorem Paged.more {s : Pager} {pages : Nat} (h : Paged s pages 24) :
    Paged ⟨s.rows + 1, s.ops ++ [.more]⟩ (pages + 1) 0 := by
  have hend : ∀ before page, s.ops ++ [.more] = before ++ page → .more ∉ page → page = [] := by
    intro before page hsplit hpage
    rcases concat_eq_append hsplit with rfl | ⟨page', rfl, _⟩
    · rfl
    · exact absurd (by simp) hpage
  have hrows := h.rows
  refine ⟨?_, Nat.zero_le _, ?_, ?_, ⟨s.ops ++ [.more], [], ?_, nofun, rfl⟩, ?_⟩
  · simp only
    omega
  · have htext : textOf (s.ops ++ [.more]) = textOf s.ops := by simp [textOf, ConsoleOp.text]
    have htotal := h.total
    rw [htext]
    omega
  · refine shortPages_concat h.short fun before page hsplit hpage => ?_
    rw [hend before page hsplit hpage]
    exact Nat.zero_le _
  · exact (List.append_nil _).symm
  · intro before page hsplit hpage
    rw [hend before page hsplit hpage]
    exact Nat.le_refl _

/-- The counter is still exact behind this many newlines and the prompts for them. -/
def RowsFit (n : Nat) : Prop := n + n / 24 + 1 < 2 ^ 31

theorem RowsFit.mono {m n : Nat} (h : RowsFit n) (hle : m ≤ n) : RowsFit m := by
  unfold RowsFit at *
  omega

theorem toInt_row {rows : Int} (hnonneg : 0 ≤ rows) (hlt : rows < 2 ^ 31) : toInt rows = rows :=
  toInt_of_inInt (inInt_iff.mpr ⟨by omega, hlt⟩)

/-- A prompt comes when the page is full. -/
theorem Paged.ask {s : Pager} {pages lines : Nat} (h : Paged s pages lines)
    (hcount : RowsFit (24 * pages + lines)) :
    ∃ pages' lines', Paged (ask s) pages' lines' ∧ lines' ≤ 23 := by
  have hrows := h.rows
  have hle := h.lines_le
  have hrem : s.rows.tmod 25 = s.rows % 25 := Int.tmod_eq_emod_of_nonneg (by omega)
  unfold RowsFit at hcount
  rw [Pager.ask, hrem]
  by_cases hfull : lines = 24
  · subst hfull
    have hnext : toInt (s.rows + 1) = s.rows + 1 := toInt_row (by omega) (by omega)
    rw [if_pos (by omega), nextRow]
    simp only
    rw [hnext]
    exact ⟨pages + 1, 0, h.more, Nat.zero_le _⟩
  · rw [if_neg (by omega)]
    exact ⟨pages, lines, h, by omega⟩

theorem newlines_line {line : List UInt8} (hline : lf ∉ line) : newlines line = 0 :=
  List.count_eq_zero.mpr hline

theorem Paged.line {s : Pager} {pages lines : Nat} (h : Paged s pages lines) {line : List UInt8}
    (hline : lf ∉ line) : Paged (s.puts line) pages lines := by
  have hnone := newlines_line hline
  have hputs := h.puts line (by rw [hnone]; exact h.lines_le)
  rw [hnone, Int.natCast_zero, Int.add_zero, Nat.add_zero] at hputs
  exact hputs

theorem Paged.newline {s : Pager} {pages lines : Nat} (h : Paged s pages lines)
    (hlines : lines ≤ 23) (hcount : RowsFit (24 * pages + lines + 1)) :
    Paged (nextRow (s.puts [lf])) pages (lines + 1) := by
  have hrows := h.rows
  unfold RowsFit at hcount
  have hnext : toInt (s.rows + 1) = s.rows + 1 := toInt_row (by omega) (by omega)
  have hputs := h.puts [lf] (Nat.succ_le_succ hlines)
  unfold nextRow
  rw [show (s.puts [lf]).rows = s.rows from rfl, hnext]
  exact hputs

theorem Paged.putLines {s : Pager} {pages lines : Nat} (h : Paged s pages lines)
    (cur : List UInt8) (hcount : RowsFit (newlines (textOf s.ops) + newlines cur)) :
    ∃ pages' lines', Paged (putLines s cur) pages' lines' := by
  induction cur using lines_induction generalizing s pages lines with
  | nil => exact ⟨pages, lines, by rwa [putLines_nil]⟩
  | last cur hcur hline =>
      rw [h.total] at hcount
      obtain ⟨pages₁, lines₁, hask, _⟩ := h.ask (hcount.mono (Nat.le_add_right _ _))
      rw [putLines_last s hcur hline]
      exact ⟨pages₁, lines₁, hask.line hline⟩
  | line line rest hline ih =>
      have hcur : newlines (line ++ lf :: rest) = newlines rest + 1 := by
        rw [newlines_append, newlines_line hline, Nat.zero_add]
        exact List.count_cons_self
      rw [hcur] at hcount
      have htotal := h.total
      obtain ⟨pages₁, lines₁, hask, hroom⟩ := h.ask (hcount.mono (by omega))
      have htotal₁ := hask.total
      rw [ask_text, htotal] at htotal₁
      have hnext := (hask.line hline).newline hroom (hcount.mono (by omega))
      rw [putLines_line s hline]
      apply ih hnext
      rw [hnext.total]
      exact hcount.mono (by omega)

theorem Paged.printk {s : Pager} {pages lines : Nat} (h : Paged s pages lines)
    (call : PrintkCall) (hcount : RowsFit (newlines (textOf s.ops ++ shownText [call]))) :
    ∃ pages' lines', Paged (printk s call) pages' lines' := by
  have hrows : s.rows ≠ 0 := by
    have hrows := h.rows
    omega
  rw [shownText, List.flatMap_singleton, newlines_append] at hcount
  rw [Pager.printk, if_neg hrows]
  split
  case isTrue => exact ⟨pages, lines, h⟩
  case isFalse hshown =>
    rw [if_neg hshown] at hcount
    exact h.putLines call.text.chars hcount

theorem Paged.foldl_printk {s : Pager} {pages lines : Nat} (h : Paged s pages lines)
    (calls : List PrintkCall)
    (hcount : RowsFit (newlines (textOf s.ops ++ shownText calls))) :
    ∃ pages' lines', Paged (calls.foldl Pager.printk s) pages' lines' := by
  induction calls generalizing s pages lines with
  | nil => exact ⟨pages, lines, h⟩
  | cons call calls ih =>
      have hshown : shownText (call :: calls) = shownText [call] ++ shownText calls := by
        simp [shownText]
      rw [hshown, ← List.append_assoc] at hcount
      have hfirst := hcount
      rw [newlines_append] at hfirst
      obtain ⟨pages₁, lines₁, hnext⟩ := h.printk call (hfirst.mono (Nat.le_add_right _ _))
      apply ih hnext
      rwa [printk_text]

/-- The console gets the texts of the calls, and a prompt after at most 24 newlines. -/
theorem printks_paged (calls : List PrintkCall) :
    textOf (printks calls).ops = shownText calls ∧
      (RowsFit (newlines (shownText calls)) → ShortPages (printks calls).ops) := by
  constructor
  · exact foldl_printk_text ⟨1, []⟩ calls
  · intro hcount
    obtain ⟨_, _, hpaged⟩ := paged_start.foldl_printk calls hcount
    exact hpaged.short

/-! ## Where the counter ends -/

def newlineCall : PrintkCall := ⟨⟨[lf], by decide, by decide⟩, false, by decide⟩

theorem printk_newline {s : Pager} (hrows : s.rows ≠ 0) (hpage : s.rows.tmod 25 ≠ 0) :
    printk s newlineCall =
      ⟨toInt (s.rows + 1), s.ops ++ [.puts []] ++ [.puts [lf]]⟩ := by
  have hline : lf ∉ ([] : List UInt8) := nofun
  have hask : ask s = s := if_neg hpage
  rw [printk, if_neg (by decide), if_neg hrows]
  show putLines s ([] ++ lf :: []) = _
  rw [putLines_line s hline, putLines_nil, hask]
  rfl

theorem newlines_shownText_replicate (n : Nat) :
    newlines (shownText (List.replicate n newlineCall)) = n := by
  induction n with
  | zero => rfl
  | succ n ih =>
      have hshown : shownText (List.replicate (n + 1) newlineCall) =
          lf :: shownText (List.replicate n newlineCall) := rfl
      rw [hshown, newlines, List.count_cons_self]
      exact congrArg (· + 1) ih

/-- From the largest `int` on, no multiple of 25 is met for 23 rows. -/
theorem printk_newline_four {s : Pager} (hrows : s.rows = 2147483647)
    {before page : List ConsoleOp} (hops : s.ops = before ++ page) (hpage : .more ∉ page)
    (hlines : newlines (textOf page) = 21) :
    ¬ ShortPages ((List.replicate 4 newlineCall).foldl printk s).ops := by
  let row : List ConsoleOp := [.puts [], .puts [lf]]
  have hfirst : printk s newlineCall = ⟨-2147483648, s.ops ++ row⟩ := by
    rw [printk_newline (by rw [hrows]; decide) (by rw [hrows]; decide), hrows, List.append_assoc]
    rfl
  have hnext : ∀ (rows : Int) (ops : List ConsoleOp),
      -2147483648 ≤ rows → rows < -2147483640 →
      printk ⟨rows, ops⟩ newlineCall = ⟨rows + 1, ops ++ row⟩ := by
    intro rows ops hlo hhi
    have hrem : rows.tmod 25 ≠ 0 := by
      have hpos : (-rows).tmod 25 = -rows % 25 := Int.tmod_eq_emod_of_nonneg (by omega)
      have hneg := Int.neg_tmod (-rows) 25
      rw [Int.neg_neg, hpos] at hneg
      omega
    rw [printk_newline (by simp only; omega) hrem, List.append_assoc,
      toInt_of_inInt (inInt_iff.mpr (by simp only; omega))]
    rfl
  have hend : ((List.replicate 4 newlineCall).foldl printk s).ops =
      before ++ (page ++ row ++ row ++ row ++ row) ++ [] := by
    show (printk (printk (printk (printk s newlineCall) newlineCall) newlineCall)
      newlineCall).ops = _
    rw [hfirst, hnext (-2147483648) _ (by decide) (by decide),
      hnext (-2147483648 + 1) _ (by decide) (by decide),
      hnext (-2147483648 + 1 + 1) _ (by decide) (by decide), hops]
    simp only [List.append_assoc, List.append_nil]
  intro hshort
  have hlarge := hshort _ _ _ hend (by simp [row, hpage])
  have hrow : newlines (textOf row) = 1 := rfl
  simp only [textOf_append, newlines_append, hlines, hrow] at hlarge
  exact absurd hlarge (by decide)

theorem not_shortPages_replicate {n : Nat} (hn : n = 2061584301) :
    ¬ ShortPages (printks (List.replicate (n + 4) newlineCall)).ops := by
  have hcount : RowsFit n := by
    unfold RowsFit
    omega
  obtain ⟨pages, lines, hpaged⟩ := paged_start.foldl_printk (List.replicate n newlineCall) (by
    show RowsFit (newlines (shownText _))
    rwa [newlines_shownText_replicate])
  have htotal := hpaged.total
  have hle := hpaged.lines_le
  have hrows := hpaged.rows
  rw [foldl_printk_text] at htotal
  have hnewlines : newlines (textOf [] ++ shownText (List.replicate n newlineCall)) = n :=
    newlines_shownText_replicate n
  rw [hnewlines] at htotal
  obtain ⟨before, page, hops, hpage, hlines⟩ := hpaged.page
  rw [← List.replicate_append_replicate, printks, List.foldl_append]
  exact printk_newline_four (by omega) hops hpage (by omega)

def suppressedCall : PrintkCall := ⟨⟨[0x61], by decide, by decide⟩, true, by decide⟩

/-- A text is lost while `milo_suppress_printk` is set, and behind more than 2061584301 lines the
counter is no longer that of the rows. -/
theorem printks_not_paged :
    textOf (printks [suppressedCall]).ops ≠ suppressedCall.text.chars ∧
    ¬ ShortPages (printks (List.replicate (2061584301 + 4) newlineCall)).ops :=
  ⟨nofun, not_shortPages_replicate rfl⟩

end Pager

end Milo.Console
