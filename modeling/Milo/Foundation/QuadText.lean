import Mathlib.Algebra.Order.Ring.Int

/-! # Listings of 64-bit words

The part of the assembler's language that emits data: lines of a `.quad`
directive and hexadecimal words separated by commas. `assemble` reads such a
text, `render` writes one, and reading what was written gives the words back.
-/

namespace Foundation.QuadText

/-! ## Words as bytes -/

/-- The `n` low bytes of a word, the lowest first. -/
def leBytes : Nat → Nat → List UInt8
  | 0, _ => []
  | n + 1, w => UInt8.ofNat w :: leBytes n (w / 256)

/-- The word that the bytes make, the lowest first. -/
def leValue : List UInt8 → Nat
  | [] => 0
  | b :: bytes => b.toNat + 256 * leValue bytes

@[simp] theorem leBytes_length (n w : Nat) : (leBytes n w).length = n := by
  induction n generalizing w with
  | zero => rfl
  | succ n ih => simp [leBytes, ih]

theorem leBytes_zero (n : Nat) : leBytes n 0 = List.replicate n 0 := by
  induction n with
  | zero => rfl
  | succ n ih => simp [leBytes, ih, List.replicate_succ]

theorem flatMap_leBytes_length (n : Nat) (words : List Nat) :
    (words.flatMap (leBytes n)).length = n * words.length := by
  induction words with
  | nil => rfl
  | cons w words ih =>
      rw [List.flatMap_cons, List.length_append, leBytes_length, ih, List.length_cons, Nat.mul_succ,
        Nat.add_comm]

theorem leValue_lt (bytes : List UInt8) : leValue bytes < 256 ^ bytes.length := by
  induction bytes with
  | nil => exact Nat.one_pos
  | cons b bytes ih =>
      have hbyte := b.toNat_lt
      rw [leValue, List.length_cons, Nat.pow_succ]
      omega

/-- Reading back the low bytes of a word. -/
theorem leValue_leBytes (n w : Nat) : leValue (leBytes n w) = w % 256 ^ n := by
  induction n generalizing w with
  | zero => rw [leBytes, leValue, Nat.pow_zero, Nat.mod_one]
  | succ n ih =>
      have hpow : 256 ^ (n + 1) = 256 * 256 ^ n := Nat.pow_succ'
      rw [leBytes, leValue, ih, UInt8.toNat_ofNat', hpow, Nat.mod_mul]

theorem leValue_concat (bytes : List UInt8) (b : UInt8) :
    leValue (bytes ++ [b]) = leValue bytes + 256 ^ bytes.length * b.toNat := by
  induction bytes with
  | nil => simp [leValue]
  | cons a bytes ih =>
      rw [List.cons_append, leValue, ih, leValue, List.length_cons, Nat.pow_succ', Nat.mul_add,
        Nat.mul_assoc, Nat.add_assoc]

/-- A word made of fewer bytes has zeros above them. -/
theorem leBytes_leValue {n : Nat} {bytes : List UInt8} (h : bytes.length ≤ n) :
    leBytes n (leValue bytes) = bytes ++ List.replicate (n - bytes.length) 0 := by
  induction bytes generalizing n with
  | nil => simpa [leValue] using leBytes_zero n
  | cons b bytes ih =>
      cases n with
      | zero => simp at h
      | succ n =>
          have hbyte := b.toNat_lt
          have hrest : (b.toNat + 256 * leValue bytes) / 256 = leValue bytes := by omega
          have hlow : UInt8.ofNat (b.toNat + 256 * leValue bytes) = b := by
            apply UInt8.toNat.inj
            rw [UInt8.toNat_ofNat']
            omega
          rw [leValue, leBytes, hrest, hlow, ih (by simpa using h)]
          simp

/-! ## Hexadecimal numbers -/

/-- A digit as `%x` prints it. -/
def hexDigit (d : Nat) : Char := Char.ofNat (if d < 10 then d + 48 else d + 87)

/-- `%0nx` of a number that has no more than `n` digits. -/
def hexDigits : Nat → Nat → List Char
  | 0, _ => []
  | n + 1, q => hexDigits n (q / 16) ++ [hexDigit (q % 16)]

def digitValue (c : Char) : Option Nat :=
  if '0' ≤ c ∧ c ≤ '9' then some (c.toNat - 48)
  else if 'a' ≤ c ∧ c ≤ 'f' then some (c.toNat - 87)
  else if 'A' ≤ c ∧ c ≤ 'F' then some (c.toNat - 55)
  else none

def scanDigits (digits : List Char) : Option Nat :=
  digits.foldlM (fun v c => (digitValue c).map (16 * v + ·)) 0

/-- `0x` and at least one digit, with a value of 64 bits. -/
def scanHex : List Char → Option Nat
  | '0' :: 'x' :: digits =>
      if digits = [] then none else (scanDigits digits).filter (· < 2 ^ 64)
  | _ => none

theorem digitValue_hexDigit {d : Nat} (h : d < 16) : digitValue (hexDigit d) = some d := by
  revert d
  decide

theorem scanDigits_concat (digits : List Char) (c : Char) :
    scanDigits (digits ++ [c]) =
      (scanDigits digits).bind fun v => (digitValue c).map (16 * v + ·) := by
  simp [scanDigits, List.foldlM_append]

theorem scanDigits_hexDigits {n q : Nat} (h : q < 16 ^ n) :
    scanDigits (hexDigits n q) = some q := by
  induction n generalizing q with
  | zero =>
      obtain rfl : q = 0 := by omega
      rfl
  | succ n ih =>
      have hhigh : q / 16 < 16 ^ n := by
        rw [Nat.pow_succ] at h
        omega
      have hdigit := digitValue_hexDigit (Nat.mod_lt q (show 16 > 0 by decide))
      have hsplit : 16 * (q / 16) + q % 16 = q := Nat.div_add_mod q 16
      rw [hexDigits, scanDigits_concat, ih hhigh, Option.bind_some, hdigit, Option.map_some, hsplit]

theorem hexDigits_avoids {c : Char} (hc : ∀ d < 16, hexDigit d ≠ c) (n q : Nat) :
    c ∉ hexDigits n q := by
  induction n generalizing q with
  | zero => simp [hexDigits]
  | succ n ih =>
      have hlast := hc (q % 16) (Nat.mod_lt q (by decide))
      simp [hexDigits, ih, hlast.symm]

/-- A word as `0x%016lx` prints it. -/
def hexWord (w : Nat) : List Char := '0' :: 'x' :: hexDigits 16 w

theorem scanHex_hexWord {w : Nat} (h : w < 2 ^ 64) : scanHex (hexWord w) = some w := by
  have hdigits : scanDigits (hexDigits 16 w) = some w := scanDigits_hexDigits h
  have hne : hexDigits 16 w ≠ [] := List.concat_ne_nil _ _
  rw [hexWord, scanHex, if_neg hne, hdigits]
  exact Option.filter_eq_some_iff.mpr ⟨rfl, decide_eq_true h⟩

/-! ## Directives -/

/-- What a line of a directive starts with. -/
def quad : List Char := "\t.quad ".toList

def scanLine (l : List Char) : Option (List Nat) :=
  if quad.isPrefixOf l then ((l.drop quad.length).splitOn ',').mapM scanHex else none

/-- The words of a text in which every directive stands on a line of its own. -/
def assembleWords (text : List Char) : Option (List Nat) :=
  match text.splitOn '\n' with
  | [] :: lines => (lines.mapM scanLine).map List.flatten
  | _ => none

/-- The bytes that the assembler makes of a text. -/
def assemble (text : List Char) : Option (List UInt8) :=
  (assembleWords text).map (List.flatMap (leBytes 8))

/-- One directive with its words. -/
def renderLine (words : List Nat) : List Char := quad ++ [','].intercalate (words.map hexWord)

def render (directives : List (List Nat)) : List Char :=
  ['\n'].intercalate ([] :: directives.map renderLine)

theorem intercalate_concat {α : Type _} (sep l : List α) {ls : List (List α)} (h : ls ≠ []) :
    sep.intercalate (ls ++ [l]) = sep.intercalate ls ++ sep ++ l := by
  induction ls with
  | nil => exact absurd rfl h
  | cons a ls ih =>
      cases ls with
      | nil => simp [List.intercalate_cons_cons, List.intercalate_singleton]
      | cons b ls =>
          have htail := ih (List.cons_ne_nil b ls)
          simp only [List.cons_append, List.intercalate_cons_cons] at htail ⊢
          rw [htail]
          simp [List.append_assoc]

theorem mapM_map_some {α β : Type _} {f : β → Option α} {g : α → β} {l : List α}
    (h : ∀ a ∈ l, f (g a) = some a) : (l.map g).mapM f = some l := by
  induction l with
  | nil => rfl
  | cons a l ih =>
      have hrest := ih fun b hb => h b (List.mem_cons_of_mem a hb)
      rw [List.map_cons, List.mapM_cons, h a List.mem_cons_self, hrest]
      rfl

theorem scanLine_renderLine {words : List Nat} (hne : words ≠ [])
    (h : ∀ w ∈ words, w < 2 ^ 64) : scanLine (renderLine words) = some words := by
  have hsep : ∀ l ∈ words.map hexWord, ',' ∉ l := by
    intro l hl
    obtain ⟨w, -, rfl⟩ := List.mem_map.mp hl
    simp [hexWord, hexDigits_avoids (c := ',') (by decide) 16 w]
  have hprefix : quad.isPrefixOf (renderLine words) = true := by simp [renderLine]
  rw [scanLine, if_pos hprefix, renderLine, List.drop_left,
    List.splitOn_intercalate ',' hsep (by simpa using hne)]
  exact mapM_map_some fun w hw => scanHex_hexWord (h w hw)

theorem renderLine_no_newline (words : List Nat) : '\n' ∉ renderLine words := by
  induction words with
  | nil => decide
  | cons w words ih =>
      have hword : '\n' ∉ hexWord w := by
        simp [hexWord, hexDigits_avoids (c := '\n') (by decide) 16 w]
      cases words with
      | nil => simpa [renderLine, List.intercalate_singleton, hword] using ih
      | cons v words =>
          simp only [renderLine, List.map_cons, List.intercalate_cons_cons, List.mem_append,
            not_or] at ih ⊢
          exact ⟨ih.1, ⟨hword, by decide⟩, ih.2⟩

/-- Reading back what was written. -/
theorem assembleWords_render {directives : List (List Nat)}
    (h : ∀ words ∈ directives, words ≠ [] ∧ ∀ w ∈ words, w < 2 ^ 64) :
    assembleWords (render directives) = some directives.flatten := by
  have hlines : ∀ l ∈ [] :: directives.map renderLine, '\n' ∉ l := by
    intro l hl
    rcases List.mem_cons.mp hl with rfl | hl
    · exact List.not_mem_nil
    · obtain ⟨words, -, rfl⟩ := List.mem_map.mp hl
      exact renderLine_no_newline words
  have hscan : (directives.map renderLine).mapM scanLine = some directives :=
    mapM_map_some fun words hw => scanLine_renderLine (h words hw).1 (h words hw).2
  rw [assembleWords, render, List.splitOn_intercalate '\n' hlines (List.cons_ne_nil _ _)]
  simp [hscan]

/-! ## Texts that grow -/

/-- The text is a listing of the words. -/
def Lists (text : List Char) (words : List Nat) : Prop :=
  ∃ directives : List (List Nat),
    (∀ ws ∈ directives, ws ≠ [] ∧ ∀ w ∈ ws, w < 2 ^ 64) ∧ text = render directives ∧
      words = directives.flatten

theorem Lists.assemble {text : List Char} {words : List Nat} (h : Lists text words) :
    assemble text = some (words.flatMap (leBytes 8)) := by
  obtain ⟨directives, hwords, rfl, rfl⟩ := h
  rw [QuadText.assemble, assembleWords_render hwords]
  rfl

theorem lists_nil : Lists [] [] := ⟨[], by simp, rfl, rfl⟩

/-- A word on a new line. -/
theorem Lists.newLine {text : List Char} {words : List Nat} {w : Nat} (h : Lists text words)
    (hw : w < 2 ^ 64) : Lists (text ++ "\n\t.quad ".toList ++ hexWord w) (words ++ [w]) := by
  obtain ⟨directives, hwords, rfl, rfl⟩ := h
  refine ⟨directives ++ [[w]], ?_, ?_, by simp⟩
  · intro ws hws
    rcases List.mem_append.mp hws with hold | hnew
    · exact hwords ws hold
    · rw [List.mem_singleton.mp hnew]
      simpa using hw
  · have hlast : [] :: (directives ++ [[w]]).map renderLine =
        ([] :: directives.map renderLine) ++ [renderLine [w]] := by simp
    have hline : renderLine [w] = quad ++ hexWord w := by
      simp [renderLine, List.intercalate_singleton]
    have hquad : "\n\t.quad ".toList = ['\n'] ++ quad := by decide
    rw [render, render, hlast, intercalate_concat _ _ (List.cons_ne_nil _ _), hline, hquad]
    simp only [List.append_assoc]

/-- A word behind a comma. -/
theorem Lists.nextWord {text : List Char} {words : List Nat} {w : Nat} (h : Lists text words)
    (hne : words ≠ []) (hw : w < 2 ^ 64) :
    Lists (text ++ ',' :: hexWord w) (words ++ [w]) := by
  obtain ⟨directives, hwords, rfl, rfl⟩ := h
  have hdirectives : directives ≠ [] := by
    rintro rfl
    exact hne rfl
  obtain ⟨front, ws, rfl⟩ := List.eq_nil_or_concat directives |>.resolve_left hdirectives
  rw [List.concat_eq_append] at hwords ⊢
  have hlast := hwords ws (by simp)
  refine ⟨front ++ [ws ++ [w]], ?_, ?_, by simp⟩
  · intro vs hvs
    rcases List.mem_append.mp hvs with hold | hnew
    · exact hwords vs (List.mem_append_left _ hold)
    · rw [List.mem_singleton.mp hnew]
      refine ⟨by simp, fun v hv => ?_⟩
      rcases List.mem_append.mp hv with hv | hv
      · exact hlast.2 v hv
      · rwa [List.mem_singleton.mp hv]
  · have hconcat : ∀ vs, [] :: (front ++ [vs]).map renderLine =
        ([] :: front.map renderLine) ++ [renderLine vs] := by simp
    have hline : renderLine (ws ++ [w]) = renderLine ws ++ ',' :: hexWord w := by
      rw [renderLine, renderLine, List.map_append, List.map_singleton,
        intercalate_concat _ _ (by simpa using hlast.1)]
      simp
    rw [render, render, hconcat, hconcat, intercalate_concat _ _ (List.cons_ne_nil _ _),
      intercalate_concat _ _ (List.cons_ne_nil _ _), hline]
    simp

end Foundation.QuadText
