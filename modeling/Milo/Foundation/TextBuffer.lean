import Mathlib.Data.List.TakeWhile

/-! # Strings inside a buffer

A buffer of bytes is read and cut in place: a string starts at an offset and ends
at the next NUL, and storing a NUL ends it earlier. What a string reads like
depends only on the bytes up to its NUL.
-/

namespace Foundation

/-- A test of each byte of a short list. -/
theorem forall_of_all {bytes : List UInt8} {P : UInt8 → Prop} [DecidablePred P]
    (h : (bytes.all fun c => decide (P c)) = true) : ∀ c ∈ bytes, P c :=
  fun c hc => of_decide_eq_true (List.all_eq_true.mp h c hc)

/-- The string that starts at offset `p`. -/
def stringIn (buf : List UInt8) (p : Nat) : List UInt8 := (buf.drop p).takeWhile (· != 0)

/-- The first offset from `p` on whose byte does not satisfy the predicate. -/
def scan (pred : UInt8 → Bool) (buf : List UInt8) (p : Nat) : Nat :=
  p + ((buf.drop p).takeWhile pred).length

/-- NULs stored at the offsets `cuts` behind `start`. -/
def cutAt (buf : List UInt8) (start : Nat) (cuts : List Nat) : List UInt8 :=
  cuts.foldl (fun buf c => buf.set (start + c) 0) buf

/-- Bytes stored from offset `p` on. -/
def overwrite (buf : List UInt8) (p : Nat) (bytes : List UInt8) : List UInt8 :=
  buf.take p ++ bytes ++ buf.drop (p + bytes.length)

/-- A NUL from `p` on and before `q`. -/
def NulBetween (buf : List UInt8) (p q : Nat) : Prop := ∃ i, p ≤ i ∧ i < q ∧ buf[i]? = some 0

/-- One of the two strings ends before the other one starts. -/
def Apart (buf : List UInt8) (p q : Nat) : Prop := NulBetween buf p q ∨ NulBetween buf q p

/-! ## Scanning -/

theorem scan_append {pred : UInt8 → Bool} (before : List UInt8) {run : List UInt8}
    (after : List UInt8) (hrun : ∀ c ∈ run, pred c = true)
    (hafter : ∀ c ∈ after.head?, pred c = false) :
    scan pred (before ++ (run ++ after)) before.length = before.length + run.length := by
  have hstop : after.takeWhile pred = [] := by
    cases after with
    | nil => rfl
    | cons c after => rw [List.takeWhile_cons_of_neg (by rw [hafter c rfl]; decide)]
  unfold scan
  rw [List.drop_left, List.takeWhile_append_of_pos hrun, hstop, List.append_nil]

theorem scan_le {pred : UInt8 → Bool} {buf : List UInt8} {p : Nat} (h : p ≤ buf.length) :
    scan pred buf p ≤ buf.length := by
  have hlength := (List.takeWhile_sublist (l := buf.drop p) pred).length_le
  unfold scan
  rw [List.length_drop] at hlength
  omega

theorem le_scan (pred : UInt8 → Bool) (buf : List UInt8) (p : Nat) : p ≤ scan pred buf p :=
  Nat.le_add_right _ _

/-! ## Strings -/

theorem takeWhile_append_stop {pred : UInt8 → Bool} (s : List UInt8) {c : UInt8}
    (hc : pred c = false) (rest : List UInt8) : (s ++ c :: rest).takeWhile pred = s.takeWhile pred := by
  induction s with
  | nil => exact List.takeWhile_cons_of_neg (by rw [hc]; decide)
  | cons d s ih => rw [List.cons_append, List.takeWhile_cons, List.takeWhile_cons, ih]

theorem takeWhile_append_nul (s rest : List UInt8) :
    (s ++ 0 :: rest).takeWhile (· != 0) = s.takeWhile (· != 0) := takeWhile_append_stop s rfl rest

theorem takeWhile_of_no_nul {s : List UInt8} (h : 0 ∉ s) : s.takeWhile (· != 0) = s := by
  rw [List.takeWhile_eq_self_iff]
  intro c hc
  rw [bne_iff_ne]
  exact fun heq => h (heq ▸ hc)

/-- A string of a buffer is not changed by what lies behind its NUL. -/
theorem stringIn_append {buf : List UInt8} {p : Nat} (h : 0 ∈ buf.drop p) (rest : List UInt8) :
    stringIn (buf ++ rest) p = stringIn buf p := by
  have hle : p ≤ buf.length := by
    by_contra hover
    rw [List.drop_eq_nil_of_le (by omega)] at h
    cases h
  unfold stringIn
  rw [List.drop_append_of_le_length hle]
  generalize buf.drop p = suffix at h
  induction suffix with
  | nil => cases h
  | cons c suffix ih =>
      by_cases hc : c = 0
      · simp [hc]
      · have hmem : 0 ∈ suffix := (List.mem_cons.mp h).resolve_left fun heq => hc heq.symm
        have hne : (c != 0) = true := bne_iff_ne.mpr hc
        simp only [List.cons_append, List.takeWhile_cons, hne, if_true, ih hmem]

theorem stringIn_append_right (before buf : List UInt8) (p : Nat) :
    stringIn (before ++ buf) (before.length + p) = stringIn buf p := by
  unfold stringIn
  rw [List.drop_length_add_append]

theorem stringIn_eq {s : List UInt8} (hs : 0 ∉ s) (before after : List UInt8) :
    stringIn (before ++ (s ++ 0 :: after)) before.length = s := by
  unfold stringIn
  rw [List.drop_left, takeWhile_append_nul, takeWhile_of_no_nul hs]

theorem nul_not_mem_stringIn (buf : List UInt8) (p : Nat) : 0 ∉ stringIn buf p := by
  intro h
  exact absurd (List.mem_takeWhile_imp h) (by decide)

theorem stringIn_length_le (buf : List UInt8) (p : Nat) :
    (stringIn buf p).length ≤ buf.length - p := by
  have hle := (List.takeWhile_sublist (l := buf.drop p) (· != 0)).length_le
  rwa [List.length_drop] at hle

/-- Storing as many bytes as there were. -/
theorem overwrite_length {buf bytes : List UInt8} {p : Nat}
    (h : bytes.length ≤ buf.length - p) : (overwrite buf p bytes).length = buf.length := by
  unfold overwrite
  rw [List.length_append, List.length_append, List.length_take, List.length_drop]
  omega

/-! ## Cuts -/

@[simp] theorem cutAt_length (buf : List UInt8) (start : Nat) (cuts : List Nat) :
    (cutAt buf start cuts).length = buf.length := by
  unfold cutAt
  induction cuts generalizing buf with
  | nil => rfl
  | cons c cuts ih => rw [List.foldl_cons, ih, List.length_set]

theorem cutAt_getElem? (buf : List UInt8) (start : Nat) (cuts : List Nat) (i : Nat) :
    (cutAt buf start cuts)[i]? =
      if i < buf.length ∧ ∃ c ∈ cuts, start + c = i then some 0 else buf[i]? := by
  unfold cutAt
  induction cuts generalizing buf with
  | nil => simp
  | cons c cuts ih =>
      rw [List.foldl_cons, ih, List.length_set, List.getElem?_set]
      by_cases hi : i < buf.length
      · by_cases hc : start + c = i
        · simp [hi, hc]
        · simp [hi, hc]
      · simp only [hi, false_and, if_false]
        split <;> rename_i hc
        · rw [List.getElem?_eq_none (Nat.le_of_not_lt hi)]
          simp [hc, hi]
        · rfl

/-- A cut ends the string before it. -/
theorem stringIn_cutAt {buf s : List UInt8} {p : Nat} {cuts : List Nat} (hs : 0 ∉ s)
    (hat : (buf.drop p).take s.length = s) (hend : p + s.length < buf.length)
    (hcut : p + s.length ∈ cuts) (hapart : ∀ c ∈ cuts, c < p ∨ p + s.length ≤ c) :
    stringIn (cutAt buf 0 cuts) p = s := by
  have hread : ((cutAt buf 0 cuts).drop p).take s.length = s := by
    apply List.ext_getElem?
    intro i
    by_cases hi : i < s.length
    · have hmiss : ¬ ∃ c ∈ cuts, 0 + c = p + i := by
        intro ⟨c, hc, heq⟩
        have := hapart c hc
        omega
      rw [List.getElem?_take_of_lt hi, List.getElem?_drop, cutAt_getElem?, if_neg (fun h => hmiss h.2),
        ← List.getElem?_drop, ← List.getElem?_take_of_lt hi, hat]
    · rw [List.getElem?_eq_none (by simp; omega), List.getElem?_eq_none (by omega)]
  have hnul : (cutAt buf 0 cuts)[p + s.length]? = some 0 := by
    rw [cutAt_getElem?, if_pos ⟨hend, _, hcut, Nat.zero_add _⟩]
  have hsplit := (List.take_append_drop s.length ((cutAt buf 0 cuts).drop p)).symm
  rw [hread, List.drop_drop, @List.drop_eq_getElem?_toList_append _ _ (p + s.length), hnul] at hsplit
  unfold stringIn
  rw [hsplit]
  exact (takeWhile_append_nul s _).trans (takeWhile_of_no_nul hs)

/-- Cuts inside a part of the buffer leave the rest of it. -/
theorem cutAt_append (before : List UInt8) {part : List UInt8} (after : List UInt8)
    {cuts : List Nat} (h : ∀ c ∈ cuts, c < part.length) :
    cutAt (before ++ (part ++ after)) before.length cuts =
      before ++ (cutAt part 0 cuts ++ after) := by
  unfold cutAt
  induction cuts generalizing part with
  | nil => rfl
  | cons c cuts ih =>
      have hc := h c List.mem_cons_self
      have hset : (before ++ (part ++ after)).set (before.length + c) 0 =
          before ++ (part.set (0 + c) 0 ++ after) := by
        rw [List.set_append_right _ _ (Nat.le_add_right _ _), Nat.add_sub_cancel_left,
          List.set_append_left _ _ hc, Nat.zero_add]
      rw [List.foldl_cons, List.foldl_cons, hset]
      apply ih
      intro d hd
      rw [List.length_set]
      exact h d (List.mem_cons_of_mem c hd)

/-- A NUL that is there stays there. -/
theorem nul_mem_cutAt {buf : List UInt8} {p : Nat} (h : 0 ∈ buf.drop p) (start : Nat)
    (cuts : List Nat) : 0 ∈ (cutAt buf start cuts).drop p := by
  unfold cutAt
  induction cuts generalizing buf with
  | nil => exact h
  | cons c cuts ih =>
      apply ih
      obtain ⟨i, hi⟩ := List.getElem?_of_mem h
      rw [List.getElem?_drop] at hi
      apply List.mem_of_getElem? (i := i)
      rw [List.getElem?_drop, List.getElem?_set]
      split
      · rename_i hsame
        rw [if_pos (hsame ▸ (List.getElem?_eq_some_iff.mp hi).1)]
      · exact hi

/-! ## Strings that are apart -/

theorem Apart.symm {buf : List UInt8} {p q : Nat} (h : Apart buf p q) : Apart buf q p := h.elim .inr .inl

theorem exists_nul_of_mem_drop {buf : List UInt8} {p : Nat} (h : 0 ∈ buf.drop p) :
    NulBetween buf p buf.length := by
  obtain ⟨i, hi⟩ := List.getElem?_of_mem h
  rw [List.getElem?_drop] at hi
  exact ⟨p + i, Nat.le_add_right p i, (List.getElem?_eq_some_iff.mp hi).1, hi⟩

/-- Storing NULs, or anything where there was none, keeps strings apart. -/
theorem Apart.mono {buf buf' : List UInt8} (h : ∀ i : Nat, buf[i]? = some 0 → buf'[i]? = some 0)
    {p q : Nat} (hapart : Apart buf p q) : Apart buf' p q := by
  rcases hapart with ⟨i, hlo, hhi, hi⟩ | ⟨i, hlo, hhi, hi⟩
  · exact Or.inl ⟨i, hlo, hhi, h i hi⟩
  · exact Or.inr ⟨i, hlo, hhi, h i hi⟩

/-- A string that has ended is apart from one that starts behind it. -/
theorem apart_of_ended {done rest : List UInt8} {p q : Nat} (h : 0 ∈ done.drop p)
    (hq : done.length ≤ q) : Apart (done ++ rest) p q := by
  obtain ⟨i, hlo, hhi, hi⟩ := exists_nul_of_mem_drop h
  refine Or.inl ⟨i, hlo, by omega, ?_⟩
  rw [List.getElem?_append_left hhi, hi]

theorem overwrite_append (before : List UInt8) {part bytes : List UInt8} (after : List UInt8)
    {p : Nat} (h : p + bytes.length ≤ part.length) :
    overwrite (before ++ (part ++ after)) (before.length + p) bytes =
      before ++ (overwrite part p bytes ++ after) := by
  unfold overwrite
  rw [List.take_length_add_append, List.take_append_of_le_length (by omega), Nat.add_assoc,
    List.drop_length_add_append, List.drop_append_of_le_length h]
  simp

/-! ## Edits of strings -/

/-- Only the strings at `ps` have been changed: no NUL is gone, and strings that are
apart from them read the same. -/
structure Edits (buf buf' : List UInt8) (ps : List Nat) : Prop where
  nuls : ∀ i : Nat, buf[i]? = some 0 → buf'[i]? = some 0
  others : ∀ q, (∀ p ∈ ps, Apart buf p q) → stringIn buf' q = stringIn buf q

theorem Edits.refl (buf : List UInt8) : Edits buf buf [] := ⟨fun _ hi => hi, fun _ _ => rfl⟩

theorem Edits.trans {buf buf₁ buf₂ : List UInt8} {ps qs : List Nat} (h₁ : Edits buf buf₁ ps)
    (h₂ : Edits buf₁ buf₂ qs) : Edits buf buf₂ (ps ++ qs) := by
  refine ⟨fun i hi => h₂.nuls i (h₁.nuls i hi), fun q hq => ?_⟩
  rw [h₂.others q fun p hp => (hq p (List.mem_append_right ps hp)).mono h₁.nuls,
    h₁.others q fun p hp => hq p (List.mem_append_left qs hp)]

theorem Edits.ended {buf buf' : List UInt8} {ps : List Nat} (h : Edits buf buf' ps) {p : Nat}
    (hp : 0 ∈ buf.drop p) : 0 ∈ buf'.drop p := by
  obtain ⟨i, hlo, _, hi⟩ := exists_nul_of_mem_drop hp
  apply List.mem_of_getElem? (i := i - p)
  rw [List.getElem?_drop, Nat.add_sub_cancel' hlo]
  exact h.nuls i hi

theorem getElem?_stringIn {buf : List UInt8} {p j : Nat} (h : j < (stringIn buf p).length) :
    buf[p + j]? = (stringIn buf p)[j]? := by
  obtain ⟨rest, hrest⟩ := List.takeWhile_prefix (l := buf.drop p) (· != 0)
  rw [← List.getElem?_drop, ← hrest]
  exact List.getElem?_append_left h

/-- The NULs before a NUL at `i` decide. -/
theorem stringIn_eq_take {buf : List UInt8} {p i : Nat} (hp : p ≤ i) (hi : buf[i]? = some 0) :
    stringIn buf p = ((buf.drop p).take (i - p)).takeWhile (· != 0) := by
  have hdrop : (buf.drop p).drop (i - p) = 0 :: buf.drop (i + 1) := by
    rw [List.drop_drop, Nat.add_sub_cancel' hp, @List.drop_eq_getElem?_toList_append _ _ i, hi]
    rfl
  calc stringIn buf p
      = ((buf.drop p).take (i - p) ++ 0 :: buf.drop (i + 1)).takeWhile (· != 0) := by
        rw [← hdrop, List.take_append_drop]
        rfl
    _ = ((buf.drop p).take (i - p)).takeWhile (· != 0) := takeWhile_append_nul _ _

/-- The string has ended at a NUL. -/
theorem stringIn_le_of_nul {buf : List UInt8} {p i : Nat} (hp : p ≤ i) (hi : buf[i]? = some 0) :
    p + (stringIn buf p).length ≤ i := by
  by_contra hlt
  have hinside : i - p < (stringIn buf p).length := by omega
  have hchar := getElem?_stringIn hinside
  rw [Nat.add_sub_cancel' hp, hi] at hchar
  exact nul_not_mem_stringIn buf p (List.mem_of_getElem? hchar.symm)

/-- A change inside the string is an edit of it. -/
theorem edits_of_inside {buf buf' : List UInt8} {p : Nat}
    (h : ∀ i : Nat, i < p ∨ p + (stringIn buf p).length ≤ i → buf'[i]? = buf[i]?) :
    Edits buf buf' [p] := by
  constructor
  · intro i hi
    by_cases hp : p ≤ i
    · rw [h i (Or.inr (stringIn_le_of_nul hp hi)), hi]
    · rw [h i (Or.inl (by omega)), hi]
  · intro q hapart
    rcases hapart p List.mem_cons_self with ⟨i, hpi, hiq, hi⟩ | ⟨i, hqi, hip, hi⟩
    · -- the other string starts behind the end of this one
      have hend := stringIn_le_of_nul hpi hi
      have hdrop : buf'.drop q = buf.drop q := by
        apply List.ext_getElem?
        intro j
        rw [List.getElem?_drop, List.getElem?_drop, h (q + j) (Or.inr (by omega))]
      unfold stringIn
      rw [hdrop]
    · -- the other string ends before this one starts
      have hi' : buf'[i]? = some 0 := by rw [h i (Or.inl hip), hi]
      have htake : (buf'.drop q).take (i - q) = (buf.drop q).take (i - q) := by
        apply List.ext_getElem?
        intro j
        by_cases hj : j < i - q
        · rw [List.getElem?_take_of_lt hj, List.getElem?_take_of_lt hj, List.getElem?_drop,
            List.getElem?_drop, h (q + j) (Or.inl (by omega))]
        · rw [List.getElem?_take_eq_none (by omega), List.getElem?_take_eq_none (by omega)]
      rw [stringIn_eq_take hqi hi', stringIn_eq_take hqi hi, htake]

/-- A NUL follows the string. -/
theorem getElem?_stringIn_end {buf : List UInt8} {p : Nat} (h : 0 ∈ buf.drop p) :
    buf[p + (stringIn buf p).length]? = some 0 := by
  have hsplit := @List.takeWhile_append_dropWhile _ (· != 0) (buf.drop p)
  have hstop := List.head?_dropWhile_not (· != 0) (buf.drop p)
  cases hrest : (buf.drop p).dropWhile (· != 0) with
  | nil =>
      rw [hrest, List.append_nil] at hsplit
      rw [← hsplit] at h
      exact absurd h (nul_not_mem_stringIn buf p)
  | cons c rest =>
      rw [hrest] at hsplit hstop
      have hc : c = 0 := by simpa using hstop
      rw [← List.getElem?_drop, ← hsplit, hc]
      unfold stringIn
      rw [List.getElem?_append_right (Nat.le_refl _), Nat.sub_self, List.getElem?_cons_zero]

theorem overwrite_outside {buf bytes : List UInt8} {p i : Nat} (h : bytes.length ≤ buf.length - p)
    (hi : i < p ∨ p + bytes.length ≤ i) : (overwrite buf p bytes)[i]? = buf[i]? := by
  unfold overwrite
  by_cases hp : p ≤ buf.length
  · have htake : (buf.take p).length = p := List.length_take_of_le hp
    rcases hi with hlo | hhi
    · rw [List.append_assoc, List.getElem?_append_left (by omega), List.getElem?_take_of_lt hlo]
    · rw [List.getElem?_append_right (by rw [List.length_append]; omega), List.length_append,
        List.getElem?_drop, htake, Nat.add_sub_cancel' hhi]
  · have hnil : bytes = [] := List.eq_nil_of_length_eq_zero (by omega)
    rw [hnil, List.append_nil, List.length_nil, Nat.add_zero, List.take_append_drop]

/-- The string is read again after bytes have been stored over it. -/
theorem stringIn_overwrite {buf bytes : List UInt8} {p : Nat} (h : 0 ∈ buf.drop p)
    (hlength : bytes.length = (stringIn buf p).length) :
    stringIn (overwrite buf p bytes) p = bytes.takeWhile (· != 0) := by
  have hend := getElem?_stringIn_end h
  have hlt := (List.getElem?_eq_some_iff.mp hend).1
  have hdrop : (overwrite buf p bytes).drop p =
      bytes ++ 0 :: buf.drop (p + (stringIn buf p).length + 1) := by
    have htake : (buf.take p).length = p := List.length_take_of_le (by omega)
    unfold overwrite
    rw [List.append_assoc]
    calc (buf.take p ++ (bytes ++ buf.drop (p + bytes.length))).drop p
        = (buf.take p ++ (bytes ++ buf.drop (p + bytes.length))).drop (buf.take p).length := by
          rw [htake]
      _ = bytes ++ buf.drop (p + (stringIn buf p).length) := by rw [List.drop_left, hlength]
      _ = bytes ++ 0 :: buf.drop (p + (stringIn buf p).length + 1) := by
          rw [@List.drop_eq_getElem?_toList_append _ _ (p + (stringIn buf p).length), hend]
          rfl
  unfold stringIn at hdrop ⊢
  rw [hdrop]
  exact takeWhile_append_nul bytes _

/-- A NUL stored inside a string cuts it in two. -/
theorem edits_set {buf : List UInt8} {p k : Nat} (hk : k < (stringIn buf p).length) :
    Edits buf (buf.set (p + k) 0) [p] := by
  apply edits_of_inside
  intro i hi
  rw [List.getElem?_set_ne (by omega)]

theorem stringIn_set {buf : List UInt8} {p k : Nat} (hk : k < (stringIn buf p).length) :
    stringIn (buf.set (p + k) 0) p = (stringIn buf p).take k := by
  have hchar := getElem?_stringIn hk
  have hlt : p + k < buf.length := by
    rw [List.getElem?_eq_getElem hk] at hchar
    exact (List.getElem?_eq_some_iff.mp hchar).1
  have hnul : (buf.set (p + k) 0)[p + k]? = some 0 := by
    rw [List.getElem?_set_self hlt]
  have htake : ((buf.set (p + k) 0).drop p).take (p + k - p) = (stringIn buf p).take k := by
    apply List.ext_getElem?
    intro j
    rw [Nat.add_sub_cancel_left]
    by_cases hj : j < k
    · rw [List.getElem?_take_of_lt hj, List.getElem?_take_of_lt hj, List.getElem?_drop,
        List.getElem?_set_ne (by omega), getElem?_stringIn (by omega)]
    · rw [List.getElem?_take_eq_none (by omega), List.getElem?_take_eq_none (by omega)]
  rw [stringIn_eq_take (Nat.le_add_right p k) hnul, htake]
  exact takeWhile_of_no_nul fun h => nul_not_mem_stringIn buf p (List.mem_of_mem_take h)

/-- From inside the string on the rest of it is read. -/
theorem stringIn_add {buf : List UInt8} {p n : Nat} (h : n ≤ (stringIn buf p).length) :
    stringIn buf (p + n) = (stringIn buf p).drop n := by
  unfold stringIn at h ⊢
  rw [← List.drop_drop]
  generalize buf.drop p = text at h ⊢
  induction n generalizing text with
  | zero => rfl
  | succ n ih =>
      cases text with
      | nil => rfl
      | cons c text =>
          by_cases hc : (c != 0) = true
          · rw [List.takeWhile_cons, if_pos hc] at h ⊢
            exact ih text (Nat.le_of_succ_le_succ h)
          · rw [List.takeWhile_cons, if_neg hc] at h
            cases h

theorem stringIn_set_right {buf : List UInt8} {p k : Nat} (hk : k < (stringIn buf p).length) :
    stringIn (buf.set (p + k) 0) (p + k + 1) = (stringIn buf p).drop (k + 1) := by
  rw [← stringIn_add hk, Nat.add_assoc]
  unfold stringIn
  rw [List.drop_set_of_lt (by omega)]

end Foundation
