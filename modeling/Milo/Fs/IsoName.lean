import Milo.Fs.IsoTree

/-! # Names on an iso9660 disc

The reader maps the identifier of a record where it lies and compares the result,
with or without its trailing period.
-/

namespace Milo.Fs.Isofs

open Foundation

theorem bytesAt_succ (buf : ByteMemory) (a n : Nat) :
    bytesAt buf a (n + 1) = buf a :: bytesAt buf (a + 1) n := by
  unfold bytesAt
  rw [List.range_succ_eq_map, List.map_cons, List.map_map]
  refine congrArg (buf a :: ·) (List.map_congr_left fun i _ => ?_)
  simp only [Function.comp_apply]
  rw [Nat.add_right_comm, Nat.add_assoc]

theorem bytesAt_congr {buf buf' : ByteMemory} {a a' n : Nat}
    (h : ∀ i < n, buf (a + i) = buf' (a' + i)) : bytesAt buf a n = bytesAt buf' a' n :=
  List.map_congr_left fun i hi => h i (List.mem_range.mp hi)

/-- What can be checked byte by byte. -/
theorem forall_byte {P : UInt8 → Prop} (h : ∀ n < 256, P (UInt8.ofNat n)) (c : UInt8) : P c := by
  have hc := h c.toNat c.toNat_lt
  rwa [UInt8.ofNat_toNat] at hc

theorem toLower_eq_semicolon : ∀ c : UInt8, toLower c = 0x3b ↔ c = 0x3b :=
  forall_byte (by decide +kernel)

theorem toLower_printable : ∀ c : UInt8, 0x20 < c → 0x20 < toLower c :=
  forall_byte (by decide +kernel)

theorem mapIdentifier_printable {identifier : List UInt8} (h : ∀ c ∈ identifier, 0x20 < c) :
    ∀ c ∈ mapIdentifier identifier, 0x20 < c := by
  induction identifier with
  | nil => simp [mapIdentifier]
  | cons c rest ih =>
      intro d hd
      unfold mapIdentifier at hd
      split at hd
      · cases hd
      · rcases List.mem_cons.mp hd with rfl | hd
        · split
          · decide
          · exact toLower_printable c (h c List.mem_cons_self)
        · exact ih (fun e he => h e (List.mem_cons_of_mem c he)) d hd

/-- The mapped name is where the identifier was, and nothing else has changed. -/
theorem mapName_spec (buf : ByteMemory) (dpnt i n : Nat) :
    (mapName buf dpnt (i + n) i n).1 =
        i + (mapIdentifier (bytesAt buf (dpnt + i) n)).length ∧
      bytesAt (mapName buf dpnt (i + n) i n).2 (dpnt + i)
          (mapIdentifier (bytesAt buf (dpnt + i) n)).length =
        mapIdentifier (bytesAt buf (dpnt + i) n) ∧
      ∀ x, (x < dpnt + i ∨ dpnt + i + n ≤ x) → (mapName buf dpnt (i + n) i n).2 x = buf x := by
  induction n generalizing buf i with
  | zero => exact ⟨rfl, rfl, fun _ _ => rfl⟩
  | succ n ih =>
      have hlist := bytesAt_succ buf (dpnt + i) n
      have hstop : (buf (dpnt + i) = 0x3b ∧ i + 2 = i + (n + 1) ∧
          buf (dpnt + (i + 1)) = 0x31) ↔
            (buf (dpnt + i) = 0x3b ∧ bytesAt buf (dpnt + i + 1) n = [0x31]) := by
        refine and_congr_right fun _ => ?_
        constructor
        · intro ⟨hn, hone⟩
          obtain rfl : n = 1 := by omega
          rw [bytesAt_succ, Nat.add_assoc, hone]
          rfl
        · intro heq
          have hn : n = 1 := by simpa [bytesAt] using congrArg List.length heq
          subst hn
          rw [bytesAt_succ, List.cons.injEq] at heq
          exact ⟨rfl, by rw [← Nat.add_assoc]; exact heq.1⟩
      unfold mapName
      rw [hlist, mapIdentifier]
      simp only [toLower_eq_semicolon, hstop]
      split
      · rename_i hver
        have hn : n = 1 := by simpa [bytesAt] using congrArg List.length hver.2
        subst hn
        exact ⟨by simp, rfl, fun _ _ => rfl⟩
      · rename_i hver
        generalize hc : (if buf (dpnt + i) = 0x3b then (0x2e : UInt8) else toLower (buf (dpnt + i))) = c
        have hrest := ih (Function.update buf (dpnt + i) c) (i + 1)
        have haddr : dpnt + (i + 1) = dpnt + i + 1 := (Nat.add_assoc dpnt i 1).symm
        have hlength : i + 1 + n = i + (n + 1) := by omega
        have hsame : bytesAt (Function.update buf (dpnt + i) c) (dpnt + i + 1) n =
            bytesAt buf (dpnt + i + 1) n := by
          refine bytesAt_congr fun j _ => ?_
          rw [Function.update_of_ne (by omega)]
        rw [haddr, hlength, hsame] at hrest
        refine ⟨?_, ?_, ?_⟩
        · rw [hrest.1, List.length_cons]
          omega
        · rw [List.length_cons, bytesAt_succ, hrest.2.2 _ (Or.inl (by omega)), Function.update_self,
            hrest.2.1]
        · intro x hx
          rw [hrest.2.2 x (by omega), Function.update_of_ne (by omega)]

@[simp] theorem bytesAt_length (buf : ByteMemory) (a n : Nat) : (bytesAt buf a n).length = n := by
  simp [bytesAt]

theorem bytesAt_take (buf : ByteMemory) (a : Nat) {k n : Nat} (h : k ≤ n) :
    bytesAt buf a k = (bytesAt buf a n).take k := by
  unfold bytesAt
  rw [← List.map_take, List.take_range, Nat.min_eq_left h]

/-! ## Comparing names -/

/-- A mapped name as it is compared: without its trailing period if that makes it as
long as the name that is looked for. -/
def comparedName (name mapped : List UInt8) : List UInt8 :=
  if mapped.getLast? = some 0x2e ∧ name.length + 1 = mapped.length then mapped.dropLast else mapped

/-- `isofs_match` of what is compared. A single byte of 0 or 1 stands for the
directory or its parent. -/
def nameMatches (name compared : List UInt8) : Bool :=
  if compared = [0] then name == [] || name == dot
  else if compared = [1] then name == dotdot
  else name == compared

theorem singleton_iff (buf : ByteMemory) (a n : Nat) (c : UInt8) :
    (n == 1 && buf a == c) = true ↔ bytesAt buf a n = [c] := by
  rw [Bool.and_eq_true, beq_iff_eq, beq_iff_eq]
  constructor
  · intro ⟨hn, hc⟩
    rw [hn, bytesAt_succ, hc]
    rfl
  · intro h
    have hn : n = 1 := by simpa using congrArg List.length h
    rw [hn, bytesAt_succ, List.cons.injEq] at h
    exact ⟨hn, h.1⟩

theorem isofsMatch_eq (name : List UInt8) (buf : ByteMemory) (compare dlen : Nat) :
    isofsMatch name buf compare dlen = nameMatches name (bytesAt buf compare dlen) := by
  have hspecial : ∀ c : UInt8, (dlen = 1 ∧ buf compare = c) ↔ bytesAt buf compare dlen = [c] := by
    intro c
    rw [← singleton_iff, Bool.and_eq_true, beq_iff_eq, beq_iff_eq]
  unfold isofsMatch nameMatches
  rw [if_congr (hspecial 0) rfl (if_congr (hspecial 1) rfl rfl)]
  rfl

theorem bytesAt_dropPeriod (name : List UInt8) (buf : ByteMemory) (dpnt dlen : Nat) :
    bytesAt buf dpnt (dropPeriod buf dpnt dlen name.length) =
      comparedName name (bytesAt buf dpnt dlen) := by
  have hlast : (dlen ≠ 0 ∧ buf (dpnt + (dlen - 1)) = 0x2e) ↔
      (bytesAt buf dpnt dlen).getLast? = some 0x2e := by
    cases dlen with
    | zero => simp [bytesAt]
    | succ n => simp [bytesAt, List.range_succ]
  unfold dropPeriod comparedName
  rw [bytesAt_length]
  by_cases hdrop : (bytesAt buf dpnt dlen).getLast? = some 0x2e ∧ name.length + 1 = dlen
  · have hboth := hlast.mpr hdrop.1
    rw [if_pos hdrop, if_pos ⟨hboth.1, hboth.2, hdrop.2⟩, bytesAt_take buf dpnt (Nat.sub_le dlen 1),
      List.dropLast_eq_take, bytesAt_length]
  · rw [if_neg hdrop, if_neg fun h => hdrop ⟨hlast.mp ⟨h.1, h.2.1⟩, h.2.2⟩]

/-- Whether a record with an identifier has the name. -/
def nameHits (name identifier : List UInt8) : Bool :=
  if identifier = [0] then name == [] || name == dot
  else if identifier = [1] then name == dotdot
  else decide (NameOf name identifier)

/-- The identifiers of the first two records, and printable ones. -/
def Readable (identifier : List UInt8) : Prop :=
  identifier = [0] ∨ identifier = [1] ∨ ∀ c ∈ identifier, 0x20 < c

/-- A trailing period is dropped exactly where that makes the name match. -/
theorem eq_comparedName_iff (name mapped : List UInt8) :
    name = comparedName name mapped ↔ name = mapped ∨ name ++ [0x2e] = mapped := by
  unfold comparedName
  split
  · rename_i hdrop
    obtain ⟨hlast, hlength⟩ := hdrop
    have hmapped := List.dropLast_append_getLast? 0x2e hlast
    constructor
    · intro h
      right
      rw [h, hmapped]
    · rintro (h | h)
      · rw [h] at hlength
        omega
      · rw [← h, List.dropLast_concat]
  · rename_i hkeep
    refine ⟨Or.inl, fun h => h.resolve_right fun h => hkeep ?_⟩
    rw [← h]
    simp

theorem nameMatches_printable (name : List UInt8) {mapped : List UInt8}
    (hprintable : ∀ c ∈ mapped, 0x20 < c) :
    nameMatches name (comparedName name mapped) =
      decide (name = mapped ∨ name ++ [0x2e] = mapped) := by
  have hother : ∀ c : UInt8, ¬ 0x20 < c → comparedName name mapped ≠ [c] := by
    intro c hc h
    apply hc
    apply hprintable
    have hmem : c ∈ comparedName name mapped := h ▸ List.mem_singleton_self c
    unfold comparedName at hmem
    split at hmem
    · exact List.dropLast_subset mapped hmem
    · exact hmem
  unfold nameMatches
  rw [if_neg (hother 0 (by decide)), if_neg (hother 1 (by decide)), Bool.eq_iff_iff, beq_iff_eq,
    decide_eq_true_iff]
  exact eq_comparedName_iff name mapped

/-- On the identifiers that a disc should have. -/
theorem nameMatches_readable (name : List UInt8) {identifier : List UInt8}
    (hreadable : Readable identifier) :
    nameMatches name (comparedName name (mapIdentifier identifier)) = nameHits name identifier := by
  rcases hreadable with rfl | rfl | hprintable
  · rfl
  · rfl
  · have hother : ∀ c : UInt8, ¬ 0x20 < c → identifier ≠ [c] := by
      rintro c hc rfl
      exact hc (hprintable c (List.mem_singleton_self c))
    rw [nameMatches_printable name (mapIdentifier_printable hprintable)]
    unfold nameHits
    rw [if_neg (hother 0 (by decide)), if_neg (hother 1 (by decide))]
    rfl

/-- Whether a record has a name other than `..`. A mapped name that is a single byte
of 0, with or without a period, stands for the directory, and one that is a single
byte of 1 for its parent. -/
def hasName (name identifier : List UInt8) : Bool :=
  if name = dot then
    decide (NameOf dot identifier ∨ mapIdentifier identifier = [0] ∨
      mapIdentifier identifier = [0, 0x2e])
  else decide (NameOf name identifier ∧ name ≠ [0] ∧ name ≠ [1])

theorem comparedName_zero {name mapped : List UInt8} (h : comparedName name mapped = [0]) :
    mapped = [0] ∨ mapped = [0, 0x2e] := by
  unfold comparedName at h
  split at h
  · rename_i hdrop
    have hmapped := List.dropLast_append_getLast? 0x2e hdrop.1
    rw [h] at hmapped
    exact Or.inr hmapped.symm
  · exact Or.inl h

theorem comparedName_dot_zero {mapped : List UInt8} (h : mapped = [0] ∨ mapped = [0, 0x2e]) :
    comparedName dot mapped = [0] := by
  rcases h with rfl | rfl <;> rfl

theorem nameMatches_eq {name : List UInt8} (identifier : List UInt8) (hname : name ≠ [])
    (hparent : name ≠ dotdot) :
    nameMatches name (comparedName name (mapIdentifier identifier)) =
      hasName name identifier := by
  have hplain := eq_comparedName_iff name (mapIdentifier identifier)
  unfold nameMatches hasName
  rw [Bool.eq_iff_iff]
  by_cases hdot : name = dot
  · subst hdot
    have hself : comparedName dot (mapIdentifier identifier) = [0] ↔
        mapIdentifier identifier = [0] ∨ mapIdentifier identifier = [0, 0x2e] :=
      ⟨comparedName_zero, comparedName_dot_zero⟩
    rw [if_pos rfl, decide_eq_true_iff, ← hself, NameOf, ← hplain]
    split
    · simp_all
    · split
      · rename_i hone
        rw [hone]
        decide
      · simp_all
  · rw [if_neg hdot, decide_eq_true_iff, NameOf, ← hplain]
    split
    · rename_i hzero
      rw [hzero]
      exact iff_of_false (by simp [hname, hdot]) fun h => h.2.1 h.1
    · split
      · rename_i hone
        rw [hone]
        exact iff_of_false (by simp [hparent]) fun h => h.2.2 h.1
      · rename_i hzero hone
        rw [beq_iff_eq]
        constructor
        · intro h
          exact ⟨h, fun h0 => hzero (h ▸ h0), fun h1 => hone (h ▸ h1)⟩
        · exact fun h => h.1

end Milo.Fs.Isofs
