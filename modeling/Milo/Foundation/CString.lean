import Mathlib.Logic.Function.Basic
import Milo.Foundation.ByteMemory

/-! # C strings in byte memory

A string is a list of bytes without a NUL. The string functions of C are the
bytes they store, one after the other, so that what a call writes and what it
leaves can both be read off.
-/

namespace Foundation

/-- A string with its NUL fits in the address space. -/
structure CString where
  chars : List UInt8
  noNul : 0 ∉ chars
  fits : chars.length + 1 < 2 ^ 64
  deriving DecidableEq

/-- The bytes of a string in memory. -/
def CString.bytes (s : CString) : List UInt8 := s.chars ++ [0]

/-- Memory holds the bytes at `a`. -/
def HoldsBytes (mem : ByteMemory) (a : Nat) (bytes : List UInt8) : Prop :=
  ∀ i b, bytes[i]? = some b → mem (a + i) = b

/-! ## Stores -/

abbrev ByteStore := Nat × UInt8

def store (mem : ByteMemory) (stores : List ByteStore) : ByteMemory :=
  stores.foldl (fun mem s => Function.update mem s.1 s.2) mem

/-- The bytes stored one after the other from `a` on. -/
def storesAt (a : Nat) : List UInt8 → List ByteStore
  | [] => []
  | b :: bs => (a, b) :: storesAt (a + 1) bs

theorem store_append (mem : ByteMemory) (s t : List ByteStore) :
    store mem (s ++ t) = store (store mem s) t := List.foldl_append

theorem storesAt_append (a : Nat) (bytes more : List UInt8) :
    storesAt a (bytes ++ more) = storesAt a bytes ++ storesAt (a + bytes.length) more := by
  induction bytes generalizing a with
  | nil => rfl
  | cons b bytes ih =>
      rw [List.cons_append, storesAt, storesAt, ih, List.cons_append, List.length_cons,
        Nat.add_assoc, Nat.add_comm 1]

theorem mem_storesAt {a x : Nat} {bytes : List UInt8} :
    (∃ b, (x, b) ∈ storesAt a bytes) ↔ x ∈ (⟨a, bytes.length⟩ : Span) := by
  induction bytes generalizing a with
  | nil => simp [storesAt]
  | cons b bs ih =>
      simp only [storesAt, List.mem_cons, Prod.mk.injEq, exists_or, ih, Span.mem_mk,
        List.length_cons, exists_and_left, exists_eq, and_true]
      omega

/-- Only addresses that are stored to change. -/
theorem store_unwritten (mem : ByteMemory) {stores : List ByteStore} {x : Nat}
    (h : ∀ b, (x, b) ∉ stores) : store mem stores x = mem x := by
  induction stores generalizing mem with
  | nil => rfl
  | cons s stores ih =>
      have hx : x ≠ s.1 := by
        rintro rfl
        exact h s.2 List.mem_cons_self
      have hrest := ih (Function.update mem s.1 s.2) fun b hb => h b (List.mem_cons_of_mem s hb)
      rw [Function.update_of_ne hx] at hrest
      exact hrest

theorem store_outside (mem : ByteMemory) (a : Nat) (bytes : List UInt8) {x : Nat}
    (h : x ∉ (⟨a, bytes.length⟩ : Span)) : store mem (storesAt a bytes) x = mem x :=
  store_unwritten mem fun b hb => h (mem_storesAt.mp ⟨b, hb⟩)

theorem store_holds (mem : ByteMemory) (a : Nat) (bytes : List UInt8) :
    HoldsBytes (store mem (storesAt a bytes)) a bytes := by
  induction bytes generalizing a mem with
  | nil => exact fun i b hb => by simp at hb
  | cons b bs ih =>
      intro i c hc
      cases i with
      | zero =>
          have hfirst := store_outside (Function.update mem a b) (a + 1) bs (x := a)
            (by rw [Span.mem_mk]; omega)
          rw [Function.update_self] at hfirst
          have hbc : b = c := by simpa using hc
          exact hfirst.trans hbc
      | succ i =>
          have hrest := ih (Function.update mem a b) (a + 1) i c (by simpa using hc)
          rwa [show a + 1 + i = a + (i + 1) by omega] at hrest

/-! ## Held bytes -/

theorem HoldsBytes.append {mem : ByteMemory} {a : Nat} {xs ys : List UInt8} :
    HoldsBytes mem a (xs ++ ys) ↔ HoldsBytes mem a xs ∧ HoldsBytes mem (a + xs.length) ys := by
  constructor
  · intro h
    refine ⟨fun i b hb => ?_, fun i b hb => ?_⟩
    · refine h i b ?_
      rw [List.getElem?_append_left (List.getElem?_eq_some_iff.mp hb).1]
      exact hb
    · rw [show a + xs.length + i = a + (xs.length + i) by omega]
      refine h (xs.length + i) b ?_
      rw [List.getElem?_append_right (Nat.le_add_right _ _), Nat.add_sub_cancel_left]
      exact hb
  · rintro ⟨hx, hy⟩ i b hb
    by_cases hi : i < xs.length
    · rw [List.getElem?_append_left hi] at hb
      exact hx i b hb
    · rw [List.getElem?_append_right (by omega)] at hb
      have hlater := hy (i - xs.length) b hb
      rwa [show a + xs.length + (i - xs.length) = a + i by omega] at hlater

/-- Only the bytes at the place matter. -/
theorem HoldsBytes.isPrefix_iff {mem : ByteMemory} {a : Nat} {xs ys : List UInt8}
    (h : HoldsBytes mem a ys) (hle : xs.length ≤ ys.length) : HoldsBytes mem a xs ↔ xs <+: ys := by
  rw [List.prefix_iff_getElem?]
  constructor
  · intro hxs i hi
    have hheld := h i _ (List.getElem?_eq_getElem (Nat.lt_of_lt_of_le hi hle))
    rw [List.getElem?_eq_getElem (Nat.lt_of_lt_of_le hi hle), ← hheld,
      hxs i _ (List.getElem?_eq_getElem hi)]
  · intro hbegins i b hb
    obtain ⟨hi, rfl⟩ := List.getElem?_eq_some_iff.mp hb
    exact h i _ (hbegins i hi)

theorem HoldsBytes.congr {mem mem' : ByteMemory} {a : Nat} {bytes : List UInt8}
    (h : HoldsBytes mem a bytes)
    (hsame : ∀ x ∈ (⟨a, bytes.length⟩ : Span), mem' x = mem x) : HoldsBytes mem' a bytes := by
  intro i b hb
  have hi := (List.getElem?_eq_some_iff.mp hb).1
  rw [hsame (a + i) (Span.mem_mk.mpr (by omega))]
  exact h i b hb

theorem HoldsBytes.first_ne_nul {mem : ByteMemory} {a : Nat} {bytes : List UInt8}
    (h : HoldsBytes mem a bytes) (hne : bytes ≠ []) (hnul : 0 ∉ bytes) : mem a ≠ 0 := by
  obtain ⟨b, bs, rfl⟩ := List.exists_cons_of_ne_nil hne
  have hfirst : mem a = b := h 0 b rfl
  rintro hzero
  exact hnul (by simp [← hfirst, hzero])

/-- Bytes up to a terminator that does not occur before are determined. -/
theorem HoldsBytes.terminated_unique {mem : ByteMemory} {a : Nat} {xs ys : List UInt8} {c : UInt8}
    (hx : HoldsBytes mem a (xs ++ [c])) (hy : HoldsBytes mem a (ys ++ [c])) (hcx : c ∉ xs)
    (hcy : c ∉ ys) : xs = ys := by
  induction xs generalizing a ys with
  | nil =>
      cases ys with
      | nil => rfl
      | cons y ys =>
          have hcy' : y = c := (hy 0 y rfl).symm.trans (hx 0 c rfl)
          exact absurd List.mem_cons_self (hcy' ▸ hcy)
  | cons x xs ih =>
      cases ys with
      | nil =>
          have hcx' : x = c := (hx 0 x rfl).symm.trans (hy 0 c rfl)
          exact absurd List.mem_cons_self (hcx' ▸ hcx)
      | cons y ys =>
          have hsame : x = y := (hx 0 x rfl).symm.trans (hy 0 y rfl)
          have htail : ∀ zs : List UInt8, ∀ z, HoldsBytes mem a (z :: zs) →
              HoldsBytes mem (a + 1) zs := by
            intro zs z hz
            rw [← List.singleton_append, HoldsBytes.append] at hz
            exact hz.2
          rw [hsame, ih (htail _ _ hx) (htail _ _ hy) (fun h => hcx (List.mem_cons_of_mem x h))
            (fun h => hcy (List.mem_cons_of_mem y h))]

/-- Bytes without a NUL end before the next NUL. -/
theorem HoldsBytes.ends_before {mem : ByteMemory} {a z : Nat} {bytes : List UInt8}
    (h : HoldsBytes mem a bytes) (hnul : 0 ∉ bytes) (haz : a ≤ z) (hz : mem z = 0) :
    a + bytes.length ≤ z := by
  by_contra hover
  have hin : z - a < bytes.length := by omega
  have hbyte := h (z - a) bytes[z - a] (List.getElem?_eq_getElem hin)
  rw [Nat.add_sub_cancel' haz, hz] at hbyte
  exact hnul (hbyte ▸ List.getElem_mem hin)

/-! ## The string functions -/

/-- `strlen`, over a string that fits in the address space. -/
def strlenUpTo (mem : ByteMemory) (a : Nat) : Nat → Nat
  | 0 => 0
  | n + 1 => if mem a = 0 then 0 else strlenUpTo mem (a + 1) n + 1

def strlen (mem : ByteMemory) (a : Nat) : Nat := strlenUpTo mem a (2 ^ 64)

/-- The string at `a`. -/
def stringAt (mem : ByteMemory) (a : Nat) : List UInt8 :=
  (List.range (strlen mem a)).map fun i => mem (a + i)

/-- `strcpy(dst, s)` -/
def strcpy (dst : Nat) (s : CString) : List ByteStore := storesAt dst s.bytes

/-- `strcat(dst, s)` -/
def strcat (mem : ByteMemory) (dst : Nat) (s : CString) : List ByteStore :=
  storesAt (dst + strlen mem dst) s.bytes

/-- `strncmp(a, s, n)` -/
def strncmp (mem : ByteMemory) (a : Nat) (s : List UInt8) : Nat → Int
  | 0 => 0
  | n + 1 =>
      if mem a ≠ s.headD 0 then (if mem a < s.headD 0 then -1 else 1)
      else if mem a = 0 then 0
      else strncmp mem (a + 1) s.tail n

theorem strlenUpTo_eq {mem : ByteMemory} {a n : Nat} {s : List UInt8} (hnul : 0 ∉ s)
    (hn : s.length < n) (h : HoldsBytes mem a (s ++ [0])) : strlenUpTo mem a n = s.length := by
  induction s generalizing a n with
  | nil =>
      obtain ⟨n, rfl⟩ := Nat.exists_eq_add_of_lt hn
      have hend : mem a = 0 := h 0 0 rfl
      rw [show [].length + n + 1 = n + 1 by simp, strlenUpTo, if_pos hend]
      rfl
  | cons b bs ih =>
      obtain ⟨n, rfl⟩ := Nat.exists_eq_add_of_lt hn
      have hfirst : mem a = b := h 0 b rfl
      have hne : mem a ≠ 0 := by
        rintro hzero
        exact hnul (by simp [← hfirst, hzero])
      have hrest : HoldsBytes mem (a + 1) (bs ++ [0]) := by
        intro i c hc
        have hlater := h (i + 1) c hc
        rwa [show a + (i + 1) = a + 1 + i by omega] at hlater
      rw [strlenUpTo, if_neg hne, ih (fun hb => hnul (List.mem_cons_of_mem b hb))
        (by rw [List.length_cons]; omega) hrest, List.length_cons]

theorem strlen_eq {mem : ByteMemory} {a : Nat} {s : List UInt8} (hnul : 0 ∉ s)
    (hfits : s.length < 2 ^ 64) (h : HoldsBytes mem a (s ++ [0])) : strlen mem a = s.length :=
  strlenUpTo_eq hnul hfits h

theorem stringAt_eq {mem : ByteMemory} {a : Nat} {s : List UInt8} (hnul : 0 ∉ s)
    (hfits : s.length < 2 ^ 64) (h : HoldsBytes mem a (s ++ [0])) : stringAt mem a = s := by
  rw [stringAt, strlen_eq hnul hfits h]
  apply List.ext_getElem?
  intro i
  by_cases hi : i < s.length
  · rw [List.getElem?_map, List.getElem?_range hi, List.getElem?_eq_getElem hi, Option.map_some,
      (HoldsBytes.append.mp h).1 i s[i] (List.getElem?_eq_getElem hi)]
  · rw [List.getElem?_eq_none (by simpa using Nat.le_of_not_lt hi),
      List.getElem?_eq_none (Nat.le_of_not_lt hi)]

theorem strlenUpTo_congr {mem mem' : ByteMemory} {a z n : Nat} (haz : a ≤ z) (hz : mem z = 0)
    (hsame : ∀ x ≤ z, mem' x = mem x) :
    strlenUpTo mem' a n = strlenUpTo mem a n ∧ a + strlenUpTo mem a n ≤ z := by
  induction n generalizing a with
  | zero => exact ⟨rfl, haz⟩
  | succ n ih =>
      rw [strlenUpTo, strlenUpTo, hsame a haz]
      by_cases hend : mem a = 0
      · rw [if_pos hend, if_pos hend]
        exact ⟨rfl, haz⟩
      · have hne : a ≠ z := fun h => hend (h ▸ hz)
        obtain ⟨hlen, hle⟩ := ih (a := a + 1) (by omega)
        rw [if_neg hend, if_neg hend, hlen]
        exact ⟨rfl, by omega⟩

/-- A string that ends before a place is the same in every memory that agrees up
to there. -/
theorem stringAt_congr {mem mem' : ByteMemory} {a z : Nat} (haz : a ≤ z) (hz : mem z = 0)
    (hsame : ∀ x ≤ z, mem' x = mem x) : stringAt mem' a = stringAt mem a := by
  obtain ⟨hlen, hle⟩ := strlenUpTo_congr (n := 2 ^ 64) haz hz hsame
  unfold stringAt strlen
  rw [hlen]
  apply List.map_congr_left
  intro i hi
  have hi' := List.mem_range.mp hi
  exact hsame (a + i) (by omega)

/-- A string is appended where the one before it ends. -/
theorem strcat_eq {mem : ByteMemory} {a : Nat} {xs : List UInt8} (s : CString) (hnul : 0 ∉ xs)
    (hfits : xs.length < 2 ^ 64) (h : HoldsBytes mem a (xs ++ [0])) :
    strcat mem a s = storesAt (a + xs.length) s.bytes := by
  rw [strcat, strlen_eq hnul hfits h]

theorem strcat_holds {mem : ByteMemory} {a : Nat} {xs : List UInt8} (s : CString) (hnul : 0 ∉ xs)
    (hfits : xs.length < 2 ^ 64) (h : HoldsBytes mem a (xs ++ [0])) :
    HoldsBytes (store mem (strcat mem a s)) a (xs ++ s.bytes) := by
  rw [strcat_eq s hnul hfits h, HoldsBytes.append]
  refine ⟨(HoldsBytes.append.mp h).1.congr ?_, store_holds _ _ _⟩
  intro x hx
  apply store_outside
  rw [Span.mem_mk] at hx ⊢
  omega

/-- A string without NUL is compared byte by byte to its end. -/
theorem strncmp_eq_zero_iff {mem : ByteMemory} {a : Nat} {s : List UInt8} (hnul : 0 ∉ s) :
    strncmp mem a s s.length = 0 ↔ HoldsBytes mem a s := by
  induction s generalizing a with
  | nil => simp [strncmp, HoldsBytes]
  | cons b bs ih =>
      have hrest := ih (a := a + 1) (fun hb => hnul (List.mem_cons_of_mem b hb))
      rw [List.length_cons, strncmp, List.headD_cons, List.tail_cons]
      have hcons : HoldsBytes mem a (b :: bs) ↔ mem a = b ∧ HoldsBytes mem (a + 1) bs := by
        rw [← List.singleton_append, HoldsBytes.append]
        simp [HoldsBytes, List.getElem?_singleton]
      rw [hcons]
      by_cases hfirst : mem a = b
      · have hne : mem a ≠ 0 := by
          rintro hzero
          exact hnul (by simp [← hfirst, hzero])
        rw [if_neg (by simpa using hfirst), if_neg hne, hrest]
        simp [hfirst]
      · rw [if_pos hfirst]
        simp only [hfirst, false_and, iff_false]
        split <;> decide

end Foundation
