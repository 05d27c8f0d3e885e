import Mathlib.Logic.Function.Basic
import Milo.Foundation.CanonicalCode

/-! # Building decoding tables

`huft_build` turns a list of code lengths into a tree of tables that are looked up
with several bits at once. A table is written `j` bits at a time: a code that is
shorter than what its table is looked up with fills every slot that starts with it,
and longer codes go through a further table.
-/

namespace Milo.Zip

open Foundation

/-- The union of `struct huft`. A table is known by its number. -/
inductive HuftValue where
  | n (value : Nat)
  | t (table : Nat)
  deriving DecidableEq

/-- `struct huft` -/
structure Huft where
  e : Nat
  b : Nat
  v : HuftValue
  deriving DecidableEq

/-- The entries behind the link word of a table. -/
structure HuftTable where
  size : Nat
  entry : Nat → Huft

/-- The slots of one table each; the first table is the one to start with. -/
abbrev HuftTables := List HuftTable

def bmax : Nat := 16

/-! ## Lengths -/

/-- `for (j = 1; j <= BMAX; j++) if (c[j]) break;`, from `j` on. -/
def firstUsed (c : Nat → Nat) (j : Nat) : Nat → Nat
  | 0 => j
  | left + 1 => if c j ≠ 0 then j else firstUsed c (j + 1) left

/-- `for (i = BMAX; i; i--) if (c[i]) break;`, from `i` on. -/
def lastUsed (c : Nat → Nat) : Nat → Nat
  | 0 => 0
  | i + 1 => if c (i + 1) ≠ 0 then i + 1 else lastUsed c i

def minLength (c : Nat → Nat) : Nat := firstUsed c 1 bmax

def maxLength (c : Nat → Nat) : Nat := lastUsed c bmax

/-- `l`, from the value that `*m` has at first. -/
def lookupBits (c : Nat → Nat) (m : Nat) : Nat :=
  let l := if m < minLength c then minLength c else m
  if l > maxLength c then maxLength c else l

/-- The loop over `y`, `left` lengths before the last one; none if there are more
codes than bits. -/
def dummyCodes (c : Nat → Nat) : Nat → Nat → Nat → Option Nat
  | 0, j, y => if y < c j then none else some (y - c j)
  | left + 1, j, y => if y < c j then none else dummyCodes c left (j + 1) (2 * (y - c j))

/-- `y` at the end of the loop. -/
def dummies (c : Nat → Nat) : Option Nat :=
  dummyCodes c (maxLength c - minLength c) (minLength c) (2 ^ minLength c)

/-! ## Values in order of length -/

/-- `x[k]` for the value table: where the values of length `k` start. -/
def offset (c : Nat → Nat) : Nat → Nat
  | 0 => 0
  | k + 1 => if k = 0 then 0 else offset c k + c k

/-- `if ((j = *p++) != 0) v[x[j]++] = i;`, from value `i` on. -/
def sortValues : List Nat → Nat → (Nat → Nat) → (Nat → Nat) → Nat → Nat
  | [], _, _, v => v
  | j :: p, i, x, v =>
      if j ≠ 0 then
        sortValues p (i + 1) (Function.update x j (x j + 1)) (Function.update v (x j) i)
      else sortValues p (i + 1) x v

/-! ## Entries -/

/-- A store into a table. -/
def HuftTable.store (table : HuftTable) (j : Nat) (r : Huft) : Option HuftTable :=
  if j < table.size then some { table with entry := Function.update table.entry j r } else none

/-- `for (j = i >> w; j < z; j += f) q[j] = r;`, at most `left` times. -/
def fillEntries (r : Huft) (f z : Nat) : Nat → Nat → (Nat → Huft) → Nat → Huft
  | 0, _, q => q
  | left + 1, j, q =>
      if j < z then fillEntries r f z left (j + f) (Function.update q j r) else q

/-- `for (j = 1 << (k - 1); i & j; j >>= 1) i ^= j; i ^= j;` -/
def backInc : Nat → Nat → Nat
  | 0, i => i
  | k + 1, i => if i.testBit k then backInc k (i ^^^ 2 ^ k) else i ^^^ 2 ^ k

/-- `while (++j < z) …`, at most `left` times. -/
def smallerTable (c : Nat → Nat) (z : Nat) : Nat → Nat → Nat → Nat → Nat
  | 0, j, _, _ => j + 1
  | left + 1, j, xp, f =>
      if j + 1 < z then
        if 2 * f ≤ c (xp + 1) then j + 1
        else smallerTable c z left (j + 1) (xp + 1) (2 * f - c (xp + 1))
      else j + 1

/-- The bits of a new table for a code of length `k`, `a` more of which are left,
when `w` bits lie before the table. -/
def tableBits (c : Nat → Nat) (l g w k a : Nat) : Nat :=
  let z := if g - w > l then l else g - w
  if 2 ^ (k - w) > a + 1 then smallerTable c z z (k - w) k (2 ^ (k - w) - (a + 1)) else k - w

/-- The variables of the loop over the codes. `depth` is `h + 1`, so that `w` is
`l * (depth - 1)`; a table is known by its number. -/
structure Builder where
  i : Nat
  depth : Nat
  x : Nat → Nat
  u : Nat → Nat
  q : Nat
  z : Nat
  p : Nat
  r : Huft
  tables : HuftTables

section
variable (n s : Nat) (d e : List Nat) (v : Nat → Nat)

/-- The entry for the code at `p`, which has `bits` bits in its table, and `p`
behind it. A value that has never been stored may lead past the lists. -/
def codeEntry (old : Huft) (p bits : Nat) : Option (Huft × Nat) :=
  if p ≥ n then some ({ old with e := 99, b := bits }, p)
  else if v p < s then some (⟨if v p < 256 then 16 else 15, bits, .n (v p)⟩, p + 1)
  else do
    let extra ← e[v p - s]?
    let base ← d[v p - s]?
    return (⟨extra % 256, bits, .n base⟩, p + 1)

variable (c : Nat → Nat) (l g : Nat) (fresh : Nat → Nat → Huft)

/-- One turn of `while (k > w + l)`; `fresh` is what an allocated table holds. -/
def openTable (k a : Nat) (st : Builder) : Option Builder :=
  let w := l * st.depth
  let j := tableBits c l g w k a
  let q := st.tables.length
  let table : HuftTable := ⟨2 ^ j, fresh q⟩
  if st.depth = 0 then
    some { st with
      depth := 1, q := q, z := 2 ^ j, u := Function.update st.u 0 q, tables := st.tables ++ [table] }
  else do
    let r : Huft := ⟨16 + j, l, .t q⟩
    let upper ← st.tables[st.u (st.depth - 1)]?
    let upper ← upper.store (st.i >>> (w - l)) r
    return { st with
      depth := st.depth + 1, q := q, z := 2 ^ j, r := r
      x := Function.update st.x st.depth st.i
      u := Function.update st.u st.depth q
      tables := st.tables.set (st.u (st.depth - 1)) upper ++ [table] }

/-- `while (k > w + l)`, at most `left` times. -/
def openTables (k a : Nat) : Nat → Builder → Option Builder
  | 0, st => some st
  | left + 1, st =>
      if k > l * st.depth then (openTable c l g fresh k a st).bind (openTables k a left) else some st

/-- `while ((i & ((1 << w) - 1)) != x[h])`, as a number of tables that stay open. -/
def backUp (i : Nat) (x : Nat → Nat) : Nat → Nat
  | 0 => 0
  | h + 1 => if i &&& (2 ^ (l * h) - 1) ≠ x h then backUp i x h else h + 1

/-- One turn of `while (a--)`. -/
def placeCode (k a : Nat) (st : Builder) : Option Builder := do
  let st ← openTables c l g fresh k a k st
  let w := l * (st.depth - 1)
  let (r, p) ← codeEntry n s d e v st.r st.p (k - w)
  let table ← st.tables[st.q]?
  let filled : HuftTable :=
    { table with entry := fillEntries r (2 ^ (k - w)) st.z st.z (st.i >>> w) table.entry }
  let i := backInc k st.i
  return { st with
    i := i, p := p, r := r, tables := st.tables.set st.q filled, depth := backUp l i st.x st.depth }

/-- `while (a--)` -/
def placeCodes (k : Nat) : Nat → Builder → Option Builder
  | 0, st => some st
  | a + 1, st => (placeCode n s d e v c l g fresh k a st).bind (placeCodes k a)

/-- `for (; k <= g; k++)`, for `left` lengths. -/
def placeLengths : Nat → Nat → Builder → Option Builder
  | 0, _, st => some st
  | left + 1, k, st =>
      (placeCodes n s d e v c l g fresh k (c k) st).bind (placeLengths left (k + 1))

end

/-- What `huft_build` returns, `*t` as the tables it made (none for `NULL`), `*m`. -/
structure HuftResult where
  code : Nat
  tables : HuftTables
  m : Nat

/-- `huft_build`, for at least one length. `stale` is what `v` holds before, and
`fresh` what a new table holds. -/
def huftBuild (stale : Nat → Nat) (fresh : Nat → Nat → Huft) (b : List Nat) (s : Nat)
    (d e : List Nat) (m : Nat) : Option HuftResult :=
  let c : Nat → Nat := fun k => b.count k
  if c 0 = b.length then some ⟨0, [], 0⟩
  else
    let l := lookupBits c m
    let g := maxLength c
    let k := minLength c
    match dummies c with
    | none => some ⟨2, [], l⟩
    | some y => do
        let v := sortValues b 0 (offset c) stale
        let c := Function.update c g (c g + y)
        let st ← placeLengths b.length s d e v c l g fresh (g + 1 - k) k
          ⟨0, 0, fun _ => 0, fun _ => 0, 0, 0, 0, ⟨0, 0, .n 0⟩, []⟩
        return ⟨if y ≠ 0 ∧ g ≠ 1 then 1 else 0, st.tables, l⟩

end Milo.Zip
