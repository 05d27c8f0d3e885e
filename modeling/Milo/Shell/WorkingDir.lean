import Mathlib.Data.List.GetD
import Mathlib.Logic.Function.Iterate
import Milo.Boot.DeviceName
import Milo.Foundation.Directories
import Milo.Shell.CommandResidue

/-! # The working directory

Each device keeps its working directory as text, relative to the root.
`path_parse` applies a leading `..` of an argument by cutting the text at its
last slash and puts what is left of the argument behind it.
-/

namespace Milo.Shell

open Foundation
open Milo.Boot (deviceNameToNumber)

/-! ## The text of each device -/

/-- `path_t` -/
structure Path where
  dev : Int
  path : Option (List UInt8)
deriving DecidableEq

/-- The text that `getwd` finds or makes in its list, of which the head is left
out: no command names the device of the head. -/
def getwd (dev : Int) : List Path → List UInt8
  | [] => []
  | wd :: wds => if wd.dev = dev then wd.path.getD [] else getwd dev wds

/-- The list with another text for a device. -/
def setwd (dev : Int) (path : List UInt8) : List Path → List Path
  | [] => [⟨dev, some path⟩]
  | wd :: wds => if wd.dev = dev then ⟨dev, some path⟩ :: wds else wd :: setwd dev path wds

structure Dirs where
  curdev : Int
  wds : List Path
  /-- The variable `BOOT_DEV`, for the device `disk`. -/
  bootDev : List UInt8

/-- The text of the device in use. -/
def Dirs.text (st : Dirs) : List UInt8 := getwd st.curdev st.wds

inductive Message
  | invalidArgument (argument : List UInt8)
  | wrongArgumentCount
  | directory (dev : Int) (path : List UInt8)
deriving DecidableEq

@[simp] theorem getwd_setwd (dev : Int) (path : List UInt8) (wds : List Path) :
    getwd dev (setwd dev path wds) = path := by
  induction wds with
  | nil => simp [setwd, getwd]
  | cons wd wds ih =>
      by_cases hdev : wd.dev = dev
      · simp [setwd, getwd, hdev]
      · simp [setwd, getwd, hdev, ih]

/-! ## Parsing a path -/

/-- Where the search from the end of a text for a slash stops. -/
def lastSlash (path : List UInt8) : Nat → Nat
  | 0 => 0
  | i + 1 => if path.getD (i + 1) 0 = slash then i + 1 else lastSlash path i

/-- The text cut at its last slash. -/
def cutLast (path : List UInt8) : List UInt8 := path.take (lastSlash path path.length)

theorem getD_lastSlash (path : List UInt8) (i : Nat) :
    lastSlash path i = 0 ∨ path.getD (lastSlash path i) 0 = slash := by
  induction i with
  | zero => exact .inl rfl
  | succ i ih =>
      unfold lastSlash
      split
      · rename_i h
        exact .inr h
      · exact ih

theorem getD_above_lastSlash {path : List UInt8} {i k : Nat} (hlow : lastSlash path i < k)
    (hk : k ≤ i) : path.getD k 0 ≠ slash := by
  induction i with
  | zero => omega
  | succ i ih =>
      unfold lastSlash at hlow
      split at hlow
      · omega
      · rename_i h
        rcases Nat.lt_or_ge i k with hik | hki
        · rwa [show k = i + 1 by omega]
        · exact ih hlow hki

/-- The cut is at the last slash, or at the front where there is none. -/
theorem endsAt_cutLast (path : List UInt8) : ∃ last, EndsAt path (cutLast path) last := by
  have habove : slash ∉ path.drop (lastSlash path path.length + 1) := by
    intro hmem
    obtain ⟨k, hk, hget⟩ := List.mem_iff_getElem.mp hmem
    rw [List.length_drop] at hk
    rw [List.getElem_drop] at hget
    have hne : path.getD (lastSlash path path.length + 1 + k) 0 ≠ slash :=
      getD_above_lastSlash (i := path.length) (by omega) (by omega)
    exact hne (by rw [List.getD_eq_getElem _ _ (by omega), hget])
  by_cases hslash : path.getD (lastSlash path path.length) 0 = slash
  · have hlt : lastSlash path path.length < path.length := by
      rcases Nat.lt_or_ge (lastSlash path path.length) path.length with h | h
      · exact h
      · rw [List.getD_eq_default _ _ h] at hslash
        exact absurd hslash (by decide)
    rw [List.getD_eq_getElem _ _ hlt] at hslash
    refine ⟨path.drop (lastSlash path path.length + 1), habove, .inl ?_⟩
    rw [cutLast, ← hslash, ← List.drop_eq_getElem_cons hlt, List.take_append_drop]
  · have hzero : lastSlash path path.length = 0 :=
      (getD_lastSlash path path.length).resolve_right hslash
    refine ⟨path, ?_, .inr ⟨rfl, ?_⟩⟩
    · cases path with
      | nil => simp
      | cons c path =>
          rw [hzero] at hslash habove
          exact List.not_mem_cons_of_ne_of_not_mem (Ne.symm hslash) habove
    · rw [cutLast, hzero, List.take_zero]

/-- The leading `.` and `..` of an argument: the text they leave and the rest of
the argument. -/
def climb (path : List UInt8) : List UInt8 → List UInt8 × List UInt8
  | [0x2e] => (path, [])
  | 0x2e :: 0x2f :: token => climb path token
  | [0x2e, 0x2e] => (cutLast path, [])
  | 0x2e :: 0x2e :: 0x2f :: token => climb (cutLast path) token
  | token => (path, token)

/-- The number of `..` that an argument leads with. -/
def leadingUps : List UInt8 → Nat
  | 0x2e :: 0x2f :: token => leadingUps token
  | [0x2e, 0x2e] => 1
  | 0x2e :: 0x2e :: 0x2f :: token => leadingUps token + 1
  | _ => 0

/-- An argument behind its leading `.` and `..`. -/
def afterUps : List UInt8 → List UInt8
  | [0x2e] => []
  | 0x2e :: 0x2f :: token => afterUps token
  | [0x2e, 0x2e] => []
  | 0x2e :: 0x2e :: 0x2f :: token => afterUps token
  | token => token

theorem climb_eq (text token : List UInt8) :
    climb text token = (cutLast^[leadingUps token] text, afterUps token) := by
  fun_induction climb text token with
  | case1 text => rfl
  | case2 text token ih => rw [ih, leadingUps, afterUps]
  | case3 text => rfl
  | case4 text token ih => rw [ih, leadingUps, afterUps, Function.iterate_succ_apply]
  | case5 text token h1 h2 h3 h4 => 
      simp only [leadingUps, afterUps]
      rfl

/-- `path_parse` behind the device. -/
def parseRest (text token : List UInt8) : List UInt8 :=
  if token.head? = some slash then token.tail
  else
    let (path, token) := climb text token
    if token = [] then path else if path ≠ [] then path ++ slash :: token else token

/-- `path_parse`, with the two bits of `flags`. -/
def pathParse (completeDev completePath : Bool) (st : Dirs) : Option (List UInt8) →
    Path × List Message
  | none =>
      if completeDev then
        (⟨st.curdev, if completePath then some (getwd st.curdev st.wds) else none⟩, [])
      else (⟨0, none⟩, [])
  | some token =>
      if colon ∈ token then
        let name := token.takeWhile (· ≠ colon)
        let rest := (token.dropWhile (· ≠ colon)).tail
        let dev := deviceNameToNumber st.bootDev name
        let messages := if dev < 0 then [Message.invalidArgument name] else []
        if rest = [] ∧ completePath = false then (⟨dev, none⟩, messages)
        else (⟨dev, some (parseRest (getwd dev st.wds) rest)⟩, messages)
      else (⟨st.curdev, some (parseRest (getwd st.curdev st.wds) token)⟩, [])

/-! ## The command -/

/-- What the file systems answer: the channel of `device_mount` for a device and
the handle of `__open` for a path on it. -/
structure Disks where
  mount : Int → Int
  openFile : Int → List UInt8 → Int

/-- `chdev` -/
def chdev (disks : Disks) (st : Dirs) (dev : Int) : Dirs :=
  if disks.mount dev < 0 then st else { st with curdev := dev }

/-- `chdir` -/
def chdir (disks : Disks) (st : Dirs) (dir : Path) : Dirs × List Message :=
  match dir.path with
  | none => (chdev disks st dir.dev, [])
  | some path =>
      if disks.mount dir.dev < 0 ∨ disks.openFile dir.dev path < 0 then
        (st, [.invalidArgument path])
      else ({ st with wds := setwd dir.dev path st.wds }, [])

/-- `cd_parse`, with the tokens behind the command. -/
def cdParse (disks : Disks) (st : Dirs) (tokens : List (List UInt8)) : Dirs × List Message :=
  let (dir, messages) := pathParse false false st tokens.head?
  if dir.dev = 0 ∨ tokens.tail ≠ [] then (st, messages ++ [.wrongArgumentCount])
  else if dir.path = none then (st, messages ++ [.directory dir.dev (getwd dir.dev st.wds)])
  else
    let (st, more) := chdir disks st dir
    (st, messages ++ more)

/-! ## What the text denotes -/

section
variable {ν : Type _} {dirs : Directories ν}

/-- Every `..` that an argument leads with cuts a text that ends in a child of
the directory before it. -/
def CutsChildren (dirs : Directories ν) (text token : List UInt8) : Prop :=
  ∀ i < leadingUps token, dirs.EndsInChild (cutLast^[i] text)

/-- Where an argument starts. -/
def startOf (dirs : Directories ν) (n : ν) (token : List UInt8) : ν :=
  if token.head? = some slash then dirs.root else n

theorem walk_cutLast {text : List UInt8} {n : ν} (hn : dirs.walk dirs.root text = some n)
    (hchild : dirs.EndsInChild text) :
    dirs.walk dirs.root (cutLast text) = some (dirs.parent n) := by
  obtain ⟨last, hat⟩ := endsAt_cutLast text
  exact Directories.walk_before hn hchild hat

/-- A text cut as often as an argument goes up leads to the ancestor. -/
theorem walk_iterate_cutLast {text : List UInt8} {n : ν} {k : Nat}
    (hn : dirs.walk dirs.root text = some n)
    (hchild : ∀ i < k, dirs.EndsInChild (cutLast^[i] text)) :
    dirs.walk dirs.root (cutLast^[k] text) = some (dirs.parent^[k] n) := by
  induction k with
  | zero => exact hn
  | succ k ih =>
      rw [Function.iterate_succ_apply', Function.iterate_succ_apply']
      exact walk_cutLast (ih fun i hi => hchild i (by omega)) (hchild k (by omega))

/-- An argument goes up first and then down along the rest of it. -/
theorem walk_afterUps (n : ν) (token : List UInt8) :
    dirs.walk n token = dirs.walk (dirs.parent^[leadingUps token] n) (afterUps token) := by
  fun_induction leadingUps token generalizing n with
  | case1 token ih => exact (Directories.walk_dot_slash n token).trans (ih n)
  | case2 => rfl
  | case3 token ih =>
      rw [afterUps, Function.iterate_succ_apply]
      exact (Directories.walk_dotdot_slash n token).trans (ih _)
  | case4 token h1 h2 h3 =>
      rw [Function.iterate_zero_apply]
      by_cases hdot : token = [0x2e]
      · rw [hdot]
        rfl
      · rw [afterUps]
        · exact hdot
        · exact h1
        · exact h2
        · exact h3

/-- The text made for an argument leads where the argument leads from the
directory that the old text denotes. -/
theorem walk_parseRest {text token : List UInt8} {n : ν}
    (hn : dirs.walk dirs.root text = some n) (hcuts : CutsChildren dirs text token) :
    dirs.walk dirs.root (parseRest text token) = dirs.walk (startOf dirs n token) token := by
  unfold parseRest startOf
  by_cases habs : token.head? = some slash
  · rw [if_pos habs, if_pos habs]
    cases token with
    | nil => cases habs
    | cons c token =>
        rw [Option.some.inj habs, List.tail_cons, Directories.walk_slash]
  · rw [if_neg habs, if_neg habs, climb_eq, walk_afterUps n token]
    have hup := walk_iterate_cutLast hn hcuts
    simp only
    split
    · rename_i hrest
      rw [hrest, hup, Directories.walk_nil]
    · split
      · rw [Directories.walk_append_slash, hup, Option.bind_some]
      · rename_i hempty
        rw [not_not.mp hempty, Directories.walk_nil] at hup
        rw [Option.some.inj hup]

end

/-! ## Runs of the command -/

/-- The length of a text with a rest of an argument behind it. -/
def joinedLength (path token : List UInt8) : Nat :=
  path.length + token.length + if path = [] ∨ token = [] then 0 else 1

/-- The text made for an argument is shorter than a limit. -/
def Fits (limit : Nat) (text token : List UInt8) : Prop :=
  if token.head? = some slash then token.length ≤ limit
  else joinedLength (cutLast^[leadingUps token] text) (afterUps token) < limit

theorem length_parseRest {limit : Nat} {text token : List UInt8} (h : Fits limit text token) :
    (parseRest text token).length < limit := by
  unfold Fits at h
  unfold parseRest
  split at h
  · rename_i habs
    rw [if_pos habs, List.length_tail]
    have hpos : 0 < token.length := List.length_pos_of_ne_nil (by rintro rfl; cases habs)
    omega
  · rename_i hrel
    rw [if_neg hrel, climb_eq]
    unfold joinedLength at h
    simp only
    split
    · rename_i hrest
      rw [hrest] at h
      simpa using h
    · rename_i hrest
      split
      · rename_i hpath
        rw [if_neg (by simp [hpath, hrest])] at h
        rw [List.length_append, List.length_cons]
        omega
      · omega

/-- A device whose file system opens every path, short enough for its buffer,
that leads to a directory. -/
structure Volume (disks : Disks) (dev : Int) (ν : Type _) where
  dirs : Directories ν
  /-- The size of the buffer that the file system copies a path to. -/
  limit : Nat
  dev_ne_zero : dev ≠ 0
  mounts : 0 ≤ disks.mount dev
  opens : ∀ path n, path.length < limit → dirs.walk dirs.root path = some n →
    0 ≤ disks.openFile dev path

section
variable {disks : Disks} {dev : Int} {ν : Type _}

/-- The directory that a sequence of arguments leads to. -/
def dirAfter (dirs : Directories ν) (n : ν) (args : List (List UInt8)) : Option ν :=
  args.foldlM (fun n arg => dirs.walk (startOf dirs n arg) arg) n

/-- A command that goes up along names only and makes a text that the file system
can take. -/
structure MeetsText (vol : Volume disks dev ν) (st : Dirs) (arg : List UInt8) : Prop where
  cuts : CutsChildren vol.dirs st.text arg
  fits : Fits vol.limit st.text arg

/-- `cd` with one argument. -/
def cd (disks : Disks) (st : Dirs) (arg : List UInt8) : Dirs := (cdParse disks st [arg]).1

def cdRun (disks : Disks) (st : Dirs) (args : List (List UInt8)) : Dirs := args.foldl (cd disks) st

/-- Every command of a run meets the condition on the text it finds. -/
def RunMeetsText (vol : Volume disks dev ν) : Dirs → List (List UInt8) → Prop
  | _, [] => True
  | st, arg :: args => MeetsText vol st arg ∧ RunMeetsText vol (cd disks st arg) args

/-- The device is in use and its text denotes a directory. -/
structure IsAt (vol : Volume disks dev ν) (st : Dirs) (n : ν) : Prop where
  curdev : st.curdev = dev
  walk : vol.dirs.walk vol.dirs.root st.text = some n

theorem pathParse_no_colon {st : Dirs} {token : List UInt8} (completeDev completePath : Bool)
    (h : colon ∉ token) :
    pathParse completeDev completePath st (some token) =
      (⟨st.curdev, some (parseRest st.text token)⟩, []) := if_neg h

theorem isAt_cd {vol : Volume disks dev ν} {st : Dirs} {n m : ν} {arg : List UInt8}
    (hat : IsAt vol st n) (hcolon : colon ∉ arg)
    (hm : vol.dirs.walk (startOf vol.dirs n arg) arg = some m) (hmeets : MeetsText vol st arg) :
    IsAt vol (cd disks st arg) m := by
  have hwalk := (walk_parseRest hat.walk hmeets.cuts).trans hm
  have hopens := vol.opens _ m (length_parseRest hmeets.fits) hwalk
  have hmounts := vol.mounts
  have hcd : cd disks st arg = { st with wds := setwd dev (parseRest st.text arg) st.wds } := by
    unfold cd cdParse
    rw [List.head?_cons, pathParse_no_colon false false hcolon]
    simp only [hat.curdev, chdir]
    rw [if_neg (by simp [vol.dev_ne_zero]), if_neg (by simp), if_neg (by omega)]
  rw [hcd]
  refine ⟨hat.curdev, ?_⟩
  rw [Dirs.text, hat.curdev, getwd_setwd]
  exact hwalk

theorem isAt_cdRun {vol : Volume disks dev ν} {args : List (List UInt8)} {st : Dirs} {n m : ν}
    (hat : IsAt vol st n) (hcolon : ∀ arg ∈ args, colon ∉ arg)
    (hm : dirAfter vol.dirs n args = some m) (hmeets : RunMeetsText vol st args) :
    IsAt vol (cdRun disks st args) m := by
  induction args generalizing st n with
  | nil => rwa [← Option.some.inj hm]
  | cons arg args ih =>
      unfold dirAfter at hm
      rw [List.foldlM_cons] at hm
      obtain ⟨k, hk, hrest⟩ := Option.bind_eq_some_iff.mp hm
      exact ih (isAt_cd hat (hcolon arg List.mem_cons_self) hk hmeets.1)
        (fun a ha => hcolon a (List.mem_cons_of_mem arg ha)) hrest hmeets.2

/-- From an empty text, and as long as every command goes up along names only,
the text denotes the directory that the arguments lead to from the root, and a
later argument is looked for from there. -/
theorem cd_reaches_directory (vol : Volume disks dev ν) (st : Dirs) (args : List (List UInt8))
    (m : ν) (hdev : st.curdev = dev) (htext : st.text = [])
    (hcolon : ∀ arg ∈ args, colon ∉ arg)
    (hm : dirAfter vol.dirs vol.dirs.root args = some m) (hmeets : RunMeetsText vol st args) :
    vol.dirs.walk vol.dirs.root (cdRun disks st args).text = some m ∧
      ∀ completeDev completePath token, colon ∉ token →
        CutsChildren vol.dirs (cdRun disks st args).text token →
        ∃ path, pathParse completeDev completePath (cdRun disks st args) (some token) =
            (⟨dev, some path⟩, []) ∧
          vol.dirs.walk vol.dirs.root path =
            vol.dirs.walk (startOf vol.dirs m token) token := by
  have hat : IsAt vol st vol.dirs.root := ⟨hdev, by rw [htext]; rfl⟩
  have hend := isAt_cdRun hat hcolon hm hmeets
  refine ⟨hend.walk, fun completeDev completePath token hno hcuts => ?_⟩
  refine ⟨_, ?_, walk_parseRest hend.walk hcuts⟩
  rw [pathParse_no_colon completeDev completePath hno, hend.curdev]

end

/-! ## A small tree -/

/-- The directories `a` and `a/b`, numbered behind the root. -/
def twoDirs : Directories Nat where
  root := 0
  parent n := n - 1
  entry n name :=
    if n = 0 ∧ name = [0x61] then some 1 else if n = 1 ∧ name = [0x62] then some 2 else none
  parent_root := rfl

/-- Disks on which every path that leads to a directory can be opened. -/
def openDisks : Disks where
  mount _ := 0
  openFile _ path := if (twoDirs.walk 0 path).isSome then 0 else -1

def openVolume : Volume openDisks 0x801 Nat where
  dirs := twoDirs
  limit := 256
  dev_ne_zero := by decide
  mounts := Int.le_refl 0
  opens path n _ hn := by
    change 0 ≤ if (twoDirs.walk 0 path).isSome then (0 : Int) else -1
    rw [show twoDirs.walk 0 path = some n from hn]
    exact Int.le_refl 0

/-- No device has a text yet. -/
def freshDirs : Dirs := ⟨0x801, [], []⟩

theorem endsInChild_first : twoDirs.EndsInChild [0x61] := by
  rintro before last n ⟨_, hpath | ⟨rfl, rfl⟩⟩ hn
  · have hslash : slash ∈ [0x61] := by rw [hpath]; simp
    exact absurd hslash (by decide)
  · have hroot : n = 0 := (Option.some.inj hn).symm
    subst hroot
    exact ⟨fun _ m hm => by rw [← Option.some.inj hm]; rfl, fun _ => rfl⟩

/-- The directory `a`, its parent, and `a/b`. -/
theorem cd_down_up_down :
    twoDirs.walk 0 (cdRun openDisks freshDirs [[0x61], [0x2e, 0x2e], [0x61, 0x2f, 0x62]]).text =
      some 2 := by
  have hnone : ∀ text token, leadingUps token = 0 → CutsChildren twoDirs text token :=
    fun text token h i hi => by omega
  have hup : CutsChildren twoDirs [0x61] [0x2e, 0x2e] := by
    intro i hi
    have hzero : i = 0 := by
      have : i < 1 := hi
      omega
    subst hzero
    exact endsInChild_first
  have hmeets : RunMeetsText openVolume freshDirs
      [[0x61], [0x2e, 0x2e], [0x61, 0x2f, 0x62]] :=
    ⟨⟨hnone _ _ rfl, by unfold Fits; decide⟩, ⟨hup, by unfold Fits; decide⟩,
      ⟨hnone _ _ rfl, by unfold Fits; decide⟩, trivial⟩
  exact (cd_reaches_directory openVolume freshDirs [[0x61], [0x2e, 0x2e], [0x61, 0x2f, 0x62]] 2 rfl
    rfl (by decide) (by decide) hmeets).1

/-- Behind `a/`, the argument `..` cuts no more than the slash. -/
theorem cd_up_behind_slash :
    dirAfter twoDirs 0 [[0x61, 0x2f], [0x2e, 0x2e]] = some 0 ∧
      (cdRun openDisks freshDirs [[0x61, 0x2f], [0x2e, 0x2e]]).text = [0x61] ∧
      twoDirs.walk 0 [0x61] = some 1 := by decide

end Milo.Shell
