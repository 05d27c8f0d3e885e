import Milo.Timers.TimerRun

/-! # The wheel behind `mod_timer`

`mod_timer` takes a timer out of the list it hangs in and puts it into one of the
buckets of a second structure, five wheels of list heads. A bucket is a pointer
that stands where a timer's `next` would, so it is treated as a timer with that
field alone. Neither `add_timer` nor `do_timer` knows the wheel.
-/

namespace Milo.Timers

open Foundation

inductive Vec where
  | tv1
  | tv2
  | tv3
  | tv4
  | tv5
  deriving DecidableEq

/-- `&tv.vec[i]`, cast to a timer. -/
structure Bucket where
  vec : Vec
  i : UInt64
  deriving DecidableEq

/-- What a pointer to a timer may point to. -/
inductive Entry (T : Type) where
  | timer (t : T)
  | bucket (b : Bucket)
  deriving DecidableEq

abbrev Wheels (T : Type) := TimerState (Entry T)

variable {T : Type}

def timerNode (t : T) : Node (Entry T) := .timer (.timer t)

def bucketNode (b : Bucket) : Node (Entry T) := .timer (.bucket b)

/-! ## The operations -/

/-- `timer_jiffies`, which nothing changes. -/
def timerJiffies : UInt64 := 0

/-- `tv1.index`, which nothing changes. -/
def tv1Index : UInt64 := 0

/-- `TVN_BITS` and `TVR_BITS` -/
def tvnBits : UInt64 := 6
def tvrBits : UInt64 := 8

/-- `TVN_MASK` and `TVR_MASK` -/
def tvnMask : UInt64 := (1 <<< tvnBits) - 1
def tvrMask : UInt64 := (1 <<< tvrBits) - 1

/-- The bucket that `internal_add_timer` chooses, if it chooses one. -/
def bucketFor (expires : UInt64) : Option Bucket :=
  let idx := expires - timerJiffies
  if idx < 1 <<< tvrBits then some ⟨.tv1, expires &&& tvrMask⟩
  else if idx < 1 <<< (tvrBits + tvnBits) then some ⟨.tv2, (expires >>> tvrBits) &&& tvnMask⟩
  else if idx < 1 <<< (tvrBits + 2 * tvnBits) then
    some ⟨.tv3, (expires >>> (tvrBits + tvnBits)) &&& tvnMask⟩
  else if idx < 1 <<< (tvrBits + 3 * tvnBits) then
    some ⟨.tv4, (expires >>> (tvrBits + 2 * tvnBits)) &&& tvnMask⟩
  -- an expiry time in the past, negative as a `signed long`
  else if idx ≥ 0x8000000000000000 then some ⟨.tv1, tv1Index⟩
  else if idx ≤ 0xffffffff then some ⟨.tv5, (expires >>> (tvrBits + 3 * tvnBits)) &&& tvnMask⟩
  else none

section
variable [DecidableEq T]

/-- `insert_timer` -/
def insertTimer (s : Wheels T) (timer : Node (Entry T)) (bucket : Bucket) : Wheels T :=
  let head := s.next (bucketNode bucket)
  let s := s.setNext timer head
  let s :=
    match head with
    | some first => s.setPrev first (some timer)
    | none => s
  let s := s.setNext (bucketNode bucket) (some timer)
  s.setPrev timer (some (bucketNode bucket))

/-- `internal_add_timer` -/
def internalAddTimer (s : Wheels T) (timer : Node (Entry T)) : Wheels T :=
  match bucketFor (s.expires timer) with
  | some bucket => insertTimer s timer bucket
  | none => (s.setPrev timer (some timer)).setNext timer (some timer)

/-- `detach_timer`, without its result. The links of the timer itself stay. -/
def detachTimer (s : Wheels T) (timer : Node (Entry T)) : Wheels T :=
  match s.prev timer with
  | some p =>
      let next := s.next timer
      let s := s.setNext p next
      match next with
      | some n => s.setPrev n (some p)
      | none => s
  | none => s

/-- `mod_timer` -/
def modTimer (s : Wheels T) (timer : T) (expires : UInt64) : Wheels T :=
  let s := s.setExpires (timerNode timer) expires
  internalAddTimer (detachTimer s (timerNode timer)) (timerNode timer)

/-- `del_timer(timer); timer->expires = expires; add_timer(timer)` -/
def delAndAdd (limit : Nat) (s : Wheels T) (timer : T) (expires : UInt64) : Option (Wheels T) := do
  let (s, _) ← delTimer s (timerNode timer)
  addTimer limit (s.setExpires (timerNode timer) expires) (timerNode timer)

end

/-! ## What happens later -/

def Call.onTimer : Call T → Call (Entry T)
  | .add t expires => .add (.timer t) expires
  | .del t => .del (.timer t)

def Input.onTimer : Input T → Input (Entry T)
  | .call c => .call c.onTimer
  | .tick functions => .tick fun k => (functions k).map Call.onTimer

section
variable [DecidableEq T]

/-- The events of later calls and ticks. -/
def later (limit : Nat) (s : Wheels T) (inputs : List (Input T)) :
    Except Stop (List (Event (Entry T))) :=
  ((inputs.map Input.onTimer).foldlM (step limit) ⟨s, []⟩).map Session.events

/-- Whatever is called later, the same timers run at the same time and `del_timer`
returns the same, no matter how the timer was changed. -/
def ModMeansDelAdd (s : Wheels T) (timer : T) (expires : UInt64) : Prop :=
  ∀ inputs : List (Input T), ∃ most, ∀ limit, most < limit →
    (delAndAdd limit s timer expires).map (later limit · inputs) =
      some (later limit (modTimer s timer expires) inputs)

/-- What changes the timers: the three calls, and a tick in its single steps. A
timer's function makes its calls between two of these. -/
inductive Change (T : Type) where
  | add (t : T) (expires : UInt64)
  | del (t : T)
  | mod (t : T) (expires : UInt64)
  | tick
  | expire

/-- One change. A timer that still hangs in a list is not added, and `expire` takes
out the first timer if it is due. -/
def change (limit : Nat) (s : Wheels T) : Change T → Option (Wheels T)
  | .add t expires =>
      if s.next (timerNode t) ≠ none ∨ s.prev (timerNode t) ≠ none then none
      else addTimer limit (s.setExpires (timerNode t) expires) (timerNode t)
  | .del t => (delTimer s (timerNode t)).map Prod.fst
  | .mod t expires => some (modTimer s t expires)
  | .tick => some { s with jiffies := s.jiffies + 1 }
  | .expire =>
      match s.next .timerHead with
      | some p => if p ≠ .timerHead ∧ s.expires p ≤ s.jiffies then unlink s p else none
      | none => none

/-- A state that some order of changes leads to. -/
def Reachable (s : Wheels T) : Prop :=
  ∃ limit changes, run (change limit) initial changes = some s

end

/-! ## The two structures side by side -/

/-- The nodes outside the ring. -/
def Apart (queue : List (Entry T)) (p : Node (Entry T)) : Prop := ∃ u, u ∉ queue ∧ p = .timer u

theorem apart_iff {queue : List (Entry T)} {u : Entry T} :
    Apart queue (.timer u) ↔ u ∉ queue := by
  constructor
  · rintro ⟨v, hv, heq⟩
    exact Node.timer.inj heq ▸ hv
  · exact fun hu => ⟨u, hu, rfl⟩

/-- The ring holds timers alone, and no link leads from the wheel to it. -/
structure Consistent (s : Wheels T) (queue : List (Entry T)) : Prop where
  lists : Lists s queue
  wheel : TwoWay s.next s.prev (Apart queue)
  buckets : ∀ b, .bucket b ∉ queue ∧ s.prev (bucketNode b) = none
  both : ∀ t : T, .timer t ∉ queue → s.next (timerNode t) ≠ none → s.prev (timerNode t) ≠ none

theorem consistent_initial : Consistent (initial : Wheels T) [] where
  lists := initial_holds.lists
  wheel := by
    constructor
    · rintro a ⟨u, -, rfl⟩ b hab
      cases hab
    · rintro b ⟨u, -, rfl⟩ a hba
      cases hba
  buckets b := ⟨List.not_mem_nil, rfl⟩
  both t _ hnext := absurd rfl hnext

theorem timerNode_ne_bucketNode (t : T) (b : Bucket) : timerNode t ≠ bucketNode b := by
  simp [timerNode, bucketNode]

/-- The ring depends on the links of its own nodes. -/
theorem Lists.congr {s s' : Wheels T} {queue : List (Entry T)} (h : Lists s queue)
    (hlinks : ∀ p, ¬ Apart queue p → SameLinks s s' p) (hexpires : s'.expires = s.expires) :
    Lists s' queue where
  ring := by
    have hmember : ∀ p ∈ Node.timerHead :: queue.map .timer ++ [.timerHead], ¬ Apart queue p := by
      intro p hp hapart
      obtain ⟨u, hu, rfl⟩ := hapart
      simp [hu] at hp
    refine isChain_linked_frame h.ring (fun p hp => ?_) fun p hp => ?_
    · exact (hlinks p (hmember p (List.dropLast_subset _ hp))).1
    · exact (hlinks p (hmember p (List.mem_of_mem_tail hp))).2
  nodup := h.nodup
  sorted := by
    rw [hexpires]
    exact h.sorted
  last := by
    rw [hexpires]
    exact h.last

section
variable [DecidableEq T]

/-! ## Taking out -/

/-- The two assignments that `del_timer` makes and `detach_timer` does not. -/
def clearLinks (s : Wheels T) (p : Node (Entry T)) : Wheels T := (s.setPrev p none).setNext p none

/-- The node is taken out of its list, whatever list that is. -/
structure TakenOut (s s' : Wheels T) (x : Node (Entry T)) : Prop where
  next_self : s'.next x = none
  prev_self : s'.prev x = none
  before : ∀ a, s.prev x = some a → a ≠ x → s'.next a = s.next x
  behind : ∀ b, s.next x = some b → b ≠ x → s'.prev b = s.prev x
  next_other : ∀ a, a ≠ x → s.prev x ≠ some a → s'.next a = s.next a
  prev_other : ∀ b, b ≠ x → s.next x ≠ some b → s'.prev b = s.prev b
  expires : s'.expires = s.expires
  jiffies : s'.jiffies = s.jiffies

theorem takenOut_detach {s : Wheels T} {x : Node (Entry T)}
    (hboth : s.next x ≠ none → s.prev x ≠ none) : TakenOut s (clearLinks (detachTimer s x) x) x := by
  unfold detachTimer clearLinks TimerState.setNext TimerState.setPrev
  cases hprev : s.prev x with
  | none =>
      have hnext : s.next x = none := by simpa [hprev] using hboth
      constructor <;> simp +contextual [hprev, hnext]
  | some p =>
      cases hnext : s.next x with
      | none =>
          constructor <;> simp +contextual [hprev, hnext, Function.update_apply]
          grind
      | some n => constructor <;> simp +contextual [hprev, hnext, Function.update_apply] <;> grind

/-- With both links in place `del_timer` does what `detach_timer` does, and clears
the links. -/
theorem unlink_eq_detach {s : Wheels T} {x : Node (Entry T)} (hnext : s.next x ≠ none)
    (hprev : s.prev x ≠ none) : unlink s x = some (clearLinks (detachTimer s x) x) := by
  obtain ⟨n, hn⟩ := Option.ne_none_iff_exists'.mp hnext
  obtain ⟨p, hp⟩ := Option.ne_none_iff_exists'.mp hprev
  have hkept : Function.update s.prev n (some p) x = some p := by
    by_cases hx : x = n
    · rw [hx, Function.update_self]
    · rw [Function.update_of_ne hx, hp]
  simp [unlink, detachTimer, clearLinks, TimerState.setNext, TimerState.setPrev, hn, hp, hkept]

/-- A timer outside the ring leaves the list it hangs in. -/
theorem Consistent.leave_wheel {s s' : Wheels T} {queue : List (Entry T)} {t : T}
    (h : Consistent s queue) (ht : .timer t ∉ queue) (hout : TakenOut s s' (timerNode t)) :
    Consistent s' queue := by
  have hx : Apart queue (timerNode t) := apart_iff.mpr ht
  have hbefore : ∀ a, s.prev (timerNode t) = some a → Apart queue a :=
    fun a ha => (h.wheel.back _ hx a ha).1
  have hbehind : ∀ b, s.next (timerNode t) = some b → Apart queue b :=
    fun b hb => (h.wheel.onward _ hx b hb).1
  refine ⟨h.lists.congr (fun p hp => ?_) hout.expires, ?_, fun b => ⟨(h.buckets b).1, ?_⟩, ?_⟩
  · have hpx : p ≠ timerNode t := fun heq => hp (heq ▸ hx)
    exact ⟨hout.next_other p hpx fun heq => hp (hbefore p heq),
      hout.prev_other p hpx fun heq => hp (hbehind p heq)⟩
  · exact h.wheel.erase hx hout.next_self hout.prev_self hout.before hout.behind hout.next_other
      hout.prev_other
  · by_cases hb : s.next (timerNode t) = some (bucketNode b)
    · -- no link leads on to a bucket, which has no link back
      have hback := (h.wheel.onward _ hx _ hb).2
      rw [(h.buckets b).2] at hback
      cases hback
    · rw [hout.prev_other _ (timerNode_ne_bucketNode t b).symm hb]
      exact (h.buckets b).2
  · intro u hu hnext
    by_cases hut : u = t
    · rw [hut] at hnext
      exact absurd hout.next_self hnext
    · have hne : timerNode u ≠ timerNode t := by simpa [timerNode] using hut
      by_cases hb : s.next (timerNode t) = some (timerNode u)
      · rw [hout.behind _ hb hne]
        exact h.both t ht (by rw [hb]; simp)
      · rw [hout.prev_other _ hne hb]
        apply h.both u hu
        by_cases ha : s.prev (timerNode t) = some (timerNode u)
        · rw [(h.wheel.back _ hx _ ha).2]
          simp
        · rwa [hout.next_other _ hne ha] at hnext

/-- A timer leaves the ring. -/
theorem Consistent.leave_ring {s s' : Wheels T} {queue queue' : List (Entry T)} {t : T}
    (h : Consistent s queue) (hlists : Lists s' queue')
    (hqueue : ∀ u, u ∈ queue ↔ u = .timer t ∨ u ∈ queue') (ht : .timer t ∉ queue')
    (hnext : s'.next (timerNode t) = none) (hprev : s'.prev (timerNode t) = none)
    (hsame : ∀ u, u ∉ queue → SameLinks s s' (.timer u)) : Consistent s' queue' := by
  have hother : ∀ u, u ∉ queue' → u ≠ .timer t → u ∉ queue := by
    intro u hu hut hin
    exact ((hqueue u).mp hin).elim hut hu
  refine ⟨hlists, ?_, fun b => ?_, ?_⟩
  · have hkept : TwoWay s'.next s'.prev (Apart queue) := by
      refine h.wheel.congr ?_ ?_
      · rintro a ⟨u, hu, rfl⟩
        exact (hsame u hu).1
      · rintro a ⟨u, hu, rfl⟩
        exact (hsame u hu).2
    refine hkept.add hnext hprev fun a => ?_
    constructor
    · rintro ⟨u, hu, rfl⟩
      by_cases hut : u = .timer t
      · exact .inr (congrArg Node.timer hut)
      · exact .inl (apart_iff.mpr (hother u hu hut))
    · rintro (⟨u, hu, rfl⟩ | rfl)
      · exact apart_iff.mpr fun hin => hu ((hqueue u).mpr (.inr hin))
      · exact apart_iff.mpr ht
  · have hb := h.buckets b
    have hout : .bucket b ∉ queue' := fun hin => hb.1 ((hqueue _).mpr (.inr hin))
    exact ⟨hout, (hsame _ hb.1).2.trans hb.2⟩
  · intro u hu hset
    by_cases hut : u = t
    · rw [hut] at hset
      exact absurd hnext hset
    · have hout := hother _ hu (by simpa using hut)
      have hlinks := hsame _ hout
      rw [timerNode, hlinks.1] at hset
      rw [timerNode, hlinks.2]
      exact h.both u hout hset

/-- Taken out, and its links cleared, a timer hangs in no list. -/
theorem Consistent.detach {s : Wheels T} {queue : List (Entry T)} (h : Consistent s queue) (t : T) :
    Consistent (clearLinks (detachTimer s (timerNode t)) (timerNode t)) (queue.erase (.timer t)) := by
  by_cases ht : .timer t ∈ queue
  · obtain ⟨hnext, hprev⟩ := h.lists.linked ht
    obtain ⟨xs, ys, rfl⟩ := List.append_of_mem ht
    obtain ⟨s', hrun, hlists, -, -, hnone, hnone', hsame⟩ := unlink_lists h.lists
    obtain rfl : clearLinks (detachTimer s (timerNode t)) (timerNode t) = s' :=
      Option.some.inj ((unlink_eq_detach hnext hprev).symm.trans hrun)
    obtain ⟨-, hys, hapart⟩ := List.nodup_append.mp h.lists.nodup
    have hxs : .timer t ∉ xs := fun hin => hapart _ hin _ List.mem_cons_self rfl
    rw [List.erase_append_right _ hxs, List.erase_cons_head]
    refine h.leave_ring hlists (fun u => by simp only [List.mem_append, List.mem_cons]; grind) ?_
      hnone hnone' hsame
    simp [hxs, (List.nodup_cons.mp hys).1]
  · rw [List.erase_of_not_mem ht]
    exact h.leave_wheel ht (takenOut_detach (h.both t ht))

/-! ## Putting in -/

/-- The links that a timer had make no difference to where it is put. -/
theorem internalAddTimer_clearLinks (s : Wheels T) (t : T) :
    internalAddTimer (clearLinks s (timerNode t)) (timerNode t) =
      internalAddTimer s (timerNode t) := by
  unfold internalAddTimer
  change (match bucketFor (s.expires (timerNode t)) with | some bucket => _ | none => _) = _
  cases bucketFor (s.expires (timerNode t)) with
  | none => simp [clearLinks, TimerState.setNext, TimerState.setPrev]
  | some b =>
      have hb := (timerNode_ne_bucketNode t b).symm
      have hhead : (clearLinks s (timerNode t)).next (bucketNode b) = s.next (bucketNode b) :=
        Function.update_of_ne hb none s.next
      simp only [insertTimer, hhead]
      cases s.next (bucketNode b) with
      | none => simp [clearLinks, TimerState.setNext, TimerState.setPrev]
      | some first =>
          simp only [clearLinks, TimerState.setNext, TimerState.setPrev, Function.update_idem]
          congr 1
          funext p
          simp only [Function.update_apply]
          split
          · rfl
          · rfl

theorem insertTimer_next (s : Wheels T) (x p : Node (Entry T)) (b : Bucket) :
    (insertTimer s x b).next p =
      if p = bucketNode b then some x
      else if p = x then s.next (bucketNode b) else s.next p := by
  unfold insertTimer
  cases s.next (bucketNode b) with
  | none => simp [TimerState.setNext, TimerState.setPrev, Function.update_apply]
  | some first => simp [TimerState.setNext, TimerState.setPrev, Function.update_apply]

theorem insertTimer_prev (s : Wheels T) (x p : Node (Entry T)) (b : Bucket) :
    (insertTimer s x b).prev p =
      if p = x then some (bucketNode b)
      else if s.next (bucketNode b) = some p then some x else s.prev p := by
  unfold insertTimer
  cases s.next (bucketNode b) with
  | none => simp [TimerState.setNext, TimerState.setPrev, Function.update_apply]
  | some first => simp [TimerState.setNext, TimerState.setPrev, Function.update_apply, eq_comm]

theorem insertTimer_expires (s : Wheels T) (x : Node (Entry T)) (b : Bucket) :
    (insertTimer s x b).expires = s.expires ∧ (insertTimer s x b).jiffies = s.jiffies := by
  unfold insertTimer
  cases s.next (bucketNode b) with
  | none => exact ⟨rfl, rfl⟩
  | some first => exact ⟨rfl, rfl⟩

/-- A timer that hangs in no list is put in front of a bucket. -/
theorem Consistent.insertTimer {s : Wheels T} {queue : List (Entry T)} {t : T}
    (h : Consistent s queue) (ht : .timer t ∉ queue) (hnext : s.next (timerNode t) = none)
    (hprev : s.prev (timerNode t) = none) (b : Bucket) :
    Consistent (insertTimer s (timerNode t) b) queue := by
  have hxc := timerNode_ne_bucketNode t b
  have hx : Apart queue (timerNode t) := apart_iff.mpr ht
  have hc : Apart queue (bucketNode b) := apart_iff.mpr (h.buckets b).1
  have hfirst : ∀ p, s.next (bucketNode b) = some p → Apart queue p ∧ s.prev p = some (bucketNode b) :=
    h.wheel.onward _ hc
  have hnotself : s.next (bucketNode b) ≠ some (timerNode t) := by
    intro heq
    have hback := (hfirst _ heq).2
    rw [hprev] at hback
    cases hback
  refine ⟨h.lists.congr (fun p hp => ⟨?_, ?_⟩) (insertTimer_expires s _ b).1, ?_, fun c =>
    ⟨(h.buckets c).1, ?_⟩, fun u hu hset => ?_⟩
  · have hpc : p ≠ bucketNode b := fun heq => hp (heq ▸ hc)
    have hpx : p ≠ timerNode t := fun heq => hp (heq ▸ hx)
    rw [insertTimer_next, if_neg hpc, if_neg hpx]
  · have hpx : p ≠ timerNode t := fun heq => hp (heq ▸ hx)
    rw [insertTimer_prev, if_neg hpx, if_neg fun heq => hp (hfirst p heq).1]
  · refine h.wheel.insert hx hc hxc hnext hprev ?_ ?_ ?_ (fun p hp => ?_) (fun p hpc hpx => ?_)
      fun p hpx hp => ?_
    · rw [insertTimer_next, if_pos rfl]
    · rw [insertTimer_prev, if_pos rfl]
    · rw [insertTimer_next, if_neg hxc, if_pos rfl]
    · have hpx : p ≠ timerNode t := by
        rintro rfl
        exact hnotself hp
      rw [insertTimer_prev, if_neg hpx, if_pos hp]
    · rw [insertTimer_next, if_neg hpc, if_neg hpx]
    · rw [insertTimer_prev, if_neg hpx, if_neg hp]
  · have hback : s.next (bucketNode b) ≠ some (bucketNode c) := by
      intro heq
      have hprev := (hfirst _ heq).2
      rw [(h.buckets c).2] at hprev
      cases hprev
    rw [insertTimer_prev, if_neg (timerNode_ne_bucketNode t c).symm, if_neg hback]
    exact (h.buckets c).2
  · rw [insertTimer_prev]
    split
    · simp
    · rename_i hut
      split
      · simp
      · rw [insertTimer_next, if_neg (timerNode_ne_bucketNode u b), if_neg hut] at hset
        exact h.both u hu hset

theorem Consistent.internalAddTimer {s : Wheels T} {queue : List (Entry T)} {t : T}
    (h : Consistent s queue) (ht : .timer t ∉ queue) (hnext : s.next (timerNode t) = none)
    (hprev : s.prev (timerNode t) = none) :
    Consistent (internalAddTimer s (timerNode t)) queue := by
  unfold Timers.internalAddTimer
  split
  · exact h.insertTimer ht hnext hprev _
  · -- a time too far away: the timer is linked to itself
    have hx : Apart queue (timerNode t) := apart_iff.mpr ht
    have hother : ∀ p, p ≠ timerNode t →
        SameLinks s ((s.setPrev (timerNode t) (some (timerNode t))).setNext (timerNode t)
          (some (timerNode t))) p :=
      fun p hp => ⟨Function.update_of_ne hp _ _, Function.update_of_ne hp _ _⟩
    refine ⟨h.lists.congr (fun p hp => hother p fun heq => hp (heq ▸ hx)) rfl, ?_, fun b => ⟨?_, ?_⟩,
      fun u hu hset => ?_⟩
    · exact h.wheel.loop hx hnext hprev (Function.update_self ..) (Function.update_self ..)
        (fun p hp => (hother p hp).1) fun p hp => (hother p hp).2
    · exact (h.buckets b).1
    · rw [(hother _ (timerNode_ne_bucketNode t b).symm).2]
      exact (h.buckets b).2
    · by_cases hut : u = t
      · rw [hut]
        simp [TimerState.setPrev, TimerState.setNext]
      · have hne : timerNode u ≠ timerNode t := by simpa [timerNode] using hut
        rw [(hother _ hne).1] at hset
        rw [(hother _ hne).2]
        exact h.both u hu hset

/-! ## Changes -/

theorem Consistent.setExpires {s : Wheels T} {queue : List (Entry T)} {t : T}
    (h : Consistent s queue) (ht : .timer t ∉ queue) (expires : UInt64) :
    Consistent (s.setExpires (timerNode t) expires) queue :=
  ⟨h.lists.setExpires ht expires, h.wheel, h.buckets, h.both⟩

theorem detachTimer_setExpires (s : Wheels T) (x : Node (Entry T)) (expires : UInt64) :
    clearLinks (detachTimer (s.setExpires x expires) x) x =
      (clearLinks (detachTimer s x) x).setExpires x expires := by
  simp only [detachTimer, show (s.setExpires x expires).prev = s.prev from rfl,
    show (s.setExpires x expires).next = s.next from rfl]
  cases s.prev x with
  | none => rfl
  | some p =>
      cases s.next x with
      | none => rfl
      | some n => rfl

/-- `mod_timer` takes the timer out of the ring for good. -/
theorem Consistent.modTimer {s : Wheels T} {queue : List (Entry T)} (h : Consistent s queue) (t : T)
    (expires : UInt64) : Consistent (modTimer s t expires) (queue.erase (.timer t)) := by
  have hout : .timer t ∉ queue.erase (.timer t) := by
    rw [h.lists.nodup.mem_erase_iff]
    exact fun hin => hin.1 rfl
  have hdetached := (h.detach t).setExpires hout expires
  rw [← detachTimer_setExpires] at hdetached
  have hadded := hdetached.internalAddTimer hout (Function.update_self ..) (Function.update_self ..)
  rwa [internalAddTimer_clearLinks] at hadded

/-- `del_timer` ends; it leaves a timer alone that hangs in no list, or is the last
one behind its bucket. -/
theorem Consistent.delTimer {s : Wheels T} {queue : List (Entry T)} (h : Consistent s queue)
    (t : T) : ∃ s' result, delTimer s (timerNode t) = some (s', result) ∧
      Consistent s' (queue.erase (.timer t)) ∧ s'.jiffies = s.jiffies := by
  by_cases hnext : s.next (timerNode t) = none
  · have ht : .timer t ∉ queue := fun hin => (h.lists.linked hin).1 hnext
    rw [List.erase_of_not_mem ht, Timers.delTimer, if_neg (by simp [hnext])]
    exact ⟨s, 0, rfl, h, rfl⟩
  · have hprev : s.prev (timerNode t) ≠ none := by
      by_cases ht : .timer t ∈ queue
      · exact (h.lists.linked ht).2
      · exact h.both t ht hnext
    rw [Timers.delTimer, if_pos hnext, unlink_eq_detach hnext hprev]
    refine ⟨_, 1, rfl, h.detach t, ?_⟩
    exact (takenOut_detach fun _ => hprev).jiffies

omit [DecidableEq T] in
/-- A search that ends does so with any higher limit. -/
theorem findPlace_limit {s : Wheels T} {expires : UInt64} {limit limit' : Nat}
    {p q : Node (Entry T)} (h : findPlace s expires limit p = some q) (hle : limit ≤ limit') :
    findPlace s expires limit' p = some q := by
  induction limit generalizing p limit' with
  | zero => cases h
  | succ limit ih =>
      obtain ⟨limit', rfl⟩ := Nat.exists_eq_add_of_le' hle
      rw [Nat.add_succ, findPlace] at *
      obtain ⟨n, hn, hrest⟩ := Option.bind_eq_some_iff.mp h
      rw [hn, Option.bind_some]
      split at hrest
      · rename_i hlater
        rw [if_pos hlater]
        exact ih hrest (Nat.le_add_left _ _)
      · rename_i hplace
        rw [if_neg hplace]
        exact hrest

theorem addTimer_limit {s s' : Wheels T} {limit limit' : Nat} {x : Node (Entry T)}
    (h : addTimer limit s x = some s') (hle : limit ≤ limit') : addTimer limit' s x = some s' := by
  unfold addTimer at *
  obtain ⟨p, hp, hrest⟩ := Option.bind_eq_some_iff.mp h
  exact Option.bind_eq_some_iff.mpr ⟨p, findPlace_limit hp hle, hrest⟩

/-- A timer that hangs in no list is added to the ring. -/
theorem Consistent.addTimer {s s' : Wheels T} {queue : List (Entry T)} {limit : Nat} {t : T}
    (h : Consistent s queue) (hnext : s.next (timerNode t) = none)
    (hprev : s.prev (timerNode t) = none) (hrun : addTimer limit s (timerNode t) = some s') :
    ∃ queue', Consistent s' queue' := by
  have ht : .timer t ∉ queue := fun hin => (h.lists.linked hin).1 hnext
  obtain ⟨s₁, hrun₁, hlists, -, -, hsame⟩ :=
    addTimer_lists h.lists ht (show queue.length < limit + (queue.length + 1) by omega)
  obtain rfl : s₁ = s' :=
    Option.some.inj (hrun₁.symm.trans (addTimer_limit hrun (Nat.le_add_right limit _)))
  have hmem : ∀ u, u ∈ queue.orderedInsert (NotLater s) (.timer t) ↔ u = .timer t ∨ u ∈ queue :=
    fun u => List.mem_orderedInsert ..
  refine ⟨_, hlists, ?_, fun b => ?_, fun u hu hset => ?_⟩
  · have hkept : TwoWay s.next s.prev (Apart (queue.orderedInsert (NotLater s) (.timer t))) := by
      refine h.wheel.remove hnext hprev fun a => ?_
      constructor
      · rintro ⟨u, hu, rfl⟩
        rw [hmem, not_or] at hu
        exact ⟨apart_iff.mpr hu.2, fun heq => hu.1 (Node.timer.inj heq)⟩
      · rintro ⟨⟨u, hu, rfl⟩, hne⟩
        refine apart_iff.mpr ?_
        rw [hmem, not_or]
        exact ⟨fun heq => hne (congrArg Node.timer heq), hu⟩
    refine hkept.congr ?_ ?_
    · rintro a ⟨u, hu, rfl⟩
      exact (hsame u (by simpa [hmem] using hu)).1
    · rintro a ⟨u, hu, rfl⟩
      exact (hsame u (by simpa [hmem] using hu)).2
  · have hb := h.buckets b
    have hout : .bucket b ∉ .timer t :: queue := by simp [hb.1]
    exact ⟨by simp [hmem, hb.1], (hsame _ hout).2.trans hb.2⟩
  · have hlinks := hsame (.timer u) (by simpa [hmem] using hu)
    rw [hmem, not_or] at hu
    rw [timerNode, hlinks.1] at hset
    rw [timerNode, hlinks.2]
    exact h.both u hu.2 hset

theorem Consistent.change {s s' : Wheels T} {queue : List (Entry T)} {limit : Nat} {c : Change T}
    (h : Consistent s queue) (hrun : change limit s c = some s') :
    ∃ queue', Consistent s' queue' := by
  cases c with
  | add t expires =>
      simp only [Timers.change, Option.ite_none_left_eq_some, not_or, Decidable.not_not] at hrun
      obtain ⟨⟨hnext, hprev⟩, hadd⟩ := hrun
      have ht : .timer t ∉ queue := fun hin => (h.lists.linked hin).1 hnext
      exact (h.setExpires ht expires).addTimer hnext hprev hadd
  | del t =>
      obtain ⟨s₁, result, hdel, hdeleted, -⟩ := h.delTimer t
      rw [Timers.change, hdel] at hrun
      obtain rfl := Option.some.inj hrun
      exact ⟨_, hdeleted⟩
  | mod t expires =>
      obtain rfl := Option.some.inj hrun
      exact ⟨_, h.modTimer t expires⟩
  | tick =>
      obtain rfl := Option.some.inj hrun
      exact ⟨queue, ⟨h.lists.ring, h.lists.nodup, h.lists.sorted, h.lists.last⟩, h.wheel, h.buckets,
        h.both⟩
  | expire =>
      rw [Timers.change] at hrun
      cases queue with
      | nil =>
          rw [h.lists.next_head_nil] at hrun
          simp at hrun
      | cons u queue =>
          rw [h.lists.next_head_cons] at hrun
          simp only [Option.ite_none_right_eq_some] at hrun
          obtain ⟨-, hunlink⟩ := hrun
          obtain ⟨s₁, hrun₁, hlists, -, -, hnone, hnone', hsame⟩ :=
            unlink_lists (show Lists s ([] ++ u :: queue) from h.lists)
          obtain rfl : s₁ = s' := Option.some.inj (hrun₁.symm.trans hunlink)
          cases u with
          | bucket b => exact absurd List.mem_cons_self (h.buckets b).1
          | timer t =>
              refine ⟨_, h.leave_ring hlists (fun u => List.mem_cons) ?_ hnone hnone' hsame⟩
              exact (List.nodup_cons.mp h.lists.nodup).1

theorem Reachable.consistent {s : Wheels T} (h : Reachable s) : ∃ queue, Consistent s queue := by
  obtain ⟨limit, changes, hrun⟩ := h
  have hstep : ∀ s (c : Change T) s', (∃ queue, Consistent s queue) → True →
      Timers.change limit s c = some s' → ∃ queue, Consistent s' queue := by
    intro s c s' ⟨queue, hs⟩ _ hc
    exact hs.change hc
  exact run_invariant hstep ⟨[], consistent_initial⟩ (stepsMeet_true _ changes) hrun

end

end Milo.Timers
