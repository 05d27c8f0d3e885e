import Milo.Foundation.Transition
import Milo.Timers.TimerList

/-! # Runs of the timer code

The program adds and deletes timers, and `do_timer` runs those that are due.
What happens is recorded as a list of events, each with the timers as it left
them. Two small machines say what is expected of the events: one follows a
single timer from its addition on, the other the order within a tick.
-/

namespace Milo.Timers

open Foundation

variable {T : Type}

/-- A call that the program or a timer's function makes. -/
inductive Call (T : Type) where
  | add (t : T) (expires : UInt64)
  | del (t : T)

inductive Event (T : Type) where
  | added (t : T) (expires : UInt64)
  | deleted (t : T) (result : Nat)
  | ticked (jiffies : UInt64)
  | ran (t : T) (expires : UInt64)
  | returned

/-- Why a run is not followed any further: a timer is added while it is queued,
or by a timer's function without expiring later; or the code itself follows a
null link or does not come to an end. -/
inductive Stop where
  | misuse
  | lost

/-- The timers and what has happened so far. -/
structure Session (T : Type) where
  timers : TimerState T
  history : List (Event T × TimerState T)

def Session.record (m : Session T) (event : Event T) (timers : TimerState T) : Session T :=
  ⟨timers, m.history ++ [(event, timers)]⟩

def Session.events (m : Session T) : List (Event T) := m.history.map Prod.fst

section
variable [DecidableEq T]

/-- A call by the program, or by a timer's function while it is running. -/
def call (limit : Nat) (running : Bool) (m : Session T) : Call T → Except Stop (Session T)
  | .add t expires =>
      if m.timers.next (.timer t) ≠ none ∨ running ∧ expires ≤ m.timers.jiffies then .error .misuse
      else
        match addTimer limit (m.timers.setExpires (.timer t) expires) (.timer t) with
        | some s => .ok (m.record (.added t expires) s)
        | none => .error .lost
  | .del t =>
      match delTimer m.timers (.timer t) with
      | some (s, result) => .ok (m.record (.deleted t result) s)
      | none => .error .lost

/-- The loop of `do_timer` from round `k` on. The function of the timer that
round `k` runs makes the calls `functions k`. -/
def timerLoop (limit : Nat) (functions : Nat → List (Call T)) :
    Nat → Nat → Session T → Except Stop (Session T)
  | 0, _, _ => .error .lost
  | rounds + 1, k, m =>
      match m.timers.next .timerHead with
      | some (.timer t) =>
          if m.timers.expires (.timer t) ≤ m.timers.jiffies then
            match unlink m.timers (.timer t) with
            | some s =>
                ((functions k).foldlM (call limit true)
                    (m.record (.ran t (m.timers.expires (.timer t))) s)).bind
                  (timerLoop limit functions rounds (k + 1))
            | none => .error .lost
          else .ok m
      | some .timerHead => .ok m
      | none => .error .lost

/-- `do_timer` -/
def doTimer (limit : Nat) (functions : Nat → List (Call T)) (m : Session T) :
    Except Stop (Session T) :=
  let s := { m.timers with jiffies := m.timers.jiffies + 1 }
  (timerLoop limit functions limit 0 (m.record (.ticked s.jiffies) s)).bind fun m =>
    .ok (m.record .returned m.timers)

inductive Input (T : Type) where
  | call (c : Call T)
  | tick (functions : Nat → List (Call T))

def step (limit : Nat) (m : Session T) : Input T → Except Stop (Session T)
  | .call c => call limit false m c
  | .tick functions => doTimer limit functions m

/-- A timer as an observer sees it: the expiry time it waits for, and the value
of `jiffies` during a tick. -/
structure Watch where
  waiting : Option UInt64
  tick : Option UInt64
  deriving DecidableEq

/-- The timer waits for a time that the tick has reached. -/
def Watch.due (w : Watch) : Bool :=
  match w.waiting, w.tick with
  | some expires, some jiffies => expires ≤ jiffies
  | _, _ => false

/-- One timer runs once for each addition, in a tick that has reached its expiry
time; no tick ends while it is due; `del_timer` knows whether it waits. -/
def watch (t : T) (w : Watch) : Event T → Option Watch
  | .added u expires =>
      if u = t then
        if w.waiting = none ∧ ¬ Watch.due { w with waiting := some expires } then
          some { w with waiting := some expires }
        else none
      else some w
  | .deleted u result =>
      if u = t then
        if result = (if w.waiting.isSome then 1 else 0) then some { w with waiting := none }
        else none
      else some w
  | .ticked jiffies => if w.tick = none then some { w with tick := some jiffies } else none
  | .ran u expires =>
      if u = t then
        if w.due ∧ w.waiting = some expires then some { w with waiting := none } else none
      else some w
  | .returned => if w.due then none else some { w with tick := none }

end

/-- Within a tick the expiry times of the timers that run do not fall. -/
def inOrder (latest : UInt64) : Event T → Option UInt64
  | .ticked _ => some 0
  | .ran _ expires => if latest ≤ expires then some expires else none
  | _ => some latest

/-! ## What the machines say -/

section
variable [DecidableEq T]

end

section
variable [DecidableEq T]

/-- What a timer waits for. -/
def waiting (s : TimerState T) (queue : List T) (t : T) : Option UInt64 :=
  if t ∈ queue then some (s.expires (.timer t)) else none

/-- The timers that run in a tick expire no earlier than those that ran in it. -/
def Latest (s : TimerState T) (queue : List T) (tick : Option UInt64) (latest : UInt64) : Prop :=
  ∀ j ∈ tick, latest ≤ j ∧ ∀ t ∈ queue, latest ≤ s.expires (.timer t)

/-- The timers are a queue, and what has happened is as expected and leads there. -/
structure Tracks (m : Session T) (queue : List T) (tick : Option UInt64) : Prop where
  holds : Holds m.timers queue
  clock : ∀ j ∈ tick, j = m.timers.jiffies
  watched : ∀ t, run (watch t) ⟨none, none⟩ m.events = some ⟨waiting m.timers queue t, tick⟩
  ordered : ∃ latest, run inOrder 0 m.events = some latest ∧ Latest m.timers queue tick latest
  recorded : ∀ entry ∈ m.history, WellFormed entry.2

/-- One more event. -/
theorem Tracks.record {m : Session T} {queue queue' : List T} {tick tick' : Option UInt64}
    {s : TimerState T} {event : Event T} (h : Tracks m queue tick) (hholds : Holds s queue')
    (hclock : ∀ j ∈ tick', j = s.jiffies)
    (hwatch : ∀ t, watch t ⟨waiting m.timers queue t, tick⟩ event =
      some ⟨waiting s queue' t, tick'⟩)
    (horder : ∀ latest, Latest m.timers queue tick latest →
      ∃ latest', inOrder latest event = some latest' ∧ Latest s queue' tick' latest') :
    Tracks (m.record event s) queue' tick' where
  holds := hholds
  clock := hclock
  watched t := by
    rw [Session.events, Session.record, List.map_append, run_append]
    exact ⟨_, h.watched t, by simp [run, hwatch t]⟩
  ordered := by
    obtain ⟨latest, hrun, hlatest⟩ := h.ordered
    obtain ⟨latest', hevent, hlatest'⟩ := horder latest hlatest
    rw [Session.events, Session.record, List.map_append]
    exact ⟨latest', run_append _ _ |>.mpr ⟨latest, hrun, by simp [run, hevent]⟩, hlatest'⟩
  recorded entry hentry := by
    rcases List.mem_append.mp hentry with hold | hnew
    · exact h.recorded entry hold
    · rw [List.mem_singleton.mp hnew]
      exact ⟨queue', hholds⟩

/-- How many queued timers are due. -/
def dueCount (s : TimerState T) (queue : List T) : Nat :=
  (queue.filter fun t => s.expires (.timer t) ≤ s.jiffies).length

/-- A timer that was added waits, and nothing else has changed. -/
theorem waiting_insert {s s' : TimerState T} {queue queue' : List T} {t : T} {expires : UInt64}
    (hqueue : queue'.Perm (t :: queue))
    (hexpires : s'.expires = (s.setExpires (.timer t) expires).expires) (u : T) :
    waiting s' queue' u = if u = t then some expires else waiting s queue u := by
  have hmem : u ∈ queue' ↔ u = t ∨ u ∈ queue := by rw [hqueue.mem_iff, List.mem_cons]
  by_cases hu : u = t
  · subst hu
    simp [waiting, hmem, hexpires, TimerState.setExpires]
  · simp [waiting, hmem, hu, hexpires, TimerState.setExpires]

theorem waiting_erase {s s' : TimerState T} {queue : List T} (t : T) (hnodup : queue.Nodup)
    (hexpires : s'.expires = s.expires) (u : T) :
    waiting s' (queue.erase t) u = if u = t then none else waiting s queue u := by
  have hmem : u ∈ queue.erase t ↔ u ≠ t ∧ u ∈ queue := hnodup.mem_erase_iff
  by_cases hu : u = t
  · subst hu
    simp [waiting, hmem]
  · simp [waiting, hmem, hu, hexpires]

/-- An addition that is no misuse ends and is as expected. -/
theorem Tracks.add {m : Session T} {queue : List T} {tick : Option UInt64} {limit : Nat} {t : T}
    {expires : UInt64} (h : Tracks m queue tick) (hlimit : queue.length < limit)
    (ht : t ∉ queue) (hlater : ∀ j ∈ tick, j < expires) :
    ∃ s queue', addTimer limit (m.timers.setExpires (.timer t) expires) (.timer t) = some s ∧
      Tracks (m.record (.added t expires) s) queue' tick ∧
      queue'.length = queue.length + 1 ∧
      (tick.isSome → dueCount s queue' = dueCount m.timers queue) := by
  obtain ⟨s, hrun, hholds, hexpires, hjiffies⟩ :=
    addTimer_holds (h.holds.setExpires ht expires) ht hlimit
  have hperm := List.perm_orderedInsert
    (NotLater (m.timers.setExpires (.timer t) expires)) t queue
  have hother : ∀ u ∈ queue, s.expires (.timer u) = m.timers.expires (.timer u) := by
    intro u hu
    have hut : u ≠ t := fun heq => ht (heq ▸ hu)
    simp [hexpires, TimerState.setExpires, hut]
  have hown : s.expires (.timer t) = expires := by simp [hexpires, TimerState.setExpires]
  have hwaiting : waiting m.timers queue t = none := if_neg ht
  refine ⟨s, _, hrun, h.record hholds ?_ (fun u => ?_) fun latest hlatest => ?_, ?_, fun htick => ?_⟩
  · intro j hj
    rw [h.clock j hj, hjiffies]
    rfl
  · rw [watch, waiting_insert hperm hexpires u]
    by_cases hut : t = u
    · subst hut
      have hdue : ¬ Watch.due ⟨some expires, tick⟩ := by
        cases htick : tick with
        | none => simp [Watch.due]
        | some j => simpa [Watch.due] using hlater j htick
      simp [hwaiting, hdue]
    · simp [hut, Ne.symm hut]
  · refine ⟨latest, rfl, fun j hj => ⟨(hlatest j hj).1, fun u hu => ?_⟩⟩
    rcases List.mem_cons.mp (hperm.mem_iff.mp hu) with rfl | hu
    · rw [hown]
      exact UInt64.le_trans (hlatest j hj).1 (UInt64.le_of_lt (hlater j hj))
    · rw [hother u hu]
      exact (hlatest j hj).2 u hu
  · exact hperm.length_eq
  · obtain ⟨j, hj⟩ := Option.isSome_iff_exists.mp htick
    have hclock : s.jiffies = m.timers.jiffies := hjiffies
    have hnotdue : ¬ expires ≤ m.timers.jiffies := by
      rw [← h.clock j hj, UInt64.not_le]
      exact hlater j hj
    have hsame : queue.filter (fun u => s.expires (.timer u) ≤ m.timers.jiffies) =
        queue.filter fun u => m.timers.expires (.timer u) ≤ m.timers.jiffies :=
      List.filter_congr fun u hu => by rw [hother u hu]
    rw [dueCount, dueCount, (hperm.filter _).length_eq, hclock, List.filter_cons, hown]
    simp [hnotdue, hsame]

/-- A deletion ends and is as expected. -/
theorem Tracks.del {m : Session T} {queue : List T} {tick : Option UInt64}
    (h : Tracks m queue tick) (t : T) :
    ∃ s result, delTimer m.timers (.timer t) = some (s, result) ∧
      Tracks (m.record (.deleted t result) s) (queue.erase t) tick ∧
      dueCount s (queue.erase t) ≤ dueCount m.timers queue := by
  obtain ⟨s, hrun, hholds, hexpires, hjiffies⟩ := delTimer_holds h.holds t
  refine ⟨s, _, hrun, h.record hholds ?_ (fun u => ?_) fun latest hlatest => ?_, ?_⟩
  · rw [hjiffies]
    exact h.clock
  · rw [watch, waiting_erase t h.holds.nodup hexpires u]
    by_cases hut : t = u
    · subst hut
      by_cases ht : t ∈ queue
      · simp [waiting, ht]
      · simp [waiting, ht]
    · simp [hut, Ne.symm hut]
  · refine ⟨latest, rfl, fun j hj => ⟨(hlatest j hj).1, fun u hu => ?_⟩⟩
    rw [hexpires]
    exact (hlatest j hj).2 u (List.mem_of_mem_erase hu)
  · rw [dueCount, dueCount, hexpires, hjiffies]
    exact (List.erase_sublist.filter _).length_le

/-- A call ends, and is as expected unless it is a misuse. -/
theorem Tracks.call {m : Session T} {queue : List T} {tick : Option UInt64} {limit : Nat}
    (h : Tracks m queue tick) (hlimit : queue.length < limit) (c : Call T) :
    call limit tick.isSome m c = .error .misuse ∨
      ∃ m' queue', call limit tick.isSome m c = .ok m' ∧ Tracks m' queue' tick ∧
        queue'.length ≤ queue.length + 1 ∧
        (tick.isSome → dueCount m'.timers queue' ≤ dueCount m.timers queue) := by
  cases c with
  | add t expires =>
      rw [Timers.call]
      split
      · exact .inl rfl
      · rename_i hadd
        obtain ⟨hnull, hlater⟩ := not_or.mp hadd
        have ht : t ∉ queue := mt h.holds.next_ne_none.mpr hnull
        have hguard : ∀ j ∈ tick, j < expires := by
          intro j hj
          rw [h.clock j hj, ← UInt64.not_le]
          exact fun hle => hlater ⟨by rw [hj]; rfl, hle⟩
        obtain ⟨s, queue', hrun, htracks, hlen, hdue⟩ := h.add hlimit ht hguard
        rw [hrun]
        exact .inr ⟨_, queue', rfl, htracks, Nat.le_of_eq hlen, fun htick => Nat.le_of_eq (hdue htick)⟩
  | del t =>
      obtain ⟨s, result, hrun, htracks, hdue⟩ := h.del t
      rw [Timers.call, hrun]
      refine .inr ⟨_, _, rfl, htracks, ?_, fun _ => hdue⟩
      exact Nat.le_succ_of_le List.erase_sublist.length_le

/-- The calls of a timer's function. -/
theorem Tracks.calls {m : Session T} {queue : List T} {j : UInt64} {limit : Nat}
    (h : Tracks m queue (some j)) (cs : List (Call T)) (hlimit : queue.length + cs.length ≤ limit) :
    cs.foldlM (Timers.call limit true) m = .error .misuse ∨
      ∃ m' queue', cs.foldlM (Timers.call limit true) m = .ok m' ∧ Tracks m' queue' (some j) ∧
        queue'.length ≤ queue.length + cs.length ∧
        dueCount m'.timers queue' ≤ dueCount m.timers queue := by
  induction cs generalizing m queue with
  | nil => exact .inr ⟨m, queue, rfl, h, Nat.le_refl _, Nat.le_refl _⟩
  | cons c cs ih =>
      rw [List.length_cons] at hlimit
      rw [List.foldlM_cons]
      rcases h.call (show queue.length < limit by omega) c with hstop | ⟨mid, between, hrun, hmid, hlen, hdue⟩
      · left
        rw [show Timers.call limit true m c = .error .misuse from hstop]
        rfl
      · rw [show Timers.call limit true m c = .ok mid from hrun]
        rcases ih hmid (by omega) with hstop | ⟨m', queue', hrest, hend, hlen', hdue'⟩
        · exact .inl hstop
        · refine .inr ⟨m', queue', hrest, hend, ?_, Nat.le_trans hdue' (hdue rfl)⟩
          rw [List.length_cons]
          omega

/-- A timer that is due is taken out and run. -/
theorem Tracks.ran {m : Session T} {queue : List T} {j : UInt64} {t : T}
    (h : Tracks m (t :: queue) (some j)) (hdue : m.timers.expires (.timer t) ≤ m.timers.jiffies) :
    ∃ s, unlink m.timers (.timer t) = some s ∧
      Tracks (m.record (.ran t (m.timers.expires (.timer t))) s) queue (some j) ∧
      dueCount s queue + 1 = dueCount m.timers (t :: queue) := by
  obtain ⟨s, hrun, hholds, hexpires, hjiffies⟩ :=
    unlink_holds (show Holds m.timers ([] ++ t :: queue) from h.holds)
  have hclock : j = m.timers.jiffies := h.clock j rfl
  have herase : (t :: queue).erase t = queue := List.erase_cons_head t queue
  refine ⟨s, hrun, h.record hholds ?_ (fun u => ?_) fun latest hlatest => ?_, ?_⟩
  · rw [hjiffies]
    exact h.clock
  · have hgone := waiting_erase t h.holds.nodup hexpires u
    rw [herase] at hgone
    rw [watch, hgone]
    by_cases hut : t = u
    · subst hut
      simp [waiting, Watch.due, hclock, hdue]
    · simp [hut, Ne.symm hut]
  · have hfirst := (hlatest j rfl).2 t List.mem_cons_self
    refine ⟨m.timers.expires (.timer t), if_pos hfirst, fun i hi => ?_⟩
    obtain rfl : j = i := Option.some.inj hi
    refine ⟨hclock ▸ hdue, fun u hu => ?_⟩
    rw [hexpires]
    exact (List.pairwise_cons.mp h.holds.sorted).1 u hu
  · rw [dueCount, dueCount, hexpires, hjiffies, List.filter_cons_of_pos (by simpa using hdue)]
    rfl

/-- How many calls the functions of `n` rounds make. -/
def roundCalls (functions : Nat → List (Call T)) : Nat → Nat → Nat
  | _, 0 => 0
  | k, n + 1 => (functions k).length + roundCalls functions (k + 1) n

omit [DecidableEq T] in
/-- If any timer is due, the first one is. -/
theorem due_cons {s : TimerState T} {queue : List T} (h : Lists s queue)
    (hdue : 0 < dueCount s queue) :
    ∃ t rest, queue = t :: rest ∧ s.expires (.timer t) ≤ s.jiffies := by
  obtain ⟨u, hu⟩ := List.exists_mem_of_length_pos hdue
  obtain ⟨hin, hreached⟩ := List.mem_filter.mp hu
  cases queue with
  | nil => simp at hin
  | cons t rest =>
      refine ⟨t, rest, rfl, ?_⟩
      rcases List.mem_cons.mp hin with rfl | hin
      · exact of_decide_eq_true hreached
      · exact UInt64.le_trans ((List.pairwise_cons.mp h.sorted).1 u hin)
          (of_decide_eq_true hreached)

/-- With no timer due the loop ends. -/
theorem timerLoop_stop {m : Session T} {queue : List T} {limit rounds : Nat}
    {functions : Nat → List (Call T)} (k : Nat) (h : Lists m.timers queue)
    (hdue : dueCount m.timers queue = 0) (hrounds : 0 < rounds) :
    timerLoop limit functions rounds k m = .ok m := by
  obtain ⟨rounds, rfl⟩ := Nat.exists_eq_succ_of_ne_zero (Nat.ne_of_gt hrounds)
  cases queue with
  | nil => rw [timerLoop, h.next_head_nil]
  | cons t queue =>
      have hnot : ¬ m.timers.expires (.timer t) ≤ m.timers.jiffies := by
        intro hle
        rw [dueCount, List.filter_cons_of_pos (by simpa using hle)] at hdue
        cases hdue
      rw [timerLoop, h.next_head_cons]
      exact if_neg hnot

/-- The loop ends, with no timer left that is due. Every round runs a timer that
is due, and what the timer's function adds is not. -/
theorem Tracks.loop {m : Session T} {queue : List T} {j : UInt64} {limit rounds n : Nat}
    {functions : Nat → List (Call T)} (k : Nat) (h : Tracks m queue (some j))
    (hdue : dueCount m.timers queue ≤ n) (hrounds : n < rounds)
    (hlimit : queue.length + roundCalls functions k n ≤ limit) :
    timerLoop limit functions rounds k m = .error .misuse ∨
      ∃ m' queue', timerLoop limit functions rounds k m = .ok m' ∧ Tracks m' queue' (some j) ∧
        queue'.length ≤ queue.length + roundCalls functions k n ∧
        dueCount m'.timers queue' = 0 := by
  induction n generalizing m queue rounds k with
  | zero =>
      have hnone : dueCount m.timers queue = 0 := Nat.le_zero.mp hdue
      exact .inr ⟨m, queue, timerLoop_stop k h.holds.lists hnone hrounds, h, Nat.le_refl _, hnone⟩
  | succ n ih =>
      rcases Nat.eq_zero_or_pos (dueCount m.timers queue) with hnone | hsome
      · exact .inr ⟨m, queue, timerLoop_stop k h.holds.lists hnone (Nat.zero_lt_of_lt hrounds), h,
          Nat.le_add_right _ _, hnone⟩
      · obtain ⟨t, rest, rfl, hreached⟩ := due_cons h.holds.lists hsome
        obtain ⟨rounds, rfl⟩ := Nat.exists_eq_succ_of_ne_zero (Nat.ne_zero_of_lt hrounds)
        obtain ⟨s, hunlink, hran, hless⟩ := h.ran hreached
        rw [roundCalls, List.length_cons] at hlimit
        rw [timerLoop, h.holds.lists.next_head_cons]
        simp only [if_pos hreached, hunlink]
        have hcalls := hran.calls (functions k) (show rest.length + (functions k).length ≤ limit by omega)
        rcases hcalls with hstop | ⟨mid, between, hrun, hmid, hlen, hmore⟩
        · left
          rw [hstop]
          rfl
        · rw [hrun]
          have hcount : dueCount mid.timers between ≤ n := by
            have hsame : dueCount (m.record (.ran t (m.timers.expires (.timer t))) s).timers rest =
                dueCount s rest := rfl
            omega
          rcases ih (k + 1) hmid hcount (Nat.lt_of_succ_lt_succ hrounds) (by omega) with
            hstop | ⟨m', queue', hrest, hend, hlen', hnone⟩
          · exact .inl hstop
          · refine .inr ⟨m', queue', hrest, hend, ?_, hnone⟩
            rw [roundCalls, List.length_cons]
            omega

/-- A tick ends. -/
theorem Tracks.tick {m : Session T} {queue : List T} {limit : Nat}
    (functions : Nat → List (Call T)) (h : Tracks m queue none)
    (hlimit : queue.length + roundCalls functions 0 queue.length < limit) :
    doTimer limit functions m = .error .misuse ∨
      ∃ m' queue', doTimer limit functions m = .ok m' ∧ Tracks m' queue' none ∧
        queue'.length ≤ queue.length + roundCalls functions 0 queue.length := by
  have hstart : Tracks
      (m.record (.ticked (m.timers.jiffies + 1)) { m.timers with jiffies := m.timers.jiffies + 1 })
      queue (some (m.timers.jiffies + 1)) := by
    refine h.record ⟨h.holds.ring, h.holds.nodup, h.holds.sorted, h.holds.apart, h.holds.last⟩
      (fun j hj => (Option.some.inj hj).symm) (fun t => rfl) fun latest _ => ?_
    refine ⟨0, rfl, fun j _ => ⟨?_, fun t _ => ?_⟩⟩ <;> exact UInt64.le_iff_toNat_le.mpr (Nat.zero_le _)
  have hloop := hstart.loop 0 (List.length_filter_le _ _) (show queue.length < limit by omega)
    (show queue.length + roundCalls functions 0 queue.length ≤ limit by omega)
  rcases hloop with
    hstop | ⟨mid, queue', hrun, hmid, hlen, hnone⟩
  · left
    rw [doTimer, hstop]
    rfl
  · refine .inr ⟨mid.record .returned mid.timers, queue', by rw [doTimer, hrun]; rfl, ?_, hlen⟩
    refine hmid.record hmid.holds (by simp) (fun t => ?_) fun latest _ => ⟨latest, rfl, by simp [Latest]⟩
    have hnotdue : ¬ Watch.due ⟨waiting mid.timers queue' t, some (m.timers.jiffies + 1)⟩ := by
      rw [hmid.clock _ rfl]
      unfold waiting
      split
      · rename_i hin
        have hfilter := List.eq_nil_of_length_eq_zero hnone
        simpa [Watch.due] using List.filter_eq_nil_iff.mp hfilter t hin
      · simp [Watch.due]
    rw [watch, if_neg hnotdue]

/-- An upper bound of the number of queued timers. -/
def mostQueued : Nat → List (Input T) → Nat
  | n, [] => n
  | n, .call _ :: inputs => mostQueued (n + 1) inputs
  | n, .tick functions :: inputs => mostQueued (n + roundCalls functions 0 n) inputs

omit [DecidableEq T] in
theorem le_mostQueued (n : Nat) (inputs : List (Input T)) : n ≤ mostQueued n inputs := by
  induction inputs generalizing n with
  | nil => exact Nat.le_refl n
  | cons input inputs ih =>
      cases input with
      | call c => exact Nat.le_trans (Nat.le_succ n) (ih (n + 1))
      | tick functions => exact Nat.le_trans (Nat.le_add_right _ _) (ih _)

omit [DecidableEq T] in
theorem roundCalls_mono (functions : Nat → List (Call T)) {n n' : Nat} (h : n ≤ n') (k : Nat) :
    roundCalls functions k n ≤ roundCalls functions k n' := by
  induction n generalizing n' k with
  | zero => exact Nat.zero_le _
  | succ n ih =>
      obtain ⟨n', rfl⟩ := Nat.exists_eq_succ_of_ne_zero (Nat.ne_zero_of_lt h)
      exact Nat.add_le_add_left (ih (Nat.le_of_succ_le_succ h) (k + 1)) _

/-- A run ends, and is as expected unless there is a misuse. -/
theorem Tracks.run {m : Session T} {queue : List T} {limit n : Nat} (h : Tracks m queue none)
    (inputs : List (Input T)) (hqueue : queue.length ≤ n) (hlimit : mostQueued n inputs < limit) :
    inputs.foldlM (step limit) m = .error .misuse ∨
      ∃ m' queue', inputs.foldlM (step limit) m = .ok m' ∧ Tracks m' queue' none := by
  induction inputs generalizing m queue n with
  | nil => exact .inr ⟨m, queue, rfl, h⟩
  | cons input inputs ih =>
      rw [List.foldlM_cons]
      cases input with
      | call c =>
          rw [mostQueued] at hlimit
          have hroom := le_mostQueued (n + 1) inputs
          rcases h.call (show queue.length < limit by omega) c with
            hstop | ⟨mid, between, hrun, hmid, hlen, -⟩
          · left
            rw [show step limit m (.call c) = .error .misuse from hstop]
            rfl
          · rw [show step limit m (.call c) = .ok mid from hrun]
            exact ih hmid (by omega) hlimit
      | tick functions =>
          rw [mostQueued] at hlimit
          have hroom := le_mostQueued (n + roundCalls functions 0 n) inputs
          have hcalls := roundCalls_mono functions hqueue 0
          rcases h.tick functions (show queue.length + _ < limit by omega) with
            hstop | ⟨mid, between, hrun, hmid, hlen⟩
          · left
            rw [show step limit m (.tick functions) = .error .misuse from hstop]
            rfl
          · rw [show step limit m (.tick functions) = .ok mid from hrun]
            exact ih hmid (by omega) hlimit

end

end Milo.Timers
