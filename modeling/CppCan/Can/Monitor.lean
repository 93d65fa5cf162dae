import CppCan.Can.Operations
import CppCan.Core.Wakeups

/-!
# The channel as a monitor

The operations of a channel run under its mutex and wait on two condition variables, one for
an item and one for space. Whatever the threads do, the calls that are carried out are a run of
the operations as single steps, and no call sleeps for want of a signal. A drop-oldest send to an
open channel of capacity zero, which is undefined in the source, counts as one that evicts
nothing.
-/

namespace CppCan.Chan

open CppCan.Core CppCan.Core.Monitor

variable {α : Type}

/-- The condition variables of a channel. -/
inductive Condition where
  | notEmpty
  | notFull
  deriving DecidableEq, Repr

/-- A call of a channel. -/
inductive Call (α : Type) where
  | send (value : α)
  | trySend (value : α)
  | sendDropOldest (value : α)
  | recv
  | recvFor
  | tryRecv
  | close
  deriving DecidableEq, Repr

/-- What is done under the lock, and what is signalled. -/
abbrev Outcome (α : Type) := (Chan α × Reply α) × List (Signal Condition)

def sendBody (c : Chan α) (value : α) : Outcome α :=
  if c.closed then ((c, .sent false), [])
  else (({ c with buf := c.buf ++ [value] }, .sent true), [.one .notEmpty])

def trySendBody (c : Chan α) (value : α) : Outcome α :=
  if c.closed then ((c, .tried .closed), [])
  else if c.buf.length ≥ c.capacity then ((c, .tried .full), [])
  else (({ c with buf := c.buf ++ [value] }, .tried .ok), [.one .notEmpty])

def sendDropOldestBody (c : Chan α) (value : α) : Outcome α :=
  if c.closed then ((c, .sent false), [])
  else
    let buf := if c.buf.length ≥ c.capacity then c.buf.tail else c.buf
    (({ c with buf := buf ++ [value] }, .sent true), [.one .notEmpty])

/-- What the three receives do once they need not wait. -/
def recvBody (c : Chan α) : Outcome α :=
  match c.buf with
  | [] => ((c, .received none), [])
  | value :: rest => (({ c with buf := rest }, .received (some value)), [.one .notFull])

def closeBody (c : Chan α) : Outcome α :=
  (({ c with closed := true }, .closed), [.all .notEmpty, .all .notFull])

/-- The mutex of a channel with its condition variables. -/
def monitor (α : Type) : Monitor (Chan α) Condition (Call α) (Reply α) where
  waitsOn
    | .send _ => some .notFull
    | .recv | .recvFor => some .notEmpty
    | _ => none
  ready
    | .notEmpty, c => !c.buf.isEmpty || c.closed
    | .notFull, c => c.closed || c.buf.length < c.capacity
  body
    | .send value, c => c.sendBody value
    | .trySend value, c => c.trySendBody value
    | .sendDropOldest value, c => c.sendDropOldestBody value
    | .recv, c | .recvFor, c | .tryRecv, c => c.recvBody
    | .close, c => c.closeBody
  giveUp
    | .recvFor => some (.received none)
    | _ => none

/-- The operation that a call takes place as. -/
def Call.op : Call α → Bool → Op α
  | .send value, _ => .send value
  | .trySend value, _ => .trySend value
  | .sendDropOldest value, _ => .sendDropOldest value
  | .recv, _ => .recv
  | .recvFor, gaveUp => .recvFor gaveUp
  | .tryRecv, _ => .tryRecv
  | .close, _ => .close

/-- How many calls a condition could let go on; on a closed channel it is all of them. -/
def units : Condition → Chan α → ℕ∞
  | .notEmpty, c => if c.closed then ⊤ else c.buf.length
  | .notFull, c => if c.closed then ⊤ else (c.capacity - c.buf.length : Nat)

variable {c c' : Chan α} {call : Call α} {w : World (Chan α) (Call α) (Reply α)}
  {es : List (Event (Call α))}

/-- A call that need not wait is the operation. -/
theorem perform_of_enabled (h : (monitor α).enabled call c = true) :
    c.perform (call.op false) = some ((monitor α).body call c).1 := by
  cases call with
  | send value =>
    have hready : c.closed = true ∨ c.buf.length < c.capacity := by
      simpa [enabled, monitor] using h
    simp only [Call.op, perform, send, monitor, sendBody]
    split_ifs
    · rfl
    · rfl
    · exact absurd hready (by simp_all)
  | trySend value =>
    simp only [Call.op, perform, trySend, monitor, trySendBody]
    split_ifs <;> rfl
  | sendDropOldest value =>
    simp only [Call.op, perform, sendDropOldest, monitor, sendDropOldestBody]
    split_ifs <;> rfl
  | recv =>
    have hready : c.buf ≠ [] ∨ c.closed = true := by simpa [enabled, monitor] using h
    simp only [Call.op, perform, recv, monitor, recvBody]
    cases hbuf : c.buf with
    | nil => simp [hready.resolve_left (fun hne => hne hbuf)]
    | cons value rest => rfl
  | recvFor =>
    have hready : c.buf ≠ [] ∨ c.closed = true := by simpa [enabled, monitor] using h
    simp only [Call.op, perform, recvFor, monitor, recvBody]
    cases hbuf : c.buf with
    | nil => simp [hready.resolve_left (fun hne => hne hbuf)]
    | cons value rest => rfl
  | tryRecv =>
    simp only [Call.op, perform, tryRecv, monitor, recvBody]
    cases c.buf <;> rfl
  | close => rfl

/-- A call that gives up is the operation whose time has run out. -/
theorem perform_of_giveUp {reply : Reply α} (h : (monitor α).enabled call c = false)
    (hreply : (monitor α).giveUp call = some reply) :
    c.perform (call.op true) = some (c, reply) := by
  cases call with
  | recvFor =>
    obtain rfl := Option.some.inj hreply
    have hbuf : c.buf = [] := by
      have hwait : c.buf = [] ∧ c.closed = false := by simpa [enabled, monitor] using h
      exact hwait.1
    simp [Call.op, perform, recvFor, hbuf]
  | _ => cases hreply

/-- One more operation at the end of a run. -/
theorem run_concat {ops : List (Op α)} {replies : List (Reply α)} {op : Op α} {reply : Reply α}
    {c'' : Chan α} (h : c.run ops = some (c', replies)) (hop : c'.perform op = some (c'', reply)) :
    c.run (ops ++ [op]) = some (c'', replies ++ [reply]) := by
  induction ops generalizing c replies with
  | nil =>
    obtain ⟨rfl, rfl⟩ := Prod.mk.inj (Option.some.inj h)
    simp [run, hop]
  | cons op ops ih =>
    obtain ⟨⟨c₁, reply₁⟩, h₁, hrest⟩ := Option.bind_eq_some_iff.mp h
    obtain ⟨⟨c₂, rest⟩, h₂, heq⟩ := Option.map_eq_some_iff.mp hrest
    obtain ⟨rfl, rfl⟩ := Prod.mk.inj heq
    simp [run, h₁, ih h₂]

/-- What is logged is a run of the operations. -/
theorem run_of_replays {log : List (Entry (Call α) (Reply α))}
    (h : Replays (monitor α) c log c') :
    c.run (log.map fun x => x.op.op x.gaveUp) = some (c', log.map (·.reply)) := by
  induction h with
  | nil => rfl
  | carry _ hready hbody ih =>
    have hperform := perform_of_enabled hready
    rw [hbody] at hperform
    rw [List.map_append, List.map_append]
    exact run_concat ih hperform
  | giveUp _ hwait hreply ih =>
    rw [List.map_append, List.map_append]
    exact run_concat ih (perform_of_giveUp hwait hreply)

/-- Whatever the threads do, the calls they carry out are a run of the operations as single
steps with the same replies. Each thread's calls are in the order in which it makes them, the
last of them possibly still open, and what has returned stays in front of all later calls. -/
theorem linearizable (capacity n : Nat) (es : List (Event (Call α)))
    (w : World (Chan α) (Call α) (Reply α))
    (hrun : Runs.run (monitor α).step (start { capacity := capacity } n) es = some w) :
    Chan.run { capacity := capacity } (w.log.map fun x => x.op.op x.gaveUp) =
        some (w.shared, w.log.map (·.reply)) ∧
      (∀ i, (w.log.filter (·.thread = i)).map (·.op) ++ (w.threads[i]?.bind Pc.op).toList =
        callsOf i es) ∧
      ∀ pre post, es = pre ++ post → ∃ u later,
        Runs.run (monitor α).step (start { capacity := capacity } n) pre = some u ∧
          w.log = u.log ++ later := by
  refine ⟨run_of_replays (replays_of_run hrun), fun i => ?_, ?_⟩
  · have hops := ops_of_run hrun i
    rwa [ops_start, List.nil_append] at hops
  · rintro pre post rfl
    rw [Runs.run_append] at hrun
    obtain ⟨u, hpre, hpost⟩ := Option.bind_eq_some_iff.mp hrun
    obtain ⟨later, hlater⟩ := log_of_run hpost
    exact ⟨u, later, hpre, hlater⟩

/-- A receive sleeps and is woken by a send, but another one is faster. -/
def stolen : List (Event (Call Nat)) :=
  [.call 0 .recv, .enter 0 [], .call 1 (.send 7), .enter 1 [0], .call 2 .recvFor, .enter 2 [],
    .enter 0 []]

theorem linearizable_stolen :
    ∃ w, Runs.run (monitor Nat).step (start { capacity := 1 } 3) stolen = some w ∧
      Chan.run { capacity := 1 } [.send 7, .recvFor false] =
        some (w.shared, [.sent true, .received (some 7)]) := by
  obtain ⟨w, hrun⟩ : ∃ w, Runs.run (monitor Nat).step (start { capacity := 1 } 3) stolen = some w :=
    ⟨_, rfl⟩
  have hlog := (linearizable 1 3 stolen w hrun).1
  refine ⟨w, hrun, ?_⟩
  obtain rfl := Option.some.inj hrun
  exact hlog

theorem units_of_closed (cond : Condition) (h : c.closed = true) : units cond c = ⊤ := by
  cases cond <;> exact if_pos h

theorem sendBody_of_open (value : α) (hopen : c.closed = false) :
    c.sendBody value = (({ c with buf := c.buf ++ [value] }, .sent true), [.one .notEmpty]) :=
  if_neg (by simp [hopen])

/-- A value that is put into an open channel is one more item and one place less. -/
theorem units_push (value : α) (buf : List α) (hopen : c.closed = false) :
    units .notEmpty { c with buf := buf ++ [value] } = buf.length + 1 ∧
      units .notFull { c with buf := buf ++ [value] } =
        (c.capacity - (buf.length + 1) : Nat) := by
  simp [units, hopen]

/-- A value that is put into the buffer adds an item at most, and that is signalled. -/
theorem units_push_le (cond : Condition) (value : α) {buf : List α}
    (hle : buf.length ≤ c.buf.length) (hge : c.buf.length ≤ buf.length + 1) :
    units cond { c with buf := buf ++ [value] } ≤
      units cond c + [Signal.one Condition.notEmpty].count (.one cond) := by
  rcases Bool.eq_false_or_eq_true c.closed with hclosed | hopen
  · rw [units_of_closed (c := c) cond hclosed, top_add]
    exact le_top
  · cases cond with
    | notEmpty =>
      have hmore : (units .notEmpty c : ℕ∞) = c.buf.length := if_neg (by simp [hopen])
      rw [(units_push value buf hopen).1, hmore]
      simpa using hle
    | notFull =>
      have hmore : (units .notFull c : ℕ∞) = (c.capacity - c.buf.length : Nat) :=
        if_neg (by simp [hopen])
      rw [(units_push value buf hopen).2, hmore]
      refine le_trans (Nat.cast_le.mpr ?_) le_self_add
      omega

/-- A value that is taken out of an open channel is one item less and one place more. -/
theorem units_pop {value : α} {rest : List α} (hbuf : c.buf = value :: rest) :
    units .notEmpty { c with buf := rest } + 1 ≤ units .notEmpty c ∧
      units .notFull { c with buf := rest } ≤ units .notFull c + 1 := by
  cases hclosed : c.closed with
  | true => simp [units, hclosed]
  | false =>
    simp only [units, hclosed, hbuf, List.length_cons, Bool.false_eq_true, if_false]
    refine ⟨le_rfl, ?_⟩
    exact_mod_cast show c.capacity - rest.length ≤ c.capacity - (rest.length + 1) + 1 by omega

/-- A receive takes an item, if there is one, and signals the place. -/
theorem units_recvBody (hready : c.buf ≠ [] ∨ c.closed = true) :
    units .notEmpty c.recvBody.1.1 + 1 ≤ units .notEmpty c := by
  unfold recvBody
  cases hbuf : c.buf with
  | nil =>
    have hclosed := hready.resolve_left fun hne => hne hbuf
    simp [units_of_closed _ hclosed]
  | cons value rest => exact (units_pop hbuf).1

theorem units_recvBody_le (cond : Condition) :
    units cond c.recvBody.1.1 ≤ units cond c + c.recvBody.2.count (.one cond) := by
  unfold recvBody
  cases hbuf : c.buf with
  | nil => exact le_self_add
  | cons value rest =>
    cases cond with
    | notEmpty => exact le_self_add.trans ((units_pop hbuf).1.trans le_self_add)
    | notFull => simpa using (units_pop hbuf).2

theorem signalled_monitor : Signalled (monitor α) units where
  ready cond c h := by
    cases cond with
    | notEmpty =>
      obtain ⟨hbuf, hclosed⟩ : c.buf = [] ∧ c.closed = false := by simpa [monitor] using h
      simp [units, hbuf, hclosed]
    | notFull =>
      obtain ⟨hclosed, hfull⟩ : c.closed = false ∧ c.capacity ≤ c.buf.length := by
        simpa [monitor] using h
      simp [units, hclosed, Nat.sub_eq_zero_of_le hfull]
  takes call cond c hwait hready := by
    cases call with
    | send value =>
      obtain rfl := Option.some.inj hwait
      have hspace : c.closed = true ∨ c.buf.length < c.capacity := by simpa [monitor] using hready
      cases hclosed : c.closed with
      | true => simp [monitor, sendBody, hclosed, units_of_closed]
      | false =>
        have hlt := hspace.resolve_left (by simp [hclosed])
        have hmore : (units .notFull c : ℕ∞) = (c.capacity - c.buf.length : Nat) :=
          if_neg (by simp [hclosed])
        have hbody : (monitor α).body (.send value) c = _ := sendBody_of_open value hclosed
        rw [hbody, (units_push value c.buf hclosed).2, hmore]
        exact_mod_cast show c.capacity - (c.buf.length + 1) + 1 ≤ c.capacity - c.buf.length by omega
    | recv =>
      obtain rfl := Option.some.inj hwait
      exact units_recvBody (by simpa [monitor] using hready)
    | recvFor =>
      obtain rfl := Option.some.inj hwait
      exact units_recvBody (by simpa [monitor] using hready)
    | _ => cases hwait
  gives call cond c hwait hready := by
    cases call with
    | send value =>
      refine .inr ?_
      cases hclosed : c.closed with
      | true => simp [monitor, sendBody, hclosed]
      | false =>
        have hbody : (monitor α).body (.send value) c = _ := sendBody_of_open value hclosed
        rw [hbody]
        exact units_push_le cond value le_rfl (Nat.le_succ _)
    | trySend value =>
      refine .inr ?_
      simp only [monitor, trySendBody]
      split_ifs
      · exact le_self_add
      · exact le_self_add
      · exact units_push_le cond value le_rfl (Nat.le_succ _)
    | sendDropOldest value =>
      refine .inr ?_
      simp only [monitor, sendDropOldestBody]
      split_ifs
      · exact le_self_add
      · refine units_push_le cond value ?_ ?_ <;> rw [List.length_tail] <;> omega
      · exact units_push_le cond value le_rfl (Nat.le_succ _)
    | recv => exact .inr (units_recvBody_le cond)
    | recvFor => exact .inr (units_recvBody_le cond)
    | tryRecv => exact .inr (units_recvBody_le cond)
    | close => exact .inl (by cases cond <;> simp [monitor, closeBody])

/-- A thread sleeps in a receive. -/
def ReceiverAsleep (w : World (Chan α) (Call α) (Reply α)) : Prop :=
  .asleep .recv ∈ w.threads ∨ .asleep .recvFor ∈ w.threads

/-- A thread sleeps in a send. -/
def SenderAsleep (w : World (Chan α) (Call α) (Reply α)) : Prop :=
  ∃ value, .asleep (.send value) ∈ w.threads

/-- How many receives are awake and about to look at the buffer. -/
def receiversAwake (w : World (Chan α) (Call α) (Reply α)) : Nat :=
  w.threads.countP fun
    | .enters .recv | .enters .recvFor | .expired .recv | .expired .recvFor => true
    | _ => false

/-- How many sends are awake and about to look for space. -/
def sendersAwake (w : World (Chan α) (Call α) (Reply α)) : Nat :=
  w.threads.countP fun
    | .enters (.send _) | .expired (.send _) => true
    | _ => false

theorem ReceiverAsleep.sleeping (h : ReceiverAsleep w) :
    Sleeping (monitor α) .notEmpty w.threads := by
  rcases h with h | h
  · exact ⟨_, h, rfl⟩
  · exact ⟨_, h, rfl⟩

theorem SenderAsleep.sleeping (h : SenderAsleep w) : Sleeping (monitor α) .notFull w.threads := by
  obtain ⟨value, h⟩ := h
  exact ⟨_, h, rfl⟩

theorem awakeFor_notEmpty : awakeFor (monitor α) .notEmpty w.threads = receiversAwake w := by
  refine List.countP_congr fun pc _ => ?_
  rcases pc with _ | op | op | op
  · rfl
  · cases op <;> rfl
  · rfl
  · cases op <;> rfl

theorem awakeFor_notFull : awakeFor (monitor α) .notFull w.threads = sendersAwake w := by
  refine List.countP_congr fun pc _ => ?_
  rcases pc with _ | op | op | op
  · rfl
  · cases op <;> rfl
  · rfl
  · cases op <;> rfl

/-- Only an open channel has finitely many units. -/
theorem open_of_units_le {cond : Condition} {n : Nat} (h : units cond c ≤ n) :
    c.closed = false := by
  cases hclosed : c.closed with
  | false => rfl
  | true =>
    rw [units_of_closed cond hclosed, top_le_iff] at h
    exact absurd h (ENat.natCast_ne_top n)

theorem units_notEmpty_le {n : Nat} :
    units .notEmpty c ≤ n ↔ c.closed = false ∧ c.buf.length ≤ n := by
  constructor
  · intro h
    have hopen := open_of_units_le h
    refine ⟨hopen, ?_⟩
    rwa [units, if_neg (by simp [hopen]), Nat.cast_le] at h
  · rintro ⟨hopen, hle⟩
    rwa [units, if_neg (by simp [hopen]), Nat.cast_le]

theorem units_notFull_le {n : Nat} :
    units .notFull c ≤ n ↔ c.closed = false ∧ c.capacity ≤ c.buf.length + n := by
  constructor
  · intro h
    have hopen := open_of_units_le h
    refine ⟨hopen, ?_⟩
    rw [units, if_neg (by simp [hopen]), Nat.cast_le] at h
    omega
  · rintro ⟨hopen, hle⟩
    rw [units, if_neg (by simp [hopen]), Nat.cast_le]
    omega

/-- No wake-up is lost: while a receive sleeps the channel is open and there is an awake receive
for every buffered item, and while a send sleeps it is open and there is an awake send for every
free place. -/
theorem no_lost_wakeup (capacity n : Nat) (es : List (Event (Call α)))
    (w : World (Chan α) (Call α) (Reply α))
    (hrun : Runs.run (monitor α).step (start { capacity := capacity } n) es = some w) :
    (ReceiverAsleep w → w.shared.closed = false ∧ w.shared.buf.length ≤ receiversAwake w) ∧
      (SenderAsleep w → w.shared.closed = false ∧
        w.shared.capacity ≤ w.shared.buf.length + sendersAwake w) := by
  have hcovered := covered_of_run signalled_monitor hrun
  constructor
  · intro h
    have hle := hcovered .notEmpty h.sleeping
    rw [awakeFor_notEmpty] at hle
    exact units_notEmpty_le.mp hle
  · intro h
    have hle := hcovered .notFull h.sleeping
    rw [awakeFor_notFull] at hle
    exact units_notFull_le.mp hle

theorem no_lost_wakeup_stolen :
    ∃ w, Runs.run (monitor Nat).step (start { capacity := 1 } 3) stolen = some w ∧
      ReceiverAsleep w ∧ w.shared.buf.length ≤ receiversAwake w := by
  obtain ⟨w, hrun⟩ : ∃ w, Runs.run (monitor Nat).step (start { capacity := 1 } 3) stolen = some w :=
    ⟨_, rfl⟩
  have hasleep : ReceiverAsleep w := by
    obtain rfl := Option.some.inj hrun
    exact .inl List.mem_cons_self
  exact ⟨w, hrun, hasleep, ((no_lost_wakeup 1 3 stolen w hrun).1 hasleep).2⟩

/-- Without new calls every schedule of the threads ends, and then nobody wants the lock, a
receive sleeps only on an empty open channel and a send only on a full open one. -/
theorem settles (capacity n : Nat) (es : List (Event (Call α)))
    (w : World (Chan α) (Call α) (Reply α))
    (hrun : Runs.run (monitor α).step (start { capacity := capacity } n) es = some w) :
    Inevitably (Enters (monitor α)) (fun u => Quiet u ∧
      (ReceiverAsleep u → u.shared.closed = false ∧ u.shared.buf = []) ∧
      (SenderAsleep u → u.shared.closed = false ∧ u.shared.capacity ≤ u.shared.buf.length)) w := by
  refine (inevitably_settled signalled_monitor hrun).mono fun u ⟨hquiet, hsettled⟩ =>
    ⟨hquiet, fun h => ?_, fun h => ?_⟩
  · obtain ⟨hopen, hle⟩ := units_notEmpty_le.mp (hsettled .notEmpty h.sleeping).le
    exact ⟨hopen, List.eq_nil_of_length_eq_zero (Nat.le_zero.mp hle)⟩
  · exact units_notFull_le.mp (hsettled .notFull h.sleeping).le

theorem settles_stolen :
    ∃ w, Runs.run (monitor Nat).step (start { capacity := 1 } 3) (stolen.take 4) = some w ∧
      Inevitably (Enters (monitor Nat)) (fun u => Quiet u ∧
        (ReceiverAsleep u → u.shared.closed = false ∧ u.shared.buf = []) ∧
        (SenderAsleep u → u.shared.closed = false ∧ u.shared.capacity ≤ u.shared.buf.length))
      w := by
  obtain ⟨w, hrun⟩ :
      ∃ w, Runs.run (monitor Nat).step (start { capacity := 1 } 3) (stolen.take 4) = some w :=
    ⟨_, rfl⟩
  exact ⟨w, hrun, settles 1 3 (stolen.take 4) w hrun⟩

end CppCan.Chan
