import CppCan.Core.Runs
import CppCan.Core.Schedules
import Mathlib.Data.ENat.Basic
import Mathlib.Data.List.Forall2

/-!
# Monitors

A monitor is a state under one lock, with conditions that threads sleep on. A method may
begin with a wait: the thread that holds the lock looks whether the condition is ready, and
sleeps without the lock if it is not. A woken thread has to take the lock again and looks
again. A signal wakes one sleeper, chosen by the run, or all of them, and is lost if there
is none; sleepers may also wake by themselves, and a timed wait may be given up.
-/

namespace CppCan.Core

/-- What a method signals at its end. -/
inductive Signal (κ : Type) where
  | one (c : κ)
  | all (c : κ)
  deriving DecidableEq, Repr

/-- A monitor with states `σ`, conditions `κ`, methods `ω` and replies `ρ`. -/
structure Monitor (σ κ ω ρ : Type) where
  /-- The condition a method waits for before it does anything. -/
  waitsOn : ω → Option κ
  ready : κ → σ → Bool
  /-- What a method does when it need not wait. -/
  body : ω → σ → (σ × ρ) × List (Signal κ)
  /-- What a timed wait replies when the time has run out. -/
  giveUp : ω → Option ρ

namespace Monitor

variable {σ κ ω ρ : Type}

/-- Where a thread is: outside, about to take the lock, asleep on the condition of its method, or
about to take the lock after its time has run out. -/
inductive Pc (ω : Type) where
  | idle
  | enters (op : ω)
  | asleep (op : ω)
  | expired (op : ω)
  deriving DecidableEq, Repr

/-- A call that has been carried out. -/
structure Entry (ω ρ : Type) where
  thread : Nat
  op : ω
  gaveUp : Bool
  reply : ρ
  deriving DecidableEq, Repr

/-- A monitor with its threads and the calls carried out so far. -/
structure World (σ ω ρ : Type) where
  shared : σ
  threads : List (Pc ω)
  log : List (Entry ω ρ) := []

/-- What may happen next: a call, a thread takes the lock, a sleeper wakes by itself, or a timed
wait runs out. -/
inductive Event (ω : Type) where
  | call (i : Nat) (op : ω)
  | enter (i : Nat) (picks : List Nat)
  | rouse (i : Nat)
  | expire (i : Nat)
  deriving DecidableEq, Repr

/-- The method the thread is in. -/
def Pc.op : Pc ω → Option ω
  | .idle => none
  | .enters op | .asleep op | .expired op => some op

/-- The thread does not sleep, but wants the lock. -/
def Pc.awake : Pc ω → Bool
  | .enters _ | .expired _ => true
  | _ => false

/-- A sleeper wakes. -/
def Pc.woken : Pc ω → Pc ω
  | .asleep op => .enters op
  | pc => pc

section Step

variable [DecidableEq κ] (m : Monitor σ κ ω ρ)

/-- The thread sleeps on the condition. -/
def sleepsOn (c : κ) : Pc ω → Bool
  | .asleep op => m.waitsOn op == some c
  | _ => false

/-- The thread wants the lock for a method that waits for the condition. -/
def awakeOn (c : κ) : Pc ω → Bool
  | .enters op | .expired op => m.waitsOn op == some c
  | _ => false

/-- Nothing keeps the method from being carried out. -/
def enabled (op : ω) (s : σ) : Bool := (m.waitsOn op).all (m.ready · s)

/-- Wake every sleeper on the condition. -/
def wakeAll (c : κ) (threads : List (Pc ω)) : List (Pc ω) :=
  threads.map fun pc => if m.sleepsOn c pc then pc.woken else pc

/-- Give the signals in turn. Each `one` that finds a sleeper wakes the thread picked for it,
which has to be one of the sleepers. -/
def signal (threads : List (Pc ω)) : List (Signal κ) → List Nat → Option (List (Pc ω))
  | [], _ => some threads
  | .all c :: signals, picks => signal (m.wakeAll c threads) signals picks
  | .one c :: signals, picks =>
    if threads.any (m.sleepsOn c) then
      match picks with
      | [] => none
      | i :: picks =>
        match threads[i]? with
        | none => none
        | some pc =>
          if m.sleepsOn c pc then signal (threads.set i pc.woken) signals picks else none
    else signal threads signals picks

/-- The thread that holds the lock carries out its method and leaves. -/
def perform (w : World σ ω ρ) (i : Nat) (op : ω) (picks : List Nat) : Option (World σ ω ρ) :=
  let ((s, reply), signals) := m.body op w.shared
  (m.signal (w.threads.set i .idle) signals picks).map fun threads =>
    { shared := s, threads, log := w.log ++ [⟨i, op, false, reply⟩] }

/-- One step of a run. -/
def step (w : World σ ω ρ) : Event ω → Option (World σ ω ρ)
  | .call i op =>
    match w.threads[i]? with
    | some .idle => some { w with threads := w.threads.set i (.enters op) }
    | _ => none
  | .enter i picks =>
    match w.threads[i]? with
    | some (.enters op) =>
      if m.enabled op w.shared then m.perform w i op picks
      else some { w with threads := w.threads.set i (.asleep op) }
    | some (.expired op) =>
      if m.enabled op w.shared then m.perform w i op picks
      else (m.giveUp op).map fun reply =>
        { w with
          threads := w.threads.set i .idle
          log := w.log ++ [⟨i, op, true, reply⟩] }
    | _ => none
  | .rouse i =>
    match w.threads[i]? with
    | some (.asleep op) => some { w with threads := w.threads.set i (.enters op) }
    | _ => none
  | .expire i =>
    match w.threads[i]? with
    | some (.asleep op) =>
      if (m.giveUp op).isSome then some { w with threads := w.threads.set i (.expired op) }
      else none
    | _ => none

end Step

/-- A monitor with `n` threads outside of it. -/
def start (s : σ) (n : Nat) : World σ ω ρ := { shared := s, threads := List.replicate n .idle }

variable [DecidableEq κ] {m : Monitor σ κ ω ρ} {w w' : World σ ω ρ} {e : Event ω}
  {es : List (Event ω)} {i j : Nat} {op : ω} {c : κ}

/-- The changes a step makes. -/
inductive Moved (m : Monitor σ κ ω ρ) (w : World σ ω ρ) : Event ω → World σ ω ρ → Prop
  | call {i : Nat} {op : ω} (hi : w.threads[i]? = some .idle) :
      Moved m w (.call i op) { w with threads := w.threads.set i (.enters op) }
  | sleep {i : Nat} {op : ω} {picks : List Nat} (hi : w.threads[i]? = some (.enters op))
      (hwait : m.enabled op w.shared = false) :
      Moved m w (.enter i picks) { w with threads := w.threads.set i (.asleep op) }
  | carry {i : Nat} {op : ω} {pc : Pc ω} {picks : List Nat} {s : σ} {reply : ρ}
      {signals : List (Signal κ)} {threads : List (Pc ω)} (hi : w.threads[i]? = some pc)
      (hpc : pc = .enters op ∨ pc = .expired op) (hready : m.enabled op w.shared = true)
      (hbody : m.body op w.shared = ((s, reply), signals))
      (hsignal : m.signal (w.threads.set i .idle) signals picks = some threads) :
      Moved m w (.enter i picks)
        { shared := s, threads, log := w.log ++ [⟨i, op, false, reply⟩] }
  | giveUp {i : Nat} {op : ω} {picks : List Nat} {reply : ρ}
      (hi : w.threads[i]? = some (.expired op)) (hwait : m.enabled op w.shared = false)
      (hreply : m.giveUp op = some reply) :
      Moved m w (.enter i picks)
        { w with threads := w.threads.set i .idle, log := w.log ++ [⟨i, op, true, reply⟩] }
  | rouse {i : Nat} {op : ω} (hi : w.threads[i]? = some (.asleep op)) :
      Moved m w (.rouse i) { w with threads := w.threads.set i (.enters op) }
  | expire {i : Nat} {op : ω} (hi : w.threads[i]? = some (.asleep op))
      (htimed : (m.giveUp op).isSome = true) :
      Moved m w (.expire i) { w with threads := w.threads.set i (.expired op) }

theorem moved_of_perform {pc : Pc ω} {picks : List Nat} (hi : w.threads[i]? = some pc)
    (hpc : pc = .enters op ∨ pc = .expired op) (hready : m.enabled op w.shared = true)
    (h : m.perform w i op picks = some w') : Moved m w (.enter i picks) w' := by
  unfold perform at h
  generalize hbody : m.body op w.shared = out at h
  obtain ⟨⟨s, reply⟩, signals⟩ := out
  obtain ⟨threads, hsignal, rfl⟩ := Option.map_eq_some_iff.mp h
  exact .carry hi hpc hready hbody hsignal

/-- Every step makes one of these changes. -/
theorem moved_of_step (h : m.step w e = some w') : Moved m w e w' := by
  cases e with
  | call i op =>
    simp only [step] at h
    split at h
    · rename_i hi
      exact Option.some.inj h ▸ .call hi
    · cases h
  | enter i picks =>
    simp only [step] at h
    split at h
    · rename_i op hi
      cases hready : m.enabled op w.shared with
      | true =>
        rw [if_pos hready] at h
        exact moved_of_perform hi (.inl rfl) hready h
      | false =>
        rw [if_neg (by simp [hready])] at h
        exact Option.some.inj h ▸ .sleep hi hready
    · rename_i op hi
      cases hready : m.enabled op w.shared with
      | true =>
        rw [if_pos hready] at h
        exact moved_of_perform hi (.inr rfl) hready h
      | false =>
        rw [if_neg (by simp [hready])] at h
        obtain ⟨reply, hreply, rfl⟩ := Option.map_eq_some_iff.mp h
        exact .giveUp hi hready hreply
    · cases h
  | rouse i =>
    simp only [step] at h
    split at h
    · rename_i hi
      exact Option.some.inj h ▸ .rouse hi
    · cases h
  | expire i =>
    simp only [step] at h
    split at h
    · rename_i hi
      split at h
      · rename_i htimed
        exact Option.some.inj h ▸ .expire hi htimed
      · cases h
    · cases h

/-- Threads after signals: each is as before, or was asleep and has been woken. -/
def Roused (threads threads' : List (Pc ω)) : Prop :=
  List.Forall₂ (fun pc pc' => pc' = pc ∨ pc' = pc.woken) threads threads'

theorem Roused.refl (threads : List (Pc ω)) : Roused threads threads :=
  List.forall₂_same.mpr fun _ _ => .inl rfl

theorem Pc.woken_woken (pc : Pc ω) : pc.woken.woken = pc.woken := by cases pc <;> rfl

theorem Roused.trans {ts ts' ts'' : List (Pc ω)} (h : Roused ts ts') (h' : Roused ts' ts'') :
    Roused ts ts'' := by
  induction h generalizing ts'' with
  | nil => exact h'
  | cons hpc _ ih =>
    cases h' with
    | cons hpc' hrest =>
      refine .cons ?_ (ih hrest)
      rcases hpc with rfl | rfl <;> rcases hpc' with rfl | rfl
      · exact .inl rfl
      · exact .inr rfl
      · exact .inr rfl
      · exact .inr (Pc.woken_woken _)

theorem roused_wakeAll (c : κ) (threads : List (Pc ω)) : Roused threads (m.wakeAll c threads) := by
  induction threads with
  | nil => exact .nil
  | cons pc threads ih =>
    refine .cons ?_ ih
    dsimp only
    split_ifs
    · exact .inr rfl
    · exact .inl rfl

theorem roused_set {threads : List (Pc ω)} {pc : Pc ω} (hi : threads[i]? = some pc) :
    Roused threads (threads.set i pc.woken) := by
  induction threads generalizing i with
  | nil => exact .nil
  | cons pc' threads ih =>
    cases i with
    | zero =>
      obtain rfl := Option.some.inj hi
      exact .cons (.inr rfl) (Roused.refl threads)
    | succ i => exact .cons (.inl rfl) (ih hi)

/-- Signals wake sleepers and do nothing else. -/
theorem roused_of_signal {threads threads' : List (Pc ω)} {signals : List (Signal κ)}
    {picks : List Nat} (h : m.signal threads signals picks = some threads') :
    Roused threads threads' := by
  induction signals generalizing threads picks with
  | nil => exact Option.some.inj h ▸ .refl _
  | cons sig signals ih =>
    cases sig with
    | all c => exact (roused_wakeAll c threads).trans (ih h)
    | one c =>
      simp only [signal] at h
      split at h
      · split at h
        · cases h
        · split at h
          · cases h
          · rename_i hi
            split at h
            · exact (roused_set hi).trans (ih h)
            · cases h
      · exact ih h

theorem Roused.getElem? {threads threads' : List (Pc ω)} (h : Roused threads threads') (i : Nat) :
    threads'[i]? = threads[i]? ∨ threads'[i]? = threads[i]?.map Pc.woken := by
  induction h generalizing i with
  | nil => exact .inl rfl
  | cons hpc _ ih =>
    cases i with
    | zero =>
      rcases hpc with rfl | rfl
      · exact .inl rfl
      · exact .inr rfl
    | succ i => exact ih i

/-- What is logged, carried out one call after another. -/
inductive Replays (m : Monitor σ κ ω ρ) (s : σ) : List (Entry ω ρ) → σ → Prop
  | nil : Replays m s [] s
  | carry {log : List (Entry ω ρ)} {s' s'' : σ} {i : Nat} {op : ω} {reply : ρ}
      {signals : List (Signal κ)} (h : Replays m s log s') (hready : m.enabled op s' = true)
      (hbody : m.body op s' = ((s'', reply), signals)) :
      Replays m s (log ++ [⟨i, op, false, reply⟩]) s''
  | giveUp {log : List (Entry ω ρ)} {s' : σ} {i : Nat} {op : ω} {reply : ρ}
      (h : Replays m s log s') (hwait : m.enabled op s' = false)
      (hreply : m.giveUp op = some reply) : Replays m s (log ++ [⟨i, op, true, reply⟩]) s'

theorem Replays.step {s : σ} (h : Replays m s w.log w.shared) (hstep : m.step w e = some w') :
    Replays m s w'.log w'.shared := by
  cases moved_of_step hstep with
  | call => exact h
  | sleep => exact h
  | carry _ _ hready hbody => exact h.carry hready hbody
  | giveUp _ hwait hreply => exact h.giveUp hwait hreply
  | rouse => exact h
  | expire => exact h

/-- The calls of every run, in the order in which they are carried out, are a sequence of calls
under the lock with the same replies. -/
theorem replays_of_run {s : σ} {n : Nat} (hrun : Runs.run m.step (start s n) es = some w) :
    Replays m s w.log w.shared :=
  Runs.invariant (fun w => Replays m s w.log w.shared) (fun _ _ _ h hstep => h.step hstep) .nil
    hrun

/-- What one thread calls in the course of a run. -/
def callsOf (i : Nat) : List (Event ω) → List ω
  | [] => []
  | .call j op :: es => if j = i then op :: callsOf i es else callsOf i es
  | _ :: es => callsOf i es

/-- The calls of a thread: those that are logged and the one it is in. -/
def World.ops (w : World σ ω ρ) (i : Nat) : List ω :=
  (w.log.filter (·.thread = i)).map (·.op) ++ (w.threads[i]?.bind Pc.op).toList

theorem op_set {threads : List (Pc ω)} {pc pc' : Pc ω} (hi : threads[i]? = some pc)
    (hop : pc'.op = pc.op) (j : Nat) :
    ((threads.set i pc')[j]?.bind Pc.op) = threads[j]?.bind Pc.op := by
  by_cases hij : i = j
  · subst hij
    have hlt : i < threads.length := (List.getElem?_eq_some_iff.mp hi).1
    rw [List.getElem?_set_self hlt, hi]
    exact hop
  · rw [List.getElem?_set_ne hij]

theorem op_signal {threads threads' : List (Pc ω)} {signals : List (Signal κ)} {picks : List Nat}
    (h : m.signal threads signals picks = some threads') (j : Nat) :
    (threads'[j]?.bind Pc.op) = threads[j]?.bind Pc.op := by
  have hwoken : ∀ pc : Pc ω, pc.woken.op = pc.op := fun pc => by cases pc <;> rfl
  rcases (roused_of_signal h).getElem? j with hj | hj
  · rw [hj]
  · rw [hj]
    cases threads[j]? with
    | none => rfl
    | some pc => exact hwoken pc

theorem ops_set {pc : Pc ω} (pc' : Pc ω) (hi : w.threads[i]? = some pc) (hop : pc'.op = pc.op)
    (j : Nat) :
    World.ops { w with threads := w.threads.set i pc' } j = w.ops j :=
  congrArg (fun op => (w.log.filter (·.thread = j)).map (·.op) ++ Option.toList op)
    (op_set hi hop j)

/-- A thread whose call is logged is in no call any more. -/
theorem ops_return {threads : List (Pc ω)} {pc : Pc ω} {gaveUp : Bool} {reply : ρ}
    (hi : w.threads[i]? = some pc) (hop : pc.op = some op)
    (hthreads : ∀ j : Nat, threads[j]?.bind Pc.op = (w.threads.set i .idle)[j]?.bind Pc.op) (s : σ)
    (j : Nat) :
    World.ops { shared := s, threads, log := w.log ++ [⟨i, op, gaveUp, reply⟩] } j = w.ops j := by
  have hlt : i < w.threads.length := (List.getElem?_eq_some_iff.mp hi).1
  simp only [World.ops, hthreads, List.filter_append, List.map_append]
  by_cases hij : i = j
  · subst hij
    rw [List.getElem?_set_self hlt, hi]
    simp [hop, show Pc.idle.op = (none : Option ω) from rfl]
  · rw [List.getElem?_set_ne hij]
    simp [hij]

theorem ops_step (hstep : m.step w e = some w') (i : Nat) :
    w'.ops i = w.ops i ++ callsOf i [e] := by
  cases moved_of_step hstep with
  | @call j op hj =>
    have hlt : j < w.threads.length := (List.getElem?_eq_some_iff.mp hj).1
    simp only [World.ops, callsOf]
    by_cases hij : j = i
    · subst hij
      rw [List.getElem?_set_self hlt, hj, if_pos rfl]
      simp [Pc.op]
    · rw [List.getElem?_set_ne hij, if_neg hij, List.append_nil]
  | sleep hj => exact (ops_set (.asleep _) hj rfl i).trans (List.append_nil _).symm
  | @carry j op pc _ _ _ _ _ hj hpc _ _ hsignal =>
    have hop : pc.op = some op := by rcases hpc with rfl | rfl <;> rfl
    exact (ops_return hj hop (op_signal hsignal) _ i).trans (List.append_nil _).symm
  | giveUp hj => exact (ops_return hj rfl (fun _ => rfl) _ i).trans (List.append_nil _).symm
  | rouse hj => exact (ops_set (.enters _) hj rfl i).trans (List.append_nil _).symm
  | expire hj => exact (ops_set (.expired _) hj rfl i).trans (List.append_nil _).symm

/-- Each thread's calls are carried out in the order in which it makes them; only the last one may
still be open. -/
theorem ops_of_run (hrun : Runs.run m.step w es = some w') (i : Nat) :
    w'.ops i = w.ops i ++ callsOf i es := by
  induction es generalizing w with
  | nil =>
    obtain rfl := Option.some.inj hrun
    exact (List.append_nil _).symm
  | cons e es ih =>
    obtain ⟨u, hu, hrest⟩ := Option.bind_eq_some_iff.mp hrun
    have hcalls : callsOf i (e :: es) = callsOf i [e] ++ callsOf i es := by
      cases e with
      | call j op =>
        simp only [callsOf]
        split_ifs <;> rfl
      | _ => rfl
    rw [ih hrest, ops_step hu, hcalls, List.append_assoc]

theorem ops_start (s : σ) (n i : Nat) : (start s n : World σ ω ρ).ops i = [] := by
  simp only [World.ops, start, List.filter_nil, List.map_nil, List.nil_append]
  cases hi : (List.replicate n (Pc.idle : Pc ω))[i]? with
  | none => rfl
  | some pc =>
    obtain rfl := List.eq_of_mem_replicate (List.mem_of_getElem? hi)
    rfl

/-- Calls that are logged stay in front of later ones. -/
theorem log_of_run (hrun : Runs.run m.step w es = some w') : ∃ later, w'.log = w.log ++ later := by
  refine Runs.invariant (fun u => ∃ later, u.log = w.log ++ later) ?_ ⟨[], by simp⟩ hrun
  rintro u e u' ⟨later, hlater⟩ hstep
  cases moved_of_step hstep with
  | call => exact ⟨later, hlater⟩
  | sleep => exact ⟨later, hlater⟩
  | carry => exact ⟨_, by rw [hlater, List.append_assoc]⟩
  | giveUp => exact ⟨_, by rw [hlater, List.append_assoc]⟩
  | rouse => exact ⟨later, hlater⟩
  | expire => exact ⟨later, hlater⟩

end Monitor

end CppCan.Core
