import CppCan.Virt.Bus
import Mathlib.Logic.Function.Basic
import Mathlib.Logic.Relation
import Mathlib.Tactic.ByContra

/-!
# Closing a bus under concurrent calls

Any number of threads call the bus and receive from its channels. A sender keeps
the shared lock during its fan-out, so a sender that waits at a full channel
keeps `close` out. As long as no sender waits there, a pending `close` never
finds all calls of the bus waiting.
-/

namespace CppCan.Virt

open CppCan.Core CppCan.Relay Relation

/-- A bus and where each thread is. -/
structure World where
  bus : Bus := {}
  threads : Nat → Pc := fun _ => .idle

/-- The thread is in no call. -/
def Pc.quiet : Pc → Bool
  | .idle | .returned _ => true
  | _ => false

/-- The thread is in a call of the bus, not in a consumer's `recv`. -/
def Pc.busCall : Pc → Bool
  | .idle | .returned _ | .recv _ => false
  | _ => true

/-- The thread is in `close`. -/
def Pc.closePending : Pc → Bool
  | .closeLock | .closeHeld | .closing _ => true
  | _ => false

/-- The thread holds the shared lock. -/
def Pc.holdsShared : Pc → Bool
  | .sendCheck _ | .fanOut _ _ => true
  | _ => false

/-- The thread holds the unique lock. -/
def Pc.holdsUnique : Pc → Bool
  | .subscribeHeld _ _ | .closeHeld | .closing _ => true
  | _ => false

/-- What a scheduler may choose next. -/
inductive Event where
  | begin (i : Nat) (c : Call)
  | advance (i : Nat)

/-- The thread an event is about. -/
def Event.thread : Event → Nat
  | .begin i _ => i
  | .advance i => i

namespace World

/-- Thread `i` takes the next step of its call. -/
def advance (w : World) (i : Nat) : Option World :=
  (w.bus.step i (w.threads i)).map fun (b, pc) => ⟨b, Function.update w.threads i pc⟩

/-- The world after an event, if it can happen. -/
def step (w : World) : Event → Option World
  | .begin i c =>
    if (w.threads i).quiet then
      some ⟨(c.begin w.bus).1, Function.update w.threads i (c.begin w.bus).2⟩
    else none
  | .advance i => w.advance i

/-- The world after a sequence of events. -/
def run : World → List Event → Option World
  | w, [] => some w
  | w, e :: es => (w.step e).bind fun w => w.run es

/-- Some event happens. -/
def Step (w w' : World) : Prop := ∃ e, w.step e = some w'

/-- A `close` has begun and not returned. -/
def ClosePending (w : World) : Prop := ∃ i, (w.threads i).closePending = true

/-- Some call of the bus itself can take a step. -/
def CallEnabled (w : World) : Prop := ∃ i, (w.threads i).busCall = true ∧ (w.advance i).isSome

/-- A sender waits at a full open channel under the `block` policy. -/
def SenderWaits (w : World) : Prop :=
  ∃ i f s rest, w.threads i = .fanOut f (s :: rest) ∧ matchesAny s.filters f = true ∧
    s.backPressure = .block ∧ (w.bus.chan s.ch).closed = false ∧
    (w.bus.chan s.ch).capacity ≤ (w.bus.chan s.ch).buf.length

/-- The lock is held by exactly the threads that are inside it. -/
structure LockHeld (w : World) : Prop where
  shared : ∀ i, i ∈ w.bus.mu.readers ↔ (w.threads i).holdsShared = true
  unique : ∀ i, w.bus.mu.writer = some i ↔ (w.threads i).holdsUnique = true

end World

/-- What a step of thread `i` does to the lock. -/
inductive LockStep (i : Nat) (mu : RwLock) : RwLock → Pc → Pc → Prop
  | keep {pc pc' : Pc} (hs : pc'.holdsShared = pc.holdsShared)
      (hu : pc'.holdsUnique = pc.holdsUnique) : LockStep i mu mu pc pc'
  | lockShared {mu' : RwLock} {pc pc' : Pc} (h : mu.lockShared i = some mu')
      (hpc : pc.holdsUnique = false) (hs : pc'.holdsShared = true)
      (hu : pc'.holdsUnique = false) : LockStep i mu mu' pc pc'
  | unlockShared {pc pc' : Pc} (hpc : pc.holdsUnique = false) (hs : pc'.holdsShared = false)
      (hu : pc'.holdsUnique = false) : LockStep i mu (mu.unlockShared i) pc pc'
  | lockUnique {mu' : RwLock} {pc pc' : Pc} (h : mu.lockUnique i = some mu')
      (hpc : pc.holdsShared = false) (hs : pc'.holdsShared = false)
      (hu : pc'.holdsUnique = true) : LockStep i mu mu' pc pc'
  | unlockUnique {pc pc' : Pc} (hpc : pc.holdsUnique = true) (hps : pc.holdsShared = false)
      (hs : pc'.holdsShared = false) (hu : pc'.holdsUnique = false) :
      LockStep i mu mu.unlockUnique pc pc'

namespace Bus

variable {b b' : Bus} {i : Nat}

/-- Every step of a call treats the lock in one of these ways. -/
theorem lockStep_of_step {pc pc' : Pc} (h : b.step i pc = some (b', pc')) :
    LockStep i b.mu b'.mu pc pc' := by
  cases outcome_of_step h with
  | sendLocked hmu => exact .lockShared hmu rfl rfl rfl
  | sendRefused hclosed => exact .unlockShared rfl rfl rfl
  | sendAccepted hopen => exact .keep rfl rfl
  | sendDone => exact .unlockShared rfl rfl rfl
  | delivered hdeliver =>
    rw [deliver_mu hdeliver]
    exact .keep rfl rfl
  | subscribeLocked hmu => exact .lockUnique hmu rfl rfl rfl
  | subscribeRefused hclosed => exact .unlockUnique rfl rfl rfl rfl
  | subscribed hopen => exact .unlockUnique rfl rfl rfl rfl
  | closeLocked hmu => exact .lockUnique hmu rfl rfl rfl
  | closeAgain hclosed => exact .unlockUnique rfl rfl rfl rfl
  | closeBegun hopen => exact .keep rfl rfl
  | closeDone => exact .unlockUnique rfl rfl rfl rfl
  | closeNext => exact .keep rfl rfl
  | received hrecv => exact .keep rfl rfl

end Bus

namespace World

variable {w w' : World} {i : Nat}

/-- A thread that holds the unique lock excludes all other holders of it. -/
theorem LockHeld.unique_eq (h : w.LockHeld) {j : Nat} (hi : (w.threads i).holdsUnique = true)
    (hj : (w.threads j).holdsUnique = true) : i = j :=
  Option.some.inj (((h.unique i).mpr hi).symm.trans ((h.unique j).mpr hj))

/-- The lock stays with the threads inside it. -/
theorem LockHeld.of_lockStep {b : Bus} {pc : Pc} (h : w.LockHeld)
    (hl : LockStep i w.bus.mu b.mu (w.threads i) pc) :
    LockHeld ⟨b, Function.update w.threads i pc⟩ := by
  generalize hmu : b.mu = mu at hl
  constructor <;> intro j <;> by_cases hj : j = i
  · subst hj
    simp only [Function.update_self, hmu]
    cases hl with
    | keep hs _ => rw [h.shared, hs]
    | lockShared hlock _ hs _ =>
      obtain ⟨-, rfl⟩ := by simpa [RwLock.lockShared] using hlock
      simp [hs]
    | unlockShared _ hs _ => simp [RwLock.unlockShared, hs]
    | lockUnique hlock hpc hs _ =>
      obtain ⟨-, rfl⟩ := by simpa [RwLock.lockUnique] using hlock
      simp [h.shared, hpc, hs]
    | unlockUnique _ hps hs _ => simp [RwLock.unlockUnique, h.shared, hps, hs]
  · simp only [Function.update_of_ne hj, hmu, ← h.shared]
    cases hl with
    | keep => rfl
    | lockShared hlock =>
      obtain ⟨-, rfl⟩ := by simpa [RwLock.lockShared] using hlock
      simp [hj]
    | unlockShared => simp [RwLock.unlockShared, hj]
    | lockUnique hlock =>
      obtain ⟨-, rfl⟩ := by simpa [RwLock.lockUnique] using hlock
      rfl
    | unlockUnique => rfl
  · subst hj
    simp only [Function.update_self, hmu]
    cases hl with
    | keep _ hu => rw [h.unique, hu]
    | lockShared hlock hpc _ hu =>
      obtain ⟨-, rfl⟩ := by simpa [RwLock.lockShared] using hlock
      simp [h.unique, hpc, hu]
    | unlockShared hpc _ hu => simp [RwLock.unlockShared, h.unique, hpc, hu]
    | lockUnique hlock _ _ hu =>
      obtain ⟨-, rfl⟩ := by simpa [RwLock.lockUnique] using hlock
      simp [hu]
    | unlockUnique _ _ _ hu => simp [RwLock.unlockUnique, hu]
  · simp only [Function.update_of_ne hj, hmu, ← h.unique]
    cases hl with
    | keep => rfl
    | lockShared hlock =>
      obtain ⟨-, rfl⟩ := by simpa [RwLock.lockShared] using hlock
      rfl
    | unlockShared => rfl
    | lockUnique hlock =>
      obtain ⟨⟨hnone, -⟩, rfl⟩ := by simpa [RwLock.lockUnique] using hlock
      simp [hnone, Ne.symm hj]
    | unlockUnique hpc =>
      have hne : w.bus.mu.writer ≠ some j := fun hw =>
        hj (h.unique_eq hpc ((h.unique j).mp hw)).symm
      simp [RwLock.unlockUnique, hne]

/-- The beginning of a call does not touch the lock. -/
theorem lockStep_begin {mu : RwLock} (b : Bus) (c : Call) {pc : Pc} (hq : pc.quiet = true)
    (hmu : b.mu = mu) : LockStep i mu (c.begin b).1.mu pc (c.begin b).2 := by
  subst hmu
  have hpc : pc.holdsShared = false ∧ pc.holdsUnique = false := by
    cases pc <;> simp_all [Pc.quiet, Pc.holdsShared, Pc.holdsUnique]
  cases c with
  | send f =>
    simp only [Call.begin]
    split
    · exact .keep hpc.1.symm hpc.2.symm
    · exact .keep hpc.1.symm hpc.2.symm
  | subscribe => exact .keep hpc.1.symm hpc.2.symm
  | close => exact .keep hpc.1.symm hpc.2.symm
  | recv => exact .keep hpc.1.symm hpc.2.symm

/-- Every event leaves the lock with the threads inside it. -/
theorem LockHeld.step (h : w.LockHeld) (hs : Step w w') : w'.LockHeld := by
  obtain ⟨e, he⟩ := hs
  cases e with
  | begin i c =>
    simp only [World.step] at he
    split at he
    · rename_i hq
      obtain rfl := Option.some.inj he
      exact h.of_lockStep (lockStep_begin w.bus c hq rfl)
    · exact absurd he (by simp)
  | advance i =>
    obtain ⟨⟨b, pc⟩, hb, rfl⟩ := Option.map_eq_some_iff.mp he
    exact h.of_lockStep (Bus.lockStep_of_step hb)

/-- In every reachable world the lock is held by the threads inside it. -/
theorem lockHeld_of_run (h : ReflTransGen Step {} w) : w.LockHeld := by
  induction h with
  | refl => exact ⟨by simp [Pc.holdsShared], by simp [Pc.holdsUnique]⟩
  | tail _ hs ih => exact ih.step hs

/-- A thread with the unique lock does not wait. -/
theorem enabled_of_holdsUnique (h : (w.threads i).holdsUnique = true) : w.CallEnabled := by
  refine ⟨i, ?_, ?_⟩
  · generalize w.threads i = pc at h
    cases pc <;> simp_all [Pc.holdsUnique, Pc.busCall]
  · simp only [advance, Option.isSome_map]
    generalize w.threads i = pc at h
    cases pc with
    | subscribeHeld filters cfg =>
      simp only [Bus.step]
      split <;> rfl
    | closeHeld =>
      simp only [Bus.step]
      split <;> rfl
    | closing rest => cases rest <;> rfl
    | _ => exact absurd h (by simp [Pc.holdsUnique])

/-- A thread with the shared lock waits only at a full channel. -/
theorem enabled_of_holdsShared (h : (w.threads i).holdsShared = true) (hfree : ¬ w.SenderWaits) :
    w.CallEnabled := by
  refine ⟨i, ?_, ?_⟩
  · generalize w.threads i = pc at h
    cases pc <;> simp_all [Pc.holdsShared, Pc.busCall]
  · simp only [advance, Option.isSome_map]
    cases hpc : w.threads i with
    | sendCheck f =>
      simp only [Bus.step]
      split <;> rfl
    | fanOut f rest =>
      cases rest with
      | nil => rfl
      | cons s rest =>
        simp only [Bus.step, Option.isSome_map]
        by_contra hnone
        exact hfree ⟨i, f, s, rest, hpc,
          Bus.deliver_eq_none (Option.not_isSome_iff_eq_none.mp hnone)⟩
    | _ => exact absurd h (by simp [hpc, Pc.holdsShared])

/-- In every run, wherever no sender waits at a full open channel under the `block`
policy, a pending `close` leaves some call of the bus enabled. -/
theorem close_not_blocked (w : World) (h : ReflTransGen Step {} w) (hfree : ¬ w.SenderWaits)
    (hclose : w.ClosePending) : w.CallEnabled := by
  have hheld := lockHeld_of_run h
  obtain ⟨i, hi⟩ := hclose
  cases hw : w.bus.mu.writer with
  | some j => exact enabled_of_holdsUnique ((hheld.unique j).mp hw)
  | none =>
    cases hr : w.bus.mu.readers with
    | cons j js =>
      exact enabled_of_holdsShared ((hheld.shared j).mp (hr ▸ List.mem_cons_self)) hfree
    | nil =>
      -- Nobody holds the lock, so the thread in `close` takes it.
      cases hpc : w.threads i with
      | closeLock =>
        refine ⟨i, by rw [hpc]; rfl, ?_⟩
        simp [advance, hpc, Bus.step, RwLock.lockUnique, hw, hr]
      | closeHeld => exact enabled_of_holdsUnique (by rw [hpc]; rfl)
      | closing rest => exact enabled_of_holdsUnique (by rw [hpc]; rfl)
      | _ => exact absurd hi (by simp [hpc, Pc.closePending])

/-- The states of a run are linked by steps. -/
theorem steps_of_run {es : List Event} (h : w.run es = some w') : ReflTransGen Step w w' := by
  induction es generalizing w with
  | nil => exact Option.some.inj h ▸ .refl
  | cons e es ih =>
    obtain ⟨u, hu, hrest⟩ := Option.bind_eq_some_iff.mp h
    exact .head ⟨e, hu⟩ (ih hrest)

/-- A thread without events stays where it is. -/
theorem threads_of_run {es : List Event} (h : w.run es = some w') (hi : ∀ e ∈ es, e.thread ≠ i) :
    w'.threads i = w.threads i := by
  induction es generalizing w with
  | nil => exact Option.some.inj h ▸ rfl
  | cons e es ih =>
    obtain ⟨u, hu, hrest⟩ := Option.bind_eq_some_iff.mp h
    rw [ih hrest fun e' he' => hi e' (List.mem_cons_of_mem e he')]
    have hne := hi e List.mem_cons_self
    cases e with
    | begin j c =>
      simp only [World.step] at hu
      split at hu
      · obtain rfl := Option.some.inj hu
        exact Function.update_of_ne (Ne.symm hne) _ _
      · exact absurd hu (by simp)
    | advance j =>
      obtain ⟨⟨b, pc⟩, -, rfl⟩ := Option.map_eq_some_iff.mp hu
      exact Function.update_of_ne (Ne.symm hne) _ _

/-- A subscription of depth one under the `block` policy, and a frame that fills it. -/
def fillChannel : List Event :=
  [.begin 0 (.subscribe [] [withChannelDepth 1, withBackPressure .block]), .advance 0, .advance 0,
    .begin 1 (.send { id := 0x10, data := [1] }), .advance 1, .advance 1, .advance 1, .advance 1]

/-- With the channel full and no sender waiting, a `close` can go on. -/
theorem close_not_blocked_full :
    ∃ w : World, ReflTransGen Step {} w ∧ w.ClosePending ∧ w.CallEnabled := by
  obtain ⟨w, hw⟩ : ∃ w, World.run {} (fillChannel ++ [.begin 2 .close]) = some w := ⟨_, rfl⟩
  have h0 : w.threads 0 = .returned (.subscribed (.ok 0)) := by
    obtain rfl := Option.some.inj hw
    rfl
  have h1 : w.threads 1 = .returned (.sent none) := by
    obtain rfl := Option.some.inj hw
    rfl
  have h2 : w.threads 2 = .closeLock := by
    obtain rfl := Option.some.inj hw
    rfl
  have hclose : w.ClosePending := ⟨2, by rw [h2]; rfl⟩
  refine ⟨w, steps_of_run hw, hclose, close_not_blocked w (steps_of_run hw) ?_ hclose⟩
  rintro ⟨i, f, s, rest, hpc, -⟩
  by_cases hi : i = 0 ∨ i = 1 ∨ i = 2
  · rcases hi with rfl | rfl | rfl <;> simp_all
  · rw [threads_of_run hw (by simp [fillChannel, Event.thread]; omega)] at hpc
    exact absurd hpc (by simp)

/-- A second frame waits in the fan-out while `close` waits for the lock: no call of
the bus can go on. -/
theorem close_blocked :
    ¬ ∀ w : World, ReflTransGen Step {} w → w.ClosePending → w.CallEnabled := by
  intro h
  obtain ⟨w, hw⟩ : ∃ w, World.run {} (fillChannel ++ [.begin 1 (.send { id := 0x10, data := [2] }),
      .advance 1, .advance 1, .begin 2 .close]) = some w := ⟨_, rfl⟩
  have h0 : (w.threads 0).busCall = false ∧ w.advance 1 = none ∧ w.advance 2 = none ∧
      (w.threads 2).closePending = true := by
    obtain rfl := Option.some.inj hw
    exact ⟨rfl, rfl, rfl, rfl⟩
  obtain ⟨i, hcall, hstep⟩ := h w (steps_of_run hw) ⟨2, h0.2.2.2⟩
  by_cases hi : i = 0 ∨ i = 1 ∨ i = 2
  · rcases hi with rfl | rfl | rfl <;> simp_all
  · rw [threads_of_run hw (by simp [fillChannel, Event.thread]; omega)] at hcall
    exact absurd hcall (by simp [Pc.busCall])

end World

end CppCan.Virt
