import CppCan.Core.Holders
import CppCan.Core.Schedules
import CppCan.SocketCan.Reception

/-!
# The end of a shutdown

Once the reader is told to stop, the threads come to an end by themselves, in whatever order
they go on and whatever the kernel answers. Nobody waits for the lock for ever, since a thread
that holds it does not wait, and `close` waits for the reader outside the lock. In the end every
call has returned, the descriptor and every channel are closed and nothing that was read is left.
-/

namespace CppCan.SocketCan

open CppCan.Core CppCan.Relay

/-- How a thread holds the lock of the bus. -/
def Pc.hold : Pc → Hold
  | .sendCheck _ | .readHeld _ => .shared
  | .subscribeHeld _ _ | .closeHeld | .closing _ => .unique
  | _ => .free

/-- How many steps a thread has before it at most, with so many channels to be closed, once the
reader is told to stop. -/
def Pc.stepsLeft (channels : Nat) : Pc → Nat
  | .idle | .readExited | .returned _ => 0
  | .sendLock _ => 4
  | .sendCheck _ => 3
  | .sendWrite _ => 2
  | .writing _ _ => 1
  | .subscribeLock _ _ | .closeLock => 2
  | .subscribeHeld _ _ | .closeHeld => 1
  | .closeStop => channels + 6
  | .closeJoin => channels + 5
  | .closeFd => channels + 4
  | .closeReset => channels + 3
  | .closeRelock => channels + 2
  | .closing rest => rest.length + 1
  | .reading => 4
  | .readLock _ => 3
  | .readHeld _ => 2
  | .readCheck => 1

/-- The thread is on its way to close the descriptor. -/
def Pc.joins : Pc → Bool
  | .closeJoin | .closeFd => true
  | _ => false

section Step

variable {s s' : Socket} {i : Nat} {readerExited : Bool} {reply : KernelReply} {pc pc' : Pc}

theorem Pc.stepsLeft_mono (pc : Pc) {m n : Nat} (h : m ≤ n) : pc.stepsLeft m ≤ pc.stepsLeft n := by
  cases pc with
  | closeStop | closeJoin | closeFd | closeReset | closeRelock => exact Nat.add_le_add_right h _
  | _ => exact Nat.le_refl _

/-- The thread has passed the lock on as it says. -/
theorem Outcome.held {hold : Nat → Hold} (h : Outcome s i readerExited reply pc s' pc')
    (hheld : s.mu.HeldBy hold) (hi : hold i = pc.hold) :
    s'.mu.HeldBy (Function.update hold i pc'.hold) := by
  cases h with
  | sendLocked hmu | readLocked hmu => exact hheld.lockShared hmu hi
  | sendRefused | sendChecked | handed => exact hheld.unlockShared hi
  | subscribeLocked hmu | closeLocked hmu | relocked hmu => exact hheld.lockUnique hmu hi
  | subscribed | closeAgain | closeBegun | cleared => exact hheld.unlockUnique hi
  | @written fd cf ok r =>
    obtain ⟨-, -, -, hmu, -⟩ := World.write_keeps s fd cf ok
    rw [hmu]
    exact hheld.keep hi.symm
  | _ => exact hheld.keep hi.symm

/-- A step of a bus that has been stopped. -/
theorem Outcome.after_stop (h : Outcome s i readerExited reply pc s' pc')
    (hstop : s.stop = true) (hclosed : s.bus.closed = true) :
    s'.bus.subs.length ≤ s.bus.subs.length ∧
      pc'.stepsLeft s'.bus.subs.length < pc.stepsLeft s.bus.subs.length ∧ s'.stop = true := by
  cases h with
  | sendChecked hopen | closeBegun hopen => cases hopen.symm.trans hclosed
  | readNext hrun => cases hrun.symm.trans hstop
  | @written fd cf ok r =>
    obtain ⟨hbus, -, -, -, hkeep⟩ := World.write_keeps s fd cf ok
    rw [hkeep, hbus]
    exact ⟨Nat.le_refl _, Nat.zero_lt_one, hstop⟩
  | @subscribed _ filters opts r =>
    have hsame : (s.bus.subscribe filters opts).1 = s.bus := by
      rw [Bus.subscribe, hclosed]
      rfl
    rw [hsame]
    exact ⟨Nat.le_refl _, Nat.zero_lt_one, hstop⟩
  | @handed _ f =>
    rw [(s.bus.fanOut_keeps f).1]
    exact ⟨Nat.le_refl _, Nat.one_lt_two, hstop⟩
  | cleared => exact ⟨Nat.zero_le _, Nat.zero_lt_one, hstop⟩
  | shut => exact ⟨Nat.le_refl _, Nat.lt_succ_self _, hstop⟩
  | stopped => exact ⟨Nat.le_refl _, Nat.lt_succ_self _, rfl⟩
  | _ => exact ⟨Nat.le_refl _, by simp [Pc.stepsLeft], hstop⟩

/-- A thread in a call goes on, unless it waits for the lock or for the reader. -/
theorem exists_step (s : Socket) (i : Nat) (hpc : pc.quiet = false) (hexit : pc.exited = false)
    (hjoin : pc = .closeJoin → readerExited = true)
    (hlock : pc.hold = .free →
      (s.mu.lockShared i).isSome = true ∧ (s.mu.lockUnique i).isSome = true) :
    ∃ reply, (s.step i readerExited reply pc).isSome = true := by
  cases pc with
  | idle | returned => cases hpc
  | readExited => cases hexit
  | writing => exact ⟨.wrote true, rfl⟩
  | reading => exact ⟨.read .again, rfl⟩
  | closeJoin => exact ⟨.none, by rw [Socket.step, if_pos (hjoin rfl)]; rfl⟩
  | sendLock | readLock =>
    exact ⟨.none, by rw [Socket.step, Option.isSome_map]; exact (hlock rfl).1⟩
  | subscribeLock | closeLock | closeRelock =>
    exact ⟨.none, by rw [Socket.step, Option.isSome_map]; exact (hlock rfl).2⟩
  | closing rest => cases rest <;> exact ⟨.none, rfl⟩
  | sendWrite | subscribeHeld | closeStop | closeReset | readHeld => exact ⟨.none, rfl⟩
  | sendCheck | closeHeld | closeFd | readCheck =>
    refine ⟨.none, ?_⟩
    simp only [Socket.step]
    split_ifs <;> rfl

end Step

namespace Session

/-- What holds of a session besides, whether it is shut down or not. -/
structure Tidy (fd : Nat) (s : Session) : Prop where
  sound : Sound s
  guarded : s.world.Guarded fd
  held : s.world.socket.mu.HeldBy fun i => (s.world.threads i).hold
  stopped : s.world.socket.stop = true → s.bus.closed = true ∧
    (s.world.socket.released = true ∨ ∃ i, (s.world.threads i).joins = true)
  bounded : ∃ n, ∀ i ≥ n, s.world.threads i = .idle

/-- The threads go on; no call begins. -/
def Goes (s s' : Session) : Prop := ∃ i reply, s.act (.step (.advance i reply)) = some s'

/-- The shutdown is over. -/
structure Over (s : Session) : Prop where
  returned : ∀ i, i ≠ 0 → (s.world.threads i).quiet = true
  exited : (s.world.threads 0).exited = true
  released : s.world.socket.released = true
  closed : ∀ ch < s.opened.length, (s.bus.chan ch).closed = true
  handed_eq : s.handed = s.read.map KernelFrame.toFrame

variable {s s' : Session} {a : Act} {fd i : Nat}

theorem hold_update (threads : Nat → Pc) (i : Nat) (pc : Pc) :
    (fun j => (Function.update threads i pc j).hold) =
      Function.update (fun j => (threads j).hold) i pc.hold := by
  funext j
  by_cases hj : j = i
  · simp [hj]
  · simp [hj]

/-- A thread takes a step. -/
theorem outcome_of_advance {reply : KernelReply} (h : s.act (.step (.advance i reply)) = some s') :
    ∃ socket pc, Outcome s.world.socket i (s.world.threads 0).exited reply (s.world.threads i)
      socket pc ∧ s'.world = ⟨socket, Function.update s.world.threads i pc⟩ := by
  obtain ⟨w, hw, rfl⟩ := Option.map_eq_some_iff.mp h
  obtain ⟨⟨socket, pc⟩, hstep, rfl⟩ := Option.map_eq_some_iff.mp hw
  exact ⟨socket, pc, Socket.outcome_of_step hstep, rfl⟩

/-- Whoever was to close the descriptor still is, or has done it. -/
theorem Tidy.stopped_advance {reply : KernelReply} {socket : Socket} {pc : Pc} (h : Tidy fd s)
    (ho : Outcome s.world.socket i (s.world.threads 0).exited reply (s.world.threads i) socket pc)
    (hstop : socket.stop = true) : socket.bus.closed = true ∧
      (socket.released = true ∨ ∃ j, (Function.update s.world.threads i pc j).joins = true) := by
  have hkeep : (s.world.threads i).joins = false → s.world.socket.stop = true →
      (s.world.socket.released = true ∨
        ∃ j, (Function.update s.world.threads i pc j).joins = true) := by
    intro hi hstop
    rcases (h.stopped hstop).2 with hreleased | ⟨j, hj⟩
    · exact .inl hreleased
    · have hne : j ≠ i := by
        rintro rfl
        cases hi.symm.trans hj
      exact .inr ⟨j, by rwa [Function.update_of_ne hne]⟩
  have hbus : s.world.socket.stop = true → s.world.socket.bus.closed = true := fun hstop =>
    (h.stopped hstop).1
  generalize hpc : s.world.threads i = pc₀ at ho hkeep
  cases ho with
  | stopped => exact ⟨h.guarded.closed i (by rw [hpc]; rfl), .inr ⟨i, by simp [Pc.joins]⟩⟩
  | joined => exact ⟨hbus hstop, .inr ⟨i, by simp [Pc.joins]⟩⟩
  | released => exact ⟨hbus hstop, .inl rfl⟩
  | notOpen hfd =>
    have hnumber := (h.guarded.intact i (by rw [hpc]; rfl)).1
    omega
  | closeBegun => exact ⟨rfl, hkeep rfl hstop⟩
  | @written fd cf ok r =>
    obtain ⟨hsame, -, hreleased, -, hrun⟩ := World.write_keeps s.world.socket fd cf ok
    rw [hsame, hreleased]
    exact ⟨hbus (hrun.symm.trans hstop), hkeep rfl (hrun.symm.trans hstop)⟩
  | @subscribed _ filters opts r =>
    exact ⟨(Socket.subscribe_closed _ filters opts).trans (hbus hstop), hkeep rfl hstop⟩
  | @handed _ f => exact ⟨(Socket.fanOut_closed _ f).trans (hbus hstop), hkeep rfl hstop⟩
  | _ => exact ⟨hbus hstop, hkeep rfl hstop⟩

/-- A thread takes a step. -/
theorem Tidy.advance {reply : KernelReply} (h : Tidy fd s)
    (ha : s.act (.step (.advance i reply)) = some s') : Tidy fd s' := by
  obtain ⟨socket, pc, ho, hworld⟩ := outcome_of_advance ha
  have hguarded : s'.world.Guarded fd := by
    obtain ⟨w, hw, rfl⟩ := Option.map_eq_some_iff.mp ha
    exact h.guarded.step hw
  refine ⟨h.sound.act ha, hguarded, ?_, ?_, ?_⟩
  · rw [hworld, hold_update]
    exact ho.held h.held rfl
  · unfold bus
    rw [hworld]
    exact h.stopped_advance ho
  · obtain ⟨n, hn⟩ := h.bounded
    refine ⟨n, fun j hj => ?_⟩
    have hne : j ≠ i := by
      rintro rfl
      rw [hn j hj] at ho
      cases ho
    rw [hworld]
    exact (Function.update_of_ne hne _ _).trans (hn j hj)

theorem hold_begin (c : Call) : c.begin.hold = .free := by
  cases c with
  | send f =>
    unfold Call.begin
    dsimp only
    split
    · rfl
    · split_ifs <;> rfl
  | subscribe filters opts => rfl
  | close => rfl

theorem hold_of_quiet {pc : Pc} (h : pc.quiet = true) : pc.hold = .free ∧ pc.joins = false := by
  cases pc with
  | idle | returned => exact ⟨rfl, rfl⟩
  | _ => cases h

/-- A call begins. -/
theorem Tidy.begin {c : Call} (h : Tidy fd s) (ha : s.act (.step (.begin i c)) = some s') :
    Tidy fd s' := by
  have hsound := h.sound.act ha
  obtain ⟨w, hw, rfl⟩ := Option.map_eq_some_iff.mp ha
  have hguarded := h.guarded.step hw
  simp only [World.step] at hw
  split at hw
  · rename_i hquiet
    obtain rfl := Option.some.inj hw
    obtain ⟨hfree, hjoins⟩ := hold_of_quiet hquiet
    refine ⟨hsound, hguarded, ?_, fun hstop => ⟨(h.stopped hstop).1, ?_⟩, ?_⟩
    · rw [hold_update]
      exact h.held.keep ((hold_begin c).trans hfree.symm)
    · rcases (h.stopped hstop).2 with hreleased | ⟨j, hj⟩
      · exact .inl hreleased
      · have hne : j ≠ i := by
          rintro rfl
          cases hjoins.symm.trans hj
        refine .inr ⟨j, ?_⟩
        dsimp only
        rwa [Function.update_of_ne hne]
    · obtain ⟨n, hn⟩ := h.bounded
      refine ⟨max n (i + 1), fun j hj => ?_⟩
      have hne : j ≠ i := Nat.ne_of_gt (le_of_max_le_right hj)
      exact (Function.update_of_ne hne _ _).trans (hn j (le_of_max_le_left hj))
  · cases hw

/-- A consumer receives. -/
theorem Tidy.receive {ch : Nat} {op : Chan.Op Frame} (h : Tidy fd s)
    (ha : s.act (.receive ch op) = some s') : Tidy fd s' := by
  have hsound := h.sound.act ha
  simp only [act] at ha
  split at ha
  · obtain ⟨⟨c, reply⟩, -, rfl⟩ := Option.map_eq_some_iff.mp ha
    obtain ⟨hsole, hclosed, hnumber, hintact, hopened, hloaded⟩ := h.guarded
    exact ⟨hsound, ⟨hsole, hclosed, hnumber, hintact, hopened, hloaded⟩, h.held, h.stopped,
      h.bounded⟩
  · cases ha

theorem Tidy.act (h : Tidy fd s) (ha : s.act a = some s') : Tidy fd s' := by
  match a with
  | .step (.begin i c) => exact h.begin ha
  | .step (.advance i reply) => exact h.advance ha
  | .receive ch op => exact h.receive ha

theorem tidy_start (fd : Nat) : Tidy fd (start fd) := by
  have hidle : ∀ i, i ≠ 0 → (start fd).world.threads i = .idle := by
    intro i hi
    change Function.update (fun _ => Pc.idle) 0 .readCheck i = .idle
    rw [Function.update_of_ne hi]
  have hfree : ∀ i, ((start fd).world.threads i).hold = .free := by
    intro i
    by_cases hi : i = 0
    · rw [hi]
      rfl
    · rw [hidle i hi]
      rfl
  refine ⟨sound_start fd, @World.guarded_of_run _ fd [] rfl, ⟨fun i => ?_, fun i => ?_⟩, nofun,
    ⟨1, fun i hi => hidle i (Nat.ne_of_gt hi)⟩⟩
  · rw [hfree i]
    exact iff_of_false List.not_mem_nil nofun
  · rw [hfree i]
    exact iff_of_false nofun nofun

/-- Some thread goes on until all have come to an end. -/
theorem Tidy.exists_goes (h : Tidy fd s)
    (hnot : ¬ ((∀ i, i ≠ 0 → (s.world.threads i).quiet = true) ∧
      (s.world.threads 0).exited = true)) : ∃ s', Goes s s' := by
  have hgo : ∀ {i}, (∃ reply, (s.world.socket.step i (s.world.threads 0).exited reply
      (s.world.threads i)).isSome = true) → ∃ s', Goes s s' := by
    rintro i ⟨reply, hstep⟩
    obtain ⟨⟨socket, pc⟩, hstep⟩ := Option.isSome_iff_exists.mp hstep
    refine ⟨{ s.note reply (s.world.threads i) with
      world := ⟨socket, Function.update s.world.threads i pc⟩ }, i, reply, ?_⟩
    simp only [Session.act, World.step, hstep, Option.map_some]
  by_cases hheld : ∀ i, (s.world.threads i).hold = .free
  · have hlock := h.held.available hheld
    by_cases hexit : (s.world.threads 0).exited = true
    · obtain ⟨i, hi, hcall⟩ : ∃ i, i ≠ 0 ∧ (s.world.threads i).quiet = false := by
        by_contra hnone
        refine hnot ⟨fun i hi => ?_, hexit⟩
        by_contra hquiet
        exact hnone ⟨i, hi, Bool.eq_false_iff.mpr hquiet⟩
      have hother : (s.world.threads i).exited = false := by
        refine Bool.eq_false_iff.mpr fun hexited => hi (h.sound.eq_zero ?_)
        rw [part, part_of_exited hexited]
        rfl
      exact hgo (exists_step _ i hcall hother (fun _ => hexit) fun _ => hlock i)
    · have hreads := (h.sound.reader 0).mpr rfl
      have hcall : (s.world.threads 0).quiet = false := by
        refine Bool.eq_false_iff.mpr fun hquiet => ?_
        rw [part, (part_of_quiet hquiet).1] at hreads
        cases hreads
      refine hgo (exists_step _ 0 hcall (Bool.eq_false_iff.mpr hexit) (fun hjoin => ?_) fun _ =>
        hlock 0)
      rw [part, hjoin] at hreads
      cases hreads
  · obtain ⟨i, hi⟩ := not_forall.mp hheld
    refine hgo (exists_step _ i ?_ ?_ (fun hjoin => ?_) fun hfree => absurd hfree hi)
    · exact Bool.eq_false_iff.mpr fun hquiet => hi (hold_of_quiet hquiet).1
    · cases hpc : s.world.threads i with
      | readExited => exact absurd (by rw [hpc]; rfl) hi
      | _ => rfl
    · exact absurd (by rw [hjoin]; rfl) hi

/-- Every step that a thread takes brings the end nearer. -/
theorem Tidy.goes {n : Nat} (h : Tidy fd s) (hstop : s.world.socket.stop = true)
    (hidle : ∀ i ≥ n, s.world.threads i = .idle) (hgoes : Goes s s') :
    s'.world.socket.stop = true ∧ (∀ i ≥ n, s'.world.threads i = .idle) ∧
      ∑ i ∈ Finset.range n, (s'.world.threads i).stepsLeft s'.bus.subs.length <
        ∑ i ∈ Finset.range n, (s.world.threads i).stepsLeft s.bus.subs.length := by
  obtain ⟨i, reply, ha⟩ := hgoes
  obtain ⟨socket, pc, ho, hworld⟩ := outcome_of_advance ha
  obtain ⟨hsubs, hless, hstop'⟩ := ho.after_stop hstop (h.stopped hstop).1
  have hi : i < n := by
    by_contra hge
    rw [hidle i (Nat.le_of_not_lt hge)] at ho
    cases ho
  unfold bus
  rw [hworld]
  refine ⟨hstop', fun j hj => ?_, ?_⟩
  · exact (Function.update_of_ne (Nat.ne_of_gt (Nat.lt_of_lt_of_le hi hj)) _ _).trans (hidle j hj)
  · exact sum_lt_of_update hi hless fun pc => pc.stepsLeft_mono hsubs

/-- When all threads have come to an end, the shutdown is over. -/
theorem Tidy.over (h : Tidy fd s) (hstop : s.world.socket.stop = true)
    (hreturned : ∀ i, i ≠ 0 → (s.world.threads i).quiet = true)
    (hexit : (s.world.threads 0).exited = true) : Over s := by
  have hserved := h.sound.served
  obtain ⟨hclosed, hreleased⟩ := h.stopped hstop
  have hidle : ∀ i, (s.part i).shuts = false ∧ (s.world.threads i).joins = false := by
    intro i
    by_cases hi : i = 0
    · rw [hi, part]
      cases hpc : s.world.threads 0 with
      | readExited => exact ⟨rfl, rfl⟩
      | _ => rw [hpc] at hexit; cases hexit
    · rw [part, (part_of_quiet (hreturned i hi)).1]
      exact ⟨rfl, (hold_of_quiet (hreturned i hi)).2⟩
  refine ⟨hreturned, hexit, ?_, hserved.shut hclosed fun i => (hidle i).1,
    h.sound.handed_eq (part_of_exited hexit)⟩
  refine hreleased.resolve_right ?_
  rintro ⟨i, hi⟩
  cases (hidle i).2.symm.trans hi

/-- Once the reader is told to stop, every schedule of the threads ends the shutdown. -/
theorem shutdown_completes (fd : Nat) (acts : List Act)
    (hrun : Runs.run Session.act (start fd) acts = some s)
    (hstop : s.world.socket.stop = true) : Inevitably Goes Over s := by
  have htidy : Tidy fd s :=
    Runs.invariant (Tidy fd) (fun _ _ _ hu ha => hu.act ha) (tidy_start fd) hrun
  obtain ⟨n, hidle⟩ := htidy.bounded
  refine Inevitably.of_rank (fun k u =>
    ∑ i ∈ Finset.range n, (u.world.threads i).stepsLeft u.bus.subs.length = k ∧ Tidy fd u ∧
      u.world.socket.stop = true ∧ ∀ i ≥ n, u.world.threads i = .idle) ?_
    ⟨rfl, htidy, hstop, hidle⟩
  rintro k u ⟨rfl, hu, hstop, hidle⟩
  by_cases hend : (∀ i, i ≠ 0 → (u.world.threads i).quiet = true) ∧
      (u.world.threads 0).exited = true
  · exact .inl (hu.over hstop hend.1 hend.2)
  · refine .inr ⟨hu.exists_goes hend, fun v hgoes => ?_⟩
    obtain ⟨hstop', hidle', hless⟩ := hu.goes hstop hidle hgoes
    obtain ⟨i, reply, ha⟩ := hgoes
    exact ⟨_, hless, rfl, hu.act ha, hstop', hidle'⟩

/-- A sender and the reader with a frame in its hands are in the way of a `close`. -/
def closing : List Act :=
  [.step (.begin 1 (.subscribe [] [])), .step (.advance 1 .none), .step (.advance 1 .none),
    .step (.advance 0 .none), .step (.advance 0 (.read (.frame (.can { canId := 0x123 })))),
    .step (.begin 2 (.send { id := 0x124 })), .step (.begin 1 .close), .step (.advance 1 .none),
    .step (.advance 1 .none), .step (.advance 1 .none)]

theorem shutdown_completes_closing : ∃ s, Runs.run Session.act (start 3) closing = some s ∧
    s.handed = [] ∧ s.read.length = 1 ∧ Inevitably Goes Over s := by
  obtain ⟨s, hs, hhanded, hread, hstop⟩ : ∃ s, Runs.run Session.act (start 3) closing = some s ∧
      s.handed = [] ∧ s.read.length = 1 ∧ s.world.socket.stop = true := ⟨_, rfl, rfl, rfl, rfl⟩
  exact ⟨s, hs, hhanded, hread, shutdown_completes 3 closing hs hstop⟩

end Session

end CppCan.SocketCan
