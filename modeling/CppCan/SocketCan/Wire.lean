import CppCan.SocketCan.Reception

/-!
# From one socket to another

Threads send on one bus while others subscribe to a second bus on the same wire. What the first
socket writes are the kernel frames of valid frames that its callers passed to `send`, so a
subscriber of the second one receives nothing but what its reader makes of these, in the order
in which they were written.
-/

namespace CppCan.SocketCan

open CppCan.Core CppCan.Relay

/-- The kernel frame of a frame that may be sent and has this property. -/
def IsCarrierOf (p : Frame → Prop) (cf : KernelFrame) : Prop :=
  ∃ f, (p f ∧ f.Valid ∧ f.xl = false) ∧ KernelFrame.ofFrame f = cf

/-- The kernel frame that the thread is going to write. -/
def Pc.outgoing : Pc → Option KernelFrame
  | .sendLock f | .sendCheck f => some (.ofFrame f)
  | .sendWrite cf | .writing _ cf => some cf
  | _ => none

/-- The frame as the reader of another socket makes it of its kernel frame. -/
def carried (f : Frame) : Frame := (KernelFrame.ofFrame f).toFrame

namespace World

/-- Nothing but frames with this property is written or on its way. -/
structure Carries (p : Frame → Prop) (w : World) : Prop where
  outgoing : ∀ i, ∀ cf ∈ (w.threads i).outgoing, IsCarrierOf p cf
  written : ∀ cf ∈ w.socket.written, IsCarrierOf p cf

variable {p : Frame → Prop} {w w' : World} {fd i : Nat} {e : Step} {steps : List Step}

theorem Carries.update {s : Socket} {pc : Pc} (h : w.Carries p)
    (hpc : ∀ cf ∈ pc.outgoing, IsCarrierOf p cf) (hs : ∀ cf ∈ s.written, IsCarrierOf p cf) :
    Carries p ⟨s, Function.update w.threads i pc⟩ := by
  refine ⟨fun j cf hcf => ?_, hs⟩
  dsimp only at hcf
  by_cases hj : j = i
  · rw [hj, Function.update_self] at hcf
    exact hpc cf hcf
  · rw [Function.update_of_ne hj] at hcf
    exact h.outgoing j cf hcf

/-- The thread has no frame to be sent. -/
theorem Carries.drop {s : Socket} {pc : Pc} (h : w.Carries p) (hpc : pc.outgoing = none)
    (hs : ∀ cf ∈ s.written, IsCarrierOf p cf) : Carries p ⟨s, Function.update w.threads i pc⟩ := by
  refine h.update (fun cf hcf => ?_) hs
  rw [hpc] at hcf
  cases hcf

/-- A thread takes on a frame to be sent. -/
theorem outgoing_begin (c : Call) (hc : ∀ f, c = .send f → p f) :
    ∀ cf ∈ c.begin.outgoing, IsCarrierOf p cf := by
  cases c with
  | send f =>
    unfold Call.begin
    dsimp only
    split
    · exact nofun
    · rename_i hvalid
      split_ifs with hxl
      · exact nofun
      · rintro cf ⟨⟩
        exact ⟨f, ⟨hc f rfl, hvalid, Bool.eq_false_iff.mpr hxl⟩, rfl⟩
  | subscribe filters opts => exact nofun
  | close => exact nofun

/-- A write that the kernel accepts is recorded, in time or late. -/
theorem mem_written {s : Socket} {d : Int} {cf cf' : KernelFrame} {ok : Bool}
    (h : cf' ∈ (s.write d cf ok).1.written) : cf' ∈ s.written ∨ cf' = cf := by
  unfold Socket.write at h
  split_ifs at h with hd hok hlate hlate
  · exact .inl h
  · exact .inl h
  · exact (List.mem_append.mp h).imp_right List.mem_singleton.mp
  · exact .inl h
  · exact .inl h

theorem Carries.step (h : w.Carries p) (hp : ∀ i f, e = .begin i (.send f) → p f)
    (he : w.step e = some w') : w'.Carries p := by
  cases e with
  | begin i c =>
    simp only [World.step] at he
    split at he
    · obtain rfl := Option.some.inj he
      exact h.update (outgoing_begin c fun f hf => hp i f (by rw [hf])) h.written
    · cases he
  | advance i reply =>
    obtain ⟨⟨s, pc⟩, hstep, rfl⟩ := Option.map_eq_some_iff.mp he
    have hout := h.outgoing i
    have ho := Socket.outcome_of_step hstep
    generalize w.threads i = pc₀ at ho hout
    cases ho with
    | sendLocked | sendChecked | sendLoaded => exact h.update hout h.written
    | @written d cf ok r =>
      refine h.drop rfl fun cf' hcf => ?_
      rcases mem_written hcf with hcf | rfl
      · exact h.written cf' hcf
      · exact hout cf' rfl
    | _ => exact h.drop rfl h.written

theorem carries_of_run (h : w.Carries p) (hp : ∀ i f, .begin i (.send f) ∈ steps → p f)
    (hrun : Runs.run World.step w steps = some w') : w'.Carries p := by
  induction steps generalizing w with
  | nil => exact Option.some.inj hrun ▸ h
  | cons e steps ih =>
    obtain ⟨u, he, hrest⟩ := Option.bind_eq_some_iff.mp hrun
    refine ih (h.step (fun i f hf => ?_) he) (fun i f hf => hp i f (List.mem_cons_of_mem _ hf))
      hrest
    exact hp i f (hf ▸ List.mem_cons_self)

theorem carries_opened (p : Frame → Prop) (fd : Nat) : (opened fd).Carries p := by
  refine ⟨fun i cf hcf => ?_, nofun⟩
  change cf ∈ ((Function.update (fun _ => Pc.idle) 0 .readCheck) i).outgoing at hcf
  by_cases hi : i = 0
  · rw [hi, Function.update_self] at hcf
    cases hcf
  · rw [Function.update_of_ne hi] at hcf
    cases hcf

end World

/-- Values that each have an origin have it together. -/
theorem exists_map_eq {α β : Type} {q : α → Prop} {g : α → β} {ys : List β}
    (h : ∀ y ∈ ys, ∃ x, q x ∧ g x = y) : ∃ xs : List α, (∀ x ∈ xs, q x) ∧ ys = xs.map g := by
  induction ys with
  | nil => exact ⟨[], nofun, rfl⟩
  | cons y ys ih =>
    obtain ⟨x, hx, rfl⟩ := h y List.mem_cons_self
    obtain ⟨xs, hxs, rfl⟩ := ih fun y hy => h y (List.mem_cons_of_mem _ hy)
    exact ⟨x :: xs, List.forall_mem_cons.mpr ⟨hx, hxs⟩, rfl⟩

/-- The frames that the reader hands over are among those it read. -/
theorem Session.Served.handed_sublist {s : Session} (h : s.Served) :
    s.handed.Sublist (s.read.map KernelFrame.toFrame) := by
  rw [h.read_eq]
  exact List.sublist_append_left _ _

/-- However the threads of both buses take turns, the written kernel frames are those of valid
frames that were passed to `send`. Where the second reader gets what was written, perhaps with
gaps, a subscriber receives what matches of these frames, in the order in which they were
written, and all of it when the wire, the channel and the shutdown leave nothing out. -/
theorem wire_delivers (fd fd' : Nat) {steps : List Step} {w : World} {acts : List Act}
    {s : Session} (hwriter : Runs.run World.step (World.opened fd) steps = some w)
    (hreader : Runs.run Session.act (Session.start fd') acts = some s)
    (hwire : s.read.Sublist w.socket.written) :
    ∃ sent : List Frame,
      (∀ f ∈ sent, (∃ i, .begin i (.send f) ∈ steps) ∧ f.Valid ∧ f.xl = false) ∧
      w.socket.written = sent.map .ofFrame ∧
      ∀ ch o, s.opened[ch]? = some o →
        (s.received ch).Sublist ((sent.map carried).filter (matchesAny o.filters)) ∧
        (s.read = w.socket.written → s.handed = s.read.map KernelFrame.toFrame → o.since = 0 →
          ((sent.map carried).filter (matchesAny o.filters)).length ≤
            (s.bus.chan ch).capacity →
          s.received ch ++ (s.bus.chan ch).buf =
            (sent.map carried).filter (matchesAny o.filters)) := by
  have hcarries := World.carries_of_run
    (World.carries_opened (fun f => ∃ i, .begin i (.send f) ∈ steps) fd)
    (fun i f hf => ⟨i, hf⟩) hwriter
  obtain ⟨sent, hsent, hwritten⟩ := exists_map_eq hcarries.written
  have hserved := (Session.sound_of_run hreader).served
  have hcarried : w.socket.written.map KernelFrame.toFrame = sent.map carried := by
    rw [hwritten, List.map_map]
    rfl
  refine ⟨sent, hsent, hwritten, fun ch o ho => ⟨?_, fun hread hhanded hsince hroom => ?_⟩⟩
  · have hsublist := (List.sublist_append_left _ _).trans (hserved.books ch o ho).sublist
    refine hsublist.trans (List.Sublist.filter _ ?_)
    rw [← hcarried]
    exact ((List.drop_sublist _ _).trans hserved.handed_sublist).trans (hwire.map _)
  · have hoffered : o.offered s.handed = (sent.map carried).filter (matchesAny o.filters) := by
      rw [Opening.offered, hsince, List.drop_zero, hhanded, hread, hcarried]
    rw [← hoffered] at hroom ⊢
    exact hserved.lossless ch o ho hroom

/-- A thread sends a frame. -/
def sending : List Step :=
  [.begin 1 (.send { id := 0x123, data := [1] }), .advance 1 .none, .advance 1 .none,
    .advance 1 .none, .advance 1 (.wrote true)]

/-- The reader of another socket gets it for a subscriber. -/
def receiving : List Act :=
  [.step (.begin 1 (.subscribe [] [])), .step (.advance 1 .none), .step (.advance 1 .none),
    .step (.advance 0 .none),
    .step (.advance 0 (.read (.frame (.ofFrame { id := 0x123, data := [1] })))),
    .step (.advance 0 .none), .step (.advance 0 .none), .receive 0 .tryRecv]

theorem wire_delivers_oneFrame : ∃ w s,
    Runs.run World.step (World.opened 3) sending = some w ∧
      Runs.run Session.act (Session.start 4) receiving = some s ∧
      s.received 0 = [{ id := 0x123, data := [1] }] ∧ ∃ sent : List Frame,
        w.socket.written = sent.map .ofFrame ∧ (s.received 0).Sublist (sent.map carried) := by
  obtain ⟨w, hw, hwritten⟩ : ∃ w, Runs.run World.step (World.opened 3) sending = some w ∧
      w.socket.written = [.ofFrame { id := 0x123, data := [1] }] := ⟨_, rfl, rfl⟩
  obtain ⟨s, hs, hread, hopened, hreceived⟩ : ∃ s,
      Runs.run Session.act (Session.start 4) receiving = some s ∧
        s.read = [.ofFrame { id := 0x123, data := [1] }] ∧ s.opened = [⟨[], 0⟩] ∧
        s.received 0 = [{ id := 0x123, data := [1] }] := ⟨_, rfl, rfl, rfl, rfl⟩
  obtain ⟨sent, -, hsent, hserved⟩ := wire_delivers 3 4 hw hs
    (by rw [hread, hwritten])
  have hsublist := (hserved 0 ⟨[], 0⟩ (by rw [hopened]; rfl)).1
  exact ⟨w, s, hw, hs, hreceived, sent, hsent, hsublist.trans List.filter_sublist⟩

end CppCan.SocketCan
