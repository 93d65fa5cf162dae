import CppCan.Can.Message
import CppCan.Can.Operations
import CppCan.Relay.Types

/-!
# The relay adapter and the capacity of its channels

A subscription of the adapter republishes the frames of the bus as numbered messages
into a channel of the depth the caller asks for, under the policy he asks for. A
channel is within its capacity at every moment unless the capacity is zero and a
drop-oldest send meets it open: that send evicts from an empty buffer, and what the
buffer holds after that is not defined.
-/

namespace CppCan

open CppCan.Relay

namespace Chan

variable {α : Type} {c c' : Chan α} {op : Op α} {ops : List (Op α)} {reply : Reply α}

/-- The operation removes the front of the buffer. -/
def pops (c : Chan α) : Op α → Bool
  | .sendDropOldest _ => !c.closed && c.buf.length ≥ c.capacity
  | .recv | .recvFor _ | .tryRecv => !c.buf.isEmpty
  | .send _ | .trySend _ | .close => false

/-- In every state of the run the buffer is within the capacity, and no operation
removes the front of an empty buffer. -/
def Safe : Chan α → List (Op α) → Prop
  | c, [] => c.Within
  | c, op :: ops =>
    c.Within ∧ ¬ (c.pops op = true ∧ c.buf = []) ∧
      ∀ c' reply, c.perform op = some (c', reply) → c'.Safe ops

/-- A safe run is safe from each of its states on. -/
theorem Safe.of_run {rest : List (Op α)} {replies : List (Reply α)} (h : c.Safe (ops ++ rest))
    (hrun : c.run ops = some (c', replies)) : c'.Safe rest := by
  induction ops generalizing c replies with
  | nil =>
    obtain ⟨rfl, rfl⟩ := Prod.mk.inj (Option.some.inj hrun)
    exact h
  | cons op ops ih =>
    obtain ⟨⟨c₁, reply⟩, h₁, hrest⟩ := Option.bind_eq_some_iff.mp hrun
    obtain ⟨⟨c₂, replies'⟩, h₂, heq⟩ := Option.map_eq_some_iff.mp hrest
    obtain ⟨rfl, rfl⟩ := Prod.mk.inj heq
    exact ih (h.2.2 c₁ reply h₁) h₂

/-- A run fixes the capacity, and leaves a channel open that it does not close. -/
theorem run_frame {replies : List (Reply α)} (hrun : c.run ops = some (c', replies)) :
    c'.capacity = c.capacity ∧ (c'.closed = true → .close ∈ ops ∨ c.closed = true) := by
  induction ops generalizing c replies with
  | nil =>
    obtain ⟨rfl, rfl⟩ := Prod.mk.inj (Option.some.inj hrun)
    exact ⟨rfl, .inr⟩
  | cons op ops ih =>
    obtain ⟨⟨c₁, reply⟩, h₁, hrest⟩ := Option.bind_eq_some_iff.mp hrun
    obtain ⟨⟨c₂, replies'⟩, h₂, heq⟩ := Option.map_eq_some_iff.mp hrest
    obtain ⟨rfl, rfl⟩ := Prod.mk.inj heq
    have heffect := effect_of_perform h₁
    obtain ⟨hcap, hclosed⟩ := ih h₂
    refine ⟨hcap.trans heffect.capacity_eq, fun hc => ?_⟩
    rcases hclosed hc with hmem | hc₁
    · exact .inl (List.mem_cons_of_mem op hmem)
    · cases heffect with
      | close => exact .inl List.mem_cons_self
      | _ => exact .inr hc₁

/-- With a capacity of at least one every run is safe. -/
theorem safe_of_pos (hcap : 0 < c.capacity) (hw : c.Within) : c.Safe ops := by
  induction ops generalizing c with
  | nil => exact hw
  | cons op ops ih =>
    refine ⟨hw, ?_, fun c' reply hc => ?_⟩
    · rintro ⟨hpops, hempty⟩
      cases op <;> simp [pops, hempty] at hpops
      omega
    · have heffect := effect_of_perform hc
      exact ih (heffect.capacity_eq ▸ hcap) (heffect.within hcap hw)

/-- With capacity zero a run is safe if no drop-oldest send meets the channel open. -/
theorem safe_of_zero (hcap : c.capacity = 0) (hempty : c.buf = [])
    (h : ∀ pre value post, ops = pre ++ .sendDropOldest value :: post →
      (c.run pre).isSome → .close ∈ pre ∨ c.closed = true) : c.Safe ops := by
  have hw : c.Within := by simp [Within, hempty]
  induction ops generalizing c with
  | nil => exact hw
  | cons op ops ih =>
    refine ⟨hw, ?_, fun c' reply hc => ?_⟩
    · rintro ⟨hpops, -⟩
      cases op with
      | sendDropOldest value =>
        have hclosed : c.closed = true := (h [] value ops rfl rfl).resolve_left (by simp)
        simp [pops, hclosed] at hpops
      | _ => simp [pops, hempty] at hpops
    · have hnext : ∀ pre value post, ops = pre ++ .sendDropOldest value :: post →
          (c'.run pre).isSome → .close ∈ op :: pre ∨ c.closed = true := by
        intro pre value post hops hpre
        refine h (op :: pre) value post (by rw [hops]; rfl) ?_
        obtain ⟨out, hout⟩ := Option.isSome_iff_exists.mp hpre
        simp [run, hc, hout]
      cases effect_of_perform hc with
      | accept _ _ _ _ hspace => exact absurd hspace (by omega)
      | @evict value hopen hfull =>
        have hclosed := (h [] value ops rfl rfl).resolve_left (by simp)
        exact absurd (hclosed.symm.trans hopen) (by simp)
      | take _ _ _ _ hbuf => exact absurd (hempty.symm.trans hbuf) (by simp)
      | refuse hclose =>
        refine ih hcap hempty (fun pre value post hops hpre => ?_) hw
        rcases hnext pre value post hops hpre with hmem | hclosed
        · exact .inl ((List.mem_cons.mp hmem).resolve_left (Ne.symm hclose))
        · exact .inr hclosed
      | close => exact ih hcap hempty (fun _ _ _ _ _ => .inr rfl) hw

/-- A run of a new channel is safe exactly if the capacity is at least one or no
drop-oldest send takes place on the open channel. -/
theorem safe_iff (capacity : Nat) (ops : List (Op α)) :
    Safe { capacity := capacity } ops ↔
      0 < capacity ∨ ∀ pre value post, ops = pre ++ .sendDropOldest value :: post →
        (run { capacity := capacity } pre).isSome → .close ∈ pre := by
  constructor
  · intro h
    by_cases hcap : 0 < capacity
    · exact .inl hcap
    · refine .inr fun pre value post hops hpre => ?_
      subst hops
      obtain ⟨⟨c, replies⟩, hrun⟩ := Option.isSome_iff_exists.mp hpre
      obtain ⟨hcapacity, hclosed⟩ := run_frame hrun
      obtain ⟨hw, hpop, -⟩ := h.of_run hrun
      have hzero : c.capacity = 0 := by rw [hcapacity]; exact Nat.eq_zero_of_not_pos hcap
      have hempty : c.buf = [] := by
        simpa [Within, hzero] using hw
      cases hc : c.closed with
      | true => exact (hclosed hc).resolve_right (by simp)
      | false => exact absurd ⟨by simp [pops, hc, hempty, hzero], hempty⟩ hpop
  · rintro (hcap | h)
    · exact safe_of_pos hcap (Nat.zero_le _)
    · by_cases hcap : 0 < capacity
      · exact safe_of_pos hcap (Nat.zero_le _)
      · exact safe_of_zero (Nat.eq_zero_of_not_pos hcap) rfl fun pre value post hops hpre =>
          .inl (h pre value post hops hpre)

end Chan

open Chan

namespace CanAdapter

/-- The channel of a subscription. -/
def outChannel (opts : SubscriberOptions) : Chan Message := { capacity := opts.channelDepth }

/-- The next frame of the bus as a message; `seq` counts the messages of the adapter. -/
def bridgeMessage (now : Int) (seq : UInt64) (f : Frame) : Message :=
  { toMessage now f with seq := seq + 1 }

/-- How the bridge thread publishes a message. -/
def publish (policy : BackPressurePolicy) (msg : Message) : Op Message :=
  match policy with
  | .dropNewest => .trySend msg
  | .dropOldest => .sendDropOldest msg
  | .block => .send msg

/-- Under the other policies every operation of the bridge thread and of the consumers is
safe, whatever depth is asked for. -/
theorem safe_of_ne_dropOldest (opts : SubscriberOptions) (hpolicy : opts.backPressure ≠ .dropOldest)
    (ops : List (Op Message))
    (hops : ∀ op ∈ ops, op.value = none ∨ ∃ msg, op = publish opts.backPressure msg) :
    (outChannel opts).Safe ops := by
  refine (safe_iff opts.channelDepth ops).mpr (.inr fun pre value post heq _ => ?_)
  have hmem : .sendDropOldest value ∈ ops := heq ▸ by simp
  rcases hops _ hmem with hnone | ⟨msg, hpub⟩
  · exact absurd hnone (by simp [Op.value])
  · cases hp : opts.backPressure with
    | dropOldest => exact absurd hp hpolicy
    | _ => exact absurd hpub (by simp [publish, hp])

/-- The first message for a subscription of depth zero that evicts removes the front of an empty
buffer. -/
theorem not_safe_depth_zero :
    ¬ ∀ (capacity : Nat) (ops : List (Op Message)), Safe { capacity := capacity } ops := by
  intro h
  have hsafe := h (outChannel { channelDepth := 0, backPressure := .dropOldest }).capacity
    [publish .dropOldest (bridgeMessage 0 0 { id := 0x123, data := [1] })]
  exact hsafe.2.1 ⟨rfl, rfl⟩

end CanAdapter

end CppCan
