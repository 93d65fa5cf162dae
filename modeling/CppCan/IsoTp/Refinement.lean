import CppCan.Core.Streams
import CppCan.IsoTp.Agreement
import CppCan.IsoTp.OverVirt

/-!
# The in-process bus as a lossless link

As long as no frame is dropped, two connections on one bus behave as two stations
joined by a lossless link. A frame passes at the step that puts it into the
peer's channel: from then on the sending thread counts as being past its send.
-/

namespace CppCan.IsoTp

open CppCan.Core CppCan.Relay Relation
open CppCan.Virt (Bus Pc Subscription)

/-- Every frame the call emits has the property. -/
def EmitsOnly {ρ : Type} (P : Frame → Prop) (c : Call ρ) : Prop :=
  c.Emits (fun _ f _ => P f) (fun _ _ => True) ()

/-- The frame is for the one subscription and not for the other. -/
structure Routed (dest own : Subscription) (f : Frame) : Prop where
  valid : f.Valid
  matched : matchesAny dest.filters f = true
  unmatched : matchesAny own.filters f = false

/-- A thread is in a call of the bus only to send the frame its own call emits. -/
inductive InSend {ρ : Type} (subs : List Subscription) : List (Call ρ) → Pc → Prop
  | idle {calls : List (Call ρ)} : InSend subs calls .idle
  | lock {f : Frame} {k : Option ErrorCode → Call ρ} {rest : List (Call ρ)} :
      InSend subs (.emit f k :: rest) (.sendLock f)
  | check {f : Frame} {k : Option ErrorCode → Call ρ} {rest : List (Call ρ)} :
      InSend subs (.emit f k :: rest) (.sendCheck f)
  | fanOut {f : Frame} {k : Option ErrorCode → Call ρ} {rest : List (Call ρ)}
      {left : List Subscription} (h : left <:+ subs) :
      InSend subs (.emit f k :: rest) (.fanOut f left)
  | returned {f : Frame} {k : Option ErrorCode → Call ρ} {rest : List (Call ρ)} :
      InSend subs (.emit f k :: rest) (.returned (.sent none))

/-- A subscription for one receive identifier, with the default options. -/
structure Plain (b : Bus) (s : Subscription) : Prop where
  policy : s.backPressure = .dropNewest
  inRange : s.ch < b.channels.length
  opened : (b.chan s.ch).closed = false
  capacity : (b.chan s.ch).capacity = 64

/-- An open bus with two subscriptions that drop the newest frame. -/
structure Wired (b : Bus) (own dest : Subscription) : Prop where
  unlocked : b.mu.writer = none
  opened : b.closed = false
  subs : b.subs = [own, dest] ∨ b.subs = [dest, own]
  ne : own.ch ≠ dest.ch
  own : Plain b own
  dest : Plain b dest

/-- The endpoint reads its own channel and sends to its peer. -/
structure Endpoint.Sound {ρ : Type} (e : Endpoint ρ) (b : Bus) (own dest : Subscription) :
    Prop where
  ch : e.ch = own.ch
  emits : ∀ c ∈ e.calls, EmitsOnly (Routed dest own) c
  inSend : InSend b.subs e.calls e.pc

/-- The frame in flight has passed the peer's channel. -/
def Endpoint.passed {ρ : Type} (dest : Subscription) (e : Endpoint ρ) : Bool :=
  match e.pc with
  | .fanOut _ left => dest ∉ left
  | .returned _ => true
  | _ => false

/-- The calls as they stand once the frame in flight counts as sent. -/
def Endpoint.callsView {ρ : Type} (dest : Subscription) (e : Endpoint ρ) : List (Call ρ) :=
  match e.passed dest, e.calls with
  | true, .emit _ k :: rest => k none :: rest
  | _, calls => calls

/-- The endpoint as a station of a lossless link. -/
def Endpoint.view {ρ : Type} (b : Bus) (dest : Subscription) (e : Endpoint ρ) :
    Station Frame ErrorCode ρ where
  inbox := (b.chan e.ch).buf
  calls := e.callsView dest
  results := e.results

/-- A bound on the steps the endpoint can take before its station takes one. -/
def Endpoint.lag {ρ : Type} (dest : Subscription) (e : Endpoint ρ) : Nat :=
  match e.pc with
  | .sendLock _ => 5
  | .sendCheck _ => 4
  | .fanOut _ left => if dest ∈ left then left.length else left.length + 8
  | .returned _ => 7
  | _ => 6

/-- What a step of an endpoint is on the link. -/
inductive Simulates {ρ : Type} (b b' : Bus) (e e' : Endpoint ρ) (dest : Subscription) : Prop
  | internal (hview : e'.view b' dest = e.view b dest) (hdest : b'.chan dest.ch = b.chan dest.ch)
      (hlag : e'.lag dest < e.lag dest)
  | own (h : (e.view b dest).Advance (e'.view b' dest) none)
      (hdest : b'.chan dest.ch = b.chan dest.ch)
  | delivered {f : Frame} (h : (e.view b dest).Advance (e'.view b' dest) (some f))
      (hdest : (b'.chan dest.ch).buf = (b.chan dest.ch).buf ++ [f])
  | dropped {f : Frame} {st : Station Frame ErrorCode ρ}
      (h : (e.view b dest).Advance st (some f)) (hfull : 64 ≤ (b.chan dest.ch).buf.length)
      (hdrop : 0 < b'.metrics.dropCount)

section Bus

variable {b b' : Bus} {own dest s : Subscription} {f : Frame} {left : List Subscription}

/-- A subscription stays plain when the channels do. -/
theorem Plain.of_channels (h : Plain b s) (hchan : b'.channels = b.channels) : Plain b' s where
  policy := h.policy
  inRange := hchan ▸ h.inRange
  opened := by
    rw [Bus.chan, hchan]
    exact h.opened
  capacity := by
    rw [Bus.chan, hchan]
    exact h.capacity

/-- A subscription stays plain when a channel is replaced by one like it. -/
theorem Plain.setChan {c : Chan Frame} {j : Nat} (h : Plain b s) (hc : c.closed = false)
    (hcap : c.capacity = 64) : Plain (b.setChan j c) s := by
  have hrange : s.ch < (b.setChan j c).channels.length := by
    simpa [Bus.setChan] using h.inRange
  by_cases hj : j = s.ch
  · subst hj
    have hself : (b.setChan s.ch c).chan s.ch = c := Bus.chan_setChan_self h.inRange
    exact ⟨h.policy, hrange, by rw [hself, hc], by rw [hself, hcap]⟩
  · have hne : (b.setChan j c).chan s.ch = b.chan s.ch := Bus.chan_setChan_ne hj
    exact ⟨h.policy, hrange, by rw [hne, h.opened], by rw [hne, h.capacity]⟩

/-- The roles of the subscriptions may be exchanged. -/
theorem Wired.symm (h : Wired b own dest) : Wired b dest own :=
  ⟨h.unlocked, h.opened, h.subs.symm, h.ne.symm, h.dest, h.own⟩

/-- The two subscriptions are the only ones. -/
theorem Wired.mem (h : Wired b own dest) (hs : s ∈ b.subs) : s = own ∨ s = dest := by
  rcases h.subs with heq | heq
  · simpa [heq] using hs
  · simpa [heq, or_comm] using hs

/-- The peer is subscribed. -/
theorem Wired.dest_mem (h : Wired b own dest) : dest ∈ b.subs := by
  rcases h.subs with heq | heq <;> simp [heq]

/-- The subscriptions differ. -/
theorem Wired.nodup (h : Wired b own dest) : b.subs.Nodup := by
  have hne : own ≠ dest := fun he => h.ne (congrArg Subscription.ch he)
  rcases h.subs with heq | heq
  · simpa [heq] using hne
  · simpa [heq] using hne.symm

/-- There are at most two rounds of a fan-out. -/
theorem Wired.length_le (h : Wired b own dest) (hleft : left <:+ b.subs) : left.length ≤ 2 := by
  have hle := hleft.length_le
  rcases h.subs with heq | heq <;> simpa [heq] using hle

/-- The wiring depends neither on the counters nor on the readers of the lock. -/
theorem Wired.of_eq (h : Wired b own dest) (hmu : b'.mu.writer = none)
    (hopen : b'.closed = b.closed) (hsubs : b'.subs = b.subs)
    (hchan : b'.channels = b.channels) : Wired b' own dest where
  unlocked := hmu
  opened := hopen.trans h.opened
  subs := hsubs ▸ h.subs
  ne := h.ne
  own := h.own.of_channels hchan
  dest := h.dest.of_channels hchan

/-- A channel may be replaced by an open one of the same capacity. -/
theorem Wired.setChan {c : Chan Frame} {j : Nat} (h : Wired b own dest) (hc : c.closed = false)
    (hcap : c.capacity = 64) : Wired (b.setChan j c) own dest :=
  ⟨h.unlocked, h.opened, h.subs, h.ne, h.own.setChan hc hcap, h.dest.setChan hc hcap⟩

/-- A frame for the peer is put into its channel or dropped there. -/
theorem Wired.deliver_dest (hw : Wired b own dest) (hf : Routed dest own f)
    (h : b.deliver dest f = some b') :
    Wired b' own dest ∧ b'.subs = b.subs ∧ b'.chan own.ch = b.chan own.ch ∧
      ((b'.chan dest.ch).buf = (b.chan dest.ch).buf ++ [f] ∨
        64 ≤ (b.chan dest.ch).buf.length ∧ 0 < b'.metrics.dropCount) := by
  have hopen := hw.dest.opened
  have hcap := hw.dest.capacity
  simp only [Bus.deliver, hf.matched, Bool.not_true, Bool.false_eq_true, if_false,
    hw.dest.policy, Chan.trySend, hopen] at h
  by_cases hfull : (b.chan dest.ch).buf.length ≥ (b.chan dest.ch).capacity
  · rw [if_pos hfull] at h
    obtain rfl := Option.some.inj h
    refine ⟨(hw.setChan hopen hcap).of_eq hw.unlocked rfl rfl rfl, rfl, ?_, .inr ⟨?_, ?_⟩⟩
    · rw [Bus.chan_countDrop, Bus.chan_setChan_ne hw.ne.symm]
    · rwa [hcap] at hfull
    · exact Nat.succ_pos _
  · rw [if_neg hfull] at h
    obtain rfl := Option.some.inj h
    have hset := hw.setChan (j := dest.ch)
      (c := { capacity := (b.chan dest.ch).capacity, buf := (b.chan dest.ch).buf ++ [f] }) rfl hcap
    refine ⟨hset.of_eq hw.unlocked rfl rfl rfl, rfl, ?_, .inl ?_⟩
    · rw [Bus.chan_countDeliver, Bus.chan_setChan_ne hw.ne.symm]
    · rw [Bus.chan_countDeliver, Bus.chan_setChan_self hw.dest.inRange]

/-- The own subscription does not match. -/
theorem Routed.deliver_own (hf : Routed dest own f) : b.deliver own f = some b := by
  simp [Bus.deliver, hf.unmatched]

/-- The fan-out never waits. -/
theorem Wired.exists_deliver (hw : Wired b own dest) (hs : s = own ∨ s = dest) :
    ∃ b', b.deliver s f = some b' := by
  by_contra hnone
  have hblock := (Bus.deliver_eq_none (by simpa [← Option.ne_none_iff_exists'] using hnone)).2.1
  rcases hs with rfl | rfl
  · exact absurd (hw.own.policy.symm.trans hblock) (by simp)
  · exact absurd (hw.dest.policy.symm.trans hblock) (by simp)

end Bus

section Endpoint

variable {ρ : Type} {b b' : Bus} {e e' : Endpoint ρ} {own dest : Subscription} {i : Nat}

/-- A thread outside the bus shows its calls as they are. -/
theorem Endpoint.callsView_idle (ch : Nat) (calls : List (Call ρ)) (results : List ρ) :
    (⟨ch, .idle, calls, results⟩ : Endpoint ρ).callsView dest = calls := by
  cases calls <;> rfl

/-- What the endpoint emits after a frame is for its peer as well. -/
theorem EmitsOnly.emit {P : Frame → Prop} {f : Frame} {k : Option ErrorCode → Call ρ}
    (h : EmitsOnly P (.emit f k)) : P f ∧ ∀ err, EmitsOnly P (k err) := by
  obtain ⟨_, hf, hk⟩ := h
  exact ⟨hf, hk⟩

/-- Taking a frame from the own channel is a step on the link. -/
theorem Endpoint.Sound.advance_await (hw : Wired b own dest) (hs : e.Sound b own dest)
    {limit : Nat} {accept : Frame → Bool} {k : Except ErrorCode Frame → Call ρ}
    {rest : List (Call ρ)} (hc : e.calls = .await limit accept k :: rest)
    (h : e.advance i b = some (b', e')) :
    Wired b' own dest ∧ e'.Sound b' own dest ∧ b'.subs = b.subs ∧ Simulates b b' e e' dest := by
  obtain ⟨ch, pc, calls, results⟩ := e
  obtain ⟨rfl, hemits, hin⟩ := hs
  obtain rfl : calls = _ := hc
  cases hin
  simp only [Endpoint.advance, Chan.tryRecv] at h
  cases hbuf : (b.chan own.ch).buf with
  | nil => simp [hbuf] at h
  | cons f ms =>
    simp only [hbuf, Option.some.injEq, Prod.mk.injEq] at h
    obtain ⟨rfl, rfl⟩ := h
    have hself : ((b.setChan own.ch { b.chan own.ch with buf := ms }).chan own.ch).buf = ms := by
      rw [Bus.chan_setChan_self hw.own.inRange]
    refine ⟨hw.setChan hw.own.opened hw.own.capacity, ⟨rfl, ?_, .idle⟩, rfl,
      .own ?_ (Bus.chan_setChan_ne hw.ne)⟩
    · obtain ⟨hk, hrest⟩ := List.forall_mem_cons.mp hemits
      dsimp only
      split
      · exact List.forall_mem_cons.mpr ⟨hk (.ok f), hrest⟩
      · exact hemits
    · simp only [Endpoint.view, Endpoint.callsView_idle, hself, hbuf]
      cases ha : accept f with
      | true => exact .accept rfl rfl ha
      | false => exact .discard rfl rfl ha

/-- The steps of a send keep the wiring. The one that passes the peer's channel
is a step on the link unless the channel is full; the others are internal. -/
theorem Endpoint.Sound.advance_emit (hw : Wired b own dest) (hs : e.Sound b own dest) {f : Frame}
    {k : Option ErrorCode → Call ρ} {rest : List (Call ρ)} (hc : e.calls = .emit f k :: rest)
    (h : e.advance i b = some (b', e')) :
    Wired b' own dest ∧ e'.Sound b' own dest ∧ b'.subs = b.subs ∧ Simulates b b' e e' dest := by
  obtain ⟨ch, pc, calls, results⟩ := e
  obtain ⟨rfl, hemits, hin⟩ := hs
  obtain rfl : calls = _ := hc
  simp only at hemits hin
  obtain ⟨hemit, hrest⟩ := List.forall_mem_cons.mp hemits
  obtain ⟨hf, hk⟩ := hemit.emit
  cases hin with
  | idle =>
    have hv : validateFrame f = .ok () := hf.valid
    simp only [Endpoint.advance, Virt.Call.begin, hv, Option.some.injEq, Prod.mk.injEq] at h
    obtain ⟨rfl, rfl⟩ := h
    exact ⟨hw, ⟨rfl, hemits, .lock⟩, rfl, .internal rfl rfl (by simp [Endpoint.lag])⟩
  | lock =>
    simp only [Endpoint.advance, Bus.step, RwLock.lockShared, hw.unlocked, if_true,
      Option.map_some, Option.some.injEq, Prod.mk.injEq] at h
    obtain ⟨rfl, rfl⟩ := h
    exact ⟨hw.of_eq rfl rfl rfl rfl, ⟨rfl, hemits, .check⟩, rfl,
      .internal rfl rfl (by simp [Endpoint.lag])⟩
  | check =>
    simp only [Endpoint.advance, Bus.step, hw.opened, Bool.false_eq_true, if_false,
      Option.map_some, Option.some.injEq, Prod.mk.injEq] at h
    obtain ⟨rfl, rfl⟩ := h
    have hlen := hw.length_le (List.suffix_refl _)
    refine ⟨hw.of_eq hw.unlocked rfl rfl rfl, ⟨rfl, hemits, .fanOut (List.suffix_refl _)⟩, rfl,
      .internal ?_ rfl ?_⟩
    · simp [Endpoint.view, Endpoint.callsView, Endpoint.passed, hw.dest_mem]
    · simp only [Endpoint.lag, if_pos hw.dest_mem]
      omega
  | returned =>
    simp only [Endpoint.advance, Option.some.injEq, Prod.mk.injEq] at h
    obtain ⟨rfl, rfl⟩ := h
    refine ⟨hw, ⟨rfl, List.forall_mem_cons.mpr ⟨hk none, hrest⟩, .idle⟩, rfl,
      .internal ?_ rfl (by simp [Endpoint.lag])⟩
    simp only [Endpoint.view, Endpoint.callsView_idle]
    rfl
  | @fanOut _ _ _ left hleft =>
    obtain ⟨⟨b₁, pc⟩, hstep, heq⟩ := Option.map_eq_some_iff.mp h
    obtain ⟨rfl, rfl⟩ := Prod.mk.inj heq
    cases left with
    | nil =>
      obtain ⟨rfl, rfl⟩ := Prod.mk.inj (Option.some.inj hstep)
      exact ⟨hw.of_eq hw.unlocked rfl rfl rfl, ⟨rfl, hemits, .returned⟩, rfl,
        .internal rfl rfl (by simp [Endpoint.lag])⟩
    | cons s left =>
      obtain ⟨b₂, hdel, heq⟩ := Option.map_eq_some_iff.mp hstep
      obtain ⟨rfl, rfl⟩ := Prod.mk.inj heq
      have hsuffix : left <:+ b.subs := (List.suffix_cons s left).trans hleft
      rcases hw.mem (hleft.subset List.mem_cons_self) with rfl | rfl
      · obtain rfl := Option.some.inj (hf.deliver_own.symm.trans hdel)
        have hne : dest ≠ s := fun he => hw.ne (congrArg Subscription.ch he.symm)
        refine ⟨hw, ⟨rfl, hemits, .fanOut hsuffix⟩, rfl, .internal ?_ rfl ?_⟩
        · simp [Endpoint.view, Endpoint.callsView, Endpoint.passed, hne]
        · simp only [Endpoint.lag, List.mem_cons, hne, false_or, List.length_cons]
          split_ifs <;> omega
      · have hnot : s ∉ left := (List.nodup_cons.mp (hw.nodup.sublist hleft.sublist)).1
        obtain ⟨hw', hsubs, hown, hcase⟩ := hw.deliver_dest hf hdel
        have hadv : Station.Advance (Endpoint.view b s ⟨own.ch, .fanOut f (s :: left),
            .emit f k :: rest, results⟩) ⟨(b.chan own.ch).buf, k none :: rest, results⟩ (some f) :=
          .emit (by simp [Endpoint.view, Endpoint.callsView, Endpoint.passed])
        refine ⟨hw', ⟨rfl, hemits, .fanOut (hsubs ▸ hsuffix)⟩, hsubs, ?_⟩
        rcases hcase with hbuf | ⟨hfull, hdrop⟩
        · refine .delivered (f := f) ?_ hbuf
          simpa [Endpoint.view, Endpoint.callsView, Endpoint.passed, hnot, hown] using hadv
        · exact .dropped hadv hfull hdrop

/-- A step of an endpoint keeps the wiring and is a step on the link or drops a frame. -/
theorem Endpoint.Sound.advance (hw : Wired b own dest) (hs : e.Sound b own dest)
    (h : e.advance i b = some (b', e')) :
    Wired b' own dest ∧ e'.Sound b' own dest ∧ b'.subs = b.subs ∧ Simulates b b' e e' dest := by
  cases hc : e.calls with
  | nil => simp [Endpoint.advance, hc] at h
  | cons c rest =>
    cases c with
    | emit f k => exact hs.advance_emit hw hc h
    | await limit accept k => exact hs.advance_await hw hc h
    | ret r =>
      obtain ⟨ch, pc, calls, results⟩ := e
      obtain ⟨rfl, hemits, hin⟩ := hs
      obtain rfl : calls = _ := hc
      obtain ⟨rfl, rfl⟩ := Prod.mk.inj (Option.some.inj h)
      cases hin
      refine ⟨hw, ⟨rfl, (List.forall_mem_cons.mp hemits).2, .idle⟩, rfl, .own ?_ rfl⟩
      simp only [Endpoint.view, Endpoint.callsView_idle]
      exact .ret rfl
    | pause d k =>
      obtain ⟨ch, pc, calls, results⟩ := e
      obtain ⟨rfl, hemits, hin⟩ := hs
      obtain rfl : calls = _ := hc
      obtain ⟨rfl, rfl⟩ := Prod.mk.inj (Option.some.inj h)
      cases hin
      obtain ⟨hk, hrest⟩ := List.forall_mem_cons.mp hemits
      refine ⟨hw, ⟨rfl, List.forall_mem_cons.mpr ⟨hk, hrest⟩, .idle⟩, rfl, .own ?_ rfl⟩
      simp only [Endpoint.view, Endpoint.callsView_idle]
      exact .pause rfl

/-- An endpoint goes on whenever its station does. -/
theorem Endpoint.Sound.isSome_advance (hw : Wired b own dest) (hs : e.Sound b own dest)
    {st : Station Frame ErrorCode ρ} {out : Option Frame} (h : (e.view b dest).Advance st out)
    (i : Nat) : (e.advance i b).isSome = true := by
  obtain ⟨ch, pc, calls, results⟩ := e
  obtain ⟨rfl, hemits, hin⟩ := hs
  cases hin with
  | lock => simp [Endpoint.advance, Bus.step, RwLock.lockShared, hw.unlocked]
  | check => simp [Endpoint.advance, Bus.step, hw.opened]
  | returned => rfl
  | @fanOut f _ _ left hleft =>
    cases left with
    | nil => rfl
    | cons s left =>
      obtain ⟨b₁, hb⟩ := hw.exists_deliver (f := f) (hw.mem (hleft.subset List.mem_cons_self))
      simp [Endpoint.advance, Bus.step, hb]
  | idle =>
    cases calls with
    | nil => exact absurd rfl h.calls_ne_nil
    | cons c rest =>
      cases c with
      | ret r => rfl
      | emit f k => rfl
      | pause d k => rfl
      | await limit accept k =>
        obtain ⟨f, ms, hbuf⟩ := List.exists_cons_of_ne_nil (h.inbox_ne_nil rfl)
        have hbuf : (b.chan own.ch).buf = f :: ms := hbuf
        simp [Endpoint.advance, Chan.tryRecv, hbuf]

/-- The lag is bounded. -/
theorem Endpoint.Sound.lag_le (hw : Wired b own dest) (hs : e.Sound b own dest) :
    e.lag dest ≤ 10 := by
  obtain ⟨ch, pc, calls, results⟩ := e
  cases hs.inSend with
  | fanOut h =>
    have hlen := hw.length_le h
    simp only [Endpoint.lag]
    split_ifs <;> omega
  | _ => simp [Endpoint.lag]

/-- A settled endpoint with an empty channel is a station at rest. -/
theorem Endpoint.Sound.rests (hs : e.Sound b own dest) (h : e.settled = true)
    (hbuf : (b.chan e.ch).buf = []) : (e.view b dest).Rests := by
  obtain ⟨ch, pc, calls, results⟩ := e
  refine ⟨hbuf, ?_⟩
  have hin := hs.inSend
  simp only [Endpoint.settled] at h hin
  split at h
  · cases hin
    exact .inl rfl
  · cases hin
    exact .inr (.inl ⟨_, rfl⟩)
  · cases hin
    exact .inr (.inr ⟨_, rfl⟩)
  · exact absurd h (by simp)

/-- A wait of the endpoint is a wait of its station. -/
theorem Endpoint.Sound.awaits_of_expire {timeout : ErrorCode} (hs : e.Sound b own dest)
    (h : e.expire timeout = some e') : ∃ accept, (e.view b dest).awaits = some accept := by
  obtain ⟨ch, pc, calls, results⟩ := e
  have hin := hs.inSend
  simp only [Endpoint.expire] at h hin
  split at h
  · cases hin
    exact ⟨_, rfl⟩
  · exact absurd h (by simp)

/-- An endpoint has returned when its station has. -/
theorem Endpoint.Sound.returned {inbox : List Frame} {results : List ρ} (hs : e.Sound b own dest)
    (h : e.view b dest = ⟨inbox, [], results⟩) : e.Returned results := by
  obtain ⟨ch, pc, calls, results'⟩ := e
  have hcalls : Endpoint.callsView dest ⟨ch, pc, calls, results'⟩ = [] := congrArg Station.calls h
  have hin := hs.inSend
  refine ⟨?_, congrArg Station.results h⟩
  simp only [Endpoint.callsView] at hcalls hin ⊢
  split at hcalls
  · exact absurd hcalls (by simp)
  · exact hcalls

/-- What an endpoint may emit depends on the subscriptions only. -/
theorem Endpoint.Sound.of_subs (hs : e.Sound b own dest) (hsubs : b'.subs = b.subs) :
    e.Sound b' own dest :=
  ⟨hs.ch, hs.emits, hsubs ▸ hs.inSend⟩

/-- What a step of one endpoint is for both stations. -/
inductive Moves {σ : Type} (b b' : Bus) (e e' : Endpoint ρ) (o : Endpoint σ)
    (own dest : Subscription) : Prop
  | internal (he : e'.view b' dest = e.view b dest) (ho : o.view b' own = o.view b own)
      (hlag : e'.lag dest < e.lag dest)
  | passed {out : Option Frame} (he : (e.view b dest).Advance (e'.view b' dest) out)
      (ho : o.view b' own = out.elim (o.view b own) (o.view b own).deliver)
  | dropped {f : Frame} {st : Station Frame ErrorCode ρ} (he : (e.view b dest).Advance st (some f))
      (hfull : 64 ≤ (o.view b own).inbox.length) (hdrop : 0 < b'.metrics.dropCount)

/-- A step of one endpoint, seen from both. -/
theorem Endpoint.Sound.moves {σ : Type} {o : Endpoint σ} (hw : Wired b own dest)
    (he : e.Sound b own dest) (ho : o.Sound b dest own) (h : e.advance i b = some (b', e')) :
    Wired b' own dest ∧ e'.Sound b' own dest ∧ o.Sound b' dest own ∧
      Moves b b' e e' o own dest := by
  obtain ⟨hw', he', hsubs, hsim⟩ := he.advance hw h
  refine ⟨hw', he', ho.of_subs hsubs, ?_⟩
  cases hsim with
  | internal hview hdest hlag =>
    exact .internal hview (by simp only [Endpoint.view, ho.ch, hdest]) hlag
  | own hadv hdest => exact .passed hadv (by simp only [Endpoint.view, ho.ch, hdest, Option.elim])
  | delivered hadv hdest =>
    refine .passed hadv ?_
    simp only [Endpoint.view, ho.ch, hdest, Option.elim, Station.deliver]
  | dropped hadv hfull hdrop =>
    refine .dropped hadv ?_ hdrop
    rw [Endpoint.view, ho.ch]
    exact hfull

end Endpoint

end CppCan.IsoTp
