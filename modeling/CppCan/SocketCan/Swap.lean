import CppCan.SocketCan.Bus
import CppCan.Virt.Calls
import Mathlib.Tactic.ByContra

/-!
# One subscription on either transport

The same frames arrive for the same subscription on both buses, and its consumer
receives at the same times. On the in-process bus the frames come from a sender,
which waits at a full channel under the `block` policy and puts the frame in as
soon as there is space. The SocketCAN bus drops the newest frame whatever the
policy, so the consumers see the same frames exactly if that is the policy asked
for or no frame matches.
-/

namespace CppCan.SocketCan

open CppCan.Relay

/-- What happens to a subscription. -/
inductive Event where
  | arrive (f : Frame)
  | receive
  deriving DecidableEq, Repr

/-- A SocketCAN bus and what the consumer has received. -/
structure Tap where
  bus : Bus
  received : List Frame := []

/-- The frame is read and fanned out, or the consumer takes one from its channel. -/
def Tap.step (ch : Nat) (t : Tap) : Event → Tap
  | .arrive f => { t with bus := t.bus.fanOut f }
  | .receive =>
    let (c, f) := (t.bus.chan ch).tryRecv
    ⟨t.bus.setChan ch c, t.received ++ f.toList⟩

/-- What the consumer of a subscription on a new SocketCAN bus receives. -/
def received (filters : List Filter) (opts : List SubscriberOption) (events : List Event) :
    List Frame :=
  match Bus.subscribe {} filters opts with
  | (b, .ok ch) => (events.foldl (Tap.step ch) ⟨b, []⟩).received
  | (_, .error _) => []

end CppCan.SocketCan

namespace CppCan.Virt

open CppCan.Relay
open CppCan.SocketCan (Event)

/-- An in-process bus with one sender, the frames it has yet to put in and what the
consumer has received. -/
structure Tap where
  bus : Bus
  waiting : List Frame := []
  received : List Frame := []

/-- The sender sends until it has to wait. -/
def drain : Bus → List Frame → Bus × List Frame
  | b, [] => (b, [])
  | b, f :: rest =>
    match b.send f with
    | none => (b, f :: rest)
    | some (b, _) => drain b rest

/-- The sender gets another frame, or the consumer takes one from its channel. -/
def Tap.step (ch : Nat) (t : Tap) : Event → Tap
  | .arrive f =>
    let (b, waiting) := drain t.bus (t.waiting ++ [f])
    { t with bus := b, waiting := waiting }
  | .receive =>
    let (c, f) := (t.bus.chan ch).tryRecv
    let (b, waiting) := drain (t.bus.setChan ch c) t.waiting
    ⟨b, waiting, t.received ++ f.toList⟩

/-- What the consumer of a subscription on a new in-process bus receives. -/
def received (filters : List Filter) (opts : List SubscriberOption) (events : List Event) :
    List Frame :=
  match Bus.subscribe {} filters opts with
  | (b, .ok ch) => (events.foldl (Tap.step ch) ⟨b, [], []⟩).received
  | (_, .error _) => []

end CppCan.Virt

namespace CppCan.SocketCan

open CppCan.Relay

variable {filters : List Filter} {opts : List SubscriberOption} {policy : BackPressurePolicy}
  {f : Frame} {c : Chan Frame} {m : Virt.Metrics} {got waiting : List Frame}

/-- A SocketCAN bus with one subscription. -/
def single (filters : List Filter) (c : Chan Frame) : Bus :=
  { subs := [⟨filters, 0⟩], channels := [c] }

/-- An in-process bus with one subscription. -/
def virtSingle (filters : List Filter) (policy : BackPressurePolicy) (c : Chan Frame)
    (m : Virt.Metrics) : Virt.Bus :=
  { subs := [⟨filters, 0, policy⟩], channels := [c], metrics := m }

/-- The channel of a new subscription. -/
def newChan (opts : List SubscriberOption) : Chan Frame :=
  { capacity := ((applyOptions opts).effectiveDepth 64).toNat }

/-- A new channel has space. -/
theorem newChan_capacity_pos (opts : List SubscriberOption) : 0 < (newChan opts).capacity := by
  simp only [newChan, SubscriberConfig.effectiveDepth]
  split <;> omega

theorem received_eq (events : List Event) :
    received filters opts events =
      (events.foldl (Tap.step 0) ⟨single filters (newChan opts), []⟩).received := rfl

theorem virt_received_eq (events : List Event) :
    Virt.received filters opts events =
      (events.foldl (Virt.Tap.step 0)
        ⟨virtSingle filters (applyOptions opts).backPressure (newChan opts) {}, [], []⟩).received :=
  rfl

/-- What a matching frame does to the channel under a policy. -/
def put (policy : BackPressurePolicy) (c : Chan Frame) (f : Frame) : Option (Chan Frame) :=
  match policy with
  | .dropNewest => some (c.trySend f).1
  | .dropOldest => some (c.sendDropOldest f).1
  | .block => (c.send f).map (·.1)

/-- The SocketCAN bus drops the newest frame. -/
theorem fanOut_single : (single filters c).fanOut f =
    single filters (if matchesAny filters f then (c.trySend f).1 else c) := by
  simp only [Bus.fanOut, single, List.foldl_cons, List.foldl_nil]
  split <;> rfl

/-- The in-process bus follows the policy of the subscription. -/
theorem send_virtSingle (filters : List Filter) (policy : BackPressurePolicy) (c : Chan Frame)
    (m : Virt.Metrics) (hv : f.Valid) : ∃ m', (virtSingle filters policy c m).send f =
    (if matchesAny filters f then put policy c f else some c).map fun c =>
      (virtSingle filters policy c m', none) := by
  have hsend : (virtSingle filters policy c m).send f =
      (((virtSingle filters policy c m).countWrite f).deliver ⟨filters, 0, policy⟩ f).map
        fun b => (b, none) := by
    simp only [Virt.Bus.send, show validateFrame f = .ok () from hv]
    rw [if_neg (by simp [virtSingle])]
    simp only [Virt.Bus.fanOut, virtSingle, Virt.Bus.countWrite, List.foldlM_cons, List.foldlM_nil]
    simp
  rw [hsend]
  simp only [Virt.Bus.deliver]
  by_cases hm : matchesAny filters f = true
  · rw [if_neg (by simp [hm]), if_pos hm]
    cases policy with
    | dropNewest =>
      simp only [put]
      split <;> exact ⟨_, rfl⟩
    | dropOldest => exact ⟨_, rfl⟩
    | block =>
      have hc : ((virtSingle filters .block c m).countWrite f).chan 0 = c := rfl
      simp only [put, hc]
      cases c.send f with
      | none => exact ⟨m, rfl⟩
      | some r => exact ⟨_, rfl⟩
  · rw [if_pos (by simpa using hm), if_neg hm]
    exact ⟨_, rfl⟩

/-- A frame that arrives while the sender does not wait. -/
theorem virt_arrive (filters : List Filter) (policy : BackPressurePolicy) (c : Chan Frame)
    (m : Virt.Metrics) (got : List Frame) (hv : f.Valid) : ∃ m',
    Virt.Tap.step 0 ⟨virtSingle filters policy c m, [], got⟩ (.arrive f) =
      match if matchesAny filters f then put policy c f else some c with
      | some c => ⟨virtSingle filters policy c m', [], got⟩
      | none => ⟨virtSingle filters policy c m, [f], got⟩ := by
  obtain ⟨m', hm'⟩ := send_virtSingle filters policy c m hv
  refine ⟨m', ?_⟩
  simp only [Virt.Tap.step, List.nil_append, Virt.drain, hm']
  cases (if matchesAny filters f then put policy c f else some c) <;> rfl

/-- A frame that is received while the sender does not wait. -/
theorem virt_receive : Virt.Tap.step 0 ⟨virtSingle filters policy c m, [], got⟩ .receive =
    ⟨virtSingle filters policy c.tryRecv.1 m, [], got ++ c.tryRecv.2.toList⟩ := rfl

theorem arrive : Tap.step 0 ⟨single filters c, got⟩ (.arrive f) =
    ⟨single filters (if matchesAny filters f then (c.trySend f).1 else c), got⟩ := by
  rw [Tap.step, fanOut_single]

theorem receive : Tap.step 0 ⟨single filters c, got⟩ .receive =
    ⟨single filters c.tryRecv.1, got ++ c.tryRecv.2.toList⟩ := rfl

/-- The frames that can arrive: valid ones that a kernel frame can carry. -/
def Arrivals (events : List Event) : Prop := ∀ f, .arrive f ∈ events → f.Valid ∧ f.xl = false

/-- Where both buses do the same with every frame, the consumers receive the same. -/
theorem received_congr (events : List Event) (h : Arrivals events)
    (hput : ∀ c f, f.Valid → f.xl = false → matchesAny filters f = true →
      put policy c f = some (c.trySend f).1) :
    (events.foldl (Tap.step 0) ⟨single filters c, got⟩).received =
      (events.foldl (Virt.Tap.step 0) ⟨virtSingle filters policy c m, [], got⟩).received := by
  induction events generalizing c m got with
  | nil => rfl
  | cons e events ih =>
    have hrest : Arrivals events := fun f hf => h f (List.mem_cons_of_mem e hf)
    rw [List.foldl_cons, List.foldl_cons]
    cases e with
    | arrive f =>
      obtain ⟨hv, hxl⟩ := h f List.mem_cons_self
      obtain ⟨m', hm'⟩ := virt_arrive filters policy c m got hv
      rw [hm', arrive]
      by_cases hm : matchesAny filters f = true
      · rw [if_pos hm, if_pos hm, hput c f hv hxl hm]
        exact ih hrest
      · rw [if_neg hm, if_neg hm]
        exact ih hrest
    | receive =>
      rw [virt_receive, receive]
      exact ih hrest

/-- Receiving empties the channel. -/
theorem foldl_receive (n : Nat) (hn : c.buf.length ≤ n) :
    ((List.replicate n Event.receive).foldl (Tap.step 0) ⟨single filters c, got⟩).received =
      got ++ c.buf := by
  induction n generalizing c got with
  | zero => simp [List.eq_nil_of_length_eq_zero (Nat.le_zero.mp hn)]
  | succ n ih =>
    rw [List.replicate_succ, List.foldl_cons, receive]
    obtain ⟨capacity, buf, closed⟩ := c
    cases buf with
    | nil => rw [ih (Nat.zero_le _)]; simp [Chan.tryRecv]
    | cons x xs =>
      rw [ih (by simpa [Chan.tryRecv] using hn)]
      simp [Chan.tryRecv]

/-- Receiving empties the channel. -/
theorem virt_foldl_receive (n : Nat) (hn : c.buf.length ≤ n) :
    ((List.replicate n Event.receive).foldl (Virt.Tap.step 0)
      ⟨virtSingle filters policy c m, [], got⟩).received = got ++ c.buf := by
  induction n generalizing c got with
  | zero => simp [List.eq_nil_of_length_eq_zero (Nat.le_zero.mp hn)]
  | succ n ih =>
    rw [List.replicate_succ, List.foldl_cons, virt_receive]
    obtain ⟨capacity, buf, closed⟩ := c
    cases buf with
    | nil => rw [ih (Nat.zero_le _)]; simp [Chan.tryRecv]
    | cons x xs =>
      rw [ih (by simpa [Chan.tryRecv] using hn)]
      simp [Chan.tryRecv]

/-- A classic frame with the identifier of `f` and one data byte. -/
def probe (f : Frame) (x : UInt8) : Frame := { id := f.id, ext := f.ext, data := [x] }

theorem valid_probe (hv : f.Valid) (hxl : f.xl = false) (x : UInt8) : (probe f x).Valid := by
  obtain ⟨hext, hstd⟩ := hv.idRange hxl
  have hext' : ((probe f x).ext && (probe f x).id > kCANMaxExtID) = false := hext
  have hstd' : (!(probe f x).ext && (probe f x).id > kCANMaxStdID) = false := hstd
  simp only [Frame.Valid, validateFrame, validateClassicOrFd, hext', hstd']
  rfl

/-- A channel with `n` copies of a frame. -/
def filled (opts : List SubscriberOption) (f : Frame) (n : Nat) : Chan Frame :=
  { newChan opts with buf := List.replicate n f }

/-- As long as there is space the policies agree. -/
theorem put_filled (opts : List SubscriberOption) (policy : BackPressurePolicy) (f : Frame)
    (n : Nat) (hn : n < (newChan opts).capacity) :
    put policy (filled opts f n) f = some (filled opts f (n + 1)) ∧
      ((filled opts f n).trySend f).1 = filled opts f (n + 1) := by
  have hspace : (filled opts f n).buf.length < (filled opts f n).capacity := by
    simpa [filled] using hn
  have hopen : (filled opts f n).closed = false := rfl
  have hnext : { filled opts f n with buf := (filled opts f n).buf ++ [f] } =
      filled opts f (n + 1) := by
    simp [filled, List.replicate_succ']
  have htry : ((filled opts f n).trySend f).1 = filled opts f (n + 1) := by
    rw [Chan.trySend, if_neg (by simp [hopen]), if_neg (Nat.not_le.mpr hspace), hnext]
  refine ⟨?_, htry⟩
  cases policy with
  | dropNewest => exact congrArg some htry
  | dropOldest =>
    rw [put, Chan.sendDropOldest, if_neg (by simp [hopen]), if_neg (Nat.not_le.mpr hspace), hnext]
  | block => rw [put, Chan.send, if_neg (by simp [hopen]), if_pos hspace, hnext]; rfl

/-- Copies of a matching frame fill the channel of either bus. -/
theorem foldl_fill (opts : List SubscriberOption) (policy : BackPressurePolicy) (m : Virt.Metrics)
    (hv : f.Valid) (hm : matchesAny filters f = true) (n k : Nat)
    (hn : k + n ≤ (newChan opts).capacity) :
    (List.replicate n (Event.arrive f)).foldl (Tap.step 0) ⟨single filters (filled opts f k), []⟩ =
        ⟨single filters (filled opts f (k + n)), []⟩ ∧
      ∃ m', (List.replicate n (Event.arrive f)).foldl (Virt.Tap.step 0)
        ⟨virtSingle filters policy (filled opts f k) m, [], []⟩ =
        ⟨virtSingle filters policy (filled opts f (k + n)) m', [], []⟩ := by
  induction n generalizing k m with
  | zero => exact ⟨rfl, m, rfl⟩
  | succ n ih =>
    obtain ⟨hput, htry⟩ := put_filled opts policy f k (by omega)
    obtain ⟨m₁, hm₁⟩ := virt_arrive filters policy (filled opts f k) m [] hv
    obtain ⟨hsocket, m', hvirt⟩ := ih m₁ (k + 1) (by omega)
    rw [if_pos hm, hput] at hm₁
    refine ⟨?_, m', ?_⟩
    · rw [List.replicate_succ, List.foldl_cons, arrive, if_pos hm, htry, hsocket]
      congr 3
      omega
    · rw [List.replicate_succ, List.foldl_cons, hm₁, hvirt]
      congr 3
      omega

/-- Fill the channel, let one more frame arrive and receive everything. -/
def overflow (opts : List SubscriberOption) (f : Frame) : List Event :=
  List.replicate (newChan opts).capacity (.arrive (probe f 0)) ++
    .arrive (probe f 1) :: List.replicate ((newChan opts).capacity + 1) .receive

theorem arrivals_overflow (hv : f.Valid) (hxl : f.xl = false) : Arrivals (overflow opts f) := by
  intro g hg
  have hg' : g = probe f 0 ∨ g = probe f 1 := by
    simp only [overflow, List.mem_append, List.mem_replicate, List.mem_cons, Event.arrive.injEq,
      reduceCtorEq, and_false, or_false] at hg
    exact hg.imp And.right id
  rcases hg' with rfl | rfl
  · exact ⟨valid_probe hv hxl 0, rfl⟩
  · exact ⟨valid_probe hv hxl 1, rfl⟩

/-- The SocketCAN bus drops the last frame. -/
theorem received_overflow (hv : f.Valid) (hxl : f.xl = false) (hm : matchesAny filters f = true) :
    probe f 1 ∉ received filters opts (overflow opts f) := by
  obtain ⟨hfill, -⟩ := foldl_fill opts .dropNewest {} (valid_probe hv hxl 0) hm
    (newChan opts).capacity 0 (by omega)
  have hstart : filled opts (probe f 0) 0 = newChan opts := rfl
  rw [Nat.zero_add, hstart] at hfill
  have hfull : (filled opts (probe f 0) (newChan opts).capacity).buf.length ≥
      (filled opts (probe f 0) (newChan opts).capacity).capacity := by simp [filled]
  have hdrop : ((filled opts (probe f 0) (newChan opts).capacity).trySend (probe f 1)).1 =
      filled opts (probe f 0) (newChan opts).capacity := by
    rw [Chan.trySend, if_neg (by simp [filled, newChan]), if_pos hfull]
  have hm' : matchesAny filters (probe f 1) = true := hm
  rw [received_eq, overflow, List.foldl_append, hfill, List.foldl_cons, arrive, if_pos hm', hdrop,
    foldl_receive _ (by simp [filled])]
  simp [filled, probe]

/-- The waiting sender puts its frame in once the consumer has made space. -/
theorem virt_receive_waiting (got : List Frame) (m : Virt.Metrics) {x : Frame} {xs : List Frame}
    (hv : f.Valid)
    (hm : matchesAny filters f = true) (hopen : c.closed = false) (hbuf : c.buf = x :: xs)
    (hspace : xs.length < c.capacity) : ∃ m',
    Virt.Tap.step 0 ⟨virtSingle filters .block c m, [f], got⟩ .receive =
      ⟨virtSingle filters .block { c with buf := xs ++ [f] } m', [], got ++ [x]⟩ := by
  obtain ⟨m', hm'⟩ := send_virtSingle filters .block { c with buf := xs } m hv
  have hput : put .block { c with buf := xs } f = some { c with buf := xs ++ [f] } := by
    rw [put, Chan.send, if_neg (by simp [hopen]), if_pos hspace]
    rfl
  rw [if_pos hm, hput, Option.map_some] at hm'
  have hrecv : c.tryRecv = ({ c with buf := xs }, some x) := by
    obtain ⟨capacity, buf, closed⟩ := c
    subst hbuf
    rfl
  refine ⟨m', ?_⟩
  have hchan : (virtSingle filters .block c m).chan 0 = c := rfl
  have hset : (virtSingle filters .block c m).setChan 0 { c with buf := xs } =
      virtSingle filters .block { c with buf := xs } m := rfl
  simp only [Virt.Tap.step, hchan, hrecv, hset, Virt.drain, hm', Option.toList_some]

/-- The in-process bus delivers the last frame, unless it is to drop the newest. -/
theorem virt_received_overflow (hv : f.Valid) (hxl : f.xl = false)
    (hm : matchesAny filters f = true) (hp : (applyOptions opts).backPressure ≠ .dropNewest) :
    probe f 1 ∈ Virt.received filters opts (overflow opts f) := by
  have hpos := newChan_capacity_pos opts
  obtain ⟨-, m, hfill⟩ := foldl_fill opts (applyOptions opts).backPressure {}
    (valid_probe hv hxl 0) hm (newChan opts).capacity 0 (by omega)
  have hstart : filled opts (probe f 0) 0 = newChan opts := rfl
  have hm' : matchesAny filters (probe f 1) = true := hm
  rw [Nat.zero_add, hstart] at hfill
  rw [virt_received_eq, overflow, List.foldl_append, hfill, List.foldl_cons]
  generalize hc : filled opts (probe f 0) (newChan opts).capacity = c
  have hopen : c.closed = false := hc ▸ rfl
  have hlen : c.buf.length = c.capacity := by rw [← hc]; simp [filled]
  have hcap : c.capacity = (newChan opts).capacity := hc ▸ rfl
  obtain ⟨m₁, hm₁⟩ := virt_arrive filters (applyOptions opts).backPressure c m []
    (valid_probe hv hxl 1)
  rw [if_pos hm'] at hm₁
  cases hpolicy : (applyOptions opts).backPressure with
  | dropNewest => exact absurd hpolicy hp
  | dropOldest =>
    rw [hpolicy, put, Chan.sendDropOldest, if_neg (by simp [hopen]), if_pos hlen.ge] at hm₁
    rw [hm₁, virt_foldl_receive]
    · simp
    · simp only [List.length_append, List.length_tail, List.length_cons, List.length_nil]
      omega
  | block =>
    rw [hpolicy, put, Chan.send_eq_none.mpr ⟨hopen, hlen.ge⟩] at hm₁
    obtain ⟨x, xs, hbuf⟩ := List.exists_cons_of_length_pos (l := c.buf) (by omega)
    have hxs : xs.length + 1 = c.capacity := by rw [← hlen, hbuf, List.length_cons]
    obtain ⟨m₂, hm₂⟩ := virt_receive_waiting [] m
      (valid_probe hv hxl 1) hm' hopen hbuf (by omega)
    rw [hm₁, List.replicate_succ, List.foldl_cons]
    simp only [Option.map_none, hm₂]
    rw [virt_foldl_receive]
    · simp
    · simp only [List.length_append, List.length_cons, List.length_nil]
      omega

/-- The consumers receive the same frames on every schedule exactly if the policy is to
drop the newest frame or no frame that can arrive matches. -/
theorem received_eq_iff (filters : List Filter) (opts : List SubscriberOption) :
    (∀ events, Arrivals events →
      received filters opts events = Virt.received filters opts events) ↔
      (applyOptions opts).backPressure = .dropNewest ∨
        ∀ f : Frame, f.Valid → f.xl = false → matchesAny filters f = false := by
  constructor
  · intro h
    by_contra hnot
    simp only [not_or, not_forall, Bool.not_eq_false] at hnot
    obtain ⟨hp, f, hv, hxl, hm⟩ := hnot
    have hmem := virt_received_overflow hv hxl hm hp
    rw [← h _ (arrivals_overflow hv hxl)] at hmem
    exact received_overflow hv hxl hm hmem
  · intro h events harr
    rw [received_eq, virt_received_eq]
    refine received_congr events harr fun c f hv hxl hm => ?_
    rcases h with hp | hnone
    · rw [hp, put]
    · exact absurd hm (by simp [hnone f hv hxl])

/-- Two frames for a subscription of depth one that asks the sender to wait. -/
theorem received_ne_block :
    ¬ ∀ filters opts events, Arrivals events →
      received filters opts events = Virt.received filters opts events := by
  intro h
  have hevents : Arrivals [.arrive { id := 0x123, data := [1] },
      .arrive { id := 0x123, data := [2] }, .receive, .receive] := by
    intro f hf
    simp only [List.mem_cons, Event.arrive.injEq, reduceCtorEq, List.not_mem_nil,
      or_false] at hf
    rcases hf with rfl | rfl <;> decide
  exact absurd (h [] [withChannelDepth 1, withBackPressure .block] _ hevents) (by decide)

end CppCan.SocketCan
