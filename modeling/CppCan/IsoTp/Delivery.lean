import CppCan.Core.Backlog
import CppCan.IsoTp.Emissions
import CppCan.IsoTp.Refinement

/-!
# Delivery over the in-process bus

Every schedule of a sender and a receiver on one bus either ends with the payload
received or drops a frame at a full channel. A payload that fits a first frame
and as many consecutive frames as a channel buffers is always received.
-/

namespace CppCan.IsoTp

open CppCan.Core CppCan.Relay Relation
open CppCan.Virt (Bus Subscription)

/-- Two connections that hear each other and not themselves, with identifiers in range. -/
structure Peers (a b : Config) : Prop where
  forth : a.txId = b.rxId
  back : b.txId = a.rxId
  distinct : a.txId ≠ b.txId
  valid : (makeFrame a []).Valid
  valid' : (makeFrame b []).Valid

/-- The roles may be exchanged. -/
theorem Peers.symm {a b : Config} (h : Peers a b) : Peers b a :=
  ⟨h.back, h.forth, h.distinct.symm, h.valid', h.valid⟩

/-- The subscription of a connection. -/
def subscription (cfg : Config) (ch : Nat) : Subscription :=
  { filters := [{ id := cfg.rxId, mask := 0x1FFFFFFF }], ch := ch, backPressure := .dropNewest }

section Routing

variable {a b : Config} {data : List UInt8}

/-- The mask of a subscription keeps every identifier in range. -/
theorem and_mask {id : UInt32} (h : id ≤ kCANMaxExtID) : id &&& 0x1FFFFFFF = id := by
  have hlt : id.toNat < 2 ^ 29 := by
    have hle := UInt32.le_iff_toNat_le.mp h
    exact Nat.lt_of_le_of_lt hle (by decide)
  rw [← UInt32.toNat_inj, UInt32.toNat_and]
  exact Nat.and_two_pow_sub_one_of_lt_two_pow hlt

/-- The identifier of a valid frame is in range. -/
theorem txId_le (h : (makeFrame a []).Valid) : a.txId ≤ kCANMaxExtID := by
  obtain ⟨hext, hstd⟩ := h.idRange rfl
  cases he : a.extIds with
  | true => simpa [makeFrame, he] using hext
  | false =>
    have hle : a.txId ≤ kCANMaxStdID := by simpa [makeFrame, he] using hstd
    have hmax : kCANMaxStdID ≤ kCANMaxExtID := by decide
    exact UInt32.le_trans hle hmax

/-- Up to eight bytes do not make a frame invalid. -/
theorem valid_makeFrame (h : (makeFrame a []).Valid) (hlen : data.length ≤ 8) :
    (makeFrame a data).Valid := by
  obtain ⟨hext, hstd⟩ := h.idRange rfl
  have hfit : ¬ kCANMaxDataLen.toNat < data.length := Nat.not_lt.mpr hlen
  have hext' : ¬ (a.extIds = true ∧ kCANMaxExtID < a.txId) := by simpa [makeFrame] using hext
  have hstd' : ¬ (a.extIds = false ∧ kCANMaxStdID < a.txId) := by simpa [makeFrame] using hstd
  simp [Frame.Valid, validateFrame, validateClassicOrFd, makeFrame, hext', hstd', hfit]
  rfl

/-- The frames of a connection are for its peer. -/
theorem Peers.routed (h : Peers a b) (hlen : data.length ≤ 8) (i j : Nat) :
    Routed (subscription b j) (subscription a i) (makeFrame a data) where
  valid := valid_makeFrame h.valid hlen
  matched := by
    simp [matchesAny, subscription, Filter.isMatch, makeFrame, h.forth]
  unmatched := by
    have hown : a.txId &&& 0x1FFFFFFF ≠ a.rxId &&& 0x1FFFFFFF := by
      rw [← h.back, and_mask (txId_le h.valid), and_mask (txId_le h.valid')]
      exact h.distinct
    simpa [matchesAny, subscription, Filter.isMatch, makeFrame] using hown

/-- What `send` emits is for the peer. -/
theorem Peers.emitsOnly_send (h : Peers a b) (payload : List UInt8) (i j : Nat) :
    EmitsOnly (Routed (subscription b j) (subscription a i)) (send a payload) := by
  refine emits_send (fun _ => ()) ?_ ?_ ?_
  · intro _ hlen
    refine ⟨(), h.routed ?_ i j⟩
    rw [List.length_cons]
    omega
  · intro _ _
    refine h.routed ?_ i j
    simp only [firstFrameData, List.length_append, List.length_cons, List.length_nil,
      List.length_take]
    omega
  · intro offset sn _
    refine h.routed ?_ i j
    simp only [consecutiveData, List.length_cons, List.length_take]
    omega

/-- What `recv` emits in one block is for the peer. -/
theorem Peers.emitsOnly_recv (h : Peers a b) (hblock : a.blockSize = 0) (timeout i j : Nat) :
    EmitsOnly (Routed (subscription b j) (subscription a i)) (recv a timeout) := by
  have hfc : (flowControlData a).length ≤ 8 := by
    simp only [flowControlData, List.length_cons, List.length_nil]
    omega
  exact emits_recv () hblock (h.routed hfc i j)

end Routing

section Room

variable {sender receiver : Config} {timeout : Nat} {payload : List UInt8}

/-- A receiver in one block has a budget of one frame. -/
theorem sends_recv (hblock : receiver.blockSize = 0) (n : Nat) :
    Duplex.Sends Spends [recv receiver timeout] (n + 1) :=
  have hone : Spends (n + 1) (flowControl receiver) n := rfl
  Duplex.sends_singleton (emits_recv n hblock hone)

/-- The consecutive frames of a short payload fit a channel. -/
theorem paced_exchange (hblock : receiver.blockSize = 0) (hne : payload ≠ [])
    (hlen : payload.length ≤ 454) :
    Duplex.Paced 64 (exchange sender receiver timeout payload) := by
  by_cases hsingle : payload.length ≤ 7
  · have hsend : (send sender payload).Emits Spends (fun _ _ => True) 1 := by
      rw [send_single hne hsingle]
      exact ⟨0, rfl, fun _ => trivial⟩
    refine .budgeted ⟨⟨1, Duplex.sends_singleton hsend, ?_⟩, 1, sends_recv hblock 0, ?_⟩
    · simp [exchange]
    · simp [exchange]
  · have hmax : payload.length ≤ kMaxPayload := le_trans hlen (by decide)
    have hsend : (send sender payload).Emits Spends (fun _ _ => True) 65 := by
      refine emits_send (fun offset => segmentsLeft payload offset + (64 - segmentsLeft payload 6))
        ?_ ?_ ?_
      · exact fun _ h => absurd h hsingle
      · intro _ _
        simp only [Spends, segmentsLeft]
        omega
      · intro offset sn _
        simp only [Spends, segmentsLeft, nextOffset]
        omega
    obtain ⟨k, heq, l, p, c, hk⟩ : ∃ k, send sender payload = .emit (firstFrame sender payload) k ∧
        ∃ l p c, k none = .await l p c := ⟨_, send_multi (by omega) hmax, _, _, _, rfl⟩
    rw [heq] at hsend
    obtain ⟨q, hq, hrest⟩ := hsend
    obtain rfl : q = 64 := by simpa [Spends] using hq.symm
    have hopen : exchange sender receiver timeout payload =
        ⟨{ calls := [.emit (firstFrame sender payload) k] },
          { calls := [.await timeout (fun _ => true) (onFirst receiver timeout)] }⟩ := by
      rw [exchange, heq, recv_eq]
    exact .opening hopen hk (Duplex.sends_singleton (hrest none)) (sends_recv hblock 63)

end Room

namespace Link

/-- Both endpoints read their own channels and send to each other. -/
structure Sound (w : Link) (s r : Subscription) : Prop where
  wired : Wired w.bus s r
  sender : w.sender.Sound w.bus s r
  receiver : w.receiver.Sound w.bus r s

/-- The two stations of the lossless link. -/
def view (w : Link) (s r : Subscription) : Exchange :=
  ⟨w.sender.view w.bus r, w.receiver.view w.bus s⟩

/-- A bound on the steps before a station takes one. -/
def lag (w : Link) (s r : Subscription) : Nat := w.sender.lag r + w.receiver.lag s

/-- What a step of the link is for its stations. -/
inductive Simulates (w w' : Link) (s r : Subscription) : Prop
  | internal (hview : w'.view s r = w.view s r) (hlag : w'.lag s r < w.lag s r)
  | progress (h : Duplex.Progress (w.view s r) (w'.view s r))
  | dropped (hroom : ¬ Duplex.Paced 64 (w.view s r)) (hdrop : 0 < w'.bus.metrics.dropCount)

variable {w w' : Link} {s r : Subscription} {t : Exchange}

/-- A step of a thread keeps the link sound. -/
theorem Sound.step_send (hs : w.Sound s r) (h : w.step .send = some w') :
    w'.Sound s r ∧ w.Simulates w' s r := by
  obtain ⟨⟨b, e⟩, hadv, rfl⟩ := Option.map_eq_some_iff.mp h
  obtain ⟨hw, he, ho, hmove⟩ := hs.sender.moves hs.wired hs.receiver hadv
  refine ⟨⟨hw, he, ho⟩, ?_⟩
  cases hmove with
  | internal hview hother hlag =>
    refine .internal ?_ ?_
    · simp only [view, hview, hother]
    · exact Nat.add_lt_add_right hlag _
  | passed hstep hother =>
    refine .progress (Duplex.progress_iff.mpr (.inl ⟨_, _, hstep, ?_⟩))
    simp only [view, hother]
  | dropped hstep hfull hdrop =>
    refine .dropped (fun hp => ?_) hdrop
    have hlt := hp.room_right (by omega) hstep
    exact absurd hfull (Nat.not_le.mpr hlt)

/-- A step of a thread keeps the link sound. -/
theorem Sound.step_recv (hs : w.Sound s r) (h : w.step .recv = some w') :
    w'.Sound s r ∧ w.Simulates w' s r := by
  obtain ⟨⟨b, e⟩, hadv, rfl⟩ := Option.map_eq_some_iff.mp h
  obtain ⟨hw, he, ho, hmove⟩ := hs.receiver.moves hs.wired.symm hs.sender hadv
  refine ⟨⟨hw.symm, ho, he⟩, ?_⟩
  cases hmove with
  | internal hview hother hlag =>
    refine .internal ?_ ?_
    · simp only [view, hview, hother]
    · exact Nat.add_lt_add_left hlag _
  | passed hstep hother =>
    refine .progress (Duplex.progress_iff.mpr (.inr ⟨_, _, hstep, ?_⟩))
    simp only [view, hother]
  | dropped hstep hfull hdrop =>
    refine .dropped (fun hp => ?_) hdrop
    have hlt := hp.room_left hstep
    exact absurd hfull (Nat.not_le.mpr hlt)

/-- In a quiet link both stations are at rest. -/
theorem Sound.rests (hs : w.Sound s r) (hq : w.quiet = true) :
    (w.view s r).left.Rests ∧ (w.view s r).right.Rests := by
  simp only [quiet, Bool.and_eq_true, List.isEmpty_iff] at hq
  obtain ⟨⟨⟨hl, hr⟩, hls⟩, hrs⟩ := hq
  exact ⟨hs.sender.rests hls hl, hs.receiver.rests hrs hr⟩

/-- While the stations can still finish, no wait is given up. -/
theorem Sound.not_expire {x : Link} (hs : w.Sound s r)
    (hrun : ReflTransGen Duplex.Progress (w.view s r) t) (ht : t.Finished) :
    w.step .expireSend ≠ some x ∧ w.step .expireRecv ≠ some x := by
  have hstay : w.quiet = true → ∀ side accept, (w.view s r).awaits side ≠ some accept := by
    intro hq side accept hw
    obtain ⟨hrl, hrr⟩ := hs.rests hq
    have hend := Duplex.awaits_of_rests hrl hrr hw hrun
    exact absurd ((ht.awaits side).symm.trans hend) (by simp)
  constructor
  · intro h
    simp only [step] at h
    split_ifs at h with hq
    obtain ⟨e, he, -⟩ := Option.map_eq_some_iff.mp h
    obtain ⟨accept, hw⟩ := hs.sender.awaits_of_expire he
    exact hstay hq .left accept hw
  · intro h
    simp only [step] at h
    split_ifs at h with hq
    obtain ⟨e, he, -⟩ := Option.map_eq_some_iff.mp h
    obtain ⟨accept, hw⟩ := hs.receiver.awaits_of_expire he
    exact hstay hq .right accept hw

/-- Every step of the link is one of its threads' steps, seen from the stations. -/
theorem Sound.step (hs : w.Sound s r) (hrun : ReflTransGen Duplex.Progress (w.view s r) t)
    (ht : t.Finished) (h : w.Step w') : w'.Sound s r ∧ w.Simulates w' s r := by
  obtain ⟨ev, hev⟩ := h
  obtain ⟨hnl, hnr⟩ := hs.not_expire (x := w') hrun ht
  cases ev with
  | send => exact hs.step_send hev
  | recv => exact hs.step_recv hev
  | expireSend => exact absurd hev hnl
  | expireRecv => exact absurd hev hnr

/-- The link goes on whenever its stations do. -/
theorem Sound.exists_step (hs : w.Sound s r) {u : Exchange}
    (h : Duplex.Progress (w.view s r) u) : ∃ w', w.Step w' := by
  rcases Duplex.progress_iff.mp h with ⟨st, out, hst, -⟩ | ⟨st, out, hst, -⟩
  · obtain ⟨⟨b, e⟩, hadv⟩ := Option.isSome_iff_exists.mp (hs.sender.isSome_advance hs.wired hst 0)
    exact ⟨_, .send, Option.map_eq_some_iff.mpr ⟨_, hadv, rfl⟩⟩
  · obtain ⟨⟨b, e⟩, hadv⟩ :=
      Option.isSome_iff_exists.mp (hs.receiver.isSome_advance hs.wired.symm hst 1)
    exact ⟨_, .recv, Option.map_eq_some_iff.mpr ⟨_, hadv, rfl⟩⟩

/-- The lag is bounded. -/
theorem Sound.lag_le (hs : w.Sound s r) : w.lag s r ≤ 20 :=
  Nat.add_le_add (hs.sender.lag_le hs.wired) (hs.receiver.lag_le hs.wired.symm)

/-- A long payload has lost a frame, or the stations reach `t` in a bounded number of steps. -/
inductive Nears (payload : List UInt8) (s r : Subscription) (t : Exchange) : Nat → Link → Prop
  | dropped {n : Nat} {w : Link} (hdrop : 0 < w.bus.metrics.dropCount)
      (hlen : 454 < payload.length) : Nears payload s r t n w
  | live {n : Nat} {w : Link} (hs : w.Sound s r)
      (hroom : payload.length ≤ 454 → Duplex.Paced 64 (w.view s r))
      (hend : EndsIn Duplex.Progress t n (w.view s r)) :
      Nears payload s r t (21 * n + w.lag s r + 1) w

/-- Every step brings the link nearer to the end. -/
theorem Nears.of_step {payload : List UInt8} {n : Nat} (ht : t.Finished) (hs : w.Sound s r)
    (hroom : payload.length ≤ 454 → Duplex.Paced 64 (w.view s r))
    (hend : EndsIn Duplex.Progress t n (w.view s r)) (h : w.Step w') :
    ∃ m < 21 * n + w.lag s r + 1, Nears payload s r t m w' := by
  obtain ⟨hs', hsim⟩ := hs.step hend.reflTransGen ht h
  cases hsim with
  | internal hview hlag =>
    exact ⟨21 * n + w'.lag s r + 1, by omega, .live hs' (hview ▸ hroom) (hview ▸ hend)⟩
  | progress hprog =>
    obtain ⟨m, rfl, hm⟩ := hend.of_step Duplex.diamond_progress ht.stuck hprog
    have hle := hs'.lag_le
    exact ⟨21 * m + w'.lag s r + 1, by omega,
      .live hs' (fun hlen => (hroom hlen).progress hprog) hm⟩
  | dropped hfull hdrop =>
    exact ⟨0, by omega, .dropped hdrop (Nat.not_le.mp fun hlen => hfull (hroom hlen))⟩

end Link

section Main

variable {sender receiver : Config} {payload : List UInt8}

/-- A new bus with the two connections is wired for them, whichever was created first. -/
theorem wired_link (sender receiver : Config) (senderFirst : Bool) (timeout : Nat)
    (payload : List UInt8) :
    ∃ i j, Wired (link sender receiver senderFirst timeout payload).bus (subscription sender i)
        (subscription receiver j) ∧
      (link sender receiver senderFirst timeout payload).sender.ch = i ∧
      (link sender receiver senderFirst timeout payload).receiver.ch = j ∧
      ((link sender receiver senderFirst timeout payload).bus.chan i).buf = [] ∧
      ((link sender receiver senderFirst timeout payload).bus.chan j).buf = [] := by
  cases senderFirst with
  | true =>
    exact ⟨0, 1, ⟨rfl, rfl, .inl rfl, Nat.zero_ne_one, ⟨rfl, Nat.zero_lt_two, rfl, rfl⟩,
      ⟨rfl, Nat.one_lt_two, rfl, rfl⟩⟩, rfl, rfl, rfl, rfl⟩
  | false =>
    exact ⟨1, 0, ⟨rfl, rfl, .inr rfl, Nat.one_ne_zero, ⟨rfl, Nat.one_lt_two, rfl, rfl⟩,
      ⟨rfl, Nat.zero_lt_two, rfl, rfl⟩⟩, rfl, rfl, rfl, rfl⟩

/-- The new link is sound and its stations are those of the exchange. -/
theorem sound_link (hp : Peers sender receiver) (hblock : receiver.blockSize = 0)
    (senderFirst : Bool) (timeout : Nat) (payload : List UInt8) :
    ∃ s r, (link sender receiver senderFirst timeout payload).Sound s r ∧
      (link sender receiver senderFirst timeout payload).view s r =
        exchange sender receiver timeout payload := by
  obtain ⟨i, j, hw, hi, hj, hbi, hbj⟩ := wired_link sender receiver senderFirst timeout payload
  refine ⟨_, _, ⟨hw, ⟨hi, ?_, .idle⟩, hj, ?_, .idle⟩, ?_⟩
  · simpa [link] using hp.emitsOnly_send payload i j
  · simpa [link] using hp.symm.emitsOnly_recv hblock timeout j i
  · simp only [Link.view, Endpoint.view, hi, hj, hbi, hbj]
    rfl

/-- Every schedule ends with success and the payload received, or the bus drops a
frame, which takes more than 454 bytes. -/
theorem send_delivers (sender receiver : Config) (senderFirst : Bool) (timeout : Nat)
    (payload : List UInt8) (hp : Peers sender receiver) (hblock : receiver.blockSize = 0)
    (hne : payload ≠ []) (hmax : payload.length ≤ kMaxPayload) :
    Inevitably Link.Step
      (fun w => w.sender.Returned [none] ∧ w.receiver.Returned [.ok payload] ∨
        0 < w.bus.metrics.dropCount ∧ 454 < payload.length)
      (link sender receiver senderFirst timeout payload) := by
  obtain ⟨s, r, hs, hview⟩ := sound_link hp hblock senderFirst timeout payload
  have hrun := exchange_finishes sender receiver timeout hne hmax
    (fun hfull => hfull.2.1 hblock)
  obtain ⟨n, hend⟩ := exists_endsIn hrun
  rw [← hview] at hend
  have hroom : payload.length ≤ 454 → Duplex.Paced 64 _ := fun hlen =>
    hview ▸ paced_exchange hblock hne hlen
  refine Inevitably.of_rank (Link.Nears payload s r _) ?_ (.live hs hroom hend)
  rintro m w (⟨hdrop, hlen⟩ | @⟨k, _, hs, hroom, hend⟩)
  · exact .inl (.inr ⟨hdrop, hlen⟩)
  · rcases hend.cases_head with heq | ⟨u, hsu⟩
    · exact .inl (.inl ⟨hs.sender.returned (congrArg Duplex.left heq),
        hs.receiver.returned (congrArg Duplex.right heq)⟩)
    · exact .inr ⟨hs.exists_step hsu, fun w' h =>
        Link.Nears.of_step ⟨rfl, rfl⟩ hs hroom hend h⟩

/-- The longest payload that is received under every schedule. -/
theorem send_delivers_454 :
    Inevitably Link.Step
      (fun w => w.sender.Returned [none] ∧ w.receiver.Returned [.ok (List.replicate 454 7)] ∨
        0 < w.bus.metrics.dropCount ∧ 454 < (List.replicate 454 (7 : UInt8)).length)
      (link { txId := 0x7E0, rxId := 0x7E8 } { txId := 0x7E8, rxId := 0x7E0 } true 250
        (List.replicate 454 7)) := by
  have hpeers : Peers { txId := 0x7E0, rxId := 0x7E8 } { txId := 0x7E8, rxId := 0x7E0 } :=
    ⟨rfl, rfl, by decide, by decide, by decide⟩
  have hne : List.replicate 454 (7 : UInt8) ≠ [] := List.cons_ne_nil _ _
  have hmax : (List.replicate 454 (7 : UInt8)).length ≤ kMaxPayload := by
    rw [List.length_replicate]
    decide
  exact send_delivers _ _ true 250 _ hpeers rfl hne hmax

/-- The sender sends all consecutive frames before the receiver takes one; when
nothing is left to receive, the receiver gives up. -/
def overrun : List Link.Event :=
  List.replicate 7 .send ++ List.replicate 8 .recv ++ List.replicate 457 .send ++
    List.replicate 64 .recv ++ [.expireRecv, .recv]

/-- With 461 bytes the send succeeds and the receive fails: the 65th consecutive
frame met a full channel. -/
theorem success_without_delivery :
    ∃ es w err, (link { txId := 0x7E0, rxId := 0x7E8 } { txId := 0x7E8, rxId := 0x7E0 } true 250
        (List.replicate 461 7)).run es = some w ∧
      w.sender.Returned [none] ∧ w.receiver.Returned [.error err] := by
  have hends : ((link { txId := 0x7E0, rxId := 0x7E8 } { txId := 0x7E8, rxId := 0x7E0 } true 250
      (List.replicate 461 7)).run overrun).any (fun w =>
        w.sender.calls.isEmpty && decide (w.sender.results = [none]) &&
        (w.receiver.calls.isEmpty &&
          decide (w.receiver.results.map Except.toOption = [none]))) := by
    decide +kernel
  obtain ⟨w, hrun, hw⟩ := (Option.any_eq_true _ _).mp hends
  simp only [Bool.and_eq_true, List.isEmpty_iff, decide_eq_true_eq] at hw
  obtain ⟨⟨hs, hsr⟩, hr, hrr⟩ := hw
  obtain ⟨res, hres, hnone⟩ := List.map_eq_singleton_iff.mp hrr
  cases res with
  | error err => exact ⟨overrun, w, err, hrun, ⟨hs, hsr⟩, hr, hres⟩
  | ok p => exact absurd hnone (by simp [Except.toOption])

end Main

end CppCan.IsoTp
