import CppCan.IsoTp.Declared

/-!
# The end of a reassembly

Without a bound on its rounds the loop of `recv` is a machine that takes one consecutive
frame in each round. A frame that it accepts adds at least one byte, so the loop ends on
every stream, and a complete block is answered by a flow control as long as data is missing.
The loop with a bound shows what this machine shows.
-/

namespace CppCan.IsoTp

open CppCan.Core CppCan.Relay

/-- The variables of the loop. -/
structure Reassembly where
  buf : List UInt8
  sn : UInt8 := 1
  cfInBlock : Nat := 0
  deriving DecidableEq, Repr

/-- The loop waits for a consecutive frame, or it is left. -/
inductive Progress where
  | waiting (st : Reassembly)
  | returned (res : Except ErrorCode (List UInt8))

/-- The condition of the loop. -/
def loopHead (length : Nat) (st : Reassembly) : Progress :=
  if st.buf.length < length then .waiting st else .returned (.ok st.buf)

/-- The flow control that the bus answers in this way, and what follows it. -/
def askNext (cfg : Config) (answer : Option ErrorCode) (next : Progress) : Log × Progress :=
  ([.sent (flowControl cfg) answer],
    match answer with
    | some err => .returned (.error err)
    | none => next)

/-- A round of the loop on the frame that `recv_cf` returns. -/
def Reassembly.round (cfg : Config) (length : Nat) (answer : Option ErrorCode) (st : Reassembly)
    (cf : Frame) : Log × Progress :=
  if cf.data.getD 0 0 &&& 0x0F ≠ st.sn &&& 0x0F then ([], .returned (.error (.generic .badMessage)))
  else if cf.data.length < 2 then ([], .returned (.error (.generic .badMessage)))
  else
    let chunkLen := min (cf.data.length - 1) (length - st.buf.length)
    let buf := st.buf ++ (cf.data.drop 1).take chunkLen
    if cfg.blockSize ≠ 0 ∧ buf.length < length then
      if st.cfInBlock + 1 = cfg.blockSize.toNat then
        askNext cfg answer (loopHead length ⟨buf, st.sn + 1, 0⟩)
      else ([], loopHead length ⟨buf, st.sn + 1, st.cfInBlock + 1⟩)
    else ([], loopHead length ⟨buf, st.sn + 1, st.cfInBlock⟩)

/-- The loop after `n` rounds on a stream of consecutive frames behind a first frame, with
what it has shown; `answers` are the answers of the bus to its flow controls. -/
def afterRounds (cfg : Config) (first : Frame) (cfs : Nat → Frame)
    (answers : Nat → Option ErrorCode) : Nat → Log × Progress
  | 0 =>
    if first.data.length < 2 then ([.took first], .returned (.error (.generic .badMessage)))
    else
      let (ls, p) :=
        askNext cfg (answers 0) (loopHead (declaredLength first) { buf := carried first })
      (.took first :: ls, p)
  | n + 1 =>
    match afterRounds cfg first cfs answers n with
    | (ls, .returned res) => (ls, .returned res)
    | (ls, .waiting st) =>
      let (ls', p) :=
        st.round cfg (declaredLength first) (answers (offered ls).length) (cfs n)
      (ls ++ .took (cfs n) :: ls', p)

/-- The frame with index `n` has the number that is due and carries a byte. -/
def Accepted (cfs : Nat → Frame) (n : Nat) : Prop :=
  ((cfs n).data.getD 0 0 &&& 0x0F).toNat = (n + 1) % 16 ∧ 2 ≤ (cfs n).data.length

instance (cfs : Nat → Frame) (n : Nat) : Decidable (Accepted cfs n) :=
  inferInstanceAs (Decidable (_ ∧ _))

/-- The bytes that a first frame and `n` consecutive frames carry. -/
def bytesCarried (first : Frame) (cfs : Nat → Frame) : Nat → Nat
  | 0 => (carried first).length
  | n + 1 => bytesCarried first cfs n + ((cfs n).data.length - 1)

/-- The flow control behind the frame with index `n`: it is accepted, completes a block and
leaves data missing. -/
def FlowControlDue (cfg : Config) (first : Frame) (cfs : Nat → Frame) (n : Nat) : Prop :=
  Accepted cfs n ∧ cfg.blockSize.toNat ∣ n + 1 ∧
    bytesCarried first cfs (n + 1) < declaredLength first

instance (cfg : Config) (first : Frame) (cfs : Nat → Frame) (n : Nat) :
    Decidable (FlowControlDue cfg first cfs n) :=
  inferInstanceAs (Decidable (_ ∧ _ ∧ _))

/-- What a round shows when the bus takes every flow control. -/
def roundLog (cfg : Config) (first : Frame) (cfs : Nat → Frame) (n : Nat) : Log :=
  .took (cfs n) :: if FlowControlDue cfg first cfs n then [.sent (flowControl cfg) none] else []

/-- The loop waits after `n` rounds. -/
structure Waiting (cfg : Config) (first : Frame) (cfs : Nat → Frame) (n : Nat)
    (st : Reassembly) : Prop where
  length_eq : st.buf.length = bytesCarried first cfs n
  missing : st.buf.length < declaredLength first
  rounds_le : (carried first).length + n ≤ st.buf.length
  sn_eq : st.sn = UInt8.ofNat (n + 1)
  block_eq : cfg.blockSize ≠ 0 → st.cfInBlock = n % cfg.blockSize.toNat

variable {cfg : Config} {first : Frame} {cfs : Nat → Frame} {answers : Nat → Option ErrorCode}
  {answer : Option ErrorCode} {length n timeout rounds : Nat} {st st' : Reassembly} {ls : Log}
  {res : Except ErrorCode (List UInt8)} {cf : Frame}

/-- The frame has the number that is due and carries a byte. -/
def Reassembly.Expects (st : Reassembly) (cf : Frame) : Prop :=
  cf.data.getD 0 0 &&& 0x0F = st.sn &&& 0x0F ∧ 2 ≤ cf.data.length

/-- The buffer with the bytes of an accepted frame. -/
def Reassembly.extended (st : Reassembly) (length : Nat) (cf : Frame) : List UInt8 :=
  st.buf ++ (cf.data.drop 1).take (min (cf.data.length - 1) (length - st.buf.length))

theorem Reassembly.length_extended (st : Reassembly) (length : Nat) (cf : Frame) :
    (st.extended length cf).length =
      st.buf.length + min (cf.data.length - 1) (length - st.buf.length) := by
  rw [extended, List.length_append, List.length_take, List.length_drop]
  omega

/-- The ways a round can go. -/
inductive RoundOutcome (cfg : Config) (length : Nat) (answer : Option ErrorCode) (st : Reassembly)
    (cf : Frame) : Log × Progress → Prop where
  | rejected (h : ¬ st.Expects cf) :
      RoundOutcome cfg length answer st cf ([], .returned (.error (.generic .badMessage)))
  | complete (h : st.Expects cf) (hdone : length ≤ (st.extended length cf).length) :
      RoundOutcome cfg length answer st cf ([], .returned (.ok (st.extended length cf)))
  | goesOn {k : Nat} (h : st.Expects cf) (hmissing : (st.extended length cf).length < length)
      (hk : k = if cfg.blockSize = 0 then st.cfInBlock else st.cfInBlock + 1)
      (hblock : cfg.blockSize ≠ 0 → st.cfInBlock + 1 ≠ cfg.blockSize.toNat) :
      RoundOutcome cfg length answer st cf
        ([], .waiting ⟨st.extended length cf, st.sn + 1, k⟩)
  | asks (h : st.Expects cf) (hmissing : (st.extended length cf).length < length)
      (hsize : cfg.blockSize ≠ 0) (hblock : st.cfInBlock + 1 = cfg.blockSize.toNat) :
      RoundOutcome cfg length answer st cf
        (askNext cfg answer (.waiting ⟨st.extended length cf, st.sn + 1, 0⟩))

theorem loopHead_of_lt (h : st.buf.length < length) : loopHead length st = .waiting st := if_pos h

theorem loopHead_of_le (h : length ≤ st.buf.length) : loopHead length st = .returned (.ok st.buf) :=
  if_neg (Nat.not_lt.mpr h)

/-- The two checks reject what is not expected. -/
theorem reject_of_not_expects {α : Type} {a b : α} (h : ¬ st.Expects cf) :
    (if cf.data.getD 0 0 &&& 0x0F ≠ st.sn &&& 0x0F then a
      else if cf.data.length < 2 then a else b) = a := by
  by_cases hnum : cf.data.getD 0 0 &&& 0x0F = st.sn &&& 0x0F
  · have hshort : cf.data.length < 2 := by
      by_contra hlen
      exact h ⟨hnum, by omega⟩
    rw [if_neg (not_not.mpr hnum), if_pos hshort]
  · rw [if_pos hnum]

/-- An accepted frame is followed by the flow control that is due. -/
theorem Reassembly.round_of_expects (h : st.Expects cf) :
    st.round cfg length answer cf =
      if cfg.blockSize ≠ 0 ∧ (st.extended length cf).length < length then
        if st.cfInBlock + 1 = cfg.blockSize.toNat then
          askNext cfg answer (loopHead length ⟨st.extended length cf, st.sn + 1, 0⟩)
        else ([], loopHead length ⟨st.extended length cf, st.sn + 1, st.cfInBlock + 1⟩)
      else ([], loopHead length ⟨st.extended length cf, st.sn + 1, st.cfInBlock⟩) := by
  unfold Reassembly.round
  rw [if_neg (not_not.mpr h.1), if_neg (Nat.not_lt.mpr h.2)]
  rfl

/-- Every round goes one of these ways. -/
theorem outcome_round (cfg : Config) (length : Nat) (answer : Option ErrorCode) (st : Reassembly)
    (cf : Frame) : RoundOutcome cfg length answer st cf (st.round cfg length answer cf) := by
  by_cases hexpects : st.Expects cf
  · rw [Reassembly.round_of_expects hexpects]
    by_cases hmissing : (st.extended length cf).length < length
    · have hhead : ∀ sn k, loopHead length ⟨st.extended length cf, sn, k⟩ =
          .waiting ⟨st.extended length cf, sn, k⟩ := fun _ _ => loopHead_of_lt hmissing
      simp only [hhead, hmissing, and_true]
      split_ifs with hsize hblock
      · exact .asks hexpects hmissing hsize hblock
      · exact .goesOn hexpects hmissing (if_neg hsize).symm fun _ => hblock
      · exact .goesOn hexpects hmissing (if_pos (not_not.mp hsize)).symm fun h => absurd h hsize
    · rw [if_neg (fun h => hmissing h.2), loopHead_of_le (Nat.not_lt.mp hmissing)]
      exact .complete hexpects (Nat.not_lt.mp hmissing)
  · have hround : st.round cfg length answer cf =
        ([], .returned (.error (.generic .badMessage))) := reject_of_not_expects hexpects
    rw [hround]
    exact .rejected hexpects

/-- A round at which the loop waits. -/
theorem afterRounds_succ (h : afterRounds cfg first cfs answers n = (ls, .waiting st)) :
    afterRounds cfg first cfs answers (n + 1) =
      (ls ++ .took (cfs n) ::
          (st.round cfg (declaredLength first) (answers (offered ls).length) (cfs n)).1,
        (st.round cfg (declaredLength first) (answers (offered ls).length) (cfs n)).2) := by
  rw [afterRounds, h]

/-- A loop that is left stays so. -/
theorem afterRounds_returned (h : afterRounds cfg first cfs answers n = (ls, .returned res)) :
    afterRounds cfg first cfs answers (n + 1) = (ls, .returned res) := by
  rw [afterRounds, h]

theorem afterRounds_returned_add (h : afterRounds cfg first cfs answers n = (ls, .returned res))
    (m : Nat) : afterRounds cfg first cfs answers (n + m) = (ls, .returned res) := by
  induction m with
  | zero => exact h
  | succ m ih => exact afterRounds_returned ih

/-- A loop that waits has waited before. -/
theorem exists_waiting_before (h : afterRounds cfg first cfs answers (n + 1) = (ls, .waiting st)) :
    ∃ ls' st', afterRounds cfg first cfs answers n = (ls', .waiting st') := by
  cases hn : afterRounds cfg first cfs answers n with
  | mk ls' p =>
    cases p with
    | waiting st' => exact ⟨ls', st', rfl⟩
    | returned res =>
      rw [afterRounds_returned hn] at h
      cases h

/-- The number that is due. -/
theorem Waiting.expects_iff (h : Waiting cfg first cfs n st) :
    st.Expects (cfs n) ↔ Accepted cfs n := by
  have hnum : (cfs n).data.getD 0 0 &&& 0x0F = st.sn &&& 0x0F ↔
      ((cfs n).data.getD 0 0 &&& 0x0F).toNat = (n + 1) % 16 := by
    rw [← UInt8.toNat_inj, h.sn_eq, toNat_and_nibble (UInt8.ofNat (n + 1)), UInt8.toNat_ofNat']
    omega
  exact and_congr_left' hnum

/-- An accepted frame adds its bytes, up to those that are missing. -/
theorem Waiting.length_extended (h : Waiting cfg first cfs n st) :
    (st.extended (declaredLength first) (cfs n)).length =
      min (declaredLength first) (bytesCarried first cfs (n + 1)) := by
  have hmissing := h.missing
  have hlen := h.length_eq
  rw [Reassembly.length_extended, bytesCarried]
  omega

/-- A round that goes on leads to the next wait. -/
theorem Waiting.next (h : Waiting cfg first cfs n st) {k : Nat} (hexpects : st.Expects (cfs n))
    (hmissing : (st.extended (declaredLength first) (cfs n)).length < declaredLength first)
    (hblock : cfg.blockSize ≠ 0 → k = (n + 1) % cfg.blockSize.toNat) :
    Waiting cfg first cfs (n + 1)
      ⟨st.extended (declaredLength first) (cfs n), st.sn + 1, k⟩ where
  length_eq := by
    have hlen := h.length_extended
    show (st.extended (declaredLength first) (cfs n)).length = _
    omega
  missing := hmissing
  rounds_le := by
    have hlen := h.length_extended
    have hle := h.rounds_le
    have hbytes := h.length_eq
    have hadd : bytesCarried first cfs (n + 1) =
        bytesCarried first cfs n + ((cfs n).data.length - 1) := rfl
    have hcarries := hexpects.2
    show _ ≤ (st.extended (declaredLength first) (cfs n)).length
    omega
  sn_eq := by
    show st.sn + 1 = _
    rw [h.sn_eq, UInt8.ofNat_add (n + 1) 1]
    rfl
  block_eq := hblock

/-- The place in its block of the next frame. -/
theorem succ_mod_eq {n b : Nat} (hb : 0 < b) :
    (n + 1) % b = if n % b + 1 = b then 0 else n % b + 1 := by
  have hlt := Nat.mod_lt n hb
  rw [← Nat.mod_add_mod]
  split_ifs with h
  · rw [h, Nat.mod_self]
  · exact Nat.mod_eq_of_lt (by omega)

theorem blockSize_pos (h : cfg.blockSize ≠ 0) : 0 < cfg.blockSize.toNat :=
  Nat.pos_of_ne_zero fun h0 => h (UInt8.toNat_inj.mp h0)

/-- The loop waits behind a flow control that the bus takes. -/
theorem askNext_eq_waiting {p : Progress} (h : askNext cfg answer p = (ls, .waiting st)) :
    answer = none ∧ p = .waiting st := by
  cases answer with
  | none => exact ⟨rfl, (Prod.mk.inj h).2⟩
  | some err => cases (Prod.mk.inj h).2

/-- Wherever the loop waits its variables are determined by the frames so far. -/
theorem waiting_of_afterRounds
    (h : afterRounds cfg first cfs answers n = (ls, .waiting st)) : Waiting cfg first cfs n st := by
  induction n generalizing ls st with
  | zero =>
    rw [afterRounds] at h
    split_ifs at h with hshort
    · cases (Prod.mk.inj h).2
    obtain ⟨ls', hask⟩ : ∃ ls', askNext cfg (answers 0) (loopHead (declaredLength first)
        { buf := carried first }) = (ls', .waiting st) := ⟨_, Prod.ext rfl (Prod.mk.inj h).2⟩
    obtain ⟨-, hhead⟩ := askNext_eq_waiting hask
    unfold loopHead at hhead
    split_ifs at hhead with hmissing
    obtain rfl := Progress.waiting.inj hhead
    exact ⟨rfl, hmissing, le_rfl, rfl, fun _ => (Nat.zero_mod _).symm⟩
  | succ n ih =>
    obtain ⟨ls', st', hn⟩ := exists_waiting_before h
    have hw := ih hn
    rw [afterRounds_succ hn] at h
    have hp := (Prod.mk.inj h).2
    have hround :=
      outcome_round cfg (declaredLength first) (answers (offered ls').length) st' (cfs n)
    generalize st'.round cfg (declaredLength first) (answers (offered ls').length) (cfs n) = out
      at hp hround
    cases hround with
    | rejected => cases hp
    | complete => cases hp
    | goesOn hexpects hmissing hk hblock =>
      obtain rfl := Progress.waiting.inj hp
      refine hw.next hexpects hmissing fun hsize => ?_
      have hopen := hblock hsize
      rw [hw.block_eq hsize] at hopen
      rw [hk, if_neg hsize, hw.block_eq hsize, succ_mod_eq (blockSize_pos hsize), if_neg hopen]
    | asks hexpects hmissing hsize hblock =>
      obtain ⟨-, hnext⟩ := askNext_eq_waiting (Prod.ext rfl hp)
      obtain rfl := Progress.waiting.inj hnext
      refine hw.next hexpects hmissing fun _ => ?_
      rw [hw.block_eq hsize] at hblock
      rw [succ_mod_eq (blockSize_pos hsize), if_pos hblock]

/-- After so many rounds as bytes are missing behind the first frame the loop is left. -/
theorem exists_returned (cfg : Config) (first : Frame) (cfs : Nat → Frame)
    (answers : Nat → Option ErrorCode) :
    ∃ n ls res, n ≤ declaredLength first - (carried first).length ∧
      afterRounds cfg first cfs answers n = (ls, .returned res) ∧
      ∀ k < n, ∃ ls st, afterRounds cfg first cfs answers k = (ls, .waiting st) := by
  classical
  have hleft : ∃ n ls res, afterRounds cfg first cfs answers n = (ls, .returned res) := by
    refine ⟨declaredLength first - (carried first).length, ?_⟩
    cases h : afterRounds cfg first cfs answers
        (declaredLength first - (carried first).length) with
    | mk ls p =>
      cases p with
      | returned res => exact ⟨ls, res, rfl⟩
      | waiting st =>
        have hw := waiting_of_afterRounds h
        have hmissing := hw.missing
        have hle := hw.rounds_le
        omega
  obtain ⟨ls, res, hres⟩ := Nat.find_spec hleft
  have hbefore : ∀ k < Nat.find hleft, ∃ ls st,
      afterRounds cfg first cfs answers k = (ls, .waiting st) := by
    intro k hk
    cases h : afterRounds cfg first cfs answers k with
    | mk ls p =>
      cases p with
      | returned res => exact absurd ⟨ls, res, h⟩ (Nat.find_min hleft hk)
      | waiting st => exact ⟨ls, st, rfl⟩
  refine ⟨Nat.find hleft, ls, res, ?_, hres, hbefore⟩
  by_contra hgt
  obtain ⟨ls, st, h⟩ := hbefore (declaredLength first - (carried first).length) (by omega)
  have hw := waiting_of_afterRounds h
  have hmissing := hw.missing
  have hle := hw.rounds_le
  omega

/-- A round takes one frame, and shows a flow control behind it where one is due. -/
theorem Waiting.round_log (h : Waiting cfg first cfs n st) (hsize : cfg.blockSize ≠ 0) :
    .took (cfs n) :: (st.round cfg (declaredLength first) none (cfs n)).1 =
      roundLog cfg first cfs n := by
  have hround := outcome_round cfg (declaredLength first) none st (cfs n)
  generalize st.round cfg (declaredLength first) none (cfs n) = out at hround
  unfold roundLog
  have hlen := h.length_extended
  have hdvd : cfg.blockSize.toNat ∣ n + 1 ↔ st.cfInBlock + 1 = cfg.blockSize.toNat := by
    rw [Nat.dvd_iff_mod_eq_zero, succ_mod_eq (blockSize_pos hsize), h.block_eq hsize]
    split_ifs with hb <;> simp [hb]
  cases hround with
  | rejected hexpects => rw [if_neg fun hdue => hexpects (h.expects_iff.mpr hdue.1)]
  | complete hexpects hdone =>
    rw [if_neg fun hdue => ?_]
    have hmissing := hdue.2.2
    omega
  | goesOn hexpects hmissing hk hblock =>
    rw [if_neg fun hdue => hblock hsize (hdvd.mp hdue.2.1)]
  | asks hexpects hmissing _ hblock =>
    rw [if_pos ⟨h.expects_iff.mp hexpects, hdvd.mpr hblock, by omega⟩]
    rfl

/-- When the bus takes every flow control, a run shows its rounds. -/
theorem log_afterRounds (hlen : 2 ≤ first.data.length) (hsize : cfg.blockSize ≠ 0)
    (hwaits : ∀ k < n, ∃ ls st, afterRounds cfg first cfs (fun _ => none) k = (ls, .waiting st)) :
    (afterRounds cfg first cfs (fun _ => none) n).1 =
      .took first :: .sent (flowControl cfg) none ::
        (List.range n).flatMap (roundLog cfg first cfs) := by
  induction n with
  | zero =>
    rw [afterRounds, if_neg (Nat.not_lt.mpr hlen)]
    rfl
  | succ n ih =>
    obtain ⟨ls, st, hn⟩ := hwaits n (Nat.lt_succ_self n)
    have hlog := ih fun k hk => hwaits k (Nat.lt_succ_of_lt hk)
    rw [hn] at hlog
    dsimp only at hlog
    rw [afterRounds_succ hn, (waiting_of_afterRounds hn).round_log hsize, hlog, List.range_succ,
      List.flatMap_append]
    simp

/-- What the loop with a bound shows from here on. -/
def Progress.Shows (cfg : Config) (timeout length rounds : Nat) :
    Progress → Log → Except ErrorCode (List UInt8) → Prop
  | .waiting st, ls, res =>
    (recvLoop cfg timeout length rounds st.buf st.sn st.cfInBlock).Trace ls res
  | .returned r, ls, res => ls = [] ∧ res = r

/-- A round of the loop with a bound is one of the loop without. -/
theorem trace_round (hmissing : st.buf.length < length) (hcf : isConsecutive cf = true)
    {shown : Log} {p : Progress} (hround : st.round cfg length answer cf = (shown, p))
    (h : p.Shows cfg timeout length rounds ls res) :
    (recvLoop cfg timeout length (rounds + 1) st.buf st.sn st.cfInBlock).Trace
      (.took cf :: (shown ++ ls)) res := by
  rw [recvLoop_of_lt hmissing]
  refine .accept hcf ?_
  have hout := outcome_round cfg length answer st cf
  rw [hround] at hout
  have hsegment : st.Expects cf →
      onSegment cfg timeout length rounds st.buf st.sn st.cfInBlock (.ok cf) =
        afterSegment cfg timeout length rounds (st.extended length cf) (st.sn + 1)
          st.cfInBlock := by
    intro hexpects
    rw [onSegment, if_neg (not_not.mpr hexpects.1), if_neg (Nat.not_lt.mpr hexpects.2)]
    rfl
  generalize hpair : (shown, p) = out at hout
  cases hout with
  | rejected hexpects =>
    obtain ⟨rfl, rfl⟩ := Prod.mk.inj hpair
    obtain ⟨rfl, rfl⟩ := h
    have hreject : onSegment cfg timeout length rounds st.buf st.sn st.cfInBlock (.ok cf) =
        .ret (.error (.generic .badMessage)) := reject_of_not_expects hexpects
    rw [hreject]
    exact .ret _
  | complete hexpects hdone =>
    obtain ⟨rfl, rfl⟩ := Prod.mk.inj hpair
    obtain ⟨rfl, rfl⟩ := h
    rw [hsegment hexpects, afterSegment, if_neg (by omega), recvLoop_of_le hdone]
    exact .ret _
  | @goesOn k hexpects hmissing' hk hblock =>
    obtain ⟨rfl, rfl⟩ := Prod.mk.inj hpair
    have hnext :
        afterSegment cfg timeout length rounds (st.extended length cf) (st.sn + 1) st.cfInBlock =
          recvLoop cfg timeout length rounds (st.extended length cf) (st.sn + 1) k := by
      unfold afterSegment
      by_cases hsize : cfg.blockSize = 0
      · rw [if_neg (fun hb => hb.1 hsize), hk, if_pos hsize]
      · rw [if_pos ⟨hsize, hmissing'⟩, if_neg (hblock hsize), hk, if_neg hsize]
    rw [hsegment hexpects, hnext]
    exact h
  | asks hexpects hmissing' hsize hblock =>
    obtain ⟨rfl, rfl⟩ := Prod.mk.inj hpair
    rw [hsegment hexpects, afterSegment, if_pos ⟨hsize, hmissing'⟩, if_pos hblock]
    refine .emit ?_
    cases answer with
    | none => exact h
    | some err =>
      obtain ⟨rfl, rfl⟩ := h
      exact .ret _

/-- From a wait on, the loop with a bound shows what the loop without shows. -/
theorem trace_afterRounds (timeout : Nat) (hcfs : ∀ i, isConsecutive (cfs i) = true)
    {ls' : Log} (m : Nat)
    (hn : afterRounds cfg first cfs answers n = (ls, .waiting st))
    (hm : afterRounds cfg first cfs answers (n + m) = (ls', .returned res)) :
    ∃ ls'', ls' = ls ++ ls'' ∧ (recvLoop cfg timeout (declaredLength first)
      (declaredLength first - n) st.buf st.sn st.cfInBlock).Trace ls'' res := by
  induction m generalizing n ls st with
  | zero => cases hn.symm.trans hm
  | succ m ih =>
    have hw := waiting_of_afterRounds hn
    have hmissing := hw.missing
    have hrounds : declaredLength first - n = declaredLength first - (n + 1) + 1 := by
      have hle := hw.rounds_le
      omega
    have hnext := afterRounds_succ hn
    rw [hrounds]
    rw [← Nat.add_assoc, Nat.add_right_comm] at hm
    generalize hround : st.round cfg (declaredLength first) (answers (offered ls).length) (cfs n) =
      out at hnext
    obtain ⟨shown, p⟩ := out
    cases p with
    | waiting st' =>
      obtain ⟨ls'', rfl, htrace⟩ := ih hnext hm
      exact ⟨.took (cfs n) :: (shown ++ ls''), by simp,
        trace_round hmissing (hcfs n) hround htrace⟩
    | returned r =>
      obtain ⟨rfl, hr⟩ := Prod.mk.inj ((afterRounds_returned_add hnext m).symm.trans hm)
      obtain rfl := Progress.returned.inj hr
      refine ⟨.took (cfs n) :: (shown ++ []), by simp, ?_⟩
      exact trace_round hmissing (hcfs n) hround ⟨rfl, rfl⟩

/-- What follows the first frame in the loop without a bound follows it in `recv`. -/
theorem onFirst_eq (hfirst : isFirstFrame first = true) (hlen : 2 ≤ first.data.length) :
    onFirst cfg timeout (.ok first) = .emit (flowControl cfg) fun
      | some err => .ret (.error err)
      | none => recvLoop cfg timeout (declaredLength first) (declaredLength first)
          (carried first) 1 0 := by
  obtain ⟨pci, low, buf, hdata⟩ : ∃ pci low buf, first.data = pci :: low :: buf := by
    match hdata : first.data, hlen with
    | pci :: low :: buf, _ => exact ⟨pci, low, buf, rfl⟩
  have htype : pci &&& 0xF0 = kTypeFF := by simpa [isFirstFrame, hdata] using hfirst
  have hne : ¬ pci &&& 0xF0 = kTypeSF := by
    rw [htype]
    decide
  have hlength : declaredLength first = (pci &&& 0x0F).toNat <<< 8 ||| low.toNat := by
    simp [declaredLength, hdata, hfirst]
  have hcarried : carried first = buf := by simp [carried, hdata, hfirst]
  rw [hlength, hcarried, onFirst, hdata]
  exact (if_neg hne).trans (if_pos htype)

/-- A first frame without its length is refused. -/
theorem onFirst_short (hfirst : isFirstFrame first = true) (hlen : first.data.length < 2) :
    onFirst cfg timeout (.ok first) = .ret (.error (.generic .badMessage)) := by
  obtain ⟨id, ext, rtr, fd, brs, data, esi, xl, sdt, vcid, af, sec⟩ := first
  match data, hlen with
  | [], _ => rfl
  | [pci], _ =>
    have htype : pci &&& 0xF0 = kTypeFF := by simpa [isFirstFrame] using hfirst
    have hne : ¬ pci &&& 0xF0 = kTypeSF := by
      rw [htype]
      decide
    simp only [onFirst, if_neg hne, if_pos htype]

/-- A run of the loop without a bound is one of `recv`. -/
theorem trace_recv (hfirst : isFirstFrame first = true)
    (hcfs : ∀ i, isConsecutive (cfs i) = true)
    (h : afterRounds cfg first cfs answers n = (ls, .returned res)) :
    (recv cfg timeout).Trace ls res := by
  rw [recv_eq]
  by_cases hlen : first.data.length < 2
  · have hstart : afterRounds cfg first cfs answers 0 =
        ([.took first], .returned (.error (.generic .badMessage))) := if_pos hlen
    rw [← Nat.zero_add n] at h
    obtain ⟨rfl, hr⟩ := Prod.mk.inj ((afterRounds_returned_add hstart n).symm.trans h)
    obtain rfl := Progress.returned.inj hr
    refine .accept rfl ?_
    rw [onFirst_short hfirst hlen]
    exact .ret _
  replace hlen := Nat.not_lt.mp hlen
  have hstart : afterRounds cfg first cfs answers 0 = (.took first :: .sent (flowControl cfg)
      (answers 0) :: [], (askNext cfg (answers 0) (loopHead (declaredLength first)
        { buf := carried first })).2) := if_neg (Nat.not_lt.mpr hlen)
  cases hanswer : answers 0 with
  | some err =>
    rw [hanswer] at hstart
    rw [← Nat.zero_add n] at h
    obtain ⟨rfl, hr⟩ := Prod.mk.inj ((afterRounds_returned_add hstart n).symm.trans h)
    obtain rfl := Progress.returned.inj hr
    refine .accept rfl ?_
    rw [onFirst_eq hfirst hlen]
    exact .emit (.ret _)
  | none =>
    rw [hanswer] at hstart
    by_cases hmissing : (carried first).length < declaredLength first
    · have hwaits : afterRounds cfg first cfs answers 0 = ([.took first,
          .sent (flowControl cfg) none], .waiting { buf := carried first }) :=
        hstart.trans (congrArg _ (if_pos hmissing))
      rw [← Nat.zero_add n] at h
      obtain ⟨ls'', rfl, htrace⟩ := trace_afterRounds timeout hcfs n hwaits h
      refine .accept rfl ?_
      rw [onFirst_eq hfirst hlen]
      exact .emit htrace
    · have hreturns : afterRounds cfg first cfs answers 0 = ([.took first,
          .sent (flowControl cfg) none], .returned (.ok (carried first))) :=
        hstart.trans (congrArg _ (if_neg hmissing))
      rw [← Nat.zero_add n] at h
      obtain ⟨rfl, hr⟩ := Prod.mk.inj ((afterRounds_returned_add hreturns n).symm.trans h)
      obtain rfl := Progress.returned.inj hr
      refine .accept rfl ?_
      rw [onFirst_eq hfirst hlen]
      refine .emit ?_
      dsimp only
      rw [recvLoop_of_le (Nat.not_lt.mp hmissing)]
      exact .ret _

/-- A round takes only its own frame. -/
theorem taken_round (st : Reassembly) (cf : Frame) :
    taken (st.round cfg length answer cf).1 = [] := by
  have hround := outcome_round cfg length answer st cf
  generalize st.round cfg length answer cf = out at hround
  cases hround <;> rfl

theorem taken_afterRounds
    (hwaits : ∀ k < n, ∃ ls st, afterRounds cfg first cfs answers k = (ls, .waiting st)) :
    taken (afterRounds cfg first cfs answers n).1 = first :: (List.range n).map cfs := by
  induction n with
  | zero =>
    rw [afterRounds]
    split_ifs
    · rfl
    · rfl
  | succ n ih =>
    obtain ⟨ls, st, hn⟩ := hwaits n (Nat.lt_succ_self n)
    have htaken := ih fun k hk => hwaits k (Nat.lt_succ_of_lt hk)
    rw [hn] at htaken
    dsimp only at htaken
    rw [afterRounds_succ hn]
    simp [htaken, taken_round, List.range_succ, Label.taken?]

/-- On every stream of consecutive frames behind a first frame `recv` returns after at most so
many of them as bytes are missing. When the bus takes every flow control, the first one is sent
behind the first frame, if that holds a length, and another one behind each accepted frame
that completes a block and leaves data missing. -/
theorem recv_ends (cfg : Config) (timeout : Nat) (first : Frame)
    (hfirst : isFirstFrame first = true) (cfs : Nat → Frame)
    (hcfs : ∀ i, isConsecutive (cfs i) = true) (answers : Nat → Option ErrorCode) :
    ∃ n ls res, n ≤ declaredLength first - (carried first).length ∧
      afterRounds cfg first cfs answers n = (ls, .returned res) ∧
      taken ls = first :: (List.range n).map cfs ∧ (recv cfg timeout).Trace ls res ∧
      (2 ≤ first.data.length → cfg.blockSize ≠ 0 → (∀ i, answers i = none) →
        ls = .took first :: .sent (flowControl cfg) none ::
          (List.range n).flatMap (roundLog cfg first cfs)) := by
  obtain ⟨n, ls, res, hle, hreturns, hwaits⟩ := exists_returned cfg first cfs answers
  refine ⟨n, ls, res, hle, hreturns, ?_, trace_recv hfirst hcfs hreturns, ?_⟩
  · have htaken := taken_afterRounds hwaits
    rwa [hreturns] at htaken
  · intro hlen hsize hanswers
    obtain rfl : answers = fun _ => none := funext hanswers
    have hlog := log_afterRounds hlen hsize hwaits
    rwa [hreturns] at hlog

/-- Twenty bytes in blocks of one frame: only the first of two consecutive frames leaves data
missing. -/
theorem recv_ends_blocks :
    ∃ n ls res, n ≤ 14 ∧ (recv { blockSize := 1 } 100).Trace ls res ∧
      ls = .took (firstFrame {} (List.replicate 20 9)) ::
        .sent (flowControl { blockSize := 1 }) none ::
          (List.range n).flatMap (roundLog { blockSize := 1 }
            (firstFrame {} (List.replicate 20 9)) (segment {} (List.replicate 20 9))) := by
  obtain ⟨n, ls, res, hle, -, -, htrace, hlog⟩ := recv_ends { blockSize := 1 } 100
    (firstFrame {} (List.replicate 20 9)) (by decide) (segment {} (List.replicate 20 9))
    (fun _ => isConsecutive_consecutiveFrame) (fun _ => none)
  exact ⟨n, ls, res, hle, htrace, hlog (by decide) (by decide) (fun _ => rfl)⟩

end CppCan.IsoTp
