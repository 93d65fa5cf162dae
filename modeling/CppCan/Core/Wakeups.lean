import CppCan.Core.Monitor
import Mathlib.Data.ENat.Basic

/-!
# Wake-ups are not lost

A condition counts the calls it could let go on. If a call that waits for it takes one of them,
and whatever adds some signals as many sleepers or all of them, then while somebody sleeps on the
condition there are at least as many threads awake for it as it could let go on. So nobody sleeps
for want of a signal, and without new calls every schedule comes to an end at which the sleepers
have something to wait for.
-/

namespace CppCan.Core.Monitor

open Relation

variable {σ κ ω ρ : Type} [DecidableEq κ] {m : Monitor σ κ ω ρ} {units : κ → σ → ℕ∞}
  {w w' : World σ ω ρ} {e : Event ω} {es : List (Event ω)} {c d : κ} {i : Nat}
  {threads threads' : List (Pc ω)} {signals : List (Signal κ)} {picks : List Nat}

/-- Calls are let go on only while there are units of their condition, each takes one, and units
that are added are signalled. -/
structure Signalled (m : Monitor σ κ ω ρ) (units : κ → σ → ℕ∞) : Prop where
  ready : ∀ c s, m.ready c s = false → units c s = 0
  takes : ∀ op c s, m.waitsOn op = some c → m.ready c s = true →
    units c (m.body op s).1.1 + 1 ≤ units c s
  gives : ∀ op c s, m.waitsOn op ≠ some c → m.enabled op s = true →
    .all c ∈ (m.body op s).2 ∨
      units c (m.body op s).1.1 ≤ units c s + (m.body op s).2.count (.one c)

/-- Somebody sleeps on the condition. -/
def Sleeping (m : Monitor σ κ ω ρ) (c : κ) (threads : List (Pc ω)) : Prop :=
  ∃ pc ∈ threads, m.sleepsOn c pc = true

/-- How many threads want the lock for a method that waits for the condition. -/
def awakeFor (m : Monitor σ κ ω ρ) (c : κ) (threads : List (Pc ω)) : Nat :=
  threads.countP (m.awakeOn c)

/-- While somebody sleeps, as many threads are awake as could go on. -/
def Covered (m : Monitor σ κ ω ρ) (units : κ → σ → ℕ∞) (w : World σ ω ρ) : Prop :=
  ∀ c, Sleeping m c w.threads → units c w.shared ≤ awakeFor m c w.threads

theorem countP_set_add {α : Type} (p : α → Bool) {l : List α} {i : Nat} {x : α} (a : α)
    (h : l[i]? = some x) :
    (l.set i a).countP p + (p x).toNat = l.countP p + (p a).toNat := by
  induction l generalizing i with
  | nil => cases h
  | cons y l ih =>
    cases i with
    | zero =>
      obtain rfl := Option.some.inj h
      rw [List.set_cons_zero, List.countP_cons, List.countP_cons]
      cases p y <;> cases p a <;> simp
    | succ i =>
      have hrest := ih (i := i) h
      rw [List.set_cons_succ, List.countP_cons, List.countP_cons]
      omega

theorem sleepsOn_iff {pc : Pc ω} : m.sleepsOn c pc = true ↔
    ∃ op, pc = .asleep op ∧ m.waitsOn op = some c := by
  cases pc <;> simp [sleepsOn]

/-- A thread is awake for the condition after it was woken from it. -/
theorem awakeOn_woken {pc : Pc ω} (h : m.sleepsOn d pc = true) :
    m.awakeOn c pc = false ∧ m.awakeOn c pc.woken = (d == c) ∧ m.sleepsOn c pc.woken = false := by
  obtain ⟨op, rfl, hwait⟩ := sleepsOn_iff.mp h
  refine ⟨rfl, ?_, rfl⟩
  rw [Pc.woken, awakeOn, hwait]
  rfl

theorem Sleeping.of_set {pc : Pc ω} (h : Sleeping m c (threads.set i pc)) :
    Sleeping m c threads ∨ m.sleepsOn c pc = true := by
  obtain ⟨pc', hmem, hsleeps⟩ := h
  rcases List.mem_or_eq_of_mem_set hmem with hmem | rfl
  · exact .inl ⟨pc', hmem, hsleeps⟩
  · exact .inr hsleeps

/-- Signals put nobody to sleep. -/
theorem Sleeping.of_signal (h : m.signal threads signals picks = some threads')
    (hs : Sleeping m c threads') : Sleeping m c threads := by
  obtain ⟨pc', hmem, hsleeps⟩ := hs
  obtain ⟨j, hj⟩ := List.mem_iff_getElem?.mp hmem
  rcases (roused_of_signal h).getElem? j with heq | heq
  · exact ⟨pc', List.mem_of_getElem? (heq ▸ hj), hsleeps⟩
  · obtain ⟨pc, -, rfl⟩ := Option.map_eq_some_iff.mp (heq ▸ hj)
    obtain ⟨op, hop, -⟩ := sleepsOn_iff.mp hsleeps
    cases pc <;> cases hop

theorem not_sleeping_wakeAll : ¬ Sleeping m c (m.wakeAll c threads) := by
  rintro ⟨pc', hmem, hsleeps⟩
  obtain ⟨pc, -, rfl⟩ := List.mem_map.mp hmem
  split at hsleeps
  · rename_i hpc
    rw [(awakeOn_woken (c := c) hpc).2.2] at hsleeps
    cases hsleeps
  · rename_i hpc
    exact hpc hsleeps

/-- Threads that wake from another condition are not awake for this one. -/
theorem awakeFor_wakeAll (hne : d ≠ c) :
    awakeFor m c (m.wakeAll d threads) = awakeFor m c threads := by
  rw [awakeFor, wakeAll, List.countP_map]
  refine List.countP_congr fun pc _ => ?_
  dsimp only [Function.comp_apply]
  split_ifs with hpc
  · obtain ⟨hbefore, hafter, -⟩ := awakeOn_woken (c := c) hpc
    rw [hbefore, hafter, beq_false_of_ne hne]
  · rfl

/-- While somebody still sleeps after the signals, each signal for the condition has woken one
sleeper. -/
theorem awakeFor_signal (h : m.signal threads signals picks = some threads')
    (hs : Sleeping m c threads') :
    .all c ∉ signals ∧
      awakeFor m c threads' = awakeFor m c threads + signals.count (.one c) := by
  induction signals generalizing threads picks with
  | nil =>
    obtain rfl := Option.some.inj h
    exact ⟨List.not_mem_nil, rfl⟩
  | cons sig signals ih =>
    cases sig with
    | all d =>
      have hne : d ≠ c := by
        rintro rfl
        exact not_sleeping_wakeAll (hs.of_signal h)
      obtain ⟨hall, hcount⟩ := ih h
      refine ⟨by simpa [hne.symm] using hall, ?_⟩
      rw [hcount, awakeFor_wakeAll hne, List.count_cons_of_ne (by simp)]
    | one d =>
      simp only [signal] at h
      split at h
      · split at h
        · cases h
        · split at h
          · cases h
          · rename_i j picks _ pc hj
            split at h
            · rename_i hpc
              obtain ⟨hall, hcount⟩ := ih h
              obtain ⟨hbefore, hafter, -⟩ := awakeOn_woken (c := c) hpc
              have hset := countP_set_add (m.awakeOn c) pc.woken hj
              rw [hbefore, hafter] at hset
              have hwoken : awakeFor m c (threads.set j pc.woken) =
                  awakeFor m c threads + (d == c).toNat := hset
              refine ⟨by simpa using hall, ?_⟩
              rw [hcount, hwoken, List.count_cons]
              by_cases hdc : d = c
              · subst hdc
                simp
                omega
              · simp [hdc]
            · cases h
      · rename_i hnone
        have hne : d ≠ c := by
          rintro rfl
          obtain ⟨pc, hmem, hpc⟩ := hs.of_signal h
          exact hnone (List.any_eq_true.mpr ⟨pc, hmem, hpc⟩)
        obtain ⟨hall, hcount⟩ := ih h
        refine ⟨by simpa using hall, ?_⟩
        rw [hcount, List.count_cons_of_ne (by simpa using hne)]

/-- What the threads count as after one of them has changed. -/
theorem awakeFor_set {pc : Pc ω} (pc' : Pc ω) (hi : threads[i]? = some pc) :
    awakeFor m c (threads.set i pc') + (m.awakeOn c pc).toNat =
      awakeFor m c threads + (m.awakeOn c pc').toNat :=
  countP_set_add (m.awakeOn c) pc' hi

/-- A thread that changes but does not stop being awake uncovers nothing. -/
theorem Covered.set {pc pc' : Pc ω} (h : Covered m units w) (hi : w.threads[i]? = some pc)
    (hsleep : ∀ c, m.sleepsOn c pc' = true → units c w.shared = 0)
    (hawake : ∀ c, m.awakeOn c pc = true → m.awakeOn c pc' = true ∨ units c w.shared = 0)
    (log : List (Entry ω ρ)) :
    Covered m units { w with threads := w.threads.set i pc', log } := by
  intro c hs
  by_cases hzero : units c w.shared = 0
  · exact hzero.trans_le zero_le
  rcases Sleeping.of_set hs with hs | hs
  · refine (h c hs).trans (Nat.cast_le.mpr ?_)
    have hset := awakeFor_set (c := c) (m := m) pc' hi
    have hle : (m.awakeOn c pc).toNat ≤ (m.awakeOn c pc').toNat := by
      cases hpc : m.awakeOn c pc with
      | false => exact Nat.zero_le _
      | true => rw [(hawake c hpc).resolve_right hzero]
    dsimp only
    omega
  · exact absurd (hsleep c hs) hzero

/-- The condition of a method that has to wait has no units. -/
theorem Signalled.units_eq_zero (hm : Signalled m units) {op : ω} {s : σ}
    (hwait : m.enabled op s = false) (hc : m.waitsOn op = some c) : units c s = 0 := by
  refine hm.ready c s ?_
  rwa [enabled, hc] at hwait

theorem Covered.carry (hm : Signalled m units) {op : ω} {pc : Pc ω} {s : σ} {reply : ρ}
    (h : Covered m units w) (hi : w.threads[i]? = some pc)
    (hpc : pc = .enters op ∨ pc = .expired op) (hready : m.enabled op w.shared = true)
    (hbody : m.body op w.shared = ((s, reply), signals))
    (hsignal : m.signal (w.threads.set i .idle) signals picks = some threads)
    (log : List (Entry ω ρ)) : Covered m units { shared := s, threads, log } := by
  intro c hs
  dsimp only at hs ⊢
  obtain ⟨hall, hcount⟩ := awakeFor_signal hsignal hs
  have hbefore : Sleeping m c w.threads :=
    (Sleeping.of_set (hs.of_signal hsignal)).resolve_right (by simp [sleepsOn])
  have hset := awakeFor_set (c := c) (m := m) .idle hi
  have hawake : m.awakeOn c pc = (m.waitsOn op == some c) := by
    rcases hpc with rfl | rfl <;> rfl
  rw [hawake, show m.awakeOn c (.idle : Pc ω) = false from rfl, Bool.toNat_false,
    Nat.add_zero] at hset
  by_cases hc : m.waitsOn op = some c
  · -- the unit that the call takes is the one it was awake for
    have htakes := hm.takes op c w.shared hc (by rwa [enabled, hc] at hready)
    rw [hbody] at htakes
    rw [hc, beq_self_eq_true, Bool.toNat_true] at hset
    have hle := htakes.trans (h c hbefore)
    rw [← hset, Nat.cast_add, Nat.cast_one] at hle
    refine ((ENat.add_le_add_iff_right ENat.one_ne_top).mp hle).trans (Nat.cast_le.mpr ?_)
    rw [hcount]
    exact Nat.le_add_right _ _
  · have hgives := hm.gives op c w.shared hc hready
    rw [hbody] at hgives
    rw [beq_false_of_ne hc, Bool.toNat_false, Nat.add_zero] at hset
    refine (hgives.resolve_left hall).trans ?_
    rw [hcount, hset, Nat.cast_add]
    exact add_le_add_left (h c hbefore) _

/-- Every step keeps the sleepers covered. -/
theorem Covered.step (hm : Signalled m units) (h : Covered m units w)
    (hstep : m.step w e = some w') : Covered m units w' := by
  cases moved_of_step hstep with
  | call hi => exact h.set hi (by simp [sleepsOn]) (by simp [awakeOn]) _
  | sleep hi hwait =>
    refine h.set hi (fun c hc => ?_) (fun c hc => .inr ?_) _
    · exact hm.units_eq_zero hwait (by simpa [sleepsOn] using hc)
    · exact hm.units_eq_zero hwait (by simpa [awakeOn] using hc)
  | carry hi hpc hready hbody hsignal => exact h.carry hm hi hpc hready hbody hsignal _
  | giveUp hi hwait =>
    refine h.set hi (by simp [sleepsOn]) (fun c hc => .inr ?_) _
    exact hm.units_eq_zero hwait (by simpa [awakeOn] using hc)
  | rouse hi => exact h.set hi (by simp [sleepsOn]) (by simp [awakeOn]) _
  | expire hi => exact h.set hi (by simp [sleepsOn]) (by simp [awakeOn]) _

/-- In every reachable state there are, for each condition somebody sleeps on, at least as many
threads awake as it could let go on. -/
theorem covered_of_run (hm : Signalled m units) {s : σ} {n : Nat}
    (hrun : Runs.run m.step (start s n) es = some w) : Covered m units w := by
  refine Runs.invariant (Covered m units) (fun _ _ _ h hstep => h.step hm hstep) ?_ hrun
  rintro c ⟨pc, hmem, hpc⟩
  obtain rfl := List.eq_of_mem_replicate hmem
  cases hpc

/-- Nobody wants the lock. -/
def Quiet (w : World σ ω ρ) : Prop := ∀ pc ∈ w.threads, pc.awake = false

/-- A sleeper that nobody is awake for has to wait. -/
theorem Covered.units_eq_zero (h : Covered m units w) (hquiet : Quiet w)
    (hs : Sleeping m c w.threads) : units c w.shared = 0 := by
  have hnone : awakeFor m c w.threads = 0 := by
    refine List.countP_eq_zero.mpr fun pc hmem hpc => ?_
    have hawake := hquiet pc hmem
    cases pc with
    | enters op => cases hawake
    | expired op => cases hawake
    | _ => cases hpc
  simpa [hnone] using h c hs

/-- Some thread takes the lock. -/
def Enters (m : Monitor σ κ ω ρ) (w w' : World σ ω ρ) : Prop :=
  ∃ i picks, m.step w (.enter i picks) = some w'

/-- How many calls are open, and then how many of their threads are awake. -/
def World.rank (w : World σ ω ρ) : Nat :=
  w.threads.countP (·.op.isSome) * (w.threads.length + 1) + w.threads.countP Pc.awake

/-- Only a method with a timed wait can run out of time. -/
def Timed (m : Monitor σ κ ω ρ) (w : World σ ω ρ) : Prop :=
  ∀ op, .expired op ∈ w.threads → (m.giveUp op).isSome = true

theorem Roused.map_op (h : Roused threads threads') : threads'.map Pc.op = threads.map Pc.op := by
  induction h with
  | nil => rfl
  | @cons pc pc' _ _ hpc _ ih =>
    have hop : pc'.op = pc.op := by
      rcases hpc with rfl | rfl
      · rfl
      · cases pc <;> rfl
    rw [List.map_cons, List.map_cons, hop, ih]

/-- A thread that is not awake after signals to be out of time was so before. -/
theorem Roused.mem_expired (h : Roused threads threads') {op : ω} (hmem : .expired op ∈ threads') :
    .expired op ∈ threads := by
  induction h with
  | nil => exact hmem
  | @cons pc pc' _ _ hpc _ ih =>
    rcases List.mem_cons.mp hmem with rfl | hmem
    · rcases hpc with rfl | hpc
      · exact List.mem_cons_self
      · cases pc <;> cases hpc
        exact List.mem_cons_self
    · exact List.mem_cons_of_mem _ (ih hmem)

theorem Timed.step (h : Timed m w) (hstep : m.step w e = some w') : Timed m w' := by
  intro op hmem
  cases moved_of_step hstep with
  | call => exact h op ((List.mem_or_eq_of_mem_set hmem).resolve_right nofun)
  | sleep => exact h op ((List.mem_or_eq_of_mem_set hmem).resolve_right nofun)
  | carry _ _ _ _ hsignal =>
    have hbefore := (roused_of_signal hsignal).mem_expired hmem
    exact h op ((List.mem_or_eq_of_mem_set hbefore).resolve_right nofun)
  | giveUp => exact h op ((List.mem_or_eq_of_mem_set hmem).resolve_right nofun)
  | rouse => exact h op ((List.mem_or_eq_of_mem_set hmem).resolve_right nofun)
  | expire _ htimed =>
    rcases List.mem_or_eq_of_mem_set hmem with hmem | heq
    · exact h op hmem
    · obtain rfl := Pc.expired.inj heq
      exact htimed

/-- There is always somebody whom the signals can wake. -/
theorem exists_signal (m : Monitor σ κ ω ρ) (threads : List (Pc ω)) (signals : List (Signal κ)) :
    ∃ picks threads', m.signal threads signals picks = some threads' := by
  induction signals generalizing threads with
  | nil => exact ⟨[], threads, rfl⟩
  | cons sig signals ih =>
    cases sig with
    | all d =>
      obtain ⟨picks, threads', h⟩ := ih (m.wakeAll d threads)
      exact ⟨picks, threads', h⟩
    | one d =>
      by_cases hany : threads.any (m.sleepsOn d) = true
      · obtain ⟨pc, hmem, hpc⟩ := List.any_eq_true.mp hany
        obtain ⟨j, hj⟩ := List.mem_iff_getElem?.mp hmem
        obtain ⟨picks, threads', h⟩ := ih (threads.set j pc.woken)
        refine ⟨j :: picks, threads', ?_⟩
        simp only [signal, hany, hj, hpc, if_true]
        exact h
      · obtain ⟨picks, threads', h⟩ := ih threads
        refine ⟨picks, threads', ?_⟩
        simp only [signal, hany, Bool.false_eq_true, if_false]
        exact h

/-- A thread that wants the lock can take it. -/
theorem exists_enters (ht : Timed m w) (hbusy : ¬ Quiet w) : ∃ w', Enters m w w' := by
  simp only [Quiet, not_forall, Bool.not_eq_false] at hbusy
  obtain ⟨pc, hmem, hawake⟩ := hbusy
  obtain ⟨i, hi⟩ := List.mem_iff_getElem?.mp hmem
  have hperform : ∀ op, ∃ picks w', m.perform w i op picks = some w' := fun op => by
    obtain ⟨picks, threads', h⟩ :=
      exists_signal m (w.threads.set i .idle) (m.body op w.shared).2
    exact ⟨picks, _, Option.map_eq_some_iff.mpr ⟨_, h, rfl⟩⟩
  cases pc with
  | enters op =>
    by_cases hready : m.enabled op w.shared = true
    · obtain ⟨picks, w', h⟩ := hperform op
      refine ⟨w', i, picks, ?_⟩
      simp only [step, hi, hready, if_true, h]
    · refine ⟨{ w with threads := w.threads.set i (.asleep op) }, i, [], ?_⟩
      simp only [step, hi, hready, Bool.false_eq_true, if_false]
  | expired op =>
    by_cases hready : m.enabled op w.shared = true
    · obtain ⟨picks, w', h⟩ := hperform op
      refine ⟨w', i, picks, ?_⟩
      simp only [step, hi, hready, if_true, h]
    · obtain ⟨reply, hreply⟩ := Option.isSome_iff_exists.mp (ht op hmem)
      refine ⟨{ w with
        threads := w.threads.set i .idle, log := w.log ++ [⟨i, op, true, reply⟩] }, i, [], ?_⟩
      simp only [step, hi, hready, hreply, Bool.false_eq_true, if_false, Option.map_some]
  | _ => cases hawake

/-- A call that returns leaves fewer calls open. -/
theorem rank_lt_of_return {pc : Pc ω} (hi : w.threads[i]? = some pc) (hop : pc.op.isSome = true)
    (hthreads : Roused (w.threads.set i .idle) threads) (s : σ) (log : List (Entry ω ρ)) :
    World.rank { shared := s, threads, log } < w.rank := by
  have hopen := countP_set_add (·.op.isSome) (.idle : Pc ω) hi
  rw [hop] at hopen
  have hops : threads.countP (·.op.isSome) = (w.threads.set i .idle).countP (·.op.isSome) := by
    have hmap := congrArg (List.countP Option.isSome) hthreads.map_op
    rwa [List.countP_map, List.countP_map] at hmap
  have hlength : threads.length = w.threads.length := by
    rw [← hthreads.length_eq, List.length_set]
  have hawake : threads.countP Pc.awake ≤ w.threads.length := hlength ▸ List.countP_le_length
  simp only [World.rank, hops, hlength]
  have hfewer : (w.threads.set i .idle).countP (·.op.isSome) + 1 =
      w.threads.countP (·.op.isSome) := hopen
  rw [← hfewer, Nat.add_mul]
  omega

/-- A thread that takes the lock returns or goes to sleep. -/
theorem rank_lt (h : Enters m w w') : w'.rank < w.rank := by
  obtain ⟨i, picks, hstep⟩ := h
  cases moved_of_step hstep with
  | @sleep _ op _ hi =>
    have hopen : (w.threads.set i (.asleep op)).countP (·.op.isSome) =
        w.threads.countP (·.op.isSome) :=
      Nat.add_right_cancel (countP_set_add (·.op.isSome) (.asleep op) hi)
    have hawake : (w.threads.set i (.asleep op)).countP Pc.awake + 1 = w.threads.countP Pc.awake :=
      countP_set_add Pc.awake (.asleep op) hi
    simp only [World.rank, List.length_set]
    rw [hopen]
    omega
  | carry hi hpc _ _ hsignal =>
    refine rank_lt_of_return hi ?_ (roused_of_signal hsignal) _ _
    rcases hpc with rfl | rfl <;> rfl
  | giveUp hi => exact rank_lt_of_return hi rfl (.refl _) _ _

/-- Nobody wants the lock, and nobody sleeps on a condition that could let a call go on. -/
def Settled (m : Monitor σ κ ω ρ) (units : κ → σ → ℕ∞) (w : World σ ω ρ) : Prop :=
  Quiet w ∧ ∀ c, Sleeping m c w.threads → units c w.shared = 0

/-- Without new calls every schedule of the threads comes to an end, and then nobody sleeps for
want of a signal. -/
theorem inevitably_settled (hm : Signalled m units) {s : σ} {n : Nat}
    (hrun : Runs.run m.step (start s n) es = some w) :
    Inevitably (Enters m) (Settled m units) w := by
  have htimed : Timed m w := by
    refine Runs.invariant (Timed m) (fun _ _ _ h hstep => h.step hstep) (fun op hmem => ?_) hrun
    cases List.eq_of_mem_replicate hmem
  refine Inevitably.of_rank (fun n w => w.rank = n ∧ Timed m w ∧ Covered m units w) ?_
    ⟨rfl, htimed, covered_of_run hm hrun⟩
  rintro _ w ⟨rfl, ht, hcovered⟩
  by_cases hquiet : Quiet w
  · exact .inl ⟨hquiet, fun c hs => hcovered.units_eq_zero hquiet hs⟩
  · refine .inr ⟨exists_enters ht hquiet, fun w' h => ⟨w'.rank, rank_lt h, rfl, ?_⟩⟩
    obtain ⟨i, picks, hstep⟩ := h
    exact ⟨ht.step hstep, hcovered.step hm hstep⟩

end CppCan.Core.Monitor
