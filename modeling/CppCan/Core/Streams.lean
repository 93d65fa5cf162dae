import CppCan.Core.Duplex

/-!
# What a stream of messages may contain

An automaton describes the streams a sender may emit. A call emits such a stream
if its messages follow the automaton whatever it receives. A call reads such
streams safely if every value it can return is good, wherever in the stream it
starts, unless it drops a barred message. Joined by a link, where any wait may
be given up at any time, the reader returns good values only.
-/

namespace CppCan.Core

open Relation

variable {μ ε ρ σ Q : Type} {δ : Q → μ → Q → Prop}

/-- The automaton can go from the first to the last state along the messages. -/
inductive Stream (δ : Q → μ → Q → Prop) : Q → List μ → Q → Prop where
  | nil (q : Q) : Stream δ q [] q
  | cons {q r t : Q} {m : μ} {ms : List μ} (h : δ q m r) (hs : Stream δ r ms t) :
      Stream δ q (m :: ms) t

/-- A stream grows at its end. -/
theorem Stream.snoc {q r t : Q} {m : μ} {ms : List μ} (h : Stream δ q ms r) (hm : δ r m t) :
    Stream δ q (ms ++ [m]) t := by
  induction h with
  | nil q => exact .cons hm (.nil t)
  | cons h _ ih => exact .cons h (ih hm)

/-- The beginning of a stream is one. -/
theorem Stream.of_prefix {q t : Q} {ms ms' : List μ} (h : Stream δ q ms t) (hpre : ms' <+: ms) :
    ∃ r, Stream δ q ms' r := by
  induction h generalizing ms' with
  | nil q =>
    obtain rfl := List.prefix_nil.mp hpre
    exact ⟨q, .nil q⟩
  | @cons q r t m ms hm hs ih =>
    cases ms' with
    | nil => exact ⟨q, .nil q⟩
    | cons m' ms' =>
      obtain ⟨rfl, hrest⟩ := List.cons_prefix_cons.mp hpre
      obtain ⟨r', hr⟩ := ih hrest
      exact ⟨r', .cons hm hr⟩

namespace Proc

/-- From state `q` the emitted messages follow the automaton; `post` holds on return. -/
def Emits (δ : Q → μ → Q → Prop) (post : Q → ρ → Prop) : Proc μ ε ρ → Q → Prop
  | ret r, q => post q r
  | emit m k, q => ∃ q', δ q m q' ∧ ∀ err, Emits δ post (k err) q'
  | await _ _ k, q => ∀ res, Emits δ post (k res) q
  | pause _ k, q => Emits δ post k q

/-- A call that emits a stream may be continued by one that takes it up. -/
theorem Emits.bind {post : Q → σ → Prop} {c : Proc μ ε ρ} {f : ρ → Proc μ ε σ} {q : Q}
    (h : Emits δ (fun q r => Emits δ post (f r) q) c q) : Emits δ post (c >>= f) q := by
  induction c generalizing q with
  | ret r => exact h
  | emit m k ih =>
    obtain ⟨q', hq, hk⟩ := h
    exact ⟨q', hq, fun err => ih err (hk err)⟩
  | await limit accept k ih => exact fun res => ih res (h res)
  | pause d k ih => exact ih h

/-- From state `q` every value the call can return is good, as long as it drops
no barred message. -/
def Reads (δ : Q → μ → Q → Prop) (barred : μ → Bool) (good : ρ → Prop) : Proc μ ε ρ → Q → Prop
  | ret r, _ => good r
  | emit _ k, q => ∀ err, Reads δ barred good (k err) q
  | await _ accept k, q => ∃ R : Q → Prop, R q ∧ ∀ q, R q →
      (∀ err, Reads δ barred good (k (.error err)) q) ∧
      ∀ m q', δ q m q' → (accept m = true → Reads δ barred good (k (.ok m)) q') ∧
        (accept m = false → barred m = false → R q')
  | pause _ k, q => Reads δ barred good k q

end Proc

namespace Duplex

variable {barred : μ → Bool} {good : σ → Prop} {s t : Duplex μ ε ρ σ} {timeout : ε}

/-- The station's next step drops a barred message. -/
def skips (barred : μ → Bool) (st : Station μ ε ρ) : Bool :=
  match st.calls, st.inbox with
  | .await _ accept _ :: _, m :: _ => !accept m && barred m
  | _, _ => false

/-- Any event, except that the right station drops a barred message. -/
def spares (barred : μ → Bool) (s : Duplex μ ε ρ σ) (e : Event) : Bool :=
  !(e == .advance .right && skips barred s.right)

/-- The left station's calls take up the stream at `q`. -/
def Sends (δ : Q → μ → Q → Prop) (calls : List (Proc μ ε ρ)) (q : Q) : Prop :=
  (∀ c ∈ calls.head?, c.Emits δ (fun _ _ => True) q) ∧
    ∀ c ∈ calls.tail, ∀ q, c.Emits δ (fun _ _ => True) q

/-- The right station's calls read the stream from `q` on. -/
def Receives (δ : Q → μ → Q → Prop) (barred : μ → Bool) (good : σ → Prop)
    (calls : List (Proc μ ε σ)) (q : Q) : Prop :=
  (∀ c ∈ calls.head?, c.Reads δ barred good q) ∧ ∀ c ∈ calls.tail, ∀ q, c.Reads δ barred good q

/-- The messages on their way to the right form a stream that the left station
takes up and the right one reads; what the right one has returned is good. -/
structure Carries (δ : Q → μ → Q → Prop) (barred : μ → Bool) (good : σ → Prop)
    (s : Duplex μ ε ρ σ) (q q' : Q) : Prop where
  stream : Stream δ q s.right.inbox q'
  sends : Sends δ s.left.calls q'
  receives : Receives δ barred good s.right.calls q
  results : ∀ r ∈ s.right.results, good r

/-- A finished call makes way for the next one. -/
theorem Sends.of_cons {c : Proc μ ε ρ} {rest : List (Proc μ ε ρ)} {q : Q}
    (h : Sends δ (c :: rest) q) (q' : Q) : Sends δ rest q' := by
  cases rest with
  | nil => exact ⟨by simp, by simp⟩
  | cons d rest =>
    refine ⟨?_, fun d' hd' => h.2 d' (by simp_all)⟩
    simpa using h.2 d (by simp) q'

/-- A finished call makes way for the next one. -/
theorem Receives.of_cons {c : Proc μ ε σ} {rest : List (Proc μ ε σ)} {q : Q}
    (h : Receives δ barred good (c :: rest) q) (q' : Q) : Receives δ barred good rest q' := by
  cases rest with
  | nil => exact ⟨by simp, by simp⟩
  | cons d rest =>
    refine ⟨?_, fun d' hd' => h.2 d' (by simp_all)⟩
    simpa using h.2 d (by simp) q'

/-- Replace the current call by its continuation. -/
theorem Sends.head {c d : Proc μ ε ρ} {rest : List (Proc μ ε ρ)} {q q' : Q}
    (h : Sends δ (c :: rest) q)
    (hd : c.Emits δ (fun _ _ => True) q → d.Emits δ (fun _ _ => True) q') :
    Sends δ (d :: rest) q' :=
  ⟨by simpa using hd (h.1 c rfl), h.2⟩

/-- Replace the current call by its continuation. -/
theorem Receives.head {c d : Proc μ ε σ} {rest : List (Proc μ ε σ)} {q q' : Q}
    (h : Receives δ barred good (c :: rest) q)
    (hd : c.Reads δ barred good q → d.Reads δ barred good q') :
    Receives δ barred good (d :: rest) q' :=
  ⟨by simpa using hd (h.1 c rfl), h.2⟩

/-- What the left station emits continues the stream. -/
theorem Carries.advance_left {q q' : Q} (h : Carries δ barred good s q q')
    {st : Station μ ε ρ} {out : Option μ} (hst : s.left.Advance st out) :
    ∃ q', Carries δ barred good ⟨st, out.elim s.right s.right.deliver⟩ q q' := by
  have hs := h.sends
  cases hst with
  | ret hc =>
    rw [hc] at hs
    exact ⟨q', h.stream, hs.of_cons q', h.receives, h.results⟩
  | @emit m k rest hc =>
    rw [hc] at hs
    obtain ⟨q'', hm, hk⟩ := hs.1 _ rfl
    exact ⟨q'', h.stream.snoc hm, hs.head fun _ => hk none, h.receives, h.results⟩
  | @accept limit accept k rest m ms hc hin hm =>
    rw [hc] at hs
    exact ⟨q', h.stream, hs.head fun hk => hk (.ok m), h.receives, h.results⟩
  | discard hc hin hm => exact ⟨q', h.stream, hs, h.receives, h.results⟩
  | pause hc =>
    rw [hc] at hs
    exact ⟨q', h.stream, hs.head id, h.receives, h.results⟩

/-- What the right station takes is the head of the stream. -/
theorem Carries.advance_right {q q' : Q} (h : Carries δ barred good s q q')
    {st : Station μ ε σ} {out : Option μ} (hst : s.right.Advance st out)
    (hskip : skips barred s.right = false) :
    ∃ q, Carries δ barred good ⟨out.elim s.left s.left.deliver, st⟩ q q' := by
  have hsends : Sends δ (out.elim s.left s.left.deliver).calls q' := by
    cases out <;> exact h.sends
  have hr := h.receives
  have hstream := h.stream
  cases hst with
  | @ret r rest hc =>
    rw [hc] at hr
    refine ⟨q, hstream, hsends, hr.of_cons q, fun r' hr' => ?_⟩
    rcases List.mem_append.mp hr' with hr' | hr'
    · exact h.results r' hr'
    · obtain rfl := List.mem_singleton.mp hr'
      exact hr.1 _ rfl
  | emit hc =>
    rw [hc] at hr
    exact ⟨q, hstream, hsends, hr.head fun hk => hk none, h.results⟩
  | @accept limit accept k rest m ms hc hin hm =>
    rw [hc] at hr
    rw [hin] at hstream
    cases hstream with
    | @cons _ r _ _ _ hδ hms =>
      refine ⟨r, hms, hsends, hr.head fun ⟨R, hR, hk⟩ => ?_, h.results⟩
      exact ((hk q hR).2 m r hδ).1 hm
  | @discard limit accept k rest m ms hc hin hm =>
    have hbar : barred m = false := by simpa [skips, hc, hin, hm] using hskip
    rw [hin] at hstream
    cases hstream with
    | @cons _ r _ _ _ hδ hms =>
      refine ⟨r, hms, hsends, ?_, h.results⟩
      simp only [hc] at hr ⊢
      exact hr.head fun ⟨R, hR, hk⟩ => ⟨R, ((hk q hR).2 m r hδ).2 hm hbar, hk⟩
  | pause hc =>
    rw [hc] at hr
    exact ⟨q, hstream, hsends, hr.head id, h.results⟩

/-- A wait that is given up changes neither the stream nor the results. -/
theorem Carries.expire {q q' : Q} (h : Carries δ barred good s q q') {x : Side}
    (hx : s.expire timeout x = some t) : Carries δ barred good t q q' := by
  cases x with
  | left =>
    obtain ⟨st, hst, rfl⟩ := Option.map_eq_some_iff.mp hx
    obtain ⟨limit, accept, k, rest, hc, rfl⟩ := Station.expire_eq_some.mp hst
    have hs := h.sends
    rw [hc] at hs
    exact ⟨h.stream, hs.head fun hk => hk (.error timeout), h.receives, h.results⟩
  | right =>
    obtain ⟨st, hst, rfl⟩ := Option.map_eq_some_iff.mp hx
    obtain ⟨limit, accept, k, rest, hc, rfl⟩ := Station.expire_eq_some.mp hst
    have hr := h.receives
    rw [hc] at hr
    exact ⟨h.stream, h.sends, hr.head fun ⟨R, hR, hk⟩ => (hk q hR).1 timeout, h.results⟩

/-- Every event that spares the barred messages keeps the invariant. -/
theorem Carries.sparing {q q' : Q} (h : Carries δ barred good s q q')
    (hst : Steps timeout (spares barred) s t) : ∃ q q', Carries δ barred good t q q' := by
  obtain ⟨e, he, hskip⟩ := hst
  cases e with
  | advance x =>
    cases x with
    | left =>
      obtain ⟨⟨st, out⟩, hadv, rfl⟩ := Option.map_eq_some_iff.mp he
      exact ⟨q, h.advance_left (Station.advance_eq_some.mp hadv)⟩
    | right =>
      obtain ⟨⟨st, out⟩, hadv, rfl⟩ := Option.map_eq_some_iff.mp he
      obtain ⟨r, hr⟩ := h.advance_right (Station.advance_eq_some.mp hadv)
        (by simpa [spares] using hskip)
      exact ⟨r, q', hr⟩
  | expire x => exact ⟨q, q', h.expire he⟩

/-- In a run that spares the barred messages every result of the right station is good. -/
theorem results_good (q : Q) {left : List (Proc μ ε ρ)} {right : List (Proc μ ε σ)}
    (hl : ∀ c ∈ left, ∀ q, c.Emits δ (fun _ _ => True) q)
    (hr : ∀ c ∈ right, ∀ q, c.Reads δ barred good q)
    (h : ReflTransGen (Steps timeout (spares barred)) ⟨{ calls := left }, { calls := right }⟩ t) :
    ∀ r ∈ t.right.results, good r := by
  have hinv : ∃ q q', Carries δ barred good t q q' := by
    induction h with
    | refl =>
      refine ⟨q, q, .nil q, ⟨fun c hc => ?_, fun c hc => ?_⟩, ⟨fun c hc => ?_, fun c hc => ?_⟩,
        by simp⟩
      · exact hl c (List.mem_of_mem_head? hc) q
      · exact hl c (List.mem_of_mem_tail hc)
      · exact hr c (List.mem_of_mem_head? hc) q
      · exact hr c (List.mem_of_mem_tail hc)
    | tail _ hst ih =>
      obtain ⟨q, q', hc⟩ := ih
      exact hc.sparing hst
  obtain ⟨q, q', hc⟩ := hinv
  exact hc.results

end Duplex

end CppCan.Core
