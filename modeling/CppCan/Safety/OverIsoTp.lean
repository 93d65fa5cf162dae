import CppCan.IsoTp.Dialogue
import CppCan.Safety.Delivery
import Mathlib.Logic.Function.Basic

/-!
# Protected payloads over a transport connection

Each side protects what it sends with its own counter and gives the protected payload to
its connection. The header is long enough that no protected payload fits a single frame,
and the connection returns the payloads in order, so the receiver of either side is always
in step with the protector of the other one.
-/

namespace CppCan.Safety

open CppCan.Core
open CppCan.IsoTp (Answer Message dialogue receiverOf segmentsLeft kMaxPayload LastBlockFull)

/-- The messages with the headers that the protectors of their senders put in front. -/
def protectMessages (p : Side → Protector) : List Message → List Message
  | [] => []
  | (x, payload) :: rest =>
    (x, ((p x).protect payload).1) ::
      protectMessages (Function.update p x ((p x).protect payload).2) rest

/-- The payloads that one side sends. -/
def sentBy (x : Side) (messages : List Message) : List (List UInt8) :=
  messages.filterMap fun m => if m.1 = x then some m.2 else none

/-- The payloads that the calls of one side returned. -/
def payloadsOf (answers : List Answer) : List (List UInt8) :=
  answers.filterMap fun
    | .received (.ok payload) => some payload
    | _ => none

/-- The other end of the link. -/
def otherSide : Side → Side
  | .left => .right
  | .right => .left

theorem ne_iff_eq_otherSide {x y : Side} : x ≠ y ↔ x = otherSide y := by
  cases x <;> cases y <;> simp [otherSide]

/-- Each side's payloads are protected as if the other side did not exist. -/
theorem sentBy_protectMessages (p : Side → Protector) (x : Side) (messages : List Message) :
    sentBy x (protectMessages p messages) = (p x).protectAll (sentBy x messages) := by
  induction messages generalizing p with
  | nil => rfl
  | cons m rest ih =>
    obtain ⟨y, payload⟩ := m
    have hrest := ih (Function.update p y ((p y).protect payload).2)
    by_cases h : y = x
    · subst h
      rw [Function.update_self] at hrest
      simp only [sentBy, protectMessages, List.filterMap_cons, if_true] at hrest ⊢
      rw [hrest, Protector.protectAll]
    · rw [Function.update_of_ne (Ne.symm h)] at hrest
      simpa only [sentBy, protectMessages, List.filterMap_cons, if_neg h] using hrest

/-- The calls of one side return what the other side sends. -/
theorem payloadsOf_answers (here : Side) (messages : List Message) :
    payloadsOf (messages.map (IsoTp.answer here)) = sentBy (otherSide here) messages := by
  simp only [payloadsOf, sentBy, List.filterMap_map]
  refine List.filterMap_congr fun m _ => ?_
  by_cases h : m.1 = here
  · have hne : m.1 ≠ otherSide here := fun he => (ne_iff_eq_otherSide.mpr he) h
    simp only [IsoTp.answer, if_pos h, if_neg hne, Function.comp_apply]
  · have heq : m.1 = otherSide here := ne_iff_eq_otherSide.mp h
    simp only [IsoTp.answer, if_neg h, if_pos heq, Function.comp_apply]

/-- A protected payload is ten bytes longer, and its sender is the same. -/
theorem exists_of_mem_protectMessages {p : Side → Protector} {messages : List Message}
    {m : Message} (h : m ∈ protectMessages p messages) :
    ∃ m' ∈ messages, m'.1 = m.1 ∧ m.2.length = m'.2.length + kHeaderSize := by
  induction messages generalizing p with
  | nil => simp [protectMessages] at h
  | cons first rest ih =>
    rcases List.mem_cons.mp h with rfl | hrest
    · refine ⟨first, List.mem_cons_self, rfl, ?_⟩
      simp [Protector.protect, Nat.add_comm]
    · obtain ⟨m', hm', heq⟩ := ih hrest
      exact ⟨m', List.mem_cons_of_mem _ hm', heq⟩

/-- New protectors for the two sides. -/
def protectors (cfg : Side → Config) (x : Side) : Protector := { cfg := cfg x }

/-- No call of one side failed, and its receiver accepts all that the other side sent. -/
structure ReceivedAll (cfg : Side → Config) (messages : List Message) (here : Side)
    (answers : List Answer) : Prop where
  sent : ∀ err, Answer.sent (some err) ∉ answers
  received : ∀ err, Answer.received (.error err) ∉ answers
  accepted : ({ cfg := cfg (otherSide here) } : Receiver).unwrapAll (payloadsOf answers) =
    (sentBy (otherSide here) messages).map .ok

/-- What a dialogue of protected messages ends in. -/
theorem receivedAll_answers (cfg : Side → Config) (messages : List Message) (here : Side) :
    ReceivedAll cfg messages here
      ((protectMessages (protectors cfg) messages).map (IsoTp.answer here)) where
  sent err := by
    simp only [List.mem_map, not_exists, not_and, IsoTp.answer]
    intro m _
    split_ifs <;> simp
  received err := by
    simp only [List.mem_map, not_exists, not_and, IsoTp.answer]
    intro m _
    split_ifs <;> simp
  accepted := by
    rw [payloadsOf_answers, sentBy_protectMessages]
    exact unwrapAll_protectAll rfl rfl _

/-- A request and its answer, both protected, in blocks of four frames. -/
def requestAndAnswer : List Message := [(.left, [0x22, 0xF1]), (.right, List.replicate 20 7)]

end CppCan.Safety
