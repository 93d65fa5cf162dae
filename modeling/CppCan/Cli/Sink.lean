import CppCan.Can.Message
import CppCan.Cli.Json
import CppCan.Core.Input
import CppCan.Core.Throws
import CppCan.Relay.Types

/-!
# Publishing a stream of messages

`send_json_stream` reads messages line by line and sends their frames to a bus until a line
fails. The frames before that line are published, and no exception leaves the loop: the only
ones that conversion and validation throw are those it catches.
-/

namespace CppCan

open CppCan.Core CppCan.Relay

/-- The text of the exception. -/
def ErrInvalidFrame.what (e : ErrInvalidFrame) : String := "can: invalid frame: " ++ e.reason

namespace Cli

/-- The exceptions of the pipeline. Each is a `std::exception`. -/
inductive Exception where
  | runtimeError (what : String)
  | invalidFrame (e : ErrInvalidFrame)
  deriving DecidableEq, Repr

def Exception.what : Exception → String
  | .runtimeError what => what
  | .invalidFrame e => e.what

/-- A bus as the sender sees it: each `send` moves it on and returns an error code or none. -/
structure IBus (σ ε : Type) where
  send : σ → Frame → σ × Option ε
  message : ε → String

/-- The bus, the frames it has been called with and what has been written to the error stream. -/
structure Sink (σ : Type) where
  bus : σ
  sent : List Frame := []
  err : Text := []

structure SendStreamResult where
  exitCode : Int := 0
  published : Nat := 0
  deriving DecidableEq, Repr

variable {σ ε : Type}

/-- Print a text and a line end. A text that is given as a C string ends at a null character. -/
def Sink.print (s : Sink σ) (text : Text) : Sink σ := { s with err := s.err ++ text ++ ['\n'] }

def cString (s : String) : Text := s.toList.takeWhile (· ≠ '\x00')

/-- The frame of a message, validated once more. -/
def convert (msg : Message) : Except Exception Frame := do
  let f ← (fromMessage msg).mapError .invalidFrame
  (validateFrame f).mapError .invalidFrame
  return f

/-- The line holds nothing but blanks. -/
def isBlank (line : Text) : Bool := line.all (· ∈ [' ', '\t', '\r', '\n'])

/-- The loop of `send_json_stream` over the lines that are left. -/
def sendLines (bus : IBus σ ε) :
    List Text → SendStreamResult → Sink σ → Except Exception (SendStreamResult × Sink σ)
  | [], result, s => .ok (result, s)
  | line :: lines, result, s =>
    if isBlank line then sendLines bus lines result s
    else
      match (parseMessageJson line).mapError Exception.runtimeError with
      | .error e => .ok (⟨1, result.published⟩, s.print (cString e.what))
      | .ok msg =>
        if msg.protocol ≠ .CAN then
          .ok (⟨1, result.published⟩, s.print "ErrUnsupportedProtocol".toList)
        else
          match convert msg with
          | .error (.invalidFrame e) =>
            .ok (⟨1, result.published⟩, s.print ("ErrInvalidInput: ".toList ++ cString e.what))
          -- no handler for other exceptions
          | .error e => .error e
          | .ok f =>
            match bus.send s.bus f with
            | (b, some ec) =>
              .ok (⟨1, result.published⟩,
                Sink.print { s with bus := b, sent := s.sent ++ [f] } (bus.message ec).toList)
            | (b, none) =>
              sendLines bus lines { result with published := result.published + 1 }
                { s with bus := b, sent := s.sent ++ [f] }

def sendJsonStream (bus : IBus σ ε) (input : Text) (s : Sink σ) :
    Except Exception (SendStreamResult × Sink σ) :=
  sendLines bus (getlines input) {} s

/-- The frame a line denotes: it parses, its protocol is CAN, and it converts to a valid frame. -/
def lineFrame (line : Text) : Option Frame := do
  let msg ← (parseMessageJson line).toOption
  if msg.protocol = .CAN then (convert msg).toOption else none

/-- The bus accepts these frames one after the other. -/
inductive IBus.Accepts (bus : IBus σ ε) : σ → List Frame → σ → Prop where
  | nil {b : σ} : Accepts bus b [] b
  | cons {b b' b'' : σ} {f : Frame} {fs : List Frame} (h : bus.send b f = (b', none))
      (hrest : Accepts bus b' fs b'') : Accepts bus b (f :: fs) b''

/-- How the loop ends: with all lines published, or at the first line that denotes no frame or
whose frame the bus does not accept. -/
inductive Ends (bus : IBus σ ε) (published : Nat) (b : σ) (sent : List Frame) :
    List Text → SendStreamResult → Sink σ → Prop where
  | done {err : Text} : Ends bus published b sent [] ⟨0, published⟩ ⟨b, sent, err⟩
  | malformed {line : Text} {lines : List Text} {err : Text} (h : lineFrame line = none) :
      Ends bus published b sent (line :: lines) ⟨1, published⟩ ⟨b, sent, err⟩
  | refused {line : Text} {lines : List Text} {f : Frame} {b' : σ} {ec : ε} {err : Text}
      (h : lineFrame line = some f) (hsend : bus.send b f = (b', some ec)) :
      Ends bus published b sent (line :: lines) ⟨1, published⟩ ⟨b', sent ++ [f], err⟩

variable (bus : IBus σ ε) {line : Text}

/-- Conversion and validation throw nothing but `ErrInvalidFrame`. -/
theorem convert_throwsOnly (msg : Message) :
    ThrowsOnly (fun e => ∃ e', e = Exception.invalidFrame e') (convert msg) := by
  refine throwsOnly_bind.mpr ⟨?_, fun f _ => throwsOnly_bind.mpr ⟨?_, fun _ _ => throwsOnly_ok f⟩⟩
  · cases fromMessage msg with
    | error e => exact throwsOnly_error.mpr ⟨e, rfl⟩
    | ok f => exact throwsOnly_ok f
  · cases validateFrame f with
    | error e => exact throwsOnly_error.mpr ⟨e, rfl⟩
    | ok u => exact throwsOnly_ok u

/-- The loop from a line that is not blank on: it returns there if the line denotes no frame, and
calls the bus with the frame otherwise. -/
theorem sendLines_cons (lines : List Text) (result : SendStreamResult) (s : Sink σ)
    (hblank : isBlank line = false) :
    (∃ err, lineFrame line = none ∧ sendLines bus (line :: lines) result s =
      .ok (⟨1, result.published⟩, { s with err := err })) ∨
    ∃ f b, lineFrame line = some f ∧
      ((∃ ec err, bus.send s.bus f = (b, some ec) ∧ sendLines bus (line :: lines) result s =
        .ok (⟨1, result.published⟩, ⟨b, s.sent ++ [f], err⟩)) ∨
      bus.send s.bus f = (b, none) ∧ sendLines bus (line :: lines) result s =
        sendLines bus lines { result with published := result.published + 1 }
          ⟨b, s.sent ++ [f], s.err⟩) := by
  rw [sendLines, if_neg (by simp [hblank])]
  cases hparse : parseMessageJson line with
  | error what =>
    have hline : lineFrame line = none := by rw [lineFrame, hparse]; rfl
    exact .inl ⟨_, hline, rfl⟩
  | ok msg =>
    have hline : lineFrame line =
        if msg.protocol = .CAN then (convert msg).toOption else none := by
      rw [lineFrame, hparse]
      rfl
    simp only [Except.mapError]
    by_cases hprotocol : msg.protocol = .CAN
    · rw [if_pos hprotocol] at hline
      rw [if_neg (not_not_intro hprotocol)]
      cases hconvert : convert msg with
      | error e =>
        obtain ⟨e, rfl⟩ := convert_throwsOnly msg e hconvert
        rw [hconvert] at hline
        exact .inl ⟨_, hline, rfl⟩
      | ok f =>
        rw [hconvert] at hline
        refine .inr ⟨f, (bus.send s.bus f).1, hline, ?_⟩
        cases hsend : bus.send s.bus f with
        | mk b answer =>
          cases answer with
          | some ec => exact .inl ⟨ec, _, rfl, by simp only [hsend]; rfl⟩
          | none => exact .inr ⟨rfl, by simp only [hsend]⟩
    · rw [if_neg hprotocol] at hline
      rw [if_pos hprotocol]
      exact .inl ⟨_, hline, rfl⟩

/-- The loop publishes the frames of the lines up to the first that fails. -/
theorem sendLines_ends (lines : List Text) (result : SendStreamResult) (s : Sink σ)
    (hresult : result.exitCode = 0) :
    ∃ result' s', sendLines bus lines result s = .ok (result', s') ∧
      ∃ pre post fs b, lines.filter (!isBlank ·) = pre ++ post ∧
        pre.map lineFrame = fs.map some ∧ bus.Accepts s.bus fs b ∧
        Ends bus (result.published + fs.length) b (s.sent ++ fs) post result' s' := by
  induction lines generalizing result s with
  | nil =>
    refine ⟨result, s, rfl, [], [], [], s.bus, rfl, rfl, .nil, ?_⟩
    obtain ⟨exitCode, published⟩ := result
    obtain rfl : exitCode = 0 := hresult
    rw [List.append_nil]
    exact .done
  | cons line lines ih =>
    cases hblank : isBlank line with
    | true =>
      rw [sendLines, if_pos hblank, List.filter_cons_of_neg (by simp [hblank])]
      exact ih result s hresult
    | false =>
      rw [List.filter_cons_of_pos (by simp [hblank])]
      rcases sendLines_cons bus lines result s hblank with
        ⟨err, hline, heq⟩ | ⟨f, b, hline, ⟨ec, err, hsend, heq⟩ | ⟨hsend, heq⟩⟩
      · refine ⟨_, _, heq, [], _, [], s.bus, rfl, rfl, .nil, ?_⟩
        rw [List.append_nil]
        exact .malformed hline
      · refine ⟨_, _, heq, [], _, [], s.bus, rfl, rfl, .nil, ?_⟩
        rw [List.append_nil]
        exact .refused hline hsend
      · obtain ⟨result', s', hrun, pre, post, fs, b', hlines, hpre, haccepts, hends⟩ :=
          ih { result with published := result.published + 1 } ⟨b, s.sent ++ [f], s.err⟩ hresult
        refine ⟨result', s', heq.trans hrun, line :: pre, post, f :: fs, b', ?_, ?_,
          .cons hsend haccepts, ?_⟩
        · rw [hlines, List.cons_append]
        · rw [List.map_cons, hline, hpre, List.map_cons]
        · rw [List.length_cons, ← Nat.add_assoc, Nat.add_right_comm, ← List.singleton_append,
            ← List.append_assoc]
          exact hends

/-- Whatever the stream and the bus, the loop throws nothing and sends exactly the frames of the
lines before the first that fails, whose frame is sent last if it is the bus that refuses it. It
counts what the bus has accepted, and it succeeds if no line fails. -/
theorem sendJsonStream_publishes (input : Text) (b : σ) :
    ∃ result s, sendJsonStream bus input { bus := b } = .ok (result, s) ∧
      ∃ pre post fs b', (getlines input).filter (!isBlank ·) = pre ++ post ∧
        pre.map lineFrame = fs.map some ∧ bus.Accepts b fs b' ∧ result.published = fs.length ∧
        (result.exitCode = 0 ↔ post = []) ∧ Ends bus fs.length b' fs post result s := by
  obtain ⟨result, s, hrun, pre, post, fs, b', hlines, hpre, haccepts, hends⟩ :=
    sendLines_ends bus (getlines input) {} { bus := b } rfl
  rw [Nat.zero_add, List.nil_append] at hends
  refine ⟨result, s, hrun, pre, post, fs, b', hlines, hpre, haccepts, ?_, ?_, hends⟩
  · cases hends <;> rfl
  · cases hends <;> simp

end Cli

end CppCan
