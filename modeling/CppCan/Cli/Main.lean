import CppCan.Cli.Frame
import CppCan.Cli.Sink
import CppCan.Relay.Protocol
import CppCan.Virt.Calls
import CppCan.Virt.Metrics

/-!
# The command line program

A run reads its arguments and perhaps its input, writes to the two output streams and
returns an exit status. Status 2 means that the arguments are wrong, and then the input does
not matter; status 1 means that the input is. Nothing is written to the output of a run that
fails, and nothing to the error stream of one that does not.
-/

namespace CppCan.Cli

open CppCan.Core CppCan.Relay

def kToolVersion : Text := "0.2.6".toList

/-- What a run leaves behind; `published` are the frames that its bus has taken. -/
structure Outcome where
  exitCode : Int := 0
  out : Text := []
  err : Text := []
  published : List Frame := []
  deriving DecidableEq, Repr

/-- A run that writes one line and succeeds. -/
def Outcome.success (text : Text) : Outcome := { out := text ++ ['\n'] }

/-- A run that complains and fails. -/
def Outcome.failure (exitCode : Int) (text : Text) : Outcome :=
  { exitCode := exitCode, err := text ++ ['\n'] }

def versionJson : Text :=
  "\x7b\"tool\":\"cpp-CAN\",\"protocol\":\"CAN\",\"protocol_int\":1,\"version\":\"".toList ++
    kToolVersion ++ "\",\"spec_version\":\"".toList ++ kRelaySpecVersion ++
    "\",\"language\":\"cpp\",\"runtime\":\"c++17\"\x7d".toList

def versionText : Text :=
  "cpp-CAN ".toList ++ kToolVersion ++ " (protocol=CAN spec=".toList ++ kRelaySpecVersion ++
    " language=cpp runtime=c++17)".toList

def capabilitiesJson : Text :=
  ("\x7b\"kind\":\"capabilities\",\"tool\":\"cpp-CAN\",\"protocol\":\"CAN\"," ++
    "\"protocol_int\":1,\"version\":\"").toList ++
    kToolVersion ++ "\",\"spec_version\":\"".toList ++ kRelaySpecVersion ++
    ("\",\"commands\":[\"version\",\"capabilities\",\"status\",\"convert\",\"send\"]," ++
      "\"transports\":[\"socketcan\",\"virtual\"],\"features\":[\"fd\",\"isotp\",\"j1939\"]," ++
      "\"interfaces\":[\"IBus\",\"INode\"],\"optional_interfaces\":[\"ILoaningBus\"," ++
      "\"IHealthProvider\",\"IMetricsProvider\",\"IDrainer\"],\"adapt\":true\x7d").toList

def statusJson : Text :=
  "\x7b\"protocol\":\"CAN\",\"tool\":\"cpp-CAN\",\"version\":\"".toList ++ kToolVersion ++
    "\",\"healthy\":true,\"connected\":false,\"endpoint\":\"\",\"details\":\x7b\x7d\x7d".toList

def statusText : Text :=
  "cpp-CAN ".toList ++ kToolVersion ++ ": healthy (connected=false)".toList

def isValidOutputFormat (fmt : Text) : Bool := fmt = "text".toList || fmt = "json".toList

def cmdVersion (format : Text) : Outcome :=
  .success (if format = "text".toList then versionText else versionJson)

def cmdCapabilities : Outcome := .success capabilitiesJson

def cmdStatus (format : Text) : Outcome :=
  .success (if format = "text".toList then statusText else statusJson)

def unknownFlag (cmd arg : Text) : Text :=
  "ErrUnknownFlag: ".toList ++ arg ++ " (usage: ".toList ++ cmd ++
    " [--format text|json])".toList

/-- The output format that the arguments ask for, or the complaint; `format` is the one so far. -/
def parseOutputFormat (cmd : Text) : List Text → Text → Except Text Text
  | [], format =>
    if isValidOutputFormat format then .ok format
    else .error ("ErrUnsupportedFormat: ".toList ++ format)
  | [arg], _ => .error (unknownFlag cmd arg)
  | arg :: value :: args, _ =>
    if arg = "--format".toList then parseOutputFormat cmd args value
    else .error (unknownFlag cmd arg)

def unsupportedArg (arg : Text) : Text :=
  "ErrUnsupportedArg: ".toList ++ arg ++
    (" (send currently only supports the streaming NDJSON sink '--format json', " ++
      "RELAY spec §11.2; protocol-flag sending is not yet implemented)").toList

/-- Whether `--format json` is among the arguments of `send`, or the complaint. -/
def sendArgs : List Text → Bool → Except Text Bool
  | [], jsonStream => .ok jsonStream
  | [arg], _ => .error (unsupportedArg arg)
  | arg :: fmt :: args, _ =>
    if arg = "--format".toList then
      if fmt ≠ "json".toList then .error ("ErrUnsupportedFormat: ".toList ++ fmt)
      else sendArgs args true
    else .error (unsupportedArg arg)

/-- The protocol among the arguments of `convert`, or the complaint. Other arguments are
skipped. -/
def convertArgs : List Text → Text → Except Text Text
  | [], protocol => .ok protocol
  | [_], protocol => .ok protocol
  | arg :: value :: args, protocol =>
    if arg = "--protocol".toList then convertArgs args value
    else if arg = "--format".toList then
      if value ≠ "json".toList then .error ("ErrUnsupportedFormat: ".toList ++ value)
      else convertArgs args protocol
    else convertArgs (value :: args) protocol

/-- A new bus of the program: nobody else knows it, so it has no subscription. -/
structure PrivateBus where
  bus : Virt.Bus := {}
  subs_eq : bus.subs = [] := by rfl

/-- Without subscriptions a `send` does not wait. -/
theorem PrivateBus.isSome_send (b : PrivateBus) (f : Frame) : (b.bus.send f).isSome := by
  unfold Virt.Bus.send
  split
  · rfl
  · split
    · rfl
    · rw [b.subs_eq]
      rfl

theorem PrivateBus.send_subs (b : PrivateBus) (f : Frame) :
    ((b.bus.send f).get (b.isSome_send f)).1.subs = [] :=
  (Virt.Bus.send_subs (Option.some_get (b.isSome_send f)).symm).trans b.subs_eq

def PrivateBus.send (b : PrivateBus) (f : Frame) : PrivateBus × Option ErrorCode :=
  (⟨((b.bus.send f).get (b.isSome_send f)).1, b.send_subs f⟩,
    ((b.bus.send f).get (b.isSome_send f)).2)

/-- The virtual bus as the sender sees it. -/
def virtualBus : IBus PrivateBus ErrorCode where
  send := PrivateBus.send
  message ec := String.ofList ec.message

def cmdSend (args : List Text) (input : Text) : Except Exception Outcome :=
  match sendArgs args false with
  | .error complaint => .ok (.failure 2 complaint)
  | .ok false => .ok (.failure 2 "ErrMissingArg: send requires --format json".toList)
  | .ok true => do
    let (result, s) ← sendJsonStream virtualBus input { bus := {} }
    return { exitCode := result.exitCode, err := s.err, published := s.sent }

def cmdConvert (now : Int) (protocol input : Text) : Outcome :=
  if protocol ≠ "CAN".toList then .failure 2 "ErrUnsupportedProtocol".toList
  else
    match parseFrameJson (getlines input).flatten with
    | .error what => .failure 1 (cString what)
    | .ok f =>
      match validateFrame f with
      | .error e => .failure 1 ("ErrInvalidInput: ".toList ++ cString e.what)
      | .ok _ => .success (messageToJson { toMessage now f with timestamp := 0 })

/-- The program: `args` are its arguments behind its name and `now` is the time. -/
def main (now : Int) (args : List Text) (input : Text) : Except Exception Outcome :=
  match args with
  | [] => .ok (.failure 2
      ("usage: cpp-can-cli <command> [options]\n" ++
        "commands: version capabilities status convert send").toList)
  | cmd :: args =>
    if cmd = "version".toList then
      match parseOutputFormat cmd args "json".toList with
      | .error complaint => .ok (.failure 2 complaint)
      | .ok format => .ok (cmdVersion format)
    else if cmd = "capabilities".toList then .ok cmdCapabilities
    else if cmd = "status".toList then
      match parseOutputFormat cmd args "json".toList with
      | .error complaint => .ok (.failure 2 complaint)
      | .ok format => .ok (cmdStatus format)
    else if cmd = "send".toList then cmdSend args input
    else if cmd = "convert".toList then
      match convertArgs args [] with
      | .error complaint => .ok (.failure 2 complaint)
      | .ok protocol =>
        if protocol.isEmpty then .ok (.failure 2 "ErrMissingArg: --protocol required".toList)
        else .ok (cmdConvert now protocol input)
    else .ok (.failure 2 ("ErrUnknownCommand: ".toList ++ cmd))

/-- The status agrees with the streams: a run that fails writes to the error stream only, one
that succeeds does not write to it. -/
structure Outcome.Consistent (o : Outcome) : Prop where
  status : o.exitCode = 0 ∨ o.exitCode = 1 ∨ o.exitCode = 2
  quiet : o.exitCode = 0 → o.err = []
  complains : o.exitCode ≠ 0 → o.out = [] ∧ ∃ text, o.err = text ++ ['\n']

theorem Outcome.consistent_success (text : Text) : (Outcome.success text).Consistent :=
  ⟨.inl rfl, fun _ => rfl, fun h => absurd rfl h⟩

theorem Outcome.consistent_failure {exitCode : Int} (h : exitCode = 1 ∨ exitCode = 2)
    (text : Text) : (Outcome.failure exitCode text).Consistent := by
  refine ⟨.inr h, fun h0 => ?_, fun _ => ⟨rfl, text, rfl⟩⟩
  have hzero : exitCode = 0 := h0
  omega

variable {σ ε : Type} {bus : IBus σ ε} {lines : List Text} {result result' : SendStreamResult}
  {s s' : Sink σ}

/-- The loop of `send` complains exactly when it fails. -/
theorem sendLines_err (h : sendLines bus lines result s = .ok (result', s'))
    (h0 : result.exitCode = 0) : result'.exitCode = 0 ∧ s'.err = s.err ∨
      result'.exitCode = 1 ∧ ∃ text, s'.err = s.err ++ text ++ ['\n'] := by
  induction lines generalizing result s with
  | nil =>
    obtain ⟨rfl, rfl⟩ := Prod.mk.inj (Except.ok.inj h)
    exact .inl ⟨h0, rfl⟩
  | cons line lines ih =>
    rw [sendLines] at h
    split at h
    · exact ih h h0
    split at h
    · obtain ⟨rfl, rfl⟩ := Prod.mk.inj (Except.ok.inj h)
      exact .inr ⟨rfl, _, rfl⟩
    split at h
    · obtain ⟨rfl, rfl⟩ := Prod.mk.inj (Except.ok.inj h)
      exact .inr ⟨rfl, _, rfl⟩
    split at h
    · obtain ⟨rfl, rfl⟩ := Prod.mk.inj (Except.ok.inj h)
      exact .inr ⟨rfl, _, rfl⟩
    · cases h
    · split at h
      · obtain ⟨rfl, rfl⟩ := Prod.mk.inj (Except.ok.inj h)
        exact .inr ⟨rfl, _, rfl⟩
      · have hrest := ih h h0
        exact hrest

/-- The stream is read to its end or to the first line that fails. -/
theorem cmdSend_stream (input : Text) : ∃ result s,
    sendJsonStream virtualBus input { bus := {} } = .ok (result, s) ∧
      (result.exitCode = 0 ∧ s.err = [] ∨
        result.exitCode = 1 ∧ ∃ text, s.err = text ++ ['\n']) := by
  obtain ⟨result, s, hrun, -⟩ := sendLines_ends virtualBus (getlines input) {} { bus := {} } rfl
  exact ⟨result, s, hrun, sendLines_err hrun rfl⟩

/-- A command that ends consistently, with status 2 only for reasons that the time and the
input have nothing to do with. -/
def Explains (run : Int → Text → Except Exception Outcome) : Prop :=
  ∀ now input, ∃ o, run now input = .ok o ∧ o.Consistent ∧
    (o.exitCode = 2 → ∀ now' input', run now' input' = .ok o)

theorem explains_const {o : Outcome} (h : o.Consistent) : Explains fun _ _ => .ok o :=
  fun _ _ => ⟨o, rfl, h, fun _ _ _ => rfl⟩

theorem explains_failure (text : Text) : Explains fun _ _ => .ok (.failure 2 text) :=
  explains_const (Outcome.consistent_failure (.inr rfl) text)

/-- A command whose status is never 2. -/
theorem explains_of_status {run : Int → Text → Except Exception Outcome}
    (h : ∀ now input, ∃ o, run now input = .ok o ∧ o.Consistent ∧ o.exitCode ≠ 2) :
    Explains run := by
  intro now input
  obtain ⟨o, hrun, ho, hstatus⟩ := h now input
  exact ⟨o, hrun, ho, fun h2 => absurd h2 hstatus⟩

theorem explains_cmdSend (args : List Text) : Explains fun _ input => cmdSend args input := by
  unfold cmdSend
  cases sendArgs args false with
  | error complaint => exact explains_failure complaint
  | ok jsonStream =>
    cases jsonStream with
    | false => exact explains_failure _
    | true =>
      refine explains_of_status fun _ input => ?_
      obtain ⟨result, s, hrun, hcases⟩ := cmdSend_stream input
      refine ⟨{ exitCode := result.exitCode, err := s.err, published := s.sent }, ?_, ?_⟩
      · simp only [hrun]
        rfl
      · rcases hcases with ⟨hstatus, herr⟩ | ⟨hstatus, text, herr⟩
        · exact ⟨⟨.inl hstatus, fun _ => herr, fun h => absurd hstatus h⟩, by simp [hstatus]⟩
        · refine ⟨⟨.inr (.inl hstatus), fun h => ?_, fun _ => ⟨rfl, text, herr⟩⟩, by simp [hstatus]⟩
          exact absurd (hstatus.symm.trans h) (by decide)

theorem explains_cmdConvert (protocol : Text) :
    Explains fun now input => .ok (cmdConvert now protocol input) := by
  unfold cmdConvert
  by_cases hprotocol : protocol ≠ "CAN".toList
  · simp only [if_pos hprotocol]
    exact explains_failure _
  · simp only [if_neg hprotocol]
    refine explains_of_status fun now input => ⟨_, rfl, ?_⟩
    have hfailure : ∀ text, (Outcome.failure 1 text).Consistent ∧
        (Outcome.failure 1 text).exitCode ≠ 2 := fun text =>
      ⟨Outcome.consistent_failure (.inl rfl) text, (by decide : (1 : Int) ≠ 2)⟩
    cases parseFrameJson (getlines input).flatten with
    | error what => exact hfailure _
    | ok f =>
      dsimp only
      cases validateFrame f with
      | error e => exact hfailure _
      | ok _ => exact ⟨Outcome.consistent_success _, (by decide : (0 : Int) ≠ 2)⟩

theorem explains_main (args : List Text) : Explains fun now input => main now args input := by
  cases args with
  | nil => exact explains_failure _
  | cons cmd args =>
    simp only [main]
    split_ifs
    · cases parseOutputFormat cmd args "json".toList with
      | error complaint => exact explains_failure complaint
      | ok format => exact explains_const (Outcome.consistent_success _)
    · exact explains_const (Outcome.consistent_success _)
    · cases parseOutputFormat cmd args "json".toList with
      | error complaint => exact explains_failure complaint
      | ok format => exact explains_const (Outcome.consistent_success _)
    · exact explains_cmdSend args
    · cases convertArgs args [] with
      | error complaint => exact explains_failure complaint
      | ok protocol =>
        dsimp only
        split_ifs
        · exact explains_failure _
        · exact explains_cmdConvert protocol
    · exact explains_failure _

/-- Whatever the arguments and the input, the program ends without an exception. Its status is
0, 1 or 2. With 0 the error stream is empty; otherwise a complaint is written to it and nothing
to the output. With 2 the run would be the same at any time and on any other input. -/
theorem main_explains (now : Int) (args : List Text) (input : Text) :
    ∃ o, main now args input = .ok o ∧ o.Consistent ∧
      (o.exitCode = 2 → ∀ now' input', main now' args input' = .ok o) :=
  explains_main args now input

end CppCan.Cli
