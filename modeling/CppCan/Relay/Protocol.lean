import CppCan.Relay.Message
import CppCan.Relay.Types
import Mathlib.Data.List.DropRight

/-!
# Names of protocols and errors

A protocol is parsed from its name in any case, between blanks and tabs. Only SOME/IP has
two names. Everything else is rejected.
-/

namespace CppCan.Relay

open CppCan.Core

/-- The version of the specification. -/
def kRelaySpecVersion : Text := "2.0".toList

namespace Protocol

def DDS : Protocol := ⟨2⟩
def LIN : Protocol := ⟨3⟩
def MQTT : Protocol := ⟨4⟩
def RCP : Protocol := ⟨5⟩
def SOMEIP : Protocol := ⟨6⟩

end Protocol

/-- Blanks and tabs around a name. -/
def isBlankOrTab (c : Char) : Bool := c ∈ [' ', '\t']

/-- The protocol with this name, if there is one. -/
def tryParseProtocol (s : Text) : Option Protocol :=
  let upper := s.map Char.toUpper
  -- what is left of blanks only matches no name
  let upper := (upper.dropWhile isBlankOrTab).rdropWhile isBlankOrTab
  if upper = "CAN".toList then some .CAN
  else if upper = "DDS".toList then some .DDS
  else if upper = "LIN".toList then some .LIN
  else if upper = "MQTT".toList then some .MQTT
  else if upper = "RCP".toList then some .RCP
  else if upper = "SOMEIP".toList then some .SOMEIP
  else if upper = "SOME/IP".toList then some .SOMEIP
  else none

def Errc.message : Errc → Text
  | .closed => "relay: closed".toList
  | .notConnected => "relay: not connected".toList
  | .timeout => "relay: timeout".toList
  | .payloadTooLarge => "relay: payload too large".toList

/-- The texts of the generic category in the GNU C library. -/
def GenericErrc.message : GenericErrc → Text
  | .invalidArgument => "Invalid argument".toList
  | .noBufferSpace => "No buffer space available".toList
  | .badMessage => "Bad message".toList
  | .connectionAborted => "Software caused connection abort".toList
  | .notSupported => "Operation not supported".toList

def ErrorCode.message : ErrorCode → Text
  | .relay e => e.message
  | .generic e => e.message

/-- The protocols and their names in upper case. -/
def protocolNames : List (Text × Protocol) :=
  [("CAN".toList, .CAN), ("DDS".toList, .DDS), ("LIN".toList, .LIN), ("MQTT".toList, .MQTT),
    ("RCP".toList, .RCP), ("SOMEIP".toList, .SOMEIP), ("SOME/IP".toList, .SOMEIP)]

variable {s l m r : Text} {p : Protocol}

/-- The comparisons are a search in the table of names. -/
theorem tryParseProtocol_eq_some : tryParseProtocol s = some p ↔
    (((s.map Char.toUpper).dropWhile isBlankOrTab).rdropWhile isBlankOrTab, p) ∈
      protocolNames := by
  unfold tryParseProtocol
  dsimp only
  generalize ((s.map Char.toUpper).dropWhile isBlankOrTab).rdropWhile isBlankOrTab = upper
  constructor
  · intro h
    split_ifs at h with h₁ h₂ h₃ h₄ h₅ h₆ h₇
    all_goals
      obtain rfl := Option.some.inj h
      subst upper
      decide
  · intro h
    have hall : ∀ e ∈ protocolNames, (if e.1 = "CAN".toList then some Protocol.CAN
        else if e.1 = "DDS".toList then some .DDS else if e.1 = "LIN".toList then some .LIN
        else if e.1 = "MQTT".toList then some .MQTT else if e.1 = "RCP".toList then some .RCP
        else if e.1 = "SOMEIP".toList then some .SOMEIP
        else if e.1 = "SOME/IP".toList then some .SOMEIP else none) = some e.2 := by
      decide
    exact hall _ h

/-- No name is empty or holds a blank. -/
theorem plain_of_mem_protocolNames {name : Text} (h : (name, p) ∈ protocolNames) :
    name ≠ [] ∧ ∀ c ∈ name, isBlankOrTab c = false := by
  have hall : protocolNames.all
      (fun e => !e.1.isEmpty && e.1.all fun c => !isBlankOrTab c) = true := rfl
  have hplain := List.all_eq_true.mp hall _ h
  simp only [Bool.and_eq_true, Bool.not_eq_true', List.isEmpty_eq_false_iff,
    List.all_eq_true] at hplain
  exact hplain

/-- A blank is told by its code. -/
theorem isBlankOrTab_of_gt {c : Char} (h : 32 < c.val.toNat) : isBlankOrTab c = false := by
  simp only [isBlankOrTab, List.mem_cons, List.not_mem_nil, or_false, decide_eq_false_iff_not]
  rintro (rfl | rfl)
  · exact absurd h (by decide)
  · exact absurd h (by decide)

/-- Case does not matter to blanks. -/
theorem isBlankOrTab_toUpper (c : Char) : isBlankOrTab c.toUpper = isBlankOrTab c := by
  by_cases h : 'a'.val ≤ c.val ∧ c.val ≤ 'z'.val
  · have hlow : 97 ≤ c.val.toNat := UInt32.le_iff_toNat_le.mp h.1
    have hhigh : c.val.toNat ≤ 122 := UInt32.le_iff_toNat_le.mp h.2
    have hupper : c.toUpper.val.toNat = (c.val.toNat + 4294967264) % 2 ^ 32 := by
      delta Char.toUpper
      rw [dif_pos h, UInt32.toNat_add]
      rfl
    rw [isBlankOrTab_of_gt (c := c) (by omega), isBlankOrTab_of_gt (by omega)]
  · have hsame : c.toUpper = c := by
      delta Char.toUpper
      exact dif_neg h
    rw [hsame]

/-- Trimming and upper case commute. -/
theorem trim_map_toUpper (s : Text) :
    ((s.map Char.toUpper).dropWhile isBlankOrTab).rdropWhile isBlankOrTab =
      ((s.dropWhile isBlankOrTab).rdropWhile isBlankOrTab).map Char.toUpper := by
  have hcomp : isBlankOrTab ∘ Char.toUpper = isBlankOrTab := funext isBlankOrTab_toUpper
  rw [List.dropWhile_map, hcomp, List.rdropWhile, ← List.map_reverse, List.dropWhile_map, hcomp,
    ← List.map_reverse]
  rfl

/-- A text is its trimmed middle between blanks. -/
theorem exists_blanks (s : Text) : ∃ l r, (∀ c ∈ l, isBlankOrTab c = true) ∧
    (∀ c ∈ r, isBlankOrTab c = true) ∧
      s = l ++ ((s.dropWhile isBlankOrTab).rdropWhile isBlankOrTab ++ r) := by
  refine ⟨s.takeWhile isBlankOrTab, (s.dropWhile isBlankOrTab).rtakeWhile isBlankOrTab,
    fun c => List.mem_takeWhile_imp, fun c => List.mem_rtakeWhile_imp, ?_⟩
  rw [List.rdropWhile_append_rtakeWhile, List.takeWhile_append_dropWhile]

/-- Blanks around a text that neither begins nor ends with one are trimmed. -/
theorem trim_blanks (hl : ∀ c ∈ l, isBlankOrTab c = true) (hr : ∀ c ∈ r, isBlankOrTab c = true)
    (hm : ∀ c ∈ m, isBlankOrTab c = false) (hne : m ≠ []) :
    ((l ++ (m ++ r)).dropWhile isBlankOrTab).rdropWhile isBlankOrTab = m := by
  obtain ⟨c, m', rfl⟩ := List.exists_cons_of_ne_nil hne
  have hdrop : (l ++ (c :: m' ++ r)).dropWhile isBlankOrTab = c :: m' ++ r := by
    rw [List.dropWhile_append_of_pos hl]
    exact List.dropWhile_cons_of_neg (by simp [hm c List.mem_cons_self])
  have hback : ∀ x ∈ r.reverse, isBlankOrTab x = true := fun x hx => hr x (List.mem_reverse.mp hx)
  rw [hdrop, List.rdropWhile, List.reverse_append, List.dropWhile_append_of_pos hback]
  have hself : (c :: m').rdropWhile isBlankOrTab = c :: m' :=
    List.rdropWhile_eq_self_iff.mpr fun h => by simp [hm _ (List.getLast_mem h)]
  exact hself

/-- A text names a protocol if it is one of its names in any case, between blanks and tabs. -/
theorem tryParseProtocol_iff (s : Text) (p : Protocol) : tryParseProtocol s = some p ↔
    ∃ l name r, s = l ++ (name ++ r) ∧ (∀ c ∈ l, isBlankOrTab c = true) ∧
      (∀ c ∈ r, isBlankOrTab c = true) ∧ (name.map Char.toUpper, p) ∈ protocolNames := by
  rw [tryParseProtocol_eq_some, trim_map_toUpper]
  constructor
  · intro h
    obtain ⟨l, r, hl, hr, hs⟩ := exists_blanks s
    exact ⟨l, _, r, hs, hl, hr, h⟩
  · rintro ⟨l, name, r, rfl, hl, hr, hname⟩
    obtain ⟨hne, hupper⟩ := plain_of_mem_protocolNames hname
    have hmiddle : ∀ c ∈ name, isBlankOrTab c = false := fun c hc => by
      rw [← isBlankOrTab_toUpper]
      exact hupper _ (List.mem_map_of_mem hc)
    rwa [trim_blanks hl hr hmiddle fun h => hne (by rw [h]; rfl)]

end CppCan.Relay
