import Vpsim.Lib.Run
import Vpsim.Lib.History

/-!
# The command channel of the monitor

A guest writes bytes to a command register and to a data register. The commands collect strings in a
list and hand it to `sesamCommand`. The string that is being received is behind a raw pointer, which has
no value at first and keeps it after the string is deleted. A write that throws leaves what it did.
-/

namespace Vpsim.Peripherals

open Vpsim.Lib

/-- `monitorState`. -/
inductive MonitorState where
  | run
  | takeCmd
  deriving DecidableEq

/-- Why a write does not return. After the last two the program has no defined behaviour: there is no live
string behind `strBuf`, and the list whose last element is taken is empty. -/
inductive MonitorFault where
  | nullPayload
  | unknownCommand
  | sesamCommand (what : String)
  | dangling
  | emptyList
  deriving DecidableEq

/-- The text of an exception. -/
def MonitorFault.what : MonitorFault → String
  | .nullPayload => "Monitor does not support null payloads !"
  | .unknownCommand => "SesamController in unknown command."
  | .sesamCommand what => what
  | .dangling | .emptyList => ""

/-- No exception, but undefined behaviour. -/
def MonitorFault.Undefined (e : MonitorFault) : Prop := e = .dangling ∨ e = .emptyList

/-- The state of the controller, with the calls of `sesamCommand` so far. -/
structure SesamController where
  sesamState : MonitorState
  /-- The string behind `strBuf`, if there is a live one. -/
  strBuf : Option (List UInt8)
  strParam : List (List UInt8)
  called : List (MonitorState × List (List UInt8))

/-- The characters of a name. -/
def charsOf (name : String) : List UInt8 := name.toList.map fun c => c.toNat.toUInt8

/-- A write of one byte, at a distance from the base address. -/
structure GuestByte where
  offset : ℕ
  data : Option UInt8

/-- A write to the command register. -/
def command (code : UInt8) : GuestByte := ⟨0, some code⟩

/-- A write to the data register. -/
def dataByte (data : UInt8) : GuestByte := ⟨1, some data⟩

namespace SesamController

abbrev MonitorM := EStateM MonitorFault SesamController

/-- The controller as constructed: nothing is received. -/
def init : SesamController := ⟨.run, none, [], []⟩

section Write

-- What a call of `sesamCommand` throws, if it does.
variable (sesamCommand : MonitorState → List (List UInt8) → Option String)

/-- `sesamCommand(strParam)`. -/
def callCommand : MonitorM Unit := do
  let s ← get
  modify fun s => { s with called := s.called ++ [(s.sesamState, s.strParam)] }
  match sesamCommand s.sesamState s.strParam with
  | some what => throw (.sesamCommand what)
  | none => pure ()

/-- The call while the monitor takes a command. -/
def takeCommand : MonitorM Unit := do
  modify fun s => { s with sesamState := .takeCmd }
  callCommand sesamCommand
  modify fun s => { s with sesamState := .run }

/-- The switch on the command byte. -/
def writeCommand (data : UInt8) : MonitorM Unit := do
  if data = 0x20 then
    modify fun s => { s with strParam := [charsOf "list"] }
    takeCommand sesamCommand
  else if data = 0x42 then
    modify fun s => { s with strParam := [charsOf "quit"] }
    takeCommand sesamCommand
  else if data = 0x52 then
    match (← get).strParam.getLast? with
    | none => throw .emptyList
    | some tmp =>
      modify fun s => { s with strParam := [charsOf "benchmark", tmp] }
      takeCommand sesamCommand
  else if data = 0x54 then callCommand sesamCommand
  else if data = 0x58 then modify fun s => { s with strParam := [] }
  else if data = 0x62 then modify fun s => { s with strBuf := some [] }
  else if data = 0x72 then
    match (← get).strBuf with
    | none => throw .dangling
    | some str => modify fun s => { s with strParam := s.strParam ++ [str], strBuf := none }
  else if data = 0x78 then takeCommand sesamCommand
  else throw .unknownCommand

/-- `*strBuf += *data`. -/
def appendByte (data : UInt8) : MonitorM Unit := do
  match (← get).strBuf with
  | none => throw .dangling
  | some str => modify fun s => { s with strBuf := some (str ++ [data]) }

def write (w : GuestByte) : MonitorM Unit :=
  match w.data with
  | none => throw .nullPayload
  | some data =>
    if w.offset = 0 then writeCommand sesamCommand data
    else if w.offset = 1 then appendByte data
    else pure ()

/-- The state after writes that a guest makes whether or not the ones before threw. -/
def after (s : SesamController) (ws : List GuestByte) : SesamController :=
  ws.foldl (fun s w => endState (write sesamCommand w s)) s

/-- A write has a defined behaviour: it returns, or it throws an exception. -/
def Defined (s : SesamController) (w : GuestByte) : Prop :=
  wp (write sesamCommand w) (fun _ _ => True) (fun e _ => ¬ e.Undefined) s

/-- Every write of a sequence has a defined behaviour. -/
def Safe (s : SesamController) (ws : List GuestByte) : Prop :=
  AtEach (fun done w => Defined sesamCommand (after sesamCommand s done) w) ws

end Write

end SesamController

/-! ## What a guest has to observe -/

namespace GuestByte

/-- The string buffer is open after a write: `0x62` opens it and `0x72` closes it. -/
def opens (w : GuestByte) (opened : Bool) : Bool :=
  if w.offset = 0 ∧ w.data = some 0x62 then true else if w.offset = 0 ∧ w.data = some 0x72 then false else opened

/-- The list has an element after a write: `0x58` clears it, and `0x20`, `0x42`, `0x52` and `0x72` put one in. -/
def fills (w : GuestByte) (filled : Bool) : Bool :=
  if w.offset = 0 ∧ w.data = some 0x58 then false
  else if w.offset = 0 ∧ w.data ∈ [some 0x20, some 0x42, some 0x52, some 0x72] then true
  else filled

/-- The string buffer is open after writes from the start. -/
def opened (done : List GuestByte) : Bool := done.foldl (fun b w => w.opens b) false

/-- The list has an element after writes from the start. -/
def filled (done : List GuestByte) : Bool := done.foldl (fun b w => w.fills b) false

/-- A byte of a string, or its end. -/
def UsesBuffer (w : GuestByte) : Prop := w.offset = 1 ∧ w.data ≠ none ∨ w.offset = 0 ∧ w.data = some 0x72

/-- A write is in its place after others: the bytes of a string and its end come while the buffer is open, and
`0x52` while the list has an element. -/
def InPlace (done : List GuestByte) (w : GuestByte) : Prop :=
  (w.UsesBuffer → opened done = true) ∧ (w.offset = 0 ∧ w.data = some 0x52 → filled done = true)

/-- Every write of a sequence is in its place. -/
def AllInPlace (ws : List GuestByte) : Prop := AtEach (fun done w => w.InPlace done) ws

end GuestByte

namespace SesamController

variable {sesamCommand : MonitorState → List (List UInt8) → Option String} {s : SesamController} {opened filled : Bool}

/-- The writes that hand over a string. -/
def received (str : List UInt8) : List GuestByte := command 0x62 :: str.map dataByte ++ [command 0x72]

/-- The writes that hand over a list of strings as a command. -/
def transmission (strs : List (List UInt8)) : List GuestByte := command 0x58 :: strs.flatMap received ++ [command 0x78]

/-- Each list of strings that is transmitted from a state is what the command is called with, once. -/
def Transmits (sesamCommand : MonitorState → List (List UInt8) → Option String) (s : SesamController) : Prop :=
  ∀ strs, Safe sesamCommand s (transmission strs) ∧
    (after sesamCommand s (transmission strs)).called = s.called ++ [(.takeCmd, strs)]

/-- The state of the controller as far as a guest can tell it from its own writes. -/
structure Tracks (opened filled : Bool) (s : SesamController) : Prop where
  strBuf : s.strBuf.isSome = opened
  strParam : (!s.strParam.isEmpty) = filled

/-- Nothing is received at first. -/
theorem tracks_init : Tracks false false init := ⟨rfl, rfl⟩

/-- A call of `sesamCommand` is seen in the list of calls only. -/
theorem wp_callCommand {Q : PUnit → SesamController → Prop} {E : MonitorFault → SesamController → Prop}
    (hQ : Q ⟨⟩ { s with called := s.called ++ [(s.sesamState, s.strParam)] })
    (hE : ∀ what, E (.sesamCommand what) { s with called := s.called ++ [(s.sesamState, s.strParam)] }) :
    wp (callCommand sesamCommand) Q E s := by
  unfold callCommand
  apply wp.step
  rw [wp_get]
  apply wp.step
  rw [wp_modify]
  cases sesamCommand s.sesamState s.strParam with
  | some what => exact hE what
  | none => exact hQ

/-- A command that is taken keeps the string and the list. -/
theorem Tracks.takeCommand (h : Tracks opened filled s) :
    wp (takeCommand sesamCommand) (fun _ => Tracks opened filled)
      (fun e s' => ¬ e.Undefined ∧ Tracks opened filled s') s := by
  unfold SesamController.takeCommand
  apply wp.step
  rw [wp_modify]
  apply wp.step
  apply wp_callCommand
  · exact ⟨h.strBuf, h.strParam⟩
  · exact fun what => ⟨nofun, h.strBuf, h.strParam⟩

/-- A command byte in its place: each command treats the string and the list as the guest expects, and the
program goes on or throws. -/
theorem Tracks.writeCommand (h : Tracks opened filled s) (data : UInt8) (hbuf : data = 0x72 → opened = true)
    (hback : data = 0x52 → filled = true) :
    wp (writeCommand sesamCommand data)
      (fun _ => Tracks ((command data).opens opened) ((command data).fills filled))
      (fun e s' => ¬ e.Undefined ∧ Tracks ((command data).opens opened) ((command data).fills filled) s') s := by
  unfold SesamController.writeCommand
  by_cases h20 : data = 0x20
  · rw [if_pos h20]
    subst h20
    apply wp.step
    rw [wp_modify]
    exact Tracks.takeCommand ⟨h.strBuf, rfl⟩
  rw [if_neg h20]
  by_cases h42 : data = 0x42
  · rw [if_pos h42]
    subst h42
    apply wp.step
    rw [wp_modify]
    exact Tracks.takeCommand ⟨h.strBuf, rfl⟩
  rw [if_neg h42]
  by_cases h52 : data = 0x52
  · rw [if_pos h52]
    have hlast : s.strParam ≠ [] := by
      intro hempty
      have hfilled := h.strParam
      rw [hempty, hback h52] at hfilled
      cases hfilled
    subst h52
    apply wp.step
    rw [wp_get, List.getLast?_eq_some_getLast hlast]
    apply wp.step
    rw [wp_modify]
    exact Tracks.takeCommand ⟨h.strBuf, rfl⟩
  rw [if_neg h52]
  by_cases h54 : data = 0x54
  · rw [if_pos h54]
    subst h54
    apply wp_callCommand
    · exact ⟨h.strBuf, h.strParam⟩
    · exact fun what => ⟨nofun, h.strBuf, h.strParam⟩
  rw [if_neg h54]
  by_cases h58 : data = 0x58
  · rw [if_pos h58]
    subst h58
    rw [wp_modify]
    exact ⟨h.strBuf, rfl⟩
  rw [if_neg h58]
  by_cases h62 : data = 0x62
  · rw [if_pos h62]
    subst h62
    rw [wp_modify]
    exact ⟨rfl, h.strParam⟩
  rw [if_neg h62]
  by_cases h72 : data = 0x72
  · rw [if_pos h72]
    obtain ⟨str, hstr⟩ := Option.isSome_iff_exists.1 (h.strBuf.trans (hbuf h72))
    subst h72
    apply wp.step
    rw [wp_get, hstr]
    dsimp only
    rw [wp_modify]
    refine ⟨rfl, ?_⟩
    simp [GuestByte.fills, command]
  rw [if_neg h72]
  have hopens : (command data).opens opened = opened := by simp [GuestByte.opens, command, h62, h72]
  have hfills : (command data).fills filled = filled := by
    simp [GuestByte.fills, command, h20, h42, h52, h58, h72]
  rw [hopens, hfills]
  by_cases h78 : data = 0x78
  · rw [if_pos h78]
    exact h.takeCommand
  · rw [if_neg h78]
    exact ⟨nofun, h⟩

/-- A byte of a string while the buffer is open. -/
theorem wp_appendByte {Q : PUnit → SesamController → Prop} {E : MonitorFault → SesamController → Prop} {str : List UInt8}
    {data : UInt8} (hstr : s.strBuf = some str) (hQ : Q ⟨⟩ { s with strBuf := some (str ++ [data]) }) :
    wp (appendByte data) Q E s := by
  unfold appendByte
  apply wp.step
  rw [wp_get, hstr]
  exact hQ

/-- A write in its place has a defined behaviour, and the guest can tell the next state. -/
theorem Tracks.write (sesamCommand : MonitorState → List (List UInt8) → Option String) (h : Tracks opened filled s) (w : GuestByte) (hbuf : w.UsesBuffer → opened = true)
    (hback : w.offset = 0 ∧ w.data = some 0x52 → filled = true) :
    wp (write sesamCommand w) (fun _ => Tracks (w.opens opened) (w.fills filled))
      (fun e s' => ¬ e.Undefined ∧ Tracks (w.opens opened) (w.fills filled) s') s := by
  obtain ⟨offset, data⟩ := w
  unfold SesamController.write
  cases data with
  | none =>
    refine ⟨nofun, ?_⟩
    simpa [GuestByte.opens, GuestByte.fills] using h
  | some data =>
    dsimp only
    by_cases hcommand : offset = 0
    · rw [if_pos hcommand]
      subst hcommand
      apply h.writeCommand
      · intro hdata
        exact hbuf (.inr ⟨rfl, congrArg some hdata⟩)
      · intro hdata
        exact hback ⟨rfl, congrArg some hdata⟩
    rw [if_neg hcommand]
    have hopens : GuestByte.opens ⟨offset, some data⟩ opened = opened := by simp [GuestByte.opens, hcommand]
    have hfills : GuestByte.fills ⟨offset, some data⟩ filled = filled := by simp [GuestByte.fills, hcommand]
    rw [hopens, hfills]
    by_cases hstring : offset = 1
    · rw [if_pos hstring]
      obtain ⟨str, hstr⟩ := Option.isSome_iff_exists.1 (h.strBuf.trans (hbuf (.inl ⟨hstring, nofun⟩)))
      apply wp_appendByte hstr
      exact ⟨h.strBuf.symm.trans (congrArg Option.isSome hstr) |>.symm, h.strParam⟩
    · rw [if_neg hstring]
      exact h

/-- Only while a string is received its bytes and its end have a defined behaviour. -/
theorem Tracks.opened_of_defined (h : Tracks opened filled s) {w : GuestByte} (hw : w.UsesBuffer)
    (hdefined : Defined sesamCommand s w) : opened = true := by
  rw [← h.strBuf]
  cases hstr : s.strBuf with
  | some str => rfl
  | none =>
    obtain ⟨offset, data⟩ := w
    unfold Defined SesamController.write at hdefined
    obtain ⟨hoffset, hdata⟩ | ⟨hoffset, hdata⟩ := hw
    · cases data with
      | none => exact absurd rfl hdata
      | some data =>
        dsimp only at hoffset hdefined
        rw [hoffset, if_neg Nat.one_ne_zero, if_pos rfl] at hdefined
        unfold appendByte at hdefined
        rw [wp_bind, wp_get, hstr] at hdefined
        exact absurd (.inl rfl) hdefined
    · dsimp only at hoffset hdata
      rw [hoffset, hdata] at hdefined
      dsimp only at hdefined
      rw [if_pos rfl] at hdefined
      change wp (get >>= _) _ _ s at hdefined
      rw [wp_bind, wp_get, hstr] at hdefined
      exact absurd (.inl rfl) hdefined

/-- Only with an element in the list the benchmark command has a defined behaviour. -/
theorem Tracks.filled_of_defined (h : Tracks opened filled s) {w : GuestByte} (hw : w.offset = 0 ∧ w.data = some 0x52)
    (hdefined : Defined sesamCommand s w) : filled = true := by
  rw [← h.strParam]
  cases hempty : s.strParam with
  | cons str strs => rfl
  | nil =>
    obtain ⟨offset, data⟩ := w
    unfold Defined SesamController.write at hdefined
    obtain ⟨hoffset, hdata⟩ := hw
    dsimp only at hoffset hdata
    rw [hoffset, hdata] at hdefined
    dsimp only at hdefined
    rw [if_pos rfl] at hdefined
    change wp (get >>= _) _ _ s at hdefined
    rw [wp_bind, wp_get, hempty] at hdefined
    exact absurd (.inr rfl) hdefined

/-- A write has a defined behaviour exactly when it is in its place. -/
theorem Tracks.defined_iff (h : Tracks opened filled s) (w : GuestByte) :
    Defined sesamCommand s w ↔ (w.UsesBuffer → opened = true) ∧ (w.offset = 0 ∧ w.data = some 0x52 → filled = true) := by
  constructor
  · intro hdefined
    exact ⟨fun hw => h.opened_of_defined hw hdefined, fun hw => h.filled_of_defined hw hdefined⟩
  · intro ⟨hbuf, hback⟩
    exact (h.write sesamCommand w hbuf hback).imp (fun _ _ _ => trivial) fun _ _ h' => h'.1

/-- The writes of a guest are defined exactly when they come in their places. -/
theorem safe_iff (sesamCommand : MonitorState → List (List UInt8) → Option String) (ws : List GuestByte) :
    Safe sesamCommand init ws ↔ GuestByte.AllInPlace ws := by
  apply atEach_iff fun done s => Tracks (GuestByte.opened done) (GuestByte.filled done) s
  · exact tracks_init
  · intro done w s h hplace
    unfold GuestByte.opened GuestByte.filled
    rw [List.foldl_append, List.foldl_append]
    apply wp.endState
    exact (h.write sesamCommand w hplace.1 hplace.2).imp (fun _ _ h' => h') fun _ _ h' => h'.2
  · intro done w s h
    exact h.defined_iff w

/-! ## What a transmission hands over -/

/-- Writes that all return are defined, and the state after them is the one in which they return. -/
theorem safe_of_forM {t : SesamController} {ws : List GuestByte} (h : ws.forM (write sesamCommand) s = .ok ⟨⟩ t) :
    Safe sesamCommand s ws ∧ after sesamCommand s ws = t := by
  induction ws generalizing s with
  | nil =>
    cases h
    exact ⟨atEach_nil, rfl⟩
  | cons w ws ih =>
    obtain ⟨s', hw, hrest⟩ := forM_cons_ok h
    obtain ⟨hsafe, hafter⟩ := ih hrest
    have hs' : endState (write sesamCommand w s) = s' := congrArg endState hw
    have hcons (done : List GuestByte) : after sesamCommand s (w :: done) = after sesamCommand s' done := by
      rw [← hs']
      rfl
    constructor
    · unfold Safe
      rw [atEach_cons]
      constructor
      · change wp (write sesamCommand w) _ _ s
        unfold wp
        rw [hw]
        trivial
      · simp only [hcons]
        exact hsafe
    · rw [hcons]
      exact hafter

variable (sesamCommand)

/-- Receiving the bytes of a string collects them in order. -/
theorem forM_dataByte (str pre : List UInt8) (s : SesamController) :
    (str.map dataByte).forM (write sesamCommand) { s with strBuf := some pre } =
      .ok ⟨⟩ { s with strBuf := some (pre ++ str) } := by
  induction str generalizing pre with
  | nil =>
    rw [List.append_nil]
    rfl
  | cons c str ih =>
    have hbyte : write sesamCommand (dataByte c) { s with strBuf := some pre } =
        .ok ⟨⟩ { s with strBuf := some (pre ++ [c]) } := rfl
    have hrest := ih (pre ++ [c])
    rw [List.append_assoc] at hrest
    exact (bind_of_ok hbyte).trans hrest

/-- A string that is handed over becomes the last element of the list. -/
theorem forM_received (str : List UInt8) (s : SesamController) :
    (received str).forM (write sesamCommand) s =
      .ok ⟨⟩ { s with strParam := s.strParam ++ [str], strBuf := none } := by
  have hopen : write sesamCommand (command 0x62) s = .ok ⟨⟩ { s with strBuf := some [] } := rfl
  have hbytes := forM_dataByte sesamCommand str [] s
  refine (bind_of_ok hopen).trans ((forM_append_of_ok hbytes).trans ?_)
  rfl

/-- The strings that are handed over are put behind the list. -/
theorem forM_flatMap_received (strs : List (List UInt8)) (s : SesamController) :
    ∃ strBuf, (strs.flatMap received).forM (write sesamCommand) s =
      .ok ⟨⟩ { s with strParam := s.strParam ++ strs, strBuf := strBuf } := by
  induction strs generalizing s with
  | nil =>
    use s.strBuf
    rw [List.append_nil]
    rfl
  | cons str strs ih =>
    obtain ⟨strBuf, hrest⟩ := ih { s with strParam := s.strParam ++ [str], strBuf := none }
    use strBuf
    rw [List.flatMap_cons, forM_append_of_ok (forM_received sesamCommand str s), hrest]
    dsimp only
    rw [List.append_assoc]
    rfl

/-- From every state a transmission is defined and calls `sesamCommand` once, with the list that is transmitted. -/
theorem transmits (s : SesamController) :
    Transmits sesamCommand s := by
  intro strs
  obtain ⟨strBuf, hstrings⟩ := forM_flatMap_received sesamCommand strs { s with strParam := [] }
  have hclear : write sesamCommand (command 0x58) s = .ok ⟨⟩ { s with strParam := [] } := rfl
  have hreceived : (command 0x58 :: strs.flatMap received).forM (write sesamCommand) s = _ :=
    (bind_of_ok hclear).trans hstrings
  obtain ⟨hsafe, hafter⟩ := safe_of_forM hreceived
  have hlast : wp (write sesamCommand (command 0x78))
      (fun _ s' => s'.called = s.called ++ [(.takeCmd, strs)])
      (fun e s' => ¬ e.Undefined ∧ s'.called = s.called ++ [(.takeCmd, strs)])
      (after sesamCommand s (command 0x58 :: strs.flatMap received)) := by
    rw [hafter]
    change wp (takeCommand sesamCommand) _ _ _
    unfold takeCommand
    apply wp.step
    rw [wp_modify]
    apply wp.step
    apply wp_callCommand
    · rfl
    · exact fun what => ⟨nofun, rfl⟩
  constructor
  · unfold Safe transmission
    rw [atEach_concat]
    exact ⟨hsafe, hlast.imp (fun _ _ _ => trivial) fun _ _ h => h.1⟩
  · unfold transmission after
    rw [List.foldl_append]
    exact wp.endState (P := fun s' => s'.called = _) (hlast.imp (fun _ _ h => h) fun _ _ h => h.2)

/-! ## Every order of writes -/

/-- The string and the list are used only while they are there, whatever the guest writes, exactly when the bytes of
a string and its end come while one is received and the benchmark command comes while the list has an element. What
is transmitted then is what `sesamCommand` is called with. -/
theorem safe_and_transmits_iff (sesamCommand : MonitorState → List (List UInt8) → Option String)
    (ws : List GuestByte) :
    Safe sesamCommand init ws ∧ Transmits sesamCommand (after sesamCommand init ws) ↔ GuestByte.AllInPlace ws := by
  rw [safe_iff, and_iff_left (transmits sesamCommand _)]

/-- The first byte that is written to the data register goes behind a pointer that has no value yet. -/
theorem not_safe_dataByte :
    ¬ ∀ ws, Safe (fun _ _ => none) init ws ∧ Transmits (fun _ _ => none) (after (fun _ _ => none) init ws) := by
  intro h
  have hplace := (safe_iff _ [dataByte 0x61]).1 (h [dataByte 0x61]).1
  cases (hplace [] (dataByte 0x61) [] rfl).1 (.inl ⟨rfl, nofun⟩)

end SesamController

end Vpsim.Peripherals
