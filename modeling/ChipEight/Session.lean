import ChipEight.Machine

/-!
# Sessions

A session drives a machine for its user, one turn after the other, until the user wants to stop
or an instruction fails. A turn executes an instruction, looks at the user's keys and shows the
frame, ticks the timers as often as ticks have fallen due, and checks a pending key wait. The
buzzer goes on and off with the sound timer: it is looked at after the instruction and whenever a
tick stops it. Stopping is heeded at the end of the turn.

The outside world enters as data: a poll for each turn, and the number of ticks that fall due in
each, which a `Clock` gives for the time that has passed.

* `KeyEdit`, `Poll` : what the user does between two turns;
* `Hook` : what the user sees and hears, in order;
* `buzzerChange`, `buzzerChanges` : when the buzzer has to be switched;
* `Machine.turn` : one turn;
* `Machine.play`, `Machine.run` : all turns of a session.
-/

namespace ChipEight

/-- A change of the keypad. -/
inductive KeyEdit where
  /-- Exactly these keys are down. -/
  | set (keypad : Keypad)
  /-- A key goes down. -/
  | press (key : Byte)
  /-- A key goes up. -/
  | release (key : Byte)
deriving DecidableEq, Repr

/-- The keypad after a change. -/
def KeyEdit.apply (p : Keypad) : KeyEdit → Keypad
  | set q => q
  | press key => p.press key
  | release key => p.release key

/-- What a look at the user's input finds. -/
structure Poll where
  /-- The changes of the keypad since the last look, in order. -/
  edits : List KeyEdit
  /-- Whether the user wants to stop. -/
  quits : Bool
deriving DecidableEq, Repr

/-- The user only wants to stop. -/
def Poll.quit : Poll := ⟨[], true⟩

/-- A contact with the user. -/
inductive Hook where
  /-- A look at the input. -/
  | poll
  /-- A frame is shown. -/
  | render (frame : Frame)
  /-- The buzzer goes on or off. -/
  | buzz (on : Bool)
deriving DecidableEq

/-- The timing of a session, in nanoseconds. -/
structure Config where
  /-- The time for one turn; what is left of it is slept through. -/
  cycleTime : Nat
  /-- The time between two ticks of the timers. -/
  timerPeriod : Nat
deriving DecidableEq, Repr

/-- Turns of two milliseconds, and sixty ticks a second. -/
def Config.standard : Config := ⟨2 * TimeUnit.millisecond.length, TimeUnit.second.length / 60⟩

/-- What a session leaves behind and what its user noticed. -/
structure Playback where
  /-- The machine, the fault that ended the session, if one did, and the log. -/
  outcome : Outcome Machine
  /-- The contacts with the user, in order. -/
  hooks : List Hook

/-- The playback with that of an earlier part of the session before it. -/
def Playback.after (earlier later : Playback) : Playback :=
  ⟨later.outcome.after earlier.outcome.log, earlier.hooks ++ later.hooks⟩

/-- What a turn leaves behind, and whether the buzzer is on then. -/
structure Turn where
  /-- What the turn leaves behind and what the user noticed of it. -/
  playback : Playback
  /-- Whether the buzzer is on. -/
  buzzing : Bool

/-- The switching of the buzzer that is needed for it to sound or not. -/
def buzzerChange (buzzing sounding : Bool) : List Bool :=
  if sounding = buzzing then [] else [sounding]

/-- The switchings that are needed for the buzzer to do each of these things, one after the
other. -/
def buzzerChanges (buzzing : Bool) : List Bool → List Bool
  | [] => []
  | sounding :: rest => buzzerChange buzzing sounding ++ buzzerChanges sounding rest

namespace Machine

/-- The machine after the user's changes of the keypad. -/
def editKeypad (m : Machine) (edits : List KeyEdit) : Machine :=
  m.setKeypad (edits.foldl KeyEdit.apply m.state.keypad)

/-- The part of a turn after its instruction has succeeded. -/
def finishTurn (m : Machine) (buzzing : Bool) (poll : Poll) (due : Nat) : Turn :=
  let sounding := m.state.timers.isSounding
  let switchedOn := buzzerChange buzzing sounding
  let shown := m.editKeypad poll.edits
  let stops := (shown.state.timers.buzzers due).filter (· == .stopped)
  let switchedOff := buzzerChanges sounding (stops.map fun _ => false)
  let checked := (shown.ticks due).check
  let farewell := if poll.quits then [.quitRequested] else []
  { playback :=
      { outcome :=
          (Outcome.reported checked.state (checked.log ++ farewell)).after
            (switchedOn.map .buzzer ++ switchedOff.map .buzzer)
        hooks :=
          switchedOn.map .buzz ++ [.poll, .render shown.state.frame] ++ switchedOff.map .buzz }
    buzzing := sounding && stops.isEmpty }

/-- One turn. If its instruction fails, nothing else happens in it. -/
def turn (m : Machine) (buzzing : Bool) (poll : Poll) (due : Nat) : Turn :=
  let stepped := m.step
  match stepped.fault with
  | some _ => ⟨⟨stepped, []⟩, buzzing⟩
  | none =>
    let t := stepped.state.finishTurn buzzing poll due
    { t with playback := Playback.after ⟨stepped, []⟩ t.playback }

/-- The turns from number `k` on, of which `due k` tells how many ticks fall due. The user's looks
are used up one in each turn; when there are none left, the user wants to stop. -/
def play (due : Nat → Nat) (m : Machine) (buzzing : Bool) (k : Nat) : List Poll → Playback
  | [] => (m.turn buzzing .quit (due k)).playback
  | poll :: polls =>
    let t := m.turn buzzing poll (due k)
    if t.playback.outcome.fault.isSome || poll.quits then t.playback
    else t.playback.after (play due t.playback.outcome.state t.buzzing (k + 1) polls)

/-- A whole session, which starts with the buzzer off. -/
def run (config : Config) (due : Nat → Nat) (m : Machine) (polls : List Poll) : Playback :=
  let playback := m.play due false 0 polls
  { playback with
    outcome := playback.outcome.after [.starting config.cycleTime config.timerPeriod] }

end Machine

end ChipEight
