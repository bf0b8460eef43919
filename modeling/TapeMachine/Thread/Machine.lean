import TapeMachine.Thread

/-! Calls on a machine.

A step that finds another one waiting for input is refused. Otherwise it executes
one instruction; only a request for text can make it wait, and when a reset has
come meanwhile it leaves the machine alone. A run takes steps until the program
ends or a pause is seen, with a sleep after every step if the machine is
cooperative. -/
namespace TapeMachine.Bench

/-! ### Steps -/

/-- The source is called for a step of machine `i`. -/
def ask (b : Bench) (i : Nat) (frames : List Frame) : Bench × Turn :=
  let asked := {b with requests := b.requests + 1}.record (.asked i)
  match asked.source with
  | none => (asked, .go (.answered (.ok [])) frames)
  | some (.fixed text) =>
    (asked, .go (.answered (.ok (if asked.requests = 1 then text else []))) frames)
  | some (.queue _) => (asked, .go .resumed (.getting :: frames))
  | some (.lines [] _) => (asked.log .exhausted, .go (.answered (.ok [])) frames)
  | some (.lines rest keepEnd) =>
    let (line, others) := Source.splitLine rest
    ({asked with source := some (.lines others keepEnd)},
      .go (.answered (.ok (if keepEnd then line else Source.withoutEnd line))) frames)
  | some (.scripted reply) =>
    match reply asked.requests with
    | .now signals answer =>
      (asked.obey false signals, .go (.answered (Answer.ofReply answer)) frames)
    | .later deeds answer => (asked, .go .resumed (.replying deeds answer :: frames))

/-- A step asks for text. -/
def request (b : Bench) (i : Nat) (frames : List Frame) : Bench × Turn :=
  match b.machine? i with
  | none => (b, .value (.stepped false) frames)
  | some {counter, epoch, ..} =>
    ((b.update i (fun m => {m with stepping := true})).log (.requested counter)).ask i
      (.reading i epoch :: frames)

/-- A step puts out the character in the cell. If the sink fails the character
stays put out, and nothing else is done. -/
def putOut (b : Bench) (i : Nat) (frames : List Frame) : Bench × Turn :=
  match (b.machine? i).map (fun m => (m.cellChar, m.speaks, m.epoch)) with
  | none => (b, .value (.stepped false) frames)
  | some (_, false, _) =>
    (b.update i (fun m => m.emit.advance), .value (.stepped true) frames)
  | some (c, true, epoch) =>
    match (b.update i Machine.emit).deliver i c with
    | (delivered, some e) => (delivered, .fail e frames)
    | (delivered, none) =>
      if delivered.epoch? i = some epoch then
        (delivered.update i Machine.advance, .value (.stepped true) frames)
      else (delivered, .value (.stepped false) frames)

/-- A bracket without a partner is complained about before it is executed. -/
def complain (b : Bench) (i : Nat) : Bench :=
  match (b.machine? i).bind Machine.complaint? with
  | none => b
  | some c =>
    (b.update i (fun m => m.report c)).log
      (match c with
        | .unclosed index => .unclosed index
        | .unopened index => .unopened index)

def callStep (b : Bench) (i : Nat) (frames : List Frame) : Bench × Turn :=
  match (b.machine? i).map Machine.stance with
  | none => (b, .value (.stepped false) frames)
  | some (.occupied counter) => (b, .fail (.reentrantStep counter) frames)
  | some .ended =>
    (b.update i (fun m => {m with running := false}), .value (.stepped false) frames)
  | some .output => b.putOut i frames
  | some .request => b.request i frames
  | some .inward =>
    ((b.complain i).update i (fun m => m.execute.advance), .value (.stepped true) frames)

/-- The text that a step of machine `i` waited for has come, or the source failed. -/
def endReading (b : Bench) (i epoch : Nat) (a : Answer) (frames : List Frame) : Bench × Turn :=
  let freed := b.update i (fun m => {m with stepping := false})
  match a with
  | .error e => (freed, .fail e frames)
  | .ok text =>
    let heard := freed.record (.answered i text)
    if heard.epoch? i = some epoch then
      (heard.update i (fun m => (m.receive text).consume.advance), .value (.stepped true) frames)
    else (heard.log .discarded, .value (.stepped false) frames)

/-! ### Runs -/

/-- A run that finds a run loop active only takes back a pause. -/
def callRun (b : Bench) (i : Nat) (frames : List Frame) : Bench × Turn :=
  let going := b.update i Machine.unpause
  if going.holds i (·.looping) then (going, .value (.state (going.snapshot? i)) frames)
  else (going.update i Machine.enterLoop, .go .resumed (.looping i :: frames))

def callResume (b : Bench) (i : Nat) (frames : List Frame) : Bench × Turn :=
  if b.holds i (·.paused) then b.callRun i frames else (b, .value (.state none) frames)

/-- A run loop ends without a failure. -/
def endRun (b : Bench) (i : Nat) (frames : List Frame) : Bench × Turn :=
  let left := b.update i Machine.leaveLoop
  match left.machine? i with
  | none => (left, .value (.state none) frames)
  | some m =>
    (left.log (if m.paused then .paused m.counter m.steps else .finished m.steps),
      .value (.state (some m.toSnapshot)) frames)

/-- A run loop looks whether it goes on. -/
def nextStep (b : Bench) (i : Nat) (frames : List Frame) : Bench × Turn :=
  if b.holds i Machine.goesOn then (b, .go (.call (.step i)) (.looping i :: frames))
  else b.endRun i frames

/-- A step of a run loop has ended. -/
def afterStep (b : Bench) (i : Nat) (o : Outcome) (frames : List Frame) : Bench × Turn :=
  match o with
  | .error e => (b.update i Machine.leaveLoop, .fail e frames)
  | .ok (.stepped true) =>
    if b.holds i (·.cooperative) then (b, .sleep (.looping i :: frames))
    else (b, .go .resumed (.looping i :: frames))
  | .ok _ => b.endRun i frames

end TapeMachine.Bench
