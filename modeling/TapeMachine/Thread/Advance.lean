import TapeMachine.Thread.Machine
import TapeMachine.Thread.Session

/-! A thread goes forward.

`Bench.advance` is one small turn of a thread on the bench. A failure passes from
a call to the frame around it until it is the outcome of the thread, or until a
source that made the call takes note of it and goes on. -/
namespace TapeMachine.Bench

/-- The call that a source makes on what it serves. -/
def callOf (b : Bench) : Verb → Call
  | .step => if b.session.isSome then .sessionStep else .step 0
  | .run => .run 0
  | .resume => .resume 0
  | .start => .sessionStart

def call (b : Bench) (frames : List Frame) : Call → Bench × Turn
  | .step i => b.callStep i frames
  | .run i => b.callRun i frames
  | .resume i => b.callResume i frames
  | .sessionStart => b.callStart frames
  | .sessionStep => b.callSessionStep frames

/-- A call has ended, and the frame around it goes on. -/
def giveBack (b : Bench) (o : Outcome) : List Frame → Bench × Turn
  | [] => (b, .done o)
  | .looping i :: frames => b.afterStep i o frames
  | .calling v :: frames => (b.record (.called v o), .go .resumed frames)
  | .starting i :: frames =>
    match o with
    | .ok v => b.endStart i v frames
    | .error e => (b, .fail e frames)
  | .stepping i :: frames =>
    match o with
    | .ok _ => b.endSessionStep i frames
    | .error e => (b, .fail e frames)
  | _ :: frames => (b, .go (.returned o) frames)

/-- A source has answered, and the step that asked goes on. -/
def hear (b : Bench) (a : Answer) : List Frame → Bench × Turn
  | .reading i epoch :: frames => b.endReading i epoch a frames
  | _ :: frames => (b, .go (.answered a) frames)
  | [] => (b, .done (a.map (fun _ => .state none)))

/-- A frame goes on by itself: a source with its next deed, a queue with its first
text, a run loop with its next step. -/
def goOn (b : Bench) : List Frame → Bench × Turn
  | .looping i :: frames => b.nextStep i frames
  | .getting :: frames =>
    match b.source with
    | some (.queue (text :: texts)) =>
      ({b with source := some (.queue texts)}, .go (.answered (.ok text)) frames)
    | _ => (b, .await (.getting :: frames))
  | .replying [] answer :: frames => (b, .go (.answered (Answer.ofReply answer)) frames)
  | .replying (.rest :: deeds) answer :: frames => (b, .sleep (.replying deeds answer :: frames))
  | .replying (.signal s :: deeds) answer :: frames =>
    (b.obey true [s], .go .resumed (.replying deeds answer :: frames))
  | .replying (.call v :: deeds) answer :: frames =>
    (b, .go (.call (b.callOf v)) (.calling v :: .replying deeds answer :: frames))
  | _ :: frames => (b, .go .resumed frames)
  | [] => (b, .done (.ok (.state none)))

/-- One small turn of a thread. -/
def advance (b : Bench) (frames : List Frame) : Focus → Bench × Turn
  | .call c => b.call frames c
  | .returned o => b.giveBack o frames
  | .answered a => b.hear a frames
  | .resumed => b.goOn frames

end TapeMachine.Bench
