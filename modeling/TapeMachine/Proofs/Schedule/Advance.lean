import TapeMachine.Proofs.Schedule.Turn

/-! Small turns, one by one.

Each function that a turn goes through has its own lemma here, and
`advance_turned` puts them together. A source is asked, and whatever it signals
comes after the machine began to wait; a sink takes a character, and whatever it
signals comes after the machine put it out, but before the step counts. -/
namespace TapeMachine.Bench

variable {b : Bench} {fs : List Frame} {i : Nat} {m : Machine}

/-! ### The source and the sink -/

theorem ask_spec (hm : b.Manned) (hs : Suspended fs) (i epoch : Nat) :
    Rewinds (b.record (.asked i)) (b.ask i (.reading i epoch :: fs)).1 ∧
      (b.ask i (.reading i epoch :: fs)).2.Fits ∧
      readings (b.ask i (.reading i epoch :: fs)).2.frames = (i, epoch) :: readings fs := by
  have hasked : Rewinds (b.record (.asked i))
      ({b with requests := b.requests + 1}.record (.asked i)) := .of_eq rfl rfl (.of_eq rfl rfl rfl)
  simp only [ask]
  split
  next => exact ⟨hasked, .answered _ i epoch hs, rfl⟩
  next => exact ⟨hasked, .answered _ i epoch hs, rfl⟩
  next => exact ⟨hasked, .getting i epoch hs, rfl⟩
  next =>
    refine ⟨hasked.trans (.of_eq rfl (by simp [Event.sign?]) (.record _ _)), ?_, rfl⟩
    exact .answered _ i epoch hs
  next =>
    refine ⟨hasked.trans (.of_eq rfl rfl (.of_eq rfl rfl rfl)), ?_, rfl⟩
    exact .answered _ i epoch hs
  next reply _ =>
    split
    next signals answer _ =>
      refine ⟨hasked.trans (rewinds_obey (hasked.keeps.manned ?_) false signals), ?_, rfl⟩
      · exact (Keeps.record b _).manned hm
      · exact .answered _ i epoch hs
    next deeds answer _ => exact ⟨hasked, .replying deeds answer i epoch hs, rfl⟩

theorem deliver_spec (hm : b.Manned) (i : Nat) (c : Char) :
    Rewinds (b.record (.emitted i c b.outputSize?)) (b.deliver i c).1 ∧
      ((b.deliver i c).2 ≠ none → b.Frail) := by
  have hcalled : Rewinds (b.record (.emitted i c b.outputSize?))
      ({b with deliveries := b.deliveries + 1}.record (.emitted i c b.outputSize?)) :=
    .of_eq rfl rfl (.of_eq rfl rfl rfl)
  simp only [deliver]
  split
  next => exact ⟨hcalled, fun h => absurd rfl h⟩
  next => exact ⟨hcalled, fun h => absurd rfl h⟩
  next room hk =>
    split
    next hb =>
      refine ⟨hcalled, fun _ => ⟨.stream room, hk, ?_⟩⟩
      cases room with
      | none => simp only [blocked, hk, Bool.false_eq_true] at hb
      | some room => trivial
    next =>
      refine ⟨hcalled.trans ?_, fun h => absurd rfl h⟩
      exact .of_eq rfl (by simp [write, Event.sign?, signs, record])
        ((Keeps.write _ [c]).trans (.record _ _))
  next reaction hk =>
    refine ⟨hcalled.trans (rewinds_obey (hcalled.keeps.manned ?_) false _), fun h => ?_⟩
    · exact (Keeps.record b _).manned hm
    · exact ⟨.scripted reaction, hk, _, h⟩

/-! ### Steps -/

theorem request_turned (hi : b.machine? i = some m) (hst : m.stance = .request) (hm : b.Manned)
    (hs : Suspended fs) : Turned b fs (b.request i fs) := by
  have heq : b.request i fs = ((b.update i fun m => {m with stepping := true}).log
      (.requested m.counter)).ask i (.reading i m.epoch :: fs) := by rw [request, hi]
  rw [heq]
  obtain ⟨hfree, hasks⟩ := Machine.stance_eq_request_iff.mp hst
  have hk := (Keeps.update b i fun m => {m with stepping := true}).trans
    (.log _ (.requested m.counter))
  obtain ⟨hr, hf, hrd⟩ := ask_spec (hk.manned hm) hs i m.epoch
  refine .of_act .ask hi (.ask (by rwa [Machine.stance_bare])) (bare_update_of hi _) ?_
    (hk.trans (.record _ _)) hr (fun h => by cases h) hf ?_
  · simp [Event.sign?, Machine.Act.signs]
  · rw [hrd]
    exact .set_began (getElem?_bare_of hi) hfree rfl hasks

theorem putOut_turned (hi : b.machine? i = some m) (hst : m.stance = .output) (hm : b.Manned)
    (hs : Suspended fs) : Turned b fs (b.putOut i fs) := by
  have hbi := getElem?_bare_of hi
  have hout : m.bare.stance = .output := by rwa [Machine.stance_bare]
  rw [putOut, hi]
  cases hsp : m.speaks with
  | false =>
    simp only [Option.map_some, hsp]
    refine .of_act_only .put hi (.put hout) (bare_update_of hi _) ?_ (.update b i _)
      (fun h => by cases h) (.returned _ hs) (.set_same hbi rfl)
    have hsp' : m.bare.speaks = false := hsp
    simp [Machine.Act.signs, hsp']
  | true =>
    simp only [Option.map_some, hsp]
    have hsp' : m.bare.speaks = true := hsp
    have hsigns : ∀ (f : Machine → Machine) (size : Option Nat),
        ((b.update i f).record (.emitted i m.cellChar size)).signs =
          b.signs ++ Machine.Act.signs i m.bare .put := by
      intro f size
      rw [signs_record, signs_update, Machine.Act.signs, hsp']
      rfl
    have hk : ∀ (f : Machine → Machine) (size : Option Nat),
        Keeps b ((b.update i f).record (.emitted i m.cellChar size)) :=
      fun f size => (Keeps.update b i f).trans (.record _ _)
    obtain ⟨hr, hfail⟩ := deliver_spec ((Keeps.update b i Machine.emit).manned hm) i m.cellChar
    split
    next delivered e heq =>
      rw [heq] at hr hfail
      refine .of_act .spill hi (.spill hout) (bare_update_of hi _) (hsigns _ _) (hk _ _) hr
        (fun _ => .inl ?_) (.returned _ hs) (.set_same hbi rfl)
      exact (Keeps.update b i Machine.emit).frail (hfail (Option.some_ne_none e))
    next delivered heq =>
      rw [heq] at hr
      split
      next he =>
        have hmi := machine?_update_self hi Machine.emit
        have hr' := hr.update hmi he Machine.bare_advance
        refine .of_act .put hi (.put hout) ?_ ?_ ?_ hr' (fun h => by cases h) (.returned _ hs)
          (.set_same hbi rfl)
        · show ((b.update i Machine.emit).update i Machine.advance).bare = _
          rw [bare_update_of hmi, bare_update_of hi, List.set_set]
          rfl
        · exact hsigns Machine.emit _
        · exact (hk Machine.emit _).trans (.update _ i _)
      next he =>
        exact .of_act .spill hi (.spill hout) (bare_update_of hi _) (hsigns _ _) (hk _ _) hr
          (fun _ => .inr he) (.returned _ hs) (.set_same hbi rfl)

/-! ### Steps that need nothing from outside -/

theorem complain_spec (hi : b.machine? i = some m) : (b.complain i).machine? i = some m.noted ∧
    (b.complain i).bare = b.bare.set i m.bare.noted ∧
    (b.complain i).signs = b.signs ++ (m.complaint?.map Sign.complained).toList ∧
    Keeps b (b.complain i) := by
  have hc : (b.machine? i).bind Machine.complaint? = m.complaint? := by rw [hi]; rfl
  have hbi := getElem?_bare_of hi
  rw [complain, hc, ← Machine.bare_noted, Machine.noted]
  cases m.complaint? with
  | none =>
    obtain ⟨hlt, hget⟩ := List.getElem?_eq_some_iff.mp hbi
    refine ⟨hi, ?_, (List.append_nil _).symm, .refl b⟩
    rw [← hget, List.set_getElem_self]
  | some c =>
    refine ⟨machine?_update_self hi _, bare_update_of hi _, ?_, ?_⟩
    · cases c <;> simp [Event.sign?]
    · exact (Keeps.update b i _).trans (.log _ _)

theorem inward_turned (hi : b.machine? i = some m) (hst : m.stance = .inward)
    (hs : Suspended fs) : Turned b fs
      ((b.complain i).update i (fun m => m.execute.advance), .value (.stepped true) fs) := by
  obtain ⟨hnoted, hbare, hsigns, hk⟩ := complain_spec hi
  have hbi := getElem?_bare_of hi
  refine .of_act_only .work hi (.work (by rwa [Machine.stance_bare])) ?_ hsigns
    (hk.trans (.update _ i _)) (fun h => by cases h) (.returned _ hs) (.set_same hbi ?_)
  · rw [bare_update_of hnoted, hbare, List.set_set, Machine.bare_advance, Machine.bare_execute,
      Machine.bare_noted]
  · show m.bare.noted.execute.stepping = m.bare.stepping
    rw [(Machine.inner_execute _).stepping, (Machine.inner_noted _).stepping]

/-- A step that is asked for while one waits is refused, and nothing has happened. -/
theorem advance_of_stepping {n : Machine} (hn : b.machine? i = some n)
    (hs : n.stepping = true) (fs : List Frame) :
    b.advance fs (.call (.step i)) = (b, .fail (.reentrantStep n.counter) fs) := by
  show b.callStep i fs = _
  rw [callStep, hn, Option.map_some, Machine.stance_of_stepping hs]

theorem callStep_turned (hm : b.Manned) (hs : Suspended fs) (i : Nat) :
    Turned b fs (b.callStep i fs) := by
  rw [callStep]
  cases hi : b.machine? i with
  | none => exact .quiet rfl rfl (.refl b) (.returned _ hs) rfl
  | some m =>
    rw [Option.map_some]
    cases hst : m.stance with
    | occupied counter => exact .quiet rfl rfl (.refl b) (.returned _ hs) rfl
    | ended =>
      refine .quiet (bare_update_flags ?_ b i) rfl (.update b i _) (.returned _ hs) rfl
      exact fun _ => rfl
    | output => exact putOut_turned hi hst hm hs
    | request => exact request_turned hi hst hm hs
    | inward => exact inward_turned hi hst hs

/-! ### The end of a wait -/

theorem endReading_turned {epoch : Nat} (hw : Waiting b.bare i) (ha : Awaits b.bare i epoch)
    (hs : Suspended fs) (a : Answer) :
    Turned b (.reading i epoch :: fs) (b.endReading i epoch a fs) := by
  obtain ⟨n, hn, hle, hasks⟩ := ha
  have hwait : n.stepping = true := (Waiting.iff_of hn).mp hw
  obtain ⟨m, hi, rfl⟩ := exists_of_getElem?_bare hn
  have hfreed := bare_update_of hi fun m => {m with stepping := false}
  cases a with
  | error e =>
    exact .of_act_only (.drop none) hi (.drop none hwait (fun h => absurd rfl h)) hfreed
      (List.append_nil _).symm (.update b i _) (fun h => by cases h) (.returned _ hs)
      (.set_ended hn rfl)
  | ok text =>
    simp only [endReading]
    have hmi := machine?_update_self hi fun m => {m with stepping := false}
    have hepoch : ((b.update i fun m => {m with stepping := false}).record
        (.answered i text)).epoch? i = some m.epoch := by
      show ((b.update i fun m => {m with stepping := false}).machine? i).map _ = _
      rw [hmi]
      rfl
    rw [hepoch]
    split
    next he =>
      have hasks' : m.bare.Asks := hasks (Option.some.inj he)
      refine .of_act_only (.hear text) hi (.hear text hwait hasks') ?_ ?_
        (((Keeps.update b i _).trans (.record _ _)).trans (.update _ i _)) (fun h => by cases h)
        (.returned _ hs) (.set_ended hn ?_)
      · show ((b.update i fun m => {m with stepping := false}).update i
            fun m => (m.receive text).consume.advance).bare = _
        rw [bare_update_of hmi, hfreed, List.set_set, Machine.bare_advance, Machine.bare_consume,
          Machine.bare_receive]
        rfl
      · rw [signs_update, signs_record]
        rfl
      · show (Machine.receive {m.bare with stepping := false} text).consume.stepping = false
        rw [(Machine.inner_consume _).stepping]
        rfl
    next he =>
      refine .of_act_only (.drop (some text)) hi (.drop _ hwait fun _ => ?_) hfreed ?_
        (((Keeps.update b i _).trans (.record _ _)).trans (.log _ _)) (fun h => by cases h)
        (.returned _ hs) (.set_ended hn rfl)
      · have hne : m.bare.epoch ≠ epoch := fun h => he (congrArg some h)
        omega
      · simp [Event.sign?, Machine.Act.signs]

/-! ### Runs -/

theorem callRun_turned (hs : Suspended fs) (i : Nat) : Turned b fs (b.callRun i fs) := by
  have hgoing : (b.update i Machine.unpause).bare = b.bare :=
    bare_update_flags Machine.bare_unpause b i
  simp only [callRun]
  split
  · exact .quiet hgoing rfl (.update b i _) (.returned _ hs) rfl
  · refine .quiet ?_ rfl ((Keeps.update b i _).trans (.update _ i _)) (.looping i hs) rfl
    exact (bare_update_flags Machine.bare_enterLoop _ i).trans hgoing

theorem callResume_turned (hs : Suspended fs) (i : Nat) : Turned b fs (b.callResume i fs) := by
  rw [callResume]
  split
  · exact callRun_turned hs i
  · exact .quiet rfl rfl (.refl b) (.returned _ hs) rfl

theorem endRun_turned (hs : Suspended fs) (i : Nat) :
    Turned b (.looping i :: fs) (b.endRun i fs) := by
  have hleft : (b.update i Machine.leaveLoop).bare = b.bare :=
    bare_update_flags Machine.bare_leaveLoop b i
  simp only [endRun]
  split
  · exact .quiet hleft rfl (.update b i _) (.returned _ hs) rfl
  · refine .quiet hleft ?_ ((Keeps.update b i _).trans (.log _ _)) (.returned _ hs) rfl
    split <;> simp [Event.sign?]

theorem nextStep_turned (hs : Suspended fs) (i : Nat) :
    Turned b (.looping i :: fs) (b.nextStep i fs) := by
  rw [nextStep]
  split
  · exact .quiet rfl rfl (.refl b) (.call _ (.looping i hs)) rfl
  · exact endRun_turned hs i

theorem afterStep_turned (hs : Suspended fs) (i : Nat) (o : Outcome) :
    Turned b (.looping i :: fs) (b.afterStep i o fs) := by
  rw [afterStep.eq_def]
  split
  · exact .quiet (bare_update_flags Machine.bare_leaveLoop b i) rfl (.update b i _)
      (.returned _ hs) rfl
  · split
    · exact .quiet rfl rfl (.refl b) (.looping i hs) rfl
    · exact .quiet rfl rfl (.refl b) (.looping i hs) rfl
  · exact endRun_turned hs i

/-! ### Sessions -/

/-- A machine is made for a session, and nothing else shows. -/
theorem made_turned {made : Bench} {p : Program} {o : Options} {s s' : Session} {r : Bench × Turn}
    (hmade : b.make p o = .ok made) (hb : b.session = some s) (hr : r.1.bare = made.bare)
    (hsg : r.1.signs = made.signs) (hs : r.1.session = some s')
    (hc : s'.current = some b.machines.size) (hk : r.1.sink = made.sink) (hf : r.2.Fits)
    (hrd : readings r.2.frames = readings fs) : Turned b fs r := by
  obtain ⟨m, hnew, -, hmb, hms, -, hmk⟩ := exists_of_make hmade
  have hbare : r.1.bare = b.bare ++ [m] := hr.trans hmb
  have hsize : r.1.machines.size = b.machines.size + 1 := by
    rw [← length_bare, hbare, List.length_append, length_bare, List.length_singleton]
  refine ⟨hf, ⟨fun h => ⟨fun hn => ?_, fun t i ht hi => ?_⟩, fun h => ?_, fun h => ?_⟩,
    ⟨[], ?_, ?_⟩, ?_⟩
  · rw [hs] at hn
    cases hn
  · rw [hs] at ht
    cases ht
    rw [hc] at hi
    cases hi
    omega
  · rw [hb] at h
    cases h
  · rw [Frail, hk, hmk] at h
    exact h
  · rw [hbare]
    exact .made hnew
  · rw [hsg, hms]
    exact (List.append_nil _).symm
  · rw [hbare, hrd]
    exact .same (Waiting.append_new hnew)

theorem callStart_turned (hs : Suspended fs) : Turned b fs (b.callStart fs) := by
  rw [callStart]
  cases hb : b.session with
  | none => exact .quiet rfl rfl (.refl b) (.returned _ hs) rfl
  | some s =>
    simp only
    split
    next i _ hc =>
      have hk : Keeps b (b.putSession {s with phase := .running}) :=
        .of_session hb rfl (fun _ => id) rfl rfl
      split
      · refine .quiet ?_ rfl (hk.trans (.update _ i _)) (.returned _ hs) rfl
        exact bare_update_flags Machine.bare_unpause _ i
      · exact .quiet rfl rfl hk (.call _ (.starting i hs)) rfl
    next =>
      split
      next e _ => exact .quiet rfl rfl (.refl b) (.returned _ hs) rfl
      next made hmade =>
        refine made_turned hmade hb rfl ?_ rfl rfl rfl (.call _ (.starting _ hs)) rfl
        rw [signs_log]
        exact List.append_nil _
    next => exact .quiet rfl rfl (.refl b) (.returned _ hs) rfl

theorem endStart_turned (hs : Suspended fs) (i : Nat) (v : Value) :
    Turned b (.starting i :: fs) (b.endStart i v fs) := by
  rw [endStart.eq_def]
  simp only
  split
  next s state hb _ =>
    refine .quiet rfl rfl (.of_session hb rfl (fun j hj => ?_) rfl rfl) (.returned _ hs) rfl
    rw [Session.settle] at hj
    split at hj
    · exact hj
    · exact hj
  next => exact .quiet rfl rfl (.refl b) (.returned _ hs) rfl

theorem callSessionStep_turned (hs : Suspended fs) : Turned b fs (b.callSessionStep fs) := by
  rw [callSessionStep]
  cases hb : b.session with
  | none => exact .quiet rfl rfl (.refl b) (.returned _ hs) rfl
  | some s =>
    simp only
    split
    next => exact .quiet rfl rfl (.refl b) (.returned _ hs) rfl
    next i _ _ =>
      split
      · exact .quiet rfl rfl (.refl b) (.returned _ hs) rfl
      · exact .quiet rfl rfl (.refl b) (.call _ (.stepping i hs)) rfl
    next =>
      split
      next e _ => exact .quiet rfl rfl (.refl b) (.returned _ hs) rfl
      next made hmade =>
        exact made_turned hmade hb rfl rfl rfl rfl rfl (.call _ (.stepping _ hs)) rfl

theorem endSessionStep_turned (hs : Suspended fs) (i : Nat) :
    Turned b (.stepping i :: fs) (b.endSessionStep i fs) := by
  rw [endSessionStep]
  split
  next s state hb _ =>
    refine .quiet rfl rfl (.of_session hb rfl (fun j hj => ?_) rfl rfl) (.returned _ hs) rfl
    rw [Session.note] at hj
    split at hj
    · exact hj
    · exact hj
  next => exact .quiet rfl rfl (.refl b) (.returned _ hs) rfl

/-! ### All turns -/

theorem call_turned (hm : b.Manned) (hs : Suspended fs) (c : Call) :
    Turned b fs (b.call fs c) := by
  cases c with
  | step i => exact callStep_turned hm hs i
  | run i => exact callRun_turned hs i
  | resume i => exact callResume_turned hs i
  | sessionStart => exact callStart_turned hs
  | sessionStep => exact callSessionStep_turned hs

theorem giveBack_turned (hs : Suspended fs) (o : Outcome) : Turned b fs (b.giveBack o fs) := by
  cases hs with
  | nil => exact .quiet rfl rfl (.refl b) trivial rfl
  | looping i hs => exact afterStep_turned hs i o
  | starting i hs =>
    cases o with
    | ok v => exact endStart_turned hs i v
    | error e => exact .quiet rfl rfl (.refl b) (.returned _ hs) rfl
  | stepping i hs =>
    cases o with
    | ok v => exact endSessionStep_turned hs i
    | error e => exact .quiet rfl rfl (.refl b) (.returned _ hs) rfl
  | calling v deeds answer i epoch hs =>
    exact .quiet rfl (by simp [giveBack, Event.sign?]) (.record b _)
      (.replying deeds answer i epoch hs) rfl

/-- One small turn, whatever the thread is about to do. -/
theorem advance_turned {f : Focus} (hm : b.Manned) (hf : f.Fits fs)
    (hw : ∀ i epoch, (i, epoch) ∈ readings fs → Waiting b.bare i ∧ Awaits b.bare i epoch) :
    Turned b fs (b.advance fs f) := by
  cases hf with
  | call c hs => exact call_turned hm hs c
  | returned o hs => exact giveBack_turned hs o
  | answered a i epoch hs =>
    obtain ⟨hwait, hawaits⟩ := hw i epoch (List.mem_cons_self ..)
    exact endReading_turned hwait hawaits hs a
  | looping i hs => exact nextStep_turned hs i
  | getting i epoch hs =>
    simp only [advance, goOn]
    split
    · exact .quiet rfl rfl (.of_eq rfl rfl rfl) (.answered _ i epoch hs) rfl
    · exact .quiet rfl rfl (.refl b) (.getting i epoch hs) rfl
  | replying deeds answer i epoch hs =>
    rcases deeds with - | ⟨- | g | v, deeds⟩
    · exact .quiet rfl rfl (.refl b) (.answered _ i epoch hs) rfl
    · exact .quiet rfl rfl (.refl b) (.replying deeds answer i epoch hs) rfl
    · exact .of_rewinds (rewinds_obey hm true [g]) (.replying deeds answer i epoch hs) rfl
    · exact .quiet rfl rfl (.refl b) (.call _ (.calling v deeds answer i epoch hs)) rfl

end TapeMachine.Bench
